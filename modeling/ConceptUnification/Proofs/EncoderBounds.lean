import ConceptUnification.Proofs.EncodedGoal
import ConceptUnification.Proofs.LiteralRequests

/-!
# Bounds of the encoder

Clauses are made of literals that were asked for before, so all literals are
over variables of the formula, and every pair that is queued gets its literal at
the same time.  `Sound` collects what the encoder keeps between two steps, and
`Performs` says that a step keeps it and what it asks for.
-/

namespace ConceptUnification

namespace Formula

/-- All literals of the clause are over variables of the formula. -/
def CoversAll (formula : Formula) (clause : Clause) : Prop :=
  ∀ lit ∈ clause, formula.Covers lit

variable {formula later : Formula} {lit lit' : Literal} {clause : Clause}

theorem CoversAll.mono (covers : formula.CoversAll clause)
    (count : formula.variableCount ≤ later.variableCount) :
    later.CoversAll clause :=
  fun lit member => (covers lit member).mono count

theorem CoversAll.cons (first : formula.Covers lit)
    (others : formula.CoversAll clause) : formula.CoversAll (lit :: clause) :=
  List.forall_mem_cons.mpr ⟨first, others⟩

theorem CoversAll.one (first : formula.Covers lit) : formula.CoversAll [lit] :=
  .cons first (fun _ member => nomatch member)

theorem CoversAll.pair (first : formula.Covers lit)
    (second : formula.Covers lit') : formula.CoversAll [lit, lit'] :=
  .cons first (.one second)

end Formula

namespace Encoder

/-- What the encoder keeps between two steps, where some pairs were taken from
the queue before. -/
structure Sound (size : Nat) (done : List (AtomId × AtomId))
    (encoder : Encoder) : Prop where
  numbers : encoder.Numbers
  tracked : Tracked size done encoder
  queued : encoder.queued = done.length + encoder.queue.length
  covered : ∀ clause ∈ encoder.formula.clauses,
    encoder.formula.CoversAll clause

/-- From a sound state a step makes some requests and leads to a sound state,
where its result is as described. -/
def Performs (size : Nat) (done : List (AtomId × AtomId)) (start : Encoder)
    {α : Type} (step : EncodeM α) (post : α → Formula → Prop) : Prop :=
  Sound size done start → ∃ requests, Asks step start requests ∧
    Sound size done (step.run start).2 ∧
      post (step.run start).1 (step.run start).2.formula

section Performs

variable {size : Nat} {done : List (AtomId × AtomId)} {start : Encoder}
  {α β : Type}

theorem Performs.pure {a : α} {post : α → Formula → Prop}
    (holds : post a start.formula) :
    Performs size done start (Pure.pure a) post :=
  fun sound => ⟨[], .nothing rfl rfl, sound, holds⟩

/-- The second step starts with no fewer variables. -/
theorem Performs.bind {step : EncodeM α} {next : α → EncodeM β}
    {mid : α → Formula → Prop} {post : β → Formula → Prop}
    (first : Performs size done start step mid)
    (second : ∀ a later,
      start.formula.variableCount ≤ later.formula.variableCount →
      mid a later.formula → Performs size done later (next a) post) :
    Performs size done start (step >>= next) post := by
  intro sound
  obtain ⟨early, asks, sound', holds⟩ := first sound
  have count := (asks.answers sound.numbers).count
  obtain ⟨late, asks', sound'', holds'⟩ := second _ _ count holds sound'
  exact ⟨early ++ late, asks.bind asks', sound'', holds'⟩

theorem Performs.forM {l : List α} {f : α → EncodeM PUnit}
    (each : ∀ a ∈ l, ∀ later : Encoder,
      start.formula.variableCount ≤ later.formula.variableCount →
        Performs size done later (f a) fun _ _ => True) :
    Performs size done start (l.forM f) fun _ _ => True := by
  induction l generalizing start with
  | nil => exact .pure trivial
  | cons a l induction =>
      change Performs size done start (f a >>= fun _ => l.forM f) _
      refine (each a List.mem_cons_self start (Nat.le_refl _)).bind ?_
      intro _ between count _
      exact induction fun b member later count' =>
        each b (List.mem_cons_of_mem _ member) later (Nat.le_trans count count')

/-- The results of several steps are as described in the end if more variables
do not change that. -/
theorem Performs.mapM {l : List α} {f : α → EncodeM β}
    (post : β → Formula → Prop)
    (persists : ∀ b {formula later : Formula},
      formula.variableCount ≤ later.variableCount →
        post b formula → post b later)
    (each : ∀ a ∈ l, ∀ later : Encoder,
      start.formula.variableCount ≤ later.formula.variableCount →
        Performs size done later (f a) post) :
    Performs size done start (l.mapM f)
      fun results formula => ∀ b ∈ results, post b formula := by
  induction l generalizing start with
  | nil =>
      rw [List.mapM_nil]
      exact .pure (by simp)
  | cons a l induction =>
      rw [List.mapM_cons]
      refine (each a List.mem_cons_self start (Nat.le_refl _)).bind ?_
      intro b between count first
      refine (induction fun c member later count' =>
        each c (List.mem_cons_of_mem _ member) later
          (Nat.le_trans count count')).bind ?_
      intro bs later count' others
      exact .pure (List.forall_mem_cons.mpr ⟨persists b count' first, others⟩)

end Performs

section Encoding

variable {goal : Goal} {done : List (AtomId × AtomId)} {start : Encoder}

end Encoding

end Encoder

end ConceptUnification
