import ConceptUnification.Proofs.EncoderRun

/-!
# Building a valuation along with a formula

A stage of an encoding has, beside the encoder, a valuation that satisfies the
clauses so far and gives every numbered literal its intended truth.  A step that
adds clauses extends it: new variables get the values that the clauses ask for,
and old ones keep theirs.
-/

namespace ConceptUnification

namespace Encoder

/-- An encoder with a valuation of its variables that satisfies its clauses and
agrees with the intended truth of all meanings.  The queued pairs are atoms of
a store of the given size. -/
structure Stage (size : Nat) (intended : LiteralMeaning → Prop) where
  /-- The encoder. -/
  encoder : Encoder
  /-- Truth values of the variables so far. -/
  valuation : Valuation
  numbered : ∀ (meaning : LiteralMeaning) (var : Nat),
    encoder.numbering[meaning]? = some var →
      var ≤ encoder.formula.variableCount ∧
        (valuation var = true ↔ intended meaning)
  bounded : ∀ clause ∈ encoder.formula.clauses, ∀ lit ∈ clause,
    lit.var ≤ encoder.formula.variableCount
  satisfied : ∀ clause ∈ encoder.formula.clauses,
    valuation.holdsClause clause = true
  queued : ∀ pair ∈ encoder.queue, pair.1 < size ∧ pair.2 < size

section Stage

variable {size : Nat} {intended : LiteralMeaning → Prop}
  {stage stage' stage'' : Stage size intended}

namespace Stage

/-- A later stage has all variables of an earlier one, with the same values. -/
structure Extends (stage stage' : Stage size intended) : Prop where
  count : stage.encoder.formula.variableCount ≤
    stage'.encoder.formula.variableCount
  agrees : ∀ var ≤ stage.encoder.formula.variableCount,
    stage'.valuation var = stage.valuation var

theorem Extends.refl (stage : Stage size intended) : stage.Extends stage where
  count := Nat.le_refl _
  agrees := fun _ _ => rfl

theorem Extends.trans (early : stage.Extends stage')
    (late : stage'.Extends stage'') : stage.Extends stage'' where
  count := Nat.le_trans early.count late.count
  agrees := fun var bound =>
    (late.agrees var (Nat.le_trans bound early.count)).trans
      (early.agrees var bound)

/-- The literal is over a variable of the stage, and is true exactly if the
proposition is. -/
structure Means (stage : Stage size intended) (lit : Literal) (p : Prop) :
    Prop where
  bounded : lit.var ≤ stage.encoder.formula.variableCount
  holds_iff : stage.valuation.holds lit = true ↔ p

theorem Means.mono {lit : Literal} {p : Prop} (means : stage.Means lit p)
    (extension : stage.Extends stage') : stage'.Means lit p where
  bounded := Nat.le_trans means.bounded extension.count
  holds_iff := by
    rw [← means.holds_iff, Valuation.holds, Valuation.holds,
      extension.agrees _ means.bounded]

theorem Means.negate {lit : Literal} {p : Prop} (means : stage.Means lit p) :
    stage.Means lit.negate (¬ p) where
  bounded := means.bounded
  holds_iff := by rw [Valuation.holds_negate, means.holds_iff]

/-- The clause is over variables of the stage, and is true exactly if the
proposition is. -/
structure MeansClause (stage : Stage size intended) (clause : Clause)
    (p : Prop) : Prop where
  bounded : ∀ lit ∈ clause, lit.var ≤ stage.encoder.formula.variableCount
  holds_iff : stage.valuation.holdsClause clause = true ↔ p

theorem MeansClause.nil : stage.MeansClause [] False where
  bounded := by simp
  holds_iff := by simp

theorem MeansClause.cons {lit : Literal} {clause : Clause} {p q : Prop}
    (first : stage.Means lit p) (others : stage.MeansClause clause q) :
    stage.MeansClause (lit :: clause) (p ∨ q) where
  bounded := List.forall_mem_cons.mpr ⟨first.bounded, others.bounded⟩
  holds_iff := by
    rw [← first.holds_iff, ← others.holds_iff]
    simp

theorem MeansClause.one {lit : Literal} {p : Prop}
    (first : stage.Means lit p) : stage.MeansClause [lit] p := by
  obtain ⟨bounded, holds_iff⟩ := MeansClause.cons first .nil
  exact ⟨bounded, holds_iff.trans (iff_of_eq (or_false p))⟩

theorem MeansClause.pair {lit lit' : Literal} {p q : Prop}
    (first : stage.Means lit p) (second : stage.Means lit' q) :
    stage.MeansClause [lit, lit'] (p ∨ q) :=
  .cons first (.one second)

/-- Literals that mean something of the members of a list form a clause that
says so of some member. -/
theorem MeansClause.of_forall₂ {α : Type} {l : List α} {clause : Clause}
    {p : α → Prop}
    (related : List.Forall₂ (fun a lit => stage.Means lit (p a)) l clause) :
    stage.MeansClause clause (∃ a ∈ l, p a) := by
  induction related with
  | nil => exact ⟨by simp, by simp⟩
  | cons first _ induction =>
      obtain ⟨bounded, holds_iff⟩ := MeansClause.cons first induction
      exact ⟨bounded, by rw [holds_iff]; simp⟩

end Stage

/-- A step extends a stage, so that its result is as described. -/
def Writes {α : Type} (stage : Stage size intended) (step : EncodeM α)
    (post : α → Stage size intended → Prop) : Prop :=
  ∃ stage' : Stage size intended,
    stage'.encoder = (step.run stage.encoder).2 ∧ stage.Extends stage' ∧
      post (step.run stage.encoder).1 stage'

section Writes

variable {α β : Type}

theorem Writes.pure {a : α} {post : α → Stage size intended → Prop}
    (holds : post a stage) : Writes stage (Pure.pure a) post :=
  ⟨stage, rfl, .refl stage, holds⟩

theorem Writes.imp {step : EncodeM α}
    {post post' : α → Stage size intended → Prop}
    (writes : Writes stage step post)
    (weaker : ∀ a stage', post a stage' → post' a stage') :
    Writes stage step post' := by
  obtain ⟨stage', same, extension, holds⟩ := writes
  exact ⟨stage', same, extension, weaker _ _ holds⟩

theorem Writes.bind {step : EncodeM α} {next : α → EncodeM β}
    {mid : α → Stage size intended → Prop}
    {post : β → Stage size intended → Prop} (first : Writes stage step mid)
    (second : ∀ a stage', stage.Extends stage' → mid a stage' →
      Writes stage' (next a) post) :
    Writes stage (step >>= next) post := by
  obtain ⟨stage', same, extension, holds⟩ := first
  obtain ⟨stage'', same', extension', holds'⟩ :=
    second _ stage' extension holds
  rw [same] at same' holds'
  exact ⟨stage'', same', extension.trans extension', holds'⟩

theorem Writes.forM {l : List α} {f : α → EncodeM PUnit}
    (each : ∀ a ∈ l, ∀ stage', stage.Extends stage' →
      Writes stage' (f a) fun _ _ => True) :
    Writes stage (l.forM f) fun _ _ => True := by
  induction l generalizing stage with
  | nil => exact .pure trivial
  | cons a l induction =>
      change Writes stage (f a >>= fun _ => l.forM f) _
      refine (each a List.mem_cons_self stage (.refl stage)).bind ?_
      intro _ stage' extension _
      exact induction fun b member stage'' extension' =>
        each b (List.mem_cons_of_mem _ member) stage''
          (extension.trans extension')

/-- The results of several steps are as described in the end if what describes
each of them persists. -/
theorem Writes.mapM {l : List α} {f : α → EncodeM β}
    (post : α → β → Stage size intended → Prop)
    (persists : ∀ a b {stage stage'}, Stage.Extends stage stage' →
      post a b stage → post a b stage')
    (each : ∀ a ∈ l, ∀ stage', stage.Extends stage' →
      Writes stage' (f a) (post a)) :
    Writes stage (l.mapM f) fun results stage' =>
      List.Forall₂ (fun a b => post a b stage') l results := by
  induction l generalizing stage with
  | nil =>
      rw [List.mapM_nil]
      exact .pure .nil
  | cons a l induction =>
      rw [List.mapM_cons]
      refine (each a List.mem_cons_self stage (.refl stage)).bind ?_
      intro b stage' extension first
      refine (induction fun c member stage'' extension' =>
        each c (List.mem_cons_of_mem _ member) stage''
          (extension.trans extension')).bind ?_
      intro bs stage'' extension' others
      exact .pure (.cons (persists a b extension' first) others)

theorem Writes.mapM_means {l : List α} {f : α → EncodeM Literal}
    (p : α → Prop) (each : ∀ a ∈ l, ∀ stage', stage.Extends stage' →
      Writes stage' (f a) fun lit stage'' => stage''.Means lit (p a)) :
    Writes stage (l.mapM f) fun lits stage' =>
      List.Forall₂ (fun a lit => stage'.Means lit (p a)) l lits :=
  .mapM _ (fun _ _ => fun extension means => means.mono extension) each

end Writes

/-- A true clause can be added. -/
theorem writes_addClause {clause : Clause} {p : Prop}
    (means : stage.MeansClause clause p) (holds : p) :
    Writes stage (addClause clause) fun _ _ => True := by
  have parts : ∀ {motive : Clause → Prop}, motive clause →
      (∀ other ∈ stage.encoder.formula.clauses, motive other) →
      ∀ other ∈ stage.encoder.formula.clauses.push clause, motive other := by
    intro motive new old other member
    rcases Array.mem_push.mp member with inOld | rfl
    · exact old other inOld
    · exact new
  exact ⟨{ stage with
      encoder := { stage.encoder with
        formula := stage.encoder.formula.addClause clause }
      bounded := parts means.bounded stage.bounded
      satisfied := parts (means.holds_iff.mpr holds) stage.satisfied },
    rfl, ⟨Nat.le_refl _, fun _ _ => rfl⟩, trivial⟩

open Classical in
/-- The stage with one more variable, whose value is that of a proposition. -/
noncomputable def Stage.addVariable (stage : Stage size intended) (p : Prop) :
    Stage size intended where
  encoder := { stage.encoder with
    formula := stage.encoder.formula.addVariable }
  valuation := stage.valuation.set
    (stage.encoder.formula.variableCount + 1) (decide p)
  numbered := by
    intro meaning var found
    obtain ⟨bound, truth⟩ := stage.numbered meaning var found
    refine ⟨Nat.le_succ_of_le bound, ?_⟩
    rw [Valuation.set, if_neg (Nat.ne_of_lt (Nat.lt_succ_of_le bound))]
    exact truth
  bounded := fun clause member lit inClause =>
    Nat.le_succ_of_le (stage.bounded clause member lit inClause)
  satisfied := by
    intro clause member
    obtain ⟨lit, inClause, holds⟩ :=
      Valuation.holdsClause_iff.mp (stage.satisfied clause member)
    refine Valuation.holdsClause_iff.mpr ⟨lit, inClause, ?_⟩
    have bound := stage.bounded clause member lit inClause
    rw [Valuation.holds, Valuation.set,
      if_neg (Nat.ne_of_lt (Nat.lt_succ_of_le bound))]
    exact holds
  queued := stage.queued

theorem Stage.extends_addVariable {p : Prop} :
    stage.Extends (stage.addVariable p) where
  count := Nat.le_succ _
  agrees := fun _ bound => if_neg (Nat.ne_of_lt (Nat.lt_succ_of_le bound))

theorem Stage.addVariable_means {p : Prop} :
    (stage.addVariable p).Means
      (.pos (stage.encoder.formula.variableCount + 1)) p where
  bounded := Nat.le_refl _
  holds_iff := by simp [Stage.addVariable, Valuation.set]

/-- A new literal can be given any meaning. -/
theorem writes_freshLiteral (p : Prop) :
    Writes stage freshLiteral fun lit stage' => stage'.Means lit p :=
  ⟨stage.addVariable p, rfl, Stage.extends_addVariable,
    Stage.addVariable_means⟩

/-- A new variable can be the number of a meaning. -/
theorem Stage.numbered_insert {meaning : LiteralMeaning}
    (other : LiteralMeaning) (var : Nat)
    (found : (stage.encoder.numbering.insert meaning
      (stage.encoder.formula.variableCount + 1))[other]? = some var) :
    var ≤ (stage.addVariable (intended meaning)).encoder.formula.variableCount ∧
      ((stage.addVariable (intended meaning)).valuation var = true ↔
        intended other) := by
  rw [Std.HashMap.getElem?_insert] at found
  split at found
  · next same =>
      rw [beq_iff_eq] at same
      subst same
      cases found
      obtain ⟨bounded, holds_iff⟩ :=
        stage.addVariable_means (p := intended meaning)
      exact ⟨bounded, Valuation.holds_pos.symm.trans holds_iff⟩
  · exact (stage.addVariable (intended meaning)).numbered other var found

theorem writes_literal (meaning : LiteralMeaning) :
    Writes stage (literal meaning) fun found stage' =>
      stage'.Means found.1 (intended meaning) := by
  cases known : stage.encoder.numbering[meaning]? with
  | some var =>
      obtain ⟨bound, truth⟩ := stage.numbered meaning var known
      refine ⟨stage, ?_, .refl stage, ?_⟩ <;> rw [run_literal_known known]
      exact ⟨bound, Valuation.holds_pos.trans truth⟩
  | none =>
      refine ⟨{ stage.addVariable (intended meaning) with
          encoder := { stage.encoder with
            formula := stage.encoder.formula.addVariable
            numbering := stage.encoder.numbering.insert meaning
              (stage.encoder.formula.variableCount + 1) }
          numbered := stage.numbered_insert }, ?_, ?_, ?_⟩
      · rw [run_literal_new known]
      · exact ⟨Nat.le_succ _, stage.extends_addVariable.agrees⟩
      · rw [run_literal_new known]
        obtain ⟨bounded, holds_iff⟩ :=
          stage.addVariable_means (p := intended meaning)
        exact ⟨bounded, holds_iff⟩

theorem writes_subsumer (x atom : AtomId) :
    Writes stage (subsumer x atom) fun lit stage' =>
      stage'.Means lit (intended (.subsumer x atom)) :=
  (writes_literal _).bind fun _ _ _ means => .pure means

theorem writes_order (x y : AtomId) :
    Writes stage (order x y) fun lit stage' =>
      stage'.Means lit (intended (.order x y)) :=
  (writes_literal _).bind fun _ _ _ means => .pure means

/-- A pair of atoms can be queued. -/
def Stage.queue (stage : Stage size intended) (a b : AtomId)
    (lower : a < size) (upper : b < size) : Stage size intended :=
  { stage with
    encoder := { stage.encoder with
      queue := (a, b) :: stage.encoder.queue
      queued := stage.encoder.queued + 1 }
    queued := List.forall_mem_cons.mpr ⟨⟨lower, upper⟩, stage.queued⟩ }

theorem writes_subsumption {a b : AtomId} (lower : a < size)
    (upper : b < size) :
    Writes stage (subsumption a b) fun lit stage' =>
      stage'.Means lit (intended (.subsumption a b)) := by
  unfold subsumption
  refine (writes_literal _).bind fun found stage' _ means => ?_
  obtain ⟨lit, fresh⟩ := found
  cases fresh with
  | false => exact .pure means
  | true =>
      have queues : Writes stage' (modify fun encoder : Encoder =>
          { encoder with
            queue := (a, b) :: encoder.queue
            queued := encoder.queued + 1 } : EncodeM PUnit) fun _ stage'' =>
          stage''.Means lit (intended (.subsumption a b)) :=
        ⟨stage'.queue a b lower upper, rfl,
          ⟨Nat.le_refl _, fun _ _ => rfl⟩, ⟨means.bounded, means.holds_iff⟩⟩
      exact queues.bind fun _ _ _ means => .pure means

end Stage

end Encoder

end ConceptUnification
