import Mathlib.Data.List.Forall2
import ConceptUnification.Encoding

/-!
# Runs of the encoder

Every step of the encoder only adds clauses and numbers.  So whatever a step
says about the meaning of literals can be read off the final formula: `Reads`
relates a step to a final encoder and to a valuation that satisfies its
formula.  `Tracked` accounts for the pairs of atoms with a subsumption literal:
each of them is queued, or was taken from the queue before.
-/

namespace ConceptUnification

namespace Valuation

variable {valuation : Valuation}

@[simp] theorem holds_pos {var : Nat} :
    valuation.holds (.pos var) = true ↔ valuation var = true := by
  simp [holds, Literal.pos]

@[simp] theorem holds_negate {literal : Literal} :
    valuation.holds literal.negate = true ↔
      ¬ valuation.holds literal = true := by
  cases positive : literal.positive <;>
    cases chosen : valuation literal.var <;>
      simp [holds, Literal.negate, positive, chosen]

@[simp] theorem holdsClause_iff {clause : Clause} :
    valuation.holdsClause clause = true ↔
      ∃ literal ∈ clause, valuation.holds literal = true :=
  List.any_eq_true

/-- A clause that starts with the negation of a true literal needs another
one. -/
theorem exists_holds_of_negate {literal : Literal} {literals : List Literal}
    (clause : valuation.holdsClause (literal.negate :: literals) = true)
    (holds : valuation.holds literal = true) :
    ∃ other ∈ literals, valuation.holds other = true := by
  obtain ⟨other, inClause, otherHolds⟩ := holdsClause_iff.mp clause
  rcases List.mem_cons.mp inClause with rfl | inRest
  · exact (holds_negate.mp otherHolds holds).elim
  · exact ⟨other, inRest, otherHolds⟩

theorem satisfies_iff {formula : Formula} :
    valuation.satisfies formula = true ↔
      ∀ clause ∈ formula.clauses, valuation.holdsClause clause = true := by
  simp only [satisfies, Array.all_eq_true']

end Valuation

namespace Encoder

/-- The option that a conjunction does not lie below a subsumer of a
variable. -/
def optionLiteral (body : AtomSet) (upper atom : AtomId) :
    EncodeM Literal := do
  let option ← freshLiteral
  let chosen ← subsumer upper atom
  addClause [option.negate, chosen]
  (← conjunctsBelow body atom).forM fun below =>
    addClause [option.negate, below.negate]
  return option

/-- The witness that a conjunction does not lie below an atom. -/
def witnessLiteral (goal : Goal) (body : AtomSet) (upper : AtomId) :
    EncodeM Literal := do
  let witness ← freshLiteral
  if goal.store.isVariable upper then
    let options ← goal.nonVariableAtoms.mapM (optionLiteral body upper)
    addClause (witness.negate :: options)
  else
    (← conjunctsBelow body upper).forM fun below =>
      addClause [witness.negate, below.negate]
  return witness

/-- The witness that two literals hold. -/
def bothLiteral (first second : Literal) : EncodeM Literal := do
  let witness ← freshLiteral
  addClause [witness.negate, first]
  addClause [witness.negate, second]
  return witness

theorem notBelow_eq (goal : Goal) (body head : AtomSet) :
    notBelow goal body head =
      (do
        let differs ← freshLiteral
        let witnesses ← head.toList.mapM (witnessLiteral goal body)
        addClause (differs.negate :: witnesses)
        return differs) :=
  rfl

theorem defineBelowVariable_eq (goal : Goal) (lit : Literal) (a y : AtomId) :
    defineBelowVariable goal lit a y =
      (do
        let witnesses ← goal.nonVariableAtoms.mapM fun atom => do
          let chosen ← subsumer y atom
          let below ← subsumption a atom
          addClause [lit.negate, chosen.negate, below]
          bothLiteral chosen below.negate
        addClause (lit :: witnesses)) :=
  rfl

theorem defineVariableBelow_eq (goal : Goal) (lit : Literal) (x b : AtomId) :
    defineVariableBelow goal lit x b =
      (do
        let witnesses ← goal.nonVariableAtoms.mapM fun atom => do
          let chosen ← subsumer x atom
          let below ← subsumption atom b
          addClause [chosen.negate, below.negate, lit]
          bothLiteral chosen below
        addClause (lit.negate :: witnesses)) :=
  rfl

/-- The second encoder has all clauses and numbers of the first one. -/
structure Within (before after : Encoder) : Prop where
  clauses : ∀ clause ∈ before.formula.clauses,
    clause ∈ after.formula.clauses
  numbering : ∀ (meaning : LiteralMeaning) (var : Nat),
    before.numbering[meaning]? = some var →
      after.numbering[meaning]? = some var

theorem Within.refl (encoder : Encoder) : encoder.Within encoder where
  clauses := fun _ => id
  numbering := fun _ _ => id

theorem Within.trans {first second third : Encoder}
    (early : first.Within second) (late : second.Within third) :
    first.Within third where
  clauses := fun clause member => late.clauses clause (early.clauses clause member)
  numbering := fun meaning var found =>
    late.numbering meaning var (early.numbering meaning var found)

/-- The pairs with a subsumption literal are those that were taken from the
queue before and those that are still queued, without repetition. -/
structure Tracked (size : Nat) (done : List (AtomId × AtomId))
    (encoder : Encoder) : Prop where
  numbered : ∀ a b,
    (encoder.numbering[LiteralMeaning.subsumption a b]?).isSome = true ↔
      (a, b) ∈ done ++ encoder.queue
  distinct : (done ++ encoder.queue).Nodup
  stored : ∀ pair ∈ done ++ encoder.queue, pair.1 < size ∧ pair.2 < size

/-- What a step keeps that takes nothing from the queue. -/
structure Grows (size : Nat) (before after : Encoder) : Prop where
  within : before.Within after
  tracked : ∀ done, Tracked size done before → Tracked size done after

theorem Grows.refl (size : Nat) (encoder : Encoder) :
    Grows size encoder encoder where
  within := .refl encoder
  tracked := fun _ => id

theorem Grows.trans {size : Nat} {first second third : Encoder}
    (early : Grows size first second) (late : Grows size second third) :
    Grows size first third where
  within := early.within.trans late.within
  tracked := fun done tracked => late.tracked done (early.tracked done tracked)

/-- A step that changes neither numbers nor the queue. -/
theorem Grows.of_eq {size : Nat} {before after : Encoder}
    (clauses : ∀ clause ∈ before.formula.clauses,
      clause ∈ after.formula.clauses)
    (numbering : after.numbering = before.numbering)
    (queue : after.queue = before.queue) : Grows size before after where
  within := ⟨clauses, fun meaning var found => by rw [numbering]; exact found⟩
  tracked := by
    intro done tracked
    refine ⟨?_, ?_, ?_⟩
    · rw [numbering, queue]
      exact tracked.numbered
    · rw [queue]
      exact tracked.distinct
    · rw [queue]
      exact tracked.stored

/-- The literal that stands for a meaning in the end. -/
def Stands (final : Encoder) (meaning : LiteralMeaning) (lit : Literal) :
    Prop :=
  ∃ var, final.numbering[meaning]? = some var ∧ lit = .pos var

/-- Whether a meaning has a literal that is true. -/
def Truth (final : Encoder) (valuation : Valuation)
    (meaning : LiteralMeaning) : Prop :=
  ∃ var, final.numbering[meaning]? = some var ∧ valuation var = true

theorem Stands.holds_iff {final : Encoder} {valuation : Valuation}
    {meaning : LiteralMeaning} {lit : Literal}
    (stands : Stands final meaning lit) :
    valuation.holds lit = true ↔ Truth final valuation meaning := by
  obtain ⟨var, found, rfl⟩ := stands
  rw [Valuation.holds_pos, Truth, found]
  simp

/-- Whatever the state before is, a step grows it, and its result satisfies
the postcondition if the state after it is part of the final encoder. -/
def Reads (size : Nat) (final : Encoder) {α : Type} (step : EncodeM α)
    (post : α → Prop) : Prop :=
  ∀ encoder : Encoder, Grows size encoder (step.run encoder).2 ∧
    ((step.run encoder).2.Within final → post (step.run encoder).1)

section Reads

variable {size : Nat} {final : Encoder} {α β : Type}

theorem Reads.pure {a : α} {post : α → Prop} (holds : post a) :
    Reads size final (Pure.pure a) post :=
  fun encoder => ⟨.refl size encoder, fun _ => holds⟩

theorem Reads.imp {step : EncodeM α} {post post' : α → Prop}
    (reads : Reads size final step post) (weaker : ∀ a, post a → post' a) :
    Reads size final step post' :=
  fun encoder => ⟨(reads encoder).1, fun within =>
    weaker _ ((reads encoder).2 within)⟩

/-- What was read of the first step can be used for what the second one
reads. -/
theorem Reads.bind {step : EncodeM α} {next : α → EncodeM β}
    {mid : α → Prop} {post : β → Prop} (first : Reads size final step mid)
    (second : ∀ a, Reads size final (next a) fun b => mid a → post b) :
    Reads size final (step >>= next) post := by
  intro encoder
  obtain ⟨grows, read⟩ := first encoder
  obtain ⟨grows', read'⟩ :=
    second (step.run encoder).1 (step.run encoder).2
  exact ⟨grows.trans grows', fun within =>
    read' within (read (grows'.within.trans within))⟩

theorem Reads.forM {l : List α} {f : α → EncodeM PUnit} (post : α → Prop)
    (each : ∀ a ∈ l, Reads size final (f a) fun _ => post a) :
    Reads size final (l.forM f) fun _ => ∀ a ∈ l, post a := by
  induction l with
  | nil => exact .pure (by simp)
  | cons a l induction =>
      change Reads size final (f a >>= fun _ => l.forM f) _
      refine (each a List.mem_cons_self).bind fun _ => ?_
      refine (induction fun b member =>
        each b (List.mem_cons_of_mem _ member)).imp ?_
      intro _ later first b member
      rcases List.mem_cons.mp member with rfl | inTail
      · exact first
      · exact later b inTail

theorem Reads.mapM {l : List α} {f : α → EncodeM β} (post : α → β → Prop)
    (each : ∀ a ∈ l, Reads size final (f a) (post a)) :
    Reads size final (l.mapM f) (List.Forall₂ post l) := by
  induction l with
  | nil =>
      rw [List.mapM_nil]
      exact .pure .nil
  | cons a l induction =>
      rw [List.mapM_cons]
      refine (each a List.mem_cons_self).bind fun b => ?_
      refine (induction fun c member =>
        each c (List.mem_cons_of_mem _ member)).bind fun bs => ?_
      exact .pure fun later first => .cons first later

theorem reads_addClause {valuation : Valuation}
    (satisfied : valuation.satisfies final.formula = true) (clause : Clause) :
    Reads size final (addClause clause) fun _ =>
      valuation.holdsClause clause = true := by
  intro encoder
  refine ⟨.of_eq ?_ rfl rfl, fun within => ?_⟩
  · intro other member
    exact Array.mem_push.mpr (.inl member)
  · exact Valuation.satisfies_iff.mp satisfied clause
      (within.clauses clause (Array.mem_push.mpr (.inr rfl)))

theorem reads_freshLiteral :
    Reads size final freshLiteral fun _ => True :=
  fun _ => ⟨.of_eq (fun _ => id) rfl rfl, fun _ => trivial⟩

end Reads

section Literal

variable {size : Nat} {final encoder : Encoder} {meaning : LiteralMeaning}

theorem run_literal_known {var : Nat}
    (known : encoder.numbering[meaning]? = some var) :
    (literal meaning).run encoder = ((.pos var, false), encoder) := by
  rw [literal, StateT.run_modifyGet, known]
  rfl

theorem run_literal_new (new : encoder.numbering[meaning]? = none) :
    (literal meaning).run encoder =
      ((.pos (encoder.formula.variableCount + 1), true),
        { encoder with
          formula := encoder.formula.addVariable
          numbering := encoder.numbering.insert meaning
            (encoder.formula.variableCount + 1) }) := by
  rw [literal, StateT.run_modifyGet, new]
  rfl

theorem getElem?_insert_of_some {numbering : Std.HashMap LiteralMeaning Nat}
    {other : LiteralMeaning} {var var' : Nat}
    (new : numbering[meaning]? = none) (found : numbering[other]? = some var) :
    (numbering.insert meaning var')[other]? = some var := by
  rw [Std.HashMap.getElem?_insert]
  have different : (meaning == other) = false := by
    rw [beq_eq_false_iff_ne]
    rintro rfl
    rw [new] at found
    cases found
  rw [different]
  exact found

/-- Numbering a meaning keeps all clauses and numbers, and its literal stands
for it. -/
theorem within_literal :
    encoder.Within ((literal meaning).run encoder).2 := by
  cases known : encoder.numbering[meaning]? with
  | some var =>
      rw [run_literal_known known]
      exact .refl encoder
  | none =>
      rw [run_literal_new known]
      exact ⟨fun _ => id, fun other var found =>
        getElem?_insert_of_some known found⟩

theorem stands_literal
    (within : ((literal meaning).run encoder).2.Within final) :
    Stands final meaning ((literal meaning).run encoder).1.1 := by
  cases known : encoder.numbering[meaning]? with
  | some var =>
      rw [run_literal_known known] at within ⊢
      exact ⟨var, within.numbering meaning var known, rfl⟩
  | none =>
      rw [run_literal_new known] at within ⊢
      refine ⟨_, within.numbering meaning _ ?_, rfl⟩
      exact Std.HashMap.getElem?_insert_self

/-- A literal that stands for no subsumption leaves the queue alone. -/
theorem reads_literal (other : ∀ a b, meaning ≠ .subsumption a b) :
    Reads size final (literal meaning) fun found =>
      Stands final meaning found.1 := by
  intro encoder
  refine ⟨⟨within_literal, ?_⟩, stands_literal⟩
  intro done tracked
  cases known : encoder.numbering[meaning]? with
  | some var =>
      rw [run_literal_known known]
      exact tracked
  | none =>
      rw [run_literal_new known]
      refine ⟨?_, tracked.distinct, tracked.stored⟩
      intro a b
      have different : (meaning == .subsumption a b) = false :=
        beq_eq_false_iff_ne.mpr (other a b)
      rw [Std.HashMap.getElem?_insert, different]
      exact tracked.numbered a b

theorem reads_subsumer (x atom : AtomId) :
    Reads size final (subsumer x atom) (Stands final (.subsumer x atom)) :=
  (reads_literal (by simp)).bind fun _ => .pure id

theorem reads_order (x y : AtomId) :
    Reads size final (order x y) (Stands final (.order x y)) :=
  (reads_literal (by simp)).bind fun _ => .pure id

theorem run_subsumption_known {a b : AtomId} {var : Nat}
    (known : encoder.numbering[LiteralMeaning.subsumption a b]? = some var) :
    (subsumption a b).run encoder = (.pos var, encoder) := by
  unfold subsumption
  rw [StateT.run_bind, run_literal_known known]
  rfl

/-- The literal of a new pair is queued. -/
theorem run_subsumption_new {a b : AtomId}
    (new : encoder.numbering[LiteralMeaning.subsumption a b]? = none) :
    (subsumption a b).run encoder =
      (.pos (encoder.formula.variableCount + 1),
        { formula := encoder.formula.addVariable
          numbering := encoder.numbering.insert (.subsumption a b)
            (encoder.formula.variableCount + 1)
          queue := (a, b) :: encoder.queue
          queued := encoder.queued + 1 }) := by
  unfold subsumption
  rw [StateT.run_bind, run_literal_new new]
  rfl

theorem reads_subsumption {a b : AtomId} (lower : a < size)
    (upper : b < size) :
    Reads size final (subsumption a b) (Stands final (.subsumption a b)) := by
  intro encoder
  cases known : encoder.numbering[LiteralMeaning.subsumption a b]? with
  | some var =>
      rw [run_subsumption_known known]
      exact ⟨.refl size encoder, fun within =>
        ⟨var, within.numbering _ var known, rfl⟩⟩
  | none =>
      rw [run_subsumption_new known]
      refine ⟨⟨⟨fun _ => id, fun other var found =>
        getElem?_insert_of_some known found⟩, ?_⟩, fun within =>
          ⟨_, within.numbering _ _ Std.HashMap.getElem?_insert_self, rfl⟩⟩
      intro done tracked
      have absent : (a, b) ∉ done ++ encoder.queue := by
        rw [← tracked.numbered, known]
        simp
      have moved : ∀ pair, pair ∈ done ++ (a, b) :: encoder.queue ↔
          pair = (a, b) ∨ pair ∈ done ++ encoder.queue := by
        intro pair
        simp only [List.mem_append, List.mem_cons]
        exact or_left_comm
      refine ⟨?_, ?_, ?_⟩
      · intro a' b'
        rw [moved, Std.HashMap.getElem?_insert]
        by_cases same : LiteralMeaning.subsumption a b = .subsumption a' b'
        · cases same
          simp
        · rw [beq_eq_false_iff_ne.mpr same]
          have other : (a', b') ≠ (a, b) := by
            rintro pairs
            cases pairs
            exact same rfl
          simp only [Bool.false_eq_true, if_false, other, false_or]
          exact tracked.numbered a' b'
      · exact List.perm_middle.symm.nodup
          (List.nodup_cons.mpr ⟨absent, tracked.distinct⟩)
      · intro pair member
        rcases (moved pair).mp member with rfl | old
        · exact ⟨lower, upper⟩
        · exact tracked.stored pair old

end Literal

end Encoder

end ConceptUnification
