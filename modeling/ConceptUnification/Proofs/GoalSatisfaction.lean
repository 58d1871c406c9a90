import ConceptUnification.Proofs.FlatteningMeaning

/-!
# The meaning of the satisfaction check

The check of a unifier goes through subsumptions with one head atom, both
directions of an equation apart and equal ones only once.  For a unifier of an
acyclic assignment it answers what the constraints say as wholes: whether the
values of their two sides are equal or different, or below each other or not.
-/

namespace ConceptUnification

/-- All constraints of a goal: definitions, abbreviations and what the caller
added. -/
def Goal.constraints (goal : Goal) : List FlatConstraint :=
  goal.allEquations.map .equation ++ goal.subsumptions.map .subsumption ++
    goal.disequations.map .disequation ++
      goal.dissubsumptions.map .dissubsumption

theorem Goal.forall_mem_constraints {goal : Goal} {p : FlatConstraint → Prop} :
    (∀ constraint ∈ goal.constraints, p constraint) ↔
      (∀ equation ∈ goal.allEquations, p (.equation equation)) ∧
      (∀ constraint ∈ goal.subsumptions, p (.subsumption constraint)) ∧
      (∀ constraint ∈ goal.disequations, p (.disequation constraint)) ∧
      ∀ constraint ∈ goal.dissubsumptions, p (.dissubsumption constraint) := by
  simp only [constraints, List.forall_mem_append, List.forall_mem_map,
    and_assoc]

namespace Unifier

/-- The value of a conjunction as a normal form without bound variables. -/
def expandConjunction? (unifier : Unifier) (store : AtomStore)
    (conjunction : AtomSet) : Option NormalConcept :=
  (unifier.substitution store).conjunction? conjunction

/-- Whether the values of the two sides of a constraint are related as the
constraint says.  Each side is taken as a whole. -/
def meets? (unifier : Unifier) (store : AtomStore) :
    FlatConstraint → Option Bool
  | .equation constraint => do
    let left ← unifier.expand? store constraint.left
    let right ← unifier.expandConjunction? store constraint.right
    return left == right
  | .subsumption constraint => do
    let body ← unifier.expandConjunction? store constraint.body
    let head ← unifier.expandConjunction? store constraint.head
    return body.isBelow head
  | .disequation constraint => do
    let left ← unifier.expandConjunction? store constraint.left
    let right ← unifier.expandConjunction? store constraint.right
    return left != right
  | .dissubsumption constraint => do
    let body ← unifier.expandConjunction? store constraint.body
    let head ← unifier.expandConjunction? store constraint.head
    return !body.isBelow head

section OfAssignment

variable {goal : Goal} {assignment : Assignment}
  {value : AtomId → NormalConcept}
  (wellFormed : goal.WellFormed) (acyclic : assignment.Acyclic goal.store)
  (proper : assignment.Proper goal.store)
  (evaluates : Evaluates goal.store assignment.subsumers value)

include wellFormed acyclic proper evaluates

/-- The two sides of a constraint have the values that they have under the
assignment. -/
theorem meets?_ofAssignment {constraint : FlatConstraint}
    (member : constraint ∈ goal.constraints) : ∃ answer,
    (ofAssignment goal assignment).meets? goal.store constraint =
      some answer ∧ (answer = true ↔ constraint.Holds value) := by
  have single : ∀ id < goal.store.size,
      (ofAssignment goal assignment).expand? goal.store id =
        some (value id) :=
    fun _ => atom?_ofAssignment wellFormed acyclic proper evaluates
  have whole : ∀ conjunction, goal.store.Stores conjunction →
      (ofAssignment goal assignment).expandConjunction? goal.store
        conjunction = some (conjoin value conjunction) :=
    fun _ => conjunction?_ofAssignment wellFormed acyclic proper evaluates
  revert constraint
  rw [Goal.forall_mem_constraints]
  refine ⟨?equations, ?subsumptions, ?disequations, ?dissubsumptions⟩
  case equations =>
    intro equation member
    obtain ⟨left, right⟩ := wellFormed.equations equation member
    rw [meets?, single _ left, whole _ right]
    exact ⟨_, rfl, by simp [FlatConstraint.Holds]⟩
  case subsumptions =>
    intro constraint member
    obtain ⟨body, head⟩ := wellFormed.subsumptions constraint member
    rw [meets?, whole _ body, whole _ head]
    exact ⟨_, rfl, by simp [FlatConstraint.Holds]⟩
  case disequations =>
    intro constraint member
    obtain ⟨left, right⟩ := wellFormed.disequations constraint member
    rw [meets?, whole _ left, whole _ right]
    exact ⟨_, rfl, by simp [FlatConstraint.Holds]⟩
  case dissubsumptions =>
    intro constraint member
    obtain ⟨body, head⟩ := wellFormed.dissubsumptions constraint member
    rw [meets?, whole _ body, whole _ head]
    exact ⟨_, rfl, by simp [FlatConstraint.Holds]⟩

/-- The check accepts exactly if all constraints hold as wholes. -/
theorem satisfies?_iff_constraints :
    (ofAssignment goal assignment).satisfies? goal = some true ↔
      ∀ constraint ∈ goal.constraints, constraint.Holds value := by
  have ranked := acyclic.ranked wellFormed.store proper
  have canonical : ∀ {id}, id < goal.store.size → (value id).Canonical :=
    Assignment.canonical_of_evaluates ranked wellFormed.store proper evaluates
  have canonical' : ∀ {conjunction}, goal.store.Stores conjunction →
      (conjoin value conjunction).Canonical := by
    intro conjunction stored
    apply NormalConcept.canonical_conjunction
    intro part member
    obtain ⟨atom, inConjunction, rfl⟩ := List.mem_map.mp member
    exact canonical (stored atom (OrderedSet.mem_iff.mpr inConjunction))
  rw [satisfies?_ofAssignment wellFormed acyclic proper evaluates,
    Goal.forall_mem_constraints, Goal.holds_iff_of_canonical]
  · rfl
  · intro equation member
    obtain ⟨left, right⟩ := wellFormed.equations equation member
    exact ⟨canonical left, canonical' right⟩
  · intro constraint member
    obtain ⟨left, right⟩ := wellFormed.disequations constraint member
    exact ⟨canonical' left, canonical' right⟩

end OfAssignment

/-- A unifier of an acyclic assignment gives the two sides of each constraint
values, and the check answers whether these are related as the constraints
say. -/
theorem satisfies?_reads_constraints {goal : Goal} (obtained : goal.Obtained)
    {assignment : Assignment}
    (choices : ∀ x atom, assignment.contains x atom = true →
      x ∈ goal.allVariables ∧ atom ∈ goal.nonVariableAtoms)
    (acyclic : assignment.Acyclic goal.store) :
    (∀ constraint ∈ goal.constraints, ∃ answer,
      (ofAssignment goal assignment).meets? goal.store constraint =
        some answer) ∧
    (ofAssignment goal assignment).satisfies? goal =
      some (decide (∀ constraint ∈ goal.constraints,
        (ofAssignment goal assignment).meets? goal.store constraint =
          some true)) := by
  have wellFormed := obtained.wellFormed
  have proper := Assignment.proper_iff.mpr choices
  obtain ⟨value, evaluates⟩ := Assignment.exists_evaluates
    (acyclic.ranked wellFormed.store proper)
  have meets : ∀ constraint ∈ goal.constraints, ∃ answer,
      (ofAssignment goal assignment).meets? goal.store constraint =
        some answer ∧ (answer = true ↔ constraint.Holds value) :=
    fun _ => meets?_ofAssignment wellFormed acyclic proper evaluates
  refine ⟨fun constraint member => ?_, ?_⟩
  · obtain ⟨answer, answered, _⟩ := meets constraint member
    exact ⟨answer, answered⟩
  · obtain ⟨answer, answered⟩ :=
      exists_satisfies?_ofAssignment wellFormed acyclic proper evaluates
    have accepts :=
      satisfies?_iff_constraints wellFormed acyclic proper evaluates
    rw [answered, Option.some.injEq] at accepts
    rw [answered, Option.some.injEq, Bool.eq_iff_iff, decide_eq_true_iff,
      accepts]
    refine forall₂_congr fun constraint member => ?_
    obtain ⟨met, metAnswered, holds⟩ := meets constraint member
    rw [metAnswered, Option.some.injEq, holds]

theorem satisfies?_reads_constraints_sampleVariant :
    ∃ goal, ((GoalBuilder.new Goal.sampleBackground {}).performAll
        Goal.sampleCalls).build = .ok goal ∧
      (∀ constraint ∈ goal.constraints,
        (ofAssignment goal Goal.sampleVariant).meets? goal.store constraint =
          some true) ∧
      (ofAssignment goal Goal.sampleVariant).satisfies? goal = some true := by
  obtain ⟨goal, built, _, _, _, solution⟩ := Goal.exists_build_sampleCalls
  obtain ⟨_, answered⟩ := satisfies?_reads_constraints (.built built)
    solution.choices solution.acyclic
  refine ⟨goal, built, ?_, solution.satisfies⟩
  rw [solution.satisfies] at answered
  exact of_decide_eq_true (Option.some.inj answered).symm

end Unifier

end ConceptUnification
