import ConceptUnification.Proofs.UnifierValue

/-!
# Closed solutions

Choosing every atom above the value of a variable as a subsumer of it changes
no value.  So each local solution has a closed one with the same values, and a
closed solution contains whatever subsumer a correct search may ask for.
-/

namespace ConceptUnification

/-- An atom is chosen for a variable exactly when it lies above its value. -/
structure ClosedAssignment (goal : Goal) (assignment : Assignment)
    (value : AtomId → NormalConcept) : Prop where
  proper : assignment.Proper goal.store
  acyclic : assignment.Acyclic goal.store
  evaluates : Evaluates goal.store assignment.subsumers value
  closed : ∀ x atom, goal.store.isVariable x = true →
    atom < goal.store.size → goal.store.isVariable atom = false →
    (value x).isBelow (value atom) = true →
      assignment.contains x atom = true

/-- A closed assignment under which the positive subsumptions hold. -/
structure ClosedSolution (goal : Goal) (assignment : Assignment)
    (value : AtomId → NormalConcept) : Prop
    extends ClosedAssignment goal assignment value where
  positive : ∀ subsumption ∈ goal.positiveSubsumptions,
    subsumption.Holds value

namespace Assignment

/-- All pairs of a variable and a non-variable atom above its value. -/
def closure (goal : Goal) (value : AtomId → NormalConcept) : Assignment :=
  ofList ((goal.allVariables.flatMap fun x =>
    goal.nonVariableAtoms.map fun atom => (x, atom)).filter fun pair =>
      (value pair.1).isBelow (value pair.2))

variable {goal : Goal} {value : AtomId → NormalConcept}

theorem contains_closure {x atom : AtomId} :
    (closure goal value).contains x atom = true ↔
      goal.store.isVariable x = true ∧
        (atom < goal.store.size ∧ goal.store.isVariable atom = false) ∧
          (value x).isBelow (value atom) = true := by
  simp only [closure, contains_ofList, List.mem_filter, List.mem_flatMap,
    List.mem_map, Prod.mk.injEq, ← Goal.mem_allVariables,
    ← Goal.mem_nonVariableAtoms]
  constructor
  · rintro ⟨⟨_, inVariables, _, inAtoms, rfl, rfl⟩, below⟩
    exact ⟨inVariables, inAtoms, below⟩
  · rintro ⟨inVariables, inAtoms, below⟩
    exact ⟨⟨x, inVariables, atom, inAtoms, rfl, rfl⟩, below⟩

theorem proper_closure : (closure goal value).Proper goal.store where
  variable_ := fun _ _ chosen => (contains_closure.mp chosen).1
  stored := fun _ _ chosen => (contains_closure.mp chosen).2.1.1
  nonVariable := fun _ _ chosen => (contains_closure.mp chosen).2.1.2

/-- Dependency decreases the depth of values. -/
theorem acyclic_closure (interprets : Interprets goal.store value) :
    (closure goal value).Acyclic goal.store := by
  have shallower : ∀ x y, (closure goal value).Depends goal.store x y →
      (value y).depth < (value x).depth := by
    rintro x y ⟨atom, role, chosen, restriction, _⟩
    have below := (contains_closure.mp chosen).2.2
    rw [interprets.restriction atom role y restriction] at below
    exact NormalConcept.depth_lt_of_isBelow_restriction below
  have decreasing : ∀ x y,
      Relation.TransGen ((closure goal value).Depends goal.store) x y →
        (value y).depth < (value x).depth := by
    intro x y path
    induction path with
    | single edge => exact shallower _ _ edge
    | tail _ edge induction => exact Nat.lt_trans (shallower _ _ edge) induction
  intro x cycle
  exact Nat.lt_irrefl _ (decreasing x x cycle)

variable {assignment : Assignment}

theorem within_closure (proper : assignment.Proper goal.store)
    (evaluates : Evaluates goal.store assignment.subsumers value) :
    assignment.Within (closure goal value) := by
  intro x atom chosen
  have varying := proper.variable_ x atom chosen
  refine contains_closure.mpr ⟨varying, ⟨proper.stored x atom chosen,
    proper.nonVariable x atom chosen⟩, ?_⟩
  exact evaluates.variable_isBelow_of_mem varying (mem_subsumers.mpr chosen)

/-- The closure has the same values. -/
theorem evaluates_closure (wellFormed : goal.store.WellFormed)
    (acyclic : assignment.Acyclic goal.store)
    (proper : assignment.Proper goal.store)
    (evaluates : Evaluates goal.store assignment.subsumers value) :
    Evaluates goal.store (closure goal value).subsumers value := by
  refine ⟨?_, evaluates.constant, evaluates.restriction⟩
  intro x varying
  have ranked := acyclic.ranked wellFormed proper
  have canonical : ∀ {id}, id < goal.store.size → (value id).Canonical :=
    canonical_of_evaluates ranked wellFormed proper evaluates
  rw [evaluates.varying x varying]
  apply NormalConcept.conjunction_eq_conjunction
  · intro part member
    obtain ⟨atom, inSubsumers, rfl⟩ := List.mem_map.mp member
    exact canonical (proper.stored x atom (mem_subsumers.mp inSubsumers))
  · intro part member
    obtain ⟨atom, inClosure, rfl⟩ := List.mem_map.mp member
    exact canonical (proper_closure.stored x atom (mem_subsumers.mp inClosure))
  · intro part member
    obtain ⟨atom, inClosure, rfl⟩ := List.mem_map.mp member
    obtain ⟨_, ⟨stored, nonVariable⟩, below⟩ :=
      contains_closure.mp (mem_subsumers.mp inClosure)
    obtain ⟨lower, inSubsumers, below'⟩ :=
      (evaluates.variable_isBelow_iff varying stored nonVariable).mp below
    exact ⟨_, List.mem_map_of_mem inSubsumers, below'⟩
  · intro part member
    obtain ⟨atom, inSubsumers, rfl⟩ := List.mem_map.mp member
    have inClosure := within_closure proper evaluates x atom
      (mem_subsumers.mp inSubsumers)
    exact ⟨_, List.mem_map_of_mem (mem_subsumers.mpr inClosure),
      NormalConcept.isBelow_refl _⟩

/-- The closure of a solution is a closed solution with the same values. -/
theorem closedSolution_closure (wellFormed : goal.store.WellFormed)
    (acyclic : assignment.Acyclic goal.store)
    (proper : assignment.Proper goal.store)
    (evaluates : Evaluates goal.store assignment.subsumers value)
    (positive : ∀ subsumption ∈ goal.positiveSubsumptions,
      subsumption.Holds value) :
    ClosedSolution goal (closure goal value) value where
  proper := proper_closure
  acyclic := acyclic_closure evaluates.interprets
  evaluates := evaluates_closure wellFormed acyclic proper evaluates
  closed := fun _ _ varying stored nonVariable below =>
    contains_closure.mpr ⟨varying, ⟨stored, nonVariable⟩, below⟩
  positive := positive

end Assignment

/-- A positive subsumption whose head is no variable holds because of one
conjunct. -/
theorem Evaluates.exists_conjunct {store : AtomStore}
    {conjunctionOf : AtomId → AtomSet} {value : AtomId → NormalConcept}
    (evaluates : Evaluates store conjunctionOf value)
    {subsumption : FlatSubsumption} (stored : subsumption.head < store.size)
    (nonVariable : store.isVariable subsumption.head = false)
    (holds : subsumption.Holds value) :
    ∃ atom ∈ subsumption.body,
      (value atom).isBelow (value subsumption.head) = true :=
  (conjoin_isBelow_iff_exists
    (evaluates.interprets.single stored nonVariable)).mp holds

end ConceptUnification
