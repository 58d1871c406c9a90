import ConceptUnification.Unifier
import ConceptUnification.Proofs.BuiltGoal
import ConceptUnification.Proofs.Evaluation

/-!
# Values of the unifier of an assignment

Pruning a binding leaves out atoms that other ones imply, so the unifier of an
acyclic assignment gives every atom the value that the assignment gives it.
Whether the unifier satisfies a goal, and what its key is, can therefore be
read off any evaluation of the assignment.
-/

namespace ConceptUnification

/-- The value of the body lies below that of the head. -/
def FlatSubsumption.Holds (value : AtomId → NormalConcept)
    (subsumption : FlatSubsumption) : Prop :=
  (conjoin value subsumption.body).isBelow (value subsumption.head) = true

/-- The values of the two sides are not related. -/
def NegativeConstraint.Holds (value : AtomId → NormalConcept) :
    NegativeConstraint → Prop
  | .disequation constraint =>
      ¬ (conjoin value constraint.left).isEquivalent
        (conjoin value constraint.right) = true
  | .dissubsumption constraint =>
      ¬ (conjoin value constraint.body).isBelow
        (conjoin value constraint.head) = true

namespace Goal

variable {goal : Goal}

theorem mem_allVariables {x : AtomId} :
    x ∈ goal.allVariables ↔ goal.store.isVariable x = true := by
  simp only [allVariables, List.mem_filter, AtomStore.mem_ids,
    and_iff_right_iff_imp]
  exact AtomStore.lt_size_of_isVariable

theorem mem_nonVariableAtoms {atom : AtomId} :
    atom ∈ goal.nonVariableAtoms ↔
      atom < goal.store.size ∧ goal.store.isVariable atom = false := by
  simp [nonVariableAtoms]

theorem mem_userVariables {x : AtomId} :
    x ∈ goal.userVariables ↔ goal.store.kind? x = some .userVariable := by
  simp only [userVariables, namesOfKind, List.mem_filter, AtomStore.mem_ids,
    AtomStore.hasKind, beq_iff_eq, and_iff_right_iff_imp]
  intro kind
  obtain ⟨symbol, named⟩ := AtomStore.exists_name_of_kind? kind
  exact AtomStore.lt_size_of_atom? named

theorem isVariable_of_mem_userVariables {x : AtomId}
    (member : x ∈ goal.userVariables) : goal.store.isVariable x = true := by
  simp [AtomStore.isVariable, mem_userVariables.mp member,
    NameKind.isVariable]

/-- The positive subsumptions are the two directions of the equations and the
subsumptions by head atom. -/
theorem mem_positiveSubsumptions {subsumption : FlatSubsumption} :
    subsumption ∈ goal.positiveSubsumptions ↔
      (∃ equation ∈ goal.allEquations,
        subsumption = ⟨equation.right, equation.left⟩ ∨
          ∃ atom ∈ equation.right,
            subsumption = ⟨{equation.left}, atom⟩) ∨
      ∃ constraint ∈ goal.subsumptions, ∃ atom ∈ constraint.head,
        subsumption = ⟨constraint.body, atom⟩ := by
  simp only [positiveSubsumptions, List.mem_eraseDups, List.mem_append,
    List.mem_flatMap, Equation.flat, Subsumption.flat, List.mem_cons,
    List.mem_map, OrderedSet.mem_iff, eq_comm (a := subsumption)]

/-- The positive subsumptions hold if the two sides of each equation lie below
each other and the subsumptions hold. -/
theorem holds_positive_iff {value : AtomId → NormalConcept} :
    (∀ subsumption ∈ goal.positiveSubsumptions, subsumption.Holds value) ↔
      (∀ equation ∈ goal.allEquations,
        (value equation.left).isBelow (conjoin value equation.right) = true ∧
          (conjoin value equation.right).isBelow (value equation.left) =
            true) ∧
        ∀ constraint ∈ goal.subsumptions,
          (conjoin value constraint.body).isBelow
            (conjoin value constraint.head) = true := by
  constructor
  · intro holds
    refine ⟨fun equation member => ⟨?_, ?_⟩, fun constraint member => ?_⟩
    · rw [isBelow_conjoin_iff]
      intro atom inRight
      have downward := holds ⟨{equation.left}, atom⟩
        (mem_positiveSubsumptions.mpr
          (.inl ⟨equation, member, .inr ⟨atom, inRight, rfl⟩⟩))
      exact conjoin_singleton_isBelow.mp downward
    · exact holds ⟨equation.right, equation.left⟩ (mem_positiveSubsumptions.mpr
        (.inl ⟨equation, member, .inl rfl⟩))
    · rw [isBelow_conjoin_iff]
      intro atom inHead
      exact holds ⟨constraint.body, atom⟩ (mem_positiveSubsumptions.mpr
        (.inr ⟨constraint, member, atom, inHead, rfl⟩))
  · rintro ⟨equations, subsumptions⟩ subsumption member
    rcases mem_positiveSubsumptions.mp member with
      ⟨equation, inEquations, rfl | ⟨atom, inRight, rfl⟩⟩ |
        ⟨constraint, inConstraints, atom, inHead, rfl⟩
    · exact (equations equation inEquations).2
    · exact conjoin_singleton_isBelow.mpr
        (isBelow_conjoin_iff.mp (equations equation inEquations).1 atom inRight)
    · exact isBelow_conjoin_iff.mp (subsumptions constraint inConstraints) atom
        inHead

theorem WellFormed.stores_positive (wellFormed : goal.WellFormed)
    {subsumption : FlatSubsumption}
    (member : subsumption ∈ goal.positiveSubsumptions) :
    goal.store.Stores subsumption.body ∧ subsumption.head < goal.store.size := by
  rcases mem_positiveSubsumptions.mp member with
    ⟨equation, inEquations, upward | ⟨atom, inRight, downward⟩⟩ |
      ⟨constraint, inConstraints, atom, inHead, rfl⟩
  · obtain ⟨left, right⟩ := wellFormed.equations equation inEquations
    rw [upward]
    exact ⟨right, left⟩
  · obtain ⟨left, right⟩ := wellFormed.equations equation inEquations
    rw [downward]
    refine ⟨?_, right atom inRight⟩
    intro other member
    rw [OrderedSet.mem_singleton.mp member]
    exact left
  · obtain ⟨body, head⟩ := wellFormed.subsumptions constraint inConstraints
    exact ⟨body, head atom inHead⟩

end Goal

/-- Subsumers of variables of the goal are non-variable atoms of the goal, no
variable depends on itself, and the unifier satisfies the goal. -/
structure Assignment.LocalSolution (assignment : Assignment) (goal : Goal) :
    Prop where
  choices : ∀ x atom, assignment.contains x atom = true →
    x ∈ goal.allVariables ∧ atom ∈ goal.nonVariableAtoms
  acyclic : assignment.Acyclic goal.store
  satisfies : (Unifier.ofAssignment goal assignment).satisfies? goal =
    some true

theorem Assignment.proper_iff {assignment : Assignment} {goal : Goal} :
    assignment.Proper goal.store ↔
      ∀ x atom, assignment.contains x atom = true →
        x ∈ goal.allVariables ∧ atom ∈ goal.nonVariableAtoms := by
  simp only [Goal.mem_allVariables, Goal.mem_nonVariableAtoms]
  constructor
  · intro proper x atom chosen
    exact ⟨proper.variable_ x atom chosen, proper.stored x atom chosen,
      proper.nonVariable x atom chosen⟩
  · intro choices
    exact
      { variable_ := fun x atom chosen => (choices x atom chosen).1
        stored := fun x atom chosen => (choices x atom chosen).2.1
        nonVariable := fun x atom chosen => (choices x atom chosen).2.2 }

theorem Assignment.LocalSolution.proper {assignment : Assignment}
    {goal : Goal} (solution : assignment.LocalSolution goal) :
    assignment.Proper goal.store :=
  Assignment.proper_iff.mpr solution.choices

/-- A check that is enough for a local solution: heights decrease along the
choices and into restrictions. -/
def Assignment.Checked (assignment : Assignment) (goal : Goal)
    (height : AtomId → Nat) : Prop :=
  (∀ pair ∈ assignment.pairs.toList,
    pair.1 ∈ goal.allVariables ∧ pair.2 ∈ goal.nonVariableAtoms ∧
      height pair.2 < height pair.1) ∧
  (∀ atom ∈ goal.nonVariableAtoms,
    ∀ edge ∈ goal.store.restriction? atom, height edge.2 < height atom) ∧
  (Unifier.ofAssignment goal assignment).satisfies? goal = some true

instance (assignment : Assignment) (goal : Goal) (height : AtomId → Nat) :
    Decidable (assignment.Checked goal height) :=
  inferInstanceAs (Decidable (_ ∧ _ ∧ _))

section Checked

variable {assignment : Assignment} {goal : Goal} {height : AtomId → Nat}

theorem Assignment.Checked.choices (checked : assignment.Checked goal height)
    {x atom : AtomId} (chosen : assignment.contains x atom = true) :
    x ∈ goal.allVariables ∧ atom ∈ goal.nonVariableAtoms ∧
      height atom < height x := by
  rw [Assignment.contains_iff, OrderedSet.mem_iff] at chosen
  exact checked.1 (x, atom) chosen

theorem Assignment.Checked.ranked (checked : assignment.Checked goal height) :
    assignment.Ranked goal.store height where
  subsumer := fun _ _ chosen => (checked.choices chosen).2.2
  filler := by
    intro atom role filler present
    have inAtoms : atom ∈ goal.nonVariableAtoms :=
      Goal.mem_nonVariableAtoms.mpr ⟨AtomStore.lt_size_of_atom? present,
        AtomStore.not_isVariable_of_restriction present⟩
    exact checked.2.1 atom inAtoms (role, filler)
      (AtomStore.restriction?_eq_some_iff.mpr present)

theorem Assignment.Checked.localSolution
    (checked : assignment.Checked goal height) :
    assignment.LocalSolution goal where
  choices := fun _ _ chosen =>
    ⟨(checked.choices chosen).1, (checked.choices chosen).2.1⟩
  acyclic := checked.ranked.acyclic
  satisfies := checked.2.2

end Checked

namespace Goal

/-- A background with the definition of one name. -/
def sampleBackground : Ontology Term :=
  ⟨[⟨"A", .restriction "s" (.name "B"), false⟩]⟩

/-- Calls that make a user variable equivalent to two restrictions, one over the
defined name, and keep it apart from a constant. -/
def sampleCalls : List BuilderCall :=
  [.equation (.name "X") (.conjunction
      [.restriction "r" (.name "A"),
        .restriction "r" (.conjunction
          [.restriction "s" (.name "B"),
            .restriction "s" (.conjunction [.name "B", .name "C"])])]),
    .dissubsumption (.name "X") (.name "C"), .userVariable "X"]

/-- The atoms of the goal are `X`, `A`, `B`, `∃s.B`, `∃r.A`, `C`, an
abbreviation of `B ⊓ C`, the restriction by `s` over it, an abbreviation of
`∃s.B` and this one, and the restriction by `r` over that. -/
def sampleHeight (atom : AtomId) : Nat :=
  [5, 2, 0, 1, 3, 0, 1, 2, 3, 4].getD atom 0

/-- Heights in which the abbreviation of `B ⊓ C` lies above `A`. -/
def sampleHeightAbove (atom : AtomId) : Nat :=
  [7, 2, 0, 1, 3, 0, 3, 4, 5, 6].getD atom 0

def sampleSolution : Assignment :=
  .ofList [(0, 4), (0, 9), (1, 3), (6, 2), (6, 5), (8, 7)]

/-- The second abbreviation also has its subsumer `∃s.B`, which the other one
implies. -/
def sampleVariant : Assignment :=
  .ofList [(0, 4), (0, 9), (1, 3), (6, 2), (6, 5), (8, 3), (8, 7)]

theorem any_build_sampleCalls :
    ((GoalBuilder.new sampleBackground {}).performAll
      sampleCalls).build.toOption.any (fun goal => decide (
        ((∀ equation ∈ goal.definitions ++ goal.auxiliary,
            ∀ atom ∈ equation.right.toList,
              goal.store.isVariable atom = false) ∧
          goal.userVariables = [0] ∧
          sampleSolution.Checked goal sampleHeight ∧
          sampleVariant.Checked goal sampleHeight) ∧
        (⟨{0}, 4⟩ : FlatSubsumption) ∈ goal.positiveSubsumptions ∧
        goal.store.restriction? 4 = some (1, 1) ∧
        goal.store.symbol? 2 = some "B" ∧ goal.store.symbol? 5 = some "C" ∧
        goal.store.roleName? 0 = some "s" ∧
        goal.store.roleName? 1 = some "r" ∧
        sampleSolution.Checked goal sampleHeightAbove ∧
        goal.store.restriction? 7 = some (0, 6) ∧
        goal.store.isVariable 1 = true ∧
        goal.store.isVariable 6 = true)) = true := by
  simp only [sampleCalls, GoalBuilder.performAll, List.foldl,
    GoalBuilder.perform, GoalBuilder.addEquation,
    GoalBuilder.addDissubsumption, GoalBuilder.flatten,
    GoalBuilder.flattenWith, GoalBuilder.flattenAllWith]
  -- The body of the definition of `A` has two levels.
  unfold GoalBuilder.nameWith
  unfold GoalBuilder.flattenWith
  unfold GoalBuilder.flattenWith
  unfold GoalBuilder.nameWith
  decide +kernel

/-- The calls yield a goal with these local solutions, and no right side of a
definition or of an abbreviation has a variable among its conjuncts. -/
theorem exists_build_sampleCalls :
    ∃ goal, ((GoalBuilder.new sampleBackground {}).performAll
        sampleCalls).build = .ok goal ∧
      (∀ equation ∈ goal.definitions ++ goal.auxiliary,
        ∀ atom ∈ equation.right, goal.store.isVariable atom = false) ∧
      goal.userVariables = [0] ∧ sampleSolution.LocalSolution goal ∧
      sampleVariant.LocalSolution goal := by
  obtain ⟨goal, built, facts⟩ := exists_ok_of_any any_build_sampleCalls
  obtain ⟨plain, users, solution, variant⟩ := (of_decide_eq_true facts).1
  exact ⟨goal, built, plain, users, solution.localSolution,
    variant.localSolution⟩

/-- The goal requires `X` to lie below `∃r.A`, and stores these names and
roles. -/
theorem stored_sampleCalls {goal : Goal}
    (built : ((GoalBuilder.new sampleBackground {}).performAll
      sampleCalls).build = .ok goal) :
    (⟨{0}, 4⟩ : FlatSubsumption) ∈ goal.positiveSubsumptions ∧
      goal.store.restriction? 4 = some (1, 1) ∧
      goal.store.symbol? 2 = some "B" ∧ goal.store.symbol? 5 = some "C" ∧
      goal.store.roleName? 0 = some "s" ∧
      goal.store.roleName? 1 = some "r" := by
  have holds := any_build_sampleCalls
  rw [built] at holds
  obtain ⟨_, member, restriction, b, c, s, r, _⟩ := of_decide_eq_true holds
  exact ⟨member, restriction, b, c, s, r⟩

/-- Both heights decrease along the solution.  The names `A` and the
abbreviation of `B ⊓ C`, which they order differently, are fillers. -/
theorem ranked_sampleCalls {goal : Goal}
    (built : ((GoalBuilder.new sampleBackground {}).performAll
      sampleCalls).build = .ok goal) :
    sampleSolution.Ranked goal.store sampleHeight ∧
      sampleSolution.Ranked goal.store sampleHeightAbove ∧
      goal.store.restriction? 7 = some (0, 6) ∧
      goal.store.isVariable 1 = true ∧ goal.store.isVariable 6 = true := by
  have holds := any_build_sampleCalls
  rw [built] at holds
  obtain ⟨⟨_, _, checked, _⟩, _, _, _, _, _, _, above, rest⟩ :=
    of_decide_eq_true holds
  exact ⟨checked.ranked, above.ranked, rest⟩

end Goal

namespace Unifier

section Prune

variable {value : AtomId → NormalConcept}
  {value? : AtomId → Option NormalConcept} {conjunction : AtomSet}

/-- Of two atoms that imply each other, pruning prefers the one with the smaller
number. -/
def Preferred (value : AtomId → NormalConcept) (other atom : AtomId) : Prop :=
  other ≠ atom ∧ (value other).isBelow (value atom) = true ∧
    ((value atom).isBelow (value other) = true → ¬ atom < other)

theorem Preferred.trans {a b c : AtomId} (first : Preferred value a b)
    (second : Preferred value b c) : Preferred value a c := by
  obtain ⟨_, aBelowB, aFirst⟩ := first
  obtain ⟨differs, bBelowC, bFirst⟩ := second
  have chain : (value c).isBelow (value a) = true → a < c := by
    intro cBelowA
    have atMost : a ≤ b := Nat.le_of_not_lt
      (aFirst (NormalConcept.isBelow_trans bBelowC cBelowA))
    have atMost' : b ≤ c := Nat.le_of_not_lt
      (bFirst (NormalConcept.isBelow_trans cBelowA aBelowB))
    exact Nat.lt_of_le_of_lt atMost (Nat.lt_of_le_of_ne atMost' differs)
  refine ⟨?_, NormalConcept.isBelow_trans aBelowB bBelowC, ?_⟩
  · rintro rfl
    exact Nat.lt_irrefl a (chain (NormalConcept.isBelow_refl _))
  · intro cBelowA later
    exact Nat.lt_asymm (chain cBelowA) later

/-- Of two related atoms one is preferred. -/
theorem preferred_or_preferred {a b : AtomId} (different : a ≠ b)
    (below : (value a).isBelow (value b) = true) :
    Preferred value a b ∨ Preferred value b a := by
  by_cases mutual_ : (value b).isBelow (value a) = true ∧ b < a
  · obtain ⟨above, earlier⟩ := mutual_
    exact .inr ⟨different.symm, above, fun _ => Nat.lt_asymm earlier⟩
  · exact .inl ⟨different, below, fun above earlier => mutual_ ⟨above, earlier⟩⟩

theorem absorbs_iff
    (known : ∀ atom ∈ conjunction, value? atom = some (value atom))
    {other atom : AtomId} (lower : other ∈ conjunction)
    (upper : atom ∈ conjunction) :
    absorbs value? other atom = true ↔ Preferred value other atom := by
  cases above : (value atom).isBelow (value other) <;>
    simp [absorbs, Preferred, known other lower, known atom upper, above,
      and_assoc]

/-- The atoms that are left out are implied by those that stay, none of which
implies another one. -/
structure Reduces (value : AtomId → NormalConcept) (large small : AtomSet) :
    Prop where
  kept : ∀ atom ∈ small, atom ∈ large
  covered : ∀ atom ∈ large, ∃ other ∈ small,
    (value other).isBelow (value atom) = true
  independent : ∀ a ∈ small, ∀ b ∈ small, a ≠ b →
    (value a).isBelow (value b) = false

theorem mem_prune_iff
    (known : ∀ atom ∈ conjunction, value? atom = some (value atom))
    {atom : AtomId} :
    atom ∈ prune value? conjunction ↔ atom ∈ conjunction ∧
      ∀ other ∈ conjunction, ¬ Preferred value other atom := by
  rw [prune, OrderedSet.mem_filter, Bool.not_eq_true', List.any_eq_false]
  constructor
  · rintro ⟨member, free⟩
    refine ⟨member, fun other inConjunction preferred => ?_⟩
    exact free other inConjunction
      ((absorbs_iff known inConjunction member).mpr preferred)
  · rintro ⟨member, free⟩
    refine ⟨member, fun other inConjunction absorbs' => ?_⟩
    exact free other inConjunction
      ((absorbs_iff known inConjunction member).mp absorbs')

theorem reduces_prune
    (known : ∀ atom ∈ conjunction, value? atom = some (value atom)) :
    Reduces value conjunction (prune value? conjunction) where
  kept := fun atom member => ((mem_prune_iff known).mp member).1
  covered := by
    intro atom member
    obtain ⟨other, inConjunction, absorbing, free⟩ :=
      exists_initial (Preferred value) (fun _ preferred => preferred.1 rfl)
        (fun _ _ _ first second => first.trans second) conjunction.toList atom
        member
    refine ⟨other, (mem_prune_iff known).mpr ⟨inConjunction, free⟩, ?_⟩
    rcases absorbing with rfl | ⟨_, below, _⟩
    · exact NormalConcept.isBelow_refl _
    · exact below
  independent := by
    intro a inA b inB different
    obtain ⟨memberA, freeA⟩ := (mem_prune_iff known).mp inA
    obtain ⟨memberB, freeB⟩ := (mem_prune_iff known).mp inB
    rw [Bool.eq_false_iff]
    intro below
    rcases preferred_or_preferred different below with first | second
    · exact freeB a memberA first
    · exact freeA b memberB second

/-- Conjunctions have the same values without atoms that others imply. -/
theorem evaluates_of_reduces {store : AtomStore}
    {large small : AtomId → AtomSet} (evaluates : Evaluates store large value)
    (canonical : ∀ x, ∀ atom ∈ large x, (value atom).Canonical)
    (reduces : ∀ x, Reduces value (large x) (small x)) :
    Evaluates store small value := by
  refine ⟨?_, evaluates.constant, evaluates.restriction⟩
  intro x varying
  rw [evaluates.varying x varying]
  apply NormalConcept.conjunction_eq_conjunction
  · intro part member
    obtain ⟨atom, inLarge, rfl⟩ := List.mem_map.mp member
    exact canonical x atom inLarge
  · intro part member
    obtain ⟨atom, inSmall, rfl⟩ := List.mem_map.mp member
    exact canonical x atom ((reduces x).kept atom inSmall)
  · intro part member
    obtain ⟨atom, inSmall, rfl⟩ := List.mem_map.mp member
    exact ⟨_, List.mem_map_of_mem ((reduces x).kept atom inSmall),
      NormalConcept.isBelow_refl _⟩
  · intro part member
    obtain ⟨atom, inLarge, rfl⟩ := List.mem_map.mp member
    obtain ⟨other, inSmall, below⟩ := (reduces x).covered atom inLarge
    exact ⟨_, List.mem_map_of_mem inSmall, below⟩

/-- A table of the values of listed atoms has the value of each. -/
theorem lookup_map_of_mem {f : AtomId → Option NormalConcept} {atom : AtomId}
    {l : List AtomId} (member : atom ∈ l) :
    (l.map fun other => (other, f other)).lookup atom = some (f atom) := by
  induction l with
  | nil => cases member
  | cons other l induction =>
      rw [List.map_cons, List.lookup_cons]
      by_cases same : atom = other
      · simp [same]
      · rw [beq_eq_false_iff_ne.mpr same]
        exact induction ((List.mem_cons.mp member).resolve_left same)

end Prune

section OfAssignment

variable {goal : Goal} {assignment : Assignment}
  {value : AtomId → NormalConcept}
  (wellFormed : goal.WellFormed) (acyclic : assignment.Acyclic goal.store)
  (proper : assignment.Proper goal.store)
  (evaluates : Evaluates goal.store assignment.subsumers value)

include wellFormed acyclic proper evaluates

/-- The unifier of an assignment binds each variable to its reduced subsumers,
and these have the same values. -/
theorem exists_pruned :
    ∃ conjunctionOf : AtomId → AtomSet,
      (ofAssignment goal assignment).bindings =
        goal.allVariables.map (fun x => ⟨x, conjunctionOf x⟩) ∧
      (∀ x, Reduces value (assignment.subsumers x) (conjunctionOf x)) ∧
      Evaluates goal.store conjunctionOf value := by
  have ranked := acyclic.ranked wellFormed.store proper
  have known : ∀ {id}, id < goal.store.size →
      (Substitution.ofBindings goal.store (goal.allVariables.map fun x =>
        Binding.mk x (assignment.subsumers x))).atom? id = some (value id) :=
    Substitution.atom?_ofBindings evaluates wellFormed.store ranked proper
      (fun x atom member => Assignment.mem_subsumers.mp member)
      fun x => Goal.mem_allVariables.mpr
  generalize shape : Substitution.ofBindings goal.store
    (goal.allVariables.map fun x => Binding.mk x (assignment.subsumers x)) =
      substitution at known
  let conjunctionOf (x : AtomId) : AtomSet :=
    prune (fun atom => (((assignment.subsumers x).toList.map fun other =>
      (other, substitution.atom? other)).lookup atom).join)
      (assignment.subsumers x)
  have reduces : ∀ x,
      Reduces value (assignment.subsumers x) (conjunctionOf x) := by
    intro x
    apply reduces_prune
    intro atom member
    rw [lookup_map_of_mem member]
    exact known (proper.stored x atom (Assignment.mem_subsumers.mp member))
  refine ⟨conjunctionOf, ?_, reduces, ?_⟩
  · unfold ofAssignment
    simp only [shape, List.map_map]
    rfl
  · apply evaluates_of_reduces evaluates _ reduces
    intro x atom member
    exact Assignment.canonical_of_evaluates ranked wellFormed.store proper
      evaluates (proper.stored x atom (Assignment.mem_subsumers.mp member))

/-- The unifier of an acyclic assignment gives atoms the values that they have
under the assignment. -/
theorem atom?_ofAssignment {id : AtomId} (stored : id < goal.store.size) :
    ((ofAssignment goal assignment).substitution goal.store).atom? id =
      some (value id) := by
  obtain ⟨conjunctionOf, bindings, reduces, pruned⟩ :=
    exists_pruned wellFormed acyclic proper evaluates
  rw [substitution, bindings]
  exact Substitution.atom?_ofBindings pruned wellFormed.store
    (acyclic.ranked wellFormed.store proper) proper
    (fun x atom member =>
      Assignment.mem_subsumers.mp ((reduces x).kept atom member))
    (fun x => Goal.mem_allVariables.mpr) stored

theorem conjunction?_ofAssignment {conjunction : AtomSet}
    (stored : goal.store.Stores conjunction) :
    ((ofAssignment goal assignment).substitution goal.store).conjunction?
      conjunction = some (conjoin value conjunction) :=
  Substitution.conjunction?_eq fun atom member =>
    atom?_ofAssignment wellFormed acyclic proper evaluates (stored atom member)

theorem solves?_ofAssignment {subsumption : FlatSubsumption}
    (body : goal.store.Stores subsumption.body)
    (head : subsumption.head < goal.store.size) :
    ((ofAssignment goal assignment).substitution goal.store).solves?
      subsumption = some ((conjoin value subsumption.body).isBelow
        (value subsumption.head)) := by
  rw [Substitution.solves?,
    conjunction?_ofAssignment wellFormed acyclic proper evaluates body,
    atom?_ofAssignment wellFormed acyclic proper evaluates head]
  rfl

open Classical in
theorem separates?_ofAssignment {constraint : NegativeConstraint}
    (member : constraint ∈ goal.negativeConstraints) :
    ((ofAssignment goal assignment).substitution goal.store).separates?
      constraint = some (decide (constraint.Holds value)) := by
  have evaluated : ∀ conjunction, goal.store.Stores conjunction →
      ((ofAssignment goal assignment).substitution
        goal.store).conjunction? conjunction =
          some (conjoin value conjunction) := fun _ =>
    conjunction?_ofAssignment wellFormed acyclic proper evaluates
  rcases List.mem_append.mp member with inDisequations | inDissubsumptions
  · obtain ⟨disequation, inGoal, rfl⟩ := List.mem_map.mp inDisequations
    obtain ⟨left, right⟩ := wellFormed.disequations disequation inGoal
    rw [Substitution.separates?, evaluated _ left, evaluated _ right]
    simp [NegativeConstraint.Holds, NormalConcept.isEquivalent]
  · obtain ⟨dissubsumption, inGoal, rfl⟩ := List.mem_map.mp inDissubsumptions
    obtain ⟨body, head⟩ := wellFormed.dissubsumptions dissubsumption inGoal
    rw [Substitution.separates?, evaluated _ body, evaluated _ head]
    simp [NegativeConstraint.Holds]

end OfAssignment

theorem allM_eq_some {α : Type} {p : α → Option Bool} {q : α → Bool}
    {l : List α} (known : ∀ a ∈ l, p a = some (q a)) :
    l.allM p = some (l.all q) := by
  induction l with
  | nil => rfl
  | cons a l induction =>
      have first := known a List.mem_cons_self
      have others := induction fun b member =>
        known b (List.mem_cons_of_mem _ member)
      rw [List.allM_cons, first, others]
      cases accepted : q a <;> simp [accepted]

section OfAssignment

variable {goal : Goal} {assignment : Assignment}
  {value : AtomId → NormalConcept}
  (wellFormed : goal.WellFormed) (acyclic : assignment.Acyclic goal.store)
  (proper : assignment.Proper goal.store)
  (evaluates : Evaluates goal.store assignment.subsumers value)

include wellFormed acyclic proper evaluates

theorem solvesPositive?_ofAssignment :
    (ofAssignment goal assignment).solvesPositive? goal = some true ↔
      ∀ subsumption ∈ goal.positiveSubsumptions, subsumption.Holds value := by
  rw [solvesPositive?, allM_eq_some fun subsumption member =>
    solves?_ofAssignment wellFormed acyclic proper evaluates
      (wellFormed.stores_positive member).1
      (wellFormed.stores_positive member).2]
  simp [FlatSubsumption.Holds]

theorem respectsNegative?_ofAssignment :
    (ofAssignment goal assignment).respectsNegative? goal = some true ↔
      ∀ constraint ∈ goal.negativeConstraints, constraint.Holds value := by
  classical
  rw [respectsNegative?, allM_eq_some fun constraint member =>
    separates?_ofAssignment wellFormed acyclic proper evaluates member]
  simp

theorem satisfies?_ofAssignment :
    (ofAssignment goal assignment).satisfies? goal = some true ↔
      (∀ subsumption ∈ goal.positiveSubsumptions, subsumption.Holds value) ∧
        ∀ constraint ∈ goal.negativeConstraints, constraint.Holds value := by
  rw [← solvesPositive?_ofAssignment wellFormed acyclic proper evaluates,
    ← respectsNegative?_ofAssignment wellFormed acyclic proper evaluates,
    satisfies?]
  cases (ofAssignment goal assignment).solvesPositive? goal with
  | none => simp
  | some positive => cases positive <;> simp

/-- The check of a goal comes to an answer. -/
theorem exists_satisfies?_ofAssignment : ∃ answer,
    (ofAssignment goal assignment).satisfies? goal = some answer := by
  classical
  rw [satisfies?, solvesPositive?, allM_eq_some fun subsumption member =>
    solves?_ofAssignment wellFormed acyclic proper evaluates
      (wellFormed.stores_positive member).1
      (wellFormed.stores_positive member).2]
  rw [respectsNegative?, allM_eq_some fun constraint member =>
    separates?_ofAssignment wellFormed acyclic proper evaluates member]
  rw [Option.bind_eq_bind, Option.bind_some]
  split
  · exact ⟨_, rfl⟩
  · exact ⟨_, rfl⟩

/-- The key lists the values of the user variables. -/
theorem userKey?_ofAssignment :
    (ofAssignment goal assignment).userKey? goal =
      some (goal.userVariables.map fun x => (x, value x)) := by
  unfold userKey?
  apply mapM_eq_some (g := fun x => (x, value x))
  intro x member
  have stored := AtomStore.lt_size_of_isVariable
    (Goal.isVariable_of_mem_userVariables member)
  rw [atom?_ofAssignment wellFormed acyclic proper evaluates stored]
  rfl

end OfAssignment

/-- The unifier of an acyclic assignment has a key. -/
theorem exists_userKey?_ofAssignment {goal : Goal} {assignment : Assignment}
    (wellFormed : goal.WellFormed) (acyclic : assignment.Acyclic goal.store)
    (proper : assignment.Proper goal.store) :
    ∃ key, (ofAssignment goal assignment).userKey? goal = some key := by
  obtain ⟨value, evaluates⟩ := Assignment.exists_evaluates
    (acyclic.ranked wellFormed.store proper)
  exact ⟨_, userKey?_ofAssignment wellFormed acyclic proper evaluates⟩

end Unifier

end ConceptUnification
