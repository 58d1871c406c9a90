import ConceptUnification.SatSearch
import ConceptUnification.Proofs.EncodingComplete

/-!
# What the literals of user variables determine

A variable that is no user variable is equivalent to the right side of an
equation.  So its value is determined by the subsumers of the user variables,
unless the equations lead from the variable back to itself without entering a
restriction.  The induction is on the role depth of values: a restriction leads
to a smaller depth, and a direct conjunct leads further along the equations.
-/

namespace ConceptUnification

namespace Goal

/-- A variable that is not to be solved for the caller. -/
def Internal (goal : Goal) (x : AtomId) : Prop :=
  goal.store.isVariable x = true ∧ goal.store.kind? x ≠ some .userVariable

/-- A definition or an abbreviation of the first variable has the second one
directly among its conjuncts. -/
def Mentions (goal : Goal) (x y : AtomId) : Prop :=
  goal.Internal x ∧ goal.Internal y ∧
    ∃ equation ∈ goal.definitions ++ goal.auxiliary,
      equation.left = x ∧ y ∈ equation.right

/-- Equations lead from the variable back to itself, without entering a
restriction. -/
def OnDirectCycle (goal : Goal) (x : AtomId) : Prop :=
  Relation.TransGen goal.Mentions x x

variable {goal : Goal}

/-- There is no direct cycle if no right side has a variable as conjunct. -/
theorem not_onDirectCycle_of_plain
    (plain : ∀ equation ∈ goal.definitions ++ goal.auxiliary,
      ∀ atom ∈ equation.right, goal.store.isVariable atom = false)
    (x : AtomId) : ¬ goal.OnDirectCycle x := by
  intro cycle
  obtain ⟨y, ⟨_, internal, equation, member, _, inRight⟩, _⟩ :=
    Relation.TransGen.head'_iff.mp cycle
  have constant := plain equation member y inRight
  rw [internal.1] at constant
  cases constant

/-- Every internal variable has an equation. -/
theorem WellFormed.exists_equation (wellFormed : goal.WellFormed) {x : AtomId}
    (internal : goal.Internal x) :
    ∃ equation ∈ goal.definitions ++ goal.auxiliary, equation.left = x := by
  obtain ⟨varying, notUser⟩ := internal
  obtain ⟨kind, known, notConstant⟩ := AtomStore.isVariable_iff.mp varying
  apply wellFormed.covered
  cases kind with
  | constant => exact (notConstant rfl).elim
  | userVariable => exact (notUser known).elim
  | definitionVariable => exact .inl known
  | auxiliaryVariable => exact .inr known

/-- A variable that is not determined by others: it is solved for the caller or
lies on a direct cycle. -/
def Free (goal : Goal) (x : AtomId) : Prop :=
  goal.store.kind? x = some .userVariable ∨ goal.OnDirectCycle x

/-- An equation leads from a determined variable to a direct conjunct. -/
def Determines (goal : Goal) (x y : AtomId) : Prop :=
  goal.Mentions x y ∧ ¬ goal.Free x

theorem not_transGen_determines (x : AtomId) :
    ¬ Relation.TransGen goal.Determines x x := by
  intro cycle
  obtain ⟨y, ⟨_, determined⟩, _⟩ := Relation.TransGen.head'_iff.mp cycle
  exact determined (.inr (Relation.TransGen.mono (fun _ _ step => step.1) x x
    cycle))

open Classical in
/-- A rank that decreases from a variable to the atoms that its value is read
off: its subsumers if it is free, and the right side of its equation if it is
determined. -/
noncomputable def determinationRank (goal : Goal) (id : AtomId) : Nat :=
  if goal.store.isVariable id then
    if goal.Free id then 1
    else Assignment.reachCount goal.Determines goal.store.size id + 2
  else 0

theorem determinationRank_lt_of_free {x atom : AtomId}
    (varying : goal.store.isVariable x = true) (free : goal.Free x)
    (nonVariable : goal.store.isVariable atom = false) :
    goal.determinationRank atom < goal.determinationRank x := by
  simp [determinationRank, varying, free, nonVariable]

theorem determinationRank_lt_of_equation {equation : Equation} {atom : AtomId}
    (varying : goal.store.isVariable equation.left = true)
    (determined : ¬ goal.Free equation.left)
    (member : equation ∈ goal.definitions ++ goal.auxiliary)
    (inRight : atom ∈ equation.right) (inStore : atom < goal.store.size) :
    goal.determinationRank atom < goal.determinationRank equation.left := by
  by_cases varying' : goal.store.isVariable atom = true
  · by_cases free' : goal.Free atom
    · simp [determinationRank, varying, varying', determined, free']
    · have step : goal.Determines equation.left atom :=
        ⟨⟨⟨varying, fun user => determined (.inl user)⟩,
          ⟨varying', fun user => free' (.inl user)⟩, equation, member, rfl,
          inRight⟩, determined⟩
      simpa [determinationRank, varying, varying', determined, free'] using
        Assignment.reachCount_lt not_transGen_determines step inStore
  · simp [determinationRank, varying, varying', determined]

end Goal

namespace Assignment

section Equation

variable {goal : Goal} {assignment : Assignment}
  {value : AtomId → NormalConcept}

/-- The two sides of an equation have the same value. -/
theorem LocalSolution.value_left (solution : assignment.LocalSolution goal)
    (wellFormed : goal.WellFormed)
    (evaluates : Evaluates goal.store assignment.subsumers value)
    {equation : Equation} (member : equation ∈ goal.allEquations) :
    value equation.left = conjoin value equation.right := by
  have proper := solution.proper
  have positive := ((Unifier.satisfies?_ofAssignment wellFormed
    solution.acyclic proper evaluates).mp solution.satisfies).1
  have canonical : ∀ {id}, id < goal.store.size → (value id).Canonical :=
    canonical_of_evaluates (solution.acyclic.ranked wellFormed.store proper)
      wellFormed.store proper evaluates
  obtain ⟨left, right⟩ := wellFormed.equations equation member
  have canonicalRight : (conjoin value equation.right).Canonical := by
    apply NormalConcept.canonical_conjunction
    intro part inParts
    obtain ⟨atom, inRight, rfl⟩ := List.mem_map.mp inParts
    exact canonical (right atom (OrderedSet.mem_iff.mpr inRight))
  obtain ⟨below, above⟩ :=
    (Goal.holds_positive_iff.mp positive).1 equation member
  exact (canonical left).eq_of_isBelow canonicalRight below above

end Equation

section Determined

variable {goal : Goal} {left right : Assignment}
  {leftValue rightValue : AtomId → NormalConcept}

/-- Solutions with the same subsumers of user variables, and of variables on
direct cycles, have the same values. -/
theorem value_determined (wellFormed : goal.WellFormed)
    (first : left.LocalSolution goal) (second : right.LocalSolution goal)
    (leftEvaluates : Evaluates goal.store left.subsumers leftValue)
    (rightEvaluates : Evaluates goal.store right.subsumers rightValue)
    (agrees : ∀ x, goal.Free x → left.subsumers x = right.subsumers x)
    {id : AtomId} (stored : id < goal.store.size) :
    leftValue id = rightValue id := by
  -- By induction on the depth of the value, and then on the rank.
  induction sameDepth : (leftValue id).depth using Nat.strongRecOn
    generalizing id with
  | _ depth shallower =>
  induction sameRank : goal.determinationRank id using Nat.strongRecOn
    generalizing id with
  | _ bound lower =>
      subst sameDepth sameRank
      have part : ∀ atom, atom < goal.store.size →
          (leftValue id).isBelow (leftValue atom) = true →
            goal.determinationRank atom < goal.determinationRank id →
              leftValue atom = rightValue atom := by
        intro atom inStore below smaller
        have bounded := NormalConcept.depth_le_of_isBelow below
        rcases Nat.lt_or_eq_of_le bounded with less | same
        · exact shallower _ less inStore rfl
        · exact lower _ smaller inStore same rfl
      obtain ⟨found, present⟩ := AtomStore.exists_atom? stored
      cases found with
      | restriction role filler =>
          obtain ⟨_, symbol, named⟩ := wellFormed.store id role filler present
          have value := leftEvaluates.restriction id role filler present
          rw [value, rightEvaluates.restriction id role filler present,
            shallower (leftValue filler).depth (by rw [value]; simp)
              (AtomStore.lt_size_of_atom? named) rfl]
      | name symbol =>
      cases varying : goal.store.isVariable id with
      | false =>
          rw [leftEvaluates.constant id symbol present varying,
            rightEvaluates.constant id symbol present varying]
      | true =>
      by_cases free : goal.Free id
      · rw [leftEvaluates.varying id varying,
          rightEvaluates.varying id varying, ← agrees id free]
        apply conjoin_congr
        intro atom member
        have chosen := mem_subsumers.mp member
        exact part atom (first.proper.stored id atom chosen)
          (leftEvaluates.variable_isBelow_of_mem varying member)
          (Goal.determinationRank_lt_of_free varying free
            (first.proper.nonVariable id atom chosen))
      · obtain ⟨equation, member, rfl⟩ :=
          wellFormed.exists_equation ⟨varying, fun user => free (.inl user)⟩
        have inAll : equation ∈ goal.allEquations :=
          List.mem_append_left _ member
        have valueLeft := first.value_left wellFormed leftEvaluates inAll
        rw [valueLeft, second.value_left wellFormed rightEvaluates inAll]
        apply conjoin_congr
        intro atom inRight
        have inStore := (wellFormed.equations equation inAll).2 atom inRight
        apply part atom inStore
        · rw [valueLeft]
          exact conjoin_isBelow_of_mem inRight
        · exact Goal.determinationRank_lt_of_equation varying free member
            inRight inStore

/-- Such solutions have the same key. -/
theorem userKey?_determined (wellFormed : goal.WellFormed)
    (first : left.LocalSolution goal) (second : right.LocalSolution goal)
    (agrees : ∀ x, goal.Free x → left.subsumers x = right.subsumers x) :
    ∃ key, (Unifier.ofAssignment goal left).userKey? goal = some key ∧
      (Unifier.ofAssignment goal right).userKey? goal = some key := by
  obtain ⟨leftValue, leftEvaluates⟩ := exists_evaluates
    (first.acyclic.ranked wellFormed.store first.proper)
  obtain ⟨rightValue, rightEvaluates⟩ := exists_evaluates
    (second.acyclic.ranked wellFormed.store second.proper)
  refine ⟨_, Unifier.userKey?_ofAssignment wellFormed first.acyclic
    first.proper leftEvaluates, ?_⟩
  rw [Unifier.userKey?_ofAssignment wellFormed second.acyclic second.proper
    rightEvaluates, Option.some.injEq]
  apply List.map_congr_left
  intro x member
  have stored := AtomStore.lt_size_of_isVariable
    (Goal.isVariable_of_mem_userVariables member)
  rw [value_determined wellFormed first second leftEvaluates rightEvaluates
    agrees stored]

end Determined

end Assignment

namespace Encoding

variable {goal : Goal} {valuation other : Valuation}

theorem holds_iff_contains (wellFormed : goal.WellFormed) {s : SubsumerLiteral}
    (member : s ∈ (ofGoal goal).subsumers) :
    valuation.holds s.literal = true ↔
      ((ofGoal goal).decode valuation).contains s.name s.atom = true := by
  obtain ⟨inVariables, inAtoms, _, stands⟩ :=
    (Encoder.listsSubsumers wellFormed).stands s member
  rw [stands.holds_iff, Encoder.contains_decode wellFormed]
  exact (and_iff_right ⟨inVariables, inAtoms⟩).symm

/-- Valuations that agree on the literals of a variable choose the same
subsumers for it. -/
theorem subsumers_decode_eq (wellFormed : goal.WellFormed) {x : AtomId}
    (agrees : ∀ s ∈ (ofGoal goal).subsumers, s.name = x →
      valuation.holds s.literal = other.holds s.literal) :
    ((ofGoal goal).decode valuation).subsumers x =
      ((ofGoal goal).decode other).subsumers x := by
  have lists := Encoder.listsSubsumers wellFormed
  apply OrderedSet.eq_of_mem_iff
  intro atom
  rw [Assignment.mem_subsumers, Assignment.mem_subsumers]
  by_cases possible : x ∈ goal.allVariables ∧ atom ∈ goal.nonVariableAtoms
  · obtain ⟨s, member, rfl, rfl⟩ :=
      lists.complete x possible.1 atom possible.2
    rw [← holds_iff_contains wellFormed member,
      ← holds_iff_contains wellFormed member, agrees s member rfl]
  · have absent : ∀ {m : Valuation},
        ¬ ((ofGoal goal).decode m).contains x atom = true := fun chosen =>
      possible ((Encoder.contains_decode wellFormed).mp chosen).1
    exact iff_of_false absent absent

/-- Local solutions that agree on the user variables are chosen by valuations
that agree on the literals of user variables. -/
theorem exists_agreeing (wellFormed : goal.WellFormed)
    {left right : Assignment} (first : left.LocalSolution goal)
    (second : right.LocalSolution goal)
    (same : ∀ x ∈ goal.userVariables, ∀ atom,
      left.contains x atom = true ↔ right.contains x atom = true) :
    ∃ valuation other : Valuation,
      valuation.satisfies (ofGoal goal).formula = true ∧
      other.satisfies (ofGoal goal).formula = true ∧
      (ofGoal goal).decode valuation = left ∧
      (ofGoal goal).decode other = right ∧
      ∀ s ∈ (ofGoal goal).subsumers, s.user = true →
        valuation.holds s.literal = other.holds s.literal := by
  obtain ⟨valuation, satisfies, chooses⟩ :=
    Encoder.exists_decode_eq wellFormed first
  obtain ⟨other, satisfies', chooses'⟩ :=
    Encoder.exists_decode_eq wellFormed second
  refine ⟨valuation, other, satisfies, satisfies', chooses, chooses', ?_⟩
  intro s member user
  obtain ⟨_, _, marked, _⟩ :=
    (Encoder.listsSubsumers wellFormed).stands s member
  rw [marked, AtomStore.hasKind, beq_iff_eq, ← Goal.mem_userVariables] at user
  rw [Bool.eq_iff_iff, holds_iff_contains wellFormed member,
    holds_iff_contains wellFormed member, chooses, chooses']
  exact same s.name user s.atom

/-- A blocking clause excludes exactly the valuations with the same literals
of user variables. -/
theorem not_holdsClause_blockingClause_all {encoding : Encoding} :
    other.holdsClause (encoding.blockingClause .all valuation) = false ↔
      ∀ s ∈ encoding.subsumers, s.user = true →
        valuation.holds s.literal = other.holds s.literal := by
  have flipped : ∀ literal : Literal,
      other.holds (if valuation.holds literal then literal.negate
        else literal) = false ↔
          valuation.holds literal = other.holds literal := by
    intro literal
    cases valuation.holds literal with
    | true =>
        rw [if_pos rfl, Bool.eq_false_iff, ne_eq, Valuation.holds_negate,
          not_not, eq_comm]
    | false =>
        rw [if_neg Bool.false_ne_true]
        exact eq_comm
  rw [Valuation.holdsClause, List.any_eq_false]
  constructor
  · intro excluded s member user
    rw [← flipped, Bool.eq_false_iff]
    apply excluded
    exact List.mem_map_of_mem (List.mem_filter.mpr ⟨member, user⟩)
  · intro agrees literal inClause
    obtain ⟨s, inUsers, rfl⟩ := List.mem_map.mp inClause
    obtain ⟨member, user⟩ := List.mem_filter.mp inUsers
    rw [← ne_eq, ← Bool.eq_false_iff, flipped]
    exact agrees s member user

theorem userKey?_decode_eq (wellFormed : goal.WellFormed)
    (first : valuation.satisfies (ofGoal goal).formula = true)
    (second : other.satisfies (ofGoal goal).formula = true)
    (agrees : ∀ s ∈ (ofGoal goal).subsumers,
      s.user = true ∨ goal.OnDirectCycle s.name →
        valuation.holds s.literal = other.holds s.literal) :
    ∃ key, (Unifier.ofAssignment goal
        ((ofGoal goal).decode valuation)).userKey? goal = some key ∧
      (Unifier.ofAssignment goal
        ((ofGoal goal).decode other)).userKey? goal = some key := by
  apply Assignment.userKey?_determined wellFormed
    (Encoder.localSolution_decode wellFormed first)
    (Encoder.localSolution_decode wellFormed second)
  intro x fixed
  apply subsumers_decode_eq wellFormed
  rintro s member rfl
  obtain ⟨_, _, user, _⟩ :=
    (Encoder.listsSubsumers wellFormed).stands s member
  apply agrees s member
  refine fixed.imp_left fun known => ?_
  rw [user, AtomStore.hasKind, known]
  rfl

/-- The literals of user variables together with those of variables on direct
cycles determine the key.  So without such cycles a blocking clause excludes no
other key. -/
theorem userKey?_fixed_by_literals {goal : Goal} (obtained : goal.Obtained) :
    (∀ valuation other : Valuation,
      valuation.satisfies (ofGoal goal).formula = true →
      other.satisfies (ofGoal goal).formula = true →
      (∀ s ∈ (ofGoal goal).subsumers,
        s.user = true ∨ goal.OnDirectCycle s.name →
          valuation.holds s.literal = other.holds s.literal) →
      ∃ key, (Unifier.ofAssignment goal
          ((ofGoal goal).decode valuation)).userKey? goal = some key ∧
        (Unifier.ofAssignment goal
          ((ofGoal goal).decode other)).userKey? goal = some key) ∧
    ((∀ x, ¬ goal.OnDirectCycle x) → ∀ valuation other : Valuation,
      valuation.satisfies (ofGoal goal).formula = true →
      other.satisfies (ofGoal goal).formula = true →
      other.holdsClause ((ofGoal goal).blockingClause .all valuation) = false →
      ∃ key, (Unifier.ofAssignment goal
          ((ofGoal goal).decode valuation)).userKey? goal = some key ∧
        (Unifier.ofAssignment goal
          ((ofGoal goal).decode other)).userKey? goal = some key) := by
  have wellFormed := obtained.wellFormed
  refine ⟨fun valuation other => userKey?_decode_eq wellFormed, ?_⟩
  intro direct valuation other first second blocked
  apply userKey?_decode_eq wellFormed first second
  intro s member fixed
  rw [not_holdsClause_blockingClause_all] at blocked
  exact blocked s member (fixed.resolve_right (direct s.name))

theorem userKey?_fixed_by_literals_sampleCalls :
    ∃ goal, ((GoalBuilder.new Goal.sampleBackground {}).performAll
        Goal.sampleCalls).build = .ok goal ∧
      ∃ valuation other : Valuation,
        valuation.satisfies (ofGoal goal).formula = true ∧
        other.satisfies (ofGoal goal).formula = true ∧
        (ofGoal goal).decode valuation = Goal.sampleSolution ∧
        (ofGoal goal).decode other = Goal.sampleVariant ∧
        other.holdsClause ((ofGoal goal).blockingClause .all valuation) =
          false ∧
        ∃ key, (Unifier.ofAssignment goal
            ((ofGoal goal).decode valuation)).userKey? goal = some key ∧
          (Unifier.ofAssignment goal
            ((ofGoal goal).decode other)).userKey? goal = some key := by
  obtain ⟨goal, built, plain, users, solution, variant⟩ :=
    Goal.exists_build_sampleCalls
  have obtained : goal.Obtained := .built built
  obtain ⟨valuation, other, first, second, chooses, chooses', agrees⟩ :=
    exists_agreeing obtained.wellFormed solution variant (by
      intro x user atom
      rw [users, List.mem_singleton] at user
      rw [user, Goal.sampleSolution, Goal.sampleVariant,
        Assignment.contains_ofList, Assignment.contains_ofList]
      simp)
  have blocked := not_holdsClause_blockingClause_all.mpr agrees
  exact ⟨goal, built, valuation, other, first, second, chooses, chooses',
    blocked, (userKey?_fixed_by_literals obtained).2
      (Goal.not_onDirectCycle_of_plain plain) valuation other first second
      blocked⟩

end Encoding

namespace Goal

/-- A background in which `A` is defined as itself. -/
def selfDefined : Ontology Term :=
  ⟨[⟨"A", .name "A", false⟩]⟩

/-- Calls that make a user variable equivalent to the conjunction of a constant
and a restriction over `A`. -/
def selfDefinedCalls : List BuilderCall :=
  [.userVariable "X", .equation (.name "X")
    (.conjunction [.name "B", .restriction "r" (.name "A")])]

/-- The subsumers of `X`, where `A` may be anything. -/
def selfDefinedSmall : Assignment :=
  .ofList [(0, 1), (0, 3)]

/-- The subsumers of `X`, where `A` is `B`. -/
def selfDefinedLarge : Assignment :=
  .ofList [(0, 1), (0, 3), (2, 1)]

/-- In the goal of these calls the atoms are `X`, `B`, `A` and `∃r.A`. -/
theorem exists_build_selfDefinedCalls :
    ∃ goal, ((GoalBuilder.new selfDefined {}).performAll
        selfDefinedCalls).build = .ok goal ∧
      goal.userVariables = [0] ∧ selfDefinedSmall.LocalSolution goal ∧
      selfDefinedLarge.LocalSolution goal ∧
      (Unifier.ofAssignment goal selfDefinedSmall).userKey? goal ≠
        (Unifier.ofAssignment goal selfDefinedLarge).userKey? goal := by
  have holds : ((GoalBuilder.new selfDefined {}).performAll
      selfDefinedCalls).build.toOption.any (fun goal => decide (
        goal.userVariables = [0] ∧
        selfDefinedSmall.Checked goal ([3, 0, 1, 2].getD · 0) ∧
        selfDefinedLarge.Checked goal ([3, 0, 1, 2].getD · 0) ∧
        (Unifier.ofAssignment goal selfDefinedSmall).userKey? goal ≠
          (Unifier.ofAssignment goal selfDefinedLarge).userKey? goal)) =
      true := by
    simp only [selfDefinedCalls, GoalBuilder.performAll, List.foldl,
      GoalBuilder.perform, GoalBuilder.addEquation, GoalBuilder.flatten,
      GoalBuilder.flattenWith, GoalBuilder.flattenAllWith]
    -- `A` is looked up once for the restriction and once for its definition.
    unfold GoalBuilder.nameWith
    unfold GoalBuilder.flattenWith
    unfold GoalBuilder.nameWith
    decide +kernel
  obtain ⟨goal, built, facts⟩ := exists_ok_of_any holds
  obtain ⟨users, small, large, differ⟩ := of_decide_eq_true facts
  exact ⟨goal, built, users, small.localSolution, large.localSolution, differ⟩

end Goal

namespace Encoding

/-- On a direct cycle the literals of user variables do not determine the key:
a blocking clause excludes a unifier with another key. -/
theorem userLiterals_not_sufficient :
    ∃ goal, ((GoalBuilder.new Goal.selfDefined {}).performAll
        Goal.selfDefinedCalls).build = .ok goal ∧
      ∃ valuation other : Valuation,
        valuation.satisfies (ofGoal goal).formula = true ∧
        other.satisfies (ofGoal goal).formula = true ∧
        (∀ s ∈ (ofGoal goal).subsumers, s.user = true →
          valuation.holds s.literal = other.holds s.literal) ∧
        other.holdsClause ((ofGoal goal).blockingClause .all valuation) =
          false ∧
        (Unifier.ofAssignment goal
            ((ofGoal goal).decode valuation)).userKey? goal ≠
          (Unifier.ofAssignment goal
            ((ofGoal goal).decode other)).userKey? goal := by
  obtain ⟨goal, built, users, small, large, differ⟩ :=
    Goal.exists_build_selfDefinedCalls
  obtain ⟨valuation, other, first, second, chooses, chooses', agrees⟩ :=
    exists_agreeing (Goal.Obtained.built built).wellFormed small large (by
      intro x user atom
      rw [users, List.mem_singleton] at user
      rw [user, Goal.selfDefinedSmall, Goal.selfDefinedLarge,
        Assignment.contains_ofList, Assignment.contains_ofList]
      simp)
  refine ⟨goal, built, valuation, other, first, second, agrees,
    not_holdsClause_blockingClause_all.mpr agrees, ?_⟩
  rw [chooses, chooses']
  exact differ

end Encoding

end ConceptUnification
