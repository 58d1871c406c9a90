import ConceptUnification.Proofs.CanonicalExpansion
import ConceptUnification.Proofs.SaturationConfluence

/-!
# Completeness of a step

A node is solved by an assignment that chooses all its subsumers if all that is
known at it, solved or pending, holds under that assignment.  Saturating such a
node does not fail, some alternative for a pending subsumption has a child that
the assignment solves as well, and so has each refinement by one of its pairs.
The assignment takes every atom above the value of a variable, so no rule can
ask for a subsumer that it lacks.
-/

namespace ConceptUnification

namespace Substitution

theorem store_resolve (substitution : Substitution) :
    substitution.resolve.store = substitution.store := by
  fun_induction resolve substitution with
  | case1 => rfl
  | case2 _ _ _ _ induction => exact induction

/-- Only stored atoms have values. -/
theorem lt_size_of_atom? {substitution : Substitution} {id : AtomId}
    {c : NormalConcept} (found : substitution.atom? id = some c) :
    id < substitution.store.size := by
  unfold atom? at found
  split at found
  · cases found
  · next present => exact AtomStore.lt_size_of_atom? present
  · next present => exact AtomStore.lt_size_of_atom? present

end Substitution

/-- Only subsumptions between stored atoms are solved. -/
theorem Unifier.stored_of_solves? {unifier : Unifier} {store : AtomStore}
    {s : FlatSubsumption}
    (solved : (unifier.substitution store).solves? s = some true) :
    store.Stores s.body ∧ s.head < store.size := by
  have valued : ∀ {id c}, (unifier.substitution store).atom? id = some c →
      id < store.size := by
    intro id c found
    have inRange := Substitution.lt_size_of_atom? found
    rwa [substitution, Substitution.ofBindings,
      Substitution.store_resolve] at inRange
  obtain ⟨body, evaluated, rest⟩ := Option.bind_eq_some_iff.mp solved
  obtain ⟨head, found, _⟩ := Option.bind_eq_some_iff.mp rest
  obtain ⟨parts, evaluatedParts, _⟩ := Option.map_eq_some_iff.mp evaluated
  refine ⟨?_, valued found⟩
  intro atom member
  obtain ⟨c, foundAtom⟩ := (exists_of_mapM evaluatedParts).2 atom member
  exact valued foundAtom

namespace Assignment

/-- Each variable takes exactly the non-variable atoms whose expansions are
above its own one. -/
def TakesAbove (goal : Goal) (assignment : Assignment) : Prop :=
  ∀ x ∈ goal.allVariables, ∀ atom ∈ goal.nonVariableAtoms,
    assignment.contains x atom = true ↔
      ∃ lower upper,
        (Unifier.ofAssignment goal assignment).expand? goal.store x =
          some lower ∧
        (Unifier.ofAssignment goal assignment).expand? goal.store atom =
          some upper ∧
        lower.isBelow upper = true

variable {goal : Goal} {assignment : Assignment}

theorem TakesAbove.exists_closedAssignment (takes : assignment.TakesAbove goal)
    (wellFormed : goal.WellFormed) (acyclic : assignment.Acyclic goal.store)
    (proper : assignment.Proper goal.store) :
    ∃ value, ClosedAssignment goal assignment value := by
  obtain ⟨value, evaluates⟩ := exists_evaluates
    (acyclic.ranked wellFormed.store proper)
  refine ⟨value, proper, acyclic, evaluates, ?_⟩
  intro x atom varying stored nonVariable below
  have expands : ∀ {id}, id < goal.store.size →
      (Unifier.ofAssignment goal assignment).expand? goal.store id =
        some (value id) :=
    Unifier.atom?_ofAssignment wellFormed acyclic proper evaluates
  exact (takes x (Goal.mem_allVariables.mpr varying) atom
    (Goal.mem_nonVariableAtoms.mpr ⟨stored, nonVariable⟩)).mpr
      ⟨value x, value atom, expands (AtomStore.lt_size_of_isVariable varying),
        expands stored, below⟩

end Assignment

theorem ClosedAssignment.takesAbove {goal : Goal} {assignment : Assignment}
    {value : AtomId → NormalConcept}
    (closed : ClosedAssignment goal assignment value)
    (wellFormed : goal.WellFormed) : assignment.TakesAbove goal := by
  intro x inVariables atom inAtoms
  have varying := Goal.mem_allVariables.mp inVariables
  obtain ⟨stored, nonVariable⟩ := Goal.mem_nonVariableAtoms.mp inAtoms
  have expands : ∀ {id}, id < goal.store.size →
      (Unifier.ofAssignment goal assignment).expand? goal.store id =
        some (value id) :=
    Unifier.atom?_ofAssignment wellFormed closed.acyclic closed.proper
      closed.evaluates
  rw [expands (AtomStore.lt_size_of_isVariable varying), expands stored]
  constructor
  · intro chosen
    exact ⟨_, _, rfl, rfl, closed.evaluates.variable_isBelow_of_mem varying
      (Assignment.mem_subsumers.mpr chosen)⟩
  · rintro ⟨_, _, lower, upper, below⟩
    cases lower
    cases upper
    exact closed.closed x atom varying stored nonVariable below

namespace SearchNode

/-- The assignment chooses what the node chose, and solves all subsumptions
that are known at the node, solved or pending. -/
structure SolvedBy (goal : Goal) (assignment : Assignment)
    (node : SearchNode) : Prop where
  within : node.assignment.Within assignment
  solves : ∀ s ∈ node.known,
    ((Unifier.ofAssignment goal assignment).substitution goal.store).solves?
      s = some true

variable {goal : Goal} {solution : Assignment} {value : AtomId → NormalConcept}
  {node after : SearchNode}

/-- A closed assignment solves the nodes that admit it. -/
theorem solvedBy_iff (wellFormed : goal.WellFormed)
    (closed : ClosedAssignment goal solution value) :
    node.SolvedBy goal solution ↔
      node.Saturable goal.store ∧ node.Admits solution value := by
  have solves_iff : ∀ {s : FlatSubsumption}, goal.store.Stores s.body →
      s.head < goal.store.size →
        (((Unifier.ofAssignment goal solution).substitution
          goal.store).solves? s = some true ↔ s.Holds value) := by
    intro s body head
    rw [Unifier.solves?_ofAssignment wellFormed closed.acyclic closed.proper
      closed.evaluates body head, Option.some.injEq]
    rfl
  constructor
  · intro solved
    have stored := fun s member =>
      Unifier.stored_of_solves? (solved.solves s member)
    refine ⟨⟨closed.acyclic.of_within solved.within,
      closed.proper.of_within solved.within, stored⟩, solved.within, ?_⟩
    intro s member
    exact (solves_iff (stored s member).1 (stored s member).2).mp
      (solved.solves s member)
  · rintro ⟨saturable, admits⟩
    refine ⟨admits.within, ?_⟩
    intro s member
    obtain ⟨body, head⟩ := saturable.stored s member
    exact (solves_iff body head).mpr (admits.holds s member)

/-- A proper subsumer that closes no cycle keeps a node saturable. -/
theorem Saturable.extend {store : AtomStore}
    (saturable : node.Saturable store) {x atom : AtomId}
    (success : node.extend store x atom = .ok after)
    (varying : store.isVariable x = true) (stored : atom < store.size)
    (nonVariable : store.isVariable atom = false) : after.Saturable store := by
  cases known : node.assignment.contains x atom with
  | true =>
      rw [extend_of_contains known] at success
      cases success
      exact saturable
  | false =>
      obtain ⟨safe, acquires⟩ := extend_eq_ok success known
      refine ⟨?_, ?_, ?_⟩
      · rw [acquires.assignment]
        exact saturable.acyclic.insert safe
      · rw [acquires.assignment]
        exact saturable.proper.insert varying stored nonVariable
      · intro s member
        rcases (acquires.known s).mp member with old | new
        · exact saturable.stored s old
        · obtain ⟨o, reopened, rfl⟩ := List.mem_map.mp new
          have inKnown := mem_known_of_mem (List.mem_filter.mp reopened).1
          exact ⟨(saturable.stored _ inKnown).1, stored⟩

theorem Saturable.markSolved {store : AtomStore}
    (saturable : node.Saturable store) (position : Nat) :
    (node.markSolved position).Saturable store where
  acyclic := saturable.acyclic
  proper := saturable.proper
  stored := by
    rw [known_markSolved]
    exact saturable.stored

/-- What a branching rule proposes keeps a node saturable. -/
theorem Saturable.branch {store : AtomStore} (wellFormed : store.WellFormed)
    (saturable : node.Saturable store) {position : Nat}
    {obligation : Obligation} {application : Application}
    (found : node.obligations[position]? = some obligation)
    (proposal : BranchProposal store obligation.subsumption application)
    (success : node.apply store position application = .ok after) :
    after.Saturable store := by
  cases proposal with
  | @decomposition role b filler filler' member lower upper =>
      cases success
      obtain ⟨_, _, named⟩ := wellFormed b role filler lower
      obtain ⟨_, _, named'⟩ := wellFormed _ role filler' upper
      have acquires := acquires_add node ⟨{filler}, filler'⟩
      refine Saturable.markSolved ⟨?_, ?_, ?_⟩ position
      · rw [acquires.assignment]
        exact saturable.acyclic
      · rw [acquires.assignment]
        exact saturable.proper
      · intro s inAfter
        rcases (acquires.known s).mp inAfter with old | new
        · exact saturable.stored s old
        · rw [List.mem_singleton] at new
          subst new
          refine ⟨?_, AtomStore.lt_size_of_atom? named'⟩
          intro atom inBody
          rw [OrderedSet.mem_singleton] at inBody
          subst inBody
          exact AtomStore.lt_size_of_atom? named
  | @extension x member varying nonVariable =>
      have inKnown := mem_known_of_mem (mem_of_getElem? found)
      cases extends_ : node.extend store x obligation.subsumption.head with
      | error failure =>
          rw [apply, extends_] at success
          cases success
      | ok extended =>
          rw [apply, extends_] at success
          cases success
          exact (saturable.extend extends_ varying
            (saturable.stored _ inKnown).2 nonVariable).markSolved position

/-- Saturating comes to an end.  The outcome is the computed one for every
capacity that leaves room for the known bodies with all heads. -/
theorem Saturable.exists_outcome {store : AtomStore}
    (saturable : node.Saturable store) :
    ∃ outcome, SaturationOutcome store node outcome ∧
      node.Saturates store outcome ∧
      ∀ (bodies : List AtomSet) (capacity : Nat),
        (∀ s ∈ node.known, s.body ∈ bodies) →
        bodies.length * store.size ≤ capacity →
        ∀ stats, ((node.saturate store capacity).run.run stats).1 =
          outcome := by
  have begins := Follows.refl saturable
  have invariant : EagerInvariant store
      ((node.known.map (·.body)).length * store.size) (Follows store node) :=
    eagerInvariant_follows (fun _ => List.mem_map_of_mem) (Nat.le_refl _)
  have saturates := (invariant.saturates_iff begins {}).mpr rfl
  refine ⟨_, invariant.saturateWithin_outcome _ begins (by omega) {},
    saturates, ?_⟩
  intro bodies capacity covered enough stats
  exact ((eagerInvariant_follows covered enough).saturates_iff begins
    stats).mp saturates

section Closed

variable (wellFormed : goal.WellFormed)
  (closed : ClosedAssignment goal solution value)
  (saturable : node.Saturable goal.store)
  (admits : node.Admits solution value)

include wellFormed closed saturable admits

theorem Admits.path
    (path : Relation.ReflTransGen (EagerStep goal.store) node after) :
    after.Saturable goal.store ∧ after.Admits solution value := by
  refine ⟨((Follows.refl saturable).path path).toSaturable, ?_⟩
  induction path with
  | refl => exact admits
  | tail path step induction =>
      have between := (Follows.refl saturable).path path
      exact induction.step wellFormed.store closed between.stored step

/-- An admitted assignment is no obstacle to saturation. -/
theorem Admits.exists_saturated : ∃ saturated,
    saturated.Saturated goal.store ∧ saturated.Saturable goal.store ∧
      saturated.Admits solution value ∧
      node.Saturates goal.store (.ok saturated) ∧
      ∀ (bodies : List AtomSet) (capacity : Nat),
        (∀ s ∈ node.known, s.body ∈ bodies) →
        bodies.length * goal.store.size ≤ capacity →
        ∀ stats, ((node.saturate goal.store capacity).run.run stats).1 =
          .ok saturated := by
  obtain ⟨outcome, ends, saturates, computed⟩ := saturable.exists_outcome
  cases ends with
  | @saturated saturated path idle =>
      obtain ⟨saturable', admits'⟩ :=
        admits.path wellFormed closed saturable path
      exact ⟨saturated, idle, saturable', admits', saturates, computed⟩
  | failed path fails =>
      obtain ⟨saturable', admits'⟩ :=
        admits.path wellFormed closed saturable path
      exact (admits'.not_failure wellFormed.store closed saturable'.stored
        fails).elim

end Closed

/-- One step loses no solution.  A node that a closed assignment solves is
saturated without conflict, and the assignment solves what comes of it.  If a
subsumption is pending there, an alternative for the first such one succeeds
with a node that the assignment solves; otherwise refinement pushes such a node
for each pair of the assignment that lies after the last candidate and is not
chosen yet. -/
theorem step_loses_no_solution (obtained : goal.Obtained)
    (proper : solution.Proper goal.store) (acyclic : solution.Acyclic goal.store)
    (takes : solution.TakesAbove goal) (solved : node.SolvedBy goal solution) :
    ∃ saturated, node.Saturates goal.store (.ok saturated) ∧
      (∀ (bodies : List AtomSet) (capacity : Nat),
        (∀ s ∈ node.known, s.body ∈ bodies) →
        bodies.length * goal.store.size ≤ capacity →
        ∀ stats, ((node.saturate goal.store capacity).run.run stats).1 =
          .ok saturated) ∧
      saturated.SolvedBy goal solution ∧
      (∀ position, saturated.firstPending? = some position →
        ∃ obligation proposals rule application child,
          saturated.obligations[position]? = some obligation ∧
          alternatives obligation.subsumption goal.store Rule.branchingRules =
            .ok proposals ∧
          (rule, application) ∈ proposals ∧
          saturated.apply goal.store position application = .ok child ∧
          child.SolvedBy goal solution) ∧
      (saturated.firstPending? = none →
        ∀ position x atom, saturated.nextCandidate ≤ position →
          (SearchSpace.ofGoal goal).candidates[position]? = some (x, atom) →
          solution.contains x atom = true →
          saturated.assignment.contains x atom = false →
          ∀ (memory : SearchMemory) (height : Nat),
            ∃ child ∈ (memory.expandLeaf (.ofGoal goal) saturated
                height).1.children,
              child.refined = some position ∧
              child.assignment = saturated.assignment.insert x atom ∧
              child.SolvedBy goal solution) := by
  have wellFormed := obtained.wellFormed
  obtain ⟨value, closed⟩ :=
    takes.exists_closedAssignment wellFormed acyclic proper
  have solved_iff : ∀ {node : SearchNode}, node.SolvedBy goal solution ↔
      node.Saturable goal.store ∧ node.Admits solution value :=
    solvedBy_iff wellFormed closed
  obtain ⟨saturable, admits⟩ := solved_iff.mp solved
  obtain ⟨saturated, idle, saturable', admits', saturates, computed⟩ :=
    admits.exists_saturated wellFormed closed saturable
  refine ⟨saturated, saturates, computed,
    solved_iff.mpr ⟨saturable', admits'⟩, ?alternative, ?refinement⟩
  case alternative =>
    intro position first
    obtain ⟨obligation, found, pending⟩ := pending_of_firstPending? first
    obtain ⟨proposals, answered, proposed⟩ :=
      idle.alternatives saturable'.stored found pending
    obtain ⟨application, proposal, child, success, admitsChild⟩ :=
      admits'.branch idle saturable'.stored found pending closed
    obtain ⟨rule, member⟩ := (proposed application).mpr proposal
    have saturableChild :=
      saturable'.branch wellFormed.store found proposal success
    exact ⟨obligation, proposals, rule, application, child, found, answered,
      member, success, solved_iff.mpr ⟨saturableChild, admitsChild⟩⟩
  case refinement =>
    intro _ position x atom later candidate chosen fresh memory height
    obtain ⟨extended, success, admitsChild, _⟩ := admits'.extend closed chosen
    have saturableChild := saturable'.extend success
      (proper.variable_ x atom chosen) (proper.stored x atom chosen)
      (proper.nonVariable x atom chosen)
    refine ⟨extended.withRefined position, ?_, rfl, ?_, ?_⟩
    · exact SearchSpace.mem_refinements.mpr ⟨position, x, atom, extended,
        candidate, fresh, later, success, rfl⟩
    · exact (extend_eq_ok success fresh).2.assignment
    · obtain ⟨within, solves⟩ := solved_iff.mpr ⟨saturableChild, admitsChild⟩
      exact ⟨within, solves⟩

theorem step_loses_no_solution_sampleCalls :
    ∃ goal, ((GoalBuilder.new Goal.sampleBackground {}).performAll
        Goal.sampleCalls).build = .ok goal ∧
      ∃ solution : Assignment, solution.Proper goal.store ∧
        solution.Acyclic goal.store ∧ solution.TakesAbove goal ∧
        (ofSubsumptions goal.positiveSubsumptions).SolvedBy goal solution ∧
        ∃ saturated, (ofSubsumptions goal.positiveSubsumptions).Saturates
            goal.store (.ok saturated) ∧
          saturated.SolvedBy goal solution := by
  obtain ⟨goal, built, _, _, sample, _⟩ := Goal.exists_build_sampleCalls
  have obtained : goal.Obtained := .built built
  have wellFormed := obtained.wellFormed
  obtain ⟨value, evaluates⟩ := Assignment.exists_evaluates
    (sample.acyclic.ranked wellFormed.store sample.proper)
  obtain ⟨positive, _⟩ := (Unifier.satisfies?_ofAssignment wellFormed
    sample.acyclic sample.proper evaluates).mp sample.satisfies
  have closed := Assignment.closedSolution_closure wellFormed.store
    sample.acyclic sample.proper evaluates positive
  have takes := closed.takesAbove wellFormed
  have root := wellFormed_ofSubsumptions wellFormed
  have solved : (ofSubsumptions goal.positiveSubsumptions).SolvedBy goal
      (.closure goal value) := by
    refine (solvedBy_iff wellFormed closed.toClosedAssignment).mpr
      ⟨⟨root.acyclic, root.proper, root.stored wellFormed⟩, ?_, ?_⟩
    · intro x atom chosen
      rw [assignment_ofSubsumptions, Assignment.not_contains_empty] at chosen
      cases chosen
    · intro s member
      exact positive s (known_ofSubsumptions.mp member)
  obtain ⟨saturated, saturates, _, solved', _⟩ := step_loses_no_solution
    obtained closed.proper closed.acyclic takes solved
  exact ⟨goal, built, _, closed.proper, closed.acyclic, takes, solved,
    saturated, saturates, solved'⟩

end SearchNode

end ConceptUnification
