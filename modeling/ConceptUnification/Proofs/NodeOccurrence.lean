import ConceptUnification.Proofs.SearchTermination

/-!
# Nodes that occur in a search

The nodes that occur are those that the operations of the search lead to from
its first node, in whatever order they are applied.  All of them satisfy one
invariant: each subsumption is known once, the assignment is acyclic, and what
is marked as solved stays justified however much is chosen and learned later.
The nodes on the stack of a run and those that saturation passes through occur.
-/

namespace ConceptUnification

/-- A variable as head has no alternatives. -/
theorem alternatives_eq_nil {s : FlatSubsumption} {store : AtomStore}
    (varying : store.isVariable s.head = true) :
    alternatives s store Rule.branchingRules = .ok [] := by
  simp [alternatives, Rule.branchingRules, BranchingRule.applications, varying,
    bind, Except.bind, pure, Except.pure]

namespace SaturationM

/-- The result, if there is one, satisfies the postcondition. -/
def Returns {α : Type} (computation : SaturationM α) (post : α → Prop) : Prop :=
  Ensures computation fun outcome => ∀ a, outcome = .ok a → post a

variable {α β : Type}

theorem Returns.pure {a : α} {post : α → Prop} (holds : post a) :
    Returns (Pure.pure a) post := by
  refine Ensures.pure ?_
  intro b same
  cases same
  exact holds

theorem Returns.bind {computation : SaturationM α} {next : α → SaturationM β}
    {middle : α → Prop} {post : β → Prop} (first : Returns computation middle)
    (later : ∀ a, middle a → Returns (next a) post) :
    Returns (computation >>= next) post := by
  refine Ensures.bind fun stats => ?_
  have outcome := first stats
  cases result : (computation.run.run stats).1 with
  | error failure =>
      intro b same
      cases same
  | ok a => exact later a (outcome a result)

end SaturationM

namespace SearchNode

/-- The nodes that the operations of the search lead to: eager rules and
alternatives for pending obligations, and refinements by candidates. -/
inductive Occurs (goal : Goal) : SearchNode → Prop where
  | root : Occurs goal (.ofSubsumptions goal.positiveSubsumptions)
  | eager {node after : SearchNode} (occurs : Occurs goal node)
      (step : EagerStep goal.store node after) : Occurs goal after
  | branch {node child : SearchNode} {position : Nat}
      {obligation : Obligation} {rule : BranchingRule}
      {application : Application}
      {proposals : List (BranchingRule × Application)}
      (occurs : Occurs goal node)
      (found : node.obligations[position]? = some obligation)
      (pending : obligation.solved = false)
      (proposed : alternatives obligation.subsumption goal.store
        Rule.branchingRules = .ok proposals)
      (member : (rule, application) ∈ proposals)
      (success : node.apply goal.store position application = .ok child) :
      Occurs goal child
  | refinement {node extended : SearchNode} {position : Nat}
      {x atom : AtomId} (occurs : Occurs goal node)
      (candidate : (SearchSpace.ofGoal goal).candidates[position]? =
        some (x, atom))
      (success : node.extend goal.store x atom = .ok extended) :
      Occurs goal (extended.withRefined position)

variable {goal : Goal} {node after : SearchNode}

/-- An alternative for a pending obligation keeps the invariant. -/
theorem WellFormed.branch (goalWellFormed : goal.WellFormed)
    (wellFormed : node.WellFormed goal) {position : Nat}
    {obligation : Obligation} {rule : BranchingRule}
    {application : Application}
    {proposals : List (BranchingRule × Application)}
    (found : node.obligations[position]? = some obligation)
    (pending : obligation.solved = false)
    (proposed : alternatives obligation.subsumption goal.store
      Rule.branchingRules = .ok proposals)
    (member : (rule, application) ∈ proposals)
    (success : node.apply goal.store position application = .ok after) :
    after.WellFormed goal := by
  have arises := wellFormed.arises _ (mem_known_of_mem (mem_of_getElem? found))
  have body := goalWellFormed.stores_of_canArise arises
  cases varying : goal.store.isVariable obligation.subsumption.head with
  | true =>
      rw [alternatives_eq_nil varying] at proposed
      cases proposed
      cases member
  | false =>
      obtain ⟨others, answered, proposals_iff⟩ :=
        alternatives_eq_ok body arises.2 varying
      rw [proposed] at answered
      cases answered
      have proposal := (proposals_iff application).mp ⟨rule, member⟩
      exact (progress_branch goalWellFormed.store wellFormed found pending
        proposal success).wellFormed

/-- The invariant holds at the start, and each operation keeps it. -/
theorem Occurs.wellFormed (goalWellFormed : goal.WellFormed)
    (occurs : node.Occurs goal) : node.WellFormed goal := by
  induction occurs with
  | root => exact wellFormed_ofSubsumptions goalWellFormed
  | eager _ step induction =>
      exact (step.progress goalWellFormed induction).wellFormed
  | branch _ found pending proposed member success induction =>
      exact induction.branch goalWellFormed found pending proposed member
        success
  | @refinement node extended position x atom _ candidate success induction =>
      obtain ⟨varying, stored, nonVariable⟩ :=
        SearchSpace.mem_candidates.mp ⟨position, candidate⟩
      exact (induction.extend success varying stored
        nonVariable).withRefined position

theorem Occurs.path (occurs : node.Occurs goal)
    (path : Relation.ReflTransGen (EagerStep goal.store) node after) :
    after.Occurs goal := by
  induction path with
  | refl => exact occurs
  | tail _ step induction => exact .eager induction step

section Saturation

variable (store : AtomStore)

/-- Whatever position a sweep is stopped at, eager steps lead there. -/
theorem sweep_path (steps start : Nat) (node : SearchNode) (changed : Bool) :
    SaturationM.Returns (node.sweep store steps start changed) fun swept =>
      Relation.ReflTransGen (EagerStep store) node swept.1 := by
  intro stats swept reached
  have outcome := sweep_outcome store steps start node changed stats
  rw [reached] at outcome
  cases outcome with
  | idle => exact .refl
  | stepped path => exact path.to_reflTransGen

theorem saturateWithin_path (capacity rounds : Nat) (node : SearchNode) :
    SaturationM.Returns (node.saturateWithin store capacity rounds) fun after =>
      Relation.ReflTransGen (EagerStep store) node after := by
  induction rounds generalizing node with
  | zero => exact .pure .refl
  | succ rounds induction =>
      unfold saturateWithin
      refine .bind (sweep_path store capacity 0 node false) ?_
      intro swept early
      obtain ⟨next, changed⟩ := swept
      cases changed with
      | false => exact .pure early
      | true =>
          intro stats after reached
          exact early.trans (induction next stats after reached)

/-- A saturation that is stopped after some sweeps and some positions of the
next one. -/
def saturatePartly (node : SearchNode) (capacity rounds steps : Nat) :
    SaturationM SearchNode := do
  let swept ← node.saturateWithin store capacity rounds
  let (between, _) ← swept.sweep store steps 0 false
  return between

theorem saturatePartly_path (capacity rounds steps : Nat) (node : SearchNode) :
    SaturationM.Returns (node.saturatePartly store capacity rounds steps)
      fun between => Relation.ReflTransGen (EagerStep store) node between := by
  refine .bind (saturateWithin_path store capacity rounds node) ?_
  intro swept early
  refine .bind (sweep_path store steps 0 swept false) ?_
  intro (between, changed) late
  exact .pure (early.trans late)

end Saturation

/-- If nothing is pending, the unifier of the assignment solves all that is
known. -/
theorem WellFormed.solves? (goalWellFormed : goal.WellFormed)
    (wellFormed : node.WellFormed goal)
    (solved : ∀ o ∈ node.obligations.toList, o.solved = true)
    {s : FlatSubsumption} (member : s ∈ node.known) :
    ((Unifier.ofAssignment goal node.assignment).substitution
      goal.store).solves? s = some true := by
  obtain ⟨value, evaluates⟩ := Assignment.exists_evaluates
    (wellFormed.acyclic.ranked goalWellFormed.store wellFormed.proper)
  have arises := wellFormed.arises s member
  rw [Unifier.solves?_ofAssignment goalWellFormed wellFormed.acyclic
    wellFormed.proper evaluates (goalWellFormed.stores_of_canArise arises)
    arises.2]
  exact congrArg some
    (wellFormed.holds goalWellFormed solved evaluates member)

end SearchNode

namespace SearchMemory

/-- The children of an occurring node occur. -/
theorem Expanded.occurs {goal : Goal} {memory after : SearchMemory}
    {node : SearchNode} {expansion : Expansion}
    (goalWellFormed : goal.WellFormed) (occurs : node.Occurs goal)
    (expanded : memory.Expanded (.ofGoal goal) node expansion after) :
    ∀ child ∈ expansion.children, child.Occurs goal := by
  intro child member
  cases expanded with
  | failed => cases member
  | seen => cases member
  | leaf path =>
      obtain ⟨position, x, atom, extended, candidate, _, _, success, rfl⟩ :=
        SearchSpace.mem_refinements.mp member
      exact .refinement (occurs.path path) candidate success
  | @branch _ saturated _ obligation _ path idle found pending proposed =>
      obtain ⟨rule, application, inProposals, success⟩ :=
        SearchSpace.mem_branches.mp member
      have inner := (occurs.path path).wellFormed goalWellFormed
      obtain ⟨alternatives, answered, alternatives_iff⟩ :=
        idle.alternatives (inner.stored goalWellFormed) found pending
      obtain ⟨rule', inAlternatives⟩ := (alternatives_iff application).mpr
        ((proposed application).mp ⟨rule, inProposals⟩)
      exact .branch (occurs.path path) found pending answered inAlternatives
        success

end SearchMemory

namespace RuleSearch

/-- The nodes on the stack of a run occur. -/
theorem Reached.occurs {goal : Goal} {rounds : Nat} {found : List Unifier}
    {stack : List SearchNode} {memory : SearchMemory}
    (goalWellFormed : goal.WellFormed)
    (reached : Reached goal rounds found stack memory) :
    ∀ node ∈ stack, node.Occurs goal := by
  induction reached with
  | start =>
      intro node member
      rw [List.mem_singleton] at member
      subst member
      exact .root
  | @round rounds found parent rest memory after expansion _ expands induction =>
      have occurs := induction parent List.mem_cons_self
      have expanded := SearchMemory.expanded_of_expand goalWellFormed
        (occurs.wellFormed goalWellFormed) expands
      intro node member
      rcases List.mem_append.mp member with pushed | old
      · exact expanded.occurs goalWellFormed occurs node pushed
      · exact induction node (List.mem_cons_of_mem _ old)

/-- The invariant of a search.  Its nodes occur: those on the stack, and those
that saturation passes through from one that occurs.  Every node that occurs
knows each subsumption at one position, has an acyclic assignment of
non-variable atoms to variables, knows the subsumptions of the goal, and
justifies what it marks as solved.  At a leaf, the assignment solves all that
is known. -/
theorem node_invariant {goal : Goal} (obtained : goal.Obtained) :
    (∀ {rounds found stack memory}, Reached goal rounds found stack memory →
      ∀ node ∈ stack, node.Occurs goal) ∧
    (∀ node, SearchNode.Occurs goal node →
      ∀ capacity rounds steps stats between,
        ((node.saturatePartly goal.store capacity rounds steps).run.run
          stats).1 = .ok between → between.Occurs goal) ∧
    ∀ node, SearchNode.Occurs goal node →
      (∀ s position, node.index[s]? = some position ↔
        node.obligations[position]?.map Obligation.subsumption = some s) ∧
      node.known.Nodup ∧
      node.assignment.Acyclic goal.store ∧
      (∀ x atom, node.assignment.contains x atom = true →
        x ∈ goal.allVariables ∧ atom ∈ goal.nonVariableAtoms) ∧
      (∀ s ∈ goal.positiveSubsumptions, node.knows s = true) ∧
      (∀ o ∈ node.obligations.toList, o.solved = true →
        SearchNode.Justified goal.store node o.subsumption) ∧
      (node.firstPending? = none → ∀ s ∈ node.known,
        ((Unifier.ofAssignment goal node.assignment).substitution
          goal.store).solves? s = some true) := by
  have goalWellFormed := obtained.wellFormed
  refine ⟨?_, ?_, ?_⟩
  · intro rounds found stack memory reached
    exact reached.occurs goalWellFormed
  · intro node occurs capacity rounds steps stats between reached
    exact occurs.path (SearchNode.saturatePartly_path goal.store capacity
      rounds steps node stats between reached)
  · intro node occurs
    have wellFormed := occurs.wellFormed goalWellFormed
    refine ⟨node.indexed, node.nodup_known, wellFormed.acyclic,
      Assignment.proper_iff.mp wellFormed.proper, ?_, wellFormed.justified, ?_⟩
    · intro s member
      exact SearchNode.knows_iff.mpr (wellFormed.complete s member)
    · intro leaf s member
      exact wellFormed.solves? goalWellFormed
        (SearchNode.forall_solved_of_firstPending? leaf) member

/-- The node at which the search of the sample starts, and what comes of any
part of its saturation. -/
theorem node_invariant_sampleCalls :
    ∃ goal, ((GoalBuilder.new Goal.sampleBackground {}).performAll
        Goal.sampleCalls).build = .ok goal ∧
      ∃ node, Reached goal 0 [] [node] {} ∧
        (∀ s position, node.index[s]? = some position ↔
          node.obligations[position]?.map Obligation.subsumption = some s) ∧
        (∀ s ∈ goal.positiveSubsumptions, node.knows s = true) ∧
        ∀ rounds steps between,
          ((node.saturatePartly goal.store (SearchSpace.capacityOf goal) rounds
            steps).run.run {}).1 = .ok between →
          between.assignment.Acyclic goal.store ∧
            ∀ o ∈ between.obligations.toList, o.solved = true →
              SearchNode.Justified goal.store between o.subsumption := by
  obtain ⟨goal, built, _⟩ := Goal.exists_build_sampleCalls
  obtain ⟨onStack, passed, invariant⟩ := node_invariant (.built built)
  have occurs := onStack .start _ (List.mem_singleton_self _)
  obtain ⟨indexed, _, _, _, complete, _⟩ := invariant _ occurs
  refine ⟨goal, built, _, .start, indexed, complete, ?_⟩
  intro rounds steps between reached
  obtain ⟨_, _, acyclic, _, _, justified, _⟩ :=
    invariant between (passed _ occurs _ rounds steps {} between reached)
  exact ⟨acyclic, justified⟩

end RuleSearch

end ConceptUnification
