import ConceptUnification.Proofs.EngineRun
import ConceptUnification.Proofs.NodeExpansion

/-!
# Runs of the rule search

One step of the search takes a node from the stack, expands it and pushes the
lighter children.  `SearchInvariant` holds between steps: what was found comes
from local solutions, and each closed solution was reported or can still be
reached from an open node.  The memory of visited nodes loses no solution,
since a visited node that is compatible with one has left a lighter compatible
node on the stack.
-/

namespace ConceptUnification

/-- A complete run from a stack of nodes, with the unifiers that it finds. -/
inductive Runs (space : SearchSpace) :
    List SearchNode → SearchMemory → List Unifier → Prop where
  | done {memory : SearchMemory} : Runs space [] memory []
  | step {node : SearchNode} {rest : List SearchNode}
      {memory : SearchMemory} {unifiers : List Unifier}
      (later : Runs space
        ((memory.expand space node rest.length).1.children.filter
          (space.weight · < space.weight node) ++ rest)
        (memory.expand space node rest.length).2 unifiers) :
      Runs space (node :: rest) memory
        ((memory.expand space node rest.length).1.unifier.toList ++ unifiers)

/-- The search comes to an end, because children are lighter. -/
theorem exists_runs (space : SearchSpace) (stack : List SearchNode)
    (memory : SearchMemory) : ∃ unifiers, Runs space stack memory unifiers := by
  induction stack using (InvImage.wf (List.map space.weight)
    StackLighter.wellFounded).induction generalizing memory with
  | _ stack induction =>
      cases stack with
      | nil => exact ⟨[], .done⟩
      | cons node rest =>
          obtain ⟨unifiers, later⟩ := induction
            ((memory.expand space node rest.length).1.children.filter
              (space.weight · < space.weight node) ++ rest)
            (by
              simp only [InvImage, List.map_append, List.map_cons]
              refine .replace fun weight member => ?_
              obtain ⟨child, kept, rfl⟩ := List.mem_map.mp member
              simpa using (List.mem_filter.mp kept).2)
            (memory.expand space node rest.length).2
          exact ⟨_, .step later⟩

/-- What a request does at a state from which a complete run is known. -/
theorem Runs.resume {space : SearchSpace} {stack : List SearchNode}
    {memory : SearchMemory} {unifiers : List Unifier}
    (run : Runs space stack memory unifiers) (steps : Nat) :
    (unifiers = [] ∧ ∃ memory',
      RuleSearch.resume space 0 Engine.never steps stack memory =
        (.ok none, [], memory')) ∨
    ∃ unifier later stack' memory', unifiers = unifier :: later ∧
      RuleSearch.resume space 0 Engine.never steps stack memory =
        (.ok (some unifier), stack', memory') ∧
      Runs space stack' memory' later := by
  induction run generalizing steps with
  | @done memory =>
      refine .inl ⟨rfl, memory, ?_⟩
      rw [RuleSearch.resume]
      simp [Engine.never]
  | @step node rest memory unifiers later induction =>
      rw [RuleSearch.resume]
      simp only [Engine.never, Bool.false_eq_true, if_false, bne_self_eq_false,
        Bool.false_and]
      cases found : (memory.expand space node rest.length).1.unifier with
      | none => exact induction (steps + 1)
      | some unifier =>
          exact .inr ⟨unifier, unifiers, _, _, rfl, rfl, later⟩

/-- A complete run of the search is one of the engine. -/
theorem Runs.yields {space : SearchSpace} {unifiers : List Unifier} :
    ∀ {stack : List SearchNode} {memory : SearchMemory},
      Runs space stack memory unifiers →
        Engine.Yields (RuleSearch.mk space 0 stack memory) unifiers := by
  induction unifiers with
  | nil =>
      intro stack memory run
      rcases run.resume 0 with ⟨_, memory', answer⟩ | ⟨_, _, _, _, shape, _⟩
      · have exhausted : Engine.next Engine.never
            (RuleSearch.mk space 0 stack memory) =
              (.ok none, RuleSearch.mk space 0 [] memory') := by
          simp only [Engine.next, RuleSearch.next, answer]
        exact .exhausted exhausted
      · cases shape
  | cons unifier unifiers induction =>
      intro stack memory run
      rcases run.resume 0 with ⟨shape, _⟩ |
        ⟨_, _, stack', memory', shape, answer, later⟩
      · cases shape
      · cases shape
        have found : Engine.next Engine.never
            (RuleSearch.mk space 0 stack memory) =
              (.ok (some unifier), RuleSearch.mk space 0 stack' memory') := by
          simp only [Engine.next, RuleSearch.next, answer]
        exact .found found (induction later)

/-- A request that does not reach its limit does the same without one. -/
theorem RuleSearch.resume_unlimited {space : SearchSpace} {limit steps : Nat}
    {stack stack' : List SearchNode} {memory memory' : SearchMemory}
    {answer : Option Unifier}
    (run : RuleSearch.resume space limit Engine.never steps stack memory =
      (.ok answer, stack', memory')) :
    RuleSearch.resume space 0 Engine.never steps stack memory =
      (.ok answer, stack', memory') := by
  fun_induction RuleSearch.resume space limit Engine.never steps stack memory
    with
  | case1 => cases run
  | case2 => cases run
  | case3 steps memory =>
      cases run
      rw [RuleSearch.resume]
      simp [Engine.never]
  | case4 steps memory node rest _ _ expansion memory1 expanded stack1 unifier
      found =>
      simp only [Prod.mk.injEq, Except.ok.injEq] at run
      obtain ⟨rfl, rfl, rfl⟩ := run
      rw [RuleSearch.resume, expanded]
      simp [Engine.never, found, stack1]
  | case5 steps memory node rest _ _ expansion memory1 expanded stack1 none_
      induction =>
      rw [RuleSearch.resume, expanded]
      simp only [Engine.never, Bool.false_eq_true, if_false, bne_self_eq_false,
        Bool.false_and, none_]
      exact induction run

theorem RuleSearch.yields_unlimited {search : RuleSearch} {unifiers : List Unifier}
    (yields : Engine.Yields search unifiers) :
    Engine.Yields { search with stepLimit := 0 } unifiers := by
  have unlimited : ∀ {search next : RuleSearch} {answer : Option Unifier},
      Engine.next Engine.never search = (.ok answer, next) →
        Engine.next Engine.never { search with stepLimit := 0 } =
          (.ok answer, { next with stepLimit := 0 }) := by
    intro search next answer run
    simp only [Engine.next, RuleSearch.next] at run ⊢
    cases resumed : RuleSearch.resume search.space search.stepLimit
        Engine.never 0 search.stack search.memory with
    | mk outcome state =>
        rw [resumed] at run
        cases run
        rw [RuleSearch.resume_unlimited resumed]
  induction yields with
  | exhausted answer => exact .exhausted (unlimited answer)
  | found answer _ induction => exact .found (unlimited answer) induction

/-- What holds between the steps of a search that found some unifiers. -/
structure SearchInvariant (goal : Goal) (stack : List SearchNode)
    (memory : SearchMemory) (found : List Unifier) : Prop where
  nodes : ∀ node ∈ stack, node.WellFormed goal
  reports : ∀ solution ∈ memory.reported,
    Unifier.ofAssignment goal solution ∈ found ∨
      (Unifier.ofAssignment goal solution).respectsNegative? goal ≠ some true
  sound : ∀ unifier ∈ found, ∃ solution : Assignment,
    solution.LocalSolution goal ∧ unifier = .ofAssignment goal solution
  complete : ∀ solution value, ClosedSolution goal solution value →
    solution ∈ memory.reported ∨ ∃ node ∈ stack,
      node.Compatible (SearchSpace.ofGoal goal).candidates solution value
  memo : ∀ solution value, ClosedSolution goal solution value →
    ∀ node : SearchNode, node.key ∈ memory.visited →
      node.Compatible (SearchSpace.ofGoal goal).candidates solution value →
      solution ∈ memory.reported ∨ ∃ other ∈ stack,
        other.Compatible (SearchSpace.ofGoal goal).candidates solution value ∧
          (SearchSpace.ofGoal goal).weight other <
            (SearchSpace.ofGoal goal).weight node

namespace SearchInvariant

variable {goal : Goal} {node : SearchNode} {rest : List SearchNode}
  {memory : SearchMemory} {found : List Unifier}

/-- What a step has to show: the nodes that it pushes are well formed, what it
reports is right, and a solution that needs the node that it takes is reported
or has a compatible node among the pushed ones, lighter than any node that
remembers it. -/
theorem advance (children : List SearchNode) {after : SearchMemory}
    {found' : List Unifier}
    (invariant : SearchInvariant goal (node :: rest) memory found)
    (nodes : ∀ child ∈ children, child.WellFormed goal)
    (reports : ∀ solution ∈ after.reported,
      Unifier.ofAssignment goal solution ∈ found' ∨
        (Unifier.ofAssignment goal solution).respectsNegative? goal ≠
          some true)
    (sound : ∀ unifier ∈ found', ∃ solution : Assignment,
      solution.LocalSolution goal ∧ unifier = .ofAssignment goal solution)
    (kept : ∀ solution ∈ memory.reported, solution ∈ after.reported)
    (taken : ∀ solution value, ClosedSolution goal solution value →
      node.Compatible (SearchSpace.ofGoal goal).candidates solution value →
      solution ∈ after.reported ∨ ∃ other ∈ children ++ rest,
        other.Compatible (SearchSpace.ofGoal goal).candidates solution value ∧
          (SearchSpace.ofGoal goal).weight other <
            (SearchSpace.ofGoal goal).weight node)
    (remembered : ∀ solution value, ClosedSolution goal solution value →
      ∀ other : SearchNode, other.key ∈ after.visited →
        other.Compatible (SearchSpace.ofGoal goal).candidates solution
          value →
        other.key ∈ memory.visited ∨ solution ∈ after.reported ∨
          ∃ child ∈ children ++ rest,
            child.Compatible (SearchSpace.ofGoal goal).candidates solution
              value ∧
            (SearchSpace.ofGoal goal).weight child <
              (SearchSpace.ofGoal goal).weight other) :
    SearchInvariant goal (children ++ rest) after found' where
  nodes := by
    intro other member
    rcases List.mem_append.mp member with pushed | old
    · exact nodes other pushed
    · exact invariant.nodes other (List.mem_cons_of_mem _ old)
  reports := reports
  sound := sound
  complete := by
    intro solution value closed
    rcases invariant.complete solution value closed with
      reported | ⟨other, member, compatible⟩
    · exact .inl (kept solution reported)
    · rcases List.mem_cons.mp member with rfl | old
      · rcases taken solution value closed compatible with
          reported | ⟨child, member, compatible, _⟩
        · exact .inl reported
        · exact .inr ⟨child, member, compatible⟩
      · exact .inr ⟨other, List.mem_append_right _ old, compatible⟩
  memo := by
    intro solution value closed other inVisited compatible
    rcases remembered solution value closed other inVisited compatible with
      old | reported | lighter
    · rcases invariant.memo solution value closed other old compatible with
        reported | ⟨witness, member, compatible', lighter⟩
      · exact .inl (kept solution reported)
      · rcases List.mem_cons.mp member with rfl | inRest
        · rcases taken solution value closed compatible' with
            reported | ⟨child, member, compatible'', lighter'⟩
          · exact .inl reported
          · exact .inr ⟨child, member, compatible'',
              Nat.lt_trans lighter' lighter⟩
        · exact .inr ⟨witness, List.mem_append_right _ inRest, compatible',
            lighter⟩
    · exact .inl reported
    · exact .inr lighter

/-- A solution that is compatible with a saturated node that was just
remembered. -/
theorem remembered_insert {children : List SearchNode}
    {after : SearchMemory} {saturated : SearchNode}
    (visited : after.visited = memory.visited.insert saturated.key)
    (survives : ∀ solution value, ClosedSolution goal solution value →
      saturated.Compatible (SearchSpace.ofGoal goal).candidates solution
        value →
      solution ∈ after.reported ∨ ∃ child ∈ children ++ rest,
        child.Compatible (SearchSpace.ofGoal goal).candidates solution value ∧
          (SearchSpace.ofGoal goal).weight child <
            (SearchSpace.ofGoal goal).weight saturated)
    (solution : Assignment) (value : AtomId → NormalConcept)
    (closed : ClosedSolution goal solution value) (other : SearchNode)
    (inVisited : other.key ∈ after.visited)
    (compatible : other.Compatible (SearchSpace.ofGoal goal).candidates
      solution value) :
    other.key ∈ memory.visited ∨ solution ∈ after.reported ∨
      ∃ child ∈ children ++ rest,
        child.Compatible (SearchSpace.ofGoal goal).candidates solution value ∧
          (SearchSpace.ofGoal goal).weight child <
            (SearchSpace.ofGoal goal).weight other := by
  rw [visited, Std.HashSet.mem_insert, beq_iff_eq] at inVisited
  rcases inVisited with same | old
  · have weights : (SearchSpace.ofGoal goal).weight saturated =
        (SearchSpace.ofGoal goal).weight other :=
      SearchNode.weight_eq_of_key same _ _
    rw [← weights]
    exact .inr (survives solution value closed (compatible.of_key same.symm))
  · exact .inl old

/-- Lighter children survive the filter of the search. -/
theorem filter_lighter {saturated : SearchNode} {children : List SearchNode}
    (bounded : (SearchSpace.ofGoal goal).weight saturated ≤
      (SearchSpace.ofGoal goal).weight node)
    (lighter : ∀ child ∈ children, (SearchSpace.ofGoal goal).weight child <
      (SearchSpace.ofGoal goal).weight saturated) :
    children.filter ((SearchSpace.ofGoal goal).weight · <
      (SearchSpace.ofGoal goal).weight node) = children := by
  rw [List.filter_eq_self]
  intro child member
  exact decide_eq_true (Nat.lt_of_lt_of_le (lighter child member) bounded)

theorem negativeConstraints_eq_nil (without : goal.hasNegative = false) :
    goal.negativeConstraints = [] := by
  simp only [Goal.hasNegative, Bool.or_eq_false_iff, Bool.not_eq_false',
    List.isEmpty_iff] at without
  simp [Goal.negativeConstraints, without.1, without.2]

/-- The assignment of a leaf that respects the negative constraints is a local
solution. -/
theorem localSolution_of_leaf {saturated : SearchNode}
    (goalWellFormed : goal.WellFormed)
    (wellFormed : saturated.WellFormed goal)
    (solved : ∀ o ∈ saturated.obligations.toList, o.solved = true)
    (respected : goal.hasNegative = false ∨
      (Unifier.ofAssignment goal saturated.assignment).respectsNegative?
        goal = some true) :
    saturated.assignment.LocalSolution goal := by
  obtain ⟨value, evaluates⟩ := Assignment.exists_evaluates
    (wellFormed.acyclic.ranked goalWellFormed.store wellFormed.proper)
  refine ⟨Assignment.proper_iff.mp wellFormed.proper, wellFormed.acyclic, ?_⟩
  refine (Unifier.satisfies?_ofAssignment goalWellFormed wellFormed.acyclic
    wellFormed.proper evaluates).mpr ⟨?_, ?_⟩
  · intro s member
    exact wellFormed.holds goalWellFormed solved evaluates
      (wellFormed.complete s member)
  · rcases respected with without | respected
    · rw [negativeConstraints_eq_nil without]
      simp
    · exact (Unifier.respectsNegative?_ofAssignment goalWellFormed
        wellFormed.acyclic wellFormed.proper evaluates).mp respected

/-- A solution that is compatible with a leaf is its assignment, or one of the
refinements is compatible with it. -/
theorem leaf_survives {saturated : SearchNode} {solution : Assignment}
    {value : AtomId → NormalConcept}
    (closed : ClosedSolution goal solution value)
    (compatible : saturated.Compatible (SearchSpace.ofGoal goal).candidates
      solution value) :
    saturated.assignment = solution ∨
      ∃ child ∈ ((SearchSpace.ofGoal goal).refinements saturated).filterMap
          Except.toOption,
        child.Compatible (SearchSpace.ofGoal goal).candidates solution
          value := by
  by_cases lacks : ∃ (position : Nat) (x atom : AtomId),
      (SearchSpace.ofGoal goal).candidates[position]? = some (x, atom) ∧
        solution.contains x atom = true ∧
          saturated.assignment.contains x atom = false
  · right
    obtain ⟨position, x, atom, extended, candidate, absent, later, success,
      compatible'⟩ := compatible.refinement closed lacks
    exact ⟨_, SearchSpace.mem_refinements.mpr
      ⟨position, x, atom, extended, candidate, absent, later, success, rfl⟩,
      compatible'⟩
  · left
    apply Assignment.eq_of_contains_iff
    intro x atom
    refine ⟨compatible.within x atom, fun chosen => ?_⟩
    obtain ⟨position, candidate⟩ := SearchSpace.mem_candidates.mpr
      ⟨closed.proper.variable_ x atom chosen,
        closed.proper.stored x atom chosen,
        closed.proper.nonVariable x atom chosen⟩
    cases present : saturated.assignment.contains x atom with
    | true => rfl
    | false =>
        exact (lacks ⟨position, x, atom, candidate, chosen, present⟩).elim

section Step

variable {saturated : SearchNode} {after : SearchMemory}

/-- A node whose saturation fails was compatible with no solution. -/
theorem step_failed (goalWellFormed : goal.WellFormed)
    (invariant : SearchInvariant goal (node :: rest) memory found)
    {between : SearchNode}
    (path : Relation.ReflTransGen (SearchNode.EagerStep goal.store) node
      between)
    (fails : SearchNode.EagerFailure goal.store between)
    (same : memory.Agrees after) : SearchInvariant goal rest after found := by
  have wellFormed := invariant.nodes node List.mem_cons_self
  refine invariant.advance [] (by simp) ?_ invariant.sound ?_ ?_ ?_
  · rw [same.2]
    exact invariant.reports
  · rw [same.2]
    exact fun _ => id
  · intro solution value closed compatible
    have reached := compatible.path goalWellFormed closed wellFormed path
    have advances :=
      SearchNode.advances_of_path goalWellFormed wellFormed path
    exact (reached.not_failure goalWellFormed closed advances.wellFormed
      fails).elim
  · rw [same.1]
    exact fun _ _ _ _ old _ => .inl old

/-- A node that was seen before left lighter nodes for all solutions. -/
theorem step_seen (goalWellFormed : goal.WellFormed)
    (invariant : SearchInvariant goal (node :: rest) memory found)
    (path : Relation.ReflTransGen (SearchNode.EagerStep goal.store) node
      saturated)
    (old : saturated.key ∈ memory.visited)
    (same : memory.Agrees after) : SearchInvariant goal rest after found := by
  have wellFormed := invariant.nodes node List.mem_cons_self
  have advances := SearchNode.advances_of_path goalWellFormed wellFormed path
  have bounded : (SearchSpace.ofGoal goal).weight saturated ≤
      (SearchSpace.ofGoal goal).weight node := advances.weight_le _
  refine invariant.advance [] (by simp) ?_ invariant.sound ?_ ?_ ?_
  · rw [same.2]
    exact invariant.reports
  · rw [same.2]
    exact fun _ => id
  · intro solution value closed compatible
    rw [same.2]
    rcases invariant.memo solution value closed saturated old
        (compatible.path goalWellFormed closed wellFormed path) with
      reported | ⟨other, member, compatible', lighter⟩
    · exact .inl reported
    · have below := Nat.lt_of_lt_of_le lighter bounded
      rcases List.mem_cons.mp member with rfl | inRest
      · exact (Nat.lt_irrefl _ below).elim
      · exact .inr ⟨other, inRest, compatible', below⟩
  · rw [same.1]
    exact fun _ _ _ _ old _ => .inl old

/-- A saturated node is replaced by its children.  It suffices that every
solution which is compatible with it is reported or has a compatible child. -/
theorem step_saturated {children : List SearchNode} {found' : List Unifier}
    (goalWellFormed : goal.WellFormed)
    (invariant : SearchInvariant goal (node :: rest) memory found)
    (path : Relation.ReflTransGen (SearchNode.EagerStep goal.store) node
      saturated)
    (visited : after.visited = memory.visited.insert saturated.key)
    (fine : ∀ child ∈ children, child.WellFormed goal ∧
      (SearchSpace.ofGoal goal).weight child <
        (SearchSpace.ofGoal goal).weight saturated)
    (reports : ∀ solution ∈ after.reported,
      Unifier.ofAssignment goal solution ∈ found' ∨
        (Unifier.ofAssignment goal solution).respectsNegative? goal ≠
          some true)
    (sound : ∀ unifier ∈ found', ∃ solution : Assignment,
      solution.LocalSolution goal ∧ unifier = .ofAssignment goal solution)
    (kept : ∀ solution ∈ memory.reported, solution ∈ after.reported)
    (survives : ∀ solution value, ClosedSolution goal solution value →
      saturated.Compatible (SearchSpace.ofGoal goal).candidates solution
        value →
      solution ∈ after.reported ∨ ∃ child ∈ children,
        child.Compatible (SearchSpace.ofGoal goal).candidates solution value) :
    SearchInvariant goal
      (children.filter ((SearchSpace.ofGoal goal).weight · <
        (SearchSpace.ofGoal goal).weight node) ++ rest) after found' := by
  have wellFormed := invariant.nodes node List.mem_cons_self
  have advances := SearchNode.advances_of_path goalWellFormed wellFormed path
  have bounded : (SearchSpace.ofGoal goal).weight saturated ≤
      (SearchSpace.ofGoal goal).weight node := advances.weight_le _
  have lighter : ∀ solution value, ClosedSolution goal solution value →
      saturated.Compatible (SearchSpace.ofGoal goal).candidates solution
        value →
      solution ∈ after.reported ∨ ∃ child ∈ children ++ rest,
        child.Compatible (SearchSpace.ofGoal goal).candidates solution value ∧
          (SearchSpace.ofGoal goal).weight child <
            (SearchSpace.ofGoal goal).weight saturated := by
    intro solution value closed compatible
    rcases survives solution value closed compatible with
      reported | ⟨child, member, compatible'⟩
    · exact .inl reported
    · exact .inr ⟨child, List.mem_append_left _ member, compatible',
        (fine child member).2⟩
  rw [filter_lighter bounded fun child member => (fine child member).2]
  refine invariant.advance _ (fun child member => (fine child member).1)
    reports sound kept ?_ (remembered_insert visited lighter)
  intro solution value closed compatible
  rcases lighter solution value closed
      (compatible.path goalWellFormed closed wellFormed path) with
    reported | ⟨child, member, compatible', below⟩
  · exact .inl reported
  · exact .inr ⟨child, member, compatible', Nat.lt_of_lt_of_le below bounded⟩

theorem step_leaf {unifier : Option Unifier} (goalWellFormed : goal.WellFormed)
    (invariant : SearchInvariant goal (node :: rest) memory found)
    (path : Relation.ReflTransGen (SearchNode.EagerStep goal.store) node
      saturated)
    (solved : ∀ o ∈ saturated.obligations.toList, o.solved = true)
    (visited : after.visited = memory.visited.insert saturated.key)
    (reported : SearchMemory.Reported goal memory.reported
      saturated.assignment unifier after.reported) :
    SearchInvariant goal
      ((((SearchSpace.ofGoal goal).refinements saturated).filterMap
        Except.toOption).filter ((SearchSpace.ofGoal goal).weight · <
          (SearchSpace.ofGoal goal).weight node) ++ rest)
      after (found ++ unifier.toList) := by
  have wellFormed := (SearchNode.advances_of_path goalWellFormed
    (invariant.nodes node List.mem_cons_self) path).wellFormed
  refine invariant.step_saturated goalWellFormed path visited
    (fun child => SearchSpace.refinement_wellFormed wellFormed) ?_ ?_
    (fun solution => reported.kept) ?_
  · intro solution member
    rcases reported.new member with old | yields | violated
    · rcases invariant.reports solution old with inFound | violated
      · exact .inl (List.mem_append_left _ inFound)
      · exact .inr violated
    · left
      rw [yields]
      exact List.mem_append_right _ (List.mem_singleton_self _)
    · exact .inr violated
  · intro other member
    rcases List.mem_append.mp member with old | new
    · exact invariant.sound other old
    · obtain ⟨rfl, respected⟩ :=
        reported.respected (Option.mem_toList.mp new)
      exact ⟨saturated.assignment, localSolution_of_leaf goalWellFormed
        wellFormed solved respected, rfl⟩
  · intro solution value closed compatible
    rcases leaf_survives closed compatible with
      rfl | ⟨child, member, compatible'⟩
    · exact .inl reported.mem
    · exact .inr ⟨child, member, compatible'⟩

theorem step_branch {position : Nat} {obligation : Obligation}
    {proposals : List (BranchingRule × Application)}
    (goalWellFormed : goal.WellFormed)
    (invariant : SearchInvariant goal (node :: rest) memory found)
    (path : Relation.ReflTransGen (SearchNode.EagerStep goal.store) node
      saturated)
    (idle : saturated.Saturated goal.store)
    (pendingAt : saturated.obligations[position]? = some obligation)
    (pending : obligation.solved = false)
    (proposed : ∀ application, (∃ rule, (rule, application) ∈ proposals) ↔
      BranchProposal goal.store obligation.subsumption application)
    (visited : after.visited = memory.visited.insert saturated.key)
    (reported : after.reported = memory.reported) :
    SearchInvariant goal
      (((((SearchSpace.ofGoal goal).branches saturated position
        proposals).filterMap Except.toOption).map Prod.snd).filter
          ((SearchSpace.ofGoal goal).weight · <
            (SearchSpace.ofGoal goal).weight node) ++ rest) after found := by
  have wellFormed := (SearchNode.advances_of_path goalWellFormed
    (invariant.nodes node List.mem_cons_self) path).wellFormed
  refine invariant.step_saturated goalWellFormed path visited
    (fun child => SearchSpace.branch_wellFormed goalWellFormed wellFormed
      pendingAt pending fun application => (proposed application).mp)
    ?_ invariant.sound ?_ ?_
  · rw [reported]
    exact invariant.reports
  · rw [reported]
    exact fun _ => id
  · intro solution value closed compatible
    obtain ⟨application, proposal, child, success, compatible'⟩ :=
      compatible.branch goalWellFormed closed wellFormed idle pendingAt pending
    obtain ⟨rule, inProposals⟩ := (proposed application).mpr proposal
    exact .inr ⟨child, SearchSpace.mem_branches.mpr
      ⟨rule, application, inProposals, success⟩, compatible'⟩

/-- One step keeps the invariant. -/
theorem step (goalWellFormed : goal.WellFormed)
    (invariant : SearchInvariant goal (node :: rest) memory found)
    {expansion : Expansion}
    (expanded : memory.Expanded (.ofGoal goal) node expansion after) :
    SearchInvariant goal
      (expansion.children.filter ((SearchSpace.ofGoal goal).weight · <
        (SearchSpace.ofGoal goal).weight node) ++ rest)
      after (found ++ expansion.unifier.toList) := by
  cases expanded with
  | failed path fails same =>
      rw [Option.toList_none, List.append_nil]
      exact invariant.step_failed goalWellFormed path fails same
  | seen path old same =>
      rw [Option.toList_none, List.append_nil]
      exact invariant.step_seen goalWellFormed path old same
  | leaf path solved visited reported =>
      exact invariant.step_leaf goalWellFormed path solved visited reported
  | branch path idle pendingAt pending proposed visited reported =>
      rw [Option.toList_none, List.append_nil]
      exact invariant.step_branch goalWellFormed path idle pendingAt pending
        proposed visited reported

end Step

/-- A complete run ends with the invariant of the empty stack. -/
theorem run {stack : List SearchNode} {unifiers : List Unifier}
    (goalWellFormed : goal.WellFormed)
    (runs : Runs (.ofGoal goal) stack memory unifiers)
    (invariant : SearchInvariant goal stack memory found) :
    ∃ final, SearchInvariant goal [] final (found ++ unifiers) := by
  induction runs generalizing found with
  | done =>
      rw [List.append_nil]
      exact ⟨_, invariant⟩
  | @step node rest memory unifiers later induction =>
      rw [← List.append_assoc]
      exact induction (invariant.step goalWellFormed
        (SearchMemory.expanded_expand goalWellFormed
          (invariant.nodes node List.mem_cons_self)))

/-- The invariant holds at the start. -/
theorem initial (goalWellFormed : goal.WellFormed) :
    SearchInvariant goal [.ofSubsumptions goal.positiveSubsumptions] {} [] := by
  refine ⟨?_, by simp, by simp, ?_, by simp⟩
  · intro node single
    rw [List.mem_singleton] at single
    subst single
    exact SearchNode.wellFormed_ofSubsumptions goalWellFormed
  · intro solution value closed
    refine .inr ⟨_, List.mem_singleton_self _, ⟨?_, ?_⟩, ?_⟩
    · intro x atom chosen
      rw [SearchNode.assignment_ofSubsumptions,
        Assignment.not_contains_empty] at chosen
      cases chosen
    · intro s member
      exact closed.positive s (SearchNode.known_ofSubsumptions.mp member)
    · intro position x atom before
      rw [SearchNode.nextCandidate,
        SearchNode.refined_ofSubsumptions] at before
      exact (Nat.not_lt_zero _ before).elim

end SearchInvariant

namespace RuleSearch

/-- The run of a search ends, what it yields comes from local solutions, and
the unifier of every closed solution that respects the negative constraints is
among it. -/
theorem exists_yields_closed {goal : Goal} (wellFormed : goal.WellFormed) :
    ∃ unifiers, Engine.Yields (RuleSearch.new goal 0) unifiers ∧
      (∀ unifier ∈ unifiers, ∃ solution : Assignment,
        solution.LocalSolution goal ∧
          unifier = .ofAssignment goal solution) ∧
      ∀ solution value, ClosedSolution goal solution value →
        (Unifier.ofAssignment goal solution).respectsNegative? goal =
          some true → .ofAssignment goal solution ∈ unifiers := by
  obtain ⟨unifiers, runs⟩ := exists_runs (.ofGoal goal)
    [.ofSubsumptions goal.positiveSubsumptions] {}
  obtain ⟨final, invariant⟩ :=
    (SearchInvariant.initial wellFormed).run wellFormed runs
  rw [List.nil_append] at invariant
  refine ⟨unifiers, runs.yields, invariant.sound, ?_⟩
  intro solution value closed respected
  rcases invariant.complete solution value closed with reported | ⟨_, member, _⟩
  · rcases invariant.reports _ reported with found | violated
    · exact found
    · exact (violated respected).elim
  · cases member

/-- The run of a search ends, and what it yields are the local solutions. -/
theorem exists_yields {goal : Goal} (wellFormed : goal.WellFormed) :
    ∃ unifiers, Engine.Yields (RuleSearch.new goal 0) unifiers ∧
      goal.Enumerates unifiers := by
  obtain ⟨unifiers, yields, sound, complete⟩ := exists_yields_closed wellFormed
  refine ⟨unifiers, yields, sound, ?_⟩
  intro solution local_
  have proper := local_.proper
  obtain ⟨value, evaluates⟩ := Assignment.exists_evaluates
    (local_.acyclic.ranked wellFormed.store proper)
  obtain ⟨positive, negative⟩ := (Unifier.satisfies?_ofAssignment wellFormed
    local_.acyclic proper evaluates).mp local_.satisfies
  have closed := Assignment.closedSolution_closure wellFormed.store
    local_.acyclic proper evaluates positive
  have sameKey := (Unifier.userKey?_ofAssignment wellFormed closed.acyclic
    closed.proper closed.evaluates)
  have respected := (Unifier.respectsNegative?_ofAssignment wellFormed
    closed.acyclic closed.proper closed.evaluates).mpr negative
  exact ⟨_, complete _ value closed respected, _, sameKey,
    Unifier.userKey?_ofAssignment wellFormed local_.acyclic proper evaluates⟩

/-- The search yields exactly the local solutions up to user keys, and then
ends. -/
theorem yields_localSolutions {goal : Goal} (obtained : goal.Obtained) :
    ∃ unifiers, Engine.Yields (RuleSearch.new goal 0) unifiers ∧
      (∀ unifier ∈ unifiers, ∃ solution : Assignment,
        solution.LocalSolution goal ∧
          unifier = .ofAssignment goal solution) ∧
      ∀ solution : Assignment, solution.LocalSolution goal →
        ∃ unifier ∈ unifiers, ∃ key,
          unifier.userKey? goal = some key ∧
            (Unifier.ofAssignment goal solution).userKey? goal = some key := by
  obtain ⟨unifiers, yields, enumerates⟩ := exists_yields obtained.wellFormed
  exact ⟨unifiers, yields, enumerates.sound, enumerates.complete⟩

theorem yields_localSolutions_sampleCalls :
    ∃ goal, ((GoalBuilder.new Goal.sampleBackground {}).performAll
        Goal.sampleCalls).build = .ok goal ∧
      ∃ unifiers, Engine.Yields (RuleSearch.new goal 0) unifiers ∧
        (∀ unifier ∈ unifiers, ∃ solution : Assignment,
          solution.LocalSolution goal ∧
            unifier = .ofAssignment goal solution) ∧
        Goal.sampleSolution.LocalSolution goal ∧
        ∃ unifier ∈ unifiers, ∃ key,
          unifier.userKey? goal = some key ∧
            (Unifier.ofAssignment goal Goal.sampleSolution).userKey? goal =
              some key := by
  obtain ⟨goal, built, _, _, solution, _⟩ := Goal.exists_build_sampleCalls
  obtain ⟨unifiers, yields, sound, complete⟩ :=
    yields_localSolutions (.built built)
  exact ⟨goal, built, unifiers, yields, sound, solution,
    complete _ solution⟩

end RuleSearch

end ConceptUnification
