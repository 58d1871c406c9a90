import ConceptUnification.Proofs.GuidedSearch

/-!
# Expansion of nodes

`Expanded` lists what may come of expanding a node: a failure, a saturated
node that was seen before, a leaf with its refinements, or a branching with
one child for each alternative that succeeds.  A leaf is a solution of the
positive part of the goal, and all children are lighter than their parent.
-/

namespace ConceptUnification

instance : Std.TransCmp Obligation.order :=
  inferInstanceAs (Std.TransCmp (compareLex
    (compareLex (compareOn fun o : Obligation => o.subsumption.head)
      (compareOn fun o : Obligation => o.subsumption.body.toList))
    (compareOn fun o : Obligation => o.solved)))

instance : Std.LawfulEqCmp Obligation.order where
  eq_of_compare {a b} same := by
    obtain ⟨⟨body, head⟩, solved⟩ := a
    obtain ⟨⟨body', head'⟩, solved'⟩ := b
    have parts : (head = head' ∧ body.toList = body'.toList) ∧
        solved = solved' := by
      simpa only [Obligation.order, Ordering.then_eq_eq,
        Std.LawfulEqOrd.compare_eq_iff_eq] using same
    obtain ⟨⟨rfl, members⟩, rfl⟩ := parts
    have bodies : body = body' := by
      cases body
      cases body'
      cases members
      rfl
    rw [bodies]

theorem Obligation.order_total (a b : Obligation) :
    ((a.order b).isLE || (b.order a).isLE) = true := by
  have swapped : a.order b = (b.order a).swap := Std.OrientedCmp.eq_swap
  rw [swapped]
  cases b.order a <;> rfl

theorem Obligation.order_antisymm {a b : Obligation}
    (below : (a.order b).isLE = true) (above : (b.order a).isLE = true) :
    a = b :=
  Std.LawfulEqCmp.eq_of_compare (Std.OrientedCmp.isLE_antisymm below above)

namespace SearchNode

/-- If nothing is pending, all known subsumptions hold.  Justifications lead
to subsumptions whose heads are lower. -/
theorem WellFormed.holds {goal : Goal} {node : SearchNode}
    (goalWellFormed : goal.WellFormed) (wellFormed : node.WellFormed goal)
    (solved : ∀ o ∈ node.obligations.toList, o.solved = true)
    {value : AtomId → NormalConcept}
    (evaluates : Evaluates goal.store node.assignment.subsumers value)
    {s : FlatSubsumption} (member : s ∈ node.known) : s.Holds value := by
  have ranked := wellFormed.acyclic.ranked goalWellFormed.store
    wellFormed.proper
  induction bound : node.assignment.height goal.store s.head using
    Nat.strongRecOn generalizing s with
  | _ bound induction =>
      subst bound
      obtain ⟨o, inObligations, rfl⟩ := List.mem_map.mp member
      cases wellFormed.justified o inObligations (solved o inObligations) with
      | conjunct inBody => exact conjoin_isBelow_of_mem inBody
      | @subsumer x inBody varying chosen =>
          exact NormalConcept.isBelow_trans (conjoin_isBelow_of_mem inBody)
            (evaluates.variable_isBelow_of_mem varying
              (Assignment.mem_subsumers.mpr chosen))
      | expansion varying expanded =>
          refine (evaluates.isBelow_variable_iff varying).mpr ?_
          intro atom inSubsumers
          have chosen := Assignment.mem_subsumers.mp inSubsumers
          exact induction _ (ranked.subsumer _ atom chosen)
            (expanded atom chosen) rfl
      | @decomposition role b filler filler' inBody lower upper decomposed =>
          have fillers := induction _ (ranked.filler _ role filler' upper)
            decomposed rfl
          refine NormalConcept.isBelow_trans
            (conjoin_isBelow_of_mem inBody) ?_
          rw [evaluates.restriction b role filler lower,
            evaluates.restriction _ role filler' upper,
            NormalConcept.restriction_isBelow_restriction]
          exact ⟨rfl, conjoin_singleton_isBelow.mp fillers⟩

theorem forall_solved_of_firstPending? {node : SearchNode}
    (none_ : node.firstPending? = none) :
    ∀ o ∈ node.obligations.toList, o.solved = true := by
  intro o member
  have pending := Array.findIdx?_eq_none_iff.mp none_ o
    (Array.mem_toList_iff.mp member)
  simpa using pending

theorem pending_of_firstPending? {node : SearchNode} {position : Nat}
    (found : node.firstPending? = some position) :
    ∃ obligation, node.obligations[position]? = some obligation ∧
      obligation.solved = false := by
  obtain ⟨inRange, pending, _⟩ :=
    Array.findIdx?_eq_some_iff_getElem.mp found
  exact ⟨_, Array.getElem?_eq_some_iff.mpr ⟨inRange, rfl⟩,
    by simpa using pending⟩

/-- Nodes with the same key hold the same obligations in some order. -/
theorem eq_of_key {left right : SearchNode} (same : left.key = right.key) :
    left.assignment = right.assignment ∧ left.refined = right.refined ∧
      left.obligations.toList.Perm right.obligations.toList := by
  simp only [key, NodeKey.mk.injEq] at same
  obtain ⟨assignments, sorted, refined⟩ := same
  refine ⟨assignments, refined, ?_⟩
  have sorts := fun node : SearchNode =>
    List.mergeSort_perm node.obligations.toList
      fun a b => (a.order b).isLE
  have back := sorts left
  rw [sorted] at back
  exact back.symm.trans (sorts right)

/-- The order of the obligations does not count for the key. -/
theorem key_eq_of_perm {left right : SearchNode}
    (assignments : left.assignment = right.assignment)
    (refined : left.refined = right.refined)
    (perm : left.obligations.toList.Perm right.obligations.toList) :
    left.key = right.key := by
  have sorts := fun node : SearchNode =>
    List.mergeSort_perm node.obligations.toList
      fun a b => (a.order b).isLE
  have sorted := fun node : SearchNode =>
    @List.pairwise_mergeSort _ (fun a b => (a.order b).isLE)
      (fun _ _ _ => Std.TransCmp.isLE_trans) Obligation.order_total
      node.obligations.toList
  have lists :=
    ((sorts left).trans (perm.trans (sorts right).symm)).eq_of_pairwise
      (fun _ _ _ _ => Obligation.order_antisymm) (sorted left) (sorted right)
  rw [key, key, assignments, refined, lists]

/-- The order in which the subsumptions are given does not count for the key
of the node where nothing is solved yet. -/
theorem key_ofSubsumptions {early late : List FlatSubsumption}
    (same : ∀ s, s ∈ early ↔ s ∈ late) :
    (ofSubsumptions early).key = (ofSubsumptions late).key := by
  apply key_eq_of_perm
  · rw [assignment_ofSubsumptions, assignment_ofSubsumptions]
  · rw [refined_ofSubsumptions, refined_ofSubsumptions]
  · rw [List.perm_ext_iff_of_nodup (.of_map _ (nodup_known _))
      (.of_map _ (nodup_known _))]
    intro o
    rw [mem_ofSubsumptions, mem_ofSubsumptions, same]

theorem weight_eq_of_key {left right : SearchNode}
    (same : left.key = right.key) (capacity candidates : Nat) :
    left.weight capacity candidates = right.weight capacity candidates := by
  obtain ⟨_, refined, perm⟩ := eq_of_key same
  have sizes : left.obligations.size = right.obligations.size := by
    simpa using perm.length_eq
  have pendings : left.pending = right.pending := by
    rw [pending_eq, pending_eq]
    exact perm.countP_eq _
  rw [weight, weight, nextCandidate, nextCandidate, sizes, pendings, refined]

theorem Compatible.of_key {candidates : Array (AtomId × AtomId)}
    {solution : Assignment} {value : AtomId → NormalConcept}
    {left right : SearchNode} (same : left.key = right.key)
    (compatible : left.Compatible candidates solution value) :
    right.Compatible candidates solution value := by
  obtain ⟨assignments, refined, perm⟩ := eq_of_key same
  refine ⟨⟨?_, ?_⟩, ?_⟩
  · rw [← assignments]
    exact compatible.within
  · intro s member
    exact compatible.holds s ((perm.map _).mem_iff.mpr member)
  · rw [← assignments, nextCandidate, ← refined]
    exact compatible.tried

end SearchNode

namespace SearchSpace

variable {goal : Goal}

theorem mem_candidates {x atom : AtomId} :
    (∃ position : Nat,
      (ofGoal goal).candidates[position]? = some (x, atom)) ↔
        goal.store.isVariable x = true ∧ atom < goal.store.size ∧
          goal.store.isVariable atom = false := by
  have listed : (∃ position : Nat,
      (ofGoal goal).candidates[position]? = some (x, atom)) ↔
        (x, atom) ∈ (ofGoal goal).candidates := by
    rw [Array.mem_iff_getElem?]
  rw [listed]
  simp only [ofGoal, List.mem_toArray, List.mem_flatMap, List.mem_map,
    Prod.mk.injEq, Goal.mem_allVariables, Goal.mem_nonVariableAtoms]
  constructor
  · rintro ⟨_, varying, _, atoms, rfl, rfl⟩
    exact ⟨varying, atoms⟩
  · rintro ⟨varying, atoms⟩
    exact ⟨x, varying, atom, atoms, rfl, rfl⟩

theorem mem_zipIdx_drop {α : Type} {l : List α} {a : α} {n position : Nat} :
    (a, position) ∈ l.zipIdx.drop n ↔
      n ≤ position ∧ l[position]? = some a := by
  rw [List.mem_iff_getElem?]
  simp only [List.getElem?_drop, List.getElem?_zipIdx, Option.map_eq_some_iff,
    Prod.mk.injEq, Nat.zero_add]
  constructor
  · rintro ⟨offset, a', found, rfl, rfl⟩
    exact ⟨Nat.le_add_right _ _, found⟩
  · rintro ⟨lower, found⟩
    refine ⟨position - n, a, ?_, rfl, ?_⟩ <;>
      rw [Nat.add_sub_cancel' lower]
    exact found

/-- The refinements that succeed. -/
theorem mem_refinements {space : SearchSpace} {node child : SearchNode} :
    child ∈ (space.refinements node).filterMap Except.toOption ↔
      ∃ (position : Nat) (x atom : AtomId) (extended : SearchNode),
        space.candidates[position]? = some (x, atom) ∧
        node.assignment.contains x atom = false ∧
        node.nextCandidate ≤ position ∧
        node.extend space.goal.store x atom = .ok extended ∧
        child = extended.withRefined position := by
  have toOption_map : ∀ {outcome : Except NodeFailure SearchNode} {position},
      (outcome.map (·.withRefined position)).toOption = some child ↔
        ∃ extended, outcome = .ok extended ∧
          child = extended.withRefined position := by
    intro outcome position
    cases outcome <;> simp [Except.map, Except.toOption, eq_comm]
  simp only [refinements, List.mem_filterMap, List.mem_map, List.mem_filter]
  constructor
  · rintro ⟨_, ⟨⟨⟨x, atom⟩, position⟩, ⟨later, fresh⟩, rfl⟩, succeeded⟩
    obtain ⟨extended, success, rfl⟩ := toOption_map.mp succeeded
    obtain ⟨lower, candidate⟩ := mem_zipIdx_drop.mp later
    exact ⟨position, x, atom, extended, by simpa using candidate,
      by simpa using fresh, lower, success, rfl⟩
  · rintro ⟨position, x, atom, extended, candidate, fresh, lower, success, rfl⟩
    refine ⟨_, ⟨((x, atom), position), ⟨?_, by simpa using fresh⟩, rfl⟩,
      toOption_map.mpr ⟨extended, success, rfl⟩⟩
    exact mem_zipIdx_drop.mpr ⟨lower, by simpa using candidate⟩

/-- The branches that succeed. -/
theorem mem_branches {space : SearchSpace} {node child : SearchNode}
    {position : Nat} {proposals : List (BranchingRule × Application)} :
    child ∈ ((space.branches node position proposals).filterMap
        Except.toOption).map Prod.snd ↔
      ∃ rule application, (rule, application) ∈ proposals ∧
        node.apply space.goal.store position application = .ok child := by
  have toOption_map : ∀ {outcome : Except NodeFailure SearchNode}
      {rule rule' : BranchingRule},
      (outcome.map (rule, ·)).toOption = some (rule', child) ↔
        rule = rule' ∧ outcome = .ok child := by
    intro outcome rule rule'
    cases outcome <;> simp [Except.map, Except.toOption]
  simp only [branches, List.mem_map, List.mem_filterMap, Prod.exists,
    exists_eq_right]
  constructor
  · rintro ⟨rule', _, ⟨rule, application, member, rfl⟩, succeeded⟩
    exact ⟨rule, application, member, (toOption_map.mp succeeded).2⟩
  · rintro ⟨rule, application, member, success⟩
    exact ⟨rule, _, ⟨rule, application, member, rfl⟩,
      toOption_map.mpr ⟨rfl, success⟩⟩

section Children

variable {node child : SearchNode}

/-- A refinement is well formed and lighter. -/
theorem refinement_wellFormed (wellFormed : node.WellFormed goal)
    (member : child ∈
      ((ofGoal goal).refinements node).filterMap Except.toOption) :
    child.WellFormed goal ∧
      (ofGoal goal).weight child < (ofGoal goal).weight node := by
  obtain ⟨position, x, atom, extended, candidate, _, lower, success, rfl⟩ :=
    mem_refinements.mp member
  obtain ⟨varying, stored, nonVariable⟩ :=
    mem_candidates.mp ⟨position, candidate⟩
  obtain ⟨prepares, _⟩ := SearchNode.Prepares.extend wellFormed success
    varying stored nonVariable
  refine ⟨prepares.wellFormed.withRefined position, ?_⟩
  · have inRange := (Array.getElem?_eq_some_iff.mp candidate).1
    have weights := prepares.weight_le (ofGoal goal).candidates.size
    have same : extended.nextCandidate = node.nextCandidate := by
      rw [SearchNode.nextCandidate, SearchNode.nextCandidate,
        prepares.refined]
    have after : (extended.withRefined position).nextCandidate =
        position + 1 := rfl
    have sizes : (extended.withRefined position).obligations =
        extended.obligations := rfl
    have pendings : (extended.withRefined position).pending =
        extended.pending := rfl
    simp only [weight, SearchNode.weight, after, sizes, pendings, same,
      ofGoal] at weights inRange ⊢
    omega

variable {position : Nat} {obligation : Obligation}
  {proposals : List (BranchingRule × Application)}

/-- A branch is well formed and lighter. -/
theorem branch_wellFormed (goalWellFormed : goal.WellFormed)
    (wellFormed : node.WellFormed goal)
    (found : node.obligations[position]? = some obligation)
    (pending : obligation.solved = false)
    (proposed : ∀ application, (∃ rule, (rule, application) ∈ proposals) →
      BranchProposal goal.store obligation.subsumption application)
    (member : child ∈ (((ofGoal goal).branches node position
      proposals).filterMap Except.toOption).map Prod.snd) :
    child.WellFormed goal ∧
      (ofGoal goal).weight child < (ofGoal goal).weight node := by
  obtain ⟨rule, application, inProposals, success⟩ := mem_branches.mp member
  have progress := SearchNode.progress_branch goalWellFormed.store wellFormed
    found pending (proposed application ⟨rule, inProposals⟩) success
  exact ⟨progress.wellFormed, progress.lighter _⟩

end Children

end SearchSpace

namespace SearchMemory

/-- The two memories remember the same nodes and assignments. -/
def Agrees (before after : SearchMemory) : Prop :=
  after.visited = before.visited ∧ after.reported = before.reported

/-- What may come of reporting an assignment. -/
inductive Reported (goal : Goal) (before : Std.HashSet Assignment)
    (assignment : Assignment) :
    Option Unifier → Std.HashSet Assignment → Prop where
  | again (known : assignment ∈ before) :
      Reported goal before assignment none before
  | rejected
      (violated : (Unifier.ofAssignment goal assignment).respectsNegative?
        goal ≠ some true) :
      Reported goal before assignment none (before.insert assignment)
  | found (respected : goal.hasNegative = false ∨
        (Unifier.ofAssignment goal assignment).respectsNegative? goal =
          some true) :
      Reported goal before assignment
        (some (.ofAssignment goal assignment)) (before.insert assignment)

section Reported

variable {goal : Goal} {before after : Std.HashSet Assignment}
  {assignment : Assignment} {unifier : Option Unifier}

theorem Reported.mem (reported : Reported goal before assignment unifier after) :
    assignment ∈ after := by
  cases reported with
  | again known => exact known
  | rejected | found => exact Std.HashSet.mem_insert_self

theorem Reported.kept (reported : Reported goal before assignment unifier after)
    {other : Assignment} (old : other ∈ before) : other ∈ after := by
  cases reported with
  | again => exact old
  | rejected | found =>
      exact Std.HashSet.mem_insert.mpr (.inr old)

/-- A newly reported assignment is that of a unifier or violates a negative
constraint. -/
theorem Reported.new (reported : Reported goal before assignment unifier after)
    {other : Assignment} (member : other ∈ after) :
    other ∈ before ∨ unifier = some (.ofAssignment goal other) ∨
      (Unifier.ofAssignment goal other).respectsNegative? goal ≠
        some true := by
  cases reported with
  | again => exact .inl member
  | rejected violated =>
      rw [Std.HashSet.mem_insert, beq_iff_eq] at member
      rcases member with rfl | old
      · exact .inr (.inr violated)
      · exact .inl old
  | found =>
      rw [Std.HashSet.mem_insert, beq_iff_eq] at member
      rcases member with rfl | old
      · exact .inr (.inl rfl)
      · exact .inl old

theorem Reported.respected
    (reported : Reported goal before assignment unifier after)
    {some_ : Unifier} (yields : unifier = some some_) :
    some_ = .ofAssignment goal assignment ∧ (goal.hasNegative = false ∨
      (Unifier.ofAssignment goal assignment).respectsNegative? goal =
        some true) := by
  cases reported with
  | again | rejected => cases yields
  | found respected =>
      cases yields
      exact ⟨rfl, respected⟩

end Reported

theorem reported_reportLeaf {memory : SearchMemory} (goal : Goal)
    {before : Std.HashSet Assignment} (assignment : Assignment)
    (same : memory.reported = before) :
    (memory.reportLeaf goal assignment).2.visited = memory.visited ∧
      Reported goal before assignment
        (memory.reportLeaf goal assignment).1
        (memory.reportLeaf goal assignment).2.reported := by
  subst same
  unfold reportLeaf
  by_cases known : memory.reported.contains assignment = true
  · simp only [count, known, if_true]
    exact ⟨trivial, .again (Std.HashSet.mem_iff_contains.mpr known)⟩
  · simp only [count, known]
    by_cases violates : (goal.hasNegative &&
        (Unifier.ofAssignment goal assignment).respectsNegative? goal !=
          some true) = true
    · rw [if_pos violates]
      simp only [Bool.and_eq_true, bne_iff_ne] at violates
      exact ⟨rfl, .rejected violates.2⟩
    · rw [if_neg violates]
      refine ⟨rfl, .found ?_⟩
      rw [Bool.not_eq_true, Bool.and_eq_false_iff] at violates
      rcases violates with without | respected
      · exact .inl without
      · exact .inr (by simpa using respected)

/-- What may come of expanding a node. -/
inductive Expanded (space : SearchSpace) (before : SearchMemory)
    (node : SearchNode) : Expansion → SearchMemory → Prop where
  | failed {after : SearchMemory} {between : SearchNode}
      (path : Relation.ReflTransGen
        (SearchNode.EagerStep space.goal.store) node between)
      (fails : SearchNode.EagerFailure space.goal.store between)
      (same : before.Agrees after) : Expanded space before node {} after
  | seen {after : SearchMemory} {saturated : SearchNode}
      (path : Relation.ReflTransGen
        (SearchNode.EagerStep space.goal.store) node saturated)
      (old : saturated.key ∈ before.visited)
      (same : before.Agrees after) : Expanded space before node {} after
  | leaf {after : SearchMemory} {saturated : SearchNode}
      {unifier : Option Unifier}
      (path : Relation.ReflTransGen
        (SearchNode.EagerStep space.goal.store) node saturated)
      (solved : ∀ o ∈ saturated.obligations.toList, o.solved = true)
      (visited : after.visited = before.visited.insert saturated.key)
      (reported : Reported space.goal before.reported saturated.assignment
        unifier after.reported) :
      Expanded space before node
        ⟨(space.refinements saturated).filterMap Except.toOption, unifier⟩
        after
  | branch {after : SearchMemory} {saturated : SearchNode}
      {position : Nat} {obligation : Obligation}
      {proposals : List (BranchingRule × Application)}
      (path : Relation.ReflTransGen
        (SearchNode.EagerStep space.goal.store) node saturated)
      (idle : saturated.Saturated space.goal.store)
      (found : saturated.obligations[position]? = some obligation)
      (pending : obligation.solved = false)
      (proposed : ∀ application, (∃ rule, (rule, application) ∈ proposals) ↔
        BranchProposal space.goal.store obligation.subsumption application)
      (visited : after.visited = before.visited.insert saturated.key)
      (reported : after.reported = before.reported) :
      Expanded space before node
        ⟨((space.branches saturated position proposals).filterMap
          Except.toOption).map Prod.snd, none⟩ after

theorem expanded_expandLeaf {space : SearchSpace}
    {before memory : SearchMemory} {node saturated : SearchNode}
    {height : Nat}
    (path : Relation.ReflTransGen (SearchNode.EagerStep space.goal.store)
      node saturated)
    (solved : ∀ o ∈ saturated.obligations.toList, o.solved = true)
    (visited : memory.visited = before.visited.insert saturated.key)
    (reported : memory.reported = before.reported) :
    Expanded space before node
      (memory.expandLeaf space saturated height).1
      (memory.expandLeaf space saturated height).2 := by
  have counted : ∃ counted : SearchMemory,
      memory.expandLeaf space saturated height =
          (⟨(space.refinements saturated).filterMap Except.toOption,
            (counted.reportLeaf space.goal saturated.assignment).1⟩,
          (counted.reportLeaf space.goal saturated.assignment).2) ∧
        counted.visited = memory.visited ∧
          counted.reported = memory.reported := by
    unfold expandLeaf
    exact ⟨_, rfl, rfl, rfl⟩
  obtain ⟨counted, expands, sameVisited, sameReported⟩ := counted
  obtain ⟨visited', reported'⟩ := reported_reportLeaf space.goal
    saturated.assignment (sameReported.trans reported)
  rw [expands]
  exact .leaf path solved (visited'.trans (sameVisited.trans visited))
    reported'

theorem expanded_expandBranch {goal : Goal} {before memory : SearchMemory}
    {node saturated : SearchNode} {position height : Nat}
    {obligation : Obligation} (goalWellFormed : goal.WellFormed)
    (wellFormed : saturated.WellFormed goal)
    (path : Relation.ReflTransGen (SearchNode.EagerStep goal.store) node
      saturated)
    (idle : saturated.Saturated goal.store)
    (found : saturated.obligations[position]? = some obligation)
    (pending : obligation.solved = false)
    (visited : memory.visited = before.visited.insert saturated.key)
    (reported : memory.reported = before.reported) :
    Expanded (.ofGoal goal) before node
      (memory.expandBranch (.ofGoal goal) saturated position
        obligation.subsumption height).1
      (memory.expandBranch (.ofGoal goal) saturated position
        obligation.subsumption height).2 := by
  obtain ⟨proposals, answered, proposed⟩ :=
    idle.alternatives (wellFormed.stored goalWellFormed) found pending
  have inSpace : (SearchSpace.ofGoal goal).goal = goal := rfl
  unfold expandBranch
  rw [inSpace, answered]
  cases proposals with
  | nil =>
      change Expanded (.ofGoal goal) before node
        ⟨(((SearchSpace.ofGoal goal).branches saturated position
          []).filterMap Except.toOption).map Prod.snd, none⟩ _
      exact .branch path idle found pending proposed visited reported
  | cons proposal proposals =>
      exact .branch path idle found pending proposed visited reported

/-- Expanding a well-formed node has one of the expected outcomes. -/
theorem expanded_expand {goal : Goal} {memory : SearchMemory}
    {node : SearchNode} {height : Nat} (goalWellFormed : goal.WellFormed)
    (wellFormed : node.WellFormed goal) :
    Expanded (.ofGoal goal) memory node
      (memory.expand (.ofGoal goal) node height).1
      (memory.expand (.ofGoal goal) node height).2 := by
  unfold expand
  simp only [count]
  generalize ({ memory.stats with
    nodesExpanded := memory.stats.nodesExpanded + 1 } : RuleStats) = stats
  have outcome := SearchNode.saturate_outcome goalWellFormed wellFormed stats
  have inSpace : (SearchSpace.ofGoal goal).goal.store = goal.store := rfl
  have capacity : (SearchSpace.ofGoal goal).capacity =
      SearchSpace.capacityOf goal := rfl
  rw [inSpace, capacity]
  generalize (node.saturate goal.store
    (SearchSpace.capacityOf goal)).run.run stats = result at outcome ⊢
  obtain ⟨result, stats'⟩ := result
  simp only at outcome ⊢
  cases outcome with
  | failed path fails => exact .failed path fails ⟨rfl, rfl⟩
  | @saturated saturated path idle =>
      by_cases old : memory.visited.contains saturated.key = true
      · simp only [old, if_true]
        exact .seen path (Std.HashSet.mem_iff_contains.mpr old) ⟨rfl, rfl⟩
      · simp only [old]
        cases first : saturated.firstPending? with
        | none =>
            exact expanded_expandLeaf path
              (SearchNode.forall_solved_of_firstPending? first) rfl rfl
        | some position =>
            obtain ⟨obligation, found, pending⟩ :=
              SearchNode.pending_of_firstPending? first
            simp only [found]
            exact expanded_expandBranch goalWellFormed
              (SearchNode.advances_of_path goalWellFormed wellFormed
                path).wellFormed path idle found pending rfl rfl

end SearchMemory

end ConceptUnification
