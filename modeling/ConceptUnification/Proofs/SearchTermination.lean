import ConceptUnification.Proofs.SearchRun

/-!
# Termination of the search by rules

The loops of the search have bounds of their own: sweeps and their number are
bounded by the capacity of the goal, and a request drops children that are not
lighter.  The relations of this module describe the same loops without these
bounds, and have no rule for a number that no atom has.  On every state that a
search reaches, each of these loops has an outcome, and it is the computed one.
So the bounds are never met, nothing is dropped, and after finitely many
requests there are no more unifiers.
-/

namespace ConceptUnification

namespace SearchNode

/-- A sweep from a position to the last obligation, however many there come to
be on the way. -/
inductive Sweeps (store : AtomStore) :
    Nat → SearchNode → Bool → Except NodeFailure (SearchNode × Bool) → Prop
  | ended {position : Nat} {node : SearchNode} {changed : Bool}
      (absent : node.obligations[position]? = none) :
      Sweeps store position node changed (.ok (node, changed))
  | solved {position : Nat} {node : SearchNode} {changed : Bool}
      {obligation : Obligation}
      {outcome : Except NodeFailure (SearchNode × Bool)}
      (found : node.obligations[position]? = some obligation)
      (solved : obligation.solved = true)
      (later : Sweeps store (position + 1) node changed outcome) :
      Sweeps store position node changed outcome
  | idle {position : Nat} {node : SearchNode} {changed : Bool}
      {obligation : Obligation}
      {outcome : Except NodeFailure (SearchNode × Bool)}
      (found : node.obligations[position]? = some obligation)
      (pending : obligation.solved = false)
      (tried : firstEager? obligation.subsumption node.assignment store
        Rule.eagerRules = .ok none)
      (later : Sweeps store (position + 1) node changed outcome) :
      Sweeps store position node changed outcome
  | applied {position : Nat} {node next : SearchNode} {changed : Bool}
      {obligation : Obligation} {rule : EagerRule} {application : Application}
      {outcome : Except NodeFailure (SearchNode × Bool)}
      (found : node.obligations[position]? = some obligation)
      (pending : obligation.solved = false)
      (tried : firstEager? obligation.subsumption node.assignment store
        Rule.eagerRules = .ok (some (rule, application)))
      (applied : node.apply store position application = .ok next)
      (later : Sweeps store (position + 1) next true outcome) :
      Sweeps store position node changed outcome
  | conflict {position : Nat} {node : SearchNode} {changed : Bool}
      {obligation : Obligation} {rule : EagerRule} {application : Application}
      (found : node.obligations[position]? = some obligation)
      (pending : obligation.solved = false)
      (tried : firstEager? obligation.subsumption node.assignment store
        Rule.eagerRules = .ok (some (rule, application)))
      (applied : node.apply store position application = .error .conflict) :
      Sweeps store position node changed (.error .conflict)

/-- Sweeps that are repeated until one changes nothing. -/
inductive Saturates (store : AtomStore) :
    SearchNode → Except NodeFailure SearchNode → Prop
  | unchanged {node after : SearchNode}
      (swept : Sweeps store 0 node false (.ok (after, false))) :
      Saturates store node (.ok after)
  | changed {node next : SearchNode} {outcome : Except NodeFailure SearchNode}
      (swept : Sweeps store 0 node false (.ok (next, true)))
      (again : Saturates store next outcome) : Saturates store node outcome
  | conflict {node : SearchNode}
      (swept : Sweeps store 0 node false (.error .conflict)) :
      Saturates store node (.error .conflict)

section Unique

variable {store : AtomStore}

theorem Sweeps.unique {position : Nat} {node : SearchNode} {changed : Bool}
    {left right : Except NodeFailure (SearchNode × Bool)}
    (first : Sweeps store position node changed left)
    (second : Sweeps store position node changed right) : left = right := by
  induction first generalizing right with
  | ended absent =>
      cases second with
      | ended => rfl
      | _ => simp_all
  | solved found solved _ induction =>
      cases second with
      | solved _ _ later => exact induction later
      | _ => simp_all
  | idle found pending tried _ induction =>
      cases second with
      | idle _ _ _ later => exact induction later
      | _ => simp_all
  | applied found pending tried applied _ induction =>
      cases second with
      | applied found' _ tried' applied' later =>
          cases found.symm.trans found'
          cases tried.symm.trans tried'
          cases applied.symm.trans applied'
          exact induction later
      | _ => simp_all
  | conflict found pending tried applied =>
      cases second with
      | conflict => rfl
      | _ => simp_all

theorem Saturates.unique {node : SearchNode}
    {left right : Except NodeFailure SearchNode}
    (first : Saturates store node left) (second : Saturates store node right) :
    left = right := by
  induction first generalizing right with
  | unchanged swept =>
      cases second with
      | unchanged other => cases swept.unique other; rfl
      | changed other => cases swept.unique other
      | conflict other => cases swept.unique other
  | changed swept _ induction =>
      cases second with
      | unchanged other => cases swept.unique other
      | changed other again => cases swept.unique other; exact induction again
      | conflict other => cases swept.unique other
  | conflict swept =>
      cases second with
      | unchanged other => cases swept.unique other
      | changed other => cases swept.unique other
      | conflict => rfl

theorem Sweeps.error_eq {position : Nat} {node : SearchNode} {changed : Bool}
    {outcome : Except NodeFailure (SearchNode × Bool)} {failure : NodeFailure}
    (swept : Sweeps store position node changed outcome)
    (failed : outcome = .error failure) : failure = .conflict := by
  induction swept with
  | ended => cases failed
  | solved _ _ _ induction => exact induction failed
  | idle _ _ _ _ induction => exact induction failed
  | applied _ _ _ _ _ induction => exact induction failed
  | conflict =>
      cases failed
      rfl

theorem Saturates.error_eq {node : SearchNode}
    {outcome : Except NodeFailure SearchNode} {failure : NodeFailure}
    (saturates : Saturates store node outcome)
    (failed : outcome = .error failure) : failure = .conflict := by
  induction saturates with
  | unchanged => cases failed
  | changed _ _ induction => exact induction failed
  | conflict =>
      cases failed
      rfl

end Unique

section Bounded

variable {store : AtomStore} {capacity : Nat} {holds : SearchNode → Prop}
  {node : SearchNode}

/-- Only a cycle can refuse a stored atom. -/
theorem extend_error {x atom : AtomId} {failure : NodeFailure}
    (chosen : node.assignment.Known store) (stored : atom < store.size)
    (fails : node.extend store x atom = .error failure) :
    failure = .conflict := by
  obtain ⟨answer, answered⟩ :=
    Assignment.exists_createsCycle? (x := x) chosen stored
  unfold SearchNode.extend at fails
  rw [answered] at fails
  split at fails
  · cases fails
  · cases answer with
    | false => cases fails
    | true =>
        cases fails
        rfl

theorem apply_error {position : Nat} {application : Application}
    {failure : NodeFailure} (chosen : node.assignment.Known store)
    (stored : ∀ x atom, application = .extend x atom → atom < store.size)
    (fails : node.apply store position application = .error failure) :
    failure = .conflict := by
  cases application with
  | solve => cases fails
  | fail =>
      cases fails
      rfl
  | extend x atom =>
      cases extended : node.extend store x atom with
      | ok next =>
          rw [SearchNode.apply, extended] at fails
          cases fails
      | error other =>
          rw [SearchNode.apply, extended] at fails
          cases fails
          exact extend_error chosen (stored x atom rfl) extended
  | decompose => cases fails
  | expandHead => cases fails

variable (invariant : EagerInvariant store capacity holds)

include invariant

/-- A bounded sweep with enough steps is an unbounded one. -/
theorem EagerInvariant.sweeps_sweep (steps start : Nat) (begins : holds node)
    (changed : Bool) (enough : capacity ≤ start + steps) :
    SaturationM.Ensures (node.sweep store steps start changed)
      (Sweeps store start node changed) := by
  induction steps generalizing start node changed with
  | zero =>
      have outside : node.obligations.size ≤ start :=
        Nat.le_trans (invariant.size_le begins) enough
      rw [sweep]
      exact .pure (.ended (Array.getElem?_eq_none_iff.mpr outside))
  | succ steps induction =>
      have enough' : capacity ≤ start + 1 + steps := by
        omega
      unfold sweep
      split
      · next absent => exact .pure (.ended absent)
      · next obligation found =>
          split
          · next solved =>
              intro stats
              exact .solved found solved
                (induction (start + 1) begins changed enough' stats)
          · next unsolved =>
              have pending : obligation.solved = false := by
                simpa using unsolved
              obtain ⟨body, head⟩ := invariant.stored begins _
                (mem_known_of_mem (mem_of_getElem? found))
              obtain ⟨answer, tried, proposals, _⟩ :=
                firstEager?_eq_ok node.assignment Rule.eagerRules body head
              refine .bind (.lift ?_)
              rw [tried]
              cases answer with
              | none =>
                  intro stats
                  exact .idle found pending tried
                    (induction (start + 1) begins changed enough' stats)
              | some proposal =>
                  obtain ⟨rule, application⟩ := proposal
                  refine .bind (.modify (.bind (.lift ?_)))
                  cases applied : node.apply store start application with
                  | error failure =>
                      have stored : ∀ x atom,
                          application = .extend x atom → atom < store.size := by
                        intro x atom same
                        have proposed := proposals rule application rfl
                        rw [same] at proposed
                        cases proposed
                        exact head
                      cases apply_error (invariant.chosen begins) stored applied
                      exact .conflict found pending tried applied
                  | ok next =>
                      have continues := invariant.step begins ⟨start, obligation,
                        rule, application, found, pending, tried, applied⟩
                      intro stats
                      exact .applied found pending tried applied
                        (induction (start + 1) continues true enough' stats)

/-- Enough rounds of bounded sweeps saturate without any bound.  Each sweep
that changes the node solves an obligation. -/
theorem EagerInvariant.saturates_saturateWithin (rounds : Nat)
    (begins : holds node) (enough : capacity < rounds + node.solvedCount) :
    SaturationM.Ensures (node.saturateWithin store capacity rounds)
      (Saturates store node) := by
  induction rounds generalizing node with
  | zero =>
      have few := node.solvedCount_le
      have bounded := invariant.size_le begins
      omega
  | succ rounds induction =>
      unfold saturateWithin
      refine .bind fun stats => ?_
      have swept := invariant.sweeps_sweep capacity 0 begins false (by omega)
        stats
      have reached := sweep_outcome store capacity 0 node false stats
      generalize ((node.sweep store capacity 0 false).run.run stats).1 =
        outcome at swept reached ⊢
      cases reached with
      | idle => exact .pure (.unchanged swept)
      | @stepped next path =>
          have more := solvedCount_lt_of_path path
          have continues := invariant.path begins path.to_reflTransGen
          intro stats'
          exact .changed swept (induction continues (by omega) stats')
      | failed =>
          cases swept.error_eq rfl
          exact .conflict swept

/-- Saturating without any bound ends, with the outcome that is computed. -/
theorem EagerInvariant.saturates_iff (begins : holds node) (stats : RuleStats)
    {outcome : Except NodeFailure SearchNode} :
    Saturates store node outcome ↔
      ((node.saturate store capacity).run.run stats).1 = outcome := by
  have computed : Saturates store node
      ((node.saturate store capacity).run.run stats).1 :=
    invariant.saturates_saturateWithin _ begins (by omega) stats
  constructor
  · intro saturates
    exact computed.unique saturates
  · intro same
    rw [← same]
    exact computed

end Bounded

section WellFormed

variable {goal : Goal} {node : SearchNode}

/-- Saturating a well-formed node without any bound ends, with the outcome that
is computed. -/
theorem saturates_iff (goalWellFormed : goal.WellFormed)
    (wellFormed : node.WellFormed goal) (stats : RuleStats)
    {outcome : Except NodeFailure SearchNode} :
    Saturates goal.store node outcome ↔
      ((node.saturate goal.store
        (SearchSpace.capacityOf goal)).run.run stats).1 = outcome :=
  (eagerInvariant_wellFormed goalWellFormed).saturates_iff wellFormed stats

end WellFormed

end SearchNode

namespace SearchSpace

/-- A round for a node that goes through: the node can be saturated, after that
every child is made or refused for a cycle, and at a leaf all atoms have values
under the unifier. -/
inductive Proceeds (space : SearchSpace) (node : SearchNode) : Prop
  | conflict
      (saturates : node.Saturates space.goal.store (.error .conflict)) :
      Proceeds space node
  | leaf {saturated : SearchNode}
      (saturates : node.Saturates space.goal.store (.ok saturated))
      (finished : saturated.firstPending? = none)
      (refined : ∀ failure, .error failure ∈ space.refinements saturated →
        failure = .conflict)
      (valued : ∀ id, id < space.goal.store.size →
        ∃ value, (Unifier.ofAssignment space.goal
          saturated.assignment).expand? space.goal.store id = some value) :
      Proceeds space node
  | branch {saturated : SearchNode} {position : Nat} {obligation : Obligation}
      {proposals : List (BranchingRule × Application)}
      (saturates : node.Saturates space.goal.store (.ok saturated))
      (first : saturated.firstPending? = some position)
      (found : saturated.obligations[position]? = some obligation)
      (answered : alternatives obligation.subsumption space.goal.store
        Rule.branchingRules = .ok proposals)
      (branched : ∀ failure,
        .error failure ∈ space.branches saturated position proposals →
          failure = .conflict) : Proceeds space node

section Proceeds

variable {goal : Goal} {node : SearchNode}

theorem error_of_map {α β : Type} {f : α → β} {outcome : Except NodeFailure α}
    {failure : NodeFailure} (failed : outcome.map f = .error failure) :
    outcome = .error failure := by
  cases outcome with
  | ok => cases failed
  | error =>
      cases failed
      rfl

theorem error_of_mem_refinements (wellFormed : node.WellFormed goal)
    {failure : NodeFailure}
    (member : .error failure ∈ (ofGoal goal).refinements node) :
    failure = .conflict := by
  simp only [refinements, List.mem_map, List.mem_filter, Prod.exists] at member
  obtain ⟨x, atom, position, ⟨later, _⟩, failed⟩ := member
  obtain ⟨_, candidate⟩ := mem_zipIdx_drop.mp later
  obtain ⟨_, stored, _⟩ :=
    mem_candidates.mp ⟨position, by simpa using candidate⟩
  exact SearchNode.extend_error wellFormed.proper.stored stored
    (error_of_map failed)

theorem error_of_mem_branches (wellFormed : node.WellFormed goal)
    {position : Nat} {obligation : Obligation}
    {proposals : List (BranchingRule × Application)} {failure : NodeFailure}
    (found : node.obligations[position]? = some obligation)
    (proposed : ∀ application, (∃ rule, (rule, application) ∈ proposals) →
      BranchProposal goal.store obligation.subsumption application)
    (member : .error failure ∈
      (ofGoal goal).branches node position proposals) :
    failure = .conflict := by
  obtain ⟨⟨rule, application⟩, inProposals, failed⟩ := List.mem_map.mp member
  refine SearchNode.apply_error wellFormed.proper.stored
    (fun x atom same => ?_) (error_of_map failed)
  have proposal := proposed application ⟨rule, inProposals⟩
  rw [same] at proposal
  cases proposal
  exact (wellFormed.arises _ (SearchNode.mem_known_of_mem
    (SearchNode.mem_of_getElem? found))).2

/-- The rounds of all well-formed nodes go through. -/
theorem proceeds_of_wellFormed (goalWellFormed : goal.WellFormed)
    (wellFormed : node.WellFormed goal) : (ofGoal goal).Proceeds node := by
  have saturates := (SearchNode.saturates_iff goalWellFormed wellFormed {}).mpr
    rfl
  have outcome := SearchNode.saturate_outcome goalWellFormed wellFormed {}
  generalize ((node.saturate goal.store
    (capacityOf goal)).run.run {}).1 = result at saturates outcome
  cases outcome with
  | failed =>
      cases saturates.error_eq rfl
      exact .conflict saturates
  | @saturated saturated path idle =>
      have inner := (SearchNode.advances_of_path goalWellFormed wellFormed
        path).wellFormed
      cases first : saturated.firstPending? with
      | none =>
          obtain ⟨value, evaluates⟩ := Assignment.exists_evaluates
            (inner.acyclic.ranked goalWellFormed.store inner.proper)
          refine .leaf saturates first
            (fun _ => error_of_mem_refinements inner) ?_
          intro id stored
          exact ⟨value id, Unifier.atom?_ofAssignment goalWellFormed
            inner.acyclic inner.proper evaluates stored⟩
      | some position =>
          obtain ⟨obligation, found, pending⟩ :=
            SearchNode.pending_of_firstPending? first
          obtain ⟨proposals, answered, proposed⟩ :=
            idle.alternatives (inner.stored goalWellFormed) found pending
          exact .branch saturates first found answered fun _ =>
            error_of_mem_branches inner found fun application =>
              (proposed application).mp

end Proceeds

end SearchSpace

theorem SearchMemory.expanded_of_expand {goal : Goal}
    {memory after : SearchMemory} {node : SearchNode} {height : Nat}
    {expansion : Expansion} (goalWellFormed : goal.WellFormed)
    (wellFormed : node.WellFormed goal)
    (expands : memory.expand (.ofGoal goal) node height =
      (expansion, after)) :
    memory.Expanded (.ofGoal goal) node expansion after := by
  have expanded := @SearchMemory.expanded_expand goal memory node height
    goalWellFormed wellFormed
  rw [expands] at expanded
  exact expanded

/-- All children of a node are pushed, for all of them are lighter. -/
theorem SearchMemory.Expanded.filter_children {goal : Goal}
    {memory after : SearchMemory} {node : SearchNode} {expansion : Expansion}
    (goalWellFormed : goal.WellFormed) (wellFormed : node.WellFormed goal)
    (expanded : memory.Expanded (.ofGoal goal) node expansion after) :
    expansion.children.filter ((SearchSpace.ofGoal goal).weight · <
      (SearchSpace.ofGoal goal).weight node) = expansion.children := by
  cases expanded with
  | failed => rfl
  | seen => rfl
  | leaf path =>
      have advances :=
        SearchNode.advances_of_path goalWellFormed wellFormed path
      apply SearchInvariant.filter_lighter (advances.weight_le _)
      intro child member
      exact (SearchSpace.refinement_wellFormed advances.wellFormed member).2
  | branch path _ found pending proposed =>
      have advances :=
        SearchNode.advances_of_path goalWellFormed wellFormed path
      apply SearchInvariant.filter_lighter (advances.weight_le _)
      intro child member
      exact (SearchSpace.branch_wellFormed goalWellFormed advances.wellFormed
        found pending (fun application => (proposed application).mp) member).2

namespace RuleSearch

/-- The states between the rounds of a search that is never interrupted, with
the number of rounds and the unifiers found so far.  A round expands the node on
top of the stack and pushes all its children. -/
inductive Reached (goal : Goal) :
    Nat → List Unifier → List SearchNode → SearchMemory → Prop
  | start : Reached goal 0 [] [.ofSubsumptions goal.positiveSubsumptions] {}
  | round {rounds : Nat} {found : List Unifier} {node : SearchNode}
      {rest : List SearchNode} {memory after : SearchMemory}
      {expansion : Expansion}
      (reached : Reached goal rounds found (node :: rest) memory)
      (expands : memory.expand (.ofGoal goal) node rest.length =
        (expansion, after)) :
      Reached goal (rounds + 1) (found ++ expansion.unifier.toList)
        (expansion.children ++ rest) after

/-- The rounds of one request that is not interrupted: they go on until one
finds a unifier or no node is left. -/
inductive Requests (space : SearchSpace) :
    List SearchNode → SearchMemory →
      Option Unifier → List SearchNode → SearchMemory → Prop
  | exhausted {memory : SearchMemory} :
      Requests space [] memory none [] memory
  | found {node : SearchNode} {rest : List SearchNode}
      {memory after : SearchMemory} {expansion : Expansion} {unifier : Unifier}
      (proceeds : space.Proceeds node)
      (expands : memory.expand space node rest.length = (expansion, after))
      (finds : expansion.unifier = some unifier) :
      Requests space (node :: rest) memory (some unifier)
        (expansion.children ++ rest) after
  | continues {node : SearchNode} {rest stack : List SearchNode}
      {memory between after : SearchMemory} {expansion : Expansion}
      {answer : Option Unifier} (proceeds : space.Proceeds node)
      (expands : memory.expand space node rest.length = (expansion, between))
      (finds : expansion.unifier = none)
      (later : Requests space (expansion.children ++ rest) between answer stack
        after) :
      Requests space (node :: rest) memory answer stack after

section Reached

variable {goal : Goal} {rounds : Nat} {found : List Unifier}
  {node : SearchNode} {rest stack : List SearchNode}
  {memory after : SearchMemory} {expansion : Expansion}
  (goalWellFormed : goal.WellFormed)

include goalWellFormed

theorem Reached.invariant
    (reached : Reached goal rounds found stack memory) :
    SearchInvariant goal stack memory found := by
  induction reached with
  | start => exact .initial goalWellFormed
  | @round rounds found node rest memory after expansion _ expands invariant =>
      have wellFormed := invariant.nodes node List.mem_cons_self
      have expanded := SearchMemory.expanded_of_expand goalWellFormed
        wellFormed expands
      have next := invariant.step goalWellFormed expanded
      rw [expanded.filter_children goalWellFormed wellFormed] at next
      exact next

theorem Reached.wellFormed
    (reached : Reached goal rounds found (node :: rest) memory) :
    node.WellFormed goal :=
  (reached.invariant goalWellFormed).nodes node List.mem_cons_self

/-- Dropping children that are not lighter drops none. -/
theorem Reached.filter_children
    (reached : Reached goal rounds found (node :: rest) memory)
    (expands : memory.expand (.ofGoal goal) node rest.length =
      (expansion, after)) :
    expansion.children.filter ((SearchSpace.ofGoal goal).weight · <
      (SearchSpace.ofGoal goal).weight node) = expansion.children := by
  have wellFormed := reached.wellFormed goalWellFormed
  exact (SearchMemory.expanded_of_expand goalWellFormed wellFormed
    expands).filter_children goalWellFormed wellFormed

theorem Reached.next
    (reached : Reached goal rounds found (node :: rest) memory)
    (expands : memory.expand (.ofGoal goal) node rest.length =
      (expansion, after)) :
    Reached goal (rounds + 1) (found ++ expansion.unifier.toList)
      (expansion.children.filter ((SearchSpace.ofGoal goal).weight · <
        (SearchSpace.ofGoal goal).weight node) ++ rest) after := by
  rw [reached.filter_children goalWellFormed expands]
  exact reached.round expands

/-- A request, interrupted or not, goes through some rounds, and answers with
the unifier that the last one finds.  Unless it is interrupted at once, there is
a round for it as long as there are nodes. -/
theorem Reached.resume (reached : Reached goal rounds found stack memory)
    {limit : Nat} {cancelled : CancelSchedule} {steps : Nat}
    {answer : Answer} {stack' : List SearchNode} {memory' : SearchMemory}
    (run : RuleSearch.resume (.ofGoal goal) limit cancelled steps stack memory =
      (answer, stack', memory')) :
    ∃ rounds', Reached goal rounds' (found ++ Engine.returned [answer]) stack'
        memory' ∧
      rounds ≤ rounds' ∧
      (cancelled steps = false → (limit = 0 ∨ steps < limit) → stack ≠ [] →
        rounds < rounds') := by
  fun_induction RuleSearch.resume (.ofGoal goal) limit cancelled steps stack
    memory generalizing rounds found with
  | case1 steps stack memory stopped =>
      cases run
      refine ⟨rounds, ?_, Nat.le_refl _, fun running => ?_⟩
      · rw [Engine.returned_error, List.append_nil]
        exact reached
      · rw [stopped] at running
        cases running
  | case2 steps stack memory _ exceeded =>
      cases run
      refine ⟨rounds, ?_, Nat.le_refl _, fun _ allowed => ?_⟩
      · rw [Engine.returned_error, List.append_nil]
        exact reached
      · simp at exceeded
        omega
  | case3 steps memory =>
      cases run
      refine ⟨rounds, ?_, Nat.le_refl _, fun _ _ some_ => (some_ rfl).elim⟩
      rw [Engine.returned_ok, Option.toList_none, List.append_nil]
      exact reached
  | case4 steps memory _ _ node rest expansion after expands pushed unifier =>
      rename_i finds
      have next := reached.next goalWellFormed expands
      rw [finds] at next
      simp only [Prod.mk.injEq] at run
      obtain ⟨rfl, rfl, rfl⟩ := run
      exact ⟨rounds + 1, next, Nat.le_succ _, fun _ _ _ => Nat.lt_succ_self _⟩
  | case5 steps memory _ _ node rest expansion after expands pushed finds =>
      rename_i induction
      have next := reached.next goalWellFormed expands
      rw [finds, Option.toList_none, List.append_nil] at next
      obtain ⟨rounds', reached', more, _⟩ := induction next run
      exact ⟨rounds', reached', Nat.le_of_succ_le more, fun _ _ _ => more⟩

/-- A request that is never interrupted ends after some rounds. -/
theorem Reached.requests (reached : Reached goal rounds found stack memory)
    (steps : Nat) :
    ∃ answer stack' memory',
      Requests (.ofGoal goal) stack memory answer stack' memory' ∧
        RuleSearch.resume (.ofGoal goal) 0 Engine.never steps stack memory =
          (.ok answer, stack', memory') := by
  fun_induction RuleSearch.resume (.ofGoal goal) 0 Engine.never steps stack
    memory generalizing rounds found with
  | case1 _ _ _ stopped => cases stopped
  | case2 _ _ _ _ exceeded => cases exceeded
  | case3 steps memory => exact ⟨none, [], memory, .exhausted, rfl⟩
  | case4 steps memory _ _ node rest expansion after expands pushed unifier =>
      rename_i finds
      refine ⟨some unifier, pushed, after, ?_, rfl⟩
      have found := Requests.found (SearchSpace.proceeds_of_wellFormed
        goalWellFormed (reached.wellFormed goalWellFormed)) expands finds
      rw [← reached.filter_children goalWellFormed expands] at found
      exact found
  | case5 steps memory _ _ node rest expansion after expands pushed finds =>
      rename_i induction
      have next := reached.next goalWellFormed expands
      obtain ⟨answer, stack', memory', later, computed⟩ := induction next
      refine ⟨answer, stack', memory', ?_, computed⟩
      refine .continues (SearchSpace.proceeds_of_wellFormed goalWellFormed
        (reached.wellFormed goalWellFormed)) expands finds ?_
      rw [← reached.filter_children goalWellFormed expands]
      exact later

end Reached

/-- Only an empty stack ends a search. -/
theorem stack_eq_nil_of_resume {space : SearchSpace} {limit steps : Nat}
    {cancelled : CancelSchedule} {stack stack' : List SearchNode}
    {memory memory' : SearchMemory}
    (run : resume space limit cancelled steps stack memory =
      (.ok none, stack', memory')) : stack' = [] := by
  fun_induction resume space limit cancelled steps stack memory with
  | case1 => cases run
  | case2 => cases run
  | case3 => cases run; rfl
  | case4 => cases run
  | case5 =>
      rename_i induction
      exact induction run

/-- A search that found no more unifiers finds none in the same state. -/
theorem next_next {search ended : RuleSearch}
    (run : Engine.next Engine.never search = (.ok none, ended)) :
    Engine.next Engine.never ended = (.ok none, ended) := by
  simp only [Engine.next, next] at run
  cases resumed : resume search.space search.stepLimit Engine.never 0
      search.stack search.memory with
  | mk answer state =>
      obtain ⟨stack, memory⟩ := state
      rw [resumed] at run
      cases run
      have empty := stack_eq_nil_of_resume resumed
      subst empty
      simp only [Engine.next, next]
      rw [resume]
      simp [Engine.never]

/-- The search ends.  Every node on a stack that it reaches can be saturated,
every request returns after finitely many rounds without meeting a bound, and
after finitely many requests there are no more unifiers, now and later. -/
theorem search_terminates {goal : Goal} (obtained : goal.Obtained) :
    (∀ {rounds found stack memory}, Reached goal rounds found stack memory →
      ∀ node ∈ stack, ∃ outcome, node.Saturates goal.store outcome ∧
        ∀ stats, ((node.saturate goal.store
          (SearchSpace.capacityOf goal)).run.run stats).1 = outcome) ∧
    (∀ {rounds found stack memory}, Reached goal rounds found stack memory →
      ∃ answer stack' memory',
        Requests (.ofGoal goal) stack memory answer stack' memory' ∧
        Engine.next Engine.never (RuleSearch.mk (.ofGoal goal) 0 stack memory) =
          (.ok answer, .mk (.ofGoal goal) 0 stack' memory') ∧
        ∃ rounds', Reached goal rounds' (found ++ answer.toList) stack'
          memory') ∧
    ∃ unifiers : List Unifier, ∀ more,
      Engine.answers (List.replicate (unifiers.length + more) Engine.never)
          (RuleSearch.new goal 0) =
        unifiers.map (fun unifier => .ok (some unifier)) ++
          List.replicate more (.ok none) := by
  have goalWellFormed := obtained.wellFormed
  refine ⟨?_, ?_, ?_⟩
  · intro rounds found stack memory reached node member
    have wellFormed := (reached.invariant goalWellFormed).nodes node member
    obtain ⟨outcome, saturates⟩ : ∃ outcome,
        node.Saturates goal.store outcome :=
      ⟨_, (SearchNode.saturates_iff goalWellFormed wellFormed {}).mpr rfl⟩
    exact ⟨outcome, saturates, fun stats =>
      (SearchNode.saturates_iff goalWellFormed wellFormed stats).mp saturates⟩
  · intro rounds found stack memory reached
    obtain ⟨answer, stack', memory', requests, resumed⟩ :=
      reached.requests goalWellFormed 0
    obtain ⟨rounds', reached', _⟩ := reached.resume goalWellFormed resumed
    refine ⟨answer, stack', memory', requests, ?_, rounds', ?_⟩
    · simp only [Engine.next, next, resumed]
    · rw [Engine.returned_ok] at reached'
      exact reached'
  · obtain ⟨unifiers, yields, _⟩ := exists_yields goalWellFormed
    exact ⟨unifiers, yields.answers_eq fun _ _ => next_next⟩

theorem search_terminates_sampleCalls :
    ∃ goal, ((GoalBuilder.new Goal.sampleBackground {}).performAll
        Goal.sampleCalls).build = .ok goal ∧
      (∃ outcome, (SearchNode.ofSubsumptions
        goal.positiveSubsumptions).Saturates goal.store outcome) ∧
      (∃ answer stack memory,
        Requests (.ofGoal goal)
            [.ofSubsumptions goal.positiveSubsumptions] {} answer stack memory ∧
          Engine.next Engine.never (RuleSearch.new goal 0) =
            (.ok answer, .mk (.ofGoal goal) 0 stack memory)) ∧
      ∃ unifiers : List Unifier, ∀ more,
        Engine.answers (List.replicate (unifiers.length + more) Engine.never)
            (RuleSearch.new goal 0) =
          unifiers.map (fun unifier => .ok (some unifier)) ++
            List.replicate more (.ok none) := by
  obtain ⟨goal, built, _⟩ := Goal.exists_build_sampleCalls
  obtain ⟨saturates, requests, ends⟩ := search_terminates (.built built)
  obtain ⟨outcome, saturated, _⟩ := saturates .start _
    (List.mem_singleton_self _)
  obtain ⟨answer, stack, memory, requested, answered, _⟩ := requests .start
  exact ⟨goal, built, ⟨outcome, saturated⟩,
    ⟨answer, stack, memory, requested, answered⟩, ends⟩

end RuleSearch

end ConceptUnification
