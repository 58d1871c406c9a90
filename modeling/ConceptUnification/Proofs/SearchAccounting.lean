import ConceptUnification.Proofs.SearchInterruption

/-!
# Conservation of nodes

Every node that was ever on the stack is the root, or was counted as a branch or
as a refinement when it was pushed.  So the expanded nodes and those that are
still on the stack are one more than the branches and the refinements: no node
is lost, and none is pushed or counted twice.  Every leaf is returned, rejected,
or repeated.  Since requests go through whole rounds, the balances hold after
every request, however it ends.
-/

namespace ConceptUnification

namespace RuleSearch

/-- Rounds, and the children that they pushed, are counted.  The root is on the
stack at the beginning, and each round takes one node from it. -/
theorem Reached.accounts {goal : Goal} {rounds : Nat} {found : List Unifier}
    {stack : List SearchNode} {memory : SearchMemory}
    (reached : Reached goal rounds found stack memory) :
    ∃ pushed, SearchMemory.Accounts {} memory rounds pushed found.length ∧
      rounds + stack.length = 1 + pushed := by
  induction reached with
  | start => exact ⟨0, .unrelated rfl ⟨_, _, _, rfl⟩, rfl⟩
  | @round rounds found node rest memory after expansion _ expands induction =>
      obtain ⟨pushed, accounts, conserved⟩ := induction
      have round := memory.accounts_expand (.ofGoal goal) node rest.length
      rw [expands] at round
      refine ⟨pushed + expansion.children.length, ?_, ?_⟩
      · rw [List.length_append]
        exact accounts.trans round
      · rw [List.length_append]
        rw [List.length_cons] at conserved
        omega

/-- The balances of the search after some requests, with any step limit and any
cancel flags.  Nodes are expanded or on the stack; leaves are repeated, rejected
or returned; an assignment is reported unless it is repeated; and the
applications of eager rules and the branches are those listed for the rules. -/
theorem search_accounts {goal : Goal} (obtained : goal.Obtained) (limit : Nat)
    (schedules : List CancelSchedule) :
    ∃ stack memory, Engine.after schedules (RuleSearch.new goal limit) =
        .mk (.ofGoal goal) limit stack memory ∧
      memory.stats.nodesExpanded + stack.length =
        1 + memory.stats.branchesCreated + memory.stats.refinements ∧
      memory.stats.leaves =
        memory.stats.repeatedLeaves + memory.stats.rejectedLeaves +
          (Engine.returned (Engine.answers schedules
            (RuleSearch.new goal limit))).length ∧
      memory.reported.size + memory.stats.repeatedLeaves =
        memory.stats.leaves ∧
      memory.stats.eagerApplications =
        memory.stats.ruleCounts.sumOver (Rule.table.filter (·.isEager)) ∧
      memory.stats.branchesCreated =
        memory.stats.ruleCounts.sumOver (Rule.table.filter (!·.isEager)) := by
  have goalWellFormed := obtained.wellFormed
  obtain ⟨unifiers, runs⟩ := exists_runs (.ofGoal goal)
    [.ofSubsumptions goal.positiveSubsumptions] {}
  obtain ⟨total, final, ended⟩ := Reached.finish goalWellFormed .start runs
  obtain ⟨rounds, stack, memory, after, reached, _⟩ :=
    Reached.after goalWellFormed ended .start limit schedules
  rw [List.nil_append] at reached
  obtain ⟨pushed, accounts, conserved⟩ := reached.accounts
  obtain ⟨expanded, children, leaves, reported, eager, branching⟩ := accounts
  -- All counters are zero at the beginning.
  simp only [RuleTally.sumWhere, List.filter_nil, List.map_nil, List.sum_nil,
    Std.HashSet.size_empty, Nat.zero_add, Nat.add_zero]
    at expanded children leaves reported eager branching
  refine ⟨stack, memory, after, ?_, leaves, reported, ?_, ?_⟩
  · rw [expanded, conserved, Nat.add_assoc, children]
  · rw [RuleTally.sumOver_table]
    exact eager
  · rw [RuleTally.sumOver_table]
    exact branching

theorem search_accounts_sampleCalls :
    ∃ goal, ((GoalBuilder.new Goal.sampleBackground {}).performAll
        Goal.sampleCalls).build = .ok goal ∧
      ∃ stack memory,
        Engine.after [fun _ => true, Engine.never]
            (RuleSearch.new goal 1) = .mk (.ofGoal goal) 1 stack memory ∧
        memory.stats.nodesExpanded + stack.length =
          1 + memory.stats.branchesCreated + memory.stats.refinements ∧
        memory.reported.size + memory.stats.repeatedLeaves =
          memory.stats.leaves := by
  obtain ⟨goal, built, _⟩ := Goal.exists_build_sampleCalls
  obtain ⟨stack, memory, after, conserved, _, reported, _⟩ :=
    search_accounts (.built built) 1 [fun _ => true, Engine.never]
  exact ⟨goal, built, stack, memory, after, conserved, reported⟩

end RuleSearch

end ConceptUnification
