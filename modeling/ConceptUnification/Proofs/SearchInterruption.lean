import ConceptUnification.Proofs.SearchCounters
import ConceptUnification.Proofs.SearchTermination

/-!
# Interrupted searches

A request that is cancelled, or that uses up its steps, stops between two
rounds.  The stack and the memory that it leaves are those of an uninterrupted
search after the same rounds, so later requests go on from there, and nothing is
found twice or lost.  The counter of expanded nodes is the number of rounds.
-/

namespace ConceptUnification

namespace RuleSearch

section Reached

variable {goal : Goal} {rounds total : Nat} {found unifiers : List Unifier}
  {stack stack' : List SearchNode} {memory memory' final : SearchMemory}

/-- The state after some rounds is determined by their number. -/
theorem Reached.unique {found' : List Unifier}
    (first : Reached goal rounds found stack memory)
    (second : Reached goal rounds found' stack' memory') :
    found = found' ∧ stack = stack' ∧ memory = memory' := by
  induction first generalizing found' stack' memory' with
  | start =>
      cases second
      exact ⟨rfl, rfl, rfl⟩
  | round _ expands induction =>
      cases second with
      | round reached expands' =>
          obtain ⟨rfl, same, rfl⟩ := induction reached
          cases same
          rw [expands] at expands'
          cases expands'
          exact ⟨rfl, rfl, rfl⟩

/-- There are no rounds after the stack is empty. -/
theorem Reached.rounds_le (ended : Reached goal total unifiers [] final)
    (reached : Reached goal rounds found stack memory) : rounds ≤ total := by
  induction reached with
  | start => exact Nat.zero_le _
  | @round rounds found node rest memory after expansion reached _ induction =>
      apply Nat.succ_le_of_lt
      apply Nat.lt_of_le_of_ne induction
      intro same
      subst same
      cases (ended.unique reached).2.1

theorem Reached.found_eq (ended : Reached goal total unifiers [] final)
    (reached : Reached goal rounds found [] memory) : found = unifiers := by
  have same : rounds = total :=
    Nat.le_antisymm (ended.rounds_le reached) (reached.rounds_le ended)
  subst same
  exact (reached.unique ended).1

/-- A complete run from a state adds what it finds. -/
theorem Reached.finish (goalWellFormed : goal.WellFormed)
    (reached : Reached goal rounds found stack memory)
    (runs : Runs (.ofGoal goal) stack memory unifiers) :
    ∃ total final, Reached goal total (found ++ unifiers) [] final := by
  induction runs generalizing rounds found with
  | done =>
      rw [List.append_nil]
      exact ⟨_, _, reached⟩
  | step _ induction =>
      rw [← List.append_assoc]
      exact induction (reached.next goalWellFormed rfl)

/-- What the search still yields at a state completes what it found. -/
theorem Reached.yields (goalWellFormed : goal.WellFormed)
    (ended : Reached goal total unifiers [] final)
    (reached : Reached goal rounds found stack memory) :
    ∃ later, unifiers = found ++ later ∧
      Engine.Yields (RuleSearch.mk (.ofGoal goal) 0 stack memory) later := by
  obtain ⟨later, runs⟩ := exists_runs (.ofGoal goal) stack memory
  obtain ⟨total', final', ended'⟩ := reached.finish goalWellFormed runs
  exact ⟨later, ended'.found_eq ended, runs.yields⟩

theorem Reached.nodesExpanded
    (reached : Reached goal rounds found stack memory) :
    memory.stats.nodesExpanded = rounds := by
  induction reached with
  | start => rfl
  | @round rounds found node rest memory after expansion _ expands induction =>
      have counted := (memory.accounts_expand (.ofGoal goal) node
        rest.length).expanded
      rw [expands, induction] at counted
      exact counted

/-- Requests, interrupted or not, go through some rounds.  Each one that is not
cancelled at once goes through one at least, until there are no more rounds. -/
theorem Reached.after (goalWellFormed : goal.WellFormed)
    (ended : Reached goal total unifiers [] final)
    (reached : Reached goal rounds found stack memory) (limit : Nat)
    (schedules : List CancelSchedule) :
    ∃ rounds' stack' memory',
      Engine.after schedules (RuleSearch.mk (.ofGoal goal) limit stack memory) =
        .mk (.ofGoal goal) limit stack' memory' ∧
      Reached goal rounds' (found ++ Engine.returned (Engine.answers schedules
        (RuleSearch.mk (.ofGoal goal) limit stack memory))) stack' memory' ∧
      min total (rounds + schedules.countP fun cancelled => !cancelled 0) ≤
        rounds' := by
  induction schedules generalizing rounds found stack memory with
  | nil =>
      refine ⟨rounds, stack, memory, rfl, ?_, Nat.min_le_right _ _⟩
      rw [Engine.answers, Engine.returned_nil, List.append_nil]
      exact reached
  | cons cancelled schedules induction =>
      obtain ⟨⟨answer, stack', memory'⟩, resumed⟩ : ∃ result,
          RuleSearch.resume (.ofGoal goal) limit cancelled 0 stack memory =
            result := ⟨_, rfl⟩
      have answered : Engine.next cancelled
          (RuleSearch.mk (.ofGoal goal) limit stack memory) =
            (answer, .mk (.ofGoal goal) limit stack' memory') := by
        simp only [Engine.next, RuleSearch.next, resumed]
      obtain ⟨between, reached', more, progress⟩ :=
        reached.resume goalWellFormed resumed
      obtain ⟨rounds', stack'', memory'', after, reached'', enough⟩ :=
        induction reached'
      refine ⟨rounds', stack'', memory'', ?_, ?_, ?_⟩
      · rw [Engine.after_cons, answered]
        exact after
      · rw [Engine.answers, answered, Engine.returned_cons,
          ← List.append_assoc]
        exact reached''
      · have atEnd : stack = [] → total ≤ rounds := by
          intro empty
          subst empty
          exact reached.rounds_le ended
        rw [List.countP_cons]
        cases looked : cancelled 0 with
        | true =>
            simp only [Bool.not_true, Bool.false_eq_true, if_false]
            omega
        | false =>
            have advanced : stack ≠ [] → rounds < between :=
              progress looked (Nat.eq_zero_or_pos limit)
            simp only [Bool.not_false, if_true]
            by_cases empty : stack = []
            · have := atEnd empty
              omega
            · have := advanced empty
              omega

end Reached

/-- Interruptions are invisible.  Whatever the step limit and the cancel flags
of some requests are, the unifiers that they return begin what the uninterrupted
search yields, and the state after them is one that it passes through, from
which it yields the others.  A request that is not cancelled at once expands a
node if there is one, so enough of these requests return all unifiers. -/
theorem interruption_invisible {goal : Goal} (obtained : goal.Obtained) :
    ∃ unifiers enough, Engine.Yields (RuleSearch.new goal 0) unifiers ∧
      ∀ limit schedules, ∃ rounds stack memory later,
        Engine.after schedules (RuleSearch.new goal limit) =
          .mk (.ofGoal goal) limit stack memory ∧
        Reached goal rounds (Engine.returned (Engine.answers schedules
          (RuleSearch.new goal limit))) stack memory ∧
        unifiers = Engine.returned (Engine.answers schedules
          (RuleSearch.new goal limit)) ++ later ∧
        Engine.Yields (RuleSearch.mk (.ofGoal goal) 0 stack memory) later ∧
        (∀ cancelled : CancelSchedule, cancelled 0 = false → stack ≠ [] →
          memory.stats.nodesExpanded <
            (Engine.next cancelled (RuleSearch.mk (.ofGoal goal) limit stack
              memory)).2.memory.stats.nodesExpanded) ∧
        (enough ≤ schedules.countP (fun cancelled => !cancelled 0) →
          Engine.returned (Engine.answers schedules
            (RuleSearch.new goal limit)) = unifiers) := by
  have goalWellFormed := obtained.wellFormed
  obtain ⟨unifiers, runs⟩ := exists_runs (.ofGoal goal)
    [.ofSubsumptions goal.positiveSubsumptions] {}
  obtain ⟨total, final, ended⟩ := Reached.finish goalWellFormed .start runs
  rw [List.nil_append] at ended
  refine ⟨unifiers, total, runs.yields, ?_⟩
  intro limit schedules
  obtain ⟨rounds, stack, memory, after, reached, enough⟩ :=
    Reached.after goalWellFormed ended .start limit schedules
  rw [List.nil_append] at reached
  rw [Nat.zero_add] at enough
  obtain ⟨later, split, yields⟩ := ended.yields goalWellFormed reached
  refine ⟨rounds, stack, memory, later, after, reached, split, yields, ?_, ?_⟩
  · intro cancelled looked nonempty
    obtain ⟨⟨answer, stack', memory'⟩, resumed⟩ : ∃ result,
        resume (.ofGoal goal) limit cancelled 0 stack memory = result :=
      ⟨_, rfl⟩
    obtain ⟨rounds', reached', _, progress⟩ :=
      reached.resume goalWellFormed resumed
    have more := progress looked (Nat.eq_zero_or_pos limit) nonempty
    rw [← reached.nodesExpanded, ← reached'.nodesExpanded] at more
    simp only [Engine.next, next, resumed]
    exact more
  · intro many
    have same : rounds = total := by
      have bounded := ended.rounds_le reached
      omega
    subst same
    exact (reached.unique ended).1

theorem interruption_invisible_sampleCalls :
    ∃ goal, ((GoalBuilder.new Goal.sampleBackground {}).performAll
        Goal.sampleCalls).build = .ok goal ∧
      ∃ unifiers enough, Engine.Yields (RuleSearch.new goal 0) unifiers ∧
        Engine.returned (Engine.answers
          (List.replicate enough fun look => look != 0)
          (RuleSearch.new goal 1)) = unifiers ∧
        0 < (Engine.next (fun look => look != 0)
          (RuleSearch.new goal 1)).2.memory.stats.nodesExpanded := by
  obtain ⟨goal, built, _⟩ := Goal.exists_build_sampleCalls
  obtain ⟨unifiers, enough, yields, interrupted⟩ :=
    interruption_invisible (.built built)
  refine ⟨goal, built, unifiers, enough, yields, ?_, ?_⟩
  · obtain ⟨_, _, _, _, _, _, _, _, _, returned⟩ := interrupted 1
      (List.replicate enough fun look => look != 0)
    apply returned
    rw [List.countP_replicate]
    exact Nat.le_refl _
  · obtain ⟨_, stack, memory, _, start, _, _, _, progress, _⟩ :=
      interrupted 1 []
    cases start
    exact progress _ rfl (List.cons_ne_nil _ _)

end RuleSearch

end ConceptUnification
