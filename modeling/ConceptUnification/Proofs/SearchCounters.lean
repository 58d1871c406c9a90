import Mathlib.Algebra.Order.Ring.Nat
import ConceptUnification.RuleSearch

/-!
# Counters of the search

Saturation does nothing to the counters but record the eager rules that it
applies.  `Accounts` balances two states of the memory of a search against the
nodes that were expanded and pushed and the unifiers that were found between
them.  Balances add up, so each path through a round is put together from its
steps.
-/

namespace ConceptUnification

namespace SaturationM

variable {α β : Type}

/-- All that the computation does to the counters is to record eager rules. -/
def Records (computation : SaturationM α) : Prop :=
  ∀ stats, ∃ rules : List EagerRule,
    (computation.run.run stats).2 =
      rules.foldl (fun stats rule => stats.recordEager rule) stats

theorem Records.pure (a : α) : Records (Pure.pure a : SaturationM α) :=
  fun _ => ⟨[], rfl⟩

theorem Records.lift (result : Except NodeFailure α) :
    Records (liftM result : SaturationM α) :=
  fun _ => ⟨[], rfl⟩

theorem Records.recordEager (rule : EagerRule) :
    Records (modify (RuleStats.recordEager rule)) :=
  fun _ => ⟨[rule], rfl⟩

theorem Records.bind {computation : SaturationM α} {next : α → SaturationM β}
    (first : Records computation) (later : ∀ a, Records (next a)) :
    Records (computation >>= next) := by
  intro stats
  obtain ⟨rules, recorded⟩ := first stats
  simp only [ExceptT.run_bind, StateT.run_bind]
  cases outcome : computation.run.run stats with
  | mk result stats' =>
      rw [outcome] at recorded
      cases result with
      | error => exact ⟨rules, recorded⟩
      | ok a =>
          obtain ⟨rules', recorded'⟩ := later a stats'
          refine ⟨rules ++ rules', ?_⟩
          rw [List.foldl_append, ← recorded]
          exact recorded'

end SaturationM

namespace SearchNode

theorem records_sweep (store : AtomStore) (steps start : Nat)
    (node : SearchNode) (changed : Bool) :
    SaturationM.Records (node.sweep store steps start changed) := by
  induction steps generalizing start node changed with
  | zero => exact .pure _
  | succ steps induction =>
      unfold sweep
      split
      · exact .pure _
      · split
        · exact induction _ _ _
        · apply SaturationM.Records.bind (.lift _)
          intro answer
          cases answer with
          | none => exact induction _ _ _
          | some =>
              apply SaturationM.Records.bind (.recordEager _)
              intro _
              apply SaturationM.Records.bind (.lift _)
              intro next
              exact induction _ _ _

theorem records_saturateWithin (store : AtomStore) (capacity rounds : Nat)
    (node : SearchNode) :
    SaturationM.Records (node.saturateWithin store capacity rounds) := by
  induction rounds generalizing node with
  | zero => exact .pure _
  | succ rounds induction =>
      unfold saturateWithin
      apply SaturationM.Records.bind (records_sweep _ _ _ _ _)
      intro swept
      obtain ⟨next, changed⟩ := swept
      cases changed with
      | false => exact .pure _
      | true => exact induction _

end SearchNode

theorem Rule.mem_table (rule : Rule) : rule ∈ Rule.table := by
  cases rule with
  | eager rule => cases rule <;> decide
  | branching rule => cases rule <;> decide

/-- Rules are told apart by their names. -/
theorem Rule.text_injective {rule other : Rule}
    (same : rule.text = other.text) : rule = other := by
  have distinct : ∀ rule ∈ Rule.table, ∀ other ∈ Rule.table,
      rule.text = other.text → rule = other := by
    decide
  exact distinct rule rule.mem_table other other.mem_table same

namespace RuleTally

/-- The sum of the entries for some rules, as listed by name. -/
def sumOver (rules : List Rule) (tally : RuleTally) : Nat :=
  ((tally.byName.filter fun entry =>
    entry.1 ∈ rules.map Rule.text).map Prod.snd).sum

/-- The sum of the entries of rules with a property. -/
def sumWhere (p : Rule → Bool) (tally : RuleTally) : Nat :=
  ((tally.filter fun entry => p entry.1).map Prod.snd).sum

/-- Listing by name neither loses nor joins entries. -/
theorem sumOver_table (p : Rule → Bool) (tally : RuleTally) :
    tally.sumOver (Rule.table.filter p) = tally.sumWhere p := by
  have named : ∀ rule : Rule,
      rule.text ∈ (Rule.table.filter p).map Rule.text ↔ p rule = true := by
    intro rule
    simp only [List.mem_map, List.mem_filter]
    constructor
    · rintro ⟨other, ⟨_, chosen⟩, same⟩
      rwa [← Rule.text_injective same]
    · intro chosen
      exact ⟨rule, ⟨rule.mem_table, chosen⟩, rfl⟩
  have listed : tally.byName.Perm
      (tally.map fun entry => (entry.1.text, entry.2)) :=
    List.mergeSort_perm _ _
  rw [sumOver, ((listed.filter _).map _).sum_nat, List.filter_map,
    List.map_map]
  simp only [Function.comp_def, named, Bool.decide_eq_true]
  rfl

theorem sumWhere_record (p : Rule → Bool) (rule : Rule) (tally : RuleTally) :
    (tally.record rule).sumWhere p =
      tally.sumWhere p + if p rule then 1 else 0 := by
  induction tally with
  | nil => cases chosen : p rule <;> simp [record, sumWhere, chosen]
  | cons entry tally induction =>
      obtain ⟨other, count⟩ := entry
      unfold record
      by_cases same : other = rule
      · subst same
        cases chosen : p other <;> simp [sumWhere, chosen]
        omega
      · simp only [beq_eq_false_iff_ne.mpr same, Bool.false_eq_true, if_false]
        simp only [sumWhere] at induction
        cases chosen : p other <;>
          simp [sumWhere, chosen, induction, Nat.add_assoc]

end RuleTally

namespace SearchMemory

/-- How two states of the memory differ if some nodes were expanded, some
children were pushed and some unifiers were found between them. -/
structure Accounts (before after : SearchMemory)
    (expanded pushed found : Nat) : Prop where
  expanded : after.stats.nodesExpanded =
    before.stats.nodesExpanded + expanded
  pushed : after.stats.branchesCreated + after.stats.refinements =
    before.stats.branchesCreated + before.stats.refinements + pushed
  leaves : after.stats.leaves + before.stats.repeatedLeaves +
      before.stats.rejectedLeaves =
    before.stats.leaves + after.stats.repeatedLeaves +
      after.stats.rejectedLeaves + found
  reported : after.reported.size + after.stats.repeatedLeaves +
      before.stats.leaves =
    before.reported.size + before.stats.repeatedLeaves + after.stats.leaves
  eager : after.stats.eagerApplications +
      before.stats.ruleCounts.sumWhere Rule.isEager =
    before.stats.eagerApplications +
      after.stats.ruleCounts.sumWhere Rule.isEager
  branching : after.stats.branchesCreated +
      before.stats.ruleCounts.sumWhere (!·.isEager) =
    before.stats.branchesCreated +
      after.stats.ruleCounts.sumWhere (!·.isEager)

theorem Accounts.trans {first second third : SearchMemory}
    {expanded expanded' pushed pushed' found found' : Nat}
    (early : first.Accounts second expanded pushed found)
    (late : second.Accounts third expanded' pushed' found') :
    first.Accounts third (expanded + expanded') (pushed + pushed')
      (found + found') where
  expanded := by
    rw [late.expanded, early.expanded, Nat.add_assoc]
  pushed := by
    rw [late.pushed, early.pushed, Nat.add_assoc]
  leaves := by
    have := early.leaves
    have := late.leaves
    omega
  reported := by
    have := early.reported
    have := late.reported
    omega
  eager := by
    have := early.eager
    have := late.eager
    omega
  branching := by
    have := early.branching
    have := late.branching
    omega

/-- What concerns none of the balances leaves them as they are. -/
theorem Accounts.unrelated {before after : SearchMemory}
    (reported : after.reported = before.reported)
    (stats : ∃ failed skipped depth, after.stats =
      { before.stats with
        failedBranches := failed
        memoizedSkips := skipped
        maxStackDepth := depth }) :
    before.Accounts after 0 0 0 := by
  obtain ⟨failed, skipped, depth, same⟩ := stats
  constructor <;> rw [same] <;> simp [reported]

section Steps

variable (memory : SearchMemory)

/-- Recording eager rules keeps their balance. -/
theorem accounts_recordEager (rules : List EagerRule) :
    memory.Accounts
      { memory with
        stats := rules.foldl (fun stats rule => stats.recordEager rule)
          memory.stats } 0 0 0 := by
  induction rules generalizing memory with
  | nil => exact .unrelated rfl ⟨_, _, _, rfl⟩
  | cons rule rules induction =>
      have once : memory.Accounts
          { memory with stats := memory.stats.recordEager rule } 0 0 0 := by
        constructor <;>
          simp [RuleStats.recordEager, RuleTally.sumWhere_record, Rule.isEager]
        omega
      exact once.trans (induction _)

/-- Each recorded branch is a child that is pushed. -/
theorem accounts_recordBranch (created : List (BranchingRule × SearchNode)) :
    memory.Accounts
      { memory with
        stats := created.foldl (fun stats child => stats.recordBranch child.1)
          memory.stats } 0 created.length 0 := by
  induction created generalizing memory with
  | nil => exact .unrelated rfl ⟨_, _, _, rfl⟩
  | cons child created induction =>
      have once : memory.Accounts
          { memory with stats := memory.stats.recordBranch child.1 } 0 1 0 := by
        constructor <;>
          simp [RuleStats.recordBranch, RuleTally.sumWhere_record, Rule.isEager]
        all_goals omega
      rw [List.length_cons, Nat.add_comm created.length 1]
      exact once.trans (induction _)

/-- A leaf is repeated, rejected or found, and reported unless it is
repeated. -/
theorem accounts_reportLeaf (goal : Goal) (assignment : Assignment) :
    memory.Accounts (memory.reportLeaf goal assignment).2 0 0
      (memory.reportLeaf goal assignment).1.toList.length := by
  unfold reportLeaf
  by_cases known : memory.reported.contains assignment = true
  · simp only [count, known, if_true]
    constructor <;> simp
    all_goals omega
  · have fresh : assignment ∉ memory.reported := fun member =>
      known (Std.HashSet.mem_iff_contains.mp member)
    have grows : (memory.reported.insert assignment).size =
        memory.reported.size + 1 := by
      rw [Std.HashSet.size_insert, if_neg fresh]
    simp only [count, known]
    by_cases violates : (goal.hasNegative &&
        (Unifier.ofAssignment goal assignment).respectsNegative? goal !=
          some true) = true
    · rw [if_pos violates]
      constructor <;> simp [grows]
      all_goals omega
    · rw [if_neg violates]
      constructor <;> simp [grows]
      all_goals omega

theorem accounts_expandLeaf (space : SearchSpace) (node : SearchNode)
    (height : Nat) :
    memory.Accounts (memory.expandLeaf space node height).2 0
      (memory.expandLeaf space node height).1.children.length
      (memory.expandLeaf space node height).1.unifier.toList.length := by
  have refines : ∀ failures pushed depth : Nat,
      memory.Accounts ((memory.countFailures failures).count fun stats =>
        { stats with refinements := stats.refinements + pushed }.recordDepth
          depth) 0 pushed 0 := by
    intro failures pushed depth
    constructor <;> simp [count, countFailures, RuleStats.recordDepth]
    all_goals omega
  obtain ⟨counted, expands, pushes⟩ : ∃ counted : SearchMemory,
      memory.expandLeaf space node height =
        (⟨(space.refinements node).filterMap Except.toOption,
          (counted.reportLeaf space.goal node.assignment).1⟩,
        (counted.reportLeaf space.goal node.assignment).2) ∧
      memory.Accounts counted 0
        ((space.refinements node).filterMap Except.toOption).length 0 := by
    unfold expandLeaf
    exact ⟨_, rfl, refines _ _ _⟩
  have total := pushes.trans (accounts_reportLeaf counted space.goal
    node.assignment)
  simp only [Nat.zero_add, Nat.add_zero] at total
  rw [expands]
  exact total

theorem accounts_expandBranch (space : SearchSpace) (node : SearchNode)
    (position : Nat) (subsumption : FlatSubsumption) (height : Nat) :
    memory.Accounts
      (memory.expandBranch space node position subsumption height).2 0
      (memory.expandBranch space node position subsumption
        height).1.children.length
      (memory.expandBranch space node position subsumption
        height).1.unifier.toList.length := by
  have branches : ∀ (failures depth : Nat)
      (created : List (BranchingRule × SearchNode)),
      memory.Accounts ((memory.countFailures failures).count fun stats =>
        (created.foldl (fun stats child => stats.recordBranch child.1)
          stats).recordDepth depth) 0 created.length 0 := by
    intro failures depth created
    have fails : memory.Accounts (memory.countFailures failures) 0 0 0 :=
      .unrelated rfl ⟨_, _, _, rfl⟩
    have pushes := fails.trans (accounts_recordBranch _ created)
    have deepens : ∀ before : SearchMemory, before.Accounts
        (before.count fun stats => stats.recordDepth depth) 0 0 0 :=
      fun _ => .unrelated rfl ⟨_, _, _, rfl⟩
    have total := pushes.trans (deepens _)
    simp only [Nat.zero_add, Nat.add_zero] at total
    exact total
  unfold expandBranch
  split
  · exact .unrelated rfl ⟨_, _, _, rfl⟩
  · exact .unrelated rfl ⟨_, _, _, rfl⟩
  · rw [List.length_map]
    exact branches _ _ _

/-- A round expands one node.  Its children are counted as branches or as
refinements, and its unifier as a leaf. -/
theorem accounts_expand (space : SearchSpace) (node : SearchNode)
    (height : Nat) :
    memory.Accounts (memory.expand space node height).2 1
      (memory.expand space node height).1.children.length
      (memory.expand space node height).1.unifier.toList.length := by
  obtain ⟨rules, recorded⟩ := SearchNode.records_saturateWithin
    space.goal.store space.capacity (space.capacity + 1) node
    { memory.stats with nodesExpanded := memory.stats.nodesExpanded + 1 }
  unfold expand
  simp only [count, SearchNode.saturate]
  generalize (node.saturateWithin space.goal.store space.capacity
    (space.capacity + 1)).run.run _ = result at recorded ⊢
  obtain ⟨outcome, stats⟩ := result
  -- The counters after saturation, with the node that was taken.
  have saturates : memory.Accounts { memory with stats } 1 0 0 := by
    have taken : memory.Accounts
        (memory.count fun stats =>
          { stats with nodesExpanded := stats.nodesExpanded + 1 }) 1 0 0 := by
      constructor <;> simp [count]
    have eager := taken.trans (accounts_recordEager _ rules)
    simp only at recorded
    rw [recorded]
    exact eager
  have idle : ∀ after : SearchMemory,
      SearchMemory.Accounts { memory with stats } after 0 0 0 →
        memory.Accounts after 1 0 0 := fun _ rest => saturates.trans rest
  cases outcome with
  | error => exact idle _ (.unrelated rfl ⟨_, _, _, rfl⟩)
  | ok saturated =>
      by_cases old : memory.visited.contains saturated.key = true
      · simp only [old, if_true]
        exact idle _ (.unrelated rfl ⟨_, _, _, rfl⟩)
      · simp only [old]
        have remembers : memory.Accounts
            { memory with
              visited := memory.visited.insert saturated.key
              stats := stats } 1 0 0 :=
          idle _ (.unrelated rfl ⟨_, _, _, rfl⟩)
        cases saturated.firstPending? with
        | none =>
            have leaf := remembers.trans
              (accounts_expandLeaf _ space saturated height)
            simp only [Nat.zero_add, Nat.add_zero] at leaf
            exact leaf
        | some position =>
            cases found : saturated.obligations[position]? with
            | none =>
                simp only [found]
                exact remembers
            | some obligation =>
                simp only [found]
                have branch := remembers.trans (accounts_expandBranch _ space
                  saturated position obligation.subsumption height)
                simp only [Nat.zero_add, Nat.add_zero] at branch
                exact branch

end Steps

end SearchMemory

end ConceptUnification
