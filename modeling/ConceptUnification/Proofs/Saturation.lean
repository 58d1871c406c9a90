import Mathlib.Logic.Relation
import ConceptUnification.Proofs.RuleApplication

/-!
# Saturation by eager rules

A sweep takes eager steps, and reports a change exactly when it took one.
Since each step solves an obligation, the sweeps of `SearchNode.saturate` end
with a node to which no eager rule applies, or fail at a node that eager steps
lead to.
-/

namespace ConceptUnification

namespace SaturationM

/-- Whatever the counters are, the outcome satisfies the postcondition. -/
def Ensures {α : Type} (computation : SaturationM α)
    (post : Except NodeFailure α → Prop) : Prop :=
  ∀ stats, post (computation.run.run stats).1

variable {α β : Type}

theorem Ensures.pure {a : α} {post : Except NodeFailure α → Prop}
    (holds : post (.ok a)) : Ensures (Pure.pure a) post :=
  fun _ => holds

theorem Ensures.bind {computation : SaturationM α} {next : α → SaturationM β}
    {post : Except NodeFailure β → Prop}
    (first : Ensures computation fun
      | .ok a => Ensures (next a) post
      | .error failure => post (.error failure)) :
    Ensures (computation >>= next) post := by
  intro stats
  have outcome := first stats
  have unfolded : (computation >>= next).run.run stats =
      match computation.run.run stats with
      | (.ok a, stats) => (next a).run.run stats
      | (.error failure, stats) => (.error failure, stats) := by
    simp only [ExceptT.run_bind, StateT.run_bind]
    cases outcome : computation.run.run stats with
    | mk result stats =>
        cases result <;> rfl
  rw [unfolded]
  cases result : computation.run.run stats with
  | mk found stats' =>
      rw [result] at outcome
      cases found with
      | ok a => exact outcome stats'
      | error failure => exact outcome

theorem Ensures.lift {result : Except NodeFailure α}
    {post : Except NodeFailure α → Prop} (holds : post result) :
    Ensures (liftM result) post :=
  fun _ => holds

theorem Ensures.modify {change : RuleStats → RuleStats}
    {post : Except NodeFailure PUnit → Prop} (holds : post (.ok ⟨⟩)) :
    Ensures (modify change) post :=
  fun _ => holds

end SaturationM

namespace SearchNode

/-- One application of an eager rule to a pending obligation. -/
def EagerStep (store : AtomStore) (node after : SearchNode) : Prop :=
  ∃ (position : Nat) (obligation : Obligation) (rule : EagerRule)
    (application : Application),
    node.obligations[position]? = some obligation ∧
      obligation.solved = false ∧
      firstEager? obligation.subsumption node.assignment store
        Rule.eagerRules = .ok (some (rule, application)) ∧
      node.apply store position application = .ok after

/-- The eager rule for a pending obligation fails. -/
def EagerFailure (store : AtomStore) (node : SearchNode) : Prop :=
  ∃ (position : Nat) (obligation : Obligation),
    node.obligations[position]? = some obligation ∧
      obligation.solved = false ∧
      ((∃ failure, firstEager? obligation.subsumption node.assignment store
          Rule.eagerRules = .error failure) ∨
        ∃ rule application failure,
          firstEager? obligation.subsumption node.assignment store
            Rule.eagerRules = .ok (some (rule, application)) ∧
          node.apply store position application = .error failure)

section Proposals

variable {store : AtomStore} {node after : SearchNode}
  (stored : ∀ s ∈ node.known, store.Stores s.body ∧ s.head < store.size)

include stored

/-- A step applies what an eager rule proposes. -/
theorem EagerStep.proposal (step : EagerStep store node after) :
    ∃ (position : Nat) (obligation : Obligation) (application : Application),
      node.obligations[position]? = some obligation ∧
        obligation.solved = false ∧
        EagerProposal store node.assignment obligation.subsumption
          application ∧
        node.apply store position application = .ok after := by
  obtain ⟨position, obligation, rule, application, found, pending, tried,
    applied⟩ := step
  obtain ⟨body, head⟩ := stored _ (mem_known_of_mem (mem_of_getElem? found))
  exact ⟨position, obligation, application, found, pending,
    proposal_of_firstEager? body head tried, applied⟩

/-- A failure is one of what an eager rule proposes. -/
theorem EagerFailure.proposal (fails : EagerFailure store node) :
    ∃ (position : Nat) (obligation : Obligation) (application : Application)
        (failure : NodeFailure),
      node.obligations[position]? = some obligation ∧
        obligation.solved = false ∧
        EagerProposal store node.assignment obligation.subsumption
          application ∧
        node.apply store position application = .error failure := by
  obtain ⟨position, obligation, found, pending, fails⟩ := fails
  obtain ⟨body, head⟩ := stored _ (mem_known_of_mem (mem_of_getElem? found))
  rcases fails with ⟨failure, tried⟩ | ⟨rule, application, failure, tried,
    applied⟩
  · obtain ⟨answer, answered, _⟩ :=
      firstEager?_eq_ok node.assignment Rule.eagerRules body head
    cases tried.symm.trans answered
  · exact ⟨position, obligation, application, failure, found, pending,
      proposal_of_firstEager? body head tried, applied⟩

end Proposals

/-- No eager rule applies to a pending obligation at a position. -/
def IdleAt (store : AtomStore) (node : SearchNode) (position : Nat) : Prop :=
  ∀ obligation, node.obligations[position]? = some obligation →
    obligation.solved = false →
      firstEager? obligation.subsumption node.assignment store
        Rule.eagerRules = .ok none

/-- What may come of a sweep over some positions. -/
inductive SweepOutcome (store : AtomStore) (node : SearchNode)
    (start steps : Nat) (changed : Bool) :
    Except NodeFailure (SearchNode × Bool) → Prop where
  | idle (idle : ∀ position, start ≤ position → position < start + steps →
        node.IdleAt store position) :
      SweepOutcome store node start steps changed (.ok (node, changed))
  | stepped {after : SearchNode}
      (path : Relation.TransGen (EagerStep store) node after) :
      SweepOutcome store node start steps changed (.ok (after, true))
  | failed {between : SearchNode} {failure : NodeFailure}
      (path : Relation.ReflTransGen (EagerStep store) node between)
      (fails : EagerFailure store between) :
      SweepOutcome store node start steps changed (.error failure)

/-- A position that offers nothing to an eager rule can be passed over. -/
theorem SweepOutcome.pass {store : AtomStore} {node : SearchNode}
    {start steps : Nat} {changed : Bool}
    {outcome : Except NodeFailure (SearchNode × Bool)}
    (later : SweepOutcome store node (start + 1) steps changed outcome)
    (idleHere : node.IdleAt store start) :
    SweepOutcome store node start (steps + 1) changed outcome := by
  cases later with
  | idle idle =>
      refine .idle fun position lower upper => ?_
      rcases Nat.eq_or_lt_of_le lower with rfl | beyond
      · exact idleHere
      · exact idle position beyond (by omega)
  | stepped path => exact .stepped path
  | failed path fails => exact .failed path fails

/-- The rest of a sweep after an eager step. -/
theorem SweepOutcome.step {store : AtomStore} {node next : SearchNode}
    {start start' steps steps' : Nat} {changed : Bool}
    {outcome : Except NodeFailure (SearchNode × Bool)}
    (later : SweepOutcome store next start' steps' true outcome)
    (step : EagerStep store node next) :
    SweepOutcome store node start steps changed outcome := by
  cases later with
  | idle => exact .stepped (.single step)
  | stepped path => exact .stepped (.head step path)
  | failed path fails => exact .failed (.head step path) fails

theorem sweep_outcome (store : AtomStore) (steps start : Nat)
    (node : SearchNode) (changed : Bool) :
    SaturationM.Ensures (node.sweep store steps start changed)
      (SweepOutcome store node start steps changed) := by
  induction steps generalizing start node changed with
  | zero =>
      rw [sweep]
      exact .pure (.idle fun position lower upper => by omega)
  | succ steps induction =>
      unfold sweep
      split
      · next absent =>
          refine .pure (.idle fun position lower _ obligation found => ?_)
          have outside := Array.getElem?_eq_none_iff.mp absent
          have inside := (Array.getElem?_eq_some_iff.mp found).1
          omega
      · next obligation found =>
          split
          · next solved =>
              intro stats
              refine (induction (start + 1) node changed stats).pass ?_
              intro other found' pending
              rw [found] at found'
              cases found'
              rw [solved] at pending
              cases pending
          · next unsolved =>
              have pending : obligation.solved = false := by
                simpa using unsolved
              refine .bind (.lift ?_)
              cases tried : firstEager? obligation.subsumption
                  node.assignment store Rule.eagerRules with
              | error failure =>
                  exact .failed .refl
                    ⟨start, obligation, found, pending, .inl ⟨failure, tried⟩⟩
              | ok answer =>
                  cases answer with
                  | none =>
                      intro stats
                      refine (induction (start + 1) node changed stats).pass ?_
                      intro other found' _
                      rw [found] at found'
                      cases found'
                      exact tried
                  | some proposal =>
                      obtain ⟨rule, application⟩ := proposal
                      refine .bind (.modify (.bind (.lift ?_)))
                      cases applied : node.apply store start application with
                      | error failure =>
                          exact .failed .refl ⟨start, obligation, found,
                            pending, .inr ⟨rule, application, failure, tried,
                              applied⟩⟩
                      | ok next =>
                          intro stats
                          exact (induction (start + 1) next true stats).step
                            ⟨start, obligation, rule, application, found,
                              pending, tried, applied⟩

/-- No eager rule applies to any pending obligation. -/
def Saturated (store : AtomStore) (node : SearchNode) : Prop :=
  ∀ position, node.IdleAt store position

/-- What may come of saturating a node. -/
inductive SaturationOutcome (store : AtomStore) (node : SearchNode) :
    Except NodeFailure SearchNode → Prop where
  | saturated {after : SearchNode}
      (path : Relation.ReflTransGen (EagerStep store) node after)
      (saturated : after.Saturated store) :
      SaturationOutcome store node (.ok after)
  | failed {between : SearchNode} {failure : NodeFailure}
      (path : Relation.ReflTransGen (EagerStep store) node between)
      (fails : EagerFailure store between) :
      SaturationOutcome store node (.error failure)

theorem SaturationOutcome.after {store : AtomStore} {node next : SearchNode}
    {outcome : Except NodeFailure SearchNode}
    (later : SaturationOutcome store next outcome)
    (path : Relation.ReflTransGen (EagerStep store) node next) :
    SaturationOutcome store node outcome := by
  cases later with
  | saturated path' saturated => exact .saturated (path.trans path') saturated
  | failed path' fails => exact .failed (path.trans path') fails

/-- An eager step solves exactly one obligation. -/
theorem EagerStep.solvedCount {store : AtomStore} {node after : SearchNode}
    (step : EagerStep store node after) :
    after.solvedCount = node.solvedCount + 1 := by
  obtain ⟨position, obligation, rule, application, found, pending, _,
    applied⟩ := step
  exact solvedCount_apply found pending applied

/-- A sweep that changes a node solves some obligation. -/
theorem solvedCount_lt_of_path {store : AtomStore} {node after : SearchNode}
    (path : Relation.TransGen (EagerStep store) node after) :
    node.solvedCount < after.solvedCount := by
  induction path with
  | single step =>
      rw [step.solvedCount]
      exact Nat.lt_succ_self _
  | tail _ step induction =>
      rw [step.solvedCount]
      exact Nat.lt_succ_of_lt induction

/-- A property of nodes that eager steps keep and under which saturation
answers: there are no more obligations than the capacity, and all of them are
about stored atoms. -/
structure EagerInvariant (store : AtomStore) (capacity : Nat)
    (holds : SearchNode → Prop) : Prop where
  size_le : ∀ {node}, holds node → node.obligations.size ≤ capacity
  stored : ∀ {node}, holds node → ∀ s ∈ node.known,
    store.Stores s.body ∧ s.head < store.size
  chosen : ∀ {node}, holds node → node.assignment.Known store
  step : ∀ {node after}, holds node → EagerStep store node after → holds after

section EagerInvariant

variable {store : AtomStore} {capacity : Nat} {holds : SearchNode → Prop}
  (invariant : EagerInvariant store capacity holds) {node after : SearchNode}

include invariant

theorem EagerInvariant.path (start : holds node)
    (path : Relation.ReflTransGen (EagerStep store) node after) :
    holds after := by
  induction path with
  | refl => exact start
  | tail _ step induction => exact invariant.step induction step

/-- Enough rounds reach a saturated node or a failure. -/
theorem EagerInvariant.saturateWithin_outcome (rounds : Nat)
    (start : holds node) (enough : capacity < rounds + node.solvedCount) :
    SaturationM.Ensures (node.saturateWithin store capacity rounds)
      (SaturationOutcome store node) := by
  induction rounds generalizing node with
  | zero =>
      have few := node.solvedCount_le
      have bounded := invariant.size_le start
      omega
  | succ rounds induction =>
      unfold saturateWithin
      refine .bind fun stats => ?_
      have swept := sweep_outcome store capacity 0 node false stats
      generalize ((node.sweep store capacity 0 false).run.run stats).1 =
        outcome at swept ⊢
      cases swept with
      | idle idle =>
          refine .pure (.saturated .refl ?_)
          intro position obligation found
          have inside := (Array.getElem?_eq_some_iff.mp found).1
          have bounded := invariant.size_le start
          exact idle position (Nat.zero_le _) (by omega) obligation found
      | @stepped next path =>
          have reached := path.to_reflTransGen
          have more := solvedCount_lt_of_path path
          intro stats'
          exact (induction (invariant.path start reached) (by omega)
            stats').after reached
      | failed path fails => exact .failed path fails

end EagerInvariant

variable {goal : Goal} {node after : SearchNode}

theorem EagerStep.progress (goalWellFormed : goal.WellFormed)
    (wellFormed : node.WellFormed goal)
    (step : EagerStep goal.store node after) : Progress goal node after := by
  obtain ⟨position, obligation, application, found, pending, proposal,
    applied⟩ := step.proposal (wellFormed.stored goalWellFormed)
  exact progress_eager wellFormed found pending proposal applied

/-- The invariant of the nodes of a search is one that saturation keeps. -/
theorem eagerInvariant_wellFormed (goalWellFormed : goal.WellFormed) :
    EagerInvariant goal.store (SearchSpace.capacityOf goal)
      (WellFormed goal) where
  size_le := WellFormed.size_le
  stored := fun wellFormed => wellFormed.stored goalWellFormed
  chosen := fun wellFormed => wellFormed.proper.stored
  step := fun wellFormed step =>
    (step.progress goalWellFormed wellFormed).wellFormed

/-- What any number of eager steps achieves. -/
structure Advances (goal : Goal) (node after : SearchNode) : Prop where
  wellFormed : after.WellFormed goal
  refined : after.refined = node.refined
  weight_le : ∀ candidates,
    after.weight (SearchSpace.capacityOf goal) candidates ≤
      node.weight (SearchSpace.capacityOf goal) candidates
  within : node.assignment.Within after.assignment

theorem Advances.refl (wellFormed : node.WellFormed goal) :
    Advances goal node node where
  wellFormed := wellFormed
  refined := rfl
  weight_le := fun _ => Nat.le_refl _
  within := fun _ _ => id

theorem Advances.step {between : SearchNode}
    (advances : Advances goal node between)
    (progress : Progress goal between after) : Advances goal node after where
  wellFormed := progress.wellFormed
  refined := progress.refined.trans advances.refined
  weight_le := fun candidates => Nat.le_trans
    (Nat.le_of_lt (progress.lighter candidates)) (advances.weight_le candidates)
  within := fun x atom chosen =>
    progress.within x atom (advances.within x atom chosen)

theorem advances_of_path (goalWellFormed : goal.WellFormed)
    (wellFormed : node.WellFormed goal)
    (path : Relation.ReflTransGen (EagerStep goal.store) node after) :
    Advances goal node after := by
  induction path with
  | refl => exact .refl wellFormed
  | tail _ step induction =>
      exact induction.step (step.progress goalWellFormed induction.wellFormed)

/-- Saturating ends at a saturated node, or fails at a node that eager steps
lead to. -/
theorem saturate_outcome (goalWellFormed : goal.WellFormed)
    (wellFormed : node.WellFormed goal) (stats : RuleStats) :
    SaturationOutcome goal.store node
      ((node.saturate goal.store
        (SearchSpace.capacityOf goal)).run.run stats).1 :=
  (eagerInvariant_wellFormed goalWellFormed).saturateWithin_outcome _
    wellFormed (by omega) stats

end SearchNode

end ConceptUnification
