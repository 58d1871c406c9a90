import ConceptUnification.Proofs.CycleCheck
import ConceptUnification.Proofs.EagerEffect
import ConceptUnification.Proofs.SearchTermination

/-!
# Confluence of saturation

Nodes with the same key hold the same obligations in different orders, and the
order decides which eager rule is applied when.  A saturated node that comes of
one of them bounds every run from the others: whatever such a run chooses is
chosen there, and whatever it learns is known there or can be solved at once.
So runs neither fail nor go further, and two saturated nodes bound each other.
-/

namespace ConceptUnification

namespace SearchNode

/-- A node on which saturation makes sense: the assignment is acyclic and of
non-variable atoms to variables, and all that is known is about stored atoms. -/
structure Saturable (store : AtomStore) (node : SearchNode) : Prop where
  acyclic : node.assignment.Acyclic store
  proper : node.assignment.Proper store
  stored : ∀ s ∈ node.known, store.Stores s.body ∧ s.head < store.size

/-- What eager steps keep of the node that they start from. -/
structure Follows (store : AtomStore) (start node : SearchNode) : Prop
    extends Saturable store node where
  refined : node.refined = start.refined
  within : start.assignment.Within node.assignment
  known : ∀ s ∈ start.known, s ∈ node.known
  bodies : ∀ s ∈ node.known, ∃ t ∈ start.known, s.body = t.body
  kept : ∀ s, start.Solved s → node.Solved s
  settled : ∀ s, node.Solved s → start.Solved s ∨ Settled store node s
  reopened : ∀ s, start.Solved s → ∀ atom,
    node.assignment.contains s.head atom = true →
      start.assignment.contains s.head atom = true ∨
        (⟨s.body, atom⟩ : FlatSubsumption) ∈ node.known

section Steps

variable {store : AtomStore} {start node after : SearchNode}
  {s : FlatSubsumption}

theorem Saturable.step (saturable : Saturable store node)
    (effect : EagerEffect store node after s) : Saturable store after := by
  have inKnown := mem_known_iff.mpr (.inr effect.pending)
  have proper :=
    effect.proper (saturable.stored s inKnown).2 saturable.proper
  refine ⟨effect.acyclic saturable.acyclic, proper, ?_⟩
  intro t member
  rcases effect.learned t member with
    old | ⟨_, body, chosen⟩ | ⟨u, solved, body, chosen, _⟩
  · exact saturable.stored t old
  · rw [body]
    exact ⟨(saturable.stored s inKnown).1,
      saturable.proper.stored _ _ chosen⟩
  · rw [body]
    exact ⟨(saturable.stored u (mem_known_iff.mpr (.inl solved))).1,
      proper.stored _ _ chosen⟩

theorem Follows.refl (saturable : Saturable store node) :
    Follows store node node where
  toSaturable := saturable
  refined := rfl
  within := fun _ _ => id
  known := fun _ => id
  bodies := fun s member => ⟨s, member, rfl⟩
  kept := fun _ => id
  settled := fun _ => .inl
  reopened := fun _ _ _ => .inl

/-- What was settled stays settled: later subsumers reopen what they have to. -/
theorem Settled.step (settled : Settled store node s) (solved : node.Solved s)
    {t : FlatSubsumption} (effect : EagerEffect store node after t) :
    Settled store after s := by
  cases settled with
  | conjunct member => exact .conjunct member
  | subsumer member varying chosen =>
      exact .subsumer member varying (effect.within _ _ chosen)
  | expansion varying expanded =>
      refine .expansion varying ?_
      intro atom inAfter
      rcases effect.reopened s solved atom inAfter with old | new
      · exact effect.known _ (expanded atom old)
      · exact new

theorem Follows.step (follows : Follows store start node)
    (effect : EagerEffect store node after s) :
    Follows store start after where
  toSaturable := follows.toSaturable.step effect
  refined := effect.refined.trans follows.refined
  within := fun x atom chosen =>
    effect.within x atom (follows.within x atom chosen)
  known := fun t member => effect.known t (follows.known t member)
  bodies := by
    intro t member
    rcases effect.learned t member with
      old | ⟨_, body, _⟩ | ⟨u, solved, body, _⟩
    · exact follows.bodies t old
    · rw [body]
      exact follows.bodies s (mem_known_iff.mpr (.inr effect.pending))
    · rw [body]
      exact follows.bodies u (mem_known_iff.mpr (.inl solved))
  kept := fun t solved => (effect.solved t).mpr (.inl (follows.kept t solved))
  settled := by
    intro t inAfter
    rcases (effect.solved t).mp inAfter with solved | rfl
    · rcases follows.settled t solved with old | settled
      · exact .inl old
      · exact .inr (settled.step solved effect)
    · exact .inr effect.settled
  reopened := by
    intro t solved atom inAfter
    rcases effect.reopened t (follows.kept t solved) atom inAfter with
      chosen | new
    · rcases follows.reopened t solved atom chosen with old | known
      · exact .inl old
      · exact .inr (effect.known _ known)
    · exact .inr new

theorem Follows.eagerStep (follows : Follows store start node)
    (step : EagerStep store node after) : Follows store start after := by
  obtain ⟨s, effect⟩ := step.effect follows.stored
  exact follows.step effect

theorem Follows.path (follows : Follows store start node)
    (path : Relation.ReflTransGen (EagerStep store) node after) :
    Follows store start after := by
  induction path with
  | refl => exact follows
  | tail _ step induction => exact induction.eagerStep step

/-- Nodes that follow a node hold few obligations: no step invents a body. -/
theorem eagerInvariant_follows {bodies : List AtomSet} {capacity : Nat}
    (covered : ∀ s ∈ start.known, s.body ∈ bodies)
    (enough : bodies.length * store.size ≤ capacity) :
    EagerInvariant store capacity (Follows store start) where
  size_le := by
    intro node follows
    have bounded : node.known.length ≤ bodies.length * store.size := by
      apply Goal.length_le_of_bodies node.nodup_known
      intro s member
      obtain ⟨t, inStart, same⟩ := follows.bodies s member
      rw [same]
      exact ⟨covered t inStart, (follows.stored s member).2⟩
    have size : node.known.length = node.obligations.size := by
      simp [SearchNode.known]
    omega
  stored := fun follows => follows.stored
  chosen := fun follows => follows.proper.stored
  step := fun follows step => follows.eagerStep step

end Steps

section Key

variable {store : AtomStore} {left right node : SearchNode}
  {s : FlatSubsumption}

theorem solved_iff_of_key (same : left.key = right.key) :
    left.Solved s ↔ right.Solved s :=
  (eq_of_key same).2.2.mem_iff

theorem mem_known_iff_of_key (same : left.key = right.key) :
    s ∈ left.known ↔ s ∈ right.known :=
  ((eq_of_key same).2.2.map Obligation.subsumption).mem_iff

theorem Saturable.of_key (saturable : Saturable store left)
    (same : left.key = right.key) : Saturable store right := by
  obtain ⟨assignments, _, _⟩ := eq_of_key same
  refine ⟨?_, ?_, ?_⟩
  · rw [← assignments]
    exact saturable.acyclic
  · rw [← assignments]
    exact saturable.proper
  · intro s member
    exact saturable.stored s ((mem_known_iff_of_key same).mpr member)

/-- What follows a node follows all nodes with the same key. -/
theorem Follows.of_key (follows : Follows store left node)
    (same : left.key = right.key) : Follows store right node := by
  obtain ⟨assignments, refined, _⟩ := eq_of_key same
  refine
    { toSaturable := follows.toSaturable
      refined := follows.refined.trans refined
      within := ?_
      known := ?_
      bodies := ?_
      kept := ?_
      settled := ?_
      reopened := ?_ }
  · rw [← assignments]
    exact follows.within
  · intro s member
    exact follows.known s ((mem_known_iff_of_key same).mpr member)
  · intro s member
    obtain ⟨t, inLeft, body⟩ := follows.bodies s member
    exact ⟨t, (mem_known_iff_of_key same).mp inLeft, body⟩
  · intro s solved
    exact follows.kept s ((solved_iff_of_key same).mpr solved)
  · intro s solved
    rw [← solved_iff_of_key same]
    exact follows.settled s solved
  · intro s solved
    rw [← assignments]
    exact follows.reopened s ((solved_iff_of_key same).mpr solved)

end Key

/-- The second node stays within what the first one chose and accounts for:
what it knows is known there, or could be settled there at once. -/
structure Confined (store : AtomStore) (final node : SearchNode) : Prop where
  within : node.assignment.Within final.assignment
  known : ∀ s ∈ node.known, s ∈ final.known ∨ Settled store final s

section Final

variable {store : AtomStore} {start final node after : SearchNode}
  {s : FlatSubsumption} (reached : Follows store start final)

include reached

theorem Follows.accounted
    (known : s ∈ final.known ∨ Settled store final s) :
    start.Solved s ∨ Settled store final s ∨ final.Awaits s := by
  rcases known with inFinal | settled
  · rcases mem_known_iff.mp inFinal with solved | awaits
    · rcases reached.settled s solved with old | settled
      · exact .inl old
      · exact .inr (.inl settled)
    · exact .inr (.inr awaits)
  · exact .inr (.inl settled)

/-- What awaits during a run was not solved before the first step. -/
theorem Confined.accounted (confined : Confined store final node)
    (follows : Follows store start node) (pending : node.Awaits s) :
    Settled store final s ∨ final.Awaits s := by
  have known := confined.known s (mem_known_iff.mpr (.inr pending))
  rcases reached.accounted known with old | accounted
  · exact ((follows.kept s old).not_awaits pending).elim
  · exact accounted

section Saturated

variable (saturated : final.Saturated store)

include saturated

theorem Follows.idle (awaits : final.Awaits s) :
    Idle store final.assignment s := by
  obtain ⟨position, found⟩ := exists_position awaits
  obtain ⟨body, head⟩ :=
    reached.stored s (mem_known_iff.mpr (.inr awaits))
  exact idle_of_firstEager? body head (saturated position _ found rfl)

/-- At a saturated node, a variable as head is expanded: what its subsumers
require is accounted for. -/
theorem Follows.expanded
    (accounted : Settled store final s ∨ final.Awaits s)
    (varying : store.isVariable s.head = true) {atom : AtomId}
    (chosen : final.assignment.contains s.head atom = true) :
    (⟨s.body, atom⟩ : FlatSubsumption) ∈ final.known ∨
      Settled store final ⟨s.body, atom⟩ := by
  rcases accounted with settled | awaits
  · cases settled with
    | conjunct member => exact .inr (.subsumer member varying chosen)
    | @subsumer x _ _ contrary =>
        cases varying.symm.trans (reached.proper.nonVariable x _ contrary)
    | expansion _ expanded => exact .inl (expanded atom chosen)
  · cases varying.symm.trans (reached.idle saturated awaits).nonVariable

section Run

variable (follows : Follows store start node)
  (confined : Confined store final node)

include follows confined

/-- What a run is made to choose was chosen by the saturated node. -/
theorem Confined.takes {x atom : AtomId} (pending : node.Awaits s)
    (takes : Takes store node.assignment s x atom) :
    final.assignment.contains x atom = true := by
  rw [takes.head]
  rcases confined.accounted reached follows pending with settled | awaits
  · cases settled with
    | conjunct member =>
        rcases takes.others s.head member with same | chosen
        · rw [← same] at takes
          cases takes.varying.symm.trans takes.nonVariable
        · exact confined.within x s.head chosen
    | @subsumer y member varying chosen =>
        -- All conjuncts but `x` are its subsumers, so `x` is the only variable.
        rcases takes.others y member with rfl | contrary
        · exact chosen
        · cases varying.symm.trans
            (follows.proper.nonVariable x y contrary)
    | expansion varying _ =>
        cases varying.symm.trans takes.nonVariable
  · obtain ⟨other, inBody, different, absent⟩ :=
      (reached.idle saturated awaits).uncovered x takes.member takes.varying
    rcases takes.others other inBody with same | chosen
    · exact (different same).elim
    · cases (confined.within x other chosen).symm.trans absent

theorem Confined.step (effect : EagerEffect store node after s) :
    Confined store final after := by
  have within : after.assignment.Within final.assignment := by
    intro x atom inAfter
    rcases effect.chosen x atom inAfter with old | takes
    · exact confined.within x atom old
    · exact confined.takes reached saturated follows effect.pending takes
  refine ⟨within, ?_⟩
  intro t member
  rcases effect.learned t member with
    old | ⟨varying, body, chosen⟩ | ⟨u, solved, body, chosen, fresh⟩
  · exact confined.known t old
  · obtain ⟨_, atom⟩ := t
    cases body
    exact reached.expanded saturated
      (confined.accounted reached follows effect.pending) varying
      (confined.within _ _ chosen)
  · obtain ⟨_, atom⟩ := t
    cases body
    -- The new subsumer reopens `u`.  The saturated node has that subsumer too,
    -- so it expanded `u` or, if `u` was solved at the start, reopened it.
    have known := confined.known u (mem_known_iff.mpr (.inl solved))
    rcases reached.accounted known with old | accounted
    · rcases reached.reopened u old atom (within _ _ chosen) with
        before | inFinal
      · cases (follows.within _ _ before).symm.trans fresh
      · exact .inl inFinal
    · exact reached.expanded saturated accounted
        ((follows.step effect).proper.variable_ _ _ chosen)
        (within _ _ chosen)

/-- No rule fails: what fails on the way would fail at the saturated node. -/
theorem Confined.not_failure : ¬ EagerFailure store node := by
  intro fails
  obtain ⟨position, ⟨s, _⟩, application, failure, found, rfl, proposal,
    applied⟩ := fails.proposal follows.stored
  have pending : node.Awaits s := mem_of_getElem? found
  cases proposal with
  | conjunct => cases applied
  | subsumer => cases applied
  | expansion => cases applied
  | failure headGround bodyGround absent =>
      have ground : ∀ atom ∈ s.head :: s.body.toList,
          store.isGround? atom = some true := by
        intro atom member
        rcases List.mem_cons.mp member with rfl | inBody
        · exact headGround
        · exact bodyGround atom inBody
      rcases confined.accounted reached follows pending with settled | awaits
      · cases settled with
        | conjunct member => exact absent member
        | subsumer member varying _ =>
            cases varying.symm.trans
              (AtomStore.not_isVariable_of_isGround? (bodyGround _ member))
        | expansion varying _ =>
            cases varying.symm.trans
              (AtomStore.not_isVariable_of_isGround? headGround)
      · exact (reached.idle saturated awaits).notGround ground
  | @extension x member varying nonVariable others =>
      have chosen := confined.takes reached saturated follows pending
        ⟨rfl, member, varying, nonVariable, others⟩
      -- A cycle would be one of the saturated node as well.
      have safe := Assignment.createsCycle?_of_acyclic reached.acyclic
        confined.within reached.proper.stored chosen
      obtain ⟨extended, success⟩ := extend_success_iff.mpr (.inr safe)
      simp only [apply, success, bind, Except.bind, pure,
        Except.pure] at applied
      cases applied

theorem Confined.path
    (path : Relation.ReflTransGen (EagerStep store) node after) :
    Follows store start after ∧ Confined store final after := by
  induction path with
  | refl => exact ⟨follows, confined⟩
  | tail _ step induction =>
      obtain ⟨follows, confined⟩ := induction
      obtain ⟨s, effect⟩ := step.effect follows.stored
      exact ⟨follows.step effect,
        confined.step reached saturated follows effect⟩

omit saturated in
/-- What awaits at a saturated node within another one with the same
assignment awaits at that one as well. -/
theorem Confined.awaits (same : node.assignment = final.assignment)
    (finished : node.Saturated store) (awaits : node.Awaits s) :
    final.Awaits s := by
  have idle := follows.idle finished awaits
  rcases confined.accounted reached follows awaits with settled | pending
  · exfalso
    cases settled with
    | conjunct member => exact idle.absent member
    | subsumer member varying chosen =>
        rw [← same] at chosen
        cases chosen.symm.trans (idle.unchosen _ member varying)
    | expansion varying _ =>
        cases varying.symm.trans idle.nonVariable
  · exact pending

end Run

end Saturated

end Final

/-- Two saturations agree: both find a conflict, or both end with the same
assignment, the same pending subsumptions and the same last refinement. -/
inductive Agree : Except NodeFailure SearchNode →
    Except NodeFailure SearchNode → Prop where
  | conflict : Agree (.error .conflict) (.error .conflict)
  | saturated {left right : SearchNode}
      (assignment : left.assignment = right.assignment)
      (pending : ∀ s, left.Awaits s ↔ right.Awaits s)
      (refined : left.refined = right.refined) : Agree (.ok left) (.ok right)

section Confluence

variable {store : AtomStore} {left right : SearchNode}

/-- A run from a node with the same key stays within a saturated node. -/
theorem confined_of_key (saturable : Saturable store left)
    (same : left.key = right.key) {final after : SearchNode}
    (path : Relation.ReflTransGen (EagerStep store) left final)
    (saturated : final.Saturated store)
    (other : Relation.ReflTransGen (EagerStep store) right after) :
    Follows store right final ∧ Follows store right after ∧
      Confined store final after := by
  have reached := ((Follows.refl saturable).path path).of_key same
  have begins : Confined store final right :=
    ⟨reached.within, fun s member => .inl (reached.known s member)⟩
  have follows := Follows.refl (saturable.of_key same)
  exact ⟨reached, begins.path reached saturated follows other⟩

/-- If saturation succeeds on a node, it does not fail on nodes with the same
key. -/
theorem not_failed_of_key (saturable : Saturable store left)
    (same : left.key = right.key) {final between : SearchNode}
    (path : Relation.ReflTransGen (EagerStep store) left final)
    (saturated : final.Saturated store)
    (other : Relation.ReflTransGen (EagerStep store) right between) :
    ¬ EagerFailure store between := by
  obtain ⟨reached, follows, confined⟩ :=
    confined_of_key saturable same path saturated other
  exact confined.not_failure reached saturated follows

/-- Saturated nodes that come of nodes with the same key bound each other. -/
theorem agree_of_saturated (saturable : Saturable store left)
    (same : left.key = right.key) {final final' : SearchNode}
    (path : Relation.ReflTransGen (EagerStep store) left final)
    (path' : Relation.ReflTransGen (EagerStep store) right final')
    (saturated : final.Saturated store)
    (saturated' : final'.Saturated store) : Agree (.ok final) (.ok final') := by
  obtain ⟨reached, follows', confined'⟩ :=
    confined_of_key saturable same path saturated path'
  obtain ⟨reached', follows, confined⟩ :=
    confined_of_key (saturable.of_key same) same.symm path' saturated' path
  have assignments : final.assignment = final'.assignment := by
    apply Assignment.eq_of_contains_iff
    intro x atom
    exact ⟨confined.within x atom, confined'.within x atom⟩
  refine .saturated assignments ?_ ?_
  · intro s
    constructor
    · exact confined.awaits reached' follows assignments saturated
    · exact confined'.awaits reached follows' assignments.symm saturated'
  · exact reached.refined.trans follows'.refined.symm

/-- What comes of saturating nodes with the same key agrees. -/
theorem agree_of_outcomes (saturable : Saturable store left)
    (same : left.key = right.key)
    {outcome outcome' : Except NodeFailure SearchNode}
    (saturates : left.Saturates store outcome)
    (saturates' : right.Saturates store outcome')
    (ends : SaturationOutcome store left outcome)
    (ends' : SaturationOutcome store right outcome') :
    Agree outcome outcome' := by
  cases ends with
  | saturated path saturated =>
      cases ends' with
      | saturated path' saturated' =>
          exact agree_of_saturated saturable same path path' saturated
            saturated'
      | failed path' fails =>
          exact (not_failed_of_key saturable same path saturated path'
            fails).elim
  | failed path fails =>
      cases ends' with
      | saturated path' saturated' =>
          exact (not_failed_of_key (saturable.of_key same) same.symm path'
            saturated' path fails).elim
      | failed =>
          cases saturates.error_eq rfl
          cases saturates'.error_eq rfl
          exact .conflict

/-- Saturation is confluent.  On nodes with the same key, whatever the order of
their obligations, it comes to an end, and the outcomes agree.  They are the
computed ones for every capacity that leaves room for the known bodies with
all heads. -/
theorem saturation_confluent (same : left.key = right.key)
    (acyclic : left.assignment.Acyclic store)
    (proper : left.assignment.Proper store)
    (stored : ∀ s ∈ left.known, store.Stores s.body ∧ s.head < store.size) :
    ∃ outcome outcome', Agree outcome outcome' ∧
      left.Saturates store outcome ∧ right.Saturates store outcome' ∧
      ∀ (bodies : List AtomSet) (capacity : Nat),
        (∀ s ∈ left.known, s.body ∈ bodies) →
        bodies.length * store.size ≤ capacity →
        ∀ stats,
          ((left.saturate store capacity).run.run stats).1 = outcome ∧
          ((right.saturate store capacity).run.run stats).1 = outcome' := by
  have saturable : Saturable store left := ⟨acyclic, proper, stored⟩
  have begins := Follows.refl saturable
  have begins' := Follows.refl (saturable.of_key same)
  have invariants : ∀ (bodies : List AtomSet) (capacity : Nat),
      (∀ s ∈ left.known, s.body ∈ bodies) →
      bodies.length * store.size ≤ capacity →
      EagerInvariant store capacity (Follows store left) ∧
        EagerInvariant store capacity (Follows store right) := by
    intro bodies capacity covered enough
    refine ⟨eagerInvariant_follows covered enough,
      eagerInvariant_follows ?_ enough⟩
    intro s member
    exact covered s ((mem_known_iff_of_key same).mpr member)
  obtain ⟨invariant, invariant'⟩ := invariants (left.known.map (·.body)) _
    (fun s member => List.mem_map_of_mem member) (Nat.le_refl _)
  have saturates := (invariant.saturates_iff begins {}).mpr rfl
  have saturates' := (invariant'.saturates_iff begins' {}).mpr rfl
  have ends := invariant.saturateWithin_outcome _ begins
    (Nat.lt_of_lt_of_le (Nat.lt_succ_self _) (Nat.le_add_right _ _)) {}
  have ends' := invariant'.saturateWithin_outcome _ begins'
    (Nat.lt_of_lt_of_le (Nat.lt_succ_self _) (Nat.le_add_right _ _)) {}
  refine ⟨_, _, agree_of_outcomes saturable same saturates saturates' ends
    ends', saturates, saturates', ?_⟩
  intro bodies capacity covered enough stats
  obtain ⟨other, other'⟩ := invariants bodies capacity covered enough
  exact ⟨(other.saturates_iff begins stats).mp saturates,
    (other'.saturates_iff begins' stats).mp saturates'⟩

/-- `X ⊑ ∃r.Z` and `Y ⊑ X` are saturated in two orders.  Whether `Y ⊑ X` is
expanded before or after `X` takes its subsumer, the outcomes agree. -/
theorem saturation_confluent_chainStore :
    let expanding : FlatSubsumption := ⟨{1}, 0⟩
    let taking : FlatSubsumption := ⟨{0}, 5⟩
    let early := ofSubsumptions [expanding, taking]
    let late := ofSubsumptions [taking, expanding]
    early.key = late.key ∧
      Agree
        ((early.saturate Assignment.chainStore 12).run.run {}).1
        ((late.saturate Assignment.chainStore 12).run.run {}).1 := by
  intro expanding taking early late
  have same : early.key = late.key := by
    apply key_ofSubsumptions
    intro s
    exact (List.Perm.swap taking expanding []).mem_iff
  have stored : ∀ s ∈ early.known, Assignment.chainStore.Stores s.body ∧
      s.head < Assignment.chainStore.size := by
    have listed : ∀ s ∈ [expanding, taking],
        (∀ atom ∈ s.body.toList, atom < Assignment.chainStore.size) ∧
          s.head < Assignment.chainStore.size := by
      decide +kernel
    intro s member
    exact listed s (known_ofSubsumptions.mp member)
  obtain ⟨outcome, outcome', agree, -, -, computed⟩ :=
    saturation_confluent same
      (by rw [assignment_ofSubsumptions]; exact .empty)
      (by rw [assignment_ofSubsumptions]; exact .empty) stored
  obtain ⟨left, right⟩ := computed [{1}, {0}] 12
    (by
      intro s member
      rcases List.mem_pair.mp (known_ofSubsumptions.mp member) with rfl | rfl
      · exact List.mem_cons_self
      · exact List.mem_cons_of_mem _ List.mem_cons_self)
    (by decide +kernel) {}
  rw [left, right]
  exact ⟨same, agree⟩

end Confluence

end SearchNode

end ConceptUnification
