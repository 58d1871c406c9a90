import ConceptUnification.Proofs.Saturation

/-!
# Effect of an eager step

What an eager step does to a node, whatever rule it applies: one pending
subsumption becomes solved, at most one subsumer is chosen, and everything that
becomes known comes from an expansion or from a subsumption that the new
subsumer reopens.
-/

namespace ConceptUnification

namespace SearchNode

/-- The subsumption is known and marked as solved. -/
def Solved (node : SearchNode) (s : FlatSubsumption) : Prop :=
  ⟨s, true⟩ ∈ node.obligations.toList

/-- The subsumption is known and not solved yet. -/
def Awaits (node : SearchNode) (s : FlatSubsumption) : Prop :=
  ⟨s, false⟩ ∈ node.obligations.toList

section States

variable {node before after : SearchNode} {s t : FlatSubsumption}
  {news : List FlatSubsumption}

theorem mem_known_iff : s ∈ node.known ↔ node.Solved s ∨ node.Awaits s := by
  rw [known, List.mem_map]
  constructor
  · intro member
    obtain ⟨⟨_, solved⟩, inObligations, rfl⟩ := member
    cases solved with
    | true => exact .inl inObligations
    | false => exact .inr inObligations
  · intro states
    rcases states with solved | pending
    · exact ⟨_, solved, rfl⟩
    · exact ⟨_, pending, rfl⟩

theorem Solved.not_awaits (solved : node.Solved s) : ¬ node.Awaits s := by
  intro pending
  have same := List.inj_on_of_nodup_map node.nodup_known solved pending rfl
  cases same

theorem exists_position (pending : node.Awaits s) :
    ∃ position : Nat, node.obligations[position]? = some ⟨s, false⟩ := by
  obtain ⟨position, found⟩ := List.mem_iff_getElem?.mp pending
  rw [Array.getElem?_toList] at found
  exact ⟨position, found⟩

/-- What was acquired is pending. -/
theorem Acquires.solved_iff (acquires : Acquires before after news) :
    after.Solved s ↔ before.Solved s := by
  obtain ⟨fresh, appended, pending⟩ := acquires.appended
  rw [Solved, Solved, appended, List.mem_append]
  constructor
  · intro member
    rcases member with old | new
    · exact old
    · cases (pending _ new).1
  · exact .inl

theorem solved_markSolved {position : Nat} {solved : Bool}
    (found : node.obligations[position]? = some ⟨s, solved⟩) :
    (node.markSolved position).Solved t ↔ node.Solved t ∨ t = s := by
  obtain ⟨before, after, split, marked⟩ := exists_split found
  rw [Solved, Solved, split, marked]
  simp only [List.mem_append, List.mem_cons, Obligation.mk.injEq, and_true]
  constructor
  · intro member
    rcases member with early | rfl | late
    · exact .inl (.inl early)
    · exact .inr rfl
    · exact .inl (.inr (.inr late))
  · intro member
    rcases member with (early | ⟨rfl, _⟩ | late) | rfl
    · exact .inl early
    · exact .inr (.inl rfl)
    · exact .inr (.inr late)
    · exact .inr (.inl rfl)

end States

/-- Why an eager rule solved a subsumption. -/
inductive Settled (store : AtomStore) (node : SearchNode)
    (s : FlatSubsumption) : Prop where
  | conjunct (member : s.head ∈ s.body)
  | subsumer {x : AtomId} (member : x ∈ s.body)
      (varying : store.isVariable x = true)
      (chosen : node.assignment.contains x s.head = true)
  | expansion (varying : store.isVariable s.head = true)
      (expanded : ∀ atom, node.assignment.contains s.head atom = true →
        (⟨s.body, atom⟩ : FlatSubsumption) ∈ node.known)

/-- The subsumption makes a variable of its body take the head: every other
conjunct is a subsumer of the variable. -/
structure Takes (store : AtomStore) (assignment : Assignment)
    (s : FlatSubsumption) (x atom : AtomId) : Prop where
  head : atom = s.head
  member : x ∈ s.body
  varying : store.isVariable x = true
  nonVariable : store.isVariable s.head = false
  others : ∀ other ∈ s.body,
    other = x ∨ assignment.contains x other = true

/-- What an eager step that solves a subsumption does. -/
structure EagerEffect (store : AtomStore) (node after : SearchNode)
    (s : FlatSubsumption) : Prop where
  pending : node.Awaits s
  refined : after.refined = node.refined
  solved : ∀ t, after.Solved t ↔ node.Solved t ∨ t = s
  known : ∀ t ∈ node.known, t ∈ after.known
  within : node.assignment.Within after.assignment
  acyclic : node.assignment.Acyclic store → after.assignment.Acyclic store
  chosen : ∀ x atom, after.assignment.contains x atom = true →
    node.assignment.contains x atom = true ∨
      Takes store node.assignment s x atom
  learned : ∀ t ∈ after.known, t ∈ node.known ∨
    (store.isVariable s.head = true ∧ t.body = s.body ∧
      node.assignment.contains s.head t.head = true) ∨
    ∃ u, node.Solved u ∧ t.body = u.body ∧
      after.assignment.contains u.head t.head = true ∧
      node.assignment.contains u.head t.head = false
  settled : Settled store after s
  reopened : ∀ t, node.Solved t → ∀ atom,
    after.assignment.contains t.head atom = true →
      node.assignment.contains t.head atom = true ∨
        (⟨t.body, atom⟩ : FlatSubsumption) ∈ after.known

section Effect

variable {store : AtomStore} {node after : SearchNode}
  {s : FlatSubsumption} {position : Nat}

theorem EagerEffect.proper (effect : EagerEffect store node after s)
    (head : s.head < store.size) (proper : node.assignment.Proper store) :
    after.assignment.Proper store where
  variable_ := by
    intro x atom chosen
    rcases effect.chosen x atom chosen with old | takes
    · exact proper.variable_ x atom old
    · exact takes.varying
  stored := by
    intro x atom chosen
    rcases effect.chosen x atom chosen with old | takes
    · exact proper.stored x atom old
    · rw [takes.head]
      exact head
  nonVariable := by
    intro x atom chosen
    rcases effect.chosen x atom chosen with old | takes
    · exact proper.nonVariable x atom old
    · rw [takes.head]
      exact takes.nonVariable

/-- A step that chooses nothing. -/
theorem effect_of_acquires {between : SearchNode}
    {news : List FlatSubsumption}
    (found : node.obligations[position]? = some ⟨s, false⟩)
    (acquires : Acquires node between news)
    (origin : ∀ t ∈ news, store.isVariable s.head = true ∧ t.body = s.body ∧
      node.assignment.contains s.head t.head = true)
    (settled : Settled store (between.markSolved position) s) :
    EagerEffect store node (between.markSolved position) s := by
  have same : (between.markSolved position).assignment = node.assignment :=
    acquires.assignment
  have sameKnown := known_markSolved between position
  refine
    { pending := mem_of_getElem? found
      refined := acquires.refined
      solved := ?_
      known := ?_
      within := ?_
      acyclic := ?_
      chosen := ?_
      learned := ?_
      settled := settled
      reopened := ?_ }
  · intro t
    rw [solved_markSolved (acquires.getElem? found), acquires.solved_iff]
  · intro t member
    rw [sameKnown, acquires.known]
    exact .inl member
  · intro x atom chosen
    rw [same]
    exact chosen
  · intro acyclic
    rw [same]
    exact acyclic
  · intro x atom chosen
    rw [same] at chosen
    exact .inl chosen
  · intro t member
    rw [sameKnown, acquires.known] at member
    rcases member with old | new
    · exact .inl old
    · exact .inr (.inl (origin t new))
  · intro t _ atom chosen
    rw [same] at chosen
    exact .inl chosen

/-- A step in which a variable takes the head. -/
theorem effect_of_extend {x : AtomId} {extended : SearchNode}
    (found : node.obligations[position]? = some ⟨s, false⟩)
    (takes : Takes store node.assignment s x s.head)
    (success : node.extend store x s.head = .ok extended) :
    EagerEffect store node (extended.markSolved position) s := by
  cases present : node.assignment.contains x s.head with
  | true =>
      rw [extend_of_contains present] at success
      cases success
      exact effect_of_acquires found (.refl node) (by simp)
        (.subsumer takes.member takes.varying present)
  | false =>
      obtain ⟨safe, acquires⟩ := extend_eq_ok success present
      have chosen : ∀ y atom, (extended.markSolved
          position).assignment.contains y atom = true ↔
            y = x ∧ atom = s.head ∨
              node.assignment.contains y atom = true := by
        intro y atom
        have same : (extended.markSolved position).assignment =
            node.assignment.insert x s.head := acquires.assignment
        rw [same, Assignment.contains_insert]
      have sameKnown := known_markSolved extended position
      refine
        { pending := mem_of_getElem? found
          refined := acquires.refined
          solved := ?_
          known := ?_
          within := ?_
          acyclic := ?_
          chosen := ?_
          learned := ?_
          settled := ?_
          reopened := ?_ }
      · intro t
        have marked : (extended.markSolved position).Solved t ↔
            extended.Solved t ∨ t = s :=
          solved_markSolved (acquires.getElem? found)
        rw [marked, acquires.solved_iff]
        exact Iff.rfl
      · intro t member
        rw [sameKnown, acquires.known]
        exact .inl member
      · intro y atom old
        exact (chosen y atom).mpr (.inr old)
      · intro acyclic
        have same : (extended.markSolved position).assignment =
            node.assignment.insert x s.head := acquires.assignment
        rw [same]
        exact acyclic.insert safe
      · intro y atom inAfter
        rcases (chosen y atom).mp inAfter with ⟨rfl, rfl⟩ | old
        · exact .inr takes
        · exact .inl old
      · intro t member
        rw [sameKnown, acquires.known] at member
        rcases member with old | new
        · exact .inl old
        · obtain ⟨⟨u, solved⟩, reopened, rfl⟩ := List.mem_map.mp new
          obtain ⟨old, reopens⟩ := List.mem_filter.mp reopened
          simp only [Bool.and_eq_true, beq_iff_eq] at reopens
          obtain ⟨rfl, sameHead⟩ := reopens
          refine .inr (.inr ⟨u, old, rfl, ?_, ?_⟩)
          · exact (chosen u.head s.head).mpr (.inl ⟨sameHead, rfl⟩)
          · rw [sameHead]
            exact present
      · exact .subsumer takes.member takes.varying
          ((chosen x s.head).mpr (.inl ⟨rfl, rfl⟩))
      · intro t solved atom inAfter
        rcases (chosen t.head atom).mp inAfter with ⟨sameHead, rfl⟩ | old
        · right
          rw [sameKnown, acquires.known]
          refine .inr (List.mem_map.mpr ⟨⟨t, true⟩, ?_, rfl⟩)
          exact List.mem_filter.mpr ⟨solved, by simp [sameHead]⟩
        · exact .inl old

/-- Every eager step has such an effect. -/
theorem EagerStep.effect (stored : ∀ s ∈ node.known,
      store.Stores s.body ∧ s.head < store.size)
    (step : EagerStep store node after) :
    ∃ s, EagerEffect store node after s := by
  obtain ⟨position, ⟨s, _⟩, application, found, rfl, proposal, applied⟩ :=
    step.proposal stored
  refine ⟨s, ?_⟩
  cases proposal with
  | conjunct member =>
      cases applied
      exact effect_of_acquires found (.refl node) (by simp) (.conjunct member)
  | failure => cases applied
  | subsumer member varying chosen =>
      cases applied
      exact effect_of_acquires found (.refl node) (by simp)
        (.subsumer member varying chosen)
  | expansion varying =>
      cases applied
      rw [expandHead_eq found]
      have acquires := acquires_foldl
        ((node.assignment.subsumers s.head).toList.map fun atom =>
          (⟨s.body, atom⟩ : FlatSubsumption)) node
      refine effect_of_acquires found acquires ?_ (.expansion varying ?_)
      · intro t member
        obtain ⟨atom, inSubsumers, rfl⟩ := List.mem_map.mp member
        exact ⟨varying, rfl, Assignment.mem_subsumers.mp inSubsumers⟩
      · intro atom chosen
        rw [known_markSolved, acquires.known]
        refine .inr (List.mem_map_of_mem (Assignment.mem_subsumers.mpr ?_))
        have same : _ = node.assignment := acquires.assignment
        rw [← same]
        exact chosen
  | @extension x member varying nonVariable others =>
      simp only [apply, bind, Except.bind] at applied
      cases extends_ : node.extend store x s.head with
      | error failure => simp [extends_] at applied
      | ok extended =>
          simp only [extends_, pure, Except.pure, Except.ok.injEq] at applied
          subst applied
          exact effect_of_extend found
            ⟨rfl, member, varying, nonVariable, others⟩ extends_

end Effect

end SearchNode

end ConceptUnification
