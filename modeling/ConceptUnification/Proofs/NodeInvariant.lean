import Mathlib.Data.List.Perm.Subperm
import Mathlib.Data.List.ProdSigma
import ConceptUnification.RuleSearch
import ConceptUnification.Proofs.UnifierValue

/-!
# Invariants of search nodes

A node knows distinct subsumptions between stored atoms, its assignment is
acyclic, and each solved subsumption is justified by what the node chose and
by what else it knows.  Every operation on nodes keeps these invariants, and
none of them makes a node heavier.
-/

namespace ConceptUnification

namespace SearchNode

/-- The known subsumptions in the order in which they became known. -/
def known (node : SearchNode) : List FlatSubsumption :=
  node.obligations.toList.map Obligation.subsumption

theorem getElem?_known (node : SearchNode) (position : Nat) :
    node.known[position]? =
      node.obligations[position]?.map Obligation.subsumption := by
  rw [known, List.getElem?_map, Array.getElem?_toList]

@[simp] theorem knows_iff {node : SearchNode} {s : FlatSubsumption} :
    node.knows s = true ↔ s ∈ node.known := by
  rw [knows, Std.HashMap.contains_eq_isSome_getElem?,
    Option.isSome_iff_exists, List.mem_iff_getElem?]
  apply exists_congr
  intro position
  rw [node.indexed, getElem?_known]

/-- No subsumption has two positions. -/
theorem nodup_known (node : SearchNode) : node.known.Nodup := by
  rw [List.nodup_iff_getElem?_ne_getElem?]
  intro i j earlier inRange same
  have atJ : node.known[j]? = some node.known[j] :=
    List.getElem?_eq_getElem inRange
  have atI := same.trans atJ
  rw [getElem?_known, ← node.indexed] at atI atJ
  rw [atI] at atJ
  cases atJ
  exact Nat.lt_irrefl _ earlier

theorem mem_known_of_mem {node : SearchNode} {o : Obligation}
    (member : o ∈ node.obligations.toList) : o.subsumption ∈ node.known :=
  List.mem_map_of_mem member

/-- What becomes of a node to which pending subsumptions are added. -/
structure Acquires (before after : SearchNode)
    (news : List FlatSubsumption) : Prop where
  assignment : after.assignment = before.assignment
  refined : after.refined = before.refined
  appended : ∃ fresh : List Obligation,
    after.obligations.toList = before.obligations.toList ++ fresh ∧
      ∀ o ∈ fresh, o.solved = false ∧ o.subsumption ∈ news
  known : ∀ s, s ∈ after.known ↔ s ∈ before.known ∨ s ∈ news

theorem Acquires.refl (node : SearchNode) : Acquires node node [] where
  assignment := rfl
  refined := rfl
  appended := ⟨[], by simp⟩
  known := by simp

theorem Acquires.trans {first second third : SearchNode}
    {news news' : List FlatSubsumption} (early : Acquires first second news)
    (late : Acquires second third news') :
    Acquires first third (news ++ news') where
  assignment := late.assignment.trans early.assignment
  refined := late.refined.trans early.refined
  appended := by
    obtain ⟨fresh, appended, pending⟩ := early.appended
    obtain ⟨fresh', appended', pending'⟩ := late.appended
    refine ⟨fresh ++ fresh', by rw [appended', appended, List.append_assoc], ?_⟩
    intro o member
    rcases List.mem_append.mp member with inEarly | inLate
    · obtain ⟨unsolved, inNews⟩ := pending o inEarly
      exact ⟨unsolved, List.mem_append_left _ inNews⟩
    · obtain ⟨unsolved, inNews⟩ := pending' o inLate
      exact ⟨unsolved, List.mem_append_right _ inNews⟩
  known := by
    intro s
    rw [late.known, early.known, List.mem_append, or_assoc]

theorem add_of_known {node : SearchNode} {s : FlatSubsumption}
    (already : s ∈ node.known) : node.add s = node := by
  rw [add, dif_pos (knows_iff.mpr already)]

@[simp] theorem assignment_add (node : SearchNode) (s : FlatSubsumption) :
    (node.add s).assignment = node.assignment := by
  unfold add
  split <;> rfl

@[simp] theorem refined_add (node : SearchNode) (s : FlatSubsumption) :
    (node.add s).refined = node.refined := by
  unfold add
  split <;> rfl

theorem add_of_fresh {node : SearchNode} {s : FlatSubsumption}
    (fresh : s ∉ node.known) :
    (node.add s).obligations = node.obligations.push ⟨s, false⟩ ∧
      (node.add s).index = node.index.insert s node.obligations.size := by
  rw [add, dif_neg (fun already => fresh (knows_iff.mp already))]
  exact ⟨rfl, rfl⟩

theorem acquires_add (node : SearchNode) (s : FlatSubsumption) :
    Acquires node (node.add s) [s] := by
  by_cases already : s ∈ node.known
  · rw [add_of_known already]
    refine ⟨rfl, rfl, ⟨[], by simp⟩, ?_⟩
    intro other
    rw [List.mem_singleton]
    constructor
    · exact .inl
    · rintro (old | rfl)
      · exact old
      · exact already
  · obtain ⟨pushed, _⟩ := add_of_fresh already
    refine ⟨assignment_add node s, refined_add node s, ⟨[⟨s, false⟩], ?_, ?_⟩, ?_⟩
    · rw [pushed]
      simp
    · simp
    · intro other
      rw [known, pushed]
      simp [known]

theorem acquires_foldl (news : List FlatSubsumption) (node : SearchNode) :
    Acquires node (news.foldl add node) news := by
  induction news generalizing node with
  | nil => exact .refl node
  | cons s news induction => exact (acquires_add node s).trans (induction _)

/-- The list of obligations around a position, before and after the obligation
there is solved. -/
theorem exists_split {node : SearchNode} {position : Nat}
    {obligation : Obligation}
    (found : node.obligations[position]? = some obligation) :
    ∃ before after,
      node.obligations.toList = before ++ obligation :: after ∧
        (node.markSolved position).obligations.toList =
          before ++ ⟨obligation.subsumption, true⟩ :: after := by
  rw [← Array.getElem?_toList] at found
  obtain ⟨inRange, at_⟩ := List.getElem?_eq_some_iff.mp found
  refine ⟨node.obligations.toList.take position,
    node.obligations.toList.drop (position + 1), ?_, ?_⟩
  · rw [← at_, List.getElem_cons_drop, List.take_append_drop]
  · simp only [markSolved, Array.toList_modify]
    rw [List.modify_eq_take_cons_drop inRange, at_]

theorem known_markSolved (node : SearchNode) (position : Nat) :
    (node.markSolved position).known = node.known := by
  cases found : node.obligations[position]? with
  | none =>
      have outside : node.obligations.toList.length ≤ position := by
        simpa using found
      simp [known, markSolved, Array.toList_modify,
        List.modify_eq_self outside]
  | some obligation =>
      obtain ⟨before, after, split, marked⟩ := exists_split found
      simp [known, split, marked]

/-- An obligation stays at its position when others are appended. -/
theorem Acquires.getElem? {before after : SearchNode}
    {news : List FlatSubsumption} (acquires : Acquires before after news)
    {position : Nat} {obligation : Obligation}
    (found : before.obligations[position]? = some obligation) :
    after.obligations[position]? = some obligation := by
  obtain ⟨fresh, appended, _⟩ := acquires.appended
  rw [← Array.getElem?_toList] at found ⊢
  rw [appended, List.getElem?_append_left, found]
  exact (List.getElem?_eq_some_iff.mp found).1

theorem mem_of_getElem? {node : SearchNode} {position : Nat}
    {obligation : Obligation}
    (found : node.obligations[position]? = some obligation) :
    obligation ∈ node.obligations.toList := by
  rw [← Array.getElem?_toList] at found
  exact List.mem_of_getElem? found

/-- Why nothing is left to be done for a solved subsumption. -/
inductive Justified (store : AtomStore) (node : SearchNode)
    (s : FlatSubsumption) : Prop where
  | conjunct (member : s.head ∈ s.body)
  | subsumer {x : AtomId} (member : x ∈ s.body)
      (varying : store.isVariable x = true)
      (chosen : node.assignment.contains x s.head = true)
  | expansion (varying : store.isVariable s.head = true)
      (expanded : ∀ atom, node.assignment.contains s.head atom = true →
        (⟨s.body, atom⟩ : FlatSubsumption) ∈ node.known)
  | decomposition {role : RoleId} {b filler filler' : AtomId}
      (member : b ∈ s.body)
      (lower : store.atom? b = some (.restriction role filler))
      (upper : store.atom? s.head = some (.restriction role filler'))
      (decomposed : (⟨{filler}, filler'⟩ : FlatSubsumption) ∈ node.known)

/-- Justifications survive while the assignment stays and more becomes
known. -/
theorem Justified.mono {store : AtomStore} {before after : SearchNode}
    {s : FlatSubsumption} (justified : Justified store before s)
    (same : after.assignment = before.assignment)
    (more : ∀ t ∈ before.known, t ∈ after.known) :
    Justified store after s := by
  cases justified with
  | conjunct member => exact .conjunct member
  | subsumer member varying chosen =>
      exact .subsumer member varying (by rw [same]; exact chosen)
  | expansion varying expanded =>
      refine .expansion varying fun atom chosen => ?_
      rw [same] at chosen
      exact more _ (expanded atom chosen)
  | decomposition member lower upper decomposed =>
      exact .decomposition member lower upper (more _ decomposed)

end SearchNode

namespace Goal

/-- The subsumptions that a search of a goal may come across: the body is one
of the goal or a single atom. -/
def CanArise (goal : Goal) (s : FlatSubsumption) : Prop :=
  ((∃ p ∈ goal.positiveSubsumptions, s.body = p.body) ∨
      ∃ atom, atom < goal.store.size ∧ s.body = {atom}) ∧
    s.head < goal.store.size

variable {goal : Goal}

theorem WellFormed.canArise (wellFormed : goal.WellFormed)
    {s : FlatSubsumption} (member : s ∈ goal.positiveSubsumptions) :
    goal.CanArise s :=
  ⟨.inl ⟨s, member, rfl⟩, (wellFormed.stores_positive member).2⟩

theorem WellFormed.stores_of_canArise (wellFormed : goal.WellFormed)
    {s : FlatSubsumption} (arises : goal.CanArise s) :
    goal.store.Stores s.body := by
  obtain ⟨⟨p, member, same⟩ | ⟨atom, stored, single⟩, _⟩ := arises
  · rw [same]
    exact (wellFormed.stores_positive member).1
  · intro other member
    rw [single] at member
    rw [OrderedSet.mem_singleton.mp member]
    exact stored

theorem CanArise.withHead {s : FlatSubsumption} (arises : goal.CanArise s)
    {atom : AtomId} (stored : atom < goal.store.size) :
    goal.CanArise ⟨s.body, atom⟩ :=
  ⟨arises.1, stored⟩

/-- There are at most as many subsumptions as bodies and heads allow. -/
theorem length_le_of_bodies {store : AtomStore} {bodies : List AtomSet}
    {l : List FlatSubsumption} (distinct : l.Nodup)
    (arise : ∀ s ∈ l, s.body ∈ bodies ∧ s.head < store.size) :
    l.length ≤ bodies.length * store.size := by
  let whole : List FlatSubsumption :=
    (bodies ×ˢ store.ids).map fun pair => ⟨pair.1, pair.2⟩
  have within : l ⊆ whole := by
    intro s member
    obtain ⟨body, head⟩ := arise s member
    refine List.mem_map.mpr ⟨(s.body, s.head), ?_, rfl⟩
    exact List.mem_product.mpr ⟨body, AtomStore.mem_ids.mpr head⟩
  have total : whole.length = bodies.length * store.size := by
    simp [whole, List.length_product, AtomStore.ids]
  rw [← total]
  exact (List.subperm_of_subset distinct within).length_le

/-- There are at most as many subsumptions as the capacity says. -/
theorem length_le_capacity {l : List FlatSubsumption} (distinct : l.Nodup)
    (arise : ∀ s ∈ l, goal.CanArise s) :
    l.length ≤ SearchSpace.capacityOf goal := by
  let bodies : List AtomSet := goal.positiveSubsumptions.map (·.body) ++
    goal.store.ids.map fun atom => {atom}
  have bounded : l.length ≤ bodies.length * goal.store.size := by
    apply length_le_of_bodies distinct
    intro s member
    obtain ⟨body, head⟩ := arise s member
    refine ⟨?_, head⟩
    rcases body with ⟨p, inGoal, same⟩ | ⟨atom, stored, single⟩
    · exact List.mem_append_left _
        (List.mem_map.mpr ⟨p, inGoal, same.symm⟩)
    · exact List.mem_append_right _
        (List.mem_map.mpr ⟨atom, AtomStore.mem_ids.mpr stored, single.symm⟩)
  have total : bodies.length =
      goal.positiveSubsumptions.length + goal.store.size := by
    simp [bodies, AtomStore.ids]
  rw [total] at bounded
  exact bounded

end Goal

namespace SearchNode

/-- The invariant of all nodes of the search of a goal. -/
structure WellFormed (goal : Goal) (node : SearchNode) : Prop where
  proper : node.assignment.Proper goal.store
  acyclic : node.assignment.Acyclic goal.store
  arises : ∀ s ∈ node.known, goal.CanArise s
  complete : ∀ s ∈ goal.positiveSubsumptions, s ∈ node.known
  justified : ∀ o ∈ node.obligations.toList, o.solved = true →
    Justified goal.store node o.subsumption

variable {goal : Goal} {node : SearchNode}

theorem WellFormed.stored (goalWellFormed : goal.WellFormed)
    (wellFormed : node.WellFormed goal) :
    ∀ s ∈ node.known, goal.store.Stores s.body ∧ s.head < goal.store.size := by
  intro s member
  have arises := wellFormed.arises s member
  exact ⟨goalWellFormed.stores_of_canArise arises, arises.2⟩

theorem WellFormed.size_le (wellFormed : node.WellFormed goal) :
    node.obligations.size ≤ SearchSpace.capacityOf goal := by
  have bounded := Goal.length_le_capacity node.nodup_known wellFormed.arises
  simpa [known] using bounded

/-- Adding subsumptions that can arise keeps the invariant. -/
theorem WellFormed.acquire (wellFormed : node.WellFormed goal)
    {after : SearchNode} {news : List FlatSubsumption}
    (acquires : Acquires node after news)
    (arise : ∀ s ∈ news, goal.CanArise s) : after.WellFormed goal where
  proper := by rw [acquires.assignment]; exact wellFormed.proper
  acyclic := by rw [acquires.assignment]; exact wellFormed.acyclic
  arises := by
    intro s member
    rcases (acquires.known s).mp member with old | new
    · exact wellFormed.arises s old
    · exact arise s new
  complete := fun s member =>
    (acquires.known s).mpr (.inl (wellFormed.complete s member))
  justified := by
    intro o member solved
    obtain ⟨fresh, appended, pending⟩ := acquires.appended
    rw [appended, List.mem_append] at member
    rcases member with old | new
    · exact (wellFormed.justified o old solved).mono acquires.assignment
        fun t inKnown => (acquires.known t).mpr (.inl inKnown)
    · rw [(pending o new).1] at solved
      cases solved

/-- A justified obligation can be marked as solved. -/
theorem WellFormed.markSolved (wellFormed : node.WellFormed goal)
    {position : Nat} {obligation : Obligation}
    (found : node.obligations[position]? = some obligation)
    (justified : Justified goal.store node obligation.subsumption) :
    (node.markSolved position).WellFormed goal := by
  have sameKnown := known_markSolved node position
  have kept : ∀ {s}, Justified goal.store node s →
      Justified goal.store (node.markSolved position) s := fun old =>
    old.mono rfl fun t member => by rw [sameKnown]; exact member
  refine
    { proper := wellFormed.proper
      acyclic := wellFormed.acyclic
      arises := by rw [sameKnown]; exact wellFormed.arises
      complete := by rw [sameKnown]; exact wellFormed.complete
      justified := ?_ }
  intro o member solved
  obtain ⟨before, after, split, marked⟩ := exists_split found
  rw [marked] at member
  have cases_ : o ∈ node.obligations.toList ∨
      o = ⟨obligation.subsumption, true⟩ := by
    rw [split]
    simp only [List.mem_append, List.mem_cons] at member ⊢
    tauto
  rcases cases_ with old | rfl
  · exact kept (wellFormed.justified o old solved)
  · exact kept justified

/-- What a successful extension by a new subsumer amounts to. -/
theorem extend_eq_ok {store : AtomStore} {x atom : AtomId}
    {extended : SearchNode}
    (success : node.extend store x atom = .ok extended)
    (new : node.assignment.contains x atom = false) :
    node.assignment.createsCycle? store x atom = some false ∧
      Acquires { node with assignment := node.assignment.insert x atom }
        extended ((node.obligations.toList.filter fun o =>
          o.solved && o.subsumption.head == x).map fun o =>
            ⟨o.subsumption.body, atom⟩) := by
  unfold extend at success
  rw [new] at success
  simp only [Bool.false_eq_true, if_false] at success
  split at success
  · cases success
  · cases success
  · next safe =>
      cases success
      refine ⟨safe, ?_⟩
      have folded := acquires_foldl
        ((node.obligations.toList.filter fun o =>
          o.solved && o.subsumption.head == x).map fun o =>
            ⟨o.subsumption.body, atom⟩)
        { node with assignment := node.assignment.insert x atom }
      rw [List.foldl_map] at folded
      exact folded

theorem extend_of_contains {store : AtomStore} {x atom : AtomId}
    (old : node.assignment.contains x atom = true) :
    node.extend store x atom = .ok node := by
  rw [extend, if_pos old]

/-- An extension keeps the invariant: what it reopens accounts for the new
subsumer. -/
theorem WellFormed.extend (wellFormed : node.WellFormed goal)
    {x atom : AtomId} {extended : SearchNode}
    (success : node.extend goal.store x atom = .ok extended)
    (varying : goal.store.isVariable x = true)
    (stored : atom < goal.store.size)
    (nonVariable : goal.store.isVariable atom = false) :
    extended.WellFormed goal := by
  cases known : node.assignment.contains x atom with
  | true =>
      rw [extend_of_contains known] at success
      cases success
      exact wellFormed
  | false =>
      obtain ⟨safe, acquires⟩ := extend_eq_ok success known
      have chosen : ∀ {y other}, extended.assignment.contains y other = true ↔
          y = x ∧ other = atom ∨ node.assignment.contains y other = true := by
        intro y other
        rw [acquires.assignment, Assignment.contains_insert]
      obtain ⟨fresh, appended, pending⟩ := acquires.appended
      refine
        { proper := ?_
          acyclic := ?_
          arises := ?_
          complete := fun s member =>
            (acquires.known s).mpr (.inl (wellFormed.complete s member))
          justified := ?_ }
      · rw [acquires.assignment]
        exact wellFormed.proper.insert varying stored nonVariable
      · rw [acquires.assignment]
        exact wellFormed.acyclic.insert safe
      · intro s member
        rcases (acquires.known s).mp member with old | new
        · exact wellFormed.arises s old
        · obtain ⟨o, reopened, rfl⟩ := List.mem_map.mp new
          exact (wellFormed.arises _ (mem_known_of_mem
            (List.mem_filter.mp reopened).1)).withHead stored
      · intro o member solved
        rw [appended, List.mem_append] at member
        rcases member with old | new
        · cases wellFormed.justified o old solved with
          | conjunct member => exact .conjunct member
          | subsumer member varying' contains =>
              exact .subsumer member varying' (chosen.mpr (.inr contains))
          | expansion varying' expanded =>
              refine .expansion varying' fun other contains => ?_
              rw [acquires.known]
              rcases chosen.mp contains with ⟨sameHead, rfl⟩ | before
              · right
                refine List.mem_map.mpr ⟨o, List.mem_filter.mpr ⟨old, ?_⟩, rfl⟩
                simp [solved, sameHead]
              · exact .inl (expanded other before)
          | decomposition member lower upper decomposed =>
              exact .decomposition member lower upper
                ((acquires.known _).mpr (.inl decomposed))
        · rw [(pending o new).1] at solved
          cases solved

/-- Remembering a candidate changes nothing that the invariant is about. -/
theorem WellFormed.withRefined (wellFormed : node.WellFormed goal)
    (position : Nat) : (node.withRefined position).WellFormed goal where
  proper := wellFormed.proper
  acyclic := wellFormed.acyclic
  arises := wellFormed.arises
  complete := wellFormed.complete
  justified := fun o member solved =>
    (wellFormed.justified o member solved).mono rfl fun _ => id

section Root

variable {subsumptions : List FlatSubsumption}

theorem known_ofSubsumptions {s : FlatSubsumption} :
    s ∈ (ofSubsumptions subsumptions).known ↔ s ∈ subsumptions := by
  rw [ofSubsumptions, (acquires_foldl subsumptions {}).known]
  simp [known]

theorem assignment_ofSubsumptions :
    (ofSubsumptions subsumptions).assignment = ∅ :=
  (acquires_foldl subsumptions {}).assignment

theorem refined_ofSubsumptions :
    (ofSubsumptions subsumptions).refined = none :=
  (acquires_foldl subsumptions {}).refined

/-- The subsumptions are pending, each at one position. -/
theorem mem_ofSubsumptions {o : Obligation} :
    o ∈ (ofSubsumptions subsumptions).obligations.toList ↔
      o.subsumption ∈ subsumptions ∧ o.solved = false := by
  have unsolved : ∀ o ∈ (ofSubsumptions subsumptions).obligations.toList,
      o.solved = false := by
    obtain ⟨fresh, appended, pending⟩ :=
      (acquires_foldl subsumptions {}).appended
    intro o member
    rw [ofSubsumptions, appended] at member
    exact (pending o (by simpa using member)).1
  constructor
  · intro member
    exact ⟨known_ofSubsumptions.mp (mem_known_of_mem member),
      unsolved o member⟩
  · intro given
    obtain ⟨s, solved⟩ := o
    obtain ⟨listed, rfl⟩ := given
    obtain ⟨⟨_, solved⟩, member, rfl⟩ :=
      List.mem_map.mp (known_ofSubsumptions.mpr listed)
    cases unsolved _ member
    exact member

/-- The node at which the search starts satisfies the invariant: nothing is
chosen, and nothing is solved. -/
theorem wellFormed_ofSubsumptions (goalWellFormed : goal.WellFormed) :
    (ofSubsumptions goal.positiveSubsumptions).WellFormed goal := by
  refine
    { proper := ?_
      acyclic := ?_
      arises := fun s member =>
        goalWellFormed.canArise (known_ofSubsumptions.mp member)
      complete := fun s member => known_ofSubsumptions.mpr member
      justified := ?_ }
  · rw [assignment_ofSubsumptions]
    exact .empty
  · rw [assignment_ofSubsumptions]
    exact .empty
  · intro o member solved
    rw [(mem_ofSubsumptions.mp member).2] at solved
    cases solved

end Root

end SearchNode

end ConceptUnification
