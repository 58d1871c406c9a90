import Mathlib.Data.Finset.Card
import Mathlib.Logic.Relation
import ConceptUnification.Goal
import ConceptUnification.Proofs.StoreInvariant
import ConceptUnification.Assignment

/-!
# Dependency between variables

A variable depends on the variables that occur as fillers of its subsumers.
The worklist search of `Assignment.createsCycle?` is exact: an acyclic
assignment stays acyclic under one more subsumer if and only if no cycle is
reported.  Acyclic assignments have heights, which decrease from a variable to
its subsumers and from a restriction to its filler.
-/

namespace ConceptUnification

namespace Assignment

@[simp] theorem contains_iff {assignment : Assignment} {x atom : AtomId} :
    assignment.contains x atom = true ↔ (x, atom) ∈ assignment.pairs := by
  simp [contains]

@[simp] theorem contains_insert {assignment : Assignment}
    {x atom y other : AtomId} :
    (assignment.insert x atom).contains y other = true ↔
      y = x ∧ other = atom ∨ assignment.contains y other = true := by
  simp [insert]

@[simp] theorem not_contains_empty {x atom : AtomId} :
    (∅ : Assignment).contains x atom = false := by
  rw [Bool.eq_false_iff]
  intro contrary
  rw [contains_iff] at contrary
  exact OrderedSet.not_mem_empty contrary

theorem mem_atomsOf {pairs : List (AtomId × AtomId)} {x atom : AtomId} :
    atom ∈ atomsOf pairs x ↔ (x, atom) ∈ pairs := by
  simp only [atomsOf, List.mem_map, List.mem_filter, beq_iff_eq]
  constructor
  · rintro ⟨⟨_, _⟩, ⟨member, rfl⟩, rfl⟩
    exact member
  · intro member
    exact ⟨(x, atom), ⟨member, rfl⟩, rfl⟩

theorem mem_pairsWithout {pairs : List (AtomId × AtomId)}
    {x y atom : AtomId} :
    (y, atom) ∈ pairsWithout pairs x ↔ (y, atom) ∈ pairs ∧ y ≠ x := by
  simp [pairsWithout]

@[simp] theorem mem_subsumers {assignment : Assignment} {x atom : AtomId} :
    atom ∈ assignment.subsumers x ↔ assignment.contains x atom = true := by
  rw [contains_iff]
  simp only [subsumers, OrderedSet.mem_ofList, mem_atomsOf]
  exact Iff.rfl

/-- Two assignments with the same subsumers are equal. -/
theorem eq_of_contains_iff {left right : Assignment}
    (same : ∀ x atom, left.contains x atom = true ↔
      right.contains x atom = true) : left = right := by
  obtain ⟨leftPairs⟩ := left
  obtain ⟨rightPairs⟩ := right
  congr 1
  apply OrderedSet.eq_of_mem_iff
  rintro ⟨x, atom⟩
  simpa [contains] using same x atom

@[simp] theorem contains_ofList {pairs : List (AtomId × AtomId)}
    {x atom : AtomId} :
    (ofList pairs).contains x atom = true ↔ (x, atom) ∈ pairs := by
  simp [ofList]

/-- Among some pairs, `x` has a restriction over the variable `y`. -/
def PairDepends (store : AtomStore) (pairs : List (AtomId × AtomId))
    (x y : AtomId) : Prop :=
  ∃ atom role, (x, atom) ∈ pairs ∧
    store.atom? atom = some (.restriction role y) ∧
    store.isVariable y = true

/-- A subsumer of `x` is a restriction over the variable `y`. -/
def Depends (assignment : Assignment) (store : AtomStore)
    (x y : AtomId) : Prop :=
  ∃ atom role, assignment.contains x atom = true ∧
    store.atom? atom = some (.restriction role y) ∧
    store.isVariable y = true

/-- No variable depends on itself, directly or through others. -/
def Acyclic (assignment : Assignment) (store : AtomStore) : Prop :=
  ∀ x, ¬ Relation.TransGen (assignment.Depends store) x x

theorem Acyclic.empty {store : AtomStore} :
    (∅ : Assignment).Acyclic store := by
  intro x cycle
  obtain ⟨y, ⟨atom, _, chosen, _⟩, _⟩ :=
    Relation.TransGen.head'_iff.mp cycle
  rw [not_contains_empty] at chosen
  cases chosen

theorem pairDepends_iff {assignment : Assignment} {store : AtomStore}
    {x y : AtomId} :
    PairDepends store assignment.pairs.toList x y ↔
      assignment.Depends store x y := by
  simp only [PairDepends, Depends, contains_iff, OrderedSet.mem_iff]

/-- Every subsumer belongs to the second assignment as well. -/
def Within (small large : Assignment) : Prop :=
  ∀ x atom, small.contains x atom = true → large.contains x atom = true

theorem Depends.mono {small large : Assignment} {store : AtomStore}
    (within : small.Within large) {x y : AtomId}
    (depends : small.Depends store x y) : large.Depends store x y := by
  obtain ⟨atom, role, chosen, restriction, varying⟩ := depends
  exact ⟨atom, role, within x atom chosen, restriction, varying⟩

theorem Acyclic.of_within {small large : Assignment} {store : AtomStore}
    (acyclic : large.Acyclic store) (within : small.Within large) :
    small.Acyclic store := by
  intro x cycle
  have larger : Relation.TransGen (large.Depends store) x x :=
    Relation.TransGen.mono (fun _ _ => Depends.mono within) _ _ cycle
  exact acyclic x larger

section Worklist

variable {store : AtomStore}

theorem exists_dependency? {atom : AtomId} (known : atom < store.size) :
    ∃ found, dependency? store atom = some found := by
  obtain ⟨value, present⟩ := AtomStore.exists_atom? known
  unfold dependency?
  rw [present]
  cases value <;> exact ⟨_, rfl⟩

theorem dependency?_exact {atom : AtomId} {found : Option AtomId}
    (answered : dependency? store atom = some found) (y : AtomId) :
    y ∈ found ↔ ∃ role, store.atom? atom = some (.restriction role y) ∧
      store.isVariable y = true := by
  unfold dependency? at answered
  cases present : store.atom? atom with
  | none =>
      rw [present] at answered
      cases answered
  | some value =>
      rw [present] at answered
      cases value with
      | name symbol =>
          cases answered
          simp
      | restriction role filler =>
          cases answered
          by_cases varying : store.isVariable filler = true
          · simp only [varying, if_true, Option.mem_some_iff,
              Option.some.injEq, Atom.restriction.injEq]
            constructor
            · rintro rfl
              exact ⟨role, ⟨rfl, rfl⟩, varying⟩
            · rintro ⟨_, ⟨_, same⟩, _⟩
              exact same
          · simp only [varying]
            constructor
            · simp
            · rintro ⟨_, same, varying'⟩
              cases same
              exact (varying varying').elim

theorem exists_dependencies? {atoms : List AtomId}
    (known : ∀ atom ∈ atoms, atom < store.size) :
    ∃ found, dependencies? store atoms = some found := by
  induction atoms with
  | nil => exact ⟨[], rfl⟩
  | cons atom atoms induction =>
      obtain ⟨first, firstEq⟩ :=
        exists_dependency? (known atom List.mem_cons_self)
      obtain ⟨others, othersEq⟩ := induction fun other member =>
        known other (List.mem_cons_of_mem _ member)
      exact ⟨first.toList ++ others, by simp [dependencies?, firstEq, othersEq]⟩

theorem dependencies?_exact {atoms found : List AtomId}
    (answered : dependencies? store atoms = some found) (y : AtomId) :
    y ∈ found ↔ ∃ atom ∈ atoms, ∃ role,
      store.atom? atom = some (.restriction role y) ∧
        store.isVariable y = true := by
  induction atoms generalizing found with
  | nil =>
      cases answered
      simp
  | cons atom atoms induction =>
      simp only [dependencies?] at answered
      split at answered
      · next first others firstEq othersEq =>
          cases answered
          have inFirst : first = some y ↔ ∃ role,
              store.atom? atom = some (.restriction role y) ∧
                store.isVariable y = true := dependency?_exact firstEq y
          simp [inFirst, induction othersEq]
      · cases answered

/-- The variables found from the subsumers of `x` are those that `x` depends
on. -/
theorem mem_dependencies?_atomsOf {pairs : List (AtomId × AtomId)}
    {x y : AtomId} {found : List AtomId}
    (followed : dependencies? store (atomsOf pairs x) = some found) :
    y ∈ found ↔ PairDepends store pairs x y := by
  rw [dependencies?_exact followed]
  simp only [mem_atomsOf, PairDepends]
  constructor
  · rintro ⟨atom, member, role, restriction, varying⟩
    exact ⟨atom, role, member, restriction, varying⟩
  · rintro ⟨atom, role, member, restriction, varying⟩
    exact ⟨atom, member, role, restriction, varying⟩

/-- A path to the target either avoids leaving `x`, or has a last departure
from `x`. -/
theorem reach_without {pairs : List (AtomId × AtomId)}
    {start target x : AtomId}
    (path : Relation.ReflTransGen (PairDepends store pairs) start target) :
    Relation.ReflTransGen (PairDepends store (pairsWithout pairs x))
        start target ∨
      ∃ y, PairDepends store pairs x y ∧
        Relation.ReflTransGen (PairDepends store (pairsWithout pairs x))
          y target := by
  induction path using Relation.ReflTransGen.head_induction_on with
  | refl => exact .inl .refl
  | @head start next step _ induction =>
      rcases induction with avoiding | departing
      · by_cases leaves : start = x
        · subst leaves
          exact .inr ⟨next, step, avoiding⟩
        · left
          obtain ⟨atom, role, member, restriction, varying⟩ := step
          refine .head ⟨atom, role, ?_, restriction, varying⟩ avoiding
          exact mem_pairsWithout.mpr ⟨member, leaves⟩
      · exact .inr departing

theorem PairDepends.of_without {pairs : List (AtomId × AtomId)}
    {x y z : AtomId}
    (depends : PairDepends store (pairsWithout pairs x) y z) :
    PairDepends store pairs y z := by
  obtain ⟨atom, role, member, restriction, varying⟩ := depends
  exact ⟨atom, role, (mem_pairsWithout.mp member).1, restriction, varying⟩

/-- The worklist search answers as long as it meets stored atoms only. -/
theorem exists_reaches? {target : AtomId} {pairs : List (AtomId × AtomId)}
    {todo : List AtomId} (known : ∀ pair ∈ pairs, pair.2 < store.size) :
    ∃ answer, reaches? store target pairs todo = some answer := by
  fun_induction reaches? store target pairs todo with
  | case1 pairs => exact ⟨false, rfl⟩
  | case2 pairs x rest found => exact ⟨true, rfl⟩
  | case3 pairs x rest different failed =>
      obtain ⟨found, foundEq⟩ := @exists_dependencies? store (atomsOf pairs x)
        fun atom member => known (x, atom) (mem_atomsOf.mp member)
      rw [failed] at foundEq
      cases foundEq
  | case4 pairs x rest different found followed induction =>
      exact induction fun (y, atom) member =>
        known (y, atom) (mem_pairsWithout.mp member).1

/-- The worklist search finds out whether the target can be reached. -/
theorem reaches?_exact {target : AtomId} {pairs : List (AtomId × AtomId)}
    {todo : List AtomId} {answer : Bool}
    (answered : reaches? store target pairs todo = some answer) :
    answer = true ↔ ∃ x ∈ todo,
      Relation.ReflTransGen (PairDepends store pairs) x target := by
  fun_induction reaches? store target pairs todo with
  | case1 pairs =>
      cases answered
      simp
  | case2 pairs x rest found =>
      have same : x = target := by simpa using found
      cases answered
      simp only [true_iff]
      exact ⟨x, List.mem_cons_self, same ▸ .refl⟩
  | case3 pairs x rest different failed => cases answered
  | case4 pairs x rest different found followed induction =>
      refine (induction answered).trans ?_
      have lift : ∀ {y}, Relation.ReflTransGen
          (PairDepends store (pairsWithout pairs x)) y target →
          Relation.ReflTransGen (PairDepends store pairs) y target :=
        fun path => Relation.ReflTransGen.mono
          (fun _ _ depends => PairDepends.of_without depends) _ _ path
      constructor
      · rintro ⟨y, member, path⟩
        rcases List.mem_append.mp member with inFound | inRest
        · have step := (mem_dependencies?_atomsOf followed).mp
            (List.mem_reverse.mp inFound)
          exact ⟨x, List.mem_cons_self, .head step (lift path)⟩
        · exact ⟨y, List.mem_cons_of_mem _ inRest, lift path⟩
      · rintro ⟨y, member, path⟩
        rcases reach_without (x := x) path with avoiding | ⟨z, step, path⟩
        · rcases List.mem_cons.mp member with rfl | inRest
          · rcases Relation.ReflTransGen.cases_head avoiding with
              same | ⟨z, ⟨atom, role, leaving, _⟩, _⟩
            · exact absurd same (by simpa using different)
            · exact absurd rfl (mem_pairsWithout.mp leaving).2
          · exact ⟨y, List.mem_append_right _ inRest, avoiding⟩
        · exact ⟨z, List.mem_append_left _ (List.mem_reverse.mpr
            ((mem_dependencies?_atomsOf followed).mpr step)), path⟩

end Worklist

/-- Adding one edge closes a cycle only through a path back to its source. -/
theorem transGen_of_new_edge {α : Type} {old new : α → α → Prop} {x y : α}
    (edges : ∀ a b, new a b → old a b ∨ a = x ∧ b = y)
    (noReturn : ¬ Relation.ReflTransGen old y x) {a b : α}
    (path : Relation.TransGen new a b) :
    Relation.TransGen old a b ∨
      Relation.ReflTransGen old a x ∧ Relation.ReflTransGen old y b := by
  induction path with
  | single step =>
      rcases edges _ _ step with step | ⟨rfl, rfl⟩
      · exact .inl (.single step)
      · exact .inr ⟨.refl, .refl⟩
  | tail _ step induction =>
      rcases edges _ _ step with step | ⟨rfl, rfl⟩
      · rcases induction with path | ⟨before, after⟩
        · exact .inl (path.tail step)
        · exact .inr ⟨before, after.tail step⟩
      · rcases induction with path | ⟨_, after⟩
        · exact .inr ⟨path.to_reflTransGen, .refl⟩
        · exact (noReturn after).elim

section CreatesCycle

variable {assignment : Assignment} {store : AtomStore} {x atom : AtomId}

/-- The chosen atoms are stored. -/
def Known (assignment : Assignment) (store : AtomStore) : Prop :=
  ∀ x atom, assignment.contains x atom = true → atom < store.size

theorem exists_createsCycle? (known : assignment.Known store)
    (stored : atom < store.size) :
    ∃ answer, assignment.createsCycle? store x atom = some answer := by
  obtain ⟨found, foundEq⟩ := exists_dependency? stored
  unfold createsCycle?
  rw [foundEq]
  cases found with
  | none => exact ⟨false, rfl⟩
  | some filler =>
      exact exists_reaches? fun (y, other) member =>
        known y other (contains_iff.mpr member)

/-- A cycle is reported if the filler of the atom leads back to `x`. -/
theorem createsCycle?_iff {answer : Bool}
    (answered : assignment.createsCycle? store x atom = some answer) :
    answer = true ↔ ∃ role filler,
      store.atom? atom = some (.restriction role filler) ∧
        store.isVariable filler = true ∧
        Relation.ReflTransGen (assignment.Depends store) filler x := by
  have edges : PairDepends store assignment.pairs.toList =
      assignment.Depends store := by
    funext y z
    exact propext pairDepends_iff
  unfold createsCycle? at answered
  split at answered
  · cases answered
  · next found =>
      cases answered
      constructor
      · simp
      · rintro ⟨role, filler, restriction, varying, _⟩
        have member := (dependency?_exact found filler).mpr
          ⟨role, restriction, varying⟩
        simp at member
  · next filler found =>
      obtain ⟨role, restriction, varying⟩ :=
        (dependency?_exact found filler).mp rfl
      refine (reaches?_exact answered).trans ?_
      rw [edges]
      constructor
      · rintro ⟨y, member, path⟩
        rw [List.mem_singleton] at member
        subst member
        exact ⟨role, y, restriction, varying, path⟩
      · rintro ⟨role', filler', restriction', _, path⟩
        rw [restriction] at restriction'
        cases restriction'
        exact ⟨filler, List.mem_singleton_self _, path⟩

/-- One more subsumer keeps an assignment acyclic unless its filler leads
back. -/
theorem acyclic_insert_iff (acyclic : assignment.Acyclic store) :
    (assignment.insert x atom).Acyclic store ↔ ∀ role filler,
      store.atom? atom = some (.restriction role filler) →
      store.isVariable filler = true →
      ¬ Relation.ReflTransGen (assignment.Depends store) filler x := by
  constructor
  · intro stays role filler restriction varying path
    have edge : (assignment.insert x atom).Depends store x filler :=
      ⟨atom, role, contains_insert.mpr (.inl ⟨rfl, rfl⟩), restriction, varying⟩
    have within : assignment.Within (assignment.insert x atom) :=
      fun y other chosen => contains_insert.mpr (.inr chosen)
    have back : Relation.ReflTransGen
        ((assignment.insert x atom).Depends store) filler x :=
      Relation.ReflTransGen.mono
        (fun _ _ depends => Depends.mono within depends) _ _ path
    exact stays x (.head' edge back)
  · intro noCycle y cycle
    by_cases edge : ∃ role filler,
        store.atom? atom = some (.restriction role filler) ∧
          store.isVariable filler = true
    · obtain ⟨role, filler, restriction, varying⟩ := edge
      have noReturn := noCycle role filler restriction varying
      have edges : ∀ a b, (assignment.insert x atom).Depends store a b →
          assignment.Depends store a b ∨ a = x ∧ b = filler := by
        rintro a b ⟨other, role', chosen, restriction', varying'⟩
        rw [contains_insert] at chosen
        rcases chosen with ⟨rfl, rfl⟩ | old
        · rw [restriction] at restriction'
          cases restriction'
          exact .inr ⟨rfl, rfl⟩
        · exact .inl ⟨other, role', old, restriction', varying'⟩
      rcases transGen_of_new_edge edges noReturn cycle with
        path | ⟨before, after⟩
      · exact acyclic y path
      · exact noReturn (after.trans before)
    · refine acyclic y (Relation.TransGen.mono ?_ y y cycle)
      rintro a b ⟨other, role, chosen, restriction, varying⟩
      rw [contains_insert] at chosen
      rcases chosen with ⟨rfl, rfl⟩ | old
      · exact (edge ⟨role, b, restriction, varying⟩).elim
      · exact ⟨other, role, old, restriction, varying⟩

/-- What is reported of an acyclic assignment is whether the subsumer closes a
cycle. -/
theorem Acyclic.createsCycle?_iff (acyclic : assignment.Acyclic store)
    {answer : Bool}
    (answered : assignment.createsCycle? store x atom = some answer) :
    answer = true ↔ ¬ (assignment.insert x atom).Acyclic store := by
  rw [Assignment.createsCycle?_iff answered, acyclic_insert_iff acyclic]
  push Not
  rfl

/-- A subsumer that closes no cycle keeps an assignment acyclic. -/
theorem Acyclic.insert (acyclic : assignment.Acyclic store)
    (safe : assignment.createsCycle? store x atom = some false) :
    (assignment.insert x atom).Acyclic store := by
  by_contra cyclic
  exact absurd ((acyclic.createsCycle?_iff safe).mpr cyclic) (by simp)

/-- No cycle is reported for a pair of an acyclic assignment. -/
theorem createsCycle?_of_acyclic {large : Assignment}
    (acyclic : large.Acyclic store) (within : assignment.Within large)
    (known : large.Known store) (chosen : large.contains x atom = true) :
    assignment.createsCycle? store x atom = some false := by
  obtain ⟨answer, answered⟩ := exists_createsCycle? (x := x)
    (fun y other member => known y other (within y other member))
    (known x atom chosen)
  rw [answered]
  cases answer with
  | false => rfl
  | true =>
      obtain ⟨role, filler, restriction, varying, path⟩ :=
        (createsCycle?_iff answered).mp rfl
      have back : Relation.ReflTransGen (large.Depends store) filler x :=
        Relation.ReflTransGen.mono
          (fun _ _ depends => Depends.mono within depends) _ _ path
      exact (acyclic x (.head' ⟨atom, role, chosen, restriction, varying⟩
        back)).elim

end CreatesCycle

/-- Heights decrease from a variable to its subsumers, and from a restriction
to its filler. -/
structure Ranked (assignment : Assignment) (store : AtomStore)
    (height : AtomId → Nat) : Prop where
  subsumer : ∀ x atom, assignment.contains x atom = true →
    height atom < height x
  filler : ∀ atom role filler,
    store.atom? atom = some (.restriction role filler) →
      height filler < height atom

/-- Heights that decrease along the pairs and into the stored restrictions. -/
theorem Ranked.of_pairs {assignment : Assignment} {store : AtomStore}
    (height : AtomId → Nat)
    (choices : ∀ pair ∈ assignment.pairs.toList, height pair.2 < height pair.1)
    (fillers : ∀ atom ∈ store.ids, ∀ edge ∈ store.restriction? atom,
      height edge.2 < height atom) : assignment.Ranked store height where
  subsumer := by
    intro x atom chosen
    rw [contains_iff, OrderedSet.mem_iff] at chosen
    exact choices (x, atom) chosen
  filler := fun atom role filler present =>
    fillers atom (AtomStore.mem_ids.mpr (AtomStore.lt_size_of_atom? present))
      (role, filler) (AtomStore.restriction?_eq_some_iff.mpr present)

theorem Ranked.lt_of_depends {assignment : Assignment} {store : AtomStore}
    {height : AtomId → Nat} (ranked : assignment.Ranked store height)
    {x y : AtomId} (edge : assignment.Depends store x y) :
    height y < height x := by
  obtain ⟨atom, role, chosen, restriction, _⟩ := edge
  exact Nat.lt_trans (ranked.filler atom role y restriction)
    (ranked.subsumer x atom chosen)

theorem Ranked.acyclic {assignment : Assignment} {store : AtomStore}
    {height : AtomId → Nat} (ranked : assignment.Ranked store height) :
    assignment.Acyclic store := by
  have decreasing : ∀ x y,
      Relation.TransGen (assignment.Depends store) x y →
        height y < height x := by
    intro x y path
    induction path with
    | single edge => exact ranked.lt_of_depends edge
    | tail _ edge induction =>
        exact Nat.lt_trans (ranked.lt_of_depends edge) induction
  intro x cycle
  exact Nat.lt_irrefl _ (decreasing x x cycle)

open Classical in
/-- The number of atoms below a bound that can be reached along edges. -/
noncomputable def reachCount (edge : AtomId → AtomId → Prop) (bound : Nat)
    (x : AtomId) : Nat :=
  ((Finset.range bound).filter fun y => Relation.TransGen edge x y).card

/-- Without cycles, edges decrease the number of reachable atoms. -/
theorem reachCount_lt {edge : AtomId → AtomId → Prop} {bound : Nat}
    (acyclic : ∀ x, ¬ Relation.TransGen edge x x) {x y : AtomId}
    (step : edge x y) (below : y < bound) :
    reachCount edge bound y < reachCount edge bound x := by
  classical
  apply Finset.card_lt_card
  refine Finset.ssubset_iff_subset_ne.mpr ⟨?_, ?_⟩
  · intro z member
    rw [Finset.mem_filter] at member ⊢
    exact ⟨member.1, .head step member.2⟩
  · intro same
    have member : y ∈ (Finset.range bound).filter fun z =>
        Relation.TransGen edge x z := by
      rw [Finset.mem_filter, Finset.mem_range]
      exact ⟨below, .single step⟩
    rw [← same, Finset.mem_filter] at member
    exact acyclic y member.2

/-- Twice the number of dependencies, with room for the restrictions between a
variable and the variables that it depends on. -/
noncomputable def height (assignment : Assignment) (store : AtomStore)
    (id : AtomId) : Nat :=
  match store.atom? id with
  | none => 0
  | some (.name _) => nameHeight id
  | some (.restriction _ filler) => nameHeight filler + 1
where
  /-- The height of a concept name. -/
  nameHeight (id : AtomId) : Nat :=
    if store.isVariable id then
      2 * reachCount (assignment.Depends store) store.size id + 2
    else 0

/-- The subsumers of variables are non-variable atoms of the store. -/
structure Proper (assignment : Assignment) (store : AtomStore) : Prop where
  variable_ : ∀ x atom, assignment.contains x atom = true →
    store.isVariable x = true
  stored : ∀ x atom, assignment.contains x atom = true → atom < store.size
  nonVariable : ∀ x atom, assignment.contains x atom = true →
    store.isVariable atom = false

theorem Proper.empty {store : AtomStore} : (∅ : Assignment).Proper store := by
  refine ⟨?_, ?_, ?_⟩ <;> intro x atom chosen <;>
    rw [not_contains_empty] at chosen <;> cases chosen

theorem Proper.insert {assignment : Assignment} {store : AtomStore}
    {x atom : AtomId} (proper : assignment.Proper store)
    (varying : store.isVariable x = true) (inStore : atom < store.size)
    (nonVariable : store.isVariable atom = false) :
    (assignment.insert x atom).Proper store := by
  refine ⟨?_, ?_, ?_⟩ <;> intro y other chosen <;>
    rcases contains_insert.mp chosen with ⟨rfl, rfl⟩ | old
  · exact varying
  · exact proper.variable_ y other old
  · exact inStore
  · exact proper.stored y other old
  · exact nonVariable
  · exact proper.nonVariable y other old

theorem Proper.of_within {small large : Assignment} {store : AtomStore}
    (proper : large.Proper store) (within : small.Within large) :
    small.Proper store where
  variable_ := fun x atom chosen => proper.variable_ x atom (within x atom chosen)
  stored := fun x atom chosen => proper.stored x atom (within x atom chosen)
  nonVariable := fun x atom chosen =>
    proper.nonVariable x atom (within x atom chosen)

theorem Acyclic.ranked {assignment : Assignment} {store : AtomStore}
    (acyclic : assignment.Acyclic store) (wellFormed : store.WellFormed)
    (proper : assignment.Proper store) :
    assignment.Ranked store (assignment.height store) where
  subsumer := by
    intro x atom chosen
    have varying := proper.variable_ x atom chosen
    obtain ⟨symbol, named⟩ := AtomStore.exists_name_of_isVariable varying
    obtain ⟨value, present⟩ :=
      AtomStore.exists_atom? (proper.stored x atom chosen)
    cases value with
    | name symbol' =>
        simp [height, height.nameHeight, named, present, varying,
          proper.nonVariable x atom chosen]
    | restriction role filler =>
        by_cases fillerVaries : store.isVariable filler = true
        · have fewer := reachCount_lt acyclic
            ⟨atom, role, chosen, present, fillerVaries⟩
            (AtomStore.lt_size_of_isVariable fillerVaries)
          simp only [height, height.nameHeight, named, present, varying,
            fillerVaries, if_true]
          omega
        · simp [height, height.nameHeight, named, present, varying,
            fillerVaries]
  filler := by
    intro atom role filler present
    obtain ⟨_, symbol, named⟩ := wellFormed atom role filler present
    simp [height, named, present]

end Assignment

end ConceptUnification
