import ConceptUnification.AtomStore

/-!
# Invariants of the atom store

Interning never changes an atom that has a number, and gives every atom one
number only.  A store is well formed if the filler of each restriction is a
concept name that was stored earlier.
-/

namespace ConceptUnification

namespace Table

variable {α : Type} [DecidableEq α]

omit [DecidableEq α] in
theorem lt_size_of_get? {table : Table α} {index : Nat} {entry : α}
    (found : table.get? index = some entry) : index < table.size := by
  obtain ⟨bound, _⟩ := Array.getElem?_eq_some_iff.mp found
  exact bound

omit [DecidableEq α] in
theorem exists_get? {table : Table α} {index : Nat}
    (bound : index < table.size) : ∃ entry, table.get? index = some entry :=
  ⟨_, Array.getElem?_eq_getElem bound⟩

omit [DecidableEq α] in
/-- No entry has two numbers. -/
theorem get?_injective {table : Table α} {i j : Nat} {entry : α}
    (left : table.get? i = some entry) (right : table.get? j = some entry) :
    i = j := by
  obtain ⟨leftBound, leftEntry⟩ := Array.getElem?_eq_some_iff.mp left
  obtain ⟨rightBound, rightEntry⟩ := Array.getElem?_eq_some_iff.mp right
  have same := leftEntry.trans rightEntry.symm
  rw [← Array.getElem_toList, ← Array.getElem_toList] at same
  exact List.getElem_inj table.distinct |>.mp same

theorem get?_of_find? {table : Table α} {entry : α} {index : Nat}
    (found : table.find? entry = some index) :
    table.get? index = some entry := by
  have inList : table.entries.toList.idxOf? entry = some index := by
    rw [← List.idxOf?_toArray]
    exact found
  obtain ⟨bound, same, _⟩ := List.idxOf?_eq_some_iff.mp inList
  exact Array.getElem?_eq_some_iff.mpr ⟨bound, same⟩

theorem find?_eq_some_iff {table : Table α} {entry : α} {index : Nat} :
    table.find? entry = some index ↔ table.get? index = some entry := by
  constructor
  · exact get?_of_find?
  · intro present
    cases found : table.find? entry with
    | some position =>
        rw [get?_injective (get?_of_find? found) present]
    | none =>
        have absent : entry ∉ table.entries := by simpa [find?] using found
        exact absurd (Array.mem_of_getElem? present) absent

/-- Looking up a new entry leaves the old ones in place. -/
theorem get?_insert_of_get? {table : Table α} {entry old : α} {index : Nat}
    (found : table.get? index = some old) :
    (table.insert entry).2.get? index = some old := by
  cases known : table.find? entry with
  | some position => rw [insert_of_find?_eq_some known]; exact found
  | none =>
      unfold get?
      rw [(entries_insert_of_find?_eq_none known).2]
      rw [Array.getElem?_push_lt (lt_size_of_get? found)]
      rw [← found]
      exact (Array.getElem?_eq_getElem (lt_size_of_get? found)).symm

theorem get?_insert_self (table : Table α) (entry : α) :
    (table.insert entry).2.get? (table.insert entry).1 = some entry := by
  cases known : table.find? entry with
  | some position =>
      rw [insert_of_find?_eq_some known]
      exact get?_of_find? known
  | none =>
      obtain ⟨number, entries⟩ := entries_insert_of_find?_eq_none known
      unfold get?
      rw [number, entries]
      exact Array.getElem?_push_size

end Table

namespace AtomStore

theorem lt_size_of_atom? {store : AtomStore} {id : AtomId} {atom : Atom}
    (found : store.atom? id = some atom) : id < store.size :=
  Table.lt_size_of_get? found

theorem exists_atom? {store : AtomStore} {id : AtomId}
    (bound : id < store.size) : ∃ atom, store.atom? id = some atom :=
  Table.exists_get? bound

theorem atom?_injective {store : AtomStore} {i j : AtomId} {atom : Atom}
    (left : store.atom? i = some atom) (right : store.atom? j = some atom) :
    i = j :=
  Table.get?_injective left right

theorem findName?_eq_some_iff {store : AtomStore} {symbol : String}
    {id : AtomId} :
    store.findName? symbol = some id ↔
      store.atom? id = some (.name symbol) :=
  Table.find?_eq_some_iff

theorem symbol?_eq_some_iff {store : AtomStore} {id : AtomId}
    {symbol : String} :
    store.symbol? id = some symbol ↔
      store.atom? id = some (.name symbol) := by
  unfold symbol?
  split
  · next other present => simp [present]
  · next other =>
      constructor
      · intro contrary
        cases contrary
      · intro present
        exact (other symbol present).elim

theorem mem_symbols {store : AtomStore} {symbol : String} :
    symbol ∈ store.symbols ↔ ∃ id, store.atom? id = some (.name symbol) := by
  simp only [symbols, List.mem_filterMap, Array.mem_toList_iff,
    Array.mem_iff_getElem?, atom?, Table.get?]
  constructor
  · rintro ⟨atom, ⟨id, found⟩, named⟩
    cases atom with
    | name other =>
        obtain rfl := Option.some.inj named
        exact ⟨id, found⟩
    | restriction role filler => cases named
  · rintro ⟨id, found⟩
    exact ⟨_, ⟨id, found⟩, rfl⟩

@[simp] theorem mem_ids {store : AtomStore} {id : AtomId} :
    id ∈ store.ids ↔ id < store.size := by
  simp [ids]

theorem isVariable_iff {store : AtomStore} {id : AtomId} :
    store.isVariable id = true ↔
      ∃ kind, store.kind? id = some kind ∧ kind ≠ .constant := by
  unfold isVariable
  cases store.kind? id with
  | none => simp
  | some kind => cases kind <;> simp [NameKind.isVariable]

/-- Only concept names have a kind. -/
theorem exists_name_of_kind? {store : AtomStore} {id : AtomId}
    {kind : NameKind} (known : store.kind? id = some kind) :
    ∃ symbol, store.atom? id = some (.name symbol) := by
  unfold kind? at known
  split at known
  · exact ⟨_, ‹_›⟩
  · simp at known

theorem exists_name_of_isVariable {store : AtomStore} {id : AtomId}
    (isVariable : store.isVariable id = true) :
    ∃ symbol, store.atom? id = some (.name symbol) := by
  obtain ⟨kind, known, _⟩ := isVariable_iff.mp isVariable
  exact exists_name_of_kind? known

theorem lt_size_of_isVariable {store : AtomStore} {id : AtomId}
    (isVariable : store.isVariable id = true) : id < store.size := by
  obtain ⟨symbol, found⟩ := exists_name_of_isVariable isVariable
  exact lt_size_of_atom? found

theorem not_isVariable_of_restriction {store : AtomStore} {id : AtomId}
    {role : RoleId} {filler : AtomId}
    (found : store.atom? id = some (.restriction role filler)) :
    store.isVariable id = false := by
  simp [isVariable, kind?, found]

theorem not_isVariable_of_isGround? {store : AtomStore} {id : AtomId}
    (ground : store.isGround? id = some true) :
    store.isVariable id = false := by
  unfold isGround? at ground
  split at ground
  · cases ground
  · simpa using ground
  · next present => exact not_isVariable_of_restriction present

theorem restriction?_eq_some_iff {store : AtomStore} {id : AtomId}
    {role : RoleId} {filler : AtomId} :
    store.restriction? id = some (role, filler) ↔
      store.atom? id = some (.restriction role filler) := by
  unfold restriction?
  split
  · next role' filler' found => simp [found]
  · next other =>
      constructor
      · intro contrary
        simp at contrary
      · intro found
        exact (other role filler found).elim

/-- Everything that has a number in one store has it in the other one. -/
def Extends (before after : AtomStore) : Prop :=
  ∀ id atom, before.atom? id = some atom → after.atom? id = some atom

theorem Extends.refl (store : AtomStore) : store.Extends store :=
  fun _ _ found => found

theorem Extends.trans {first second third : AtomStore}
    (left : first.Extends second) (right : second.Extends third) :
    first.Extends third :=
  fun id atom found => right id atom (left id atom found)

theorem Extends.lt_size {before after : AtomStore}
    (extension : before.Extends after) {id : AtomId}
    (bound : id < before.size) : id < after.size := by
  obtain ⟨atom, found⟩ := exists_atom? bound
  exact lt_size_of_atom? (extension id atom found)

/-- The filler of each restriction is a concept name stored before it. -/
def WellFormed (store : AtomStore) : Prop :=
  ∀ id role filler, store.atom? id = some (.restriction role filler) →
    filler < id ∧ ∃ symbol, store.atom? filler = some (.name symbol)

theorem wellFormed_empty : (∅ : AtomStore).WellFormed := by
  intro id role filler found
  have bound := lt_size_of_atom? found
  exact (Nat.not_lt_zero id bound).elim

section Intern

variable {store : AtomStore} {atom : Atom}

theorem intern_of_known {id : AtomId}
    (known : store.atoms.find? atom = some id) :
    store.intern atom = (id, store) := by
  unfold intern
  split
  · next position found =>
      have same : some position = some id := found.symm.trans known
      simp_all
  · next fresh => exact absurd (fresh.symm.trans known) (by simp)

theorem intern_of_fresh (fresh : store.atoms.find? atom = none) :
    (store.intern atom).1 = store.size ∧
      (store.intern atom).2.atoms = (store.atoms.insert atom).2 ∧
      (store.intern atom).2.kinds = store.kinds.push .constant ∧
      (store.intern atom).2.roles = store.roles := by
  unfold intern
  split
  · next position found => exact absurd (found.symm.trans fresh) (by simp)
  · exact ⟨rfl, rfl, rfl, rfl⟩

theorem roles_intern : (store.intern atom).2.roles = store.roles := by
  cases known : store.atoms.find? atom with
  | some position => rw [intern_of_known known]
  | none => exact (intern_of_fresh known).2.2.2

theorem extends_intern : store.Extends (store.intern atom).2 := by
  intro id old found
  cases known : store.atoms.find? atom with
  | some position => rw [intern_of_known known]; exact found
  | none =>
      unfold atom?
      rw [(intern_of_fresh known).2.1]
      exact Table.get?_insert_of_get? found

theorem atom?_intern : (store.intern atom).2.atom? (store.intern atom).1 =
    some atom := by
  cases known : store.atoms.find? atom with
  | some position =>
      rw [intern_of_known known]
      exact Table.get?_of_find? known
  | none =>
      obtain ⟨number, atoms, _⟩ := intern_of_fresh known
      unfold atom? Table.get?
      rw [number, atoms, (Table.entries_insert_of_find?_eq_none known).2]
      exact Array.getElem?_push_size

theorem size_intern_of_fresh (fresh : store.atoms.find? atom = none) :
    (store.intern atom).2.size = store.size + 1 := by
  unfold size
  rw [(intern_of_fresh fresh).2.1]
  unfold Table.size
  rw [(Table.entries_insert_of_find?_eq_none fresh).2]
  exact Array.size_push atom

/-- Every atom of the new store is old or the one that was interned. -/
theorem atom?_intern_cases {id : AtomId} {found : Atom}
    (present : (store.intern atom).2.atom? id = some found) :
    store.atom? id = some found ∨
      (id = (store.intern atom).1 ∧ found = atom) := by
  cases known : store.atoms.find? atom with
  | some position =>
      rw [intern_of_known known] at present
      exact .inl present
  | none =>
      have number := (intern_of_fresh known).1
      have bound := lt_size_of_atom? present
      rw [size_intern_of_fresh known] at bound
      rcases Nat.lt_succ_iff_lt_or_eq.mp bound with old | new
      · left
        obtain ⟨oldAtom, oldFound⟩ := exists_atom? old
        have kept : (store.intern atom).2.atom? id = some oldAtom :=
          extends_intern id oldAtom oldFound
        rw [present] at kept
        rw [oldFound, kept]
      · right
        have same : id = (store.intern atom).1 := new.trans number.symm
        refine ⟨same, ?_⟩
        rw [same, atom?_intern] at present
        exact (Option.some.inj present).symm

theorem kind?_intern_of_old {id : AtomId} (old : id < store.size) :
    (store.intern atom).2.kind? id = store.kind? id := by
  cases known : store.atoms.find? atom with
  | some position => rw [intern_of_known known]
  | none =>
      obtain ⟨oldAtom, oldFound⟩ := exists_atom? old
      have kept : (store.intern atom).2.atom? id = some oldAtom :=
        extends_intern id oldAtom oldFound
      have inKinds : id < store.kinds.size := by
        rw [store.aligned]
        exact old
      unfold kind?
      rw [kept, oldFound, (intern_of_fresh known).2.2.1,
        Array.getElem?_push_lt inKinds, Array.getElem?_eq_getElem inKinds]

/-- A new atom is no variable. -/
theorem kind?_of_kind?_intern {id : AtomId} {kind : NameKind}
    (known : (store.intern atom).2.kind? id = some kind)
    (varying : kind ≠ .constant) : store.kind? id = some kind := by
  cases found : store.atoms.find? atom with
  | some position =>
      rw [intern_of_known found] at known
      exact known
  | none =>
      obtain ⟨symbol, present⟩ := exists_name_of_kind? known
      have bound := lt_size_of_atom? present
      rw [size_intern_of_fresh found] at bound
      rcases Nat.lt_succ_iff_lt_or_eq.mp bound with old | new
      · rwa [kind?_intern_of_old old] at known
      · have last : store.kinds.size = id := by
          rw [store.aligned, new]
          rfl
        unfold kind? at known
        rw [present, (intern_of_fresh found).2.2.1, ← last] at known
        simp only [Array.getElem?_push_size, Option.some.injEq] at known
        exact (varying known.symm).elim

theorem WellFormed.intern (wellFormed : store.WellFormed)
    (fillers : ∀ role filler, atom = .restriction role filler →
      ∃ symbol, store.atom? filler = some (.name symbol)) :
    (store.intern atom).2.WellFormed := by
  intro id role filler present
  rcases atom?_intern_cases present with old | ⟨number, new⟩
  · obtain ⟨earlier, symbol, named⟩ := wellFormed id role filler old
    exact ⟨earlier, symbol, extends_intern filler _ named⟩
  · obtain ⟨symbol, named⟩ := fillers role filler new.symm
    cases known : store.atoms.find? atom with
    | some position =>
        rw [intern_of_known known] at present ⊢
        obtain ⟨earlier, named⟩ := wellFormed id role filler present
        exact ⟨earlier, named⟩
    | none =>
        refine ⟨?_, symbol, extends_intern filler _ named⟩
        rw [number, (intern_of_fresh known).1]
        exact lt_size_of_atom? named

end Intern

section SetKind

variable {store : AtomStore} {id : AtomId} {kind : NameKind}

@[simp] theorem atom?_setKind (other : AtomId) :
    (store.setKind id kind).atom? other = store.atom? other := rfl

theorem kind?_setKind_of_ne {other : AtomId} (different : other ≠ id) :
    (store.setKind id kind).kind? other = store.kind? other := by
  unfold kind? setKind
  simp only [atom?]
  rw [Array.getElem?_setIfInBounds_ne different.symm]

theorem kind?_setKind_self {symbol : String}
    (named : store.atom? id = some (.name symbol)) :
    (store.setKind id kind).kind? id = some kind := by
  have bound : id < store.kinds.size := by
    rw [store.aligned]
    exact lt_size_of_atom? named
  have kept : (store.setKind id kind).atom? id = some (.name symbol) := named
  unfold kind?
  rw [kept]
  exact Array.getElem?_setIfInBounds_self_of_lt bound

/-- After a name was given another kind, the names of a third kind are those
that had it before. -/
theorem kind?_of_kind?_setKind {other : AtomId} {known : NameKind}
    (found : (store.setKind id kind).kind? other = some known)
    (different : known ≠ kind) : store.kind? other = some known := by
  by_cases same : other = id
  · subst same
    obtain ⟨symbol, named⟩ := exists_name_of_kind? found
    rw [atom?_setKind] at named
    rw [kind?_setKind_self named] at found
    exact (different (Option.some.inj found).symm).elim
  · rwa [kind?_setKind_of_ne same] at found

theorem extends_setKind : store.Extends (store.setKind id kind) :=
  fun _ _ found => found

theorem WellFormed.setKind (wellFormed : store.WellFormed) (id : AtomId)
    (kind : NameKind) : (store.setKind id kind).WellFormed :=
  wellFormed

end SetKind

end AtomStore

end ConceptUnification
