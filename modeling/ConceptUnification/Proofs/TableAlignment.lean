import ConceptUnification.AtomTables
import ConceptUnification.Proofs.StoreInvariant

/-!
# Four tables in step

The tables of symbols, roles, atoms and kinds are extended by different
operations.  They stay in step: there is an entry for a kind at each atom, the
symbols are numbered in the order of their atoms, and every role is used by a
restriction, whose filler is an earlier concept name.
-/

namespace ConceptUnification

namespace Table

variable {α : Type} [DecidableEq α] {table : Table α} {entry : α}

theorem size_insert_of_fresh (fresh : table.find? entry = none) :
    (table.insert entry).2.size = table.size + 1 := by
  rw [size, (entries_insert_of_find?_eq_none fresh).2, Array.size_push, size]

theorem toList_insert_of_fresh (fresh : table.find? entry = none) :
    (table.insert entry).2.entries.toList =
      table.entries.toList ++ [entry] := by
  rw [(entries_insert_of_find?_eq_none fresh).2, Array.toList_push]

/-- An entry of the new table is an old one, or the one that was inserted. -/
theorem get?_insert_cases {index : Nat} {found : α}
    (present : (table.insert entry).2.get? index = some found) :
    table.get? index = some found ∨
      index = (table.insert entry).1 ∧ found = entry := by
  cases known : table.find? entry with
  | some position =>
      rw [insert_of_find?_eq_some known] at present
      exact .inl present
  | none =>
      obtain ⟨number, entries⟩ := entries_insert_of_find?_eq_none known
      rw [get?, entries, Array.getElem?_push] at present
      split at present
      · next last =>
          cases present
          exact .inr ⟨last.trans number.symm, rfl⟩
      · exact .inl present

theorem lt_size_insert_iff {index : Nat} :
    index < (table.insert entry).2.size ↔
      index < table.size ∨ index = (table.insert entry).1 := by
  constructor
  · intro bound
    obtain ⟨found, present⟩ := exists_get? bound
    rcases get?_insert_cases present with old | ⟨number, _⟩
    · exact .inl (lt_size_of_get? old)
    · exact .inr number
  · intro bound
    rcases bound with old | number
    · obtain ⟨found, present⟩ := exists_get? old
      exact lt_size_of_get? (get?_insert_of_get? present)
    · rw [number]
      exact lt_size_of_get? (get?_insert_self table entry)

theorem find?_eq_none_iff :
    table.find? entry = none ↔ ∀ index, table.get? index ≠ some entry := by
  constructor
  · intro fresh index present
    cases (find?_eq_some_iff.mpr present).symm.trans fresh
  · intro absent
    cases known : table.find? entry with
    | none => rfl
    | some index => exact (absent index (find?_eq_some_iff.mp known)).elim

end Table

namespace AtomTables

theorem lt_size_of_atom? {tables : AtomTables} {id : AtomId} {atom : StoredAtom}
    (found : tables.atom? id = some atom) : id < tables.size :=
  Table.lt_size_of_get? found

theorem exists_atom? {tables : AtomTables} {id : AtomId}
    (bound : id < tables.size) : ∃ atom, tables.atom? id = some atom :=
  Table.exists_get? bound

theorem atom?_injective {tables : AtomTables} {i j : AtomId} {atom : StoredAtom}
    (left : tables.atom? i = some atom) (right : tables.atom? j = some atom) :
    i = j :=
  Table.get?_injective left right

theorem symbol?_eq_some_iff {tables : AtomTables} {id : AtomId}
    {symbol : String} :
    tables.symbol? id = some symbol ↔
      ∃ name, tables.atom? id = some (.name name) ∧
        tables.names.get? name = some symbol := by
  rw [symbol?]
  cases tables.atom? id with
  | none => simp
  | some atom =>
      cases atom with
      | name => simp
      | restriction => simp

theorem restriction?_eq_some_iff {tables : AtomTables} {id : AtomId}
    {role : RoleId} {filler : AtomId} :
    tables.restriction? id = some (role, filler) ↔
      tables.atom? id = some (.restriction role filler) := by
  rw [restriction?]
  cases tables.atom? id with
  | none => simp
  | some atom =>
      cases atom with
      | name => simp
      | restriction => simp

/-- A name is found under the number of the atom that has its symbol. -/
theorem findName?_eq_some_iff {tables : AtomTables} {symbol : String}
    {id : AtomId} :
    tables.findName? symbol = some id ↔ tables.symbol? id = some symbol := by
  rw [symbol?_eq_some_iff]
  simp only [findName?, Option.bind_eq_bind, Option.bind_eq_some_iff,
    Table.find?_eq_some_iff]
  constructor
  · intro found
    obtain ⟨name, stored, present⟩ := found
    exact ⟨name, present, stored⟩
  · intro found
    obtain ⟨name, present, stored⟩ := found
    exact ⟨name, stored, present⟩

@[simp] theorem mem_ids {tables : AtomTables} {id : AtomId} :
    id ∈ tables.ids ↔ id < tables.size := by
  simp [ids]

/-- What one table holds for the atoms agrees with what the others hold. -/
structure Aligned (tables : AtomTables) : Prop where
  /-- There is a kind for each concept name, and none for a restriction. -/
  kinds : tables.kinds.toList.map Option.isSome =
    tables.atoms.entries.toList.map fun atom => atom.name?.isSome
  /-- Symbols are numbered in the order of the concept names. -/
  names : tables.atoms.entries.toList.filterMap StoredAtom.name? =
    List.range tables.names.size
  roles : ∀ role, role < tables.roles.size ↔
    ∃ id filler, tables.atom? id = some (.restriction role filler)
  fillers : ∀ id role filler,
    tables.atom? id = some (.restriction role filler) →
    filler < id ∧ ∃ name, tables.atom? filler = some (.name name)

theorem aligned_empty : (∅ : AtomTables).Aligned where
  kinds := rfl
  names := rfl
  roles := by
    intro role
    constructor
    · intro bound
      exact (Nat.not_lt_zero role bound).elim
    · intro used
      obtain ⟨id, filler, found⟩ := used
      exact (Nat.not_lt_zero id (lt_size_of_atom? found)).elim
  fillers := by
    intro id role filler found
    exact (Nat.not_lt_zero id (lt_size_of_atom? found)).elim

section Aligned

variable {tables : AtomTables} (aligned : tables.Aligned)

include aligned

theorem Aligned.size_kinds : tables.kinds.size = tables.size := by
  have lengths := congrArg List.length aligned.kinds
  rw [List.length_map, List.length_map] at lengths
  exact lengths

/-- Exactly the concept names have a kind. -/
theorem Aligned.isSome_kind? {id : AtomId} {atom : StoredAtom}
    (found : tables.atom? id = some atom) :
    (tables.kind? id).isSome = atom.name?.isSome := by
  have listed : tables.atoms.entries.toList[id]? = some atom := by
    rw [Array.getElem?_toList]
    exact found
  have same := congrArg (·[id]?) aligned.kinds
  simp only [List.getElem?_map, listed, Array.getElem?_toList] at same
  obtain ⟨slot, stored, isSome⟩ := Option.map_eq_some_iff.mp same
  rw [kind?, stored]
  exact isSome

theorem Aligned.name_lt_size {id : AtomId} {name : NameId}
    (found : tables.atom? id = some (.name name)) :
    name < tables.names.size := by
  rw [← List.mem_range, ← aligned.names, List.mem_filterMap]
  exact ⟨_, Array.mem_toList_iff.mpr (Array.mem_of_getElem? found), rfl⟩

theorem Aligned.exists_symbol {id : AtomId} {name : NameId}
    (found : tables.atom? id = some (.name name)) :
    ∃ symbol, tables.names.get? name = some symbol :=
  Table.exists_get? (aligned.name_lt_size found)

theorem Aligned.exists_id {name : NameId} (bound : name < tables.names.size) :
    ∃ id, tables.atom? id = some (.name name) := by
  rw [← List.mem_range, ← aligned.names, List.mem_filterMap] at bound
  obtain ⟨atom, member, named⟩ := bound
  obtain ⟨id, found⟩ :=
    Array.mem_iff_getElem?.mp (Array.mem_toList_iff.mp member)
  cases atom with
  | name other =>
      cases named
      exact ⟨id, found⟩
  | restriction => cases named

/-- Every stored symbol has an atom. -/
theorem Aligned.containsName_iff {symbol : String} :
    tables.containsName symbol = true ↔
      ∃ id, tables.findName? symbol = some id := by
  rw [containsName, Option.isSome_iff_exists]
  constructor
  · intro known
    obtain ⟨name, known⟩ := known
    have stored := Table.get?_of_find? known
    obtain ⟨id, found⟩ := aligned.exists_id (Table.lt_size_of_get? stored)
    exact ⟨id, findName?_eq_some_iff.mpr
      (symbol?_eq_some_iff.mpr ⟨name, found, stored⟩)⟩
  · intro found
    obtain ⟨id, found⟩ := found
    obtain ⟨name, _, stored⟩ :=
      symbol?_eq_some_iff.mp (findName?_eq_some_iff.mp found)
    exact ⟨name, Table.find?_eq_some_iff.mpr stored⟩

end Aligned

/-- The tables with one more atom and its kind. -/
def pushed (tables : AtomTables) (atom : StoredAtom) : AtomTables :=
  { tables with
    atoms := (tables.atoms.insert atom).2
    kinds := tables.kinds.push atom.newKind }

section Intern

variable {tables : AtomTables} {atom : StoredAtom}

theorem intern_of_known {id : AtomId} (known : tables.atom? id = some atom) :
    tables.intern atom = (id, tables) := by
  rw [intern, Table.find?_eq_some_iff.mpr known]

variable (fresh : tables.atoms.find? atom = none)

include fresh

theorem intern_of_fresh :
    tables.intern atom = (tables.size, tables.pushed atom) := by
  have number := (Table.entries_insert_of_find?_eq_none fresh).1
  rw [intern, fresh]
  simp only [number]
  rfl

theorem size_pushed : (tables.pushed atom).size = tables.size + 1 :=
  Table.size_insert_of_fresh fresh

theorem atom?_pushed_self :
    (tables.pushed atom).atom? tables.size = some atom := by
  rw [size, ← (Table.entries_insert_of_find?_eq_none fresh).1]
  exact Table.get?_insert_self tables.atoms atom

/-- Every atom is an old one or the new one. -/
theorem atom?_pushed_cases {id : AtomId} {found : StoredAtom}
    (present : (tables.pushed atom).atom? id = some found) :
    tables.atom? id = some found ∨ id = tables.size ∧ found = atom := by
  have number := (Table.entries_insert_of_find?_eq_none fresh).1
  rcases Table.get?_insert_cases present with old | ⟨last, same⟩
  · exact .inl old
  · exact .inr ⟨last.trans number, same⟩

theorem toList_pushed : (tables.pushed atom).atoms.entries.toList =
    tables.atoms.entries.toList ++ [atom] :=
  Table.toList_insert_of_fresh fresh

omit fresh in
theorem atom?_pushed_of_atom? {id : AtomId} {old : StoredAtom}
    (found : tables.atom? id = some old) :
    (tables.pushed atom).atom? id = some old :=
  Table.get?_insert_of_get? found

/-- There is a kind for each concept name after an atom was added. -/
theorem kinds_pushed (kinds : tables.kinds.toList.map Option.isSome =
      tables.atoms.entries.toList.map fun atom => atom.name?.isSome) :
    (tables.pushed atom).kinds.toList.map Option.isSome =
      (tables.pushed atom).atoms.entries.toList.map
        fun atom => atom.name?.isSome := by
  have last : atom.newKind.isSome = atom.name?.isSome := by
    cases atom with
    | name => rfl
    | restriction => rfl
  rw [toList_pushed fresh, List.map_append, ← kinds]
  simp [pushed, last]

/-- Fillers are earlier names after an atom was added, if the filler of the new
one is a name. -/
theorem fillers_pushed
    (fillers : ∀ id role filler,
      tables.atom? id = some (.restriction role filler) →
        filler < id ∧ ∃ name, tables.atom? filler = some (.name name))
    (part : ∀ role filler, atom = .restriction role filler →
      ∃ name, tables.atom? filler = some (.name name)) :
    ∀ id role filler,
      (tables.pushed atom).atom? id = some (.restriction role filler) →
        filler < id ∧
          ∃ name, (tables.pushed atom).atom? filler = some (.name name) := by
  intro id role filler present
  rcases atom?_pushed_cases fresh present with old | ⟨number, same⟩
  · obtain ⟨earlier, name, named⟩ := fillers id role filler old
    exact ⟨earlier, name, atom?_pushed_of_atom? named⟩
  · obtain ⟨name, named⟩ := part role filler same.symm
    rw [number]
    exact ⟨lt_size_of_atom? named, name, atom?_pushed_of_atom? named⟩

end Intern

section SetKind

variable (tables : AtomTables) (id : AtomId) (kind : NameKind)

/-- Only the table of kinds changes when an atom is given another kind. -/
theorem exists_setKind_eq :
    ∃ kinds, tables.setKind id kind = { tables with kinds } := by
  rw [setKind]
  cases tables.kind? id with
  | none => exact ⟨_, rfl⟩
  | some => exact ⟨_, rfl⟩

theorem size_setKind : (tables.setKind id kind).size = tables.size := by
  obtain ⟨kinds, same⟩ := exists_setKind_eq tables id kind
  rw [same]
  rfl

/-- An atom with a kind has the new one, and no other kind changes. -/
theorem kind?_setKind (other : AtomId) :
    (tables.setKind id kind).kind? other =
      if other = id ∧ (tables.kind? id).isSome then some kind
      else tables.kind? other := by
  rw [setKind]
  cases known : tables.kind? id with
  | none => simp
  | some old =>
      obtain ⟨bound, _⟩ :=
        Array.getElem?_eq_some_iff.mp (Option.join_eq_some_iff.mp known)
      by_cases same : other = id
      · subst same
        simp [kind?, bound]
      · simp [kind?, same, Array.getElem?_setIfInBounds_ne (Ne.symm same)]

end SetKind

/-- The tables with a new symbol and its atom. -/
def withName (tables : AtomTables) (symbol : String) : AtomTables :=
  { tables with names := (tables.names.insert symbol).2 }.pushed
    (.name tables.names.size)

/-- The tables with a role and a new restriction over it. -/
def withRestriction (tables : AtomTables) (role : String) (filler : AtomId) :
    AtomTables :=
  { tables with roles := (tables.roles.insert role).2 }.pushed
    (.restriction (tables.roles.insert role).1 filler)

section Steps

variable {tables : AtomTables} (aligned : tables.Aligned)

include aligned

/-- The number of a new symbol occurs in no atom. -/
theorem Aligned.fresh_name : tables.atoms.find? (.name tables.names.size) =
    none := by
  rw [Table.find?_eq_none_iff]
  intro id found
  exact Nat.lt_irrefl _ (aligned.name_lt_size found)

theorem Aligned.withName {symbol : String}
    (unnamed : tables.names.find? symbol = none) :
    (tables.withName symbol).Aligned := by
  have fresh := aligned.fresh_name
  constructor
  case kinds => exact kinds_pushed fresh aligned.kinds
  case names =>
    have listed : (tables.withName symbol).atoms.entries.toList =
        tables.atoms.entries.toList ++ [.name tables.names.size] :=
      toList_pushed fresh
    have sized : (tables.withName symbol).names.size = tables.names.size + 1 :=
      Table.size_insert_of_fresh unnamed
    rw [listed, sized, List.filterMap_append, aligned.names, List.range_succ]
    rfl
  case roles =>
    intro role
    rw [show (tables.withName symbol).roles = tables.roles from rfl,
      aligned.roles role]
    constructor
    · intro used
      obtain ⟨id, filler, found⟩ := used
      exact ⟨id, filler, atom?_pushed_of_atom? found⟩
    · intro used
      obtain ⟨id, filler, present⟩ := used
      rcases atom?_pushed_cases fresh present with found | ⟨_, same⟩
      · exact ⟨id, filler, found⟩
      · cases same
  case fillers =>
    apply fillers_pushed fresh aligned.fillers
    intro role filler same
    cases same

theorem Aligned.withRestriction {role : String} {filler : AtomId}
    (named : ∃ name, tables.atom? filler = some (.name name))
    (fresh : tables.atoms.find?
      (.restriction (tables.roles.insert role).1 filler) = none) :
    (tables.withRestriction role filler).Aligned := by
  constructor
  case kinds => exact kinds_pushed fresh aligned.kinds
  case names =>
    have listed : (tables.withRestriction role filler).atoms.entries.toList =
        tables.atoms.entries.toList ++
          [.restriction (tables.roles.insert role).1 filler] :=
      toList_pushed fresh
    rw [listed, List.filterMap_append, aligned.names]
    exact List.append_nil _
  case roles =>
    intro number
    rw [show (tables.withRestriction role filler).roles =
      (tables.roles.insert role).2 from rfl, Table.lt_size_insert_iff,
      aligned.roles number]
    constructor
    · intro used
      rcases used with ⟨id, filler', found⟩ | same
      · exact ⟨id, filler', atom?_pushed_of_atom? found⟩
      · rw [same]
        exact ⟨_, filler, atom?_pushed_self fresh⟩
    · intro used
      obtain ⟨id, filler', present⟩ := used
      rcases atom?_pushed_cases fresh present with found | ⟨_, same⟩
      · exact .inl ⟨id, filler', found⟩
      · cases same
        exact .inr rfl
  case fillers =>
    apply fillers_pushed fresh aligned.fillers
    intro role' filler' same
    cases same
    exact named

theorem Aligned.setKind (id : AtomId) (kind : NameKind) :
    (tables.setKind id kind).Aligned := by
  rw [AtomTables.setKind]
  cases known : tables.kind? id with
  | none => exact aligned
  | some old =>
      refine ⟨?_, aligned.names, aligned.roles, aligned.fillers⟩
      -- Where the kind is set there was one before.
      rw [← aligned.kinds]
      have slot : tables.kinds[id]? = some (some old) :=
        Option.join_eq_some_iff.mp known
      apply List.ext_getElem?
      intro index
      simp only [List.getElem?_map, Array.getElem?_toList,
        Array.getElem?_setIfInBounds]
      split
      · next same =>
          rw [← same, slot]
          split
          · rfl
          · next outside =>
              obtain ⟨bound, _⟩ := Array.getElem?_eq_some_iff.mp slot
              exact (outside bound).elim
      · rfl

/-- A symbol that is stored has an atom, so nothing is added. -/
theorem Aligned.internName_of_known {symbol : String} {name : NameId}
    (known : tables.names.find? symbol = some name) :
    ∃ id, tables.atom? id = some (.name name) ∧
      tables.internName symbol = (id, tables) := by
  have stored := Table.lt_size_of_get? (Table.get?_of_find? known)
  obtain ⟨id, found⟩ := aligned.exists_id stored
  refine ⟨id, found, ?_⟩
  rw [internName, Table.insert_of_find?_eq_some known]
  exact intern_of_known found

theorem Aligned.internName_of_fresh {symbol : String}
    (unnamed : tables.names.find? symbol = none) :
    tables.internName symbol = (tables.size, tables.withName symbol) := by
  have number := (Table.entries_insert_of_find?_eq_none unnamed).1
  rw [internName]
  simp only [number]
  exact intern_of_fresh aligned.fresh_name

variable {role : String} {filler : AtomId}

/-- If a restriction is stored, so is its role. -/
theorem Aligned.insert_role_of_known {id : AtomId}
    (known : tables.atom? id =
      some (.restriction (tables.roles.insert role).1 filler)) :
    (tables.roles.insert role).2 = tables.roles := by
  have used := (aligned.roles _).mpr ⟨id, filler, known⟩
  cases found : tables.roles.find? role with
  | none =>
      rw [(Table.entries_insert_of_find?_eq_none found).1] at used
      exact (Nat.lt_irrefl _ used).elim
  | some number => rw [Table.insert_of_find?_eq_some found]

variable (named : ∃ name, tables.atom? filler = some (.name name))

include named

omit aligned in
theorem internRestriction_of_named : tables.internRestriction role filler =
    (.ok ({ tables with roles := (tables.roles.insert role).2 }.intern
        (.restriction (tables.roles.insert role).1 filler)).1,
      ({ tables with roles := (tables.roles.insert role).2 }.intern
        (.restriction (tables.roles.insert role).1 filler)).2) := by
  obtain ⟨name, found⟩ := named
  rw [internRestriction, found]

/-- If a restriction is stored, nothing is added. -/
theorem Aligned.internRestriction_of_known {id : AtomId}
    (known : tables.atom? id =
      some (.restriction (tables.roles.insert role).1 filler)) :
    tables.internRestriction role filler = (.ok id, tables) := by
  rw [internRestriction_of_named named, aligned.insert_role_of_known known,
    intern_of_known known]

omit aligned in
theorem internRestriction_of_fresh
    (fresh : tables.atoms.find?
      (.restriction (tables.roles.insert role).1 filler) = none) :
    tables.internRestriction role filler =
      (.ok tables.size, tables.withRestriction role filler) := by
  have interned : { tables with roles := (tables.roles.insert role).2 }.intern
      (.restriction (tables.roles.insert role).1 filler) =
        (tables.size, tables.withRestriction role filler) :=
    intern_of_fresh fresh
  rw [internRestriction_of_named named, interned]

end Steps

/-- A restriction is refused if its filler is no concept name. -/
theorem exists_error_of_unnamed {tables : AtomTables} (role : String)
    {filler : AtomId}
    (unnamed : ¬ ∃ name, tables.atom? filler = some (.name name)) :
    ∃ error, tables.internRestriction role filler = (.error error, tables) := by
  rw [internRestriction]
  cases found : tables.atom? filler with
  | none => exact ⟨_, rfl⟩
  | some atom =>
  cases atom with
  | name name => exact (unnamed ⟨name, found⟩).elim
  | restriction => exact ⟨_, rfl⟩

end AtomTables

end ConceptUnification
