import ConceptUnification.Proofs.TableHistory

/-!
# Four tables stand for a store

A store keeps the symbol of a concept name in its atom, and the tables keep a
number for it.  What is asked of the tables and of the store that they stand for
is answered alike, and afterwards they still stand for it.  So the tables can
take the place of the store of any goal.
-/

namespace ConceptUnification

namespace AtomTables

/-- The atom with a number, with its symbol. -/
def resolved? (tables : AtomTables) (id : AtomId) : Option Atom :=
  match tables.atom? id with
  | none => none
  | some (.name name) => (tables.names.get? name).map .name
  | some (.restriction role filler) => some (.restriction role filler)

/-- The tables hold the same atoms, roles and kinds as a store. -/
structure Represents (tables : AtomTables) (store : AtomStore) : Prop where
  size : store.size = tables.size
  atoms : ∀ id, store.atom? id = tables.resolved? id
  roles : store.roles = tables.roles
  kinds : ∀ id, store.kind? id = tables.kind? id

theorem represents_empty : (∅ : AtomTables).Represents ∅ where
  size := rfl
  atoms := fun _ => rfl
  roles := rfl
  kinds := fun _ => rfl

section Lookup

variable {tables : AtomTables} {store : AtomStore}
  (represents : tables.Represents store)

include represents

theorem Represents.atom?_name_iff {id : AtomId} {symbol : String} :
    store.atom? id = some (.name symbol) ↔ tables.symbol? id = some symbol := by
  rw [represents.atoms, resolved?, symbol?]
  cases tables.atom? id with
  | none => simp
  | some atom =>
      cases atom with
      | name => simp
      | restriction => simp

theorem Represents.atom?_restriction_iff {id : AtomId} {role : RoleId}
    {filler : AtomId} :
    store.atom? id = some (.restriction role filler) ↔
      tables.atom? id = some (.restriction role filler) := by
  rw [represents.atoms, resolved?]
  cases tables.atom? id with
  | none => simp
  | some atom =>
      cases atom with
      | name => simp
      | restriction => simp

/-- Names are found alike. -/
theorem Represents.findName?_eq (symbol : String) :
    store.findName? symbol = tables.findName? symbol := by
  apply Option.ext
  intro id
  rw [AtomStore.findName?_eq_some_iff, findName?_eq_some_iff,
    represents.atom?_name_iff]

theorem Represents.containsName_eq (aligned : tables.Aligned)
    (symbol : String) :
    store.containsName symbol = tables.containsName symbol := by
  rw [Bool.eq_iff_iff, aligned.containsName_iff, AtomStore.containsName,
    Option.isSome_iff_exists, represents.findName?_eq]

end Lookup

section Push

variable {tables : AtomTables} {store : AtomStore}

theorem atom?_eq_none {id : AtomId} (bound : tables.size ≤ id) :
    tables.atom? id = none :=
  Array.getElem?_eq_none bound

theorem kind?_pushed (sized : tables.kinds.size = tables.size)
    (atom : StoredAtom) (id : AtomId) :
    (tables.pushed atom).kind? id =
      if id = tables.size then atom.newKind else tables.kind? id := by
  rw [kind?, pushed, Array.getElem?_push, sized]
  split
  · rfl
  · rfl

end Push

end AtomTables

namespace AtomStore

variable {store : AtomStore} {atom : Atom}

theorem atom?_eq_none {id : AtomId} (bound : store.size ≤ id) :
    store.atom? id = none :=
  Array.getElem?_eq_none bound

/-- A new name is a constant, and a new restriction has no kind. -/
theorem kind?_intern_self (fresh : store.atoms.find? atom = none) :
    (store.intern atom).2.kind? store.size =
      match atom with
      | .name _ => some .constant
      | .restriction _ _ => none := by
  obtain ⟨number, _, kinds, _⟩ := intern_of_fresh fresh
  have found := @atom?_intern store atom
  have last : store.kinds.size = store.size := store.aligned
  rw [number] at found
  rw [kind?, found, kinds, ← last]
  cases atom with
  | name => exact Array.getElem?_push_size
  | restriction => rfl

theorem kind?_intern_of_ne (fresh : store.atoms.find? atom = none)
    {id : AtomId} (different : id ≠ store.size) :
    (store.intern atom).2.kind? id = store.kind? id := by
  rcases Nat.lt_or_gt_of_ne different with old | beyond
  · exact kind?_intern_of_old old
  · have beyond' : (store.intern atom).2.size ≤ id := by
      rw [size_intern_of_fresh fresh]
      exact beyond
    rw [kind?, kind?, atom?_eq_none beyond', atom?_eq_none beyond.le]

/-- A name has the new kind, and no other kind changes. -/
theorem kind?_setKind (id : AtomId) (kind : NameKind) (other : AtomId) :
    (store.setKind id kind).kind? other =
      if other = id ∧ (store.kind? id).isSome then some kind
      else store.kind? other := by
  by_cases same : other = id
  · subst same
    cases found : store.atom? other with
    | none => simp [kind?, found]
    | some atom =>
        cases atom with
        | restriction => simp [kind?, found]
        | name symbol =>
            have bound : other < store.kinds.size := by
              rw [store.aligned]
              exact lt_size_of_atom? found
            rw [kind?_setKind_self found]
            simp [kind?, found, bound]
  · simp [same, kind?_setKind_of_ne same]

end AtomStore

namespace AtomTables

section Steps

variable {tables : AtomTables} {store : AtomStore}
  (represents : tables.Represents store) (aligned : tables.Aligned)

include represents aligned

/-- A new atom is added to both. -/
theorem Represents.push {names roles : Table String} {stored : StoredAtom}
    {atom : Atom}
    (grown : ∀ name symbol, tables.names.get? name = some symbol →
      names.get? name = some symbol)
    (fresh : tables.atoms.find? stored = none)
    (fresh' : store.atoms.find? atom = none)
    (same : match stored with
      | .name name => (names.get? name).map Atom.name = some atom
      | .restriction role filler => Atom.restriction role filler = atom) :
    Represents ({ tables with names, roles }.pushed stored)
      ({ store with roles }.intern atom).2 where
  size := by
    have size := @AtomStore.size_intern_of_fresh { store with roles } _ fresh'
    have size' := @size_pushed { tables with names, roles } _ fresh
    rw [size, size']
    exact congrArg (· + 1) represents.size
  atoms := by
    intro id
    rcases Nat.lt_trichotomy id tables.size with old | last | beyond
    · obtain ⟨found, present⟩ := exists_atom? old
      have kept := @atom?_pushed_of_atom? { tables with names, roles } stored
        _ _ present
      obtain ⟨found', present'⟩ :=
        AtomStore.exists_atom? (Nat.lt_of_lt_of_eq old represents.size.symm)
      have kept' := @AtomStore.extends_intern { store with roles } atom
        _ _ present'
      have before := represents.atoms id
      rw [present', resolved?, present] at before
      rw [kept', resolved?, kept]
      cases found with
      | restriction => exact before
      | name name =>
          obtain ⟨symbol, known⟩ := aligned.exists_symbol present
          simp only [known] at before
          simp only [pushed, grown name symbol known]
          exact before
    · have kept : ({ tables with names, roles }.pushed stored).atom?
          tables.size = some stored := atom?_pushed_self fresh
      have number : ({ store with roles }.intern atom).1 = store.size :=
        (@AtomStore.intern_of_fresh { store with roles } _ fresh').1
      have kept' := @AtomStore.atom?_intern { store with roles } atom
      rw [number, represents.size] at kept'
      rw [last, kept', resolved?, kept]
      cases stored with
      | name => exact same.symm
      | restriction => exact congrArg some same.symm
    · have size := @AtomStore.size_intern_of_fresh { store with roles } _ fresh'
      have size' := @size_pushed { tables with names, roles } _ fresh
      have bound : ({ store with roles }.intern atom).2.size ≤ id := by
        rw [size]
        exact Nat.le_trans (Nat.le_of_eq (congrArg (· + 1) represents.size))
          beyond
      have bound' : ({ tables with names, roles }.pushed stored).size ≤ id := by
        rw [size']
        exact beyond
      rw [AtomStore.atom?_eq_none bound, resolved?, atom?_eq_none bound']
  roles := by
    rw [AtomStore.roles_intern]
    rfl
  kinds := by
    intro id
    have pushed := @kind?_pushed { tables with names, roles }
      aligned.size_kinds stored id
    rw [pushed]
    split
    · next last =>
        have self := @AtomStore.kind?_intern_self { store with roles } _ fresh'
        have place : id = store.size := last.trans represents.size.symm
        rw [place]
        apply self.trans
        cases stored with
        | name =>
            obtain ⟨symbol, _, rfl⟩ := Option.map_eq_some_iff.mp same
            rfl
        | restriction =>
            subst same
            rfl
    · next different =>
        have place : id ≠ store.size := fun same =>
          different (same.trans represents.size)
        exact (@AtomStore.kind?_intern_of_ne { store with roles } _ fresh' _
          place).trans (represents.kinds id)

omit aligned in
theorem Represents.setKind (id : AtomId) (kind : NameKind) :
    (tables.setKind id kind).Represents (store.setKind id kind) := by
  have kinds : ∀ other, (store.setKind id kind).kind? other =
      (tables.setKind id kind).kind? other := by
    intro other
    rw [AtomStore.kind?_setKind, kind?_setKind, represents.kinds,
      represents.kinds]
  obtain ⟨kinds', same⟩ := exists_setKind_eq tables id kind
  rw [same] at kinds ⊢
  exact ⟨represents.size, represents.atoms, represents.roles, kinds⟩

/-- A name is interned alike. -/
theorem Represents.internName (symbol : String) :
    (tables.internName symbol).1 = (store.internName symbol).1 ∧
      (tables.internName symbol).2.Represents (store.internName symbol).2 := by
  cases known : tables.names.find? symbol with
  | some name =>
      obtain ⟨id, found, interned⟩ := aligned.internName_of_known known
      have found' : store.atom? id = some (.name symbol) :=
        represents.atom?_name_iff.mpr (symbol?_eq_some_iff.mpr
          ⟨name, found, Table.get?_of_find? known⟩)
      have interned' : store.internName symbol = (id, store) :=
        AtomStore.intern_of_known (Table.find?_eq_some_iff.mpr found')
      rw [interned, interned']
      exact ⟨rfl, represents⟩
  | none =>
      have absent : ∀ id, store.atom? id ≠ some (.name symbol) := by
        intro id found
        obtain ⟨name, _, stored⟩ :=
          symbol?_eq_some_iff.mp (represents.atom?_name_iff.mp found)
        exact Table.find?_eq_none_iff.mp known name stored
      have fresh : store.atoms.find? (.name symbol) = none :=
        Table.find?_eq_none_iff.mpr absent
      have number := (Table.entries_insert_of_find?_eq_none known).1
      have stored := Table.get?_insert_self tables.names symbol
      rw [number] at stored
      rw [aligned.internName_of_fresh known, AtomStore.internName]
      refine ⟨?_, ?_⟩
      · rw [(AtomStore.intern_of_fresh fresh).1, represents.size]
      · have same : { store with roles := tables.roles } = store := by
          rw [← represents.roles]
        rw [← same]
        exact represents.push aligned (fun _ _ => Table.get?_insert_of_get?)
          aligned.fresh_name fresh (congrArg (Option.map Atom.name) stored)

/-- A restriction over a stored name is interned alike. -/
theorem Represents.internRestriction (role : String) {filler : AtomId}
    (named : ∃ name, tables.atom? filler = some (.name name)) :
    (tables.internRestriction role filler).1 =
        .ok (store.withRestriction role filler).1 ∧
      (tables.internRestriction role filler).2.Represents
        (store.withRestriction role filler).2 := by
  have unfolded : store.withRestriction role filler =
      { store with roles := (tables.roles.insert role).2 }.intern
        (.restriction (tables.roles.insert role).1 filler) := by
    rw [AtomStore.withRestriction, represents.roles]
  rw [unfolded]
  cases known : tables.atoms.find?
      (.restriction (tables.roles.insert role).1 filler) with
  | some id =>
      have found := Table.get?_of_find? known
      have found' := represents.atom?_restriction_iff.mpr found
      have same : { store with roles := (tables.roles.insert role).2 } =
          store := by
        rw [aligned.insert_role_of_known found, ← represents.roles]
      rw [aligned.internRestriction_of_known named found, same,
        AtomStore.intern_of_known (Table.find?_eq_some_iff.mpr found')]
      exact ⟨rfl, represents⟩
  | none =>
      have absent : ∀ id, store.atom? id ≠
          some (.restriction (tables.roles.insert role).1 filler) := by
        intro id found
        exact Table.find?_eq_none_iff.mp known id
          (represents.atom?_restriction_iff.mp found)
      have fresh := Table.find?_eq_none_iff.mpr absent
      have number := (@AtomStore.intern_of_fresh
        { store with roles := (tables.roles.insert role).2 } _ fresh).1
      rw [internRestriction_of_fresh named known, number]
      exact ⟨congrArg Except.ok represents.size.symm, represents.push aligned
        (fun _ _ stored => stored) known fresh rfl⟩

/-- A call is answered alike, and the tables stand for the store afterwards. -/
theorem Represents.perform (call : StoreCall) :
    (tables.perform call).1 = (store.perform call).1 ∧
      (tables.perform call).2.Represents (store.perform call).2 := by
  cases call with
  | name symbol =>
      obtain ⟨answered, after⟩ := represents.internName aligned symbol
      exact ⟨congrArg (Except.ok ∘ some) answered, after⟩
  | restriction role filler =>
      rw [AtomTables.perform, AtomStore.perform]
      cases found : tables.atom? filler with
      | none =>
          have found' : store.atom? filler = none := by
            rw [represents.atoms, resolved?, found]
          rw [AtomTables.internRestriction, AtomStore.internRestriction, found,
            found']
          exact ⟨rfl, represents⟩
      | some atom =>
      cases atom with
      | restriction role' filler' =>
          have found' := represents.atom?_restriction_iff.mpr found
          rw [AtomTables.internRestriction, AtomStore.internRestriction, found,
            found']
          exact ⟨rfl, represents⟩
      | name name =>
          obtain ⟨symbol, stored⟩ := aligned.exists_symbol found
          have named' := represents.atom?_name_iff.mpr
            (symbol?_eq_some_iff.mpr ⟨name, found, stored⟩)
          obtain ⟨answered, after⟩ :=
            represents.internRestriction aligned role ⟨name, found⟩
          rw [AtomStore.internRestriction_of_named role named']
          exact ⟨congrArg (Except.map some) answered, after⟩
  | again id =>
      rw [AtomTables.perform, AtomStore.perform]
      cases found : tables.atom? id with
      | none =>
          have found' : store.atom? id = none := by
            rw [represents.atoms, resolved?, found]
          rw [found']
          exact ⟨rfl, represents⟩
      | some atom =>
          obtain ⟨atom', found'⟩ := AtomStore.exists_atom? (Nat.lt_of_lt_of_eq
            (lt_size_of_atom? found) represents.size.symm)
          rw [found']
          simp only [intern_of_known found, AtomStore.intern_of_known
            (Table.find?_eq_some_iff.mpr found'), true_and]
          exact represents
  | setKind id kind => exact ⟨rfl, represents.setKind id kind⟩

theorem Represents.performAll (calls : List StoreCall) :
    (performAll calls tables).1 = (AtomStore.performAll calls store).1 ∧
      (performAll calls tables).2.Represents
        (AtomStore.performAll calls store).2 := by
  induction calls generalizing tables store with
  | nil => exact ⟨rfl, represents⟩
  | cons call calls induction =>
      obtain ⟨answered, after⟩ := represents.perform aligned call
      obtain ⟨issued, final⟩ :=
        induction after ((performs_perform aligned call).aligned aligned)
      refine ⟨?_, final⟩
      rw [AtomTables.performAll, AtomStore.performAll]
      simp only [answered, issued]

end Steps

/-- Whatever is asked of tables that start empty, the symbols, roles, atoms and
kinds stay in step and agree with the numbers that were answered.  A store
answers the same, and the tables stand for it. -/
theorem performAll_interns (calls : List StoreCall) :
    (performAll calls ∅).2.Interns (performAll calls ∅).1 ∧
      (performAll calls ∅).1 = (AtomStore.performAll calls ∅).1 ∧
      (performAll calls ∅).2.Represents (AtomStore.performAll calls ∅).2 := by
  obtain ⟨_, aligned⟩ := grows_performAll aligned_empty calls
  obtain ⟨issued, represents⟩ :=
    represents_empty.performAll aligned_empty calls
  exact ⟨aligned.interns (eraseDups_performAll aligned_empty calls), issued,
    represents⟩

/-- Two names and a restriction, a restriction that is refused, and a name that
becomes a variable. -/
def sampleCalls : List StoreCall :=
  [.name "A", .name "B", .restriction "r" 1, .restriction "s" 2, .again 0,
    .setKind 1 .userVariable]

theorem performAll_interns_sampleCalls :
    (performAll sampleCalls ∅).1 = [0, 1, 2, 0] ∧
      (performAll sampleCalls ∅).2.ids = [0, 1, 2] ∧
      (performAll sampleCalls ∅).2.kinds.toList =
        [some .constant, some .userVariable, none] ∧
      (performAll sampleCalls ∅).2.Aligned ∧
      (performAll sampleCalls ∅).2.perform (.again 2) =
        (.ok (some 2), (performAll sampleCalls ∅).2) ∧
      (performAll sampleCalls ∅).2.findRole? "s" = none ∧
      ∃ error, (performAll sampleCalls ∅).2.perform (.restriction "s" 2) =
        (.error error, (performAll sampleCalls ∅).2) := by
  obtain ⟨interns, _, _⟩ := performAll_interns sampleCalls
  have issued : (performAll sampleCalls ∅).1 = [0, 1, 2, 0] := by
    decide +kernel
  have unnamed : (performAll sampleCalls ∅).2.symbol? 2 = none := by
    decide +kernel
  rw [issued] at interns
  exact ⟨issued, interns.numbered.symm, by decide +kernel, interns.aligned,
    interns.again 2 (by decide), by decide +kernel,
    interns.refused "s" 2 unnamed⟩

/-- Some calls of the empty tables make tables that stand for the store of a
goal, in which the same names are found. -/
theorem exists_represents {goal : Goal} (obtained : goal.Obtained) :
    ∃ calls, (performAll calls ∅).2.Represents goal.store ∧
      ∀ symbol,
        goal.store.findName? symbol =
          (performAll calls ∅).2.findName? symbol ∧
        goal.store.containsName symbol =
          (performAll calls ∅).2.containsName symbol := by
  obtain ⟨calls, same⟩ := obtained.reaches
  obtain ⟨_, represents⟩ := represents_empty.performAll aligned_empty calls
  obtain ⟨_, aligned⟩ := grows_performAll aligned_empty calls
  rw [same] at represents
  exact ⟨calls, represents, fun symbol => ⟨represents.findName?_eq symbol,
    represents.containsName_eq aligned symbol⟩⟩

end AtomTables

end ConceptUnification
