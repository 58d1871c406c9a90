import ConceptUnification.Error
import ConceptUnification.Table

/-!
# The atom store

Every concept name and every flat restriction is stored once and is referred to by its number.
Numbers are given in the order of first occurrence, and the atom behind a number never changes.
What can change is the kind of a concept name. A name is a constant until it is reclassified.
-/

namespace ConceptUnification

/-- Atoms and roles by number, with the kind of each concept name. -/
structure AtomStore where
  roles : Table String
  atoms : Table Atom
  /-- The kinds by number of the atom. The entry of a restriction has no meaning. -/
  kinds : Array NameKind
  /-- There is one kind for each atom. -/
  aligned : kinds.size = atoms.size

namespace AtomStore

/-- The store without atoms. -/
def empty : AtomStore where
  roles := ∅
  atoms := ∅
  kinds := #[]
  aligned := rfl

instance : EmptyCollection AtomStore where
  emptyCollection := empty

instance : Inhabited AtomStore where
  default := ∅

/-- The number of atoms, which is also the next number to be given. -/
def size (store : AtomStore) : Nat :=
  store.atoms.size

/-- The numbers of all atoms in increasing order. -/
def ids (store : AtomStore) : List AtomId :=
  List.range store.size

/-- The atom with a given number. -/
def atom? (store : AtomStore) (id : AtomId) : Option Atom :=
  store.atoms.get? id

/-- The number of an atom, which is stored if it is new. A new name is a constant. -/
def intern (store : AtomStore) (atom : Atom) : AtomId × AtomStore :=
  match fresh : store.atoms.find? atom with
  | some id => (id, store)
  | none =>
    (store.size,
      { store with
        atoms := (store.atoms.insert atom).2
        kinds := store.kinds.push .constant
        aligned := by
          have pushed := (Table.entries_insert_of_find?_eq_none fresh).2
          have aligned := store.aligned
          simp_all [Table.size] })

/-- The number of a concept name, which is stored if it is new. -/
def internName (store : AtomStore) (symbol : String) : AtomId × AtomStore :=
  store.intern (.name symbol)

/-- The number of a restriction, which is stored if it is new. Its filler must be a stored concept
name. If it is not, nothing is stored. -/
def internRestriction (store : AtomStore) (role : String) (filler : AtomId) :
    Except MalformedTerm (AtomId × AtomStore) :=
  match store.atom? filler with
  | none => .error (.fillerUnknown filler)
  | some (.restriction _ _) => .error (.fillerNotName role)
  | some (.name _) =>
    let (roleId, roles) := store.roles.insert role
    .ok ({ store with roles }.intern (.restriction roleId filler))

/-- The number of a concept name, if it is stored. -/
def findName? (store : AtomStore) (symbol : String) : Option AtomId :=
  store.atoms.find? (.name symbol)

/-- Whether a concept name is stored. -/
def containsName (store : AtomStore) (symbol : String) : Bool :=
  (store.findName? symbol).isSome

/-- The symbols of all stored concept names. -/
def symbols (store : AtomStore) : List String :=
  store.atoms.entries.toList.filterMap fun
    | .name symbol => some symbol
    | .restriction _ _ => none

/-- The number of a role, if it is stored. -/
def findRole? (store : AtomStore) (role : String) : Option RoleId :=
  store.roles.find? role

/-- The name of a role. -/
def roleName? (store : AtomStore) (role : RoleId) : Option String :=
  store.roles.get? role

/-- The symbol of a concept name. Restrictions have none. -/
def symbol? (store : AtomStore) (id : AtomId) : Option String :=
  match store.atom? id with
  | some (.name symbol) => some symbol
  | _ => none

/-- The role and the filler of a restriction. Concept names have none. -/
def restriction? (store : AtomStore) (id : AtomId) : Option (RoleId × AtomId) :=
  match store.atom? id with
  | some (.restriction role filler) => some (role, filler)
  | _ => none

/-- The kind of a concept name. Restrictions have none. -/
def kind? (store : AtomStore) (id : AtomId) : Option NameKind :=
  match store.atom? id with
  | some (.name _) => store.kinds[id]?
  | _ => none

/-- The store after a concept name was given another kind. Restrictions are left alone. -/
def setKind (store : AtomStore) (id : AtomId) (kind : NameKind) : AtomStore :=
  { store with
    kinds := store.kinds.setIfInBounds id kind
    aligned := by rw [Array.size_setIfInBounds]; exact store.aligned }

/-- Whether an atom is a concept name of a variable kind. -/
def isVariable (store : AtomStore) (id : AtomId) : Bool :=
  (store.kind? id).any NameKind.isVariable

/-- Whether an atom is a concept name of a given kind. -/
def hasKind (store : AtomStore) (kind : NameKind) (id : AtomId) : Bool :=
  store.kind? id == some kind

/-- Whether an atom is a restriction. -/
def isRestriction (store : AtomStore) (id : AtomId) : Bool :=
  (store.restriction? id).isSome

/-- Whether an atom is ground: it is no variable, and neither is its filler. There is no answer for
a number that no atom has. -/
def isGround? (store : AtomStore) (id : AtomId) : Option Bool :=
  match store.atom? id with
  | none => none
  | some (.name _) => some (!store.isVariable id)
  | some (.restriction _ filler) => some (!store.isVariable filler)

/-- The written form of an atom, such as `∃r.B`. A filler that is no concept name is written as a
question mark. There is no answer for a number that no atom has. -/
def text? (store : AtomStore) (id : AtomId) : Option String :=
  match store.atom? id with
  | none => none
  | some (.name symbol) => some symbol
  | some (.restriction role filler) =>
    match store.roleName? role, store.atom? filler with
    | some roleName, some (.name symbol) => some ("∃" ++ roleName ++ "." ++ symbol)
    | some roleName, some (.restriction _ _) => some ("∃" ++ roleName ++ ".?")
    | _, _ => none

end AtomStore

end ConceptUnification
