import ConceptUnification.Error
import ConceptUnification.Table

/-!
# Atoms in four tables

Here the symbols of concept names are numbered on their own, as roles are, and atoms hold only
numbers. The kinds stand in a table of their own. The four tables are extended one after the other,
and only the way in which this is done keeps them in step.
-/

namespace ConceptUnification

/-- The number of a symbol among the symbols of concept names. -/
abbrev NameId := Nat

/-- A flat atom whose symbol is given by its number. -/
inductive StoredAtom where
  | name (name : NameId)
  | restriction (role : RoleId) (filler : AtomId)
deriving DecidableEq, Inhabited

/-- The number of the symbol of a concept name. -/
def StoredAtom.name? : StoredAtom → Option NameId
  | .name number => some number
  | .restriction _ _ => none

/-- The kind of a new atom. Restrictions have none. -/
def StoredAtom.newKind : StoredAtom → Option NameKind
  | .name _ => some .constant
  | .restriction _ _ => none

/-- Symbols, roles and atoms by number, and the kinds by the number of the atom. -/
structure AtomTables where
  names : Table String
  roles : Table String
  atoms : Table StoredAtom
  kinds : Array (Option NameKind)

namespace AtomTables

instance : EmptyCollection AtomTables where
  emptyCollection := ⟨∅, ∅, ∅, #[]⟩

instance : Inhabited AtomTables where
  default := ∅

/-- The number of atoms, which is also the next number to be given. -/
def size (tables : AtomTables) : Nat :=
  tables.atoms.size

/-- The numbers of all atoms in increasing order. -/
def ids (tables : AtomTables) : List AtomId :=
  List.range tables.size

/-- The atom with a given number. -/
def atom? (tables : AtomTables) (id : AtomId) : Option StoredAtom :=
  tables.atoms.get? id

/-- The number of an atom. If it is new, it is stored with its kind. -/
def intern (tables : AtomTables) (atom : StoredAtom) : AtomId × AtomTables :=
  match tables.atoms.find? atom with
  | some id => (id, tables)
  | none =>
    let (id, atoms) := tables.atoms.insert atom
    (id, { tables with atoms, kinds := tables.kinds.push atom.newKind })

/-- The number of a concept name. Its symbol and the atom are stored if they are new. -/
def internName (tables : AtomTables) (symbol : String) : AtomId × AtomTables :=
  let (name, names) := tables.names.insert symbol
  { tables with names }.intern (.name name)

/-- The number of a restriction. Its role and the atom are stored if they are new. Its filler must
be a stored concept name, which is looked up before anything is stored. -/
def internRestriction (tables : AtomTables) (role : String) (filler : AtomId) :
    Except MalformedTerm AtomId × AtomTables :=
  match tables.atom? filler with
  | some (.name _) =>
    let (roleId, roles) := tables.roles.insert role
    let (id, tables) := { tables with roles }.intern (.restriction roleId filler)
    (.ok id, tables)
  | some (.restriction _ _) => (.error (.fillerNotName role), tables)
  | none => (.error (.fillerUnknown filler), tables)

/-- The number of a concept name, if its symbol and the atom are stored. -/
def findName? (tables : AtomTables) (symbol : String) : Option AtomId := do
  tables.atoms.find? (.name (← tables.names.find? symbol))

/-- Whether the symbol of a concept name is stored. -/
def containsName (tables : AtomTables) (symbol : String) : Bool :=
  (tables.names.find? symbol).isSome

/-- The number of a role, if it is stored. -/
def findRole? (tables : AtomTables) (role : String) : Option RoleId :=
  tables.roles.find? role

/-- The symbol of a concept name. Restrictions have none. -/
def symbol? (tables : AtomTables) (id : AtomId) : Option String :=
  match tables.atom? id with
  | some (.name name) => tables.names.get? name
  | _ => none

/-- The name of a role. -/
def roleName? (tables : AtomTables) (role : RoleId) : Option String :=
  tables.roles.get? role

/-- The role and the filler of a restriction. Concept names have none. -/
def restriction? (tables : AtomTables) (id : AtomId) : Option (RoleId × AtomId) :=
  match tables.atom? id with
  | some (.restriction role filler) => some (role, filler)
  | _ => none

/-- Whether an atom is a restriction. -/
def isRestriction (tables : AtomTables) (id : AtomId) : Bool :=
  (tables.restriction? id).isSome

/-- The kind of an atom, as it stands in the table of kinds. -/
def kind? (tables : AtomTables) (id : AtomId) : Option NameKind :=
  tables.kinds[id]?.join

/-- The tables after an atom was given another kind. An atom without a kind is left alone. -/
def setKind (tables : AtomTables) (id : AtomId) (kind : NameKind) : AtomTables :=
  match tables.kind? id with
  | some _ => { tables with kinds := tables.kinds.setIfInBounds id (some kind) }
  | none => tables

/-- Whether an atom has a kind of variables. -/
def isVariable (tables : AtomTables) (id : AtomId) : Bool :=
  (tables.kind? id).any NameKind.isVariable

/-- Whether an atom has a given kind. -/
def hasKind (tables : AtomTables) (kind : NameKind) (id : AtomId) : Bool :=
  tables.kind? id == some kind

/-- Whether an atom is ground: it is no variable, and neither is its filler. There is no answer for
a number that no atom has. -/
def isGround? (tables : AtomTables) (id : AtomId) : Option Bool :=
  match tables.atom? id with
  | none => none
  | some (.name _) => some (!tables.isVariable id)
  | some (.restriction _ filler) => some (!tables.isVariable filler)

/-- The written form of an atom, such as `∃r.B`. What has no symbol is written as a question mark.
There is no answer for a number that no atom has. -/
def text? (tables : AtomTables) (id : AtomId) : Option String :=
  match tables.atom? id with
  | none => none
  | some (.name _) => some ((tables.symbol? id).getD "?")
  | some (.restriction role filler) =>
    match tables.roleName? role, tables.atom? filler with
    | some roleName, some _ => some ("∃" ++ roleName ++ "." ++ (tables.symbol? filler).getD "?")
    | _, _ => none

end AtomTables

end ConceptUnification
