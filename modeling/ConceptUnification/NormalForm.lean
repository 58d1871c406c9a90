import ConceptUnification.Atom

/-!
# Reduced normal forms

A variable-free concept is kept as the increasing list of its top-level atoms, each a concept name
or a restriction with a normalised filler. No atom of a conjunction implies another one, so two
concepts are equivalent exactly when their normal forms are equal. Names come before restrictions.
-/

namespace ConceptUnification

/-- An atom of a normal form. -/
inductive NormalAtom where
  | name (id : AtomId)
  /-- The elements that have a successor over the role with all atoms of the filler. -/
  | restriction (role : RoleId) (filler : List NormalAtom)
deriving Inhabited

namespace NormalAtom

mutual

/-- Decides equality by recursion on the first atom. -/
def decEq : (a b : NormalAtom) → Decidable (a = b)
  | .name a, .name b =>
    if same : a = b then .isTrue (by rw [same]) else .isFalse (by simpa using same)
  | .restriction role filler, .restriction role' filler' =>
    if sameRole : role = role' then
      match decEqAll filler filler' with
      | .isTrue sameFiller => .isTrue (by rw [sameRole, sameFiller])
      | .isFalse otherFiller => .isFalse (by simp [otherFiller])
    else .isFalse (by simp [sameRole])
  | .name _, .restriction _ _ => .isFalse (by simp)
  | .restriction _ _, .name _ => .isFalse (by simp)

/-- Decides equality of lists of atoms. -/
def decEqAll : (as bs : List NormalAtom) → Decidable (as = bs)
  | [], [] => .isTrue rfl
  | a :: as, b :: bs =>
    match decEq a b with
    | .isTrue sameHead =>
      match decEqAll as bs with
      | .isTrue sameTail => .isTrue (by rw [sameHead, sameTail])
      | .isFalse otherTail => .isFalse (by simp [otherTail])
    | .isFalse otherHead => .isFalse (by simp [otherHead])
  | [], _ :: _ => .isFalse (by simp)
  | _ :: _, [] => .isFalse (by simp)

end

instance : DecidableEq NormalAtom := decEq

mutual

/-- Names come before restrictions. Names are ordered by number, and restrictions by role and then
by filler. -/
def order : NormalAtom → NormalAtom → Ordering
  | .name a, .name b => compare a b
  | .name _, .restriction _ _ => .lt
  | .restriction _ _, .name _ => .gt
  | .restriction role filler, .restriction role' filler' =>
    (compare role role').then (orderAll filler filler')

/-- Lists of atoms are ordered by the first difference, and a beginning comes before the whole. -/
def orderAll : List NormalAtom → List NormalAtom → Ordering
  | [], [] => .eq
  | [], _ :: _ => .lt
  | _ :: _, [] => .gt
  | a :: as, b :: bs => (order a b).then (orderAll as bs)

end

mutual

/-- Whether the first atom subsumes the second one. -/
def subsumes : NormalAtom → NormalAtom → Bool
  | .name b, .name a => a == b
  | .restriction role filler, .restriction role' filler' =>
    role' == role && subsumesAll filler filler'
  | .name _, .restriction _ _ => false
  | .restriction _ _, .name _ => false

/-- Whether each atom of the first list subsumes some atom of the second one. -/
def subsumesAll : List NormalAtom → List NormalAtom → Bool
  | [], _ => true
  | b :: bs, as => as.any (subsumes b) && subsumesAll bs as

end

/-- Whether an atom lies below another one. -/
def isBelow (a b : NormalAtom) : Bool :=
  b.subsumes a

/-- Whether `b` makes `a` redundant in a conjunction that holds both. Of two equivalent atoms the
smaller one stays. -/
def absorbs (b a : NormalAtom) : Bool :=
  b != a && b.isBelow a && !(a.isBelow b && a.order b == .lt)

end NormalAtom

/-- A conjunction of normalised atoms. -/
structure NormalConcept where
  /-- The atoms in increasing order. -/
  atoms : List NormalAtom
deriving DecidableEq, Inhabited

namespace NormalConcept

/-- The concept that holds everywhere. -/
def top : NormalConcept := ⟨[]⟩

/-- A single concept name. -/
def name (id : AtomId) : NormalConcept := ⟨[.name id]⟩

/-- A single restriction. -/
def restriction (role : RoleId) (filler : NormalConcept) : NormalConcept :=
  ⟨[.restriction role filler.atoms]⟩

/-- Leaves out every atom that another one makes redundant. -/
def reduce (atoms : List NormalAtom) : NormalConcept :=
  ⟨atoms.filter fun a => !atoms.any fun b => b.absorbs a⟩

/-- The conjunction of concepts in normal form, in normal form again. -/
def conjunction (parts : List NormalConcept) : NormalConcept :=
  reduce ((parts.flatMap atoms).foldr (insertOrdered NormalAtom.order) [])

/-- Whether a concept lies below another one: each atom of the upper concept subsumes an atom of the
lower one. -/
def isBelow (c d : NormalConcept) : Bool :=
  NormalAtom.subsumesAll d.atoms c.atoms

/-- Whether two concepts lie below each other. -/
def isEquivalent (c d : NormalConcept) : Bool :=
  c.isBelow d && d.isBelow c

/-- The order of the lists of atoms. -/
def order (c d : NormalConcept) : Ordering :=
  NormalAtom.orderAll c.atoms d.atoms

/-- Whether the concept is the empty conjunction. -/
def isTop (c : NormalConcept) : Bool :=
  c.atoms.isEmpty

/-- The number of top-level atoms. -/
def size (c : NormalConcept) : Nat :=
  c.atoms.length

end NormalConcept

end ConceptUnification
