/-!
# JSON values

The values of a JSON document, as far as concepts, goals and unifiers need them, and the two shapes
in which structured data is read. A record is an object with at least the named members, or the
array of exactly these members in order. A variant is a record with a tag, which is the member
`type` of the object or comes first in the array. Members that are not asked for are ignored.
-/

namespace ConceptUnification

/-- A JSON value. -/
inductive JsonValue where
  | null
  | bool (value : Bool)
  /-- A number written without fraction and exponent. -/
  | integer (value : Int)
  /-- Any other number, whose value is never needed. -/
  | fraction
  | string (value : String)
  | array (items : List JsonValue)
  /-- Values by name. -/
  | object (members : List (String × JsonValue))
deriving Inhabited

namespace JsonValue

/-- The member with a given name. -/
def member? (name : String) : List (String × JsonValue) → Option JsonValue
  | [] => none
  | (key, value) :: members => if key == name then some value else member? name members

theorem sizeOf_lt_of_member? {name : String} {members : List (String × JsonValue)}
    {value : JsonValue} (found : member? name members = some value) :
    sizeOf value < sizeOf members := by
  induction members with
  | nil => simp [member?] at found
  | cons entry members ih =>
    obtain ⟨key, first⟩ := entry
    simp only [member?] at found
    split at found
    · cases found
      simp
      omega
    · have := ih found
      simp
      omega

/-- The members with the given names, in the order of the names. -/
def members? (members : List (String × JsonValue)) : List String → Option (List JsonValue)
  | [] => some []
  | name :: names =>
    match member? name members, members? members names with
    | some value, some values => some (value :: values)
    | _, _ => none

theorem sizeOf_lt_of_members? {members : List (String × JsonValue)} {names : List String}
    {values : List JsonValue} (found : members? members names = some values) :
    ∀ value ∈ values, sizeOf value < sizeOf members := by
  induction names generalizing values with
  | nil =>
    simp only [members?] at found
    cases found
    simp
  | cons name names ih =>
    simp only [members?] at found
    split at found
    · next first others single rest =>
      cases found
      intro value member
      rcases List.mem_cons.mp member with rfl | member
      · exact sizeOf_lt_of_member? single
      · exact ih rest value member
    · cases found

/-- The members of a record. -/
def record? (names : List String) : JsonValue → Option (List JsonValue)
  | .object members => members? members names
  | .array items => if items.length = names.length then some items else none
  | _ => none

/-- The name of a tag. Inside another variant a tag may also be the number of its name. -/
def tagName? (nested : Bool) (variants : List (String × List String)) :
    JsonValue → Option String
  | .string name => some name
  | .integer number =>
    if nested && 0 ≤ number then (variants[number.toNat]?).map Prod.fst else none
  | _ => none

/-- The name of a variant with its members, where `variants` lists the names of the members of each
variant. -/
def variant? (nested : Bool) (variants : List (String × List String)) :
    JsonValue → Option (String × List JsonValue)
  | .object members => do
    let tag ← member? "type" members
    let name ← tagName? nested variants tag
    let names ← variants.lookup name
    let values ← members? members names
    return (name, values)
  | .array (tag :: items) => do
    let name ← tagName? nested variants tag
    let names ← variants.lookup name
    if items.length = names.length then some (name, items) else none
  | _ => none

theorem sizeOf_lt_of_variant? {nested : Bool} {variants : List (String × List String)}
    {value : JsonValue} {name : String} {values : List JsonValue}
    (found : variant? nested variants value = some (name, values)) :
    ∀ member ∈ values, sizeOf member < sizeOf value := by
  intro member inValues
  cases value with
  | object members =>
    simp only [variant?, Option.bind_eq_bind, Option.bind_eq_some_iff] at found
    obtain ⟨_, _, _, _, _, _, others, taken, same⟩ := found
    cases same
    have := sizeOf_lt_of_members? taken member inValues
    simp
    omega
  | array items =>
    cases items with
    | nil => simp [variant?] at found
    | cons tag items =>
      simp only [variant?, Option.bind_eq_bind, Option.bind_eq_some_iff] at found
      obtain ⟨_, _, _, _, same⟩ := found
      split at same
      · cases same
        have := List.sizeOf_lt_of_mem inValues
        simp
        omega
      · cases same
  | null => simp [variant?] at found
  | bool value => simp [variant?] at found
  | integer value => simp [variant?] at found
  | fraction => simp [variant?] at found
  | string value => simp [variant?] at found

/-- The name of a variant without members: a text, or an object whose only member is null. -/
def unit? : JsonValue → Option String
  | .string name => some name
  | .object [(name, .null)] => some name
  | _ => none

/-- A text. -/
def string? : JsonValue → Option String
  | .string value => some value
  | _ => none

/-- A truth value. -/
def bool? : JsonValue → Option Bool
  | .bool value => some value
  | _ => none

/-- An integer from zero to below a bound. -/
def natBelow? (bound : Nat) : JsonValue → Option Nat
  | .integer value => if 0 ≤ value && value < bound then some value.toNat else none
  | _ => none

/-- The number of an atom or a role, which has at most 32 bits. -/
def id? (value : JsonValue) : Option Nat :=
  value.natBelow? UInt32.size

/-- An integer of 32 bits with its sign, which is how a literal is written. -/
def int32? : JsonValue → Option Int
  | .integer value =>
    if Int32.minValue.toInt ≤ value && value ≤ Int32.maxValue.toInt then some value else none
  | _ => none

/-- A list whose items are read one by one. -/
def list? {α : Type} (read? : JsonValue → Option α) : JsonValue → Option (List α)
  | .array items => items.mapM read?
  | _ => none

end JsonValue

end ConceptUnification
