import ConceptUnification.JsonValue

/-!
# The written form of JSON values

Values are written without spaces, and the members of objects in the order of their names.
Characters beyond ASCII stand for themselves. Equal values have equal texts, so texts also serve to
sort values.
-/

namespace ConceptUnification

namespace JsonValue

/-- A character inside a quoted text. Quotes, backslashes and control characters are escaped. -/
def escapedChar (c : Char) : List Char :=
  if c = '"' then ['\\', '"']
  else if c = '\\' then ['\\', '\\']
  else if c = '\n' then ['\\', 'n']
  else if c = '\r' then ['\\', 'r']
  else if c = '\t' then ['\\', 't']
  else if c.toNat = 8 then ['\\', 'b']
  else if c.toNat = 12 then ['\\', 'f']
  else if c.toNat < 32 then
    ['\\', 'u', '0', '0', Nat.digitChar (c.toNat / 16), Nat.digitChar (c.toNat % 16)]
  else [c]

/-- A text in quotes. -/
def quoted (text : String) : String :=
  "\"" ++ String.ofList (text.toList.flatMap escapedChar) ++ "\""

/-- Puts the members of an object in the order of their names. -/
def sortMembers (members : List (String × String)) : List (String × String) :=
  members.mergeSort fun a b => !(b.1 < a.1)

/-- A member of an object with its value already written. -/
def memberText (member : String × String) : String :=
  quoted member.1 ++ ":" ++ member.2

mutual

/-- The written form of a value. Fractions, whose value is not kept, are all written alike. -/
def text : JsonValue → String
  | .null => "null"
  | .bool value => toString value
  | .integer value => toString value
  | .fraction => "0.5"
  | .string value => quoted value
  | .array items => "[" ++ ",".intercalate (textOfItems items) ++ "]"
  | .object members =>
    "\x7b" ++ ",".intercalate ((sortMembers (textOfMembers members)).map memberText) ++ "\x7d"

/-- The written forms of the items of an array. -/
def textOfItems : List JsonValue → List String
  | [] => []
  | item :: items => text item :: textOfItems items

/-- The names of the members of an object with the written forms of their values. -/
def textOfMembers : List (String × JsonValue) → List (String × String)
  | [] => []
  | (name, value) :: members => (name, text value) :: textOfMembers members

end

end JsonValue

end ConceptUnification
