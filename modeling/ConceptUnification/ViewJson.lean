import ConceptUnification.Config
import ConceptUnification.JsonValue
import ConceptUnification.View

/-!
# JSON form of concepts, views and settings

Each type is written by `toJson` and read by `ofJson?`. Reading accepts what writing produces, with
any further members in objects, and the other shapes that records and variants may have.
-/

namespace ConceptUnification

namespace Concept

/-- The variants of the JSON form and their members. -/
def jsonVariants : List (String × List String) :=
  [("Name", ["name"]), ("And", ["conjuncts"]), ("Exists", ["role", "filler"])]

mutual

/-- The JSON form of a concept. -/
def toJson : Concept → JsonValue
  | .name symbol => .object [("type", .string "Name"), ("name", .string symbol)]
  | .conjunction parts => .object [("type", .string "And"), ("conjuncts", .array (toJsonAll parts))]
  | .restriction role filler =>
    .object [("type", .string "Exists"), ("role", .string role), ("filler", toJson filler)]

/-- The JSON forms of a list of concepts. -/
def toJsonAll : List Concept → List JsonValue
  | [] => []
  | part :: parts => toJson part :: toJsonAll parts

end

mutual

/-- Reads a concept, where `nested` says whether it is part of another one. -/
def readJson? (nested : Bool) (value : JsonValue) : Option Concept :=
  match _variant : value.variant? nested jsonVariants with
  | some ("Name", [.string symbol]) => some (.name symbol)
  | some ("And", [.array parts]) => (readJsonAll? parts).map .conjunction
  | some ("Exists", [.string role, filler]) => (readJson? true filler).map (.restriction role)
  | _ => none
termination_by sizeOf value
decreasing_by
  · have := JsonValue.sizeOf_lt_of_variant? _variant _ List.mem_cons_self
    simp at this
    omega
  · exact JsonValue.sizeOf_lt_of_variant? _variant _ (by simp)

/-- Reads the parts of a concept. -/
def readJsonAll? (values : List JsonValue) : Option (List Concept) :=
  match values with
  | [] => some []
  | value :: rest =>
    match readJson? true value, readJsonAll? rest with
    | some part, some parts => some (part :: parts)
    | _, _ => none
termination_by sizeOf values

end

/-- Reads a concept. -/
def ofJson? : JsonValue → Option Concept :=
  readJson? false

end Concept

namespace AtomView

/-- The variants of the JSON form and their members. -/
def jsonVariants : List (String × List String) :=
  [("Name", ["name"]), ("Exists", ["role", "filler"])]

/-- The JSON form of an atom. -/
def toJson : AtomView → JsonValue
  | .name symbol => .object [("type", .string "Name"), ("name", .string symbol)]
  | .restriction role filler =>
    .object [("type", .string "Exists"), ("role", .string role), ("filler", toJson filler)]

/-- Reads an atom, where `nested` says whether it is the filler of another one. -/
def readJson? (nested : Bool) (value : JsonValue) : Option AtomView :=
  match _variant : value.variant? nested jsonVariants with
  | some ("Name", [.string symbol]) => some (.name symbol)
  | some ("Exists", [.string role, filler]) => (readJson? true filler).map (.restriction role)
  | _ => none
termination_by sizeOf value
decreasing_by
  exact JsonValue.sizeOf_lt_of_variant? _variant _ (by simp)

/-- Reads an atom. -/
def ofJson? : JsonValue → Option AtomView :=
  readJson? false

end AtomView

namespace BindingView

/-- The JSON form of a binding. -/
def toJson (view : BindingView) : JsonValue :=
  .object [("variable", .string view.symbol), ("user", .bool view.user),
    ("atoms", .array (view.atoms.map AtomView.toJson)), ("expanded", view.expanded.toJson)]

/-- Reads a binding. -/
def ofJson? (value : JsonValue) : Option BindingView := do
  match ← value.record? ["variable", "user", "atoms", "expanded"] with
  | [symbol, user, atoms, expanded] =>
    return {
      symbol := ← symbol.string?
      user := ← user.bool?
      atoms := ← atoms.list? AtomView.ofJson?
      expanded := ← Concept.ofJson? expanded }
  | _ => none

end BindingView

namespace UnifierView

/-- The JSON form of a unifier. -/
def toJson (view : UnifierView) : JsonValue :=
  .object [("definitions", .array (view.bindings.map BindingView.toJson))]

/-- Reads a unifier. -/
def ofJson? (value : JsonValue) : Option UnifierView := do
  match ← value.record? ["definitions"] with
  | [bindings] => return { bindings := ← bindings.list? BindingView.ofJson? }
  | _ => none

end UnifierView

namespace Relation

/-- All relations. -/
def all : List Relation :=
  [.definition, .primitiveDefinition, .flattening, .equation, .subsumption, .disequation,
    .dissubsumption]

/-- The name of a relation in JSON. -/
def text : Relation → String
  | .definition => "definition"
  | .primitiveDefinition => "primitive_definition"
  | .flattening => "flattening"
  | .equation => "equation"
  | .subsumption => "subsumption"
  | .disequation => "disequation"
  | .dissubsumption => "dissubsumption"

/-- The JSON form of a relation. -/
def toJson (relation : Relation) : JsonValue :=
  .string relation.text

/-- Reads a relation. -/
def ofJson? (value : JsonValue) : Option Relation := do
  let name ← value.unit?
  all.find? (·.text == name)

end Relation

namespace ConstraintView

/-- The JSON form of a constraint. -/
def toJson (view : ConstraintView) : JsonValue :=
  .object [("relation", view.relation.toJson), ("left", .array (view.left.map AtomView.toJson)),
    ("right", .array (view.right.map AtomView.toJson))]

/-- Reads a constraint. -/
def ofJson? (value : JsonValue) : Option ConstraintView := do
  match ← value.record? ["relation", "left", "right"] with
  | [relation, left, right] =>
    return {
      relation := ← Relation.ofJson? relation
      left := ← left.list? AtomView.ofJson?
      right := ← right.list? AtomView.ofJson? }
  | _ => none

end ConstraintView

namespace GoalView

/-- The JSON form of a goal. -/
def toJson (view : GoalView) : JsonValue :=
  .object [("user_variables", .array (view.userVariables.map .string)),
    ("constraints", .array (view.constraints.map ConstraintView.toJson))]

/-- Reads a goal. -/
def ofJson? (value : JsonValue) : Option GoalView := do
  match ← value.record? ["user_variables", "constraints"] with
  | [userVariables, constraints] =>
    return {
      userVariables := ← userVariables.list? JsonValue.string?
      constraints := ← constraints.list? ConstraintView.ofJson? }
  | _ => none

end GoalView

namespace NameKind

/-- All kinds of concept names. -/
def all : List NameKind :=
  [.constant, .userVariable, .definitionVariable, .auxiliaryVariable]

/-- The name of a kind in JSON. -/
def text : NameKind → String
  | .constant => "Constant"
  | .userVariable => "UserVariable"
  | .definitionVariable => "DefinitionVariable"
  | .auxiliaryVariable => "AuxiliaryVariable"

/-- The JSON form of a kind. -/
def toJson (kind : NameKind) : JsonValue :=
  .string kind.text

/-- Reads a kind. -/
def ofJson? (value : JsonValue) : Option NameKind := do
  let name ← value.unit?
  all.find? (·.text == name)

end NameKind

namespace Algorithm

/-- The JSON form of the choice of an engine. -/
def toJson (algorithm : Algorithm) : JsonValue :=
  .string algorithm.text

/-- Reads the choice of an engine. -/
def ofJson? (value : JsonValue) : Option Algorithm := do
  ofText? (← value.unit?)

end Algorithm

namespace Config

/-- The names of the settings, in the order of their array form. -/
def jsonMembers : List String :=
  ["algorithm", "step_limit", "undef_suffix", "aux_prefix"]

/-- The JSON form of the settings. -/
def toJson (config : Config) : JsonValue :=
  .object [("algorithm", config.algorithm.toJson), ("step_limit", .integer config.stepLimit),
    ("undef_suffix", .string config.undefinedEnding), ("aux_prefix", .string config.auxiliaryStem)]

/-- The settings that are given, each with its position. -/
def given? : JsonValue → Option (List (Option JsonValue))
  | .object members => some (jsonMembers.map fun name => JsonValue.member? name members)
  | .array items =>
    if items.length ≤ jsonMembers.length then
      some ((List.range jsonMembers.length).map fun position => items[position]?)
    else none
  | _ => none

/-- Reads one setting, or takes the default if it is not given. -/
def readSetting? {α : Type} (read? : JsonValue → Option α) (default : α) :
    Option JsonValue → Option α
  | none => some default
  | some value => read? value

/-- Reads the settings. Those that are missing have their defaults. -/
def ofJson? (value : JsonValue) : Option Config := do
  match ← given? value with
  | [algorithm, stepLimit, undefinedEnding, auxiliaryStem] =>
    let defaults : Config := {}
    return {
      algorithm := ← readSetting? Algorithm.ofJson? defaults.algorithm algorithm
      stepLimit := ← readSetting? (JsonValue.natBelow? UInt64.size) defaults.stepLimit stepLimit
      undefinedEnding := ← readSetting? JsonValue.string? defaults.undefinedEnding undefinedEnding
      auxiliaryStem := ← readSetting? JsonValue.string? defaults.auxiliaryStem auxiliaryStem }
  | _ => none

end Config

end ConceptUnification
