import ConceptUnification.Proofs.JsonExtension
import ConceptUnification.ViewJson

/-!
# Round trips through JSON

Concepts, views and settings are written by one function and read by another.
Each of them is recovered from its JSON form and from every extension of it:
concepts and atoms by induction, with the tag of each constructor, and the other
views member by member.
-/

namespace ConceptUnification

open JsonValue

namespace Concept

theorem distinct_jsonVariants :
    ∀ variant ∈ jsonVariants, ("type" :: variant.2).Nodup := by
  decide

theorem readJson?_name {nested : Bool} {value : JsonValue} {symbol : String}
    (variant : value.variant? nested jsonVariants =
      some ("Name", [.string symbol])) :
    readJson? nested value = some (.name symbol) := by
  rw [readJson?]
  split <;> simp_all

theorem readJson?_conjunction {nested : Bool} {value : JsonValue}
    {parts : List JsonValue}
    (variant : value.variant? nested jsonVariants =
      some ("And", [.array parts])) :
    readJson? nested value = (readJsonAll? parts).map .conjunction := by
  rw [readJson?]
  split <;> simp_all

theorem readJson?_restriction {nested : Bool} {value filler : JsonValue}
    {role : String}
    (variant : value.variant? nested jsonVariants =
      some ("Exists", [.string role, filler])) :
    readJson? nested value = (readJson? true filler).map (.restriction role) := by
  rw [readJson?]
  split <;> simp_all

mutual

/-- A concept is recovered from its JSON form, inside another one or not. -/
theorem recovers_toJson (nested : Bool) (concept : Concept) :
    Recovers (readJson? nested) concept.toJson concept := by
  intro extended extension
  cases concept with
  | name symbol =>
      rw [toJson] at extension
      obtain ⟨_, variant, each⟩ :=
        extension.exists_variant? distinct_jsonVariants rfl nested
      obtain _ | ⟨⟨⟩, ⟨⟩⟩ := each
      exact readJson?_name variant
  | conjunction parts =>
      rw [toJson] at extension
      obtain ⟨_, variant, each⟩ :=
        extension.exists_variant? distinct_jsonVariants rfl nested
      obtain _ | ⟨listed, ⟨⟩⟩ := each
      obtain ⟨forms, rfl, extendedParts⟩ := listed.exists_items
      rw [readJson?_conjunction variant,
        readJsonAll?_of_extends parts extendedParts]
      rfl
  | restriction role filler =>
      rw [toJson] at extension
      obtain ⟨_, variant, each⟩ :=
        extension.exists_variant? distinct_jsonVariants rfl nested
      obtain _ | ⟨⟨⟩, _ | ⟨inner, ⟨⟩⟩⟩ := each
      rw [readJson?_restriction variant, recovers_toJson true filler _ inner]
      rfl

/-- The parts of a conjunction are recovered one by one. -/
theorem readJsonAll?_of_extends (parts : List Concept) {forms : List JsonValue}
    (each : List.Forall₂ Extends (toJsonAll parts) forms) :
    readJsonAll? forms = some parts := by
  cases parts with
  | nil =>
      rw [toJsonAll] at each
      cases each
      rw [readJsonAll?]
  | cons part parts =>
      rw [toJsonAll] at each
      obtain ⟨form, forms, first, later, rfl⟩ :=
        List.forall₂_cons_left_iff.mp each
      rw [readJsonAll?, recovers_toJson true part form first,
        readJsonAll?_of_extends parts later]

end

end Concept

namespace AtomView

theorem distinct_jsonVariants :
    ∀ variant ∈ jsonVariants, ("type" :: variant.2).Nodup := by
  decide

theorem readJson?_name {nested : Bool} {value : JsonValue} {symbol : String}
    (variant : value.variant? nested jsonVariants =
      some ("Name", [.string symbol])) :
    readJson? nested value = some (.name symbol) := by
  rw [readJson?]
  split <;> simp_all

theorem readJson?_restriction {nested : Bool} {value filler : JsonValue}
    {role : String}
    (variant : value.variant? nested jsonVariants =
      some ("Exists", [.string role, filler])) :
    readJson? nested value = (readJson? true filler).map (.restriction role) := by
  rw [readJson?]
  split <;> simp_all

/-- An atom is recovered from its JSON form, as a filler or not. -/
theorem recovers_toJson (nested : Bool) (view : AtomView) :
    Recovers (readJson? nested) view.toJson view := by
  induction view generalizing nested with
  | name symbol =>
      intro extended extension
      obtain ⟨_, variant, each⟩ :=
        extension.exists_variant? distinct_jsonVariants rfl nested
      obtain _ | ⟨⟨⟩, ⟨⟩⟩ := each
      exact readJson?_name variant
  | restriction role filler induction =>
      intro extended extension
      obtain ⟨_, variant, each⟩ :=
        extension.exists_variant? distinct_jsonVariants rfl nested
      obtain _ | ⟨⟨⟩, _ | ⟨inner, ⟨⟩⟩⟩ := each
      rw [readJson?_restriction variant, induction true _ inner]
      rfl

theorem recovers_list (views : List AtomView) :
    Recovers (list? ofJson?) (.array (views.map toJson)) views :=
  JsonValue.recovers_list fun view _ => view.recovers_toJson false

end AtomView

theorem BindingView.recovers_toJson (view : BindingView) :
    Recovers ofJson? view.toJson view := by
  intro extended extension
  obtain ⟨_, taken, each⟩ := extension.exists_record? (by simp)
  obtain _ | ⟨symbol, _ | ⟨user, _ | ⟨atoms, _ | ⟨expanded, ⟨⟩⟩⟩⟩⟩ := each
  simp only [List.map_cons, List.map_nil] at taken
  have symbolRead := recovers_string _ _ symbol
  have userRead := recovers_bool _ _ user
  have atomsRead := AtomView.recovers_list _ _ atoms
  have expandedRead := view.expanded.recovers_toJson false _ expanded
  rw [← Concept.ofJson?] at expandedRead
  simp [ofJson?, taken, symbolRead, userRead, atomsRead, expandedRead]

theorem UnifierView.recovers_toJson (view : UnifierView) :
    Recovers ofJson? view.toJson view := by
  intro extended extension
  obtain ⟨_, taken, each⟩ := extension.exists_record? (by simp)
  obtain _ | ⟨bindings, ⟨⟩⟩ := each
  simp only [List.map_cons, List.map_nil] at taken
  have bindingsRead := JsonValue.recovers_list
    (fun binding _ => BindingView.recovers_toJson binding) _ bindings
  simp [ofJson?, taken, bindingsRead]

theorem Relation.recovers_toJson (relation : Relation) :
    Recovers ofJson? relation.toJson relation := by
  intro extended extension
  rw [ofJson?, recovers_unit relation.text extended extension]
  cases relation <;> rfl

theorem ConstraintView.recovers_toJson (view : ConstraintView) :
    Recovers ofJson? view.toJson view := by
  intro extended extension
  obtain ⟨_, taken, each⟩ := extension.exists_record? (by simp)
  obtain _ | ⟨relation, _ | ⟨left, _ | ⟨right, ⟨⟩⟩⟩⟩ := each
  simp only [List.map_cons, List.map_nil] at taken
  have relationRead := view.relation.recovers_toJson _ relation
  have leftRead := AtomView.recovers_list _ _ left
  have rightRead := AtomView.recovers_list _ _ right
  simp [ofJson?, taken, relationRead, leftRead, rightRead]

theorem GoalView.recovers_toJson (view : GoalView) :
    Recovers ofJson? view.toJson view := by
  intro extended extension
  obtain ⟨_, taken, each⟩ := extension.exists_record? (by simp)
  obtain _ | ⟨userVariables, _ | ⟨constraints, ⟨⟩⟩⟩ := each
  simp only [List.map_cons, List.map_nil] at taken
  have userVariablesRead := JsonValue.recovers_list
    (fun symbol _ => recovers_string symbol) _ userVariables
  have constraintsRead := JsonValue.recovers_list
    (fun constraint _ => ConstraintView.recovers_toJson constraint) _ constraints
  simp [ofJson?, taken, userVariablesRead, constraintsRead]

theorem Algorithm.recovers_toJson (algorithm : Algorithm) :
    Recovers ofJson? algorithm.toJson algorithm := by
  intro extended extension
  rw [ofJson?, recovers_unit algorithm.text extended extension]
  cases algorithm <;> rfl

/-- All settings are written, so no default comes in when they are read. -/
theorem Config.recovers_toJson {config : Config}
    (limit : config.stepLimit < UInt64.size) :
    Recovers ofJson? config.toJson config := by
  intro extended extension
  obtain ⟨members, _, rfl, under, each⟩ := extension.exists_values (by simp)
  obtain _ | ⟨algorithm, _ | ⟨stepLimit, _ | ⟨undefinedEnding,
    _ | ⟨auxiliaryStem, ⟨⟩⟩⟩⟩⟩ := each
  have algorithmRead := config.algorithm.recovers_toJson _ algorithm
  have stepLimitRead := recovers_natBelow limit _ stepLimit
  have undefinedEndingRead := recovers_string _ _ undefinedEnding
  have auxiliaryStemRead := recovers_string _ _ auxiliaryStem
  simp only [List.map_cons, List.map_nil] at under
  simp [ofJson?, given?, jsonMembers, under, readSetting?, algorithmRead,
    stepLimitRead, undefinedEndingRead, auxiliaryStemRead]

namespace JsonValue

/-- A value is read back from its JSON form, and further members in any objects
of the form do not change what is read. -/
structure RoundTrips {α : Type} (write : α → JsonValue)
    (read? : JsonValue → Option α) (value : α) : Prop where
  back : read? (write value) = some value
  unchanged : ∀ extended, (write value).Extends extended →
    read? extended = read? (write value)

theorem Recovers.roundTrips {α : Type} {write : α → JsonValue}
    {read? : JsonValue → Option α} {value : α}
    (recovers : Recovers read? (write value) value) :
    RoundTrips write read? value := by
  have back := recovers _ (.same _)
  refine ⟨back, ?_⟩
  intro extended extension
  rw [back]
  exact recovers extended extension

/-- Concepts and atoms of any nesting, bindings, unifiers, constraints and goals
are read back from their JSON forms, and so are settings, whose step limit has
64 bits.  Further members of objects, at any depth, change nothing. -/
theorem views_round_trip :
    (∀ concept : Concept, RoundTrips Concept.toJson Concept.ofJson? concept) ∧
    (∀ view : AtomView, RoundTrips AtomView.toJson AtomView.ofJson? view) ∧
    (∀ view : BindingView,
      RoundTrips BindingView.toJson BindingView.ofJson? view) ∧
    (∀ view : UnifierView,
      RoundTrips UnifierView.toJson UnifierView.ofJson? view) ∧
    (∀ view : ConstraintView,
      RoundTrips ConstraintView.toJson ConstraintView.ofJson? view) ∧
    (∀ view : GoalView, RoundTrips GoalView.toJson GoalView.ofJson? view) ∧
    ∀ config : Config, config.stepLimit < UInt64.size →
      RoundTrips Config.toJson Config.ofJson? config := by
  refine ⟨?_, ?_, ?_, ?_, ?_, ?_, ?_⟩
  · intro concept
    exact (concept.recovers_toJson false).roundTrips
  · intro view
    exact (view.recovers_toJson false).roundTrips
  · intro view
    exact view.recovers_toJson.roundTrips
  · intro view
    exact view.recovers_toJson.roundTrips
  · intro view
    exact view.recovers_toJson.roundTrips
  · intro view
    exact view.recovers_toJson.roundTrips
  · intro config limit
    exact (Config.recovers_toJson limit).roundTrips

end JsonValue

/-- `∃r.(A ⊓ ⊤)`. -/
def Concept.sampleValue : Concept :=
  .restriction "r" (.conjunction [.name "A", .top])

/-- The form of the sample value, where the name `A` gets a member that only
conjunctions have. -/
def Concept.sampleExtended : JsonValue :=
  .object [("type", .string "Exists"), ("role", .string "r"),
    ("filler", .object [("type", .string "And"), ("conjuncts", .array [
      .object [("conjuncts", .array []), ("type", .string "Name"),
        ("name", .string "A")],
      Concept.top.toJson])])]

theorem Concept.extends_sampleExtended :
    sampleValue.toJson.Extends sampleExtended := by
  simp only [sampleValue, toJson, toJsonAll]
  refine .adding [] rfl (.cons (.same _) (.cons (.same _) (.cons ?_ .nil)))
    (by simp)
  refine .adding [] rfl (.cons (.same _) (.cons (.array ?_) .nil)) (by simp)
  refine .cons (.adding [("conjuncts", .array [])] rfl ?_ (by simp))
    (.cons (.same _) .nil)
  exact .cons (.same _) (.cons (.same _) .nil)

/-- `X` bound to `∃r.Y`, where `Y` stands for the conjunction in the value. -/
def BindingView.sampleBinding : BindingView where
  symbol := "X"
  user := true
  atoms := [.restriction "r" (.name "Y")]
  expanded := .sampleValue

/-- The form of the sample binding, extended in front and in its atom, too. -/
def BindingView.sampleExtended : JsonValue :=
  .object [("type", .null), ("variable", .string "X"), ("user", .bool true),
    ("atoms", .array [.object [("note", .fraction), ("type", .string "Exists"),
      ("role", .string "r"), ("filler", (AtomView.name "Y").toJson)]]),
    ("expanded", Concept.sampleExtended)]

theorem BindingView.extends_sampleExtended :
    sampleBinding.toJson.Extends sampleExtended := by
  refine .adding [("type", .null)] rfl (.cons (.same _) (.cons (.same _)
    (.cons (.array (.cons ?_ .nil))
      (.cons Concept.extends_sampleExtended .nil)))) (by simp)
  exact .adding [("note", .fraction)] rfl
    (.cons (.same _) (.cons (.same _) (.cons (.same _) .nil))) (by simp)

theorem JsonValue.views_round_trip_sampleBinding :
    (BindingView.sampleBinding.toJson.Extends BindingView.sampleExtended ∧
      BindingView.ofJson? BindingView.sampleExtended =
        some BindingView.sampleBinding) ∧
    (1000 < UInt64.size ∧
      Config.ofJson? (Config.toJson
        { algorithm := .satMinimal, stepLimit := 1000 }) =
        some { algorithm := .satMinimal, stepLimit := 1000 }) := by
  obtain ⟨_, _, bindings, _, _, _, configs⟩ := views_round_trip
  have binding := bindings BindingView.sampleBinding
  have extension := BindingView.extends_sampleExtended
  have limit : 1000 < UInt64.size := by decide
  have read := (binding.unchanged _ extension).trans binding.back
  exact ⟨⟨extension, read⟩, limit,
    (configs { algorithm := .satMinimal, stepLimit := 1000 } limit).back⟩

end ConceptUnification
