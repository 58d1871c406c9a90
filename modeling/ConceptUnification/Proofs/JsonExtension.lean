import Mathlib.Data.List.Forall2
import Mathlib.Data.List.Nodup
import ConceptUnification.JsonValue

/-!
# Extensions of JSON values

An extension of a value has further members in some of its objects, at any
depth.  Readers look members up by name, so in an extension of a record or a
variant they find the members of the original, each extended in turn.  A reader
recovers a value from a JSON form if it reads all extensions of the form as this
value.
-/

namespace ConceptUnification

namespace JsonValue

/-- The second value is the first one with further members in some of its
objects.  The further members of an object have other names than those it has,
and members may be listed in any order. -/
inductive Extends : JsonValue → JsonValue → Prop
  | same (value : JsonValue) : Extends value value
  | array {items items' : List JsonValue}
      (each : List.Forall₂ Extends items items') :
      Extends (.array items) (.array items')
  | object {members own further members' : List (String × JsonValue)}
      (names : own.map Prod.fst = members.map Prod.fst)
      (values : List.Forall₂ Extends (members.map Prod.snd) (own.map Prod.snd))
      (unknown : ∀ entry ∈ further, entry.1 ∉ members.map Prod.fst)
      (listed : members'.Perm (own ++ further)) :
      Extends (.object members) (.object members')

theorem member?_eq_some {members : List (String × JsonValue)} {name : String}
    {value : JsonValue} (member : (name, value) ∈ members)
    (only : ∀ other, (name, other) ∈ members → other = value) :
    member? name members = some value := by
  induction members with
  | nil => cases member
  | cons entry members induction =>
      obtain ⟨key, first⟩ := entry
      by_cases here : key = name
      · subst here
        rw [only first List.mem_cons_self]
        simp [member?]
      · have later : (name, value) ∈ members := by
          rcases List.mem_cons.mp member with same | later
          · cases same
            exact absurd rfl here
          · exact later
        have found := induction later fun other inMembers =>
          only other (List.mem_cons_of_mem _ inMembers)
        simpa [member?, here] using found

theorem members?_eq_some_iff {members : List (String × JsonValue)}
    {names : List String} {values : List JsonValue} :
    members? members names = some values ↔
      names.map (member? · members) = values.map some := by
  induction names generalizing values with
  | nil => cases values <;> simp [members?]
  | cons name names induction =>
      rw [members?, List.map_cons]
      cases first : member? name members with
      | none => cases values <;> simp
      | some value =>
          cases values with
          | nil => cases members? members names <;> simp
          | cons value' values =>
              rw [List.map_cons, List.cons.injEq, ← induction]
              cases members? members names <;> simp

namespace Extends

/-- Further members may stand in front of the members of the object. -/
theorem adding {members own : List (String × JsonValue)}
    (further : List (String × JsonValue))
    (names : own.map Prod.fst = members.map Prod.fst)
    (values : List.Forall₂ Extends (members.map Prod.snd) (own.map Prod.snd))
    (unknown : ∀ entry ∈ further, entry.1 ∉ members.map Prod.fst) :
    Extends (.object members) (.object (further ++ own)) :=
  .object names values unknown List.perm_append_comm

theorem exists_object {members : List (String × JsonValue)}
    {extended : JsonValue} (extension : Extends (.object members) extended) :
    ∃ own further members', extended = .object members' ∧
      own.map Prod.fst = members.map Prod.fst ∧
      List.Forall₂ Extends (members.map Prod.snd) (own.map Prod.snd) ∧
      (∀ entry ∈ further, entry.1 ∉ members.map Prod.fst) ∧
      members'.Perm (own ++ further) := by
  cases extension with
  | same =>
      refine ⟨members, [], members, rfl, rfl, ?_, ?_, ?_⟩
      · exact List.forall₂_same.mpr fun value _ => .same value
      · intro entry absent
        cases absent
      · rw [List.append_nil]
  | object names values unknown listed =>
      exact ⟨_, _, _, rfl, names, values, unknown, listed⟩

theorem exists_items {items : List JsonValue} {extended : JsonValue}
    (extension : Extends (.array items) extended) :
    ∃ items', extended = .array items' ∧ List.Forall₂ Extends items items' := by
  cases extension with
  | same => exact ⟨items, rfl, List.forall₂_same.mpr fun item _ => .same item⟩
  | array each => exact ⟨_, rfl, each⟩

/-- If the names in an object are distinct, looking them up in an extension
gives extensions of the values in the object. -/
theorem exists_values {members : List (String × JsonValue)}
    {extended : JsonValue} (extension : Extends (.object members) extended)
    (distinct : (members.map Prod.fst).Nodup) :
    ∃ members' values, extended = .object members' ∧
      (members.map Prod.fst).map (member? · members') = values.map some ∧
      List.Forall₂ Extends (members.map Prod.snd) values := by
  obtain ⟨own, further, members', rfl, names, values, unknown, listed⟩ :=
    extension.exists_object
  refine ⟨members', own.map Prod.snd, rfl, ?_, values⟩
  rw [← names] at distinct unknown ⊢
  rw [List.map_map, List.map_map]
  apply List.map_congr_left
  intro entry inOwn
  obtain ⟨name, value⟩ := entry
  apply member?_eq_some (listed.mem_iff.mpr (List.mem_append_left _ inOwn))
  intro other inMembers
  rcases List.mem_append.mp (listed.mem_iff.mp inMembers) with
    otherOwn | inFurther
  · have same := List.inj_on_of_nodup_map distinct otherOwn inOwn rfl
    exact congrArg Prod.snd same
  · have known : name ∈ own.map Prod.fst := List.mem_map_of_mem inOwn
    exact absurd known (unknown _ inFurther)

theorem exists_record? {members : List (String × JsonValue)}
    {extended : JsonValue} (extension : Extends (.object members) extended)
    (distinct : (members.map Prod.fst).Nodup) :
    ∃ values, record? (members.map Prod.fst) extended = some values ∧
      List.Forall₂ Extends (members.map Prod.snd) values := by
  obtain ⟨members', values, rfl, found, each⟩ :=
    extension.exists_values distinct
  exact ⟨values, members?_eq_some_iff.mpr found, each⟩

/-- A variant is read from an object in which its tag comes with the members
that the table lists for it.  In the table, the members of each variant differ
from each other and from the tag. -/
theorem exists_variant? {tag : String} {members : List (String × JsonValue)}
    {extended : JsonValue}
    (extension : Extends (.object (("type", .string tag) :: members)) extended)
    {variants : List (String × List String)}
    (distinct : ∀ variant ∈ variants, ("type" :: variant.2).Nodup)
    (known : variants.lookup tag = some (members.map Prod.fst)) (nested : Bool) :
    ∃ values, variant? nested variants extended = some (tag, values) ∧
      List.Forall₂ Extends (members.map Prod.snd) values := by
  have listed : (tag, members.map Prod.fst) ∈ variants := by
    obtain ⟨before, after, split, _⟩ := List.lookup_eq_some_iff.mp known
    rw [split]
    exact List.mem_append_right _ List.mem_cons_self
  obtain ⟨members', _, rfl, under, each⟩ :=
    extension.exists_values (distinct _ listed)
  obtain ⟨_, values, ⟨⟩, later, rfl⟩ := List.forall₂_cons_left_iff.mp each
  simp only [List.map_cons, List.cons.injEq] at under
  have taken := members?_eq_some_iff.mpr under.2
  refine ⟨values, ?_, later⟩
  simp [variant?, tagName?, under.1, known, taken]

end Extends

section Reading

variable {α : Type}

/-- The reader takes all extensions of the form to the value. -/
def Recovers (read? : JsonValue → Option α) (form : JsonValue) (value : α) :
    Prop :=
  ∀ extended, form.Extends extended → read? extended = some value

theorem recovers_string (text : String) : Recovers string? (.string text) text := by
  intro extended extension
  cases extension
  rfl

theorem recovers_bool (value : Bool) : Recovers bool? (.bool value) value := by
  intro extended extension
  cases extension
  rfl

theorem recovers_natBelow {bound value : Nat} (below : value < bound) :
    Recovers (natBelow? bound) (.integer value) value := by
  intro extended extension
  cases extension
  simp [natBelow?, below]

theorem recovers_unit (name : String) : Recovers unit? (.string name) name := by
  intro extended extension
  cases extension
  rfl

/-- A list is recovered item by item. -/
theorem recovers_list {read? : JsonValue → Option α} {write : α → JsonValue}
    {items : List α} (each : ∀ item ∈ items, Recovers read? (write item) item) :
    Recovers (list? read?) (.array (items.map write)) items := by
  intro extended extension
  obtain ⟨forms, rfl, extensions⟩ := extension.exists_items
  rw [list?]
  clear extension
  induction items generalizing forms with
  | nil =>
      cases extensions
      rfl
  | cons item items induction =>
      obtain ⟨form, forms, first, later, rfl⟩ :=
        List.forall₂_cons_left_iff.mp extensions
      rw [List.forall_mem_cons] at each
      rw [List.mapM_cons, each.1 form first,
        induction each.2 forms later]
      rfl

end Reading

end JsonValue

end ConceptUnification
