import ConceptUnification.Proofs.BuiltGoal
import ConceptUnification.Proofs.Evaluation

/-!
# Values of terms

A valuation gives every concept name a normal form and every role a number.  It
extends to nested terms by conjunction and restriction, and to the atoms of a
store.  A flat conjunction means a term for a builder if the two have the same
value under every valuation that gives the auxiliary variables of the builder
the values of what they abbreviate.  What a builder does afterwards does not
change what a conjunction means.
-/

namespace ConceptUnification

/-- Normal forms for all concept names and numbers for all roles. -/
structure ConceptValuation where
  concept : String → NormalConcept
  role : String → RoleId
  canonical : ∀ symbol, (concept symbol).Canonical

mutual

/-- The value of a term.  A term with an unreadable part has none. -/
def Term.value? (valuation : ConceptValuation) : Term → Option NormalConcept
  | .name symbol => some (valuation.concept symbol)
  | .conjunction parts =>
      (Term.values? valuation parts).map .conjunction
  | .restriction role filler =>
      (filler.value? valuation).map (.restriction (valuation.role role))
  | .unreadable => none

/-- The values of the parts of a conjunction. -/
def Term.values? (valuation : ConceptValuation) :
    List Term → Option (List NormalConcept)
  | [] => some []
  | part :: parts => do
      let first ← part.value? valuation
      let others ← Term.values? valuation parts
      return first :: others

end

mutual

theorem Term.canonical_value? {valuation : ConceptValuation} (term : Term)
    {c : NormalConcept} (valued : term.value? valuation = some c) :
    c.Canonical := by
  cases term with
  | name symbol =>
      simp only [Term.value?, Option.some.injEq] at valued
      rw [← valued]
      exact valuation.canonical symbol
  | conjunction parts =>
      simp only [Term.value?, Option.map_eq_some_iff] at valued
      obtain ⟨cs, values, rfl⟩ := valued
      exact NormalConcept.canonical_conjunction
        (Term.canonical_values? parts values)
  | restriction role filler =>
      simp only [Term.value?, Option.map_eq_some_iff] at valued
      obtain ⟨d, value, rfl⟩ := valued
      exact (Term.canonical_value? filler value).restriction _
  | unreadable => simp [Term.value?] at valued

theorem Term.canonical_values? {valuation : ConceptValuation}
    (parts : List Term) {cs : List NormalConcept}
    (valued : Term.values? valuation parts = some cs) :
    ∀ c ∈ cs, c.Canonical := by
  cases parts with
  | nil =>
      simp only [Term.values?, Option.some.injEq] at valued
      simp [← valued]
  | cons part parts =>
      simp only [Term.values?, Option.bind_eq_bind, Option.bind_eq_some_iff,
        Option.pure_def, Option.some.injEq] at valued
      obtain ⟨first, value, others, values, rfl⟩ := valued
      intro c member
      rcases List.mem_cons.mp member with rfl | inOthers
      · exact Term.canonical_value? part value
      · exact Term.canonical_values? parts values c inOthers

end

namespace ConceptValuation

variable {valuation : ConceptValuation} {store : AtomStore}

/-- The value of a stored atom: that of its symbol, or the restriction of that
of its filler. -/
def value (valuation : ConceptValuation) (store : AtomStore) :
    AtomId → NormalConcept :=
  store.valueOf fun id =>
    ((store.symbol? id).map valuation.concept).getD .top

theorem value_name {id : AtomId} {symbol : String}
    (present : store.atom? id = some (.name symbol)) :
    valuation.value store id = valuation.concept symbol := by
  simp [value, AtomStore.valueOf_name present, AtomStore.symbol?, present]

theorem value_restriction (wellFormed : store.WellFormed) {id : AtomId}
    {role : RoleId} {filler : AtomId}
    (present : store.atom? id = some (.restriction role filler)) :
    valuation.value store id =
      .restriction role (valuation.value store filler) := by
  obtain ⟨_, symbol, named⟩ := wellFormed id role filler present
  rw [value_name named]
  simp [value, AtomStore.valueOf_restriction present, AtomStore.symbol?, named]

theorem canonical_value (id : AtomId) :
    (valuation.value store id).Canonical := by
  have named : ∀ other : AtomId, (((store.symbol? other).map
      valuation.concept).getD .top).Canonical := by
    intro other
    cases store.symbol? other with
    | none => exact NormalConcept.canonical_top
    | some symbol => exact valuation.canonical symbol
  unfold value AtomStore.valueOf
  split
  · exact (named _).restriction _
  · exact named id

theorem canonical_conjoin (conjunction : AtomSet) :
    (conjoin (valuation.value store) conjunction).Canonical := by
  apply NormalConcept.canonical_conjunction
  intro part inParts
  obtain ⟨atom, _, rfl⟩ := List.mem_map.mp inParts
  exact canonical_value atom

theorem conjoin_singleton (id : AtomId) :
    conjoin (valuation.value store) {id} = valuation.value store id := by
  apply (canonical_conjoin _).eq_of_isBelow_iff (canonical_value id)
  simp [isBelow_conjoin_iff]

/-- Values depend on the atoms only. -/
theorem value_congr {other : AtomStore} (same : store.atoms = other.atoms) :
    valuation.value store = valuation.value other := by
  funext id
  simp only [value, AtomStore.valueOf, AtomStore.restriction?,
    AtomStore.symbol?, AtomStore.atom?, same]

/-- Stored atoms keep their values when a store grows. -/
theorem value_of_extends {before after : AtomStore}
    (extension : before.Extends after) (wellFormed : before.WellFormed)
    {id : AtomId} (stored : id < before.size) :
    valuation.value after id = valuation.value before id := by
  obtain ⟨atom, present⟩ := AtomStore.exists_atom? stored
  have kept := extension id atom present
  cases atom with
  | name symbol => rw [value_name present, value_name kept]
  | restriction role filler =>
      obtain ⟨_, symbol, named⟩ := wellFormed id role filler present
      have keptFiller := extension filler _ named
      rw [value_restriction wellFormed present, value_name named]
      simp [value, AtomStore.valueOf_restriction kept, AtomStore.symbol?,
        keptFiller]

theorem conjoin_of_extends {before after : AtomStore}
    (extension : before.Extends after) (wellFormed : before.WellFormed)
    {conjunction : AtomSet} (stored : before.Stores conjunction) :
    conjoin (valuation.value after) conjunction =
      conjoin (valuation.value before) conjunction :=
  conjoin_congr fun atom member =>
    value_of_extends extension wellFormed (stored atom member)

/-- The roles of a store have their numbers. -/
def Numbers (valuation : ConceptValuation) (store : AtomStore) : Prop :=
  ∀ id role, store.roleName? id = some role → valuation.role role = id

/-- The roles have their numbers, and auxiliary variables the values of what
they abbreviate. -/
structure Fits (valuation : ConceptValuation) (store : AtomStore)
    (auxiliary : List Equation) : Prop where
  numbers : valuation.Numbers store
  auxiliary : ∀ equation ∈ auxiliary, valuation.value store equation.left =
    conjoin (valuation.value store) equation.right

end ConceptValuation

namespace GoalBuilder

/-- What a builder holds stays when it develops. -/
structure Develops (before after : GoalBuilder) : Prop where
  background : after.background = before.background
  undefinedEnding : after.undefinedEnding = before.undefinedEnding
  auxiliaryStem : after.auxiliaryStem = before.auxiliaryStem
  extension : before.store.Extends after.store
  roles : ∀ id role, before.store.roleName? id = some role →
    after.store.roleName? id = some role
  auxiliary : before.auxiliary <+: after.auxiliary
  definitions : before.definitions <+: after.definitions
  imported : before.imported <+: after.imported

theorem Develops.refl (builder : GoalBuilder) : Develops builder builder where
  background := rfl
  undefinedEnding := rfl
  auxiliaryStem := rfl
  extension := .refl _
  roles := fun _ _ found => found
  auxiliary := List.prefix_rfl
  definitions := List.prefix_rfl
  imported := List.prefix_rfl

theorem Develops.trans {first second third : GoalBuilder}
    (left : Develops first second) (right : Develops second third) :
    Develops first third where
  background := right.background.trans left.background
  undefinedEnding := right.undefinedEnding.trans left.undefinedEnding
  auxiliaryStem := right.auxiliaryStem.trans left.auxiliaryStem
  extension := left.extension.trans right.extension
  roles := fun id role found => right.roles id role (left.roles id role found)
  auxiliary := left.auxiliary.trans right.auxiliary
  definitions := left.definitions.trans right.definitions
  imported := left.imported.trans right.imported

/-- A valuation that fits a builder fitted what the builder developed from. -/
theorem Develops.fits {before after : GoalBuilder}
    (development : Develops before after) (wellFormed : before.WellFormed)
    {valuation : ConceptValuation}
    (fits : valuation.Fits after.store after.auxiliary) :
    valuation.Fits before.store before.auxiliary where
  numbers := fun id role found =>
    fits.numbers id role (development.roles id role found)
  auxiliary := by
    intro equation member
    obtain ⟨left, right⟩ := wellFormed.auxiliary equation member
    have equal :=
      fits.auxiliary equation (development.auxiliary.subset member)
    rwa [ConceptValuation.value_of_extends development.extension
        wellFormed.store left,
      ConceptValuation.conjoin_of_extends development.extension
        wellFormed.store right] at equal

/-- The conjunction has the value of the term, under every valuation that fits
the builder. -/
structure Means (builder : GoalBuilder) (term : Term) (flat : AtomSet) :
    Prop where
  stored : builder.store.Stores flat
  value : ∀ valuation : ConceptValuation,
    valuation.Fits builder.store builder.auxiliary →
      term.value? valuation =
        some (conjoin (valuation.value builder.store) flat)

/-- A conjunction keeps its meaning when the builder develops. -/
theorem Means.develop {before after : GoalBuilder} {term : Term}
    {flat : AtomSet} (means : Means before term flat)
    (development : Develops before after) (wellFormed : before.WellFormed) :
    Means after term flat where
  stored := development.extension.stores means.stored
  value := by
    intro valuation fits
    rw [means.value valuation (development.fits wellFormed fits),
      ConceptValuation.conjoin_of_extends development.extension
        wellFormed.store means.stored]

section Means

variable {builder : GoalBuilder}

theorem Means.name {id : AtomId} {symbol : String}
    (present : builder.store.atom? id = some (.name symbol)) :
    Means builder (.name symbol) {id} where
  stored := singleton_stores (AtomStore.lt_size_of_atom? present)
  value := by
    intro valuation _
    rw [ConceptValuation.conjoin_singleton,
      ConceptValuation.value_name present, Term.value?]

theorem Means.restriction (wellFormed : builder.WellFormed) {id : AtomId}
    {roleId : RoleId} {role : String} {filler : Term} {name : AtomId}
    (means : Means builder filler {name})
    (numbered : builder.store.roleName? roleId = some role)
    (present : builder.store.atom? id = some (.restriction roleId name)) :
    Means builder (.restriction role filler) {id} where
  stored := singleton_stores (AtomStore.lt_size_of_atom? present)
  value := by
    intro valuation fits
    rw [ConceptValuation.conjoin_singleton,
      ConceptValuation.value_restriction wellFormed.store present, Term.value?,
      means.value valuation fits, ConceptValuation.conjoin_singleton,
      fits.numbers roleId role numbered, Option.map_some]

theorem Means.nil : Means builder (.conjunction []) ∅ where
  stored := fun _ member => (OrderedSet.not_mem_empty member).elim
  value := by
    intro valuation _
    rfl

theorem Means.cons {part : Term} {parts : List Term} {first others : AtomSet}
    (head : Means builder part first)
    (tail : Means builder (.conjunction parts) others) :
    Means builder (.conjunction (part :: parts)) (first ∪ others) where
  stored := by
    intro atom member
    rcases OrderedSet.mem_union.mp member with inFirst | inOthers
    · exact head.stored atom inFirst
    · exact tail.stored atom inOthers
  value := by
    intro valuation fits
    have headValue := head.value valuation fits
    have tailValue := tail.value valuation fits
    simp only [Term.value?, Option.map_eq_some_iff] at tailValue
    obtain ⟨cs, values, sameTail⟩ := tailValue
    have valued : (Term.conjunction (part :: parts)).value? valuation =
        some (.conjunction
          (conjoin (valuation.value builder.store) first :: cs)) := by
      simp [Term.value?, Term.values?, headValue, values]
    rw [valued, Option.some.injEq]
    apply (Term.canonical_value? _ valued).eq_of_isBelow_iff
      (ConceptValuation.canonical_conjoin _)
    intro e
    have below : e.isBelow (.conjunction cs) = true ↔
        ∀ atom ∈ others, e.isBelow (valuation.value builder.store atom) =
          true := by
      rw [sameTail, isBelow_conjoin_iff]
    rw [NormalConcept.isBelow_conjunction_iff] at below
    simp only [NormalConcept.isBelow_conjunction_iff, List.forall_mem_cons,
      isBelow_conjoin_iff, OrderedSet.mem_union, below]
    constructor
    · rintro ⟨inFirst, inOthers⟩ atom (member | member)
      · exact inFirst atom member
      · exact inOthers atom member
    · intro all
      exact ⟨fun atom member => all atom (.inl member),
        fun atom member => all atom (.inr member)⟩

/-- An auxiliary variable means what it abbreviates. -/
theorem Means.abbreviated (wellFormed : builder.WellFormed) {term : Term}
    {equation : Equation} (means : Means builder term equation.right)
    (member : equation ∈ builder.auxiliary) :
    Means builder term {equation.left} where
  stored := singleton_stores (wellFormed.auxiliary equation member).1
  value := by
    intro valuation fits
    rw [ConceptValuation.conjoin_singleton, fits.auxiliary equation member]
    exact means.value valuation fits

end Means

end GoalBuilder

end ConceptUnification
