import ConceptUnification.Proofs.DefinitionImport
import ConceptUnification.Proofs.FlatteningMeaning
import ConceptUnification.Proofs.PrivateNames

/-!
# Undefined parts of primitive definitions

A primitive definition bounds its name from above.  It is imported as an
equation whose right side is completed by the undefined part of the name, which
is meant to be a constant of its own.  If the name of the undefined part is
private, it occurs in this equation only.  Then it can always be given the value
of the defined name, so that the equation says no more than the bound.
-/

namespace ConceptUnification

namespace ConceptValuation

/-- The valuation with another value for one name. -/
def withConcept (valuation : ConceptValuation) (symbol : String)
    (c : NormalConcept) (canonical : c.Canonical) : ConceptValuation where
  concept other := if other = symbol then c else valuation.concept other
  role := valuation.role
  canonical := by
    intro other
    split
    · exact canonical
    · exact valuation.canonical other

end ConceptValuation

namespace Goal

/-- The constraints of a goal hold under a valuation of its names. -/
def HoldsUnder (goal : Goal) (valuation : ConceptValuation) : Prop :=
  (∀ subsumption ∈ goal.positiveSubsumptions,
    subsumption.Holds (valuation.value goal.store)) ∧
  ∀ constraint ∈ goal.negativeConstraints,
    constraint.Holds (valuation.value goal.store)

/-- The goal without the equation of a definition. -/
def without (goal : Goal) (equation : Equation) : Goal :=
  { goal with definitions := goal.definitions.erase equation }

/-- The goal with a bound for the left side of a definition instead of its
equation. -/
def bounded (goal : Goal) (equation : Equation) (bound : AtomSet) : Goal :=
  { goal.without equation with
    subsumptions := goal.subsumptions ++ [⟨{equation.left}, bound⟩] }

section Split

variable {goal : Goal} {valuation : ConceptValuation} {equation : Equation}

theorem holdsUnder_iff_without (member : equation ∈ goal.definitions) :
    goal.HoldsUnder valuation ↔
      valuation.value goal.store equation.left =
          conjoin (valuation.value goal.store) equation.right ∧
        (goal.without equation).HoldsUnder valuation := by
  have split : ∀ {p : Equation → Prop}, (∀ other ∈ goal.definitions, p other) ↔
      p equation ∧ ∀ other ∈ goal.definitions.erase equation, p other := by
    intro p
    rw [← List.forall_mem_cons]
    exact forall_congr' fun other => by
      rw [(List.perm_cons_erase member).mem_iff]
  unfold HoldsUnder
  rw [holds_iff, holds_iff]
  simp only [allEquations, without, List.forall_mem_append]
  rw [split]
  simp only [and_assoc]

theorem holdsUnder_bounded_iff {bound : AtomSet} :
    (goal.bounded equation bound).HoldsUnder valuation ↔
      (valuation.value goal.store equation.left).isBelow
          (conjoin (valuation.value goal.store) bound) = true ∧
        (goal.without equation).HoldsUnder valuation := by
  unfold HoldsUnder
  rw [holds_iff, holds_iff]
  simp only [allEquations, bounded, without, List.forall_mem_append,
    List.forall_mem_singleton, FlatConstraint.Holds,
    ConceptValuation.conjoin_singleton]
  tauto

end Split

/-- A name occurs in the right side of the equation of one definition only. -/
structure Isolates (goal : Goal) (part : AtomId) (equation : Equation) :
    Prop where
  left : goal.store.Apart part equation.left
  definitions : ∀ other ∈ goal.definitions.erase equation,
    goal.store.Apart part other.left ∧
      ∀ atom ∈ other.right, goal.store.Apart part atom
  auxiliary : ∀ other ∈ goal.auxiliary, goal.store.Apart part other.left ∧
    ∀ atom ∈ other.right, goal.store.Apart part atom
  sides : ∀ kind, ∀ sides ∈ goal.sides kind,
    (∀ atom ∈ sides.1, goal.store.Apart part atom) ∧
      ∀ atom ∈ sides.2, goal.store.Apart part atom

section Isolated

variable {goal : Goal} {part : AtomId} {equation : Equation} {symbol : String}
  {v w : ConceptValuation}

theorem mem_allEquations_of_without {other : Equation}
    (member : other ∈ (goal.without equation).allEquations) :
    other ∈ goal.allEquations := by
  simp only [allEquations, without, List.mem_append] at member ⊢
  exact member.imp_left (Or.imp_left List.mem_of_mem_erase)

theorem Isolates.equations (isolates : goal.Isolates part equation) :
    ∀ other ∈ (goal.without equation).allEquations,
      goal.store.Apart part other.left ∧
        ∀ atom ∈ other.right, goal.store.Apart part atom := by
  intro other member
  simp only [allEquations, without, List.mem_append] at member
  rcases member with (inDefinitions | inAuxiliary) | inEquations
  · exact isolates.definitions other inDefinitions
  · exact isolates.auxiliary other inAuxiliary
  · obtain ⟨left, right⟩ := isolates.sides .equation
      ({other.left}, other.right) (List.mem_map.mpr ⟨other, inEquations, rfl⟩)
    exact ⟨left _ (OrderedSet.mem_singleton.mpr rfl), right⟩

/-- The constraints without the equation do not depend on the value of the
isolated name. -/
theorem Isolates.holdsUnder_without_iff (isolates : goal.Isolates part equation)
    (wellFormed : goal.WellFormed)
    (present : goal.store.atom? part = some (.name symbol))
    (agree : ∀ other, other ≠ symbol → w.concept other = v.concept other) :
    (goal.without equation).HoldsUnder w ↔
      (goal.without equation).HoldsUnder v := by
  have atoms : ∀ id < goal.store.size, goal.store.Apart part id →
      w.value goal.store id = v.value goal.store id :=
    fun id => ConceptValuation.value_of_apart agree wellFormed.store present
  have conjunctions : ∀ conjunction, goal.store.Stores conjunction →
      (∀ atom ∈ conjunction, goal.store.Apart part atom) →
        conjoin (w.value goal.store) conjunction =
          conjoin (v.value goal.store) conjunction :=
    fun conjunction stored apart => conjoin_congr fun atom member =>
      atoms atom (stored atom member) (apart atom member)
  have sameStore : (goal.without equation).store = goal.store := rfl
  unfold HoldsUnder
  rw [holds_iff, holds_iff, sameStore]
  refine and_congr (forall₂_congr fun other member => ?_)
    (and_congr (forall₂_congr fun constraint member => ?_)
      (and_congr (forall₂_congr fun constraint member => ?_)
        (forall₂_congr fun constraint member => ?_)))
  · obtain ⟨left, right⟩ := isolates.equations other member
    obtain ⟨leftStored, rightStored⟩ :=
      wellFormed.equations other (mem_allEquations_of_without member)
    rw [atoms _ leftStored left, conjunctions _ rightStored right]
  · obtain ⟨body, head⟩ := isolates.sides .subsumption _
      (List.mem_map_of_mem member)
    obtain ⟨bodyStored, headStored⟩ := wellFormed.subsumptions _ member
    simp only [FlatConstraint.Holds, conjunctions _ bodyStored body,
      conjunctions _ headStored head]
  · obtain ⟨left, right⟩ := isolates.sides .disequation _
      (List.mem_map_of_mem member)
    obtain ⟨leftStored, rightStored⟩ := wellFormed.disequations _ member
    simp only [FlatConstraint.Holds, conjunctions _ leftStored left,
      conjunctions _ rightStored right]
  · obtain ⟨body, head⟩ := isolates.sides .dissubsumption _
      (List.mem_map_of_mem member)
    obtain ⟨bodyStored, headStored⟩ := wellFormed.dissubsumptions _ member
    simp only [FlatConstraint.Holds, conjunctions _ bodyStored body,
      conjunctions _ headStored head]

/-- If the right side of an equation is completed by an isolated name, a
valuation can be changed in this name to satisfy the goal exactly if it
satisfies the goal with the bound in place of the equation. -/
theorem Isolates.exists_holdsUnder_iff (isolates : goal.Isolates part equation)
    (wellFormed : goal.WellFormed) (member : equation ∈ goal.definitions)
    (present : goal.store.atom? part = some (.name symbol)) {bound : AtomSet}
    (right : equation.right = insert part bound)
    (apart : ∀ atom ∈ bound, goal.store.Apart part atom) :
    (∃ w : ConceptValuation, w.role = v.role ∧
      (∀ other, other ≠ symbol → w.concept other = v.concept other) ∧
        goal.HoldsUnder w) ↔
      (goal.bounded equation bound).HoldsUnder v := by
  obtain ⟨leftStored, rightStored⟩ := wellFormed.equations equation
    (List.mem_append_left _ (List.mem_append_left _ member))
  rw [right] at rightStored
  -- The left side and the bound do not depend on the isolated name.
  have unchanged : ∀ {w : ConceptValuation},
      (∀ other, other ≠ symbol → w.concept other = v.concept other) →
        w.value goal.store equation.left = v.value goal.store equation.left ∧
          ∀ atom ∈ bound,
            w.value goal.store atom = v.value goal.store atom :=
    fun agree =>
      ⟨ConceptValuation.value_of_apart agree wellFormed.store present leftStored
          isolates.left,
        fun atom inBound => ConceptValuation.value_of_apart agree
          wellFormed.store present
          (rightStored atom (OrderedSet.mem_insert.mpr (.inr inBound)))
          (apart atom inBound)⟩
  rw [holdsUnder_bounded_iff, isBelow_conjoin_iff]
  constructor
  · rintro ⟨w, _, agree, holds⟩
    obtain ⟨equal, others⟩ := (holdsUnder_iff_without member).mp holds
    obtain ⟨left, inBound⟩ := unchanged agree
    refine ⟨fun atom member => ?_,
      (isolates.holdsUnder_without_iff wellFormed present agree).mp others⟩
    rw [← left, ← inBound atom member, equal, right]
    exact conjoin_isBelow_of_mem (OrderedSet.mem_insert.mpr (.inr member))
  · rintro ⟨below, others⟩
    let w := v.withConcept symbol (v.value goal.store equation.left)
      (ConceptValuation.canonical_value _)
    have agree : ∀ other, other ≠ symbol →
        w.concept other = v.concept other :=
      fun other different => if_neg different
    obtain ⟨left, inBound⟩ := unchanged agree
    have undefined : w.value goal.store part =
        v.value goal.store equation.left := by
      rw [ConceptValuation.value_name present]
      exact if_pos rfl
    refine ⟨w, rfl, agree, (holdsUnder_iff_without member).mpr ⟨?_,
      (isolates.holdsUnder_without_iff wellFormed present agree).mpr others⟩⟩
    apply (ConceptValuation.canonical_value _).eq_of_isBelow_iff
      (ConceptValuation.canonical_conjoin _)
    intro e
    rw [isBelow_conjoin_iff, left, right]
    constructor
    · intro lower atom inRight
      rcases OrderedSet.mem_insert.mp inRight with rfl | member
      · rw [undefined]
        exact lower
      · rw [inBound atom member]
        exact NormalConcept.isBelow_trans lower (below atom member)
    · intro lower
      rw [← undefined]
      exact lower part (OrderedSet.mem_insert.mpr (.inl rfl))

end Isolated

end Goal

theorem BackgroundDefinition.symbols_completed
    {definition : BackgroundDefinition Term} {undefinedEnding symbol : String}
    (member : symbol ∈ (definition.completed undefinedEnding).symbols) :
    symbol ∈ definition.body.symbols ∨
      symbol = definition.symbol ++ undefinedEnding := by
  unfold completed at member
  split at member
  · simpa [Term.symbols, Term.symbolsOfAll] using member
  · exact .inl member

theorem exists_of_mem_right {α β : Type} {r : α → β → Prop} {l : List α}
    {m : List β} (related : List.Forall₂ r l m) {b : β} (member : b ∈ m) :
    ∃ a ∈ l, r a b := by
  induction related with
  | nil => cases member
  | @cons a b' l m first others induction =>
      rcases List.mem_cons.mp member with rfl | inRest
      · exact ⟨a, List.mem_cons_self, first⟩
      · obtain ⟨a', inRest, holds⟩ := induction inRest
        exact ⟨a', List.mem_cons_of_mem a inRest, holds⟩

namespace GoalBuilder

section Isolate

variable {background : Ontology Term} {config : Config}
  {calls : List BuilderCall} {builder : GoalBuilder} {part : AtomId}
  {symbol : String}

theorem apart_finished {id : AtomId} :
    builder.finished.store.Apart part id ↔ builder.store.Apart part id := by
  simp only [AtomStore.Apart, builder.atom?_finished]

/-- An auxiliary variable is not an atom with another form of name. -/
theorem Layered.apart_left (layered : builder.Layered)
    (present : builder.store.atom? part = some (.name symbol))
    (apart : ∀ number : Nat,
      symbol ≠ builder.auxiliaryStem ++ toString number) :
    ∀ equation ∈ builder.auxiliary, builder.store.Apart part equation.left := by
  intro equation member
  obtain ⟨number, named⟩ := layered.named equation member
  refine AtomStore.apart_of_name named ?_
  intro same
  rw [same, present, Option.some.injEq, Atom.name.injEq] at named
  exact apart number named

/-- A side of a constraint is apart from a name that does not occur in its
term. -/
theorem Shows.apart {term : Term} {side : AtomSet}
    (shows : Shows builder term side)
    (present : builder.store.atom? part = some (.name symbol))
    (unused : symbol ∉ term.symbols)
    (lefts : ∀ equation ∈ builder.auxiliary,
      builder.store.Apart part equation.left) :
    ∀ atom ∈ side, builder.store.Apart part atom := by
  have forms : ∀ {flat : AtomSet},
      term.flatForm? builder.store builder.auxiliary = some flat →
        ∀ atom ∈ flat, builder.store.Apart part atom :=
    fun form => term.apart_of_flatForm? present unused
      (fun equation member => (lefts equation member).1) form
  cases shows with
  | whole form => exact forms form
  | @single flat id form atom =>
      intro other member
      rw [OrderedSet.mem_singleton.mp member]
      rcases atomOf?_cases atom with rfl | abbreviated
      · exact forms form id (OrderedSet.mem_singleton.mpr rfl)
      · obtain ⟨equation, inAuxiliary, _, rfl⟩ :=
          abbreviationOf?_eq_some abbreviated
        exact lefts equation inAuxiliary

section Private

variable (builds : Builds (new background config) calls builder)
  (unused : ¬ Occurs background calls symbol)
  (apart : ∀ number : Nat, symbol ≠ config.auxiliaryStem ++ toString number)
  (present : builder.store.atom? part = some (.name symbol))

include present

include unused in
/-- The atoms of names that occur are other ones. -/
theorem apart_of_occurs {id : AtomId} {name : String}
    (named : builder.store.atom? id = some (.name name))
    (occurs : Occurs background calls name) : builder.store.Apart part id := by
  refine AtomStore.apart_of_name named ?_
  rintro rfl
  rw [present, Option.some.injEq, Atom.name.injEq] at named
  exact unused (named ▸ occurs)

include builds apart

theorem Builds.apart_left : ∀ equation ∈ builder.auxiliary,
    builder.store.Apart part equation.left := by
  have stem : builder.auxiliaryStem = config.auxiliaryStem :=
    builds.develops.auxiliaryStem
  have layered := builds.layered (layered_new background config)
  exact layered.apart_left present (by rwa [stem])

theorem Builds.apart_form (term : Term) (unmentioned : symbol ∉ term.symbols)
    {flat : AtomSet}
    (form : term.flatForm? builder.store builder.auxiliary = some flat) :
    ∀ atom ∈ flat, builder.store.Apart part atom :=
  term.apart_of_flatForm? present unmentioned
    (fun equation member =>
      (builds.apart_left apart present equation member).1) form

include unused

theorem Builds.apart_auxiliary : ∀ equation ∈ builder.auxiliary,
    builder.store.Apart part equation.left ∧
      ∀ atom ∈ equation.right, builder.store.Apart part atom := by
  intro equation member
  obtain ⟨term, inScope, form⟩ := builds.sourced equation member
  exact ⟨builds.apart_left apart present equation member,
    builds.apart_form apart present term
      (fun inTerm => unused (.inl (inScope _ inTerm))) form⟩

theorem Builds.apart_sides (kind : ConstraintKind) :
    ∀ sides ∈ builder.finished.sides kind,
      (∀ atom ∈ sides.1, builder.store.Apart part atom) ∧
        ∀ atom ∈ sides.2, builder.store.Apart part atom := by
  intro sides inSides
  obtain ⟨terms, inTerms, left, right⟩ := exists_of_mem_right
    (builds.shows kind (by cases kind <;> rfl)) inSides
  have unmentioned : symbol ∉ terms.1.symbols ++ terms.2.symbols :=
    fun inTerm => unused (.inl (reachable_of_terms? inTerms symbol inTerm))
  rw [List.mem_append, not_or] at unmentioned
  have lefts := builds.apart_left apart present
  exact ⟨left.apart present unmentioned.1 lefts,
    right.apart present unmentioned.2 lefts⟩

end Private

/-- The equations of other definitions do without the undefined part, since two
undefined parts with one name belong to one definition. -/
theorem Builds.apart_definitions
    (builds : Builds (new background config) calls builder)
    {definition : BackgroundDefinition Term} {equation : Equation}
    (member : equation ∈ builder.definitions)
    (defines : Defines (Reachable background calls) builder equation
      definition)
    (unused : ¬ Occurs background calls
      (definition.symbol ++ config.undefinedEnding))
    (apart : ∀ number : Nat, definition.symbol ++ config.undefinedEnding ≠
      config.auxiliaryStem ++ toString number)
    (present : builder.store.atom? part =
      some (.name (definition.symbol ++ config.undefinedEnding))) :
    ∀ other ∈ builder.definitions.erase equation,
      builder.store.Apart part other.left ∧
        ∀ atom ∈ other.right, builder.store.Apart part atom := by
  intro other inRest
  have sameBackground : builder.background = background :=
    builds.develops.background
  have sameEnding : builder.undefinedEnding = config.undefinedEnding :=
    builds.develops.undefinedEnding
  have imported := imported_of_builds builds
  have distinct : builder.definitions.Nodup :=
    List.Nodup.of_map _ imported.distinct
  obtain ⟨different, inDefinitions⟩ := distinct.mem_erase_iff.mp inRest
  obtain ⟨definition', defines'⟩ := imported.complete other inDefinitions
  rw [sameBackground] at defines'
  refine ⟨apart_of_occurs unused present defines'.named (.inl defines'.inScope),
    builds.apart_form apart present _ ?_ defines'.form⟩
  intro inTerm
  rcases BackgroundDefinition.symbols_completed inTerm with inBody | same
  · exact unused (.inl (.body defines'.inScope (sameBackground ▸ defines'.found)
      inBody))
  · rw [sameEnding, String.append_left_inj] at same
    have named := defines.named
    rw [same] at named
    have left := AtomStore.atom?_injective defines'.named named
    exact different
      (List.inj_on_of_nodup_map imported.distinct inDefinitions member left)

/-- A private undefined part occurs in the equation of its definition only. -/
theorem Builds.isolates (builds : Builds (new background config) calls builder)
    {definition : BackgroundDefinition Term} {equation : Equation}
    (member : equation ∈ builder.definitions)
    (defines : Defines (Reachable background calls) builder equation
      definition)
    (unused : ¬ Occurs background calls
      (definition.symbol ++ config.undefinedEnding))
    (apart : ∀ number : Nat, definition.symbol ++ config.undefinedEnding ≠
      config.auxiliaryStem ++ toString number)
    (present : builder.store.atom? part =
      some (.name (definition.symbol ++ config.undefinedEnding))) :
    builder.finished.Isolates part equation := by
  have same : builder.finished.store.Apart part = builder.store.Apart part :=
    funext fun _ => propext apart_finished
  exact
    { left := same ▸
        apart_of_occurs unused present defines.named (.inl defines.inScope)
      definitions := same ▸
        builds.apart_definitions member defines unused apart present
      auxiliary := same ▸ builds.apart_auxiliary unused apart present
      sides := same ▸ builds.apart_sides unused apart present }

end Isolate

end GoalBuilder

namespace Goal

/-- The undefined part of a primitive definition is a constant of its own, and
its equation forces no more than the bound that the definition sets. -/
structure HasPrivatePart (goal : Goal) (undefinedEnding : String)
    (definition : BackgroundDefinition Term) (equation : Equation)
    (part : AtomId) (bound : AtomSet) : Prop where
  left : goal.store.findName? definition.symbol = some equation.left
  body : definition.body.flatForm? goal.store goal.auxiliary = some bound
  completes : equation.right = insert part bound ∧ part ∉ bound
  named : goal.store.findName? (definition.symbol ++ undefinedEnding) =
    some part
  constant : goal.store.kind? part = some .constant
  unshared : ∀ name, name ≠ definition.symbol ++ undefinedEnding →
    goal.store.findName? name ≠ some part
  notAuxiliary : ∀ abbreviation ∈ goal.auxiliary, abbreviation.left ≠ part
  distinct : ∀ other, other ≠ definition.symbol →
    goal.store.findName? (other ++ undefinedEnding) ≠ some part
  forces : ∀ v : ConceptValuation,
    (∃ w : ConceptValuation, w.role = v.role ∧
      (∀ other, other ≠ definition.symbol ++ undefinedEnding →
        w.concept other = v.concept other) ∧ goal.HoldsUnder w) ↔
      (goal.bounded equation bound).HoldsUnder v

/-- If the name of the undefined part of an imported primitive definition is not
among the names that occur and has not the form of an auxiliary name, the
undefined part is a private constant. -/
theorem undefined_part_private {background : Ontology Term} {config : Config}
    {calls : List BuilderCall} {goal : Goal}
    {definition : BackgroundDefinition Term}
    (built : ((GoalBuilder.new background config).performAll calls).build =
      .ok goal)
    (reachable : GoalBuilder.Reachable background calls definition.symbol)
    (found : background.find? definition.symbol = some definition)
    (primitive : definition.primitive = true)
    (unused : ¬ GoalBuilder.Occurs background calls
      (definition.symbol ++ config.undefinedEnding))
    (apart : ∀ number : Nat, definition.symbol ++ config.undefinedEnding ≠
      config.auxiliaryStem ++ toString number) :
    ∃ equation ∈ goal.definitions, ∃ part bound,
      goal.HasPrivatePart config.undefinedEnding definition equation part
        bound := by
  have wellFormed := (Obtained.built built).wellFormed
  obtain ⟨unfailed, rfl⟩ := of_build built
  have builds := GoalBuilder.builds_performAll unfailed
  generalize (GoalBuilder.new background config).performAll calls = builder
    at builds wellFormed
  have sameBackground : builder.background = background :=
    builds.develops.background
  have sameEnding : builder.undefinedEnding = config.undefinedEnding :=
    builds.develops.undefinedEnding
  obtain ⟨equation, member, defines⟩ :=
    (GoalBuilder.imported_of_builds builds).exists_defines
      (sameBackground ▸ reachable) (sameBackground ▸ found)
  rw [sameBackground] at defines
  have form := defines.form
  simp only [BackgroundDefinition.completed, primitive, ↓reduceIte,
    sameEnding] at form
  obtain ⟨bound, part, bodyForm, present, right⟩ :=
    Term.flatForm?_conjunction_name.mp form
  have isolates := builds.isolates member defines unused apart present
  have boundApart := builds.apart_form apart present definition.body
    (fun inBody => unused (.inl (.body reachable found inBody))) bodyForm
  obtain ⟨atoms, roles⟩ := builder.store_finished
  rw [← builder.atom?_finished] at present
  have unshared : ∀ name, name ≠ definition.symbol ++ config.undefinedEnding →
      builder.finished.store.findName? name ≠ some part := by
    intro name different same
    rw [AtomStore.findName?_eq_some_iff, present, Option.some.injEq,
      Atom.name.injEq] at same
    exact different same.symm
  exact ⟨equation, member, part, bound,
    { left := by
        rw [AtomStore.findName?_eq_some_iff, builder.atom?_finished]
        exact defines.named
      body := by
        rw [Term.flatForm?_congr _ atoms roles]
        exact bodyForm
      completes := ⟨right.symm, fun inBound => (boundApart part inBound).1 rfl⟩
      named := AtomStore.findName?_eq_some_iff.mpr present
      constant := builds.keepsConstant unused apart part present
      unshared := unshared
      notAuxiliary := fun abbreviation inAuxiliary =>
        (isolates.auxiliary abbreviation inAuxiliary).1.1
      distinct := fun other different => unshared _ fun same =>
        different ((String.append_left_inj _).mp same)
      forces := fun v => isolates.exists_holdsUnder_iff wellFormed member
        present right.symm fun atom inBound =>
          GoalBuilder.apart_finished.mpr (boundApart atom inBound) }⟩

theorem occurs_primitiveCalls {symbol : String}
    (occurs : GoalBuilder.Occurs primitiveBackground primitiveCalls symbol) :
    symbol ∈ ["X", "A", "B"] := by
  rcases occurs with reachable | declared
  · induction reachable with
    | term member inTerm =>
        simp only [primitiveCalls, List.mem_cons, List.not_mem_nil,
          or_false] at member
        rcases member with rfl | rfl | rfl <;>
          simp only [BuilderCall.termSymbols, BuilderCall.symbols,
            Term.symbols, Term.symbolsOfAll] at inTerm <;>
          simp at inTerm ⊢ <;> tauto
    | body _ found inBody =>
        obtain rfl := List.mem_singleton.mp (List.mem_of_find?_eq_some found)
        obtain rfl := List.mem_singleton.mp inBody
        simp
  · simp [primitiveCalls] at declared
    simp [declared]

theorem undefined_part_private_primitiveCalls :
    ∃ goal, ((GoalBuilder.new primitiveBackground {}).performAll
        primitiveCalls).build = .ok goal ∧
      ¬ GoalBuilder.Occurs primitiveBackground primitiveCalls "A_UNDEF" ∧
      ∃ equation ∈ goal.definitions, ∃ part bound,
        goal.HasPrivatePart "_UNDEF" ⟨"A", .restriction "s" (.name "B"), true⟩
          equation part bound := by
  have readable : ∀ call ∈ primitiveCalls, call.readable = true := by
    simp [primitiveCalls, BuilderCall.readable, Term.readable,
      Term.readableAll]
  have bodies : primitiveBackground.Readable := by
    intro symbol definition found
    obtain rfl := List.mem_singleton.mp (List.mem_of_find?_eq_some found)
    rfl
  obtain ⟨goal, built⟩ : ∃ goal, ((GoalBuilder.new primitiveBackground
      {}).performAll primitiveCalls).build = .ok goal :=
    GoalBuilder.exists_build bodies readable
  have reachable : GoalBuilder.Reachable primitiveBackground primitiveCalls
      "A" := .term List.mem_cons_self (by
        simp [BuilderCall.termSymbols, BuilderCall.symbols, Term.symbols,
          Term.symbolsOfAll])
  have unused : ¬ GoalBuilder.Occurs primitiveBackground primitiveCalls
      "A_UNDEF" := fun occurs => by
    simpa using occurs_primitiveCalls occurs
  have apart : ∀ number : Nat, "A_UNDEF" ≠ "VAR" ++ toString number := by
    intro number same
    have initial := congrArg (fun text => text.toList.head?) same
    simp at initial
  exact ⟨goal, built, unused,
    undefined_part_private built reachable rfl rfl unused apart⟩

/-- A background with a primitive definition whose body nests a conjunction. -/
def nestedBackground : Ontology Term :=
  ⟨[⟨"VAR", .restriction "r" (.conjunction [.name "B", .name "C"]), true⟩]⟩

/-- Values for the names of the goal that keep the bound of the definition. -/
def nestedValuation : ConceptValuation where
  concept symbol :=
    let filler : NormalConcept := .conjunction [.name 1, .name 2]
    if symbol = "VAR" then .restriction 0 filler
    else if symbol = "VAR0" then filler
    else if symbol = "B" then .name 1
    else .name 2
  role _ := 0
  canonical symbol := by
    have filler : (NormalConcept.conjunction
        [.name 1, .name 2]).Canonical :=
      NormalConcept.canonical_conjunction (by
        simp [NormalConcept.canonical_name])
    split_ifs
    exacts [filler.restriction 0, filler, NormalConcept.canonical_name 1,
      NormalConcept.canonical_name 2]

/-- The name of an undefined part may be that of an auxiliary variable of the
body.  Then the equation forces the defined name below the parts that the
variable stands for, and a goal that the bound leaves open cannot hold. -/
theorem undefined_part_abbreviates :
    ∃ goal, ((GoalBuilder.new nestedBackground
        { undefinedEnding := "0" }).performAll
          [.dissubsumption (.name "VAR") (.name "B")]).build = .ok goal ∧
      ∃ equation ∈ goal.definitions, ∃ part bound,
        goal.store.findName? "VAR" = some equation.left ∧
        goal.store.findName? ("VAR" ++ "0") = some part ∧
        equation.right = insert part bound ∧
        goal.store.kind? part = some .auxiliaryVariable ∧
        (∃ abbreviation ∈ goal.auxiliary, abbreviation.left = part) ∧
        (∀ v : ConceptValuation, ¬ goal.HoldsUnder v) ∧
        (goal.bounded equation bound).HoldsUnder nestedValuation := by
  have holds : ((GoalBuilder.new nestedBackground
      { undefinedEnding := "0" }).performAll
        [.dissubsumption (.name "VAR") (.name "B")]).build.toOption.any
          (fun goal => decide (
            goal.definitions = [⟨0, insert 3 {4}, true⟩] ∧
            goal.auxiliary = [⟨3, {1, 2}, false⟩] ∧
            goal.dissubsumptions = [⟨{0}, {1}⟩] ∧
            goal.store.findName? "VAR" = some 0 ∧
            goal.store.findName? "VAR0" = some 3 ∧
            goal.store.kind? 3 = some .auxiliaryVariable ∧
            (∀ subsumption ∈
                (goal.bounded ⟨0, insert 3 {4}, true⟩ {4}).positiveSubsumptions,
              (conjoin (nestedValuation.value goal.store)
                subsumption.body).isBelow (nestedValuation.value goal.store
                  subsumption.head) = true) ∧
            goal.disequations = [] ∧
            (conjoin (nestedValuation.value goal.store) {0}).isBelow
              (conjoin (nestedValuation.value goal.store) {1}) = false)) =
                true := by
    simp only [GoalBuilder.performAll, List.foldl, GoalBuilder.perform,
      GoalBuilder.addDissubsumption, GoalBuilder.flatten,
      GoalBuilder.flattenWith]
    -- The body of the definition has three levels.
    unfold GoalBuilder.nameWith
    unfold GoalBuilder.flattenWith
    unfold GoalBuilder.flattenWith
    unfold GoalBuilder.flattenAllWith
    unfold GoalBuilder.flattenWith GoalBuilder.flattenAllWith
    unfold GoalBuilder.flattenWith GoalBuilder.flattenAllWith
    unfold GoalBuilder.nameWith
    decide +kernel
  obtain ⟨goal, built, facts⟩ := exists_ok_of_any holds
  obtain ⟨definitions, auxiliary, negative, left, named, kind, positive, nothing,
    apart⟩ := of_decide_eq_true facts
  refine ⟨goal, built, ⟨0, insert 3 {4}, true⟩, by simp [definitions], 3, {4},
    left, named, rfl, kind, ⟨_, by rw [auxiliary]; exact List.mem_cons_self, rfl⟩,
    ?_, positive, ?_⟩
  · intro v holds
    obtain ⟨equations, _, _, separated⟩ := holds_iff.mp holds
    have defined : v.value goal.store 0 =
        conjoin (v.value goal.store) (insert 3 {4}) :=
      equations ⟨0, insert 3 {4}, true⟩ (by simp [allEquations, definitions])
    have abbreviated : v.value goal.store 3 =
        conjoin (v.value goal.store) {1, 2} :=
      equations ⟨3, {1, 2}, false⟩ (by simp [allEquations, auxiliary])
    have below : (v.value goal.store 0).isBelow (v.value goal.store 1) = true :=
      NormalConcept.isBelow_trans
        (defined ▸ conjoin_isBelow_of_mem (OrderedSet.mem_insert.mpr (.inl rfl)))
        (abbreviated ▸
          conjoin_isBelow_of_mem (OrderedSet.mem_insert.mpr (.inl rfl)))
    refine separated ⟨{0}, {1}⟩ (by simp [negative]) ?_
    rwa [ConceptValuation.conjoin_singleton, ConceptValuation.conjoin_singleton]
  · have constraints :
        (goal.bounded ⟨0, insert 3 {4}, true⟩ {4}).negativeConstraints =
          [.dissubsumption ⟨{0}, {1}⟩] := by
      simp [negativeConstraints, bounded, without, nothing, negative]
    rw [constraints, List.forall_mem_singleton]
    exact Bool.eq_false_iff.mp apart

end Goal

end ConceptUnification
