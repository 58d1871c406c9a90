import ConceptUnification.Unfolding
import ConceptUnification.Proofs.FlatteningTermination

/-!
# Unfolding undoes flattening

Unfolding follows auxiliary variables to older atoms and restrictions to their
fillers, so it ends on all stored atoms.  If each auxiliary variable unfolds to
what it abbreviates, the unfolded names form a valuation that fits the goal.
Flat forms have the values of their terms under it, and the names of the terms
have themselves as values, so the flat forms unfold to the normal forms of the
terms.
-/

namespace ConceptUnification

mutual

/-- The normal form of a term over the names and roles of a store. -/
def Term.normalForm? (store : AtomStore) : Term → Option NormalConcept
  | .name symbol => (store.findName? symbol).map .name
  | .conjunction parts => (Term.normalForms? store parts).map .conjunction
  | .restriction role filler => do
      let roleId ← store.findRole? role
      let c ← filler.normalForm? store
      return .restriction roleId c
  | .unreadable => none

/-- The normal forms of some terms. -/
def Term.normalForms? (store : AtomStore) :
    List Term → Option (List NormalConcept)
  | [] => some []
  | part :: parts => do
      let first ← part.normalForm? store
      let others ← Term.normalForms? store parts
      return first :: others

end

section NormalForm

variable {valuation : ConceptValuation} {store : AtomStore}
  {auxiliary : List Equation}

mutual

/-- Where names are their own values, terms have their normal forms as
values. -/
theorem Term.normalForm?_eq_value? (term : Term) {flat : AtomSet}
    (form : term.flatForm? store auxiliary = some flat)
    (numbers : valuation.Numbers store)
    (plain : ∀ symbol ∈ term.symbols, ∀ id,
      store.atom? id = some (.name symbol) →
        valuation.concept symbol = .name id) :
    term.normalForm? store = term.value? valuation := by
  cases term with
  | name symbol =>
      obtain ⟨id, present, _⟩ := Term.flatForm?_name.mp form
      rw [Term.normalForm?, Term.value?,
        AtomStore.findName?_eq_some_iff.mpr present, Option.map_some,
        plain symbol (List.mem_singleton_self _) id present]
  | conjunction parts =>
      rw [Term.normalForm?, Term.value?,
        Term.normalForms?_eq_values? parts form numbers plain]
  | restriction role filler =>
      obtain ⟨inner, _, roleId, _, innerForm, _, numbered, _, _⟩ :=
        Term.flatForm?_restriction.mp form
      have roleId? : store.findRole? role = some roleId :=
        Table.find?_eq_some_iff.mpr numbered
      rw [Term.normalForm?, Term.value?, roleId?,
        Term.normalForm?_eq_value? filler innerForm numbers plain,
        numbers roleId role numbered]
      cases filler.value? valuation <;> rfl
  | unreadable => cases form

theorem Term.normalForms?_eq_values? (parts : List Term) {flat : AtomSet}
    (form : (Term.conjunction parts).flatForm? store auxiliary = some flat)
    (numbers : valuation.Numbers store)
    (plain : ∀ symbol ∈ Term.symbolsOfAll parts, ∀ id,
      store.atom? id = some (.name symbol) →
        valuation.concept symbol = .name id) :
    Term.normalForms? store parts = Term.values? valuation parts := by
  cases parts with
  | nil => rfl
  | cons part parts =>
      obtain ⟨_, _, head, tail, _⟩ := Term.flatForm?_cons.mp form
      rw [Term.normalForms?, Term.values?,
        Term.normalForm?_eq_value? part head numbers fun symbol member =>
          plain symbol (List.mem_append_left _ member),
        Term.normalForms?_eq_values? parts tail numbers fun symbol member =>
          plain symbol (List.mem_append_right _ member)]

end

end NormalForm

namespace Goal

/-- Auxiliary variables and restrictions refer to older atoms. -/
structure Descending (goal : Goal) : Prop where
  store : goal.store.WellFormed
  auxiliary : ∀ equation ∈ goal.auxiliary, ∀ atom ∈ equation.right,
    atom < equation.left

theorem Obtained.descending {goal : Goal} (obtained : goal.Obtained) :
    goal.Descending := by
  refine ⟨obtained.wellFormed.store, ?_⟩
  induction obtained with
  | built success =>
      obtain ⟨unfailed, rfl⟩ := of_build success
      exact ((GoalBuilder.builds_performAll unfailed).layered
        (GoalBuilder.layered_new _ _)).below
  | userVariable _ success induction =>
      rw [eq_of_reclassify? success]
      exact induction
  | constant _ success induction =>
      rw [eq_of_reclassify? success]
      exact induction

section Unfold

variable {goal : Goal} {id : AtomId}

theorem mem_of_abbreviation? {conjunction : AtomSet}
    (found : goal.abbreviation? id = some conjunction) :
    ∃ equation ∈ goal.auxiliary,
      equation.left = id ∧ equation.right = conjunction := by
  unfold abbreviation? at found
  split at found
  · obtain ⟨equation, found, right⟩ := Option.map_eq_some_iff.mp found
    exact ⟨equation, List.mem_of_find?_eq_some found,
      by simpa using List.find?_some found, right⟩
  · cases found

theorem exists_name_of_abbreviation? {conjunction : AtomSet}
    (found : goal.abbreviation? id = some conjunction) :
    ∃ symbol, goal.store.atom? id = some (.name symbol) := by
  unfold abbreviation? at found
  split at found
  · next kind => exact AtomStore.exists_name_of_kind? (beq_iff_eq.mp kind)
  · cases found

theorem unfoldBelow?_eq {bound : AtomId} {ids : List AtomId}
    (older : ∀ id ∈ ids, id < bound) :
    goal.unfoldBelow? bound ids = ids.mapM goal.unfoldAtom? := by
  induction ids with
  | nil =>
      rw [unfoldBelow?]
      rfl
  | cons id ids induction =>
      obtain ⟨first, others⟩ := List.forall_mem_cons.mp older
      rw [unfoldBelow?, if_pos first, induction others, List.mapM_cons]
      cases goal.unfoldAtom? id with
      | none => rfl
      | some value => cases ids.mapM goal.unfoldAtom? <;> rfl

theorem unfoldAtom?_restriction {role : RoleId} {filler : AtomId}
    (present : goal.store.atom? id = some (.restriction role filler))
    (older : filler < id) :
    goal.unfoldAtom? id = (goal.unfoldAtom? filler).map (.restriction role) := by
  rw [unfoldAtom?]
  split
  · next missing => cases present.symm.trans missing
  · next role' filler' present' =>
      cases present.symm.trans present'
      rw [if_pos older]
  · next symbol present' => cases present.symm.trans present'

theorem unfoldAtom?_plain {symbol : String}
    (present : goal.store.atom? id = some (.name symbol))
    (plain : goal.abbreviation? id = none) :
    goal.unfoldAtom? id = some (.name id) := by
  rw [unfoldAtom?]
  split
  · next missing => cases present.symm.trans missing
  · next present' => cases present.symm.trans present'
  · split
    · rfl
    · next found => cases plain.symm.trans found

/-- An abbreviation unfolds like the conjunction that it stands for. -/
theorem unfoldAtom?_abbreviation {symbol : String} {conjunction : AtomSet}
    (present : goal.store.atom? id = some (.name symbol))
    (found : goal.abbreviation? id = some conjunction)
    (older : ∀ atom ∈ conjunction, atom < id) :
    goal.unfoldAtom? id = goal.unfoldSet? conjunction := by
  rw [unfoldAtom?]
  split
  · next missing => cases present.symm.trans missing
  · next present' => cases present.symm.trans present'
  · split
    · next plain => cases plain.symm.trans found
    · next conjunction' found' =>
        cases found.symm.trans found'
        rw [unfoldBelow?_eq older, unfoldSet?]

/-- What an atom unfolds to. -/
def unfolded (goal : Goal) (id : AtomId) : NormalConcept :=
  (goal.unfoldAtom? id).getD .top

theorem mapM_unfoldAtom? {ids : List AtomId}
    (known : ∀ id ∈ ids, goal.unfoldAtom? id = some (goal.unfolded id)) :
    ids.mapM goal.unfoldAtom? = some (ids.map goal.unfolded) := by
  induction ids with
  | nil => rfl
  | cons id ids induction =>
      obtain ⟨first, others⟩ := List.forall_mem_cons.mp known
      rw [List.mapM_cons, first, induction others]
      rfl

theorem unfoldSet?_of_known {conjunction : AtomSet}
    (known : ∀ id ∈ conjunction,
      goal.unfoldAtom? id = some (goal.unfolded id)) :
    goal.unfoldSet? conjunction = some (conjoin goal.unfolded conjunction) := by
  rw [unfoldSet?, mapM_unfoldAtom? known]
  rfl

theorem unfolded_eq {c : NormalConcept} (unfolds : goal.unfoldAtom? id = some c) :
    goal.unfolded id = c := by
  rw [unfolded, unfolds, Option.getD_some]

/-- Every stored atom unfolds, since the recursion descends to older atoms. -/
theorem Descending.unfoldAtom? (descending : goal.Descending)
    (stored : id < goal.store.size) :
    goal.unfoldAtom? id = some (goal.unfolded id) ∧
      (goal.unfolded id).Canonical := by
  induction id using Nat.strong_induction_on with
  | _ id induction =>
      obtain ⟨atom, present⟩ := AtomStore.exists_atom? stored
      cases atom with
      | restriction role filler =>
          obtain ⟨older, _, named⟩ := descending.store id role filler present
          obtain ⟨unfolds, canonical⟩ :=
            induction filler older (AtomStore.lt_size_of_atom? named)
          have restricted := unfoldAtom?_restriction present older
          rw [unfolds, Option.map_some] at restricted
          rw [restricted, unfolded_eq restricted]
          exact ⟨rfl, canonical.restriction role⟩
      | name symbol =>
          cases found : goal.abbreviation? id with
          | none =>
              have plain := unfoldAtom?_plain present found
              rw [plain, unfolded_eq plain]
              exact ⟨rfl, NormalConcept.canonical_name id⟩
          | some conjunction =>
              obtain ⟨equation, member, rfl, rfl⟩ := mem_of_abbreviation? found
              have older := descending.auxiliary equation member
              have known := fun atom inRight =>
                induction atom (older atom inRight)
                  ((older atom inRight).trans stored)
              have abbreviated := unfoldAtom?_abbreviation present found older
              rw [unfoldSet?_of_known fun atom inRight =>
                (known atom inRight).1] at abbreviated
              rw [abbreviated, unfolded_eq abbreviated]
              refine ⟨rfl, NormalConcept.canonical_conjunction ?_⟩
              intro part inParts
              obtain ⟨atom, inRight, rfl⟩ := List.mem_map.mp inParts
              exact (known atom inRight).2

theorem Descending.unfoldSet? (descending : goal.Descending)
    {conjunction : AtomSet} (stored : goal.store.Stores conjunction) :
    goal.unfoldSet? conjunction = some (conjoin goal.unfolded conjunction) :=
  unfoldSet?_of_known fun id member =>
    (descending.unfoldAtom? (stored id member)).1

/-- Names stand for what they unfold to, and roles for their numbers. -/
def Descending.valuation (descending : goal.Descending) : ConceptValuation where
  concept symbol := ((goal.store.findName? symbol).map goal.unfolded).getD .top
  role role := (goal.store.findRole? role).getD 0
  canonical := by
    intro symbol
    cases found : goal.store.findName? symbol with
    | none => exact NormalConcept.canonical_top
    | some id =>
        have present := AtomStore.findName?_eq_some_iff.mp found
        exact (descending.unfoldAtom? (AtomStore.lt_size_of_atom? present)).2

section Valuation

variable (descending : goal.Descending)

theorem valuation_concept {symbol : String}
    (present : goal.store.atom? id = some (.name symbol)) :
    descending.valuation.concept symbol = goal.unfolded id := by
  simp [Descending.valuation, AtomStore.findName?_eq_some_iff.mpr present]

theorem valuation_numbers : descending.valuation.Numbers goal.store := by
  intro id role numbered
  have found : goal.store.findRole? role = some id :=
    Table.find?_eq_some_iff.mpr numbered
  simp [Descending.valuation, found]

/-- Stored atoms have the values that they unfold to. -/
theorem valuation_value (stored : id < goal.store.size) :
    descending.valuation.value goal.store id = goal.unfolded id := by
  obtain ⟨atom, present⟩ := AtomStore.exists_atom? stored
  cases atom with
  | name symbol =>
      rw [ConceptValuation.value_name present,
        valuation_concept descending present]
  | restriction role filler =>
      obtain ⟨older, symbol, named⟩ := descending.store id role filler present
      have unfolds := unfoldAtom?_restriction present older
      rw [(descending.unfoldAtom? (AtomStore.lt_size_of_atom? named)).1,
        Option.map_some] at unfolds
      rw [ConceptValuation.value_restriction descending.store present,
        ConceptValuation.value_name named,
        valuation_concept descending named, unfolded_eq unfolds]

theorem valuation_conjoin {conjunction : AtomSet}
    (stored : goal.store.Stores conjunction) :
    conjoin (descending.valuation.value goal.store) conjunction =
      conjoin goal.unfolded conjunction :=
  conjoin_congr fun id member => valuation_value descending (stored id member)

/-- If each auxiliary variable stands for what it abbreviates, the valuation
fits the goal. -/
theorem valuation_fits (wellFormed : goal.WellFormed)
    (abbreviates : ∀ equation ∈ goal.auxiliary,
      goal.abbreviation? equation.left = some equation.right) :
    descending.valuation.Fits goal.store goal.auxiliary where
  numbers := valuation_numbers descending
  auxiliary := by
    intro equation member
    obtain ⟨left, right⟩ := wellFormed.equations equation
      (List.mem_append_left _ (List.mem_append_right _ member))
    have found := abbreviates equation member
    obtain ⟨symbol, present⟩ := exists_name_of_abbreviation? found
    have unfolds := unfoldAtom?_abbreviation present found
      (descending.auxiliary equation member)
    rw [descending.unfoldSet? right] at unfolds
    rw [valuation_value descending left, valuation_conjoin descending right,
      unfolded_eq unfolds]

end Valuation

/-- The side of a constraint unfolds to the normal form of a term. -/
def Restores (goal : Goal) (term : Term) (side : AtomSet) : Prop :=
  ∃ c, term.normalForm? goal.store = some c ∧ goal.unfoldSet? side = some c

section Built

variable {background : Ontology Term} {config : Config}
  {calls : List BuilderCall} {builder : GoalBuilder}

/-- If no name that occurs has the form of an auxiliary name, auxiliary
variables stand for what they abbreviate. -/
theorem abbreviation?_of_builds
    (builds : GoalBuilder.Builds (.new background config) calls builder)
    (apart : KeepsApart background config calls) :
    ∀ equation ∈ builder.finished.auxiliary,
      builder.finished.abbreviation? equation.left = some equation.right := by
  intro equation member
  obtain ⟨_, _, _, kind⟩ := hides_auxiliary builds apart equation member
  have layered := builds.layered (GoalBuilder.layered_new background config)
  have single : builder.auxiliary.filter (·.left == equation.left) =
      [equation] := filter_eq_singleton
    (layered.increasing.imp Nat.ne_of_lt) member fun _ _ => beq_iff_eq
  have found : builder.auxiliary.find? (·.left == equation.left) =
      some equation := by
    rw [← List.head?_filter, single, List.head?_cons]
  have auxiliary : builder.finished.store.hasKind .auxiliaryVariable
      equation.left = true := beq_iff_eq.mpr kind
  rw [abbreviation?, if_pos auxiliary]
  exact congrArg (Option.map Equation.right) found

/-- The names that occur are no abbreviations. -/
theorem plain_of_builds
    (builds : GoalBuilder.Builds (.new background config) calls builder)
    (apart : KeepsApart background config calls) {symbol : String}
    (occurs : GoalBuilder.Occurs background calls symbol) {id : AtomId}
    (present : builder.finished.store.atom? id = some (.name symbol)) :
    builder.finished.abbreviation? id = none := by
  cases found : builder.finished.abbreviation? id with
  | none => rfl
  | some conjunction =>
      obtain ⟨equation, member, rfl, _⟩ := mem_of_abbreviation? found
      have layered := builds.layered (GoalBuilder.layered_new background config)
      obtain ⟨number, named⟩ := layered.named equation member
      rw [builder.atom?_finished] at present
      have same := Option.some.inj (named.symm.trans present)
      have stem : builder.auxiliaryStem = config.auxiliaryStem :=
        builds.develops.auxiliaryStem
      rw [Atom.name.injEq, stem] at same
      exact (apart symbol occurs number same.symm).elim

/-- A side that shows a term unfolds to the normal form of the term. -/
theorem restores_of_shows
    (builds : GoalBuilder.Builds (.new background config) calls builder)
    (obtained : builder.finished.Obtained) (wellFormed : builder.WellFormed)
    (apart : KeepsApart background config calls) {term : Term}
    (reachable : ∀ symbol ∈ term.symbols,
      GoalBuilder.Reachable background calls symbol) {side : AtomSet}
    (shows : builder.Shows term side) :
    builder.finished.Restores term side := by
  obtain ⟨atoms, roles⟩ := builder.store_finished
  have descending := obtained.descending
  have values : descending.valuation.value builder.finished.store =
      descending.valuation.value builder.store :=
    ConceptValuation.value_congr atoms
  have fits := valuation_fits descending obtained.wellFormed
    (abbreviation?_of_builds builds apart)
  have fitsBuilder :
      descending.valuation.Fits builder.store builder.auxiliary :=
    { numbers := by
        simpa only [ConceptValuation.Numbers, AtomStore.roleName?, roles]
          using fits.numbers
      auxiliary := by
        rw [← values]
        exact fits.auxiliary }
  have means := shows.means wellFormed
  have stored : builder.finished.store.Stores side := by
    intro atom member
    rw [AtomStore.size, atoms]
    exact means.stored atom member
  have valued : term.value? descending.valuation =
      some (conjoin builder.finished.unfolded side) := by
    rw [means.value _ fitsBuilder, ← values,
      valuation_conjoin descending stored]
  obtain ⟨whole, form⟩ := shows.exists_form
  rw [← Term.flatForm?_congr term atoms roles] at form
  refine ⟨_, ?_, descending.unfoldSet? stored⟩
  rw [term.normalForm?_eq_value? form (valuation_numbers descending), valued]
  intro symbol member id present
  have plain := plain_of_builds builds apart (.inl (reachable symbol member))
    present
  rw [valuation_concept descending present,
    unfolded_eq (unfoldAtom?_plain present plain)]

/-- Every conjunction of stored atoms of a goal unfolds, also after changes of
kinds and whatever names occur.  If no name that occurs has the form of an
auxiliary name, each side of each constraint unfolds to the normal form of the
term that it was made from. -/
theorem unfolding_undoes_flattening :
    (∀ goal : Goal, goal.Obtained → ∀ conjunction,
      goal.store.Stores conjunction →
        ∃ c, goal.unfoldSet? conjunction = some c) ∧
    ∀ (background : Ontology Term) (config : Config)
      (calls : List BuilderCall) (goal : Goal),
      ((GoalBuilder.new background config).performAll calls).build =
          .ok goal →
        KeepsApart background config calls → ∀ kind,
          List.Forall₂
            (fun terms sides => goal.Restores terms.1 sides.1 ∧
              goal.Restores terms.2 sides.2)
            (calls.filterMap (·.terms? kind)) (goal.sides kind) := by
  constructor
  · intro goal obtained conjunction stored
    exact ⟨_, obtained.descending.unfoldSet? stored⟩
  · intro background config calls goal built apart kind
    have obtained : goal.Obtained := .built built
    obtain ⟨unfailed, rfl⟩ := of_build built
    have builds := GoalBuilder.builds_performAll unfailed
    have wellFormed :=
      ((GoalBuilder.sound_new background config).performAll calls unfailed).1
    have shows := builds.shows kind (by cases kind <;> rfl)
    have reachable : ∀ terms ∈ calls.filterMap (·.terms? kind),
        ∀ symbol ∈ terms.1.symbols ++ terms.2.symbols,
          GoalBuilder.Reachable background calls symbol :=
      fun _ => GoalBuilder.reachable_of_terms?
    have both := (List.forall₂_and_left _ _).mpr ⟨reachable, shows⟩
    refine both.imp ?_
    rintro terms sides ⟨reachable, left, right⟩
    exact ⟨restores_of_shows builds obtained wellFormed apart
        (fun symbol member => reachable symbol (List.mem_append_left _ member))
        left,
      restores_of_shows builds obtained wellFormed apart
        (fun symbol member => reachable symbol (List.mem_append_right _ member))
        right⟩

/-- The names of the nested equation have no auxiliary form. -/
theorem keepsApart_nestedEquation : KeepsApart ∅ {} [nestedEquation] := by
  intro symbol occurs number same
  have initial : symbol.toList.head? = some 'V' := by
    rw [same]
    simp
  rcases occurs with reachable | declared
  · cases reachable with
    | body _ found _ => cases found
    | term member inTerm =>
        rw [List.mem_singleton.mp member] at inTerm
        simp only [nestedEquation, BuilderCall.termSymbols,
          BuilderCall.symbols, Term.symbols, Term.symbolsOfAll,
          List.mem_append, List.mem_singleton, List.append_nil] at inTerm
        rcases inTerm with rfl | rfl | rfl <;> simp at initial
  · cases List.mem_singleton.mp declared

theorem unfolding_undoes_flattening_nestedEquation :
    KeepsApart ∅ {} [nestedEquation] ∧
      ∃ goal : Goal, goal.Obtained ∧
        ((GoalBuilder.new ∅ {}).performAll [nestedEquation]).build = .ok goal ∧
        (∀ equation ∈ goal.auxiliary, goal.store.Stores equation.right ∧
          ∃ c, goal.unfoldSet? equation.right = some c) ∧
        ∀ kind, List.Forall₂
          (fun terms sides => goal.Restores terms.1 sides.1 ∧
            goal.Restores terms.2 sides.2)
          ([nestedEquation].filterMap (·.terms? kind)) (goal.sides kind) := by
  obtain ⟨total, restores⟩ := unfolding_undoes_flattening
  have bodies : (∅ : Ontology Term).Readable := by
    intro symbol definition found
    cases found
  have readable : ∀ call ∈ [nestedEquation], call.readable = true := by
    simp [nestedEquation, BuilderCall.readable, Term.readable,
      Term.readableAll]
  obtain ⟨goal, built⟩ : ∃ goal, ((GoalBuilder.new ∅ {}).performAll
      [nestedEquation]).build = .ok goal :=
    GoalBuilder.exists_build bodies readable
  have obtained : goal.Obtained := .built built
  refine ⟨keepsApart_nestedEquation, goal, obtained, built, ?_,
    restores ∅ {} [nestedEquation] goal built keepsApart_nestedEquation⟩
  intro equation member
  have stored := (obtained.wellFormed.equations equation
    (List.mem_append_left _ (List.mem_append_right _ member))).2
  exact ⟨stored, total goal obtained equation.right stored⟩

end Built

end Unfold

end Goal

end ConceptUnification
