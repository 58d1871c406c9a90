import ConceptUnification.Proofs.TermValue

/-!
# Flattening as a relation

`Flattens` describes flattening by one rule for each form of a term, and by two
rules for concept names: the definition of a name is flattened in the middle of
the term unless the name is marked or has none.  The rules do not bound how
often definitions are imported.  The executable function ends because it takes
each definition out of the available ones, and what it takes out is marked, so
it finds exactly the derivations of the relation.
-/

namespace ConceptUnification

mutual

/-- The concept names of a term. -/
def Term.symbols : Term → List String
  | .name symbol => [symbol]
  | .conjunction parts => Term.symbolsOfAll parts
  | .restriction _ filler => filler.symbols
  | .unreadable => []

/-- The concept names of some terms. -/
def Term.symbolsOfAll : List Term → List String
  | [] => []
  | part :: parts => part.symbols ++ Term.symbolsOfAll parts

end

namespace Ontology

/-- All definitions of the first ontology are definitions of the second. -/
def Within {β : Type} (available background : Ontology β) : Prop :=
  ∀ symbol definition, available.find? symbol = some definition →
    background.find? symbol = some definition

theorem find?_erase_of_ne {β : Type} {ontology : Ontology β}
    {symbol other : String} (different : other ≠ symbol) :
    (ontology.erase symbol).find? other = ontology.find? other := by
  unfold find? Ontology.erase
  rw [List.find?_filter]
  congr 1
  funext entry
  by_cases same : entry.symbol = other
  · simp [same, different]
  · simp [same]

theorem find?_erase_self {β : Type} (ontology : Ontology β) (symbol : String) :
    (ontology.erase symbol).find? symbol = none := by
  unfold find? Ontology.erase
  rw [List.find?_eq_none]
  intro entry kept
  simpa using (List.mem_filter.mp kept).2

theorem Within.erase {β : Type} {available background : Ontology β}
    (within : available.Within background) (symbol : String) :
    (available.erase symbol).Within background := by
  intro other definition found
  apply within
  have different : other ≠ symbol := by
    rintro rfl
    rw [find?_erase_self] at found
    cases found
  rwa [find?_erase_of_ne different] at found

theorem symbol_of_find? {β : Type} {ontology : Ontology β} {symbol : String}
    {definition : BackgroundDefinition β}
    (found : ontology.find? symbol = some definition) :
    definition.symbol = symbol := by
  simpa using List.find?_some found

end Ontology

namespace GoalBuilder

/-- The builder after a name was interned. -/
def withName (builder : GoalBuilder) (symbol : String) : GoalBuilder :=
  { builder with store := (builder.store.internName symbol).2 }

/-- The builder after a role was interned. -/
def withRole (builder : GoalBuilder) (role : String) : GoalBuilder :=
  { builder with
    store :=
      { builder.store with roles := (builder.store.roles.insert role).2 } }

/-- The builder after a restriction was interned. -/
def withRestriction (builder : GoalBuilder) (role : String)
    (filler : AtomId) : GoalBuilder :=
  { builder with
    store := ((builder.withRole role).store.intern
      (.restriction (builder.store.roles.insert role).1 filler)).2 }

/-- The builder after the import of a definition began. -/
def withImport (builder : GoalBuilder) (id : AtomId) : GoalBuilder :=
  { builder with
    imported := builder.imported ++ [id]
    store := builder.store.setKind id .definitionVariable }

section Develop

variable {builder after : GoalBuilder}

theorem develops_withName (builder : GoalBuilder) (symbol : String) :
    Develops builder (builder.withName symbol) :=
  { Develops.refl builder with
    extension := AtomStore.extends_intern
    roles := fun id role found => by
      rw [withName, AtomStore.roleName?, AtomStore.internName,
        AtomStore.roles_intern]
      exact found }

theorem develops_withRestriction (builder : GoalBuilder) (role : String)
    (filler : AtomId) :
    Develops builder (builder.withRestriction role filler) :=
  { Develops.refl builder with
    extension := by
      intro id atom present
      have kept : (builder.withRole role).store.atom? id = some atom := present
      exact AtomStore.extends_intern id atom kept
    roles := fun id other found => by
      rw [withRestriction, AtomStore.roleName?, AtomStore.roles_intern]
      exact Table.get?_insert_of_get? found }

theorem develops_withImport (builder : GoalBuilder) (id : AtomId) :
    Develops builder (builder.withImport id) :=
  { Develops.refl builder with
    extension := AtomStore.extends_setKind
    imported := List.prefix_append _ _ }

theorem develops_withAbbreviation (builder : GoalBuilder)
    (conjunction : AtomSet) :
    Develops builder (builder.withAbbreviation conjunction) :=
  { develops_withName builder builder.freshSymbol with
    extension := AtomStore.extends_intern.trans AtomStore.extends_setKind
    auxiliary := List.prefix_append _ _ }

theorem develops_define (builder : GoalBuilder) (equation : Equation) :
    Develops builder
      { builder with definitions := builder.definitions ++ [equation] } :=
  { Develops.refl builder with definitions := List.prefix_append _ _ }

theorem run_lift_ok {α : Type} {step : StateM GoalBuilder α} {result : α} :
    (liftM step : FlattenM α).run.run builder = (.ok result, after) ↔
      step.run builder = (result, after) := by
  have lifted : (liftM step : FlattenM α).run.run builder =
      ((Except.ok (step.run builder).1 : Except MalformedTerm α),
        (step.run builder).2) := rfl
  rw [lifted]
  constructor
  · intro same
    cases same
    rfl
  · intro same
    rw [same]

theorem run_internName (builder : GoalBuilder) (symbol : String) :
    (internName symbol).run builder =
      ((builder.store.internName symbol).1, builder.withName symbol) := rfl

theorem run_beginImport (builder : GoalBuilder) (id : AtomId) :
    (beginImport id).run builder = ((), builder.withImport id) := rfl

/-- A conjunction is abbreviated by a known variable or by a new one. -/
theorem abbreviate_cases {conjunction : AtomSet} {id : AtomId}
    (run : (abbreviate conjunction).run builder = (id, after)) :
    (∃ equation, builder.auxiliary.find? (·.right == conjunction) =
        some equation ∧ id = equation.left ∧ after = builder) ∨
      (builder.auxiliary.find? (·.right == conjunction) = none ∧
        id = (builder.store.internName builder.freshSymbol).1 ∧
        after = builder.withAbbreviation conjunction) := by
  cases found : builder.auxiliary.find? (·.right == conjunction) with
  | some equation =>
      rw [run_abbreviate_of_found found] at run
      cases run
      exact .inl ⟨equation, rfl, rfl, rfl⟩
  | none =>
      rw [run_abbreviate_of_new found] at run
      cases run
      exact .inr ⟨rfl, rfl, rfl⟩

/-- A single concept name is kept, and all else is abbreviated. -/
theorem singleName_cases {conjunction : AtomSet} {id : AtomId}
    (run : (singleName conjunction).run builder = (id, after)) :
    (conjunction = {id} ∧ (builder.store.symbol? id).isSome = true ∧
        after = builder) ∨
      ((∀ atom, conjunction.single? = some atom →
          builder.store.symbol? atom = none) ∧
        (abbreviate conjunction).run builder = (id, after)) := by
  unfold singleName at run
  split at run
  · next atom single =>
      rw [StateT.run_bind, StateT.run_get] at run
      by_cases named : (builder.store.symbol? atom).isSome = true
      · simp only [pure_bind, named, ↓reduceIte] at run
        cases run
        exact .inl ⟨eq_singleton_of_single? single, named, rfl⟩
      · simp only [pure_bind, named] at run
        refine .inr ⟨fun other same => ?_, run⟩
        obtain rfl := Option.some.inj (single.symm.trans same)
        simpa using named
  · next several => exact .inr ⟨by simp [several], run⟩

/-- A single atom is kept, and all else is abbreviated. -/
theorem singleAtom_cases {conjunction : AtomSet} {id : AtomId}
    (run : (singleAtom conjunction).run builder = (id, after)) :
    (conjunction = {id} ∧ after = builder) ∨
      (conjunction.single? = none ∧
        (abbreviate conjunction).run builder = (id, after)) := by
  unfold singleAtom at run
  split at run
  · next single =>
      cases run
      exact .inl ⟨eq_singleton_of_single? single, rfl⟩
  · next several => exact .inr ⟨several, run⟩

/-- A restriction is interned over a stored concept name. -/
theorem internRestriction_cases {role : String} {filler id : AtomId}
    (run : (internRestriction role filler).run.run builder =
      (.ok id, after)) :
    ∃ symbol, builder.store.atom? filler = some (.name symbol) ∧
      after = builder.withRestriction role filler ∧
      after.store.roleName? (builder.store.roles.insert role).1 = some role ∧
      after.store.atom? id =
        some (.restriction (builder.store.roles.insert role).1 filler) := by
  unfold internRestriction at run
  obtain ⟨_, _, getRun, run⟩ := run_bind_ok.mp run
  cases getRun
  unfold AtomStore.internRestriction at run
  split at run
  · cases run
  · cases run
  · next symbol named =>
      have numbered : (builder.withRestriction role filler).store.roleName?
          (builder.store.roles.insert role).1 = some role := by
        rw [withRestriction, AtomStore.roleName?, AtomStore.roles_intern]
        exact Table.get?_insert_self _ _
      cases run
      exact ⟨symbol, named, rfl, numbered, AtomStore.atom?_intern⟩

/-- Ending an import completes a primitive definition by its undefined part and
adds the equation of the name. -/
theorem run_finishImport_eq (builder : GoalBuilder) (id : AtomId)
    (symbol : String) (body : AtomSet) (primitive : Bool) :
    (finishImport id symbol body primitive).run builder =
      ((), if primitive then
        let part := symbol ++ builder.undefinedEnding
        { builder.withName part with
          definitions := builder.definitions ++
            [⟨id, insert (builder.store.internName part).1 body, true⟩] }
      else
        { builder with
          definitions := builder.definitions ++ [⟨id, body, false⟩] }) := by
  cases primitive <;> rfl

theorem develops_abbreviate {conjunction : AtomSet} {id : AtomId}
    (run : (abbreviate conjunction).run builder = (id, after)) :
    Develops builder after := by
  rcases abbreviate_cases run with ⟨_, _, _, rfl⟩ | ⟨_, _, rfl⟩
  · exact .refl after
  · exact develops_withAbbreviation builder conjunction

theorem develops_singleName {conjunction : AtomSet} {id : AtomId}
    (run : (singleName conjunction).run builder = (id, after)) :
    Develops builder after := by
  rcases singleName_cases run with ⟨_, _, rfl⟩ | ⟨_, run⟩
  · exact .refl after
  · exact develops_abbreviate run

theorem develops_singleAtom {conjunction : AtomSet} {id : AtomId}
    (run : (singleAtom conjunction).run builder = (id, after)) :
    Develops builder after := by
  rcases singleAtom_cases run with ⟨_, rfl⟩ | ⟨_, run⟩
  · exact .refl after
  · exact develops_abbreviate run

theorem develops_finishImport (builder : GoalBuilder) (id : AtomId)
    (symbol : String) (body : AtomSet) (primitive : Bool) :
    Develops builder
      ((finishImport id symbol body primitive).run builder).2 := by
  rw [run_finishImport_eq]
  cases primitive with
  | false => exact develops_define builder _
  | true => exact (develops_withName builder _).trans (develops_define _ _)

end Develop

/-- Flattening a term turns one builder into another one.  A name is imported at
its first occurrence, with its definition flattened between the mark and the
equation. -/
inductive Flattens : GoalBuilder → Term → AtomSet → GoalBuilder → Prop
  | known {builder : GoalBuilder} {symbol : String} {id : AtomId}
      (number : (builder.store.internName symbol).1 = id)
      (settled :
        id ∈ builder.imported ∨ builder.background.find? symbol = none) :
      Flattens builder (.name symbol) {id} (builder.withName symbol)
  | imported {builder between : GoalBuilder} {symbol : String} {id : AtomId}
      {definition : BackgroundDefinition Term} {body : AtomSet}
      (number : (builder.store.internName symbol).1 = id)
      (new : id ∉ builder.imported)
      (found : builder.background.find? symbol = some definition)
      (inner : Flattens ((builder.withName symbol).withImport id)
        definition.body body between) :
      Flattens builder (.name symbol) {id}
        ((finishImport id symbol body definition.primitive).run between).2
  | nil {builder : GoalBuilder} :
      Flattens builder (.conjunction []) ∅ builder
  | cons {builder between after : GoalBuilder} {part : Term}
      {parts : List Term} {first others : AtomSet}
      (head : Flattens builder part first between)
      (tail : Flattens between (.conjunction parts) others after) :
      Flattens builder (.conjunction (part :: parts)) (first ∪ others) after
  | restriction {builder between named after : GoalBuilder} {role : String}
      {filler : Term} {flat : AtomSet} {name id : AtomId}
      (inner : Flattens builder filler flat between)
      (single : (singleName flat).run between = (name, named))
      (interned :
        (internRestriction role name).run.run named = (.ok id, after)) :
      Flattens builder (.restriction role filler) {id} after

theorem Flattens.develops {builder after : GoalBuilder} {term : Term}
    {flat : AtomSet} (flattens : Flattens builder term flat after) :
    Develops builder after := by
  induction flattens with
  | known number settled => exact develops_withName _ _
  | imported number new found inner induction =>
      exact (((develops_withName _ _).trans (develops_withImport _ _)).trans
        induction).trans (develops_finishImport _ _ _ _ _)
  | nil => exact .refl _
  | cons head tail first others => exact first.trans others
  | restriction inner single interned induction =>
      obtain ⟨_, _, rfl, _⟩ := internRestriction_cases interned
      exact (induction.trans (develops_singleName single)).trans
        (develops_withRestriction _ _ _)

/-- An imported name is the one that was looked up. -/
theorem atom?_of_import {builder between : GoalBuilder} {symbol : String}
    {id : AtomId} {body : Term} {flat : AtomSet} {primitive : Bool}
    (number : (builder.store.internName symbol).1 = id)
    (inner :
      Flattens ((builder.withName symbol).withImport id) body flat between) :
    ((finishImport id symbol flat primitive).run between).2.store.atom? id =
      some (.name symbol) := by
  subst number
  have development := inner.develops.trans
    (develops_finishImport between (builder.store.internName symbol).1 symbol
      flat primitive)
  exact development.extension _ _ AtomStore.atom?_intern

section Adequacy

/-- The definition of a name is imported or being imported. -/
def Marks (builder : GoalBuilder) (symbol : String) : Prop :=
  ∃ id ∈ builder.imported, builder.store.atom? id = some (.name symbol)

theorem Marks.develop {before after : GoalBuilder} {symbol : String}
    (marks : before.Marks symbol) (development : Develops before after) :
    after.Marks symbol := by
  obtain ⟨id, marked, named⟩ := marks
  exact ⟨id, development.imported.subset marked,
    development.extension id _ named⟩

/-- What is missing among the available definitions is marked. -/
structure Remains (available : Ontology Term) (builder : GoalBuilder) :
    Prop where
  within : available.Within builder.background
  missing : ∀ symbol definition,
    builder.background.find? symbol = some definition →
      available.find? symbol = some definition ∨ builder.Marks symbol

variable {available : Ontology Term} {builder after : GoalBuilder}

theorem Remains.refl (builder : GoalBuilder) :
    Remains builder.background builder where
  within := fun _ _ found => found
  missing := fun _ _ found => .inl found

theorem Remains.develop (remains : Remains available builder)
    (development : Develops builder after) : Remains available after where
  within := by
    rw [development.background]
    exact remains.within
  missing := by
    intro symbol definition found
    rw [development.background] at found
    exact (remains.missing symbol definition found).imp_right
      (Marks.develop · development)

/-- A definition that is taken out is marked at the same time. -/
theorem Remains.withImport (remains : Remains available builder)
    {symbol : String} {id : AtomId}
    (named : builder.store.atom? id = some (.name symbol)) :
    Remains (available.erase symbol) (builder.withImport id) where
  within := remains.within.erase symbol
  missing := by
    intro other definition found
    by_cases same : other = symbol
    · subst same
      exact .inr ⟨id, by simp [GoalBuilder.withImport], named⟩
    · rw [Ontology.find?_erase_of_ne same]
      exact (remains.missing other definition found).imp_right
        (Marks.develop · (develops_withImport builder id))

/-- A name that is not marked has the definition that it has in the
background. -/
theorem Remains.find?_eq (remains : Remains available builder)
    {symbol : String} {id : AtomId}
    (named : builder.store.atom? id = some (.name symbol))
    (new : id ∉ builder.imported) :
    available.find? symbol = builder.background.find? symbol := by
  cases found : builder.background.find? symbol with
  | some definition =>
      refine (remains.missing symbol definition found).resolve_right ?_
      rintro ⟨other, marked, present⟩
      rw [AtomStore.atom?_injective present named] at marked
      exact new marked
  | none =>
      cases left : available.find? symbol with
      | none => rfl
      | some definition =>
          rw [remains.within symbol definition left] at found
          cases found

-- The induction follows the recursion of flattening: on the number of available
-- definitions and, while none is imported, on the term.

mutual

theorem flattens_of_flattenWith (available : Ontology Term) (term : Term)
    {builder after : GoalBuilder} {flat : AtomSet}
    (remains : Remains available builder)
    (run : (flattenWith available term).run.run builder = (.ok flat, after)) :
    Flattens builder term flat after := by
  cases term with
  | name symbol =>
      rw [flattenWith] at run
      obtain ⟨id, between, nameRun, run⟩ := run_bind_ok.mp run
      cases run
      exact flattens_of_nameWith available symbol remains nameRun
  | conjunction parts =>
      rw [flattenWith] at run
      exact flattens_of_flattenAllWith available parts remains run
  | restriction role filler =>
      rw [flattenWith] at run
      obtain ⟨flatFiller, first, fillerRun, run⟩ := run_bind_ok.mp run
      obtain ⟨name, second, nameRun, run⟩ := run_bind_ok.mp run
      obtain ⟨id, third, internRun, run⟩ := run_bind_ok.mp run
      cases run
      exact .restriction
        (flattens_of_flattenWith available filler remains fillerRun)
        (run_lift_ok.mp nameRun) internRun
  | unreadable =>
      rw [flattenWith] at run
      cases run
termination_by (available.size, sizeOf term)

theorem flattens_of_flattenAllWith (available : Ontology Term)
    (parts : List Term) {builder after : GoalBuilder} {flat : AtomSet}
    (remains : Remains available builder)
    (run : (flattenAllWith available parts).run.run builder =
      (.ok flat, after)) :
    Flattens builder (.conjunction parts) flat after := by
  cases parts with
  | nil =>
      rw [flattenAllWith] at run
      cases run
      exact .nil
  | cons part parts =>
      rw [flattenAllWith] at run
      obtain ⟨first, between, headRun, run⟩ := run_bind_ok.mp run
      obtain ⟨others, final, tailRun, run⟩ := run_bind_ok.mp run
      cases run
      have head := flattens_of_flattenWith available part remains headRun
      exact .cons head (flattens_of_flattenAllWith available parts
        (remains.develop head.develops) tailRun)
termination_by (available.size, sizeOf parts)

theorem flattens_of_nameWith (available : Ontology Term) (symbol : String)
    {builder after : GoalBuilder} {id : AtomId}
    (remains : Remains available builder)
    (run : (nameWith available symbol).run.run builder = (.ok id, after)) :
    Flattens builder (.name symbol) {id} after := by
  rw [nameWith] at run
  obtain ⟨_, _, internRun, run⟩ := run_bind_ok.mp run
  rw [run_lift_ok, run_internName] at internRun
  cases internRun
  obtain ⟨_, _, getRun, run⟩ := run_bind_ok.mp run
  cases getRun
  have named : (builder.withName symbol).store.atom?
      (builder.store.internName symbol).1 = some (.name symbol) :=
    AtomStore.atom?_intern
  have remains := remains.develop (develops_withName builder symbol)
  split at run
  · next marked =>
      cases run
      exact .known rfl (.inl marked)
  · next new =>
      have same := remains.find?_eq named new
      split at run
      · next free =>
          cases run
          exact .known rfl (.inr (same.symm.trans free))
      · next definition found =>
          have smaller := Ontology.size_erase_lt found
          obtain ⟨_, begun, beginRun, run⟩ := run_bind_ok.mp run
          obtain ⟨flat, between, bodyRun, run⟩ := run_bind_ok.mp run
          obtain ⟨_, final, finishRun, run⟩ := run_bind_ok.mp run
          cases run
          rw [run_lift_ok, run_beginImport] at beginRun
          cases beginRun
          have inner := flattens_of_flattenWith (available.erase symbol)
            definition.body (remains.withImport named) bodyRun
          have imported :=
            Flattens.imported rfl new (same.symm.trans found) inner
          rw [run_lift_ok.mp finishRun] at imported
          exact imported
termination_by (available.size, 0)
decreasing_by
  exact Prod.Lex.left _ _ ‹_›

end

/-- A name is interned and nothing else if it is marked or has no definition that
is available. -/
theorem run_nameWith_of_settled {symbol : String} {id : AtomId}
    (number : (builder.store.internName symbol).1 = id)
    (settled : id ∈ builder.imported ∨ available.find? symbol = none) :
    (nameWith available symbol).run.run builder =
      (.ok id, builder.withName symbol) := by
  subst number
  rw [nameWith]
  refine run_bind_ok.mpr
    ⟨_, _, run_lift_ok.mpr (run_internName builder symbol), ?_⟩
  refine run_bind_ok.mpr ⟨_, _, rfl, ?_⟩
  split
  · rfl
  · next new =>
      split
      · rfl
      · next definition found =>
          rw [settled.resolve_left new] at found
          cases found

/-- Any other name is imported. -/
theorem run_nameWith_of_new {between : GoalBuilder} {symbol : String}
    {id : AtomId} {definition : BackgroundDefinition Term} {body : AtomSet}
    (number : (builder.store.internName symbol).1 = id)
    (new : id ∉ builder.imported)
    (found : available.find? symbol = some definition)
    (bodyRun : (flattenWith (available.erase symbol) definition.body).run.run
      ((builder.withName symbol).withImport id) = (.ok body, between)) :
    (nameWith available symbol).run.run builder = (.ok id,
      ((finishImport id symbol body definition.primitive).run between).2) := by
  subst number
  rw [nameWith]
  refine run_bind_ok.mpr
    ⟨_, _, run_lift_ok.mpr (run_internName builder symbol), ?_⟩
  refine run_bind_ok.mpr ⟨_, _, rfl, ?_⟩
  split
  · next marked => exact absurd marked new
  · split
    · next free =>
        rw [found] at free
        cases free
    · next other found' =>
        obtain rfl := Option.some.inj (found.symm.trans found')
        refine run_bind_ok.mpr
          ⟨_, _, run_lift_ok.mpr (run_beginImport _ _), ?_⟩
        refine run_bind_ok.mpr ⟨_, _, bodyRun, ?_⟩
        exact run_bind_ok.mpr ⟨_, _, run_lift_ok.mpr rfl, rfl⟩

/-- A derivation is found by the executable function, whatever definitions are
still available. -/
theorem Flattens.run_flattenWith {term : Term} {flat : AtomSet}
    (flattens : Flattens builder term flat after) :
    ∀ available, Remains available builder →
      (flattenWith available term).run.run builder = (.ok flat, after) := by
  induction flattens with
  | @known builder symbol id number settled =>
      intro available remains
      have developed := remains.develop (develops_withName builder symbol)
      have settled : id ∈ builder.imported ∨ available.find? symbol = none := by
        by_cases marked : id ∈ builder.imported
        · exact .inl marked
        · right
          rw [← settled.resolve_left marked]
          subst number
          exact developed.find?_eq AtomStore.atom?_intern marked
      rw [flattenWith]
      exact run_bind_ok.mpr
        ⟨_, _, run_nameWith_of_settled number settled, rfl⟩
  | @imported builder between symbol id definition body number new found inner
      induction =>
      intro available remains
      have named : (builder.withName symbol).store.atom? id =
          some (.name symbol) := by
        rw [← number]
        exact AtomStore.atom?_intern
      have developed := remains.develop (develops_withName builder symbol)
      have left : available.find? symbol = some definition :=
        (developed.find?_eq named new).trans found
      have bodyRun := induction _ (developed.withImport named)
      rw [flattenWith]
      exact run_bind_ok.mpr
        ⟨_, _, run_nameWith_of_new number new left bodyRun, rfl⟩
  | nil =>
      intro available _
      rw [flattenWith, flattenAllWith]
      rfl
  | cons head tail first others =>
      intro available remains
      have tailRun := others available (remains.develop head.develops)
      rw [flattenWith] at tailRun
      rw [flattenWith, flattenAllWith]
      refine run_bind_ok.mpr ⟨_, _, first available remains, ?_⟩
      exact run_bind_ok.mpr ⟨_, _, tailRun, rfl⟩
  | restriction inner single interned induction =>
      intro available remains
      rw [flattenWith]
      refine run_bind_ok.mpr ⟨_, _, induction available remains, ?_⟩
      refine run_bind_ok.mpr ⟨_, _, run_lift_ok.mpr single, ?_⟩
      exact run_bind_ok.mpr ⟨_, _, interned, rfl⟩

/-- Flattening succeeds exactly if there is a derivation, and with the same
result. -/
theorem flatten_iff {term : Term} {flat : AtomSet} :
    (flatten term).run.run builder = (.ok flat, after) ↔
      Flattens builder term flat after := by
  constructor
  · exact flattens_of_flattenWith builder.background term (.refl builder)
  · intro flattens
    exact flattens.run_flattenWith builder.background (.refl builder)

end Adequacy

end GoalBuilder

end ConceptUnification
