import Mathlib.Logic.Relation
import ConceptUnification.Proofs.FlatForm

/-!
# Flattening as a path of small changes

Flattening interns names and restrictions, introduces auxiliary variables and
imports definitions, in an order that depends on the terms and on what has been
met before.  `Change` lists these changes, with the terms that abbreviations and
equations of definitions are the flat forms of.  Every flattening step that ends
without an error follows a path of changes; so whatever all changes preserve is
preserved by flattening.
-/

namespace ConceptUnification

/-- What the name of a definition is equivalent to.  The body of a primitive
one is completed by the undefined part of the name. -/
def BackgroundDefinition.completed (definition : BackgroundDefinition Term)
    (undefinedEnding : String) : Term :=
  if definition.primitive then
    .conjunction
      [definition.body, .name (definition.symbol ++ undefinedEnding)]
  else definition.body

namespace GoalBuilder

/-- The changes that flattening makes to a builder.  Names are interned if they
are mentioned or are undefined parts. -/
inductive Change (mentioned : String → Prop) (before : GoalBuilder) :
    GoalBuilder → Prop
  | name {symbol : String} (inScope : mentioned symbol) :
      Change mentioned before (before.withName symbol)
  | restriction {role symbol : String} {filler : AtomId}
      (named : before.store.atom? filler = some (.name symbol)) :
      Change mentioned before (before.withRestriction role filler)
  | abbreviation {term : Term} {conjunction : AtomSet}
      (inScope : ∀ symbol ∈ term.symbols, mentioned symbol)
      (form :
        term.flatForm? before.store before.auxiliary = some conjunction)
      (new : before.auxiliary.find? (·.right == conjunction) = none) :
      Change mentioned before (before.withAbbreviation conjunction)
  | beginImport {id : AtomId} {definition : BackgroundDefinition Term}
      (found : before.background.find? definition.symbol = some definition)
      (inScope : mentioned definition.symbol)
      (named : before.store.atom? id = some (.name definition.symbol))
      (new : id ∉ before.imported) :
      Change mentioned before (before.withImport id)
  | undefinedPart {definition : BackgroundDefinition Term}
      (found : before.background.find? definition.symbol = some definition)
      (primitive : definition.primitive = true) :
      Change mentioned before
        (before.withName (definition.symbol ++ before.undefinedEnding))
  | define {id : AtomId} {definition : BackgroundDefinition Term}
      {right : AtomSet}
      (found : before.background.find? definition.symbol = some definition)
      (named : before.store.atom? id = some (.name definition.symbol))
      (form : (definition.completed before.undefinedEnding).flatForm?
        before.store before.auxiliary = some right) :
      Change mentioned before
        { before with
          definitions :=
            before.definitions ++ [⟨id, right, definition.primitive⟩] }

/-- Any number of changes. -/
abbrev Path (mentioned : String → Prop) : GoalBuilder → GoalBuilder → Prop :=
  Relation.ReflTransGen (Change mentioned)

section Change

variable {mentioned : String → Prop} {before after : GoalBuilder}

theorem Change.develops (change : Change mentioned before after) :
    Develops before after := by
  cases change with
  | name inScope => exact develops_withName before _
  | undefinedPart found primitive => exact develops_withName before _
  | restriction named => exact develops_withRestriction before _ _
  | abbreviation inScope form new => exact develops_withAbbreviation before _
  | beginImport found inScope named new => exact develops_withImport before _
  | define found named form => exact develops_define before _

theorem Change.wellFormed (change : Change mentioned before after)
    (wellFormed : before.WellFormed) : after.WellFormed := by
  cases change with
  | name inScope => exact (grows_internName before _).wellFormed wellFormed
  | undefinedPart found primitive =>
      exact (grows_internName before _).wellFormed wellFormed
  | @restriction role symbol filler named =>
      have numbered : (before.withRole role).store.WellFormed :=
        wellFormed.store
      refine wellFormed.withStore (numbered.intern ?_)
        (develops_withRestriction before role filler).extension
      rintro role' filler' same
      cases same
      exact ⟨symbol, named⟩
  | abbreviation inScope form new =>
      exact (grows_withAbbreviation
        (Term.stores_flatForm? _ form)).wellFormed wellFormed
  | @beginImport id definition found inScope named new =>
      have reclassified := wellFormed.withStore
        (wellFormed.store.setKind id .definitionVariable)
        AtomStore.extends_setKind
      exact { reclassified with }
  | define found named form =>
      refine { wellFormed with definitions := ?_ }
      intro equation member
      rcases List.mem_append.mp member with old | new
      · exact wellFormed.definitions equation old
      · rw [List.mem_singleton] at new
        subst new
        exact ⟨AtomStore.lt_size_of_atom? named, Term.stores_flatForm? _ form⟩

/-- More names may be mentioned. -/
theorem Change.mono {others : String → Prop}
    (change : Change mentioned before after)
    (names : ∀ symbol, mentioned symbol → others symbol) :
    Change others before after := by
  cases change with
  | name inScope => exact .name (names _ inScope)
  | undefinedPart found primitive => exact .undefinedPart found primitive
  | restriction named => exact .restriction named
  | abbreviation inScope form new =>
      exact .abbreviation (fun symbol member => names _ (inScope symbol member))
        form new
  | beginImport found inScope named new =>
      exact .beginImport found (names _ inScope) named new
  | define found named form => exact .define found named form

/-- What all changes preserve is preserved along a path. -/
theorem Path.preserves (invariant : GoalBuilder → Prop)
    (path : Path mentioned before after)
    (step : ∀ earlier later, Change mentioned earlier later →
      invariant earlier → invariant later)
    (start : invariant before) : invariant after := by
  induction path with
  | refl => exact start
  | tail _ change induction => exact step _ _ change induction

theorem Path.mono {others : String → Prop} (path : Path mentioned before after)
    (names : ∀ symbol, mentioned symbol → others symbol) :
    Path others before after :=
  Relation.ReflTransGen.mono
    (fun _ _ (change : Change mentioned _ _) => change.mono names) _ _ path

theorem Path.develops (path : Path mentioned before after) :
    Develops before after :=
  Path.preserves (Develops before) path
    (fun _ _ change earlier => earlier.trans change.develops) (.refl before)

theorem Path.wellFormed (path : Path mentioned before after)
    (wellFormed : before.WellFormed) : after.WellFormed :=
  Path.preserves WellFormed path (fun _ _ change => change.wellFormed)
    wellFormed

end Change

section Flatten

/-- What is mentioned includes the bodies of definitions of mentioned names. -/
def Closed (background : Ontology Term) (mentioned : String → Prop) : Prop :=
  ∀ symbol definition, mentioned symbol →
    background.find? symbol = some definition →
      ∀ other ∈ definition.body.symbols, mentioned other

theorem closed_all {background : Ontology Term} :
    Closed background fun _ => True :=
  fun _ _ _ _ _ _ => trivial

variable {mentioned : String → Prop} {builder after : GoalBuilder}

theorem abbreviate_path {term : Term} {conjunction : AtomSet}
    (inScope : ∀ symbol ∈ term.symbols, mentioned symbol)
    (form : term.flatForm? builder.store builder.auxiliary = some conjunction)
    {id : AtomId} (run : (abbreviate conjunction).run builder = (id, after)) :
    Path mentioned builder after := by
  rcases abbreviate_cases run with ⟨_, _, _, rfl⟩ | ⟨new, _, rfl⟩
  · exact .refl
  · exact .single (.abbreviation inScope form new)

theorem singleAtom_path {term : Term} {conjunction : AtomSet}
    (inScope : ∀ symbol ∈ term.symbols, mentioned symbol)
    (form : term.flatForm? builder.store builder.auxiliary = some conjunction)
    {id : AtomId} (run : (singleAtom conjunction).run builder = (id, after)) :
    Path mentioned builder after := by
  rcases singleAtom_cases run with ⟨_, rfl⟩ | ⟨_, run⟩
  · exact .refl
  · exact abbreviate_path inScope form run

theorem singleName_path {term : Term} {conjunction : AtomSet}
    (inScope : ∀ symbol ∈ term.symbols, mentioned symbol)
    (form : term.flatForm? builder.store builder.auxiliary = some conjunction)
    {id : AtomId} (run : (singleName conjunction).run builder = (id, after)) :
    Path mentioned builder after := by
  rcases singleName_cases run with ⟨_, _, rfl⟩ | ⟨_, run⟩
  · exact .refl
  · exact abbreviate_path inScope form run

/-- Ending an import of a definition whose body was flattened adds its equation,
after the undefined part of a primitive one was interned. -/
theorem finishImport_cases {id : AtomId}
    {definition : BackgroundDefinition Term} {body : AtomSet}
    (form : definition.body.flatForm? builder.store builder.auxiliary =
      some body) :
    ∃ between right,
      (definition.primitive = false ∧ between = builder ∨
        definition.primitive = true ∧ between =
          builder.withName (definition.symbol ++ builder.undefinedEnding)) ∧
      (definition.completed between.undefinedEnding).flatForm? between.store
        between.auxiliary = some right ∧
      ((finishImport id definition.symbol body definition.primitive).run
        builder).2 =
        { between with
          definitions :=
            between.definitions ++ [⟨id, right, definition.primitive⟩] } := by
  rw [run_finishImport_eq]
  cases primitive : definition.primitive with
  | false =>
      refine ⟨builder, body, .inl ⟨rfl, rfl⟩, ?_, rfl⟩
      simpa only [BackgroundDefinition.completed, primitive,
        Bool.false_eq_true, ↓reduceIte] using form
  | true =>
      let between :=
        builder.withName (definition.symbol ++ builder.undefinedEnding)
      refine ⟨between, _, .inr ⟨rfl, rfl⟩, ?_, rfl⟩
      have completed : definition.completed between.undefinedEnding =
          .conjunction [definition.body,
            .name (definition.symbol ++ builder.undefinedEnding)] := by
        simp [BackgroundDefinition.completed, primitive, between, withName]
      rw [completed]
      exact Term.flatForm?_conjunction_name.mpr ⟨_, _,
        Term.flatForm?_develop _ (develops_withName builder _) form,
        AtomStore.atom?_intern, rfl⟩

theorem finishImport_path {id : AtomId}
    {definition : BackgroundDefinition Term} {body : AtomSet}
    (found : builder.background.find? definition.symbol = some definition)
    (named : builder.store.atom? id = some (.name definition.symbol))
    (form : definition.body.flatForm? builder.store builder.auxiliary =
      some body) :
    Path mentioned builder ((finishImport id definition.symbol body
      definition.primitive).run builder).2 := by
  obtain ⟨between, right, interned, completed, same⟩ :=
    finishImport_cases form
  rw [same]
  rcases interned with ⟨_, rfl⟩ | ⟨primitive, rfl⟩
  · exact .single (.define found named completed)
  · have interned : Change mentioned builder _ :=
      .undefinedPart found primitive
    exact (Relation.ReflTransGen.single interned).tail
      (.define found (interned.develops.extension id _ named) completed)

/-- Flattening follows a path over the names of the term and of the definitions
that it leads to. -/
theorem Flattens.path {term : Term} {flat : AtomSet}
    (flattens : Flattens builder term flat after)
    (closed : Closed builder.background mentioned)
    (inScope : ∀ symbol ∈ term.symbols, mentioned symbol) :
    Path mentioned builder after := by
  induction flattens with
  | @known builder symbol id number settled =>
      exact .single (.name (inScope symbol (List.mem_singleton_self _)))
  | @imported builder between symbol id definition body number new found inner
      induction =>
      subst number
      obtain rfl := Ontology.symbol_of_find? found
      have inScope := inScope definition.symbol (List.mem_singleton_self _)
      have interned : Change mentioned builder
          (builder.withName definition.symbol) := .name inScope
      have named : (builder.withName definition.symbol).store.atom?
          (builder.store.internName definition.symbol).1 =
            some (.name definition.symbol) := AtomStore.atom?_intern
      have begins : Change mentioned (builder.withName definition.symbol) _ :=
        .beginImport found inScope named new
      have flattened := induction closed (closed _ definition inScope found)
      have development := begins.develops.trans inner.develops
      have finished : Path mentioned between _ := finishImport_path
        (by rwa [development.background])
        (development.extension _ _ named) inner.flatForm?
      exact ((flattened.trans finished).head begins).head interned
  | nil => exact .refl
  | cons head tail first others =>
      have first := first closed fun symbol member =>
        inScope symbol (List.mem_append_left _ member)
      rw [← head.develops.background] at closed
      exact first.trans (others closed fun symbol member =>
        inScope symbol (List.mem_append_right _ member))
  | @restriction builder between second after role filler flat name id inner
      single interned induction =>
      -- The flat filler is reduced to one name, and this name is restricted.
      have fillerScope : ∀ symbol ∈ filler.symbols, mentioned symbol := inScope
      have reduced : Path mentioned between second :=
        singleName_path fillerScope inner.flatForm? single
      obtain ⟨_, named, rfl, _⟩ := internRestriction_cases interned
      exact ((induction closed inScope).trans reduced).tail
        (.restriction named)

end Flatten

end GoalBuilder

end ConceptUnification
