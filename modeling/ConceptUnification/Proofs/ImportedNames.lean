import ConceptUnification.Proofs.CallRun

/-!
# Imported names

Flattening a term imports the definitions of all names that the term leads to.
A definition is marked before its body is flattened, and its equation is added
afterwards; in between the builder has marks without equations.  `Accounts` is
what each step does from its beginning to its end, where these marks are back in
balance: it settles the names of its terms, adds complete equations only, and
adds one equation for each name that it marked.
-/

namespace ConceptUnification

namespace GoalBuilder

/-- The definition of a name, if it has one, is imported or being imported. -/
def Settled (builder : GoalBuilder) (symbol : String) : Prop :=
  ∀ definition, builder.background.find? symbol = some definition →
    builder.Marks symbol

/-- An equation is that of the definition of a mentioned name, and the names in
the definition are settled. -/
structure Defines (mentioned : String → Prop) (builder : GoalBuilder)
    (equation : Equation) (definition : BackgroundDefinition Term) : Prop where
  found : builder.background.find? definition.symbol = some definition
  inScope : mentioned definition.symbol
  named : builder.store.atom? equation.left = some (.name definition.symbol)
  primitive : equation.primitive = definition.primitive
  form : (definition.completed builder.undefinedEnding).flatForm?
    builder.store builder.auxiliary = some equation.right
  settled : ∀ other ∈ definition.body.symbols, builder.Settled other

/-- All equations of definitions are complete. -/
def Complete (mentioned : String → Prop) (builder : GoalBuilder) : Prop :=
  ∀ equation ∈ builder.definitions,
    ∃ definition, Defines mentioned builder equation definition

/-- The left sides of the equations of definitions. -/
def defined (builder : GoalBuilder) : List AtomId :=
  builder.definitions.map Equation.left

/-- A step that imports nothing. -/
structure Spares (before after : GoalBuilder) : Prop extends
    Develops before after where
  sameImported : after.imported = before.imported
  sameDefinitions : after.definitions = before.definitions

/-- What a step does to the definitions, from before the step on to after it.
The marks that `started` lists stay without an equation. -/
structure Accounts (mentioned : String → Prop) (before : GoalBuilder)
    (symbols : List String) (after : GoalBuilder) : Prop where
  development : Develops before after
  settled : ∀ symbol ∈ symbols, after.Settled symbol
  complete : Complete mentioned before → Complete mentioned after
  balanced : ∀ started, before.imported.Perm (started ++ before.defined) →
    after.imported.Perm (started ++ after.defined)

section Algebra

variable {mentioned : String → Prop} {before between after : GoalBuilder}
  {symbols others : List String}

theorem Settled.develop {symbol : String} (settled : before.Settled symbol)
    (development : Develops before after) : after.Settled symbol := by
  intro definition found
  rw [development.background] at found
  exact (settled definition found).develop development

theorem Defines.develop {equation : Equation}
    {definition : BackgroundDefinition Term}
    (defines : Defines mentioned before equation definition)
    (development : Develops before after) :
    Defines mentioned after equation definition where
  found := by
    rw [development.background]
    exact defines.found
  inScope := defines.inScope
  named := development.extension _ _ defines.named
  primitive := defines.primitive
  form := by
    rw [development.undefinedEnding]
    exact Term.flatForm?_develop _ development defines.form
  settled := fun other member => (defines.settled other member).develop
    development

theorem Complete.develop (complete : Complete mentioned before)
    (development : Develops before after)
    (same : after.definitions = before.definitions) :
    Complete mentioned after := by
  intro equation member
  rw [same] at member
  obtain ⟨definition, defines⟩ := complete equation member
  exact ⟨definition, defines.develop development⟩

theorem Accounts.refl (builder : GoalBuilder) :
    Accounts mentioned builder [] builder where
  development := .refl builder
  settled := by simp
  complete := fun complete => complete
  balanced := fun _ perm => perm

theorem Accounts.trans (first : Accounts mentioned before symbols between)
    (second : Accounts mentioned between others after) :
    Accounts mentioned before (symbols ++ others) after where
  development := first.development.trans second.development
  settled := by
    intro symbol member
    rcases List.mem_append.mp member with inFirst | inSecond
    · exact (first.settled symbol inFirst).develop second.development
    · exact second.settled symbol inSecond
  complete := fun complete => second.complete (first.complete complete)
  balanced := fun started perm =>
    second.balanced started (first.balanced started perm)

theorem Accounts.of_spares (spares : Spares before after) :
    Accounts mentioned before [] after where
  development := spares.toDevelops
  settled := by simp
  complete := fun complete =>
    complete.develop spares.toDevelops spares.sameDefinitions
  balanced := by
    intro started perm
    rw [spares.sameImported, defined, spares.sameDefinitions]
    exact perm

theorem Accounts.spare (first : Accounts mentioned before symbols between)
    (spares : Spares between after) :
    Accounts mentioned before symbols after := by
  simpa using first.trans (.of_spares spares)

end Algebra

section Spares

variable {builder after : GoalBuilder}

theorem Spares.refl (builder : GoalBuilder) : Spares builder builder :=
  { Develops.refl builder with sameImported := rfl, sameDefinitions := rfl }

theorem spares_withName (builder : GoalBuilder) (symbol : String) :
    Spares builder (builder.withName symbol) :=
  { develops_withName builder symbol with
    sameImported := rfl
    sameDefinitions := rfl }

theorem spares_abbreviate {conjunction : AtomSet} {id : AtomId}
    (run : (abbreviate conjunction).run builder = (id, after)) :
    Spares builder after := by
  rcases abbreviate_cases run with ⟨_, _, _, rfl⟩ | ⟨_, _, rfl⟩
  · exact .refl after
  · exact
      { develops_withAbbreviation builder conjunction with
        sameImported := rfl
        sameDefinitions := rfl }

theorem spares_singleName {conjunction : AtomSet} {id : AtomId}
    (run : (singleName conjunction).run builder = (id, after)) :
    Spares builder after := by
  rcases singleName_cases run with ⟨_, _, rfl⟩ | ⟨_, run⟩
  · exact .refl after
  · exact spares_abbreviate run

theorem spares_singleAtom {conjunction : AtomSet} {id : AtomId}
    (run : (singleAtom conjunction).run builder = (id, after)) :
    Spares builder after := by
  rcases singleAtom_cases run with ⟨_, rfl⟩ | ⟨_, run⟩
  · exact .refl after
  · exact spares_abbreviate run

theorem spares_internRestriction {role : String} {filler id : AtomId}
    (run : (internRestriction role filler).run.run builder =
      (.ok id, after)) : Spares builder after := by
  obtain ⟨_, _, rfl, _⟩ := internRestriction_cases run
  exact
    { develops_withRestriction builder role filler with
      sameImported := rfl
      sameDefinitions := rfl }

theorem spares_add (builder : GoalBuilder) (constraint : FlatConstraint) :
    Spares builder (builder.add constraint) := by
  cases constraint <;>
    exact { Develops.refl builder with
      sameImported := rfl
      sameDefinitions := rfl }

theorem spares_declareUserVariable (builder : GoalBuilder)
    (symbol : String) : Spares builder (builder.declareUserVariable symbol).2 :=
  { develops_declareUserVariable builder symbol with
    sameImported := rfl
    sameDefinitions := rfl }

end Spares

section Accounts

variable {mentioned : String → Prop} {builder before after : GoalBuilder}

/-- A name that is marked, or that has no definition, is settled. -/
theorem accounts_known {symbol : String} {id : AtomId}
    (number : (builder.store.internName symbol).1 = id)
    (settled :
      id ∈ builder.imported ∨ builder.background.find? symbol = none) :
    Accounts mentioned builder [symbol] (builder.withName symbol) :=
  { Accounts.of_spares (spares_withName builder symbol) with
    settled := by
      subst number
      rintro other member definition found
      obtain rfl := List.mem_singleton.mp member
      rcases settled with marked | free
      · exact ⟨_, marked, AtomStore.atom?_intern⟩
      · cases free.symm.trans found }

/-- An import adds the mark and the equation of its name.  The names in the
definition are settled when the equation is added. -/
theorem accounts_import {between : GoalBuilder} {id : AtomId}
    {definition : BackgroundDefinition Term} {body : AtomSet}
    (inScope : mentioned definition.symbol)
    (number : (builder.store.internName definition.symbol).1 = id)
    (found : builder.background.find? definition.symbol = some definition)
    (form : definition.body.flatForm? between.store between.auxiliary =
      some body)
    (inner : Accounts mentioned
      ((builder.withName definition.symbol).withImport id)
      definition.body.symbols between) :
    Accounts mentioned builder [definition.symbol]
      ((finishImport id definition.symbol body definition.primitive).run
        between).2 := by
  have begun := (develops_withName builder definition.symbol).trans
    (develops_withImport _ id)
  have named : between.store.atom? id = some (.name definition.symbol) := by
    subst number
    exact ((develops_withImport _ _).trans inner.development).extension _ _
      AtomStore.atom?_intern
  have marked : id ∈ between.imported :=
    inner.development.imported.subset (by simp [withImport])
  have ending := develops_finishImport between id definition.symbol body
    definition.primitive
  obtain ⟨final, right, interned, completed, same⟩ := finishImport_cases form
  have spares : Spares between final := by
    rcases interned with ⟨_, rfl⟩ | ⟨_, rfl⟩
    · exact .refl final
    · exact spares_withName between _
  have accounted := inner.spare spares
  rw [same] at ending ⊢
  exact
    { development := begun.trans (inner.development.trans ending)
      settled := by
        rintro other member definition' _
        obtain rfl := List.mem_singleton.mp member
        exact ⟨id, ending.imported.subset marked,
          ending.extension _ _ named⟩
      complete := by
        intro complete equation member
        have kept := develops_define final ⟨id, right, definition.primitive⟩
        rcases List.mem_append.mp member with old | new
        · obtain ⟨other, defines⟩ :=
            accounted.complete (complete.develop begun rfl) equation old
          exact ⟨other, defines.develop kept⟩
        · obtain rfl := List.mem_singleton.mp new
          have background : final.background = builder.background :=
            accounted.development.background
          have complete : Defines mentioned final
              ⟨id, right, definition.primitive⟩ definition :=
            { found := background ▸ found
              inScope := inScope
              named := spares.extension _ _ named
              primitive := rfl
              form := completed
              settled := accounted.settled }
          exact ⟨definition, complete.develop kept⟩
      balanced := by
        intro started perm
        -- While the body is flattened, the name is one more that was started.
        have begins : (builder.imported ++ [id]).Perm
            ((started ++ [id]) ++ builder.defined) := by
          refine (perm.append_right [id]).trans ?_
          rw [List.append_assoc, List.append_assoc]
          exact List.perm_append_comm.append_left started
        have ends := accounted.balanced (started ++ [id]) begins
        simp only [defined, List.map_append, List.map_cons, List.map_nil]
        rw [List.append_assoc] at ends
        exact ends.trans (List.perm_append_comm.append_left started) }

/-- Flattening accounts for the names of the term. -/
theorem Flattens.accounts {term : Term} {flat : AtomSet}
    (flattens : Flattens builder term flat after)
    (closed : Closed builder.background mentioned)
    (inScope : ∀ symbol ∈ term.symbols, mentioned symbol) :
    Accounts mentioned builder term.symbols after := by
  induction flattens with
  | known number settled => exact accounts_known number settled
  | @imported builder between symbol id definition body number new found inner
      induction =>
      obtain rfl := Ontology.symbol_of_find? found
      have inScope := inScope definition.symbol (List.mem_singleton_self _)
      exact accounts_import inScope number found inner.flatForm?
        (induction closed (closed _ definition inScope found))
  | nil => exact .refl _
  | cons head tail first others =>
      have headAccounts := first closed fun symbol member =>
        inScope symbol (List.mem_append_left _ member)
      rw [← head.develops.background] at closed
      exact headAccounts.trans (others closed fun symbol member =>
        inScope symbol (List.mem_append_right _ member))
  | restriction inner single interned induction =>
      exact ((induction closed inScope).spare
        (spares_singleName single)).spare (spares_internRestriction interned)

theorem FlattensBoth.accounts {left right : Term} {first : GoalBuilder}
    {flatLeft flatRight : AtomSet}
    (both : FlattensBoth before left right flatLeft flatRight first after)
    (closed : Closed before.background mentioned)
    (inScope : ∀ symbol ∈ left.symbols ++ right.symbols, mentioned symbol) :
    Accounts mentioned before (left.symbols ++ right.symbols) after := by
  have leftAccounts := both.left.accounts closed fun symbol member =>
    inScope symbol (List.mem_append_left _ member)
  rw [← both.left.develops.background] at closed
  exact leftAccounts.trans (both.right.accounts closed fun symbol member =>
    inScope symbol (List.mem_append_right _ member))

theorem Performs.accounts {call : BuilderCall}
    (performs : Performs before call after)
    (closed : Closed before.background mentioned)
    (inScope : ∀ symbol ∈ call.termSymbols, mentioned symbol) :
    Accounts mentioned before call.termSymbols after := by
  cases performs with
  | constraint flattens =>
      refine Accounts.spare ?_ (spares_add _ _)
      cases flattens with
      | equation both single =>
          exact (both.accounts closed inScope).spare (spares_singleAtom single)
      | subsumption both | disequation both | dissubsumption both =>
          exact both.accounts closed inScope
  | userVariable => exact .of_spares (spares_declareUserVariable before _)

/-- Calls account for the names of all their terms. -/
theorem Builds.accounts {start : GoalBuilder} {calls : List BuilderCall}
    (builds : Builds start calls after)
    (closed : Closed start.background mentioned)
    (inScope : ∀ call ∈ calls, ∀ symbol ∈ call.termSymbols,
      mentioned symbol) :
    Accounts mentioned start (calls.flatMap (·.termSymbols)) after := by
  induction builds with
  | nil => exact .refl start
  | snoc builds performs induction =>
      have earlier := induction fun call member =>
        inScope call (List.mem_append_left _ member)
      rw [← builds.develops.background] at closed
      rw [List.flatMap_append, List.flatMap_singleton]
      exact earlier.trans
        (performs.accounts closed (inScope _ (by simp)))

end Accounts

end GoalBuilder

end ConceptUnification
