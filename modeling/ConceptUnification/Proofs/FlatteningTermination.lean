import ConceptUnification.Proofs.AuxiliaryLayers

/-!
# Flattening ends

Flattening imports a definition whenever it meets a name that is not marked, and
definitions may lead back to each other.  Still every term has a derivation: the
definition of a name is marked before its body is flattened, so along a nest of
imports fewer and fewer definitions are left, and between two imports the terms
become smaller.  Only unreadable parts of terms make a call fail.
-/

namespace ConceptUnification

mutual

/-- Whether all parts of a term are readable. -/
def Term.readable : Term → Bool
  | .name _ => true
  | .conjunction parts => Term.readableAll parts
  | .restriction _ filler => filler.readable
  | .unreadable => false

/-- Whether all parts of some terms are readable. -/
def Term.readableAll : List Term → Bool
  | [] => true
  | part :: parts => part.readable && Term.readableAll parts

end

/-- Whether the terms of a call are readable. -/
def BuilderCall.readable : BuilderCall → Bool
  | .equation left right => left.readable && right.readable
  | .subsumption body head => body.readable && head.readable
  | .disequation left right => left.readable && right.readable
  | .dissubsumption body head => body.readable && head.readable
  | .userVariable _ => true

/-- All definitions have readable bodies. -/
def Ontology.Readable (background : Ontology Term) : Prop :=
  ∀ symbol definition, background.find? symbol = some definition →
    definition.body.readable = true

namespace GoalBuilder

section Exists

variable {builder : GoalBuilder}

/-- Reducing a conjunction to one name gives a stored name. -/
theorem exists_singleName (layered : builder.Layered) (conjunction : AtomSet) :
    ∃ id after symbol,
      (singleName conjunction).run builder = (id, after) ∧
        after.store.atom? id = some (.name symbol) := by
  rcases run : (singleName conjunction).run builder with ⟨id, after⟩
  refine ⟨id, after, ?_⟩
  rcases singleName_cases run with ⟨_, named, rfl⟩ | ⟨_, run⟩
  · obtain ⟨symbol, named⟩ := Option.isSome_iff_exists.mp named
    exact ⟨symbol, rfl, AtomStore.symbol?_eq_some_iff.mp named⟩
  · rcases abbreviate_cases run with ⟨equation, found, rfl, rfl⟩ | ⟨_, rfl, rfl⟩
    · obtain ⟨number, named⟩ :=
        layered.named equation (List.mem_of_find?_eq_some found)
      exact ⟨_, rfl, named⟩
    · exact ⟨_, rfl, AtomStore.atom?_intern⟩

theorem exists_internRestriction (role : String) {filler : AtomId}
    {symbol : String}
    (named : builder.store.atom? filler = some (.name symbol)) :
    ∃ id, (internRestriction role filler).run.run builder =
      (.ok id, builder.withRestriction role filler) := by
  let atom := Atom.restriction (builder.store.roles.insert role).1 filler
  refine ⟨((builder.withRole role).store.intern atom).1, ?_⟩
  unfold internRestriction
  refine run_bind_ok.mpr ⟨builder, builder, rfl, ?_⟩
  unfold AtomStore.internRestriction
  split
  · next missing => cases named.symm.trans missing
  · next present => cases named.symm.trans present
  · rfl

-- The recursion is on the number of definitions that are not marked and, while
-- none is imported, on the term.

mutual

theorem exists_flattens (available : Ontology Term) (term : Term)
    {builder : GoalBuilder} (remains : Remains available builder)
    (bodies : builder.background.Readable) (layered : builder.Layered)
    (readable : term.readable = true) :
    ∃ flat after, Flattens builder term flat after := by
  cases term with
  | name symbol =>
      have interned := develops_withName builder symbol
      by_cases marked :
          (builder.store.internName symbol).1 ∈ builder.imported
      · exact ⟨_, _, .known rfl (.inl marked)⟩
      · cases found : builder.background.find? symbol with
        | none => exact ⟨_, _, .known rfl (.inr found)⟩
        | some definition =>
            obtain ⟨body, between, inner⟩ := exists_flattens_import available
              symbol remains bodies layered marked found
            exact ⟨_, _, .imported rfl marked found inner⟩
  | conjunction parts =>
      exact exists_flattensAll available parts remains bodies layered readable
  | restriction role filler =>
      obtain ⟨flat, between, inner⟩ :=
        exists_flattens available filler remains bodies layered readable
      obtain ⟨name, after, symbol, single, named⟩ :=
        exists_singleName (inner.layered layered) flat
      obtain ⟨id, interned⟩ := exists_internRestriction role named
      exact ⟨_, _, .restriction inner single interned⟩
  | unreadable => cases readable
termination_by (available.size, sizeOf term)

theorem exists_flattensAll (available : Ontology Term) (parts : List Term)
    {builder : GoalBuilder} (remains : Remains available builder)
    (bodies : builder.background.Readable) (layered : builder.Layered)
    (readable : Term.readableAll parts = true) :
    ∃ flat after, Flattens builder (.conjunction parts) flat after := by
  cases parts with
  | nil => exact ⟨_, _, .nil⟩
  | cons part parts =>
      obtain ⟨readable, others⟩ := Bool.and_eq_true_iff.mp readable
      obtain ⟨_, between, head⟩ :=
        exists_flattens available part remains bodies layered readable
      rw [← head.develops.background] at bodies
      obtain ⟨_, after, tail⟩ := exists_flattensAll available parts
        (remains.develop head.develops) bodies (head.layered layered) others
      exact ⟨_, _, .cons head tail⟩
termination_by (available.size, sizeOf parts)

/-- A definition that is not marked is still available, and it is taken out
before its body is flattened. -/
theorem exists_flattens_import (available : Ontology Term) (symbol : String)
    {builder : GoalBuilder} {definition : BackgroundDefinition Term}
    (remains : Remains available builder)
    (bodies : builder.background.Readable) (layered : builder.Layered)
    (new : (builder.store.internName symbol).1 ∉ builder.imported)
    (found : builder.background.find? symbol = some definition) :
    ∃ body between, Flattens ((builder.withName symbol).withImport
      (builder.store.internName symbol).1) definition.body body between := by
  have interned := develops_withName builder symbol
  have named : (builder.withName symbol).store.atom?
      (builder.store.internName symbol).1 = some (.name symbol) :=
    AtomStore.atom?_intern
  have begun := develops_withImport (builder.withName symbol)
    (builder.store.internName symbol).1
  have remains := remains.develop interned
  have left : available.find? symbol = some definition :=
    (remains.find?_eq named new).trans found
  have smaller := Ontology.size_erase_lt left
  exact exists_flattens (available.erase symbol) definition.body
    (remains.withImport named) bodies
    ((layered.develop interned rfl).develop begun rfl)
    (bodies symbol definition found)
termination_by (available.size, 0)
decreasing_by
  exact Prod.Lex.left _ _ ‹_›

end

theorem exists_flatten (bodies : builder.background.Readable)
    (layered : builder.Layered) {term : Term}
    (readable : term.readable = true) :
    ∃ flat after, Flattens builder term flat after :=
  exists_flattens builder.background term (.refl builder) bodies layered
    readable

theorem exists_flattensBoth (bodies : builder.background.Readable)
    (layered : builder.Layered) {left right : Term}
    (readable : (left.readable && right.readable) = true) :
    ∃ flatLeft flatRight first after,
      FlattensBoth builder left right flatLeft flatRight first after := by
  obtain ⟨readableLeft, readableRight⟩ := Bool.and_eq_true_iff.mp readable
  obtain ⟨flatLeft, first, leftFlattens⟩ :=
    exists_flatten bodies layered readableLeft
  rw [← leftFlattens.develops.background] at bodies
  obtain ⟨flatRight, after, rightFlattens⟩ :=
    exists_flatten bodies (leftFlattens.layered layered) readableRight
  exact ⟨flatLeft, flatRight, first, after, leftFlattens, rightFlattens⟩

/-- A call with readable terms can be performed. -/
theorem exists_performs (bodies : builder.background.Readable)
    (layered : builder.Layered) {call : BuilderCall}
    (readable : call.readable = true) :
    ∃ after, Performs builder call after := by
  cases call with
  | equation left right =>
      obtain ⟨flatLeft, _, _, second, both⟩ :=
        exists_flattensBoth bodies layered readable
      rcases single : (singleAtom flatLeft).run second with ⟨id, after⟩
      exact ⟨_, .constraint (.equation both single)⟩
  | subsumption body head =>
      obtain ⟨_, _, _, _, both⟩ := exists_flattensBoth bodies layered readable
      exact ⟨_, .constraint (.subsumption both)⟩
  | disequation left right =>
      obtain ⟨_, _, _, _, both⟩ := exists_flattensBoth bodies layered readable
      exact ⟨_, .constraint (.disequation both)⟩
  | dissubsumption body head =>
      obtain ⟨_, _, _, _, both⟩ := exists_flattensBoth bodies layered readable
      exact ⟨_, .constraint (.dissubsumption both)⟩
  | userVariable symbol => exact ⟨_, .userVariable⟩

end Exists

section Success

variable {before after : GoalBuilder} {call : BuilderCall}

theorem attempt_of_run {step : FlattenM Unit}
    (unfailed : before.failure = none)
    (run : step.run.run before = (.ok (), after)) :
    (attempt step before).2 = after := by
  simp [attempt, unfailed, run]

theorem FlattensBoth.run {β : Type} {left right : Term}
    {flatLeft flatRight : AtomSet} {first final : GoalBuilder} {result : β}
    {next : AtomSet → AtomSet → FlattenM β}
    (both : FlattensBoth before left right flatLeft flatRight first after)
    (run : (next flatLeft flatRight).run.run after = (.ok result, final)) :
    (do
      let flatLeft ← flatten left
      let flatRight ← flatten right
      next flatLeft flatRight : FlattenM β).run.run before =
        (.ok result, final) :=
  run_bind_ok.mpr ⟨_, _, flatten_iff.mpr both.left,
    run_bind_ok.mpr ⟨_, _, flatten_iff.mpr both.right, run⟩⟩

/-- What a call can do is what it does. -/
theorem perform_of_performs (performs : Performs before call after)
    (unfailed : before.failure = none) : before.perform call = after := by
  cases performs with
  | constraint flattens =>
      cases flattens with
      | equation both single =>
          exact attempt_of_run unfailed (both.run
            (run_bind_ok.mpr ⟨_, _, run_lift_ok.mpr single, rfl⟩))
      | subsumption both | disequation both | dissubsumption both =>
          exact attempt_of_run unfailed (both.run rfl)
  | userVariable => rfl

theorem Performs.failure (performs : Performs before call after) :
    after.failure = before.failure := by
  refine performs.builds.preserves
    (fun builder => builder.failure = before.failure) closed_all
    (fun _ _ _ _ => trivial) ?_ ?_ ?_ rfl
  · intro earlier later change same
    rw [← same]
    cases change <;> rfl
  · intro builder constraint same
    rw [← same]
    cases constraint <;> rfl
  · exact fun _ _ same => same

/-- Calls with readable terms do not fail, whatever definitions they lead to. -/
theorem unfailed_performAll {calls : List BuilderCall}
    (bodies : before.background.Readable) (layered : before.Layered)
    (readable : ∀ call ∈ calls, call.readable = true)
    (unfailed : before.failure = none) :
    (before.performAll calls).failure = none := by
  induction calls generalizing before with
  | nil => exact unfailed
  | cons call calls induction =>
      obtain ⟨after, performs⟩ :=
        exists_performs bodies layered (readable call List.mem_cons_self)
      rw [performAll, List.foldl_cons, perform_of_performs performs unfailed]
      rw [← performs.develops.background] at bodies
      rw [← performs.failure] at unfailed
      exact induction bodies (performs.builds.layered layered)
        (fun other member => readable other (List.mem_cons_of_mem _ member))
        unfailed

theorem exists_build {background : Ontology Term} {config : Config}
    {calls : List BuilderCall} (bodies : background.Readable)
    (readable : ∀ call ∈ calls, call.readable = true) :
    ∃ goal, ((new background config).performAll calls).build = .ok goal := by
  have layered := layered_new background config
  have unfailed := unfailed_performAll bodies layered readable rfl
  unfold build
  rw [unfailed]
  exact ⟨_, rfl⟩

end Success

end GoalBuilder

end ConceptUnification
