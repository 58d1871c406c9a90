import ConceptUnification.Proofs.FlatteningTermination
import ConceptUnification.Proofs.ImportedNames

/-!
# Imports of definitions

The definitions of a built goal are those of the names that its calls lead to,
each once.  Cycles among definitions do not matter: the import of a name begins
with a mark, and after each call the marks are exactly the left sides of the
equations of definitions.
-/

namespace ConceptUnification

namespace GoalBuilder

/-- No name is imported twice, and definition variables are imported. -/
structure Marked (builder : GoalBuilder) : Prop where
  distinct : builder.imported.Nodup
  imported : ∀ id, builder.store.kind? id = some .definitionVariable →
    id ∈ builder.imported

section Marked

variable {mentioned : String → Prop} {before after : GoalBuilder}

theorem marked_new (background : Ontology Term) (config : Config) :
    (new background config).Marked where
  distinct := .nil
  imported := by
    intro id kind
    obtain ⟨symbol, present⟩ := AtomStore.exists_name_of_kind? kind
    exact (Nat.not_lt_zero id (AtomStore.lt_size_of_atom? present)).elim

theorem Change.marked (change : Change mentioned before after)
    (marked : before.Marked) : after.Marked := by
  cases change with
  | define found named form => exact { marked with }
  | name inScope =>
      exact
        { marked with
          imported := fun id kind => marked.imported id
            (AtomStore.kind?_of_kind?_intern kind (by simp)) }
  | undefinedPart found primitive =>
      exact
        { marked with
          imported := fun id kind => marked.imported id
            (AtomStore.kind?_of_kind?_intern kind (by simp)) }
  | @restriction role _ _ named =>
      have numbered : (before.withRole role).Marked := { marked with }
      exact
        { marked with
          imported := fun id kind => numbered.imported id
            (AtomStore.kind?_of_kind?_intern kind (by simp)) }
  | abbreviation inScope form new =>
      exact
        { marked with
          imported := fun id kind => marked.imported id
            (AtomStore.kind?_of_kind?_intern
              (AtomStore.kind?_of_kind?_setKind kind (by simp)) (by simp)) }
  | @beginImport id definition found inScope named new =>
      exact
        { distinct := by
            refine marked.distinct.append (List.nodup_singleton id) ?_
            intro other old same
            rw [List.mem_singleton.mp same] at old
            exact new old
          imported := by
            intro other kind
            by_cases same : other = id
            · subst same
              exact List.mem_append_right _ (List.mem_singleton_self _)
            · rw [withImport, AtomStore.kind?_setKind_of_ne same] at kind
              exact List.mem_append_left _ (marked.imported other kind) }

theorem Builds.marked {calls : List BuilderCall}
    (builds : Builds before calls after) (marked : before.Marked) :
    after.Marked := by
  refine builds.preserves Marked closed_all (fun _ _ _ _ => trivial)
    (fun _ _ change => change.marked) ?_ ?_ marked
  · intro builder constraint marked
    cases constraint <;> exact { marked with }
  · intro builder symbol marked
    exact
      { marked with
        imported := fun id kind => marked.imported id
          (AtomStore.kind?_of_kind?_intern kind (by simp)) }

end Marked

/-- The definitions of a builder between calls are complete, and there is one
for each name that is reachable and defined. -/
structure Imported (calls : List BuilderCall) (builder : GoalBuilder) :
    Prop where
  complete : Complete (Reachable builder.background calls) builder
  distinct : builder.defined.Nodup
  settled : ∀ symbol, Reachable builder.background calls symbol →
    builder.Settled symbol
  marked : ∀ id ∈ builder.imported, id ∈ builder.defined
  covered : ∀ id, builder.store.kind? id = some .definitionVariable →
    id ∈ builder.defined

section Imported

variable {background : Ontology Term} {config : Config}
  {calls : List BuilderCall} {builder : GoalBuilder}

/-- The names in the body of an imported definition are settled, so all
reachable names are. -/
theorem settled_of_reachable
    (complete : Complete (Reachable builder.background calls) builder)
    (marked : ∀ id ∈ builder.imported, id ∈ builder.defined)
    (terms : ∀ call ∈ calls, ∀ symbol ∈ call.termSymbols,
      builder.Settled symbol)
    {symbol : String} (reachable : Reachable builder.background calls symbol) :
    builder.Settled symbol := by
  induction reachable with
  | term member inTerm => exact terms _ member _ inTerm
  | @body symbol other definition _ found inBody induction =>
      obtain ⟨id, imported, named⟩ := induction definition found
      obtain ⟨equation, member, rfl⟩ := List.mem_map.mp (marked id imported)
      obtain ⟨definition', defines⟩ := complete equation member
      have same := Option.some.inj (defines.named.symm.trans named)
      rw [Atom.name.injEq] at same
      have found' := same ▸ defines.found
      obtain rfl := Option.some.inj (found.symm.trans found')
      exact defines.settled other inBody

theorem imported_of_builds
    (builds : Builds (new background config) calls builder) :
    Imported calls builder := by
  have sameBackground : builder.background = background :=
    builds.develops.background
  have accounts := builds.accounts (closed_reachable background calls)
    fun call member symbol inTerm => .term member inTerm
  have balanced : builder.imported.Perm builder.defined :=
    accounts.balanced [] .nil
  have marked := builds.marked (marked_new background config)
  have complete : Complete (Reachable builder.background calls) builder := by
    rw [sameBackground]
    exact accounts.complete fun _ member => by cases member
  exact
    { complete := complete
      distinct := balanced.nodup_iff.mp marked.distinct
      settled := fun symbol reachable => settled_of_reachable complete
        (fun id => balanced.mem_iff.mp)
        (fun call member symbol inTerm => accounts.settled symbol
          (List.mem_flatMap.mpr ⟨call, member, inTerm⟩)) reachable
      marked := fun id => balanced.mem_iff.mp
      covered := fun id kind =>
        balanced.mem_iff.mp (marked.imported id kind) }

/-- A reachable name with a definition has one equation, which is that of its
definition. -/
theorem Imported.exists_defines (imported : Imported calls builder)
    {symbol : String} {definition : BackgroundDefinition Term}
    (reachable : Reachable builder.background calls symbol)
    (found : builder.background.find? symbol = some definition) :
    ∃ equation ∈ builder.definitions,
      Defines (Reachable builder.background calls) builder equation
        definition := by
  obtain ⟨id, inImported, named⟩ :=
    imported.settled symbol reachable definition found
  obtain ⟨equation, member, rfl⟩ :=
    List.mem_map.mp (imported.marked id inImported)
  obtain ⟨definition', defines⟩ := imported.complete equation member
  have same := Option.some.inj (defines.named.symm.trans named)
  rw [Atom.name.injEq] at same
  have found' := same ▸ defines.found
  obtain rfl := Option.some.inj (found.symm.trans found')
  exact ⟨equation, member, defines⟩

end Imported

end GoalBuilder

namespace Goal

/-- The equation that a definition has in a goal.  The body of a primitive
definition is completed by the atom of its undefined part. -/
def equationOf? (goal : Goal) (undefinedEnding : String)
    (definition : BackgroundDefinition Term) : Option Equation := do
  let left ← goal.store.findName? definition.symbol
  let flat ← definition.body.flatForm? goal.store goal.auxiliary
  if definition.primitive then
    let part ← goal.store.findName? (definition.symbol ++ undefinedEnding)
    return ⟨left, insert part flat, true⟩
  else
    return ⟨left, flat, false⟩

theorem equationOf?_of_defines {mentioned : String → Prop}
    {builder : GoalBuilder} {equation : Equation}
    {definition : BackgroundDefinition Term}
    (defines : builder.Defines mentioned equation definition) :
    builder.finished.equationOf? builder.undefinedEnding definition =
      some equation := by
  obtain ⟨atoms, roles⟩ := builder.store_finished
  obtain ⟨left, right, isPrimitive⟩ := equation
  obtain rfl : isPrimitive = definition.primitive := defines.primitive
  have named : builder.finished.store.findName? definition.symbol =
      some left := by
    rw [AtomStore.findName?_eq_some_iff, builder.atom?_finished]
    exact defines.named
  have form : (definition.completed builder.undefinedEnding).flatForm?
      builder.finished.store builder.finished.auxiliary = some right := by
    rw [Term.flatForm?_congr _ atoms roles]
    exact defines.form
  cases primitive : definition.primitive with
  | false =>
      simp only [BackgroundDefinition.completed, primitive, Bool.false_eq_true,
        ↓reduceIte] at form
      simp [equationOf?, named, primitive, form]
  | true =>
      simp only [BackgroundDefinition.completed, primitive, ↓reduceIte] at form
      obtain ⟨inner, part, inner?, present, rfl⟩ :=
        Term.flatForm?_conjunction_name.mp form
      have part? := AtomStore.findName?_eq_some_iff.mpr present
      simp [equationOf?, named, primitive, inner?, part?]

/-- Definitions are imported on demand, completely and once.  Readable calls
always build a goal, and the flattening that they take has a derivation that
does not bound how often definitions are imported.  The goal has exactly one
equation for the definition of each name that the calls lead to and none for any
other name, and every variable that is neither declared nor auxiliary is the
left side of exactly one of them. -/
theorem definitions_imported_once (background : Ontology Term)
    (config : Config) (calls : List BuilderCall) :
    (background.Readable → (∀ call ∈ calls, call.readable = true) →
      ∃ goal, ((GoalBuilder.new background config).performAll calls).build =
        .ok goal) ∧
    ∀ goal, ((GoalBuilder.new background config).performAll calls).build =
        .ok goal →
      (∃ builder, GoalBuilder.Builds (.new background config) calls builder ∧
        builder.finished = goal) ∧
      (∀ symbol definition, GoalBuilder.Reachable background calls symbol →
        background.find? symbol = some definition → ∃ equation,
          goal.equationOf? config.undefinedEnding definition = some equation ∧
          goal.definitions.filter
            (fun other => goal.store.symbol? other.left == some symbol) =
              [equation]) ∧
      (∀ equation ∈ goal.definitions, ∃ symbol,
        goal.store.symbol? equation.left = some symbol ∧
          GoalBuilder.Reachable background calls symbol ∧
          (background.find? symbol).isSome = true) ∧
      ∀ id ∈ goal.allVariables, goal.store.kind? id ≠ some .userVariable →
        goal.store.kind? id ≠ some .auxiliaryVariable →
          ∃ equation, goal.definitions.filter (·.left == id) = [equation] := by
  constructor
  · exact fun bodies readable => GoalBuilder.exists_build bodies readable
  intro goal built
  obtain ⟨unfailed, rfl⟩ := of_build built
  have builds := GoalBuilder.builds_performAll unfailed
  generalize (GoalBuilder.new background config).performAll calls = builder
    at builds
  have imported := GoalBuilder.imported_of_builds builds
  have sameBackground : builder.background = background :=
    builds.develops.background
  have sameEnding : builder.undefinedEnding = config.undefinedEnding :=
    builds.develops.undefinedEnding
  rw [← sameBackground, ← sameEnding]
  have symbol? : ∀ id, builder.finished.store.symbol? id =
      builder.store.symbol? id := by
    simp [AtomStore.symbol?, builder.atom?_finished]
  simp only [symbol?]
  refine ⟨⟨builder, sameBackground ▸ builds, rfl⟩, ?_, ?_, ?_⟩
  · intro symbol definition reachable found
    obtain rfl := Ontology.symbol_of_find? found
    obtain ⟨equation, member, defines⟩ :=
      imported.exists_defines reachable found
    refine ⟨equation, equationOf?_of_defines defines,
      filter_eq_singleton imported.distinct member fun other _ => ?_⟩
    rw [beq_iff_eq, AtomStore.symbol?_eq_some_iff]
    constructor
    · exact fun named => AtomStore.atom?_injective named defines.named
    · exact fun same => same ▸ defines.named
  · intro equation member
    obtain ⟨definition, defines⟩ := imported.complete equation member
    exact ⟨definition.symbol, AtomStore.symbol?_eq_some_iff.mpr defines.named,
      defines.inScope, by rw [defines.found]; rfl⟩
  · intro id inVariables notUser notAuxiliary
    obtain ⟨kind, known, varying⟩ :=
      AtomStore.isVariable_iff.mp (List.mem_filter.mp inVariables).2
    have defining : kind = .definitionVariable := by
      cases kind with
      | definitionVariable => rfl
      | constant => exact absurd rfl varying
      | userVariable => exact absurd known notUser
      | auxiliaryVariable => exact absurd known notAuxiliary
    subst defining
    obtain ⟨equation, member, rfl⟩ := List.mem_map.mp (imported.covered id
      (AtomStore.kind?_of_foldl_setKind known (by simp)))
    exact ⟨equation, filter_eq_singleton imported.distinct member
      fun other _ => beq_iff_eq⟩

/-- The body of a primitive definition in a cycle with another definition. -/
def cyclicDefinition : BackgroundDefinition Term :=
  ⟨"B", .restriction "r" (.conjunction [.name "A", .name "C"]), true⟩

/-- Two definitions that lead to each other, one of them also to itself. -/
def cyclicBackground : Ontology Term :=
  ⟨[⟨"A", .conjunction [.name "A", .restriction "r" (.name "B")], false⟩,
    cyclicDefinition]⟩

/-- Calls that mention one of the defined names only. -/
def cyclicCalls : List BuilderCall :=
  [.subsumption (.name "X") (.name "A"), .userVariable "X"]

theorem definitions_imported_once_cyclicCalls :
    ∃ goal, ((GoalBuilder.new cyclicBackground {}).performAll
        cyclicCalls).build = .ok goal ∧
      ∃ equation,
        goal.equationOf? "_UNDEF" cyclicDefinition = some equation ∧
        goal.definitions.filter
          (fun other => goal.store.symbol? other.left == some "B") =
            [equation] := by
  obtain ⟨succeeds, once⟩ :=
    definitions_imported_once cyclicBackground {} cyclicCalls
  have bodies : cyclicBackground.Readable := by
    intro symbol definition found
    have member := List.mem_of_find?_eq_some found
    simp only [cyclicBackground, List.mem_cons, List.not_mem_nil,
      or_false] at member
    rcases member with rfl | rfl <;> rfl
  obtain ⟨goal, built⟩ := succeeds bodies (by simp [cyclicCalls,
    BuilderCall.readable, Term.readable])
  have start : GoalBuilder.Reachable cyclicBackground cyclicCalls "A" :=
    .term List.mem_cons_self (List.mem_append_right _ List.mem_cons_self)
  have reachable : GoalBuilder.Reachable cyclicBackground cyclicCalls "B" :=
    .body start rfl (List.mem_cons_of_mem _ List.mem_cons_self)
  exact ⟨goal, built, (once goal built).2.1 "B" cyclicDefinition reachable rfl⟩

end Goal

end ConceptUnification
