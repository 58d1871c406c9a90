import ConceptUnification.Proofs.CallRun
import ConceptUnification.Proofs.UnifierValue

/-!
# Flattening preserves meaning

A goal that was built from nested terms is read in two ways under a valuation
of the concept names: as a set of flat constraints between atoms, or as the
calls that built it together with the background definitions that they
imported.  The readings agree as soon as auxiliary variables have the values of
what they abbreviate.
-/

namespace ConceptUnification

/-- What a flat constraint says about the values of atoms. -/
def FlatConstraint.Holds (value : AtomId → NormalConcept) :
    FlatConstraint → Prop
  | .equation constraint =>
      value constraint.left = conjoin value constraint.right
  | .subsumption constraint =>
      (conjoin value constraint.body).isBelow
        (conjoin value constraint.head) = true
  | .disequation constraint =>
      conjoin value constraint.left ≠ conjoin value constraint.right
  | .dissubsumption constraint =>
      ¬ (conjoin value constraint.body).isBelow
        (conjoin value constraint.head) = true

/-- What a call says about the values of its terms. -/
def BuilderCall.Holds (valuation : ConceptValuation) : BuilderCall → Prop
  | .equation left right => ∃ c,
      left.value? valuation = some c ∧ right.value? valuation = some c
  | .subsumption body head => ∃ c d,
      body.value? valuation = some c ∧ head.value? valuation = some d ∧
        c.isBelow d = true
  | .disequation left right => ∃ c d,
      left.value? valuation = some c ∧ right.value? valuation = some d ∧
        c ≠ d
  | .dissubsumption body head => ∃ c d,
      body.value? valuation = some c ∧ head.value? valuation = some d ∧
        ¬ c.isBelow d = true
  | .userVariable _ => True

namespace GoalBuilder

theorem forall_has_iff {builder : GoalBuilder}
    {holds : FlatConstraint → Prop} :
    (∀ constraint, builder.Has constraint → holds constraint) ↔
      (∀ constraint ∈ builder.equations, holds (.equation constraint)) ∧
      (∀ constraint ∈ builder.subsumptions,
        holds (.subsumption constraint)) ∧
      (∀ constraint ∈ builder.disequations,
        holds (.disequation constraint)) ∧
      ∀ constraint ∈ builder.dissubsumptions,
        holds (.dissubsumption constraint) := by
  constructor
  · intro all
    exact ⟨fun constraint => all (.equation constraint),
      fun constraint => all (.subsumption constraint),
      fun constraint => all (.disequation constraint),
      fun constraint => all (.dissubsumption constraint)⟩
  · rintro ⟨equations, subsumptions, disequations, dissubsumptions⟩ constraint
    cases constraint with
    | equation constraint => exact equations constraint
    | subsumption constraint => exact subsumptions constraint
    | disequation constraint => exact disequations constraint
    | dissubsumption constraint => exact dissubsumptions constraint

/-- A call says the same as the constraint that it was flattened to. -/
theorem Flattened.holds_iff {builder : GoalBuilder} {call : BuilderCall}
    {constraint : FlatConstraint}
    (flattened : Flattened builder call constraint)
    {valuation : ConceptValuation}
    (fits : valuation.Fits builder.store builder.auxiliary) :
    call.Holds valuation ↔
      constraint.Holds (valuation.value builder.store) := by
  cases flattened with
  | equation leftMeans rightMeans =>
      simp [BuilderCall.Holds, FlatConstraint.Holds,
        leftMeans.value valuation fits, rightMeans.value valuation fits,
        ConceptValuation.conjoin_singleton, eq_comm]
  | subsumption bodyMeans headMeans =>
      simp [BuilderCall.Holds, FlatConstraint.Holds,
        bodyMeans.value valuation fits, headMeans.value valuation fits]
  | disequation leftMeans rightMeans =>
      simp [BuilderCall.Holds, FlatConstraint.Holds,
        leftMeans.value valuation fits, rightMeans.value valuation fits]
  | dissubsumption bodyMeans headMeans =>
      simp [BuilderCall.Holds, FlatConstraint.Holds,
        bodyMeans.value valuation fits, headMeans.value valuation fits]

section Run

variable {mentioned : String → Prop} {start after : GoalBuilder}
  {calls : List BuilderCall}

/-- The equation of an imported definition.  Its right side means the completed
body. -/
def Imports (builder : GoalBuilder) (equation : Equation) : Prop :=
  ∃ definition,
    builder.background.find? definition.symbol = some definition ∧
      builder.store.atom? equation.left = some (.name definition.symbol) ∧
      Means builder (definition.completed builder.undefinedEnding)
        equation.right

theorem Imports.develop {before after : GoalBuilder} {equation : Equation}
    (imports : Imports before equation) (development : Develops before after)
    (wellFormed : before.WellFormed) : Imports after equation := by
  obtain ⟨definition, found, named, means⟩ := imports
  refine ⟨definition, ?_, development.extension _ _ named, ?_⟩
  · rwa [development.background]
  · rw [development.undefinedEnding]
    exact means.develop development wellFormed

theorem Change.imports {before after : GoalBuilder}
    (change : Change mentioned before after) (wellFormed : before.WellFormed)
    (imports : ∀ equation ∈ before.definitions, Imports before equation) :
    ∀ equation ∈ after.definitions, Imports after equation := by
  have kept : ∀ equation ∈ before.definitions, Imports after equation :=
    fun equation member =>
      (imports equation member).develop change.develops wellFormed
  cases change with
  | @define id definition right found named form =>
      intro equation member
      rcases List.mem_append.mp member with old | new
      · exact kept equation old
      · rw [List.mem_singleton] at new
        subst new
        have means := Means.of_flatForm? wellFormed _ form
        exact ⟨definition, found, named, { means with }⟩
  | name | undefinedPart | restriction | abbreviation | beginImport =>
      exact kept

theorem Path.imports {before after : GoalBuilder}
    (path : Path mentioned before after) (wellFormed : before.WellFormed)
    (imports : ∀ equation ∈ before.definitions, Imports before equation) :
    ∀ equation ∈ after.definitions, Imports after equation := by
  have both := Path.preserves
    (fun builder => builder.WellFormed ∧
      ∀ equation ∈ builder.definitions, Imports builder equation) path
    (fun _ _ change earlier =>
      ⟨change.wellFormed earlier.1, change.imports earlier.1 earlier.2⟩)
    ⟨wellFormed, imports⟩
  exact both.2

/-- All definitions of the builder after a run are imported ones. -/
theorem Run.imports (run : Run mentioned start calls after)
    (wellFormed : start.WellFormed)
    (imports : ∀ equation ∈ start.definitions, Imports start equation) :
    ∀ equation ∈ after.definitions, Imports after equation := by
  induction run with
  | nil => exact imports
  | snoc run performed induction =>
      have betweenWellFormed := run.wellFormed wellFormed
      cases performed with
      | @constraint call between constraint path flattened =>
          intro equation member
          have inBetween : equation ∈ between.definitions := by
            cases constraint <;> exact member
          exact (path.imports betweenWellFormed induction equation
            inBetween).develop (develops_add _ _)
              (path.wellFormed betweenWellFormed)
      | userVariable inScope =>
          intro equation member
          exact (induction equation member).develop
            (develops_declareUserVariable _ _) betweenWellFormed

/-- Flattening adds no constraint of the caller. -/
theorem Path.has_iff {before after : GoalBuilder}
    (path : Path mentioned before after) {constraint : FlatConstraint} :
    after.Has constraint ↔ before.Has constraint := by
  refine Path.preserves
    (fun builder => builder.Has constraint ↔ before.Has constraint) path
    (fun earlier later change same => ?_) Iff.rfl
  rw [← same]
  cases change <;> cases constraint <;> exact Iff.rfl

/-- Every constraint was flattened from a call, and every call that is no
declaration was flattened to a constraint. -/
structure Records (builder : GoalBuilder) (calls : List BuilderCall) :
    Prop where
  call : ∀ constraint, builder.Has constraint →
    ∃ call ∈ calls, Flattened builder call constraint
  constraint : ∀ call ∈ calls, (∃ symbol, call = .userVariable symbol) ∨
    ∃ constraint, builder.Has constraint ∧ Flattened builder call constraint

theorem Records.develop {before after : GoalBuilder}
    (records : Records before calls) (development : Develops before after)
    (wellFormed : before.WellFormed)
    (same : ∀ constraint, after.Has constraint ↔ before.Has constraint) :
    Records after calls where
  call := by
    intro constraint has
    obtain ⟨call, member, flattened⟩ :=
      records.call constraint ((same constraint).mp has)
    exact ⟨call, member, flattened.develop development wellFormed⟩
  constraint := by
    intro call member
    refine (records.constraint call member).imp_right ?_
    rintro ⟨constraint, has, flattened⟩
    exact ⟨constraint, (same constraint).mpr has,
      flattened.develop development wellFormed⟩

theorem Records.add {builder : GoalBuilder} (records : Records builder calls)
    (wellFormed : builder.WellFormed) {call : BuilderCall}
    {constraint : FlatConstraint}
    (flattened : Flattened builder call constraint) :
    Records (builder.add constraint) (calls ++ [call]) where
  call := by
    intro other has
    rcases has_add.mp has with old | rfl
    · obtain ⟨call', member, flattened'⟩ := records.call other old
      exact ⟨call', List.mem_append_left _ member,
        flattened'.develop (develops_add _ _) wellFormed⟩
    · exact ⟨call, List.mem_append_right _ (List.mem_singleton_self _),
        flattened.develop (develops_add _ _) wellFormed⟩
  constraint := by
    intro call' member
    rcases List.mem_append.mp member with old | new
    · refine (records.constraint call' old).imp_right ?_
      rintro ⟨other, has, flattened'⟩
      exact ⟨other, has_add.mpr (.inl has),
        flattened'.develop (develops_add _ _) wellFormed⟩
    · rw [List.mem_singleton.mp new]
      exact .inr ⟨constraint, has_add.mpr (.inr rfl),
        flattened.develop (develops_add _ _) wellFormed⟩

theorem Records.declare {builder : GoalBuilder}
    (records : Records builder calls) (symbol : String) :
    Records builder (calls ++ [.userVariable symbol]) where
  call := by
    intro constraint has
    obtain ⟨call, member, flattened⟩ := records.call constraint has
    exact ⟨call, List.mem_append_left _ member, flattened⟩
  constraint := by
    intro call member
    rcases List.mem_append.mp member with old | new
    · exact records.constraint call old
    · exact .inl ⟨symbol, List.mem_singleton.mp new⟩

theorem Run.records (run : Run mentioned start calls after)
    (wellFormed : start.WellFormed)
    (empty : ∀ constraint, ¬ start.Has constraint) : Records after calls := by
  induction run with
  | nil =>
      exact ⟨fun constraint has => (empty constraint has).elim, by simp⟩
  | snoc run performed induction =>
      have betweenWellFormed := run.wellFormed wellFormed
      cases performed with
      | constraint path flattened =>
          exact (induction.develop path.develops betweenWellFormed
            fun _ => path.has_iff).add (path.wellFormed betweenWellFormed)
              flattened
      | @userVariable symbol inScope =>
          refine (induction.develop (develops_declareUserVariable _ symbol)
            betweenWellFormed fun constraint => ?_).declare symbol
          cases constraint <;> exact Iff.rfl

/-- The calls hold exactly if their constraints do. -/
theorem Records.holds_iff {builder : GoalBuilder}
    (records : Records builder calls) {valuation : ConceptValuation}
    (fits : valuation.Fits builder.store builder.auxiliary) :
    (∀ constraint, builder.Has constraint →
      constraint.Holds (valuation.value builder.store)) ↔
      ∀ call ∈ calls, call.Holds valuation := by
  constructor
  · intro holds call member
    rcases records.constraint call member with
      ⟨symbol, rfl⟩ | ⟨constraint, has, flattened⟩
    · trivial
    · exact (flattened.holds_iff fits).mpr (holds constraint has)
  · intro holds constraint has
    obtain ⟨call, member, flattened⟩ := records.call constraint has
    exact (flattened.holds_iff fits).mp (holds call member)

/-- With fitting auxiliary variables, the equations of imported definitions hold
exactly if the definitions do. -/
theorem holds_definitions_iff {builder : GoalBuilder}
    (imports : ∀ equation ∈ builder.definitions, Imports builder equation)
    {valuation : ConceptValuation}
    (fits : valuation.Fits builder.store builder.auxiliary) :
    (∀ equation ∈ builder.definitions,
      valuation.value builder.store equation.left =
        conjoin (valuation.value builder.store) equation.right) ↔
      ∀ equation ∈ builder.definitions, ∀ symbol definition,
        builder.store.symbol? equation.left = some symbol →
          builder.background.find? symbol = some definition →
            (definition.completed builder.undefinedEnding).value? valuation =
              some (valuation.concept symbol) := by
  refine forall₂_congr fun equation member => ?_
  obtain ⟨definition, found, named, means⟩ := imports equation member
  have symbol? : builder.store.symbol? equation.left =
      some definition.symbol := by
    simp [AtomStore.symbol?, named]
  rw [ConceptValuation.value_name named]
  constructor
  · intro equal other definition' known found'
    obtain rfl := Option.some.inj (symbol?.symm.trans known)
    obtain rfl := Option.some.inj (found.symm.trans found')
    rw [equal]
    exact means.value valuation fits
  · intro holds
    have valued := holds _ definition symbol? found
    rw [means.value valuation fits] at valued
    exact (Option.some.inj valued).symm

end Run

end GoalBuilder

namespace Goal

section Reading

variable {goal : Goal}

/-- If the sides of equations and disequations have canonical values, the
constraints of a goal say that the two sides of equations have one value, and
the like for the other kinds of constraints. -/
theorem holds_iff_of_canonical {value : AtomId → NormalConcept}
    (equations : ∀ equation ∈ goal.allEquations,
      (value equation.left).Canonical ∧
        (conjoin value equation.right).Canonical)
    (disequations : ∀ constraint ∈ goal.disequations,
      (conjoin value constraint.left).Canonical ∧
        (conjoin value constraint.right).Canonical) :
    ((∀ subsumption ∈ goal.positiveSubsumptions, subsumption.Holds value) ∧
      ∀ constraint ∈ goal.negativeConstraints, constraint.Holds value) ↔
      (∀ equation ∈ goal.allEquations,
        value equation.left = conjoin value equation.right) ∧
      (∀ constraint ∈ goal.subsumptions,
        (FlatConstraint.subsumption constraint).Holds value) ∧
      (∀ constraint ∈ goal.disequations,
        (FlatConstraint.disequation constraint).Holds value) ∧
      ∀ constraint ∈ goal.dissubsumptions,
        (FlatConstraint.dissubsumption constraint).Holds value := by
  have negative : (∀ constraint ∈ goal.negativeConstraints,
      constraint.Holds value) ↔
      (∀ constraint ∈ goal.disequations,
        (FlatConstraint.disequation constraint).Holds value) ∧
      ∀ constraint ∈ goal.dissubsumptions,
        (FlatConstraint.dissubsumption constraint).Holds value := by
    simp only [negativeConstraints, List.forall_mem_append, List.forall_mem_map]
    refine and_congr (forall₂_congr fun constraint member => ?_) Iff.rfl
    obtain ⟨left, right⟩ := disequations constraint member
    exact not_congr (left.isEquivalent_iff_eq right)
  rw [holds_positive_iff, negative, and_assoc]
  refine and_congr (forall₂_congr fun equation member => ?_) Iff.rfl
  obtain ⟨left, right⟩ := equations equation member
  rw [← NormalConcept.isEquivalent_iff]
  exact left.isEquivalent_iff_eq right

/-- The values under a valuation are canonical. -/
theorem holds_iff {valuation : ConceptValuation} {store : AtomStore} :
    ((∀ subsumption ∈ goal.positiveSubsumptions,
        subsumption.Holds (valuation.value store)) ∧
      ∀ constraint ∈ goal.negativeConstraints,
        constraint.Holds (valuation.value store)) ↔
      (∀ equation ∈ goal.allEquations, valuation.value store equation.left =
        conjoin (valuation.value store) equation.right) ∧
      (∀ constraint ∈ goal.subsumptions,
        (FlatConstraint.subsumption constraint).Holds
          (valuation.value store)) ∧
      (∀ constraint ∈ goal.disequations,
        (FlatConstraint.disequation constraint).Holds
          (valuation.value store)) ∧
      ∀ constraint ∈ goal.dissubsumptions,
        (FlatConstraint.dissubsumption constraint).Holds
          (valuation.value store) :=
  holds_iff_of_canonical
    (fun _ _ => ⟨ConceptValuation.canonical_value _,
      ConceptValuation.canonical_conjoin _⟩)
    fun _ _ => ⟨ConceptValuation.canonical_conjoin _,
      ConceptValuation.canonical_conjoin _⟩

end Reading

/-- Under any valuation of the concept names, the flat constraints of a built
goal hold exactly if auxiliary variables have the values of what they
abbreviate, the names with imported definitions have the values of their
completed bodies, and the calls hold on their nested terms. -/
theorem flattening_preserves_meaning {background : Ontology Term}
    {config : Config} {calls : List BuilderCall} {goal : Goal}
    (built : ((GoalBuilder.new background config).performAll calls).build =
      .ok goal)
    (valuation : ConceptValuation) (numbers : valuation.Numbers goal.store) :
    ((∀ subsumption ∈ goal.positiveSubsumptions,
        subsumption.Holds (valuation.value goal.store)) ∧
      ∀ constraint ∈ goal.negativeConstraints,
        constraint.Holds (valuation.value goal.store)) ↔
      (∀ equation ∈ goal.auxiliary, valuation.value goal.store equation.left =
        conjoin (valuation.value goal.store) equation.right) ∧
      (∀ equation ∈ goal.definitions, ∀ symbol definition,
        goal.store.symbol? equation.left = some symbol →
          background.find? symbol = some definition →
            (definition.completed config.undefinedEnding).value? valuation =
              some (valuation.concept symbol)) ∧
      ∀ call ∈ calls, call.Holds valuation := by
  obtain ⟨unfailed, rfl⟩ := of_build built
  have run := GoalBuilder.run_new unfailed
  have start := (GoalBuilder.sound_new background config rfl).1
  have records := run.records start
    (fun constraint has => by cases constraint <;> cases has)
  have imports := run.imports start (fun _ member => by cases member)
  have background_eq : _ = background := run.develops.background
  have ending_eq : _ = config.undefinedEnding := run.develops.undefinedEnding
  generalize (GoalBuilder.new background config).performAll calls = builder
    at run numbers records imports background_eq ending_eq ⊢
  obtain ⟨atoms, roles⟩ := builder.store_finished
  have values : valuation.value builder.finished.store =
      valuation.value builder.store := ConceptValuation.value_congr atoms
  have symbols : ∀ id, builder.finished.store.symbol? id =
      builder.store.symbol? id := by
    simp [AtomStore.symbol?, AtomStore.atom?, atoms]
  have numbers : valuation.Numbers builder.store := by
    simpa only [ConceptValuation.Numbers, AtomStore.roleName?, roles]
      using numbers
  have constraints : (∀ constraint, builder.Has constraint →
      constraint.Holds (valuation.value builder.store)) ↔ _ :=
    GoalBuilder.forall_has_iff
  rw [holds_iff]
  simp only [allEquations, List.forall_mem_append, values, symbols,
    ← background_eq, ← ending_eq]
  simp only [GoalBuilder.finished]
  constructor
  · rintro ⟨⟨⟨definitions, auxiliary⟩, equations⟩, others⟩
    have fits : valuation.Fits builder.store builder.auxiliary :=
      ⟨numbers, auxiliary⟩
    exact ⟨auxiliary,
      (GoalBuilder.holds_definitions_iff imports fits).mp definitions,
      (records.holds_iff fits).mp (constraints.mpr ⟨equations, others⟩)⟩
  · rintro ⟨auxiliary, definitions, holds⟩
    have fits : valuation.Fits builder.store builder.auxiliary :=
      ⟨numbers, auxiliary⟩
    obtain ⟨equations, others⟩ :=
      constraints.mp ((records.holds_iff fits).mpr holds)
    exact ⟨⟨⟨(GoalBuilder.holds_definitions_iff imports fits).mpr definitions,
      auxiliary⟩, equations⟩, others⟩

/-- A background with a primitive definition. -/
def primitiveBackground : Ontology Term :=
  ⟨[⟨"A", .restriction "s" (.name "B"), true⟩]⟩

/-- Calls that put a name below a restriction over the defined name and another
one, and keep it apart from the defined name. -/
def primitiveCalls : List BuilderCall :=
  [.subsumption (.name "X")
      (.restriction "r" (.conjunction [.name "A", .name "B"])),
    .disequation (.name "X") (.name "A"), .userVariable "X"]

/-- Values for the names of the goal.  The abbreviation `VAR0` stands for `A`
and `B`. -/
def primitiveValuation : ConceptValuation where
  concept symbol :=
    let body : NormalConcept :=
      .conjunction [.restriction 0 (.name 1), .name 2]
    let filler : NormalConcept := .conjunction [body, .name 1]
    if symbol = "A" then body
    else if symbol = "VAR0" then filler
    else if symbol = "X" then .restriction 1 filler
    else if symbol = "B" then .name 1
    else .name 2
  role role := if role = "r" then 1 else 0
  canonical symbol := by
    have body : (NormalConcept.conjunction
        [.restriction 0 (.name 1), .name 2]).Canonical :=
      NormalConcept.canonical_conjunction (by
        simp [NormalConcept.canonical_name,
          (NormalConcept.canonical_name 1).restriction 0])
    have filler : (NormalConcept.conjunction
        [.conjunction [.restriction 0 (.name 1), .name 2],
          .name 1]).Canonical :=
      NormalConcept.canonical_conjunction (by
        simp [body, NormalConcept.canonical_name])
    split_ifs
    exacts [body, filler, filler.restriction 1,
      NormalConcept.canonical_name 1, NormalConcept.canonical_name 2]

theorem flattening_preserves_meaning_primitiveCalls :
    ∃ goal, ((GoalBuilder.new primitiveBackground {}).performAll
        primitiveCalls).build = .ok goal ∧
      primitiveValuation.Numbers goal.store ∧
      (∀ subsumption ∈ goal.positiveSubsumptions,
        subsumption.Holds (primitiveValuation.value goal.store)) ∧
      (∀ constraint ∈ goal.negativeConstraints,
        constraint.Holds (primitiveValuation.value goal.store)) ∧
      (∀ equation ∈ goal.auxiliary,
        primitiveValuation.value goal.store equation.left =
          conjoin (primitiveValuation.value goal.store) equation.right) ∧
      (∀ equation ∈ goal.definitions, ∀ symbol definition,
        goal.store.symbol? equation.left = some symbol →
          primitiveBackground.find? symbol = some definition →
            (definition.completed "_UNDEF").value? primitiveValuation =
              some (primitiveValuation.concept symbol)) ∧
      ∀ call ∈ primitiveCalls, call.Holds primitiveValuation := by
  have holds : ((GoalBuilder.new primitiveBackground {}).performAll
      primitiveCalls).build.toOption.any (fun goal => decide (
        goal.store.roles.entries = #["s", "r"] ∧
        (∀ subsumption ∈ goal.positiveSubsumptions,
          (conjoin (primitiveValuation.value goal.store)
            subsumption.body).isBelow (primitiveValuation.value goal.store
              subsumption.head) = true) ∧
        (∀ constraint ∈ goal.disequations,
          ¬ (conjoin (primitiveValuation.value goal.store)
            constraint.left).isEquivalent
              (conjoin (primitiveValuation.value goal.store)
                constraint.right) = true) ∧
        goal.dissubsumptions = [])) = true := by
    simp only [primitiveCalls, GoalBuilder.performAll, List.foldl,
      GoalBuilder.perform, GoalBuilder.addSubsumption,
      GoalBuilder.addDisequation, GoalBuilder.flatten,
      GoalBuilder.flattenWith, GoalBuilder.flattenAllWith]
    -- The body of the definition of `A` has two levels.
    unfold GoalBuilder.nameWith
    unfold GoalBuilder.flattenWith
    unfold GoalBuilder.flattenWith
    unfold GoalBuilder.nameWith
    decide +kernel
  obtain ⟨goal, built, facts⟩ := exists_ok_of_any holds
  obtain ⟨roles, positive, disequations, nothing⟩ := of_decide_eq_true facts
  have numbers : primitiveValuation.Numbers goal.store := by
    intro id role found
    rw [AtomStore.roleName?, Table.get?, roles] at found
    rcases id with _ | _ | id
    · obtain rfl := Option.some.inj found
      rfl
    · obtain rfl := Option.some.inj found
      rfl
    · simp at found
  have negative : ∀ constraint ∈ goal.negativeConstraints,
      constraint.Holds (primitiveValuation.value goal.store) := by
    simpa only [negativeConstraints, nothing, List.map_nil, List.append_nil,
      List.forall_mem_map, NegativeConstraint.Holds] using disequations
  exact ⟨goal, built, numbers, positive, negative,
    (flattening_preserves_meaning built primitiveValuation numbers).mp
      ⟨positive, negative⟩⟩

end Goal

end ConceptUnification
