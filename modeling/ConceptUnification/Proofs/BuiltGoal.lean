import ConceptUnification.Proofs.BuilderInvariant

/-!
# Goals that can be built

A goal is obtained from a builder by any calls, over any background, and then
reclassified in any way that is not refused.  Every obtained goal is well
formed: its constraints mention stored atoms only, and every variable that is
no user variable is the left side of a definition or of an abbreviation.
-/

namespace ConceptUnification

namespace GoalBuilder

theorem steps_internRestriction {builder : GoalBuilder} (role : String)
    (filler : AtomId) :
    Steps builder (internRestriction role filler) KnowsResult := by
  unfold internRestriction
  refine .get fun wellFormed result after run => ?_
  unfold AtomStore.internRestriction at run
  split at run
  · cases run
  · cases run
  · next symbol named =>
      let store : AtomStore :=
        { builder.store with roles := (builder.store.roles.insert role).2 }
      have kept : Grows builder { builder with store } :=
        { extension := .refl builder.store
          wellFormed := fun wellFormed =>
            wellFormed.withStore wellFormed.store (.refl builder.store)
          uncovered := fun _ open_ => open_ }
      have interned : Grows { builder with store }
          { builder with store := (store.intern (.restriction
            (builder.store.roles.insert role).1 filler)).2 } := by
        refine grows_intern ?_
        rintro role' filler' same
        cases same
        exact ⟨symbol, named⟩
      cases run
      exact ⟨kept.trans interned,
        AtomStore.lt_size_of_atom? AtomStore.atom?_intern⟩

/-- Ending an import stores the undefined part of the name if there is one, and
then adds the equation of the name. -/
theorem run_finishImport (builder : GoalBuilder) (id : AtomId)
    (symbol : String) (body : AtomSet) (primitive : Bool) :
    ∃ middle right, Grows builder middle ∧
      (builder.store.Stores body → middle.store.Stores right) ∧
      (finishImport id symbol body primitive).run builder =
        ((), { middle with
          definitions := middle.definitions ++ [⟨id, right, primitive⟩] }) := by
  cases primitive with
  | false => exact ⟨builder, body, .refl builder, fun stored => stored, rfl⟩
  | true =>
      have growth :=
        grows_internName builder (symbol ++ builder.undefinedEnding)
      refine ⟨_, _, growth, ?_, rfl⟩
      intro stored atom member
      rcases OrderedSet.mem_insert.mp member with rfl | inBody
      · exact internName_lt_size _ _
      · exact growth.extension.lt_size (stored atom inBody)

/-- Between its beginning and its end an import grows the builder, and its end
covers the imported name. -/
theorem steps_import {builder : GoalBuilder} {id : AtomId}
    {symbol : String} {primitive : Bool} {flattenBody : FlattenM AtomSet}
    (known : id < builder.store.size)
    (body : ∀ between, Steps between flattenBody StoresResult) :
    Steps builder (do
      liftM (beginImport id)
      let flat ← flattenBody
      liftM (finishImport id symbol flat primitive)
      return id) KnowsResult := by
  intro wellFormed result after run
  obtain ⟨_, begun, beginRun, run⟩ := run_bind_ok.mp run
  obtain ⟨flat, between, bodyRun, run⟩ := run_bind_ok.mp run
  obtain ⟨_, final, finishRun, run⟩ := run_bind_ok.mp run
  cases run
  cases beginRun
  have reclassified := wellFormed.withStore
    (wellFormed.store.setKind id .definitionVariable)
    AtomStore.extends_setKind
  have begunWellFormed :
      { builder with
        store := builder.store.setKind id .definitionVariable
        imported := builder.imported ++ [id] }.WellFormed :=
    { reclassified with }
  obtain ⟨growth, stored⟩ := body _ begunWellFormed flat between bodyRun
  obtain ⟨middle, right, finishing, keeps, finishEq⟩ :=
    run_finishImport between id symbol flat primitive
  have same : ((Except.ok () : Except MalformedTerm Unit),
      { middle with
        definitions := middle.definitions ++ [⟨id, right, primitive⟩] }) =
      (.ok (), after) := by
    rw [← finishRun]
    exact congrArg
      (fun outcome : Unit × GoalBuilder =>
        ((Except.ok outcome.1 : Except MalformedTerm Unit), outcome.2))
      finishEq.symm
  cases same
  have extension : builder.store.Extends middle.store :=
    growth.extension.trans finishing.extension
  have bound : id < middle.store.size := extension.lt_size known
  refine ⟨⟨extension, fun _ => ?_, fun other open_ => ?_⟩, bound⟩
  · have middleWellFormed :=
      finishing.wellFormed (growth.wellFormed begunWellFormed)
    refine { middleWellFormed with definitions := ?_ }
    intro equation member
    rcases List.mem_append.mp member with old | new
    · exact middleWellFormed.definitions equation old
    · rw [List.mem_singleton] at new
      subst new
      exact ⟨bound, keeps stored⟩
  · have different : other ≠ id := by
      rintro rfl
      exact open_.2 ⟨_, right, primitive⟩ (by simp) rfl
    have inMiddle : middle.Uncovered other := by
      refine ⟨open_.1, fun equation member => open_.2 equation ?_⟩
      simp only [List.mem_append] at member ⊢
      exact member.imp_left .inl
    have inBegun := growth.uncovered other (finishing.uncovered other inMiddle)
    exact Uncovered.of_setKind id .definitionVariable
      ⟨inBegun.1, inBegun.2⟩ different

mutual

theorem steps_flattenWith (available : Ontology Term) (term : Term)
    (builder : GoalBuilder) :
    Steps builder (flattenWith available term) StoresResult := by
  cases term with
  | name symbol =>
      rw [flattenWith]
      refine .bind (steps_nameWith available symbol builder) ?_
      intro id between _ bound
      exact .pure (singleton_stores bound)
  | conjunction parts =>
      rw [flattenWith]
      exact steps_flattenAllWith available parts builder
  | restriction role filler =>
      rw [flattenWith]
      refine .bind (steps_flattenWith available filler builder) ?_
      intro flat between _ stored
      refine .bind (steps_singleName stored) ?_
      intro name between' _ _
      refine .bind (steps_internRestriction role name) ?_
      intro id between'' _ bound
      exact .pure (singleton_stores bound)
  | unreadable =>
      rw [flattenWith]
      intro _ result after run
      cases run
termination_by (available.size, sizeOf term)

theorem steps_flattenAllWith (available : Ontology Term) (parts : List Term)
    (builder : GoalBuilder) :
    Steps builder (flattenAllWith available parts) StoresResult := by
  cases parts with
  | nil =>
      rw [flattenAllWith]
      exact .pure fun atom member => (OrderedSet.not_mem_empty member).elim
  | cons part parts =>
      rw [flattenAllWith]
      refine .bind (steps_flattenWith available part builder) ?_
      intro first between _ firstStored
      refine .bind (steps_flattenAllWith available parts between) ?_
      intro others between' growth othersStored
      refine .pure fun atom member => ?_
      rcases OrderedSet.mem_union.mp member with inFirst | inOthers
      · exact growth.extension.lt_size (firstStored atom inFirst)
      · exact othersStored atom inOthers
termination_by (available.size, sizeOf parts)

theorem steps_nameWith (available : Ontology Term) (symbol : String)
    (builder : GoalBuilder) :
    Steps builder (nameWith available symbol) KnowsResult := by
  rw [nameWith]
  refine .bind (steps_internName builder symbol) ?_
  intro id between _ bound
  refine .get ?_
  split
  · exact .pure bound
  · split
    · exact .pure bound
    · next definition found =>
        refine steps_import bound fun begun => ?_
        exact steps_flattenWith (available.erase symbol) definition.body begun
termination_by (available.size, 0)
decreasing_by
  next found =>
    exact Prod.Lex.left _ _ (Ontology.size_erase_lt found)

end

theorem steps_flatten (builder : GoalBuilder) (term : Term) :
    Steps builder (flatten term) StoresResult :=
  .get (steps_flattenWith builder.background term builder)

end GoalBuilder

/-- What a caller can ask of a builder. -/
inductive BuilderCall where
  | equation (left right : Term)
  | subsumption (body head : Term)
  | disequation (left right : Term)
  | dissubsumption (body head : Term)
  | userVariable (symbol : String)

namespace GoalBuilder

/-- The builder after one call. -/
def perform (builder : GoalBuilder) : BuilderCall → GoalBuilder
  | .equation left right => (builder.addEquation left right).2
  | .subsumption body head => (builder.addSubsumption body head).2
  | .disequation left right => (builder.addDisequation left right).2
  | .dissubsumption body head => (builder.addDissubsumption body head).2
  | .userVariable symbol => (builder.declareUserVariable symbol).2

/-- The builder after a sequence of calls. -/
def performAll (builder : GoalBuilder) (calls : List BuilderCall) :
    GoalBuilder :=
  calls.foldl perform builder

/-- A builder that has not failed is well formed and has covered all variables
of its own. -/
def Sound (builder : GoalBuilder) : Prop :=
  builder.failure = none →
    builder.WellFormed ∧ ∀ id, ¬ builder.Uncovered id

theorem Sound.grows {before after : GoalBuilder}
    (sound : before.WellFormed ∧ ∀ id, ¬ before.Uncovered id)
    (growth : Grows before after) :
    after.WellFormed ∧ ∀ id, ¬ after.Uncovered id :=
  ⟨growth.wellFormed sound.1, fun id open_ =>
    sound.2 id (growth.uncovered id open_)⟩

theorem sound_new (background : Ontology Term) (config : Config) :
    (new background config).Sound := by
  intro _
  constructor
  · constructor
    · exact AtomStore.wellFormed_empty
    all_goals simp [new]
  · rintro id ⟨kind, _⟩
    have named : ∃ kind, (∅ : AtomStore).kind? id = some kind := by
      rcases kind with defined | auxiliary
      · exact ⟨_, defined⟩
      · exact ⟨_, auxiliary⟩
    obtain ⟨kind, known⟩ := named
    obtain ⟨symbol, found⟩ := AtomStore.exists_name_of_kind? known
    exact (Nat.not_lt_zero id (AtomStore.lt_size_of_atom? found)).elim

/-- An attempt leaves no failure only if its step was run and ended without an
error. -/
theorem run_of_attempt {before after : GoalBuilder} {step : FlattenM Unit}
    (outcome : (attempt step before).2 = after)
    (unfailed : after.failure = none) :
    before.failure = none ∧ step.run.run before = (.ok (), after) := by
  cases failed : before.failure with
  | some failure =>
      simp only [attempt, failed] at outcome
      rw [← outcome, failed] at unfailed
      cases unfailed
  | none =>
      rcases run : step.run.run before with ⟨_ | _, final⟩
      · simp only [attempt, failed, run] at outcome
        rw [← outcome] at unfailed
        cases unfailed
      · simp only [attempt, failed, run] at outcome
        rw [outcome]
        exact ⟨rfl, rfl⟩

/-- A step that grows the builder keeps it sound. One that fails leaves a
builder that builds no goal. -/
theorem Sound.attempt {builder : GoalBuilder} {step : FlattenM Unit}
    (sound : builder.Sound)
    (steps : Steps builder step fun _ _ => True) :
    (attempt step builder).2.Sound := by
  intro unfailed
  obtain ⟨unfailedBefore, run⟩ := run_of_attempt rfl unfailed
  have before := sound unfailedBefore
  exact Sound.grows before (steps before.1 _ _ run).1

section AddConstraint

variable {builder after : GoalBuilder}

theorem grows_addEquation {equation : Equation}
    (stored : equation.StoredIn builder.store) :
    Grows builder
      { builder with equations := builder.equations ++ [equation] } where
  extension := .refl _
  wellFormed := fun wellFormed =>
    { wellFormed with
      equations := by
        intro other member
        rcases List.mem_append.mp member with old | new
        · exact wellFormed.equations other old
        · rw [List.mem_singleton] at new
          rwa [new] }
  uncovered := fun _ open_ => open_

theorem grows_addSubsumption {constraint : Subsumption}
    (body : builder.store.Stores constraint.body)
    (head : builder.store.Stores constraint.head) :
    Grows builder
      { builder with
        subsumptions := builder.subsumptions ++ [constraint] } where
  extension := .refl _
  wellFormed := fun wellFormed =>
    { wellFormed with
      subsumptions := by
        intro other member
        rcases List.mem_append.mp member with old | new
        · exact wellFormed.subsumptions other old
        · rw [List.mem_singleton] at new
          rw [new]
          exact ⟨body, head⟩ }
  uncovered := fun _ open_ => open_

theorem grows_addDisequation {constraint : Disequation}
    (left : builder.store.Stores constraint.left)
    (right : builder.store.Stores constraint.right) :
    Grows builder
      { builder with
        disequations := builder.disequations ++ [constraint] } where
  extension := .refl _
  wellFormed := fun wellFormed =>
    { wellFormed with
      disequations := by
        intro other member
        rcases List.mem_append.mp member with old | new
        · exact wellFormed.disequations other old
        · rw [List.mem_singleton] at new
          rw [new]
          exact ⟨left, right⟩ }
  uncovered := fun _ open_ => open_

theorem grows_addDissubsumption {constraint : Dissubsumption}
    (body : builder.store.Stores constraint.body)
    (head : builder.store.Stores constraint.head) :
    Grows builder
      { builder with
        dissubsumptions := builder.dissubsumptions ++ [constraint] } where
  extension := .refl _
  wellFormed := fun wellFormed =>
    { wellFormed with
      dissubsumptions := by
        intro other member
        rcases List.mem_append.mp member with old | new
        · exact wellFormed.dissubsumptions other old
        · rw [List.mem_singleton] at new
          rw [new]
          exact ⟨body, head⟩ }
  uncovered := fun _ open_ => open_

end AddConstraint

/-- Flattening both sides of a constraint leaves both sides stored. -/
theorem steps_flatten_both {β : Type} {builder : GoalBuilder}
    (left right : Term) {next : AtomSet → AtomSet → FlattenM β}
    {post : β → GoalBuilder → Prop}
    (holds : ∀ flatLeft flatRight between,
      between.store.Stores flatLeft → between.store.Stores flatRight →
        Steps between (next flatLeft flatRight) post) :
    Steps builder (do
      let flatLeft ← flatten left
      let flatRight ← flatten right
      next flatLeft flatRight) post := by
  refine .bind (steps_flatten builder left) ?_
  intro flatLeft between _ leftStored
  refine .bind (steps_flatten between right) ?_
  intro flatRight between' growth rightStored
  exact holds flatLeft flatRight between'
    (growth.extension.stores leftStored) rightStored

theorem Sound.perform {builder : GoalBuilder} (sound : builder.Sound)
    (call : BuilderCall) : (builder.perform call).Sound := by
  cases call with
  | equation left right =>
      refine sound.attempt (steps_flatten_both left right ?_)
      intro flatLeft flatRight between leftStored rightStored
      refine .bind (steps_singleAtom leftStored) ?_
      intro id between' growth bound
      refine .lift fun _ => ⟨grows_addEquation ⟨bound, ?_⟩, trivial⟩
      exact growth.extension.stores rightStored
  | subsumption body head =>
      refine sound.attempt (steps_flatten_both body head ?_)
      intro flatBody flatHead between bodyStored headStored
      exact .lift fun _ =>
        ⟨grows_addSubsumption bodyStored headStored, trivial⟩
  | disequation left right =>
      refine sound.attempt (steps_flatten_both left right ?_)
      intro flatLeft flatRight between leftStored rightStored
      exact .lift fun _ =>
        ⟨grows_addDisequation leftStored rightStored, trivial⟩
  | dissubsumption body head =>
      refine sound.attempt (steps_flatten_both body head ?_)
      intro flatBody flatHead between bodyStored headStored
      exact .lift fun _ =>
        ⟨grows_addDissubsumption bodyStored headStored, trivial⟩
  | userVariable symbol =>
      intro unfailed
      have grown :=
        Sound.grows (sound unfailed) (grows_internName builder symbol)
      exact ⟨{ grown.1 with }, grown.2⟩

theorem Sound.performAll {builder : GoalBuilder} (sound : builder.Sound)
    (calls : List BuilderCall) : (builder.performAll calls).Sound := by
  induction calls generalizing builder with
  | nil => exact sound
  | cons call calls induction => exact induction (sound.perform call)

end GoalBuilder

/-- The goal of a builder that has not failed. -/
def GoalBuilder.finished (builder : GoalBuilder) : Goal where
  store := builder.userVariables.foldl
    (fun store id => store.setKind id .userVariable) builder.store
  definitions := builder.definitions
  auxiliary := builder.auxiliary
  equations := builder.equations
  subsumptions := builder.subsumptions
  disequations := builder.disequations
  dissubsumptions := builder.dissubsumptions

/-- Changes of kinds keep the atoms and the roles. -/
theorem AtomStore.foldl_setKind (store : AtomStore) (ids : List AtomId)
    (kind : NameKind) :
    (ids.foldl (fun store id => store.setKind id kind) store).atoms =
        store.atoms ∧
      (ids.foldl (fun store id => store.setKind id kind) store).roles =
        store.roles := by
  induction ids generalizing store with
  | nil => exact ⟨rfl, rfl⟩
  | cons id ids induction => exact induction (store.setKind id kind)

/-- A name has a third kind after changes of kinds only if it had it before. -/
theorem AtomStore.kind?_of_foldl_setKind {store : AtomStore}
    {ids : List AtomId} {kind known : NameKind} {id : AtomId}
    (found : (ids.foldl (fun store id => store.setKind id kind) store).kind?
      id = some known) (different : known ≠ kind) :
    store.kind? id = some known := by
  induction ids generalizing store with
  | nil => exact found
  | cons other ids induction =>
      exact kind?_of_kind?_setKind (induction found) different

theorem GoalBuilder.store_finished (builder : GoalBuilder) :
    builder.finished.store.atoms = builder.store.atoms ∧
      builder.finished.store.roles = builder.store.roles :=
  builder.store.foldl_setKind builder.userVariables .userVariable

theorem GoalBuilder.atom?_finished (builder : GoalBuilder) :
    builder.finished.store.atom? = builder.store.atom? := by
  funext id
  rw [AtomStore.atom?, builder.store_finished.1, AtomStore.atom?]

namespace Goal

/-- The constraints of a goal mention stored atoms only, and definition and
auxiliary variables have their equations. -/
structure WellFormed (goal : Goal) : Prop where
  store : goal.store.WellFormed
  equations : ∀ equation ∈ goal.allEquations, equation.StoredIn goal.store
  subsumptions : ∀ constraint ∈ goal.subsumptions,
    goal.store.Stores constraint.body ∧ goal.store.Stores constraint.head
  disequations : ∀ constraint ∈ goal.disequations,
    goal.store.Stores constraint.left ∧ goal.store.Stores constraint.right
  dissubsumptions : ∀ constraint ∈ goal.dissubsumptions,
    goal.store.Stores constraint.body ∧ goal.store.Stores constraint.head
  covered : ∀ id, goal.store.kind? id = some .definitionVariable ∨
      goal.store.kind? id = some .auxiliaryVariable →
    ∃ equation ∈ goal.definitions ++ goal.auxiliary, equation.left = id

/-- Goals that come out of a builder, over any background and after any calls,
and goals obtained from these by changing kinds. -/
inductive Obtained : Goal → Prop where
  | built {background : Ontology Term} {config : Config}
      {calls : List BuilderCall} {goal : Goal}
      (success : ((GoalBuilder.new background config).performAll calls).build =
        .ok goal) : Obtained goal
  | userVariable {goal changed : Goal} {id : AtomId}
      (obtained : Obtained goal)
      (success : goal.makeUserVariable? id = some (.ok changed)) :
      Obtained changed
  | constant {goal changed : Goal} {id : AtomId}
      (obtained : Obtained goal)
      (success : goal.makeConstant? id = some (.ok changed)) :
      Obtained changed

/-- Giving a name a kind that needs no equation keeps a goal well formed. -/
theorem WellFormed.setKind {goal : Goal} (wellFormed : goal.WellFormed)
    {id : AtomId} {kind : NameKind}
    (free : kind ≠ .definitionVariable ∧ kind ≠ .auxiliaryVariable) :
    { goal with store := goal.store.setKind id kind }.WellFormed :=
  { wellFormed with
    covered := by
      intro other varying
      apply wellFormed.covered other
      rcases varying with defined | auxiliary
      · exact .inl (AtomStore.kind?_of_kind?_setKind defined free.1.symm)
      · exact .inr (AtomStore.kind?_of_kind?_setKind auxiliary free.2.symm) }

/-- A successful change of kind changes nothing else. -/
theorem eq_of_reclassify? {goal changed : Goal} {id : AtomId}
    {kind : NameKind} {refusal : KindRefusal}
    (success : goal.reclassify? id kind refusal = some (.ok changed)) :
    changed = { goal with store := goal.store.setKind id kind } := by
  unfold reclassify? at success
  cases written : goal.store.text? id with
  | none => simp [written] at success
  | some text =>
      simp only [written, Option.bind_eq_bind, Option.bind_some] at success
      split at success
      · simp at success
      · simp at success
      · simpa using success.symm

theorem exists_ok_of_any {outcome : Except UnificationError Goal}
    {p : Goal → Bool} (holds : outcome.toOption.any p = true) :
    ∃ goal, outcome = .ok goal ∧ p goal = true := by
  cases outcome with
  | ok goal => exact ⟨goal, rfl, holds⟩
  | error failure => cases holds

/-- What a builder that has not failed builds: its constraints, with the
declared names as user variables. -/
theorem of_build {builder : GoalBuilder} {goal : Goal}
    (success : builder.build = .ok goal) :
    builder.failure = none ∧ goal = builder.finished := by
  unfold GoalBuilder.build at success
  split at success
  · cases success
  · next unfailed => exact ⟨unfailed, (Except.ok.inj success).symm⟩

theorem WellFormed.foldl_setKind {goal : Goal} (wellFormed : goal.WellFormed)
    (ids : List AtomId) {kind : NameKind}
    (free : kind ≠ .definitionVariable ∧ kind ≠ .auxiliaryVariable) :
    { goal with
      store := ids.foldl (fun store id => store.setKind id kind)
        goal.store }.WellFormed := by
  induction ids generalizing goal with
  | nil => exact wellFormed
  | cons id ids induction => exact induction (wellFormed.setKind free)

theorem wellFormed_build {builder : GoalBuilder} {goal : Goal}
    (sound : builder.Sound) (success : builder.build = .ok goal) :
    goal.WellFormed := by
  obtain ⟨unfailed, rfl⟩ := of_build success
  obtain ⟨wellFormed, covered⟩ := sound unfailed
  have undeclared :
      { builder.finished with store := builder.store }.WellFormed :=
    { store := wellFormed.store
      equations := by
        intro equation member
        rcases List.mem_append.mp member with inRest | inEquations
        · rcases List.mem_append.mp inRest with inDefinitions | inAuxiliary
          · exact wellFormed.definitions equation inDefinitions
          · exact wellFormed.auxiliary equation inAuxiliary
        · exact wellFormed.equations equation inEquations
      subsumptions := wellFormed.subsumptions
      disequations := wellFormed.disequations
      dissubsumptions := wellFormed.dissubsumptions
      covered := by
        intro id varying
        refine Classical.byContradiction fun none =>
          covered id ⟨varying, fun equation member same => ?_⟩
        exact none ⟨equation, member, same⟩ }
  exact undeclared.foldl_setKind builder.userVariables (by simp)

/-- Every goal that can be obtained is well formed. -/
theorem Obtained.wellFormed {goal : Goal} (obtained : goal.Obtained) :
    goal.WellFormed := by
  induction obtained with
  | built success =>
      exact wellFormed_build
        ((GoalBuilder.sound_new _ _).performAll _) success
  | userVariable _ success induction =>
      rw [eq_of_reclassify? success]
      exact induction.setKind (by simp)
  | constant _ success induction =>
      rw [eq_of_reclassify? success]
      exact induction.setKind (by simp)

end Goal

end ConceptUnification
