import ConceptUnification.GoalBuilder
import ConceptUnification.Proofs.StoreInvariant

/-!
# Invariants of goals under construction

Every step of a builder keeps the atoms that it has, mentions stored atoms only
and gives each new definition or auxiliary variable its equation.  Between the
beginning and the end of an import the imported name is a variable without an
equation; `Grows` says that a whole step leaves no such name behind.
-/

namespace ConceptUnification

/-- All atoms of a conjunction are stored. -/
def AtomStore.Stores (store : AtomStore) (conjunction : AtomSet) : Prop :=
  ∀ atom ∈ conjunction, atom < store.size

theorem AtomStore.Extends.stores {before after : AtomStore}
    (extension : before.Extends after) {conjunction : AtomSet}
    (stored : before.Stores conjunction) : after.Stores conjunction :=
  fun atom member => extension.lt_size (stored atom member)

/-- Both sides of an equation are stored. -/
def Equation.StoredIn (store : AtomStore) (equation : Equation) : Prop :=
  equation.left < store.size ∧ store.Stores equation.right

namespace GoalBuilder

/-- The constraints of a builder mention stored atoms only. -/
structure WellFormed (builder : GoalBuilder) : Prop where
  store : builder.store.WellFormed
  definitions : ∀ equation ∈ builder.definitions,
    equation.StoredIn builder.store
  auxiliary : ∀ equation ∈ builder.auxiliary,
    equation.StoredIn builder.store
  equations : ∀ equation ∈ builder.equations,
    equation.StoredIn builder.store
  subsumptions : ∀ constraint ∈ builder.subsumptions,
    builder.store.Stores constraint.body ∧
      builder.store.Stores constraint.head
  disequations : ∀ constraint ∈ builder.disequations,
    builder.store.Stores constraint.left ∧
      builder.store.Stores constraint.right
  dissubsumptions : ∀ constraint ∈ builder.dissubsumptions,
    builder.store.Stores constraint.body ∧
      builder.store.Stores constraint.head

/-- A definition or auxiliary variable that is the left side of no definition
and no abbreviation. -/
def Uncovered (builder : GoalBuilder) (id : AtomId) : Prop :=
  (builder.store.kind? id = some .definitionVariable ∨
      builder.store.kind? id = some .auxiliaryVariable) ∧
    ∀ equation ∈ builder.definitions ++ builder.auxiliary,
      equation.left ≠ id

/-- What every step of a builder preserves. -/
structure Grows (before after : GoalBuilder) : Prop where
  extension : before.store.Extends after.store
  wellFormed : before.WellFormed → after.WellFormed
  uncovered : ∀ id, after.Uncovered id → before.Uncovered id

theorem Grows.refl (builder : GoalBuilder) : Grows builder builder where
  extension := .refl _
  wellFormed := fun wellFormed => wellFormed
  uncovered := fun _ open_ => open_

theorem Grows.trans {first second third : GoalBuilder}
    (left : Grows first second) (right : Grows second third) :
    Grows first third where
  extension := left.extension.trans right.extension
  wellFormed := fun wellFormed => right.wellFormed (left.wellFormed wellFormed)
  uncovered := fun id open_ => left.uncovered id (right.uncovered id open_)

/-- A larger store with the same constraints is as good as the old one. -/
theorem WellFormed.withStore {builder : GoalBuilder} {store : AtomStore}
    (wellFormed : builder.WellFormed) (layered : store.WellFormed)
    (extension : builder.store.Extends store) :
    { builder with store }.WellFormed where
  store := layered
  definitions := fun equation member =>
    ⟨extension.lt_size (wellFormed.definitions equation member).1,
      extension.stores (wellFormed.definitions equation member).2⟩
  auxiliary := fun equation member =>
    ⟨extension.lt_size (wellFormed.auxiliary equation member).1,
      extension.stores (wellFormed.auxiliary equation member).2⟩
  equations := fun equation member =>
    ⟨extension.lt_size (wellFormed.equations equation member).1,
      extension.stores (wellFormed.equations equation member).2⟩
  subsumptions := fun constraint member =>
    ⟨extension.stores (wellFormed.subsumptions constraint member).1,
      extension.stores (wellFormed.subsumptions constraint member).2⟩
  disequations := fun constraint member =>
    ⟨extension.stores (wellFormed.disequations constraint member).1,
      extension.stores (wellFormed.disequations constraint member).2⟩
  dissubsumptions := fun constraint member =>
    ⟨extension.stores (wellFormed.dissubsumptions constraint member).1,
      extension.stores (wellFormed.dissubsumptions constraint member).2⟩

theorem grows_intern {builder : GoalBuilder} {atom : Atom}
    (fillers : ∀ role filler, atom = .restriction role filler →
      ∃ symbol, builder.store.atom? filler = some (.name symbol)) :
    Grows builder { builder with store := (builder.store.intern atom).2 } where
  extension := AtomStore.extends_intern
  wellFormed := fun wellFormed =>
    wellFormed.withStore (wellFormed.store.intern fillers)
      AtomStore.extends_intern
  uncovered := by
    rintro id ⟨kind, free⟩
    refine ⟨?_, free⟩
    rcases kind with defined | auxiliary
    · exact .inl (AtomStore.kind?_of_kind?_intern defined (by simp))
    · exact .inr (AtomStore.kind?_of_kind?_intern auxiliary (by simp))

theorem grows_internName (builder : GoalBuilder) (symbol : String) :
    Grows builder
      { builder with store := (builder.store.internName symbol).2 } :=
  grows_intern (by simp)

theorem internName_lt_size (store : AtomStore) (symbol : String) :
    (store.internName symbol).1 < (store.internName symbol).2.size :=
  AtomStore.lt_size_of_atom? AtomStore.atom?_intern

/-- Reclassifying a name and giving it an equation at the same time opens no
gap. -/
theorem Uncovered.of_setKind {builder : GoalBuilder} (id : AtomId)
    (kind : NameKind) {other : AtomId}
    (open_ : { builder with store := builder.store.setKind id kind }.Uncovered
      other) (different : other ≠ id) : builder.Uncovered other := by
  obtain ⟨varying, free⟩ := open_
  refine ⟨?_, free⟩
  simpa only [AtomStore.kind?_setKind_of_ne different] using varying

theorem run_abbreviate_of_found {builder : GoalBuilder}
    {conjunction : AtomSet} {equation : Equation}
    (found : builder.auxiliary.find? (·.right == conjunction) =
      some equation) :
    (abbreviate conjunction).run builder = (equation.left, builder) := by
  rw [abbreviate, StateT.run_modifyGet, found]
  rfl

/-- The number in the name of the next auxiliary variable. -/
def freshNumber (builder : GoalBuilder) : Nat :=
  freshIndex builder.auxiliaryStem builder.store.symbols builder.nextAuxiliary

/-- The name of the next auxiliary variable. -/
def freshSymbol (builder : GoalBuilder) : String :=
  builder.auxiliaryStem ++ toString builder.freshNumber

/-- The builder after a new auxiliary variable was introduced. -/
def withAbbreviation (builder : GoalBuilder) (conjunction : AtomSet) :
    GoalBuilder :=
  let (id, store) := builder.store.internName builder.freshSymbol
  { builder with
    store := store.setKind id .auxiliaryVariable
    nextAuxiliary := builder.freshNumber + 1
    auxiliary := builder.auxiliary ++ [⟨id, conjunction, false⟩] }

/-- A new abbreviation interns a name and gives it its equation. -/
theorem run_abbreviate_of_new {builder : GoalBuilder}
    {conjunction : AtomSet}
    (new : builder.auxiliary.find? (·.right == conjunction) = none) :
    (abbreviate conjunction).run builder =
      ((builder.store.internName builder.freshSymbol).1,
        builder.withAbbreviation conjunction) := by
  rw [abbreviate, StateT.run_modifyGet, new]
  rfl

theorem grows_withAbbreviation {builder : GoalBuilder}
    {conjunction : AtomSet} (stored : builder.store.Stores conjunction) :
    Grows builder (builder.withAbbreviation conjunction) := by
  have interned := grows_internName builder builder.freshSymbol
  refine interned.trans
    { extension := AtomStore.extends_setKind
      wellFormed := fun wellFormed => ?_
      uncovered := fun other open_ => ?_ }
  · have extended := wellFormed.withStore
      (wellFormed.store.setKind
        (builder.store.internName builder.freshSymbol).1 .auxiliaryVariable)
      AtomStore.extends_setKind
    refine { extended with auxiliary := ?_ }
    intro equation member
    rcases List.mem_append.mp member with old | new
    · exact extended.auxiliary equation old
    · rw [List.mem_singleton] at new
      subst new
      exact ⟨internName_lt_size _ _, interned.extension.stores stored⟩
  · refine Uncovered.of_setKind
      (builder.store.internName builder.freshSymbol).1 .auxiliaryVariable
      ⟨open_.1, fun equation member => open_.2 equation ?_⟩ ?_
    · simp only [withAbbreviation, List.mem_append] at member ⊢
      exact member.imp_right .inl
    · rintro rfl
      exact open_.2 ⟨_, conjunction, false⟩ (by simp [withAbbreviation]) rfl

theorem grows_abbreviate {builder : GoalBuilder} {conjunction : AtomSet}
    (stored : builder.store.Stores conjunction) :
    Grows builder ((abbreviate conjunction).run builder).2 := by
  cases found : builder.auxiliary.find? (·.right == conjunction) with
  | some equation => rw [run_abbreviate_of_found found]; exact .refl builder
  | none =>
      rw [run_abbreviate_of_new found]
      exact grows_withAbbreviation stored

theorem abbreviate_lt_size {builder : GoalBuilder} {conjunction : AtomSet}
    (wellFormed : builder.WellFormed) :
    ((abbreviate conjunction).run builder).1 <
      ((abbreviate conjunction).run builder).2.store.size := by
  cases found : builder.auxiliary.find? (·.right == conjunction) with
  | some equation =>
      rw [run_abbreviate_of_found found]
      exact (wellFormed.auxiliary equation (List.mem_of_find?_eq_some found)).1
  | none =>
      rw [run_abbreviate_of_new found]
      exact internName_lt_size _ _

theorem singleton_stores {store : AtomStore} {id : AtomId}
    (bound : id < store.size) : store.Stores {id} := by
  intro atom member
  rw [OrderedSet.mem_singleton] at member
  rwa [member]

theorem eq_singleton_of_single? {conjunction : AtomSet} {id : AtomId}
    (single : conjunction.single? = some id) : conjunction = {id} := by
  unfold OrderedSet.single? at single
  split at single
  · next shape =>
      cases single
      apply OrderedSet.eq_of_mem_iff
      intro atom
      rw [OrderedSet.mem_iff, shape, List.mem_singleton,
        OrderedSet.mem_singleton]
  · simp at single

theorem mem_of_single? {conjunction : AtomSet} {id : AtomId}
    (single : conjunction.single? = some id) : id ∈ conjunction := by
  rw [eq_singleton_of_single? single]
  exact OrderedSet.mem_singleton.mpr rfl

/-- A step from a well-formed builder that ends without an error grows the
builder, and its result satisfies `post`. -/
def Steps {α : Type} (builder : GoalBuilder) (step : FlattenM α)
    (post : α → GoalBuilder → Prop) : Prop :=
  builder.WellFormed →
    ∀ result after, step.run.run builder = (.ok result, after) →
      Grows builder after ∧ post result after

section Monad

variable {α β : Type} {builder : GoalBuilder}

theorem run_bind_ok {step : FlattenM α} {next : α → FlattenM β}
    {after : GoalBuilder} {result : β} :
    (step >>= next).run.run builder = (.ok result, after) ↔
      ∃ value between, step.run.run builder = (.ok value, between) ∧
        (next value).run.run between = (.ok result, after) := by
  rw [ExceptT.run_bind, StateT.run_bind]
  rcases step.run.run builder with ⟨outcome, between⟩
  cases outcome with
  | ok value =>
      constructor
      · intro run
        exact ⟨value, between, rfl, run⟩
      · rintro ⟨value', between', same, run⟩
        cases same
        exact run
  | error reason =>
      constructor
      · intro run
        cases run
      · rintro ⟨value', between', same, _⟩
        cases same

theorem Steps.pure {result : α} {post : α → GoalBuilder → Prop}
    (holds : post result builder) : Steps builder (pure result) post := by
  intro _ value after run
  cases run
  exact ⟨.refl builder, holds⟩

theorem Steps.bind {step : FlattenM α} {next : α → FlattenM β}
    {middle : α → GoalBuilder → Prop} {post : β → GoalBuilder → Prop}
    (first : Steps builder step middle)
    (second : ∀ value between, Grows builder between →
      middle value between → Steps between (next value) post) :
    Steps builder (step >>= next) post := by
  intro wellFormed result after run
  obtain ⟨value, between, firstRun, secondRun⟩ := run_bind_ok.mp run
  obtain ⟨growth, holds⟩ := first wellFormed value between firstRun
  obtain ⟨growth', holds'⟩ := second value between growth holds
    (growth.wellFormed wellFormed) result after secondRun
  exact ⟨growth.trans growth', holds'⟩

theorem Steps.lift {step : StateM GoalBuilder α}
    {post : α → GoalBuilder → Prop}
    (holds : builder.WellFormed →
      Grows builder (step.run builder).2 ∧
        post (step.run builder).1 (step.run builder).2) :
    Steps builder (liftM step) post := by
  intro wellFormed result after run
  have same : ((Except.ok (step.run builder).1 : Except MalformedTerm α),
      (step.run builder).2) = (.ok result, after) := run
  cases same
  exact holds wellFormed

theorem Steps.get {next : GoalBuilder → FlattenM β}
    {post : β → GoalBuilder → Prop}
    (holds : Steps builder (next builder) post) :
    Steps builder (MonadState.get >>= next) post := by
  intro wellFormed result after run
  exact holds wellFormed result after run

end Monad

/-- The atoms of the result are stored. -/
abbrev StoresResult (conjunction : AtomSet) (after : GoalBuilder) : Prop :=
  after.store.Stores conjunction

abbrev KnowsResult (id : AtomId) (after : GoalBuilder) : Prop :=
  id < after.store.size

theorem steps_internName (builder : GoalBuilder) (symbol : String) :
    Steps builder (liftM (internName symbol)) KnowsResult :=
  .lift fun _ =>
    ⟨grows_internName builder symbol, internName_lt_size builder.store symbol⟩

theorem steps_abbreviate {builder : GoalBuilder} {conjunction : AtomSet}
    (stored : builder.store.Stores conjunction) :
    Steps builder (liftM (abbreviate conjunction)) KnowsResult :=
  .lift fun wellFormed =>
    ⟨grows_abbreviate stored, abbreviate_lt_size wellFormed⟩

theorem steps_singleAtom {builder : GoalBuilder} {conjunction : AtomSet}
    (stored : builder.store.Stores conjunction) :
    Steps builder (liftM (singleAtom conjunction)) KnowsResult := by
  unfold singleAtom
  split
  · next id single =>
      exact .lift fun _ => ⟨.refl builder, stored id (mem_of_single? single)⟩
  · exact steps_abbreviate stored

theorem steps_singleName {builder : GoalBuilder} {conjunction : AtomSet}
    (stored : builder.store.Stores conjunction) :
    Steps builder (liftM (singleName conjunction)) KnowsResult := by
  refine .lift fun wellFormed => ?_
  have abbreviated : Grows builder ((abbreviate conjunction).run builder).2 ∧
      ((abbreviate conjunction).run builder).1 <
        ((abbreviate conjunction).run builder).2.store.size :=
    ⟨grows_abbreviate stored, abbreviate_lt_size wellFormed⟩
  unfold singleName
  split
  · next id single =>
      by_cases named : (builder.store.symbol? id).isSome = true
      · have same : (do
            if ((← get).store.symbol? id).isSome then return id
            else abbreviate conjunction : StateM GoalBuilder AtomId).run
              builder = (id, builder) := by
          simp only [StateT.run_bind, StateT.run_get]
          simp [named]
          rfl
        rw [same]
        exact ⟨.refl builder, stored id (mem_of_single? single)⟩
      · have same : (do
            if ((← get).store.symbol? id).isSome then return id
            else abbreviate conjunction : StateM GoalBuilder AtomId).run
              builder = (abbreviate conjunction).run builder := by
          simp only [StateT.run_bind, StateT.run_get]
          simp [named]
        rw [same]
        exact abbreviated
  · exact abbreviated

end GoalBuilder

end ConceptUnification
