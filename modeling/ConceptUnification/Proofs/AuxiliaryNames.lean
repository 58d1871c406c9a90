import ConceptUnification.Proofs.CallRun

/-!
# Names of auxiliary variables

The name of a new auxiliary variable differs from all names that are stored at
that time.  But if the same name is mentioned afterwards, it is interned to the
same number, and a declaration or a definition even reclassifies the auxiliary
variable.  If all mentioned names of the form of auxiliary names are stored, the
auxiliary variables that follow are out of the caller's reach.
-/

namespace ConceptUnification

namespace GoalBuilder

theorem numbered_injective {stem : String} {i j : Nat}
    (same : stem ++ toString i = stem ++ toString j) : i = j := by
  have characters := congrArg String.toList same
  simp only [String.toList_append] at characters
  have digits := congrArg (fun digits => Nat.ofDigitChars 10 digits 0)
    (List.append_cancel_left characters)
  simpa [Nat.toString_eq_ofList_toDigits] using digits

theorem le_freshIndex (stem : String) (taken : List String) (index : Nat) :
    index ≤ freshIndex stem taken index := by
  fun_induction freshIndex stem taken index with
  | case1 taken index member induction => omega
  | case2 taken index free => exact Nat.le_refl index

/-- The search for a name skips the taken ones.  Each name is taken out of the
list when it is skipped, but does not come up again. -/
theorem freshIndex_not_mem (stem : String) (taken : List String)
    (index : Nat) :
    stem ++ toString (freshIndex stem taken index) ∉ taken := by
  fun_induction freshIndex stem taken index with
  | case1 taken index member induction =>
      have later := le_freshIndex stem
        (taken.erase (stem ++ toString index)) (index + 1)
      intro contrary
      refine induction ((List.mem_erase_of_ne ?_).mpr contrary)
      intro same
      have := numbered_injective same
      omega
  | case2 taken index free => exact free

end GoalBuilder

namespace AtomStore

/-- An atom is an auxiliary variable with a name that is not mentioned. -/
def Hides (store : AtomStore) (mentioned : String → Prop) (id : AtomId) :
    Prop :=
  ∃ symbol, store.atom? id = some (.name symbol) ∧ ¬ mentioned symbol ∧
    store.kind? id = some .auxiliaryVariable

section Hides

variable {store : AtomStore} {mentioned : String → Prop} {id : AtomId}

theorem Hides.intern (hides : store.Hides mentioned id) (atom : Atom) :
    (store.intern atom).2.Hides mentioned id := by
  obtain ⟨symbol, named, unmentioned, kind⟩ := hides
  refine ⟨symbol, extends_intern id _ named, unmentioned, ?_⟩
  rw [kind?_intern_of_old (lt_size_of_atom? named), kind]

theorem Hides.setKind_auxiliary (hides : store.Hides mentioned id)
    (other : AtomId) :
    (store.setKind other .auxiliaryVariable).Hides mentioned id := by
  obtain ⟨symbol, named, unmentioned, kind⟩ := hides
  refine ⟨symbol, named, unmentioned, ?_⟩
  by_cases same : id = other
  · subst same
    exact kind?_setKind_self named
  · rw [kind?_setKind_of_ne same, kind]

/-- A mentioned name can have its kind changed. -/
theorem Hides.setKind_mentioned (hides : store.Hides mentioned id)
    {other : AtomId} {symbol : String}
    (named : store.atom? other = some (.name symbol))
    (inScope : mentioned symbol) (kind : NameKind) :
    (store.setKind other kind).Hides mentioned id := by
  obtain ⟨hidden, named', unmentioned, auxiliary⟩ := hides
  refine ⟨hidden, named', unmentioned, ?_⟩
  have different : id ≠ other := by
    rintro rfl
    have same := Option.some.inj (named'.symm.trans named)
    rw [Atom.name.injEq] at same
    exact unmentioned (same ▸ inScope)
  rw [kind?_setKind_of_ne different, auxiliary]

theorem Hides.foldl_setKind (hides : store.Hides mentioned id)
    {ids : List AtomId} {kind : NameKind}
    (named : ∀ other ∈ ids, ∃ symbol,
      store.atom? other = some (.name symbol) ∧ mentioned symbol) :
    (ids.foldl (fun store other => store.setKind other kind) store).Hides
      mentioned id := by
  induction ids generalizing store with
  | nil => exact hides
  | cons other ids induction =>
      obtain ⟨symbol, present, inScope⟩ := named other List.mem_cons_self
      exact induction (hides.setKind_mentioned present inScope kind)
        fun next member => named next (List.mem_cons_of_mem _ member)

end Hides

end AtomStore

namespace GoalBuilder

theorem freshSymbol_not_mem (builder : GoalBuilder) :
    builder.freshSymbol ∉ builder.store.symbols :=
  freshIndex_not_mem _ _ _

/-- All auxiliary variables introduced since an earlier builder are hidden. -/
structure Hidden (mentioned : String → Prop) (early builder : GoalBuilder) :
    Prop where
  development : Develops early builder
  tried : early.nextAuxiliary ≤ builder.nextAuxiliary
  auxiliary : ∀ equation ∈ builder.auxiliary.drop early.auxiliary.length,
    builder.store.Hides mentioned equation.left

/-- All names that are mentioned and that an auxiliary variable can still get
are stored. -/
def Foreseen (mentioned : String → Prop) (early : GoalBuilder) : Prop :=
  ∀ number, early.nextAuxiliary ≤ number →
    mentioned (early.auxiliaryStem ++ toString number) →
      early.auxiliaryStem ++ toString number ∈ early.store.symbols

section Hidden

variable {mentioned : String → Prop} {early before after : GoalBuilder}

theorem Hidden.refl (early : GoalBuilder) : Hidden mentioned early early where
  development := .refl early
  tried := Nat.le_refl _
  auxiliary := by simp

/-- A new auxiliary name is not mentioned, since it would be stored if it
were. -/
theorem Hidden.freshSymbol (hidden : Hidden mentioned early before)
    (foreseen : Foreseen mentioned early) : ¬ mentioned before.freshSymbol := by
  intro inScope
  have later : early.nextAuxiliary ≤ before.freshNumber :=
    Nat.le_trans hidden.tried (le_freshIndex _ _ _)
  rw [GoalBuilder.freshSymbol, hidden.development.auxiliaryStem] at inScope
  obtain ⟨id, stored⟩ :=
    AtomStore.mem_symbols.mp (foreseen _ later inScope)
  apply before.freshSymbol_not_mem
  rw [GoalBuilder.freshSymbol, hidden.development.auxiliaryStem]
  exact AtomStore.mem_symbols.mpr
    ⟨id, hidden.development.extension id _ stored⟩

theorem Change.hidden (change : Change mentioned before after)
    (foreseen : Foreseen mentioned early)
    (hidden : Hidden mentioned early before) :
    Hidden mentioned early after where
  development := hidden.development.trans change.develops
  tried := by
    cases change with
    | abbreviation inScope form new =>
        have later := le_freshIndex before.auxiliaryStem before.store.symbols
          before.nextAuxiliary
        have tried := hidden.tried
        simp only [withAbbreviation, freshNumber]
        omega
    | name | undefinedPart | restriction | beginImport | define =>
        exact hidden.tried
  auxiliary := by
    cases change with
    | name | undefinedPart =>
        exact fun equation member =>
          (hidden.auxiliary equation member).intern _
    | @restriction role symbol filler named =>
        intro equation member
        have numbered :
            (before.withRole role).store.Hides mentioned equation.left :=
          hidden.auxiliary equation member
        exact numbered.intern _
    | @abbreviation term conjunction inScope form new =>
        intro equation member
        simp only [withAbbreviation] at member
        rw [List.drop_append_of_le_length
          hidden.development.auxiliary.length_le] at member
        rcases List.mem_append.mp member with old | introduced
        · exact ((hidden.auxiliary equation old).intern _).setKind_auxiliary _
        · rw [List.mem_singleton] at introduced
          subst introduced
          have named : (before.store.internName before.freshSymbol).2.atom?
              (before.store.internName before.freshSymbol).1 =
                some (.name before.freshSymbol) := AtomStore.atom?_intern
          exact ⟨before.freshSymbol, named, hidden.freshSymbol foreseen,
            AtomStore.kind?_setKind_self named⟩
    | beginImport found inScope named new =>
        exact fun equation member =>
          (hidden.auxiliary equation member).setKind_mentioned named inScope _
    | define found named form => exact hidden.auxiliary

theorem Path.hidden (path : Path mentioned before after)
    (foreseen : Foreseen mentioned early)
    (hidden : Hidden mentioned early before) :
    Hidden mentioned early after :=
  Path.preserves (Hidden mentioned early) path
    (fun _ _ change => change.hidden foreseen) hidden

theorem Run.hidden {calls : List BuilderCall}
    (run : Run mentioned early calls after)
    (foreseen : Foreseen mentioned early) : Hidden mentioned early after := by
  induction run with
  | nil => exact .refl early
  | snoc _ performed induction =>
      cases performed with
      | @constraint call between constraint path flattened =>
          have flat := path.hidden foreseen induction
          have added := flat.development.trans (develops_add between constraint)
          cases constraint <;>
            exact { flat with development := added }
      | @userVariable symbol inScope =>
          exact
            { development := induction.development.trans
                (develops_declareUserVariable _ symbol)
              tried := induction.tried
              auxiliary := fun equation member =>
                (induction.auxiliary equation member).intern _ }

theorem performAll_append (builder : GoalBuilder)
    (early late : List BuilderCall) :
    builder.performAll (early ++ late) =
      (builder.performAll early).performAll late :=
  List.foldl_append

theorem unfailed_of_performAll {calls : List BuilderCall}
    (unfailed : (before.performAll calls).failure = none) :
    before.failure = none := by
  induction calls generalizing before with
  | nil => exact unfailed
  | cons call calls induction => exact unfailed_of_perform (induction unfailed)

/-- The later calls of a sequence that does not fail make a run of their own. -/
theorem run_performAll_append {start : GoalBuilder}
    {earlier later : List BuilderCall} (wellFormed : start.WellFormed)
    (closed : Closed start.background mentioned)
    (inScope : ∀ call ∈ earlier ++ later, ∀ symbol ∈ call.symbols,
      mentioned symbol)
    (unfailed : (start.performAll (earlier ++ later)).failure = none) :
    Run mentioned (start.performAll earlier) later
      (start.performAll (earlier ++ later)) := by
  rw [performAll_append] at unfailed ⊢
  have run := run_performAll wellFormed closed
    (fun call member => inScope call (List.mem_append_left later member))
    (unfailed_of_performAll unfailed)
  rw [← run.develops.background] at closed
  exact run_performAll (run.wellFormed wellFormed) closed
    (fun call member => inScope call (List.mem_append_right earlier member))
    unfailed

/-- The names declared as user variables are mentioned. -/
def DeclaresMentioned (mentioned : String → Prop) (builder : GoalBuilder) :
    Prop :=
  ∀ id ∈ builder.userVariables, ∃ symbol,
    builder.store.atom? id = some (.name symbol) ∧ mentioned symbol

theorem DeclaresMentioned.develop
    (declares : DeclaresMentioned mentioned before)
    (development : Develops before after)
    (same : after.userVariables = before.userVariables) :
    DeclaresMentioned mentioned after := by
  intro id member
  rw [same] at member
  obtain ⟨symbol, named, inScope⟩ := declares id member
  exact ⟨symbol, development.extension id _ named, inScope⟩

theorem Path.userVariables (path : Path mentioned before after) :
    after.userVariables = before.userVariables := by
  refine Path.preserves
    (fun builder => builder.userVariables = before.userVariables) path
    (fun earlier later change same => ?_) rfl
  rw [← same]
  cases change <;> rfl

theorem Run.declaresMentioned {calls : List BuilderCall}
    (run : Run mentioned early calls after)
    (declares : DeclaresMentioned mentioned early) :
    DeclaresMentioned mentioned after := by
  induction run with
  | nil => exact declares
  | snoc _ performed induction =>
      cases performed with
      | @constraint call between constraint path flattened =>
          refine (induction.develop path.develops path.userVariables).develop
            (develops_add between constraint) ?_
          cases constraint <;> rfl
      | @userVariable symbol inScope =>
          intro id member
          rcases List.mem_append.mp member with old | new
          · obtain ⟨other, named, inScope'⟩ := induction id old
            exact ⟨other, AtomStore.extends_intern id _ named, inScope'⟩
          · rw [List.mem_singleton.mp new]
            exact ⟨symbol, AtomStore.atom?_intern, inScope⟩

end Hidden

end GoalBuilder

namespace Goal

/-- Auxiliary variables stay auxiliary, under names that no call and no imported
definition mentions, if all mentioned names that an auxiliary variable could get
were stored when it was introduced. -/
theorem auxiliary_names_unmentioned {background : Ontology Term}
    {config : Config} {early late : List BuilderCall} {goal : Goal}
    (built : ((GoalBuilder.new background config).performAll
      (early ++ late)).build = .ok goal)
    (foreseen : GoalBuilder.Foreseen
      (GoalBuilder.Mentioned background (early ++ late))
      ((GoalBuilder.new background config).performAll early)) :
    ∀ equation ∈ goal.auxiliary.drop ((GoalBuilder.new background
        config).performAll early).auxiliary.length,
      goal.store.Hides (GoalBuilder.Mentioned background (early ++ late))
        equation.left := by
  obtain ⟨unfailed, rfl⟩ := of_build built
  have declares := (GoalBuilder.run_new unfailed).declaresMentioned
    (fun _ member => by cases member)
  have lateRun := GoalBuilder.run_performAll_append
    (GoalBuilder.sound_new background config rfl).1
    GoalBuilder.closed_mentioned GoalBuilder.mentioned_of_mem unfailed
  exact fun equation member =>
    ((lateRun.hidden foreseen).auxiliary equation member).foldl_setKind declares

/-- A call whose right side nests a conjunction under a restriction. -/
def nestedEquation : BuilderCall :=
  .equation (.name "X")
    (.restriction "r" (.conjunction [.name "A", .name "B"]))

/-- Only the declared name has the form of an auxiliary name. -/
theorem foreseen_declared :
    GoalBuilder.Foreseen
      (GoalBuilder.Mentioned ∅ ([.userVariable "VAR0"] ++ [nestedEquation]))
      ((GoalBuilder.new ∅ {}).performAll [.userVariable "VAR0"]) := by
  intro number _ mentioned
  have initial : ("VAR" ++ toString number).toList.head? = some 'V' := by
    simp
  change GoalBuilder.Mentioned _ _ ("VAR" ++ toString number) at mentioned
  change "VAR" ++ toString number ∈ _
  generalize "VAR" ++ toString number = symbol at initial mentioned ⊢
  cases mentioned with
  | body _ found _ => cases found
  | call member inCall =>
      simp only [List.singleton_append, List.mem_cons, List.not_mem_nil,
        or_false] at member
      rcases member with rfl | rfl
      · rw [List.mem_singleton.mp inCall]
        decide +kernel
      · simp only [nestedEquation, BuilderCall.symbols, Term.symbols,
          Term.symbolsOfAll, List.mem_append, List.mem_singleton,
          List.append_nil] at inCall
        rcases inCall with rfl | rfl | rfl <;> simp at initial

theorem auxiliary_names_unmentioned_declared :
    ∃ goal, ((GoalBuilder.new ∅ {}).performAll
        ([.userVariable "VAR0"] ++ [nestedEquation])).build = .ok goal ∧
      GoalBuilder.Foreseen
        (GoalBuilder.Mentioned ∅ ([.userVariable "VAR0"] ++ [nestedEquation]))
        ((GoalBuilder.new ∅ {}).performAll [.userVariable "VAR0"]) ∧
      goal.auxiliary.map (goal.store.symbol? ·.left) = [some "VAR1"] ∧
      ∀ equation ∈ goal.auxiliary.drop ((GoalBuilder.new ∅ {}).performAll
          [.userVariable "VAR0"]).auxiliary.length,
        goal.store.Hides
          (GoalBuilder.Mentioned ∅ ([.userVariable "VAR0"] ++ [nestedEquation]))
          equation.left := by
  have holds : ((GoalBuilder.new ∅ {}).performAll
      ([.userVariable "VAR0"] ++ [nestedEquation])).build.toOption.any
        (fun goal => decide (goal.auxiliary.map (goal.store.symbol? ·.left) =
          [some "VAR1"])) = true := by
    simp only [nestedEquation, List.singleton_append, GoalBuilder.performAll,
      List.foldl, GoalBuilder.perform, GoalBuilder.addEquation,
      GoalBuilder.flatten, GoalBuilder.flattenWith, GoalBuilder.flattenAllWith]
    unfold GoalBuilder.nameWith
    decide +kernel
  obtain ⟨goal, built, facts⟩ := exists_ok_of_any holds
  exact ⟨goal, built, foreseen_declared, of_decide_eq_true facts,
    auxiliary_names_unmentioned built foreseen_declared⟩

/-- A name that is mentioned after an auxiliary variable got it stands for that
variable, which becomes a user variable when the name is declared. -/
theorem auxiliary_name_mentioned_later :
    ∃ goal, ((GoalBuilder.new ∅ {}).performAll
        [nestedEquation, .userVariable "VAR0"]).build = .ok goal ∧
      GoalBuilder.Mentioned ∅ [nestedEquation, .userVariable "VAR0"] "VAR0" ∧
      ∃ equation ∈ goal.auxiliary,
        goal.store.symbol? equation.left = some "VAR0" ∧
          goal.store.kind? equation.left = some .userVariable := by
  have holds : ((GoalBuilder.new ∅ {}).performAll
      [nestedEquation, .userVariable "VAR0"]).build.toOption.any
        (fun goal => decide (∃ equation ∈ goal.auxiliary,
          goal.store.symbol? equation.left = some "VAR0" ∧
            goal.store.kind? equation.left = some .userVariable)) = true := by
    simp only [nestedEquation, GoalBuilder.performAll, List.foldl,
      GoalBuilder.perform, GoalBuilder.addEquation, GoalBuilder.flatten,
      GoalBuilder.flattenWith, GoalBuilder.flattenAllWith]
    unfold GoalBuilder.nameWith
    decide +kernel
  obtain ⟨goal, built, facts⟩ := exists_ok_of_any holds
  refine ⟨goal, built, ?_, of_decide_eq_true facts⟩
  exact .call (List.mem_cons_of_mem _ List.mem_cons_self)
    (List.mem_singleton_self _)

end Goal

end ConceptUnification
