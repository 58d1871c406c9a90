import ConceptUnification.Proofs.CallHistory

/-!
# What happens to a store

A store starts empty, and is changed by interning names and restrictions and by
giving names other kinds.  `Performs` says all that one such call may do.  So
the filler of each restriction is an earlier name and its role is stored after
any calls.  The stores of goals come from such calls.
-/

namespace ConceptUnification

/-- What is asked of a store. -/
inductive StoreCall where
  | name (symbol : String)
  | restriction (role : String) (filler : AtomId)
  /-- Interns the atom that has a number. -/
  | again (id : AtomId)
  | setKind (id : AtomId) (kind : NameKind)

namespace AtomStore

/-- The answer to a call, which is a number if the call is for one. -/
def perform (store : AtomStore) :
    StoreCall → Except MalformedTerm (Option AtomId) × AtomStore
  | .name symbol =>
      let (id, store) := store.internName symbol
      (.ok (some id), store)
  | .restriction role filler =>
      match store.internRestriction role filler with
      | .error error => (.error error, store)
      | .ok (id, store) => (.ok (some id), store)
  | .again id =>
      match store.atom? id with
      | none => (.ok none, store)
      | some atom =>
          let (id, store) := store.intern atom
          (.ok (some id), store)
  | .setKind id kind => (.ok none, store.setKind id kind)

/-- The numbers that some calls answer, and the store after them. -/
def performAll : List StoreCall → AtomStore → List AtomId × AtomStore
  | [], store => ([], store)
  | call :: calls, store =>
      let (answer, store) := store.perform call
      let (issued, store) := performAll calls store
      (answer.toOption.join.toList ++ issued, store)

/-- The number of a restriction, and the store with its role and itself. -/
def withRestriction (store : AtomStore) (role : String) (filler : AtomId) :
    AtomId × AtomStore :=
  { store with roles := (store.roles.insert role).2 }.intern
    (.restriction (store.roles.insert role).1 filler)

theorem internRestriction_of_named {store : AtomStore} (role : String)
    {filler : AtomId} {symbol : String}
    (named : store.atom? filler = some (.name symbol)) :
    store.internRestriction role filler =
      .ok (store.withRestriction role filler) := by
  rw [internRestriction, named]
  rfl

section Steps

/-- What a call may do. -/
inductive Performs (before : AtomStore) :
    Except MalformedTerm (Option AtomId) → AtomStore → Prop
  | interned (roles : Table String) (atom : Atom)
      (grown : ∀ role text, before.roles.get? role = some text →
        roles.get? role = some text)
      (parts : ∀ role filler, atom = .restriction role filler →
        (∃ symbol, before.atom? filler = some (.name symbol)) ∧
          ∃ text, roles.get? role = some text) :
      Performs before (.ok (some ({ before with roles }.intern atom).1))
        ({ before with roles }.intern atom).2
  | classified (id : AtomId) (kind : NameKind) :
      Performs before (.ok none) (before.setKind id kind)
  | unknown : Performs before (.ok none) before
  | refused (error : MalformedTerm) : Performs before (.error error) before

/-- The filler of each restriction is a concept name stored before it, and its
role is stored. -/
structure Aligned (store : AtomStore) : Prop where
  wellFormed : store.WellFormed
  roles : ∀ id role filler, store.atom? id = some (.restriction role filler) →
    ∃ text, store.roleName? role = some text

theorem aligned_empty : (∅ : AtomStore).Aligned where
  wellFormed := wellFormed_empty
  roles := by
    intro id role filler found
    exact (Nat.not_lt_zero id (lt_size_of_atom? found)).elim

theorem performs_perform {store : AtomStore} (aligned : store.Aligned)
    (call : StoreCall) :
    store.Performs (store.perform call).1 (store.perform call).2 := by
  cases call with
  | name symbol =>
      refine .interned store.roles (.name symbol) (fun _ _ found => found) ?_
      intro role filler impossible
      cases impossible
  | restriction role filler =>
      simp only [perform, internRestriction]
      cases found : store.atom? filler with
      | none => exact .refused _
      | some atom =>
      cases atom with
      | restriction role' filler' => exact .refused _
      | name symbol =>
          refine .interned (store.roles.insert role).2
            (.restriction (store.roles.insert role).1 filler)
            (fun _ _ => Table.get?_insert_of_get?) ?_
          intro role' filler' same
          cases same
          exact ⟨⟨symbol, found⟩, role, Table.get?_insert_self _ _⟩
  | again id =>
      simp only [perform]
      cases found : store.atom? id with
      | none => exact .unknown
      | some atom =>
          refine .interned store.roles atom (fun _ _ found => found) ?_
          intro role filler same
          subst same
          exact ⟨(aligned.wellFormed id role filler found).2,
            aligned.roles id role filler found⟩
  | setKind id kind => exact .classified id kind

theorem Performs.aligned {before after : AtomStore}
    {answer : Except MalformedTerm (Option AtomId)}
    (performs : before.Performs answer after) (aligned : before.Aligned) :
    after.Aligned := by
  cases performs with
  | interned roles atom grown parts =>
      refine ⟨WellFormed.intern aligned.wellFormed
        fun role filler same => (parts role filler same).1, ?_⟩
      intro id role filler found
      rw [roleName?, roles_intern]
      rcases atom?_intern_cases found with old | ⟨_, new⟩
      · obtain ⟨text, stored⟩ := aligned.roles id role filler old
        exact ⟨text, grown role text stored⟩
      · exact (parts role filler new.symm).2
  | classified => exact ⟨aligned.wellFormed.setKind _ _, aligned.roles⟩
  | unknown => exact aligned
  | refused => exact aligned

end Steps

theorem aligned_performAll {store : AtomStore} (aligned : store.Aligned)
    (calls : List StoreCall) : (performAll calls store).2.Aligned := by
  induction calls generalizing store with
  | nil => exact aligned
  | cons call calls induction =>
      exact induction ((performs_perform aligned call).aligned aligned)

section Reaches

/-- Some calls lead from one store to the other one. -/
def Reaches (before after : AtomStore) : Prop :=
  ∃ calls, (performAll calls before).2 = after

theorem Reaches.refl (store : AtomStore) : store.Reaches store :=
  ⟨[], rfl⟩

theorem reaches_perform (store : AtomStore) (call : StoreCall) :
    store.Reaches (store.perform call).2 :=
  ⟨[call], rfl⟩

theorem performAll_append (calls later : List StoreCall) (store : AtomStore) :
    (performAll (calls ++ later) store).2 =
      (performAll later (performAll calls store).2).2 := by
  induction calls generalizing store with
  | nil => rfl
  | cons call calls induction => exact induction _

theorem Reaches.trans {first second third : AtomStore}
    (left : first.Reaches second) (right : second.Reaches third) :
    first.Reaches third := by
  obtain ⟨calls, rfl⟩ := left
  obtain ⟨later, rfl⟩ := right
  exact ⟨calls ++ later, performAll_append calls later first⟩

theorem Reaches.aligned {before after : AtomStore}
    (reaches : before.Reaches after) (aligned : before.Aligned) :
    after.Aligned := by
  obtain ⟨calls, rfl⟩ := reaches
  exact aligned_performAll aligned calls

theorem reaches_foldl_setKind (ids : List AtomId) (kind : NameKind)
    (store : AtomStore) :
    store.Reaches (ids.foldl (fun store id => store.setKind id kind) store) := by
  induction ids generalizing store with
  | nil => exact .refl store
  | cons id ids induction =>
      exact (reaches_perform store (.setKind id kind)).trans (induction _)

end Reaches

end AtomStore

section Goals

open AtomStore

/-- Every change to a builder is made by calls of its store. -/
theorem GoalBuilder.Change.reaches {mentioned : String → Prop}
    {before after : GoalBuilder} (change : Change mentioned before after) :
    before.store.Reaches after.store := by
  cases change with
  | name => exact reaches_perform _ (.name _)
  | undefinedPart => exact reaches_perform _ (.name _)
  | @restriction role symbol filler named =>
      have reaches := reaches_perform before.store (.restriction role filler)
      simp only [AtomStore.perform, internRestriction_of_named role named]
        at reaches
      exact reaches
  | abbreviation =>
      exact (reaches_perform _ (.name before.freshSymbol)).trans
        (reaches_perform _ (.setKind _ .auxiliaryVariable))
  | beginImport => exact reaches_perform _ (.setKind _ .definitionVariable)
  | define => exact .refl _

theorem GoalBuilder.Builds.reaches {before after : GoalBuilder}
    {calls : List BuilderCall} (builds : Builds before calls after) :
    before.store.Reaches after.store := by
  refine builds.preserves (fun builder => before.store.Reaches builder.store)
    closed_all (fun _ _ _ _ => trivial)
    (fun _ _ change earlier => earlier.trans change.reaches) ?_ ?_
    (.refl before.store)
  · intro builder constraint earlier
    cases constraint <;> exact earlier
  · intro builder symbol earlier
    exact earlier.trans (reaches_perform builder.store (.name symbol))

/-- The store of a goal comes from calls of the empty store. -/
theorem Goal.Obtained.reaches {goal : Goal} (obtained : goal.Obtained) :
    (∅ : AtomStore).Reaches goal.store := by
  induction obtained with
  | built success =>
      obtain ⟨unfailed, rfl⟩ := of_build success
      exact (GoalBuilder.builds_performAll unfailed).reaches.trans
        (reaches_foldl_setKind _ .userVariable _)
  | userVariable _ success induction =>
      rw [eq_of_reclassify? success]
      exact induction.trans (reaches_perform _ (.setKind _ .userVariable))
  | constant _ success induction =>
      rw [eq_of_reclassify? success]
      exact induction.trans (reaches_perform _ (.setKind _ .constant))

theorem Goal.Obtained.aligned {goal : Goal} (obtained : goal.Obtained) :
    goal.store.Aligned :=
  obtained.reaches.aligned aligned_empty

end Goals

end ConceptUnification
