import ConceptUnification.Proofs.EngineRun
import ConceptUnification.Proofs.SessionSearch
import Mathlib.Data.List.Perm.Basic

/-!
# Sessions that run to the end

A session that asks until its engine has no more unifiers keeps one of them for
each key.  So two sessions whose engines yield unifiers with the same keys end
with equally many.
-/

namespace ConceptUnification

namespace Session

variable {σ : Type}

/-- A unifier with the key was found. -/
def Finds (session : Session σ) (key : UnifierKey) : Prop :=
  ∃ unifier ∈ session.unifiers, unifier.userKey? session.goal = some key

/-- The session remembers the keys of its unifiers, which are all different. -/
structure Distinct (session : Session σ) : Prop where
  remembered : session.unifiers.toList.map (·.userKey? session.goal) =
    session.keys.toList.map some
  distinct : session.keys.toList.Nodup

theorem distinct_new (goal : Goal) (engine : σ) :
    (Session.new goal engine).Distinct where
  remembered := rfl
  distinct := List.nodup_nil

theorem Distinct.finds_iff {session : Session σ} (distinct : session.Distinct)
    {key : UnifierKey} : session.Finds key ↔ key ∈ session.keys := by
  have inKeys : some key ∈ session.keys.toList.map some ↔
      key ∈ session.keys := by
    simp
  rw [← inKeys, ← distinct.remembered, List.mem_map]
  simp [Finds]

theorem Distinct.size_eq {session : Session σ} (distinct : session.Distinct) :
    session.size = session.keys.toList.length := by
  have lengths := congrArg List.length distinct.remembered
  rw [List.length_map, List.length_map] at lengths
  exact lengths

/-- Sessions that found the same keys found equally many unifiers. -/
theorem Distinct.size_eq_size {τ : Type} {session : Session σ}
    {other : Session τ} (distinct : session.Distinct)
    (distinct' : other.Distinct)
    (same : ∀ key, session.Finds key ↔ other.Finds key) :
    session.size = other.size := by
  rw [distinct.size_eq, distinct'.size_eq]
  apply List.Perm.length_eq
  rw [List.perm_ext_iff_of_nodup distinct.distinct distinct'.distinct]
  intro key
  rw [Array.mem_toList_iff, Array.mem_toList_iff, ← distinct.finds_iff,
    ← distinct'.finds_iff]
  exact same key

theorem Distinct.size_eq_zero_iff {session : Session σ}
    (distinct : session.Distinct) :
    session.size = 0 ↔ ∀ key, ¬ session.Finds key := by
  rw [distinct.size_eq, List.length_eq_zero_iff,
    List.eq_nil_iff_forall_not_mem]
  refine forall_congr' fun key => ?_
  rw [distinct.finds_iff, Array.mem_toList_iff]

/-- A unifier with a new key can be added. -/
theorem Distinct.push {session : Session σ} (distinct : session.Distinct)
    (engine : σ) {unifier : Unifier} {key : UnifierKey}
    (found : unifier.userKey? session.goal = some key)
    (fresh : key ∉ session.keys) :
    Distinct
      { session with
        engine
        unifiers := session.unifiers.push unifier
        keys := session.keys.push key } where
  remembered := by simp [distinct.remembered, found]
  distinct := by
    simp only [Array.toList_push]
    rw [List.nodup_append]
    refine ⟨distinct.distinct, List.nodup_singleton _, ?_⟩
    intro old inKeys new single same
    rw [List.mem_singleton] at single
    rw [same, single, Array.mem_toList_iff] at inKeys
    exact fresh inKeys

/-- What recording a unifier with a key changes. -/
structure Records (before after : Session σ) (key : UnifierKey) : Prop where
  goal : after.goal = before.goal
  engine : after.engine = before.engine
  allFound : after.allFound = before.allFound
  distinct : before.Distinct → after.Distinct
  keys : ∀ other, other ∈ after.keys ↔ other ∈ before.keys ∨ other = key

variable [Engine σ]

/-- Asking until there are no more unifiers succeeds, and the engine has no more
of them then. -/
structure Exhausts (session final : Session σ) : Prop where
  computed : ∃ pulls,
    session.computeAll Engine.never pulls = (.ok final.size, final)
  allFound : final.allFound = true

section Asking

variable {session : Session σ} {engine : σ}
  (running : session.allFound = false)

include running

theorem collects_exhausted
    (answer : Engine.next Engine.never session.engine = (.ok none, engine)) :
    session.Collects Engine.never 1 (.ok session.size)
      { session with engine, allFound := true } :=
  .exhausted (.exhausted (.exhausted running answer))

/-- A unifier with a key is recorded or dropped, and its key is among the
remembered ones afterwards. -/
theorem computeAll_found {unifier : Unifier} {key : UnifierKey}
    (answer : Engine.next Engine.never session.engine =
      (.ok (some unifier), engine))
    (found : unifier.userKey? session.goal = some key) :
    ∃ after, Records { session with engine } after key ∧
      ∀ pulls, session.computeAll Engine.never (pulls + 1) =
        after.computeAll Engine.never pulls := by
  by_cases known : key ∈ session.keys
  · have pulled := Pulls.duplicate running answer found known
    have records : Records { session with engine } { session with
        engine
        duplicatesSkipped := session.duplicatesSkipped + 1 } key := by
      refine ⟨rfl, rfl, rfl, ?_, fun other => ?_⟩
      · exact fun distinct => ⟨distinct.remembered, distinct.distinct⟩
      · exact (or_iff_left_of_imp fun same => same ▸ known).symm
    refine ⟨_, records, fun pulls => ?_⟩
    rw [computeAll, pull_eq_of_pulls pulled]
  · have pulled := Pulls.found running answer found known
    have records : Records { session with engine } { session with
        engine
        unifiers := session.unifiers.push unifier
        keys := session.keys.push key } key :=
      ⟨rfl, rfl, rfl, fun distinct => distinct.push engine found known,
        fun _ => Array.mem_push⟩
    refine ⟨_, records, fun pulls => ?_⟩
    rw [computeAll, pull_eq_of_pulls pulled]

end Asking

/-- What a session finds that runs to the end is what its engine yields. -/
theorem Exhausts.exists_yields {session final : Session σ}
    (exhausts : session.Exhausts final) (running : session.allFound = false)
    (distinct : session.Distinct) :
    ∃ unifiers, Engine.Yields session.engine unifiers ∧
      final.goal = session.goal ∧ final.Distinct ∧
      ∀ key, key ∈ final.keys ↔ key ∈ session.keys ∨
        ∃ unifier ∈ unifiers, unifier.userKey? session.goal = some key := by
  obtain ⟨pulls, run⟩ := exhausts.computed
  clear exhausts
  induction pulls generalizing session with
  | zero => cases run
  | succ pulls induction =>
      cases asked : Engine.next Engine.never session.engine with
      | mk answer engine =>
      cases answer with
      | error error =>
          rw [computeAll, pull, running, asked] at run
          cases run
      | ok found =>
      cases found with
      | none =>
          rw [computeAll_of_collects (collects_exhausted running asked)
            (Nat.le_add_left 1 pulls)] at run
          obtain ⟨_, rfl⟩ := Prod.mk.inj run
          exact ⟨[], .exhausted asked, rfl,
            ⟨distinct.remembered, distinct.distinct⟩, by simp⟩
      | some unifier =>
          cases keyed : unifier.userKey? session.goal with
          | none =>
              rw [computeAll, pull, running, asked] at run
              simp only [Bool.false_eq_true, if_false, record, keyed] at run
              cases run
          | some key =>
              obtain ⟨after, records, same⟩ :=
                computeAll_found running asked keyed
              rw [same pulls] at run
              obtain ⟨unifiers, yields, sameGoal, distinct', keys⟩ := induction
                (records.allFound.trans running)
                (records.distinct ⟨distinct.remembered, distinct.distinct⟩) run
              rw [records.engine] at yields
              refine ⟨unifier :: unifiers, .found asked yields,
                sameGoal.trans records.goal, distinct', fun other => ?_⟩
              rw [keys, records.keys, records.goal]
              simp [keyed, or_assoc, eq_comm]

/-- A session runs to the end if its engine does and yields unifiers of the
goal. -/
theorem exists_exhausts {session : Session σ} {unifiers : List Unifier}
    (yields : Engine.Yields session.engine unifiers)
    (running : session.allFound = false)
    (keyed : ∀ unifier ∈ unifiers,
      ∃ key, unifier.userKey? session.goal = some key) :
    ∃ final, session.Exhausts final := by
  induction unifiers generalizing session with
  | nil =>
      cases yields with
      | @exhausted _ engine answer =>
          exact ⟨{ session with engine, allFound := true },
            ⟨1, computeAll_of_collects (collects_exhausted running answer)
              (Nat.le_refl 1)⟩, rfl⟩
  | cons unifier unifiers induction =>
      cases yields with
      | found answer later =>
          obtain ⟨key, found⟩ := keyed unifier List.mem_cons_self
          obtain ⟨after, records, same⟩ := computeAll_found running answer found
          have later' : Engine.Yields after.engine unifiers := by
            rw [records.engine]
            exact later
          obtain ⟨final, ⟨pulls, run⟩, allFound⟩ := induction later'
            (records.allFound.trans running) fun other member => by
              rw [records.goal]
              exact keyed other (List.mem_cons_of_mem _ member)
          exact ⟨final, ⟨pulls + 1, (same pulls).trans run⟩, allFound⟩

/-- A new session that runs to the end finds the keys of what its engine
yields. -/
theorem Exhausts.exists_finds_iff {goal : Goal} {engine : σ}
    {final : Session σ} (exhausts : (Session.new goal engine).Exhausts final) :
    ∃ unifiers, Engine.Yields engine unifiers ∧ final.Distinct ∧
      ∀ key, final.Finds key ↔
        ∃ unifier ∈ unifiers, unifier.userKey? goal = some key := by
  obtain ⟨unifiers, yields, _, distinct, keys⟩ :=
    exhausts.exists_yields rfl (distinct_new goal engine)
  refine ⟨unifiers, yields, distinct, fun key => ?_⟩
  rw [distinct.finds_iff, keys]
  simp [Session.new]

end Session

end ConceptUnification
