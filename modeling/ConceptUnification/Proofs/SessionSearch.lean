import ConceptUnification.Session

/-!
# Asking without a limit

A session asks its engine one time after the other.  `Pulls` says what asking
once may come to, and `Searches` and `Collects` what comes of asking until there
is a new unifier, or until there are no more, if nothing limits how often it is
done.  A session whose pulls are enough for that does the same.
-/

namespace ConceptUnification

namespace Session

variable {σ : Type}

/-- A request that is given a number of pulls.  If these are enough for an
answer, it gives that answer, and otherwise it uses them up and stops. -/
structure Bounded {ρ τ : Type} (request : Nat → ρ × τ)
    (Answers : Nat → ρ → τ → Prop) (Spends : Nat → Session σ → Prop)
    (stop : Session σ → ρ × τ) : Prop where
  enough : ∀ {asked answer after}, Answers asked answer after →
    ∀ {pulls}, asked ≤ pulls → request pulls = (answer, after)
  spent : ∀ {pulls after}, Spends pulls after → request pulls = stop after
  decided : ∀ pulls,
    (∃ asked answer after, asked ≤ pulls ∧ Answers asked answer after) ∨
      ∃ after, Spends pulls after

section Bounded

variable {ρ τ : Type} {request : Nat → ρ × τ} {Answers : Nat → ρ → τ → Prop}
  {Spends : Nat → Session σ → Prop} {stop : Session σ → ρ × τ}

/-- What comes of a request is an answer, or all its pulls were used up. -/
theorem Bounded.cases (bounded : Bounded request Answers Spends stop)
    (pulls : Nat) :
    (∃ asked, asked ≤ pulls ∧
        Answers asked (request pulls).1 (request pulls).2) ∨
      ∃ after, Spends pulls after ∧ request pulls = stop after := by
  rcases bounded.decided pulls with
    ⟨asked, answer, after, within, answers⟩ | ⟨after, spends⟩
  · left
    refine ⟨asked, within, ?_⟩
    rw [bounded.enough answers within]
    exact answers
  · right
    exact ⟨after, spends, bounded.spent spends⟩

/-- With more pulls a request that did not use them up comes to the same. -/
theorem Bounded.eq_of_le (bounded : Bounded request Answers Spends stop)
    {pulls more : Nat} (enough : pulls ≤ more)
    (answered : ∀ after, request pulls ≠ stop after) :
    request more = request pulls := by
  rcases bounded.cases pulls with
    ⟨asked, within, answers⟩ | ⟨after, _, stopped⟩
  · exact bounded.enough answers (Nat.le_trans within enough)
  · exact (answered after stopped).elim

end Bounded

variable [Engine σ]

/-- What asking the engine once may come to. -/
inductive Pulls (cancelled : CancelSchedule) (before : Session σ) :
    Pull → Session σ → Prop
  | found {engine : σ} {unifier : Unifier} {key : UnifierKey}
      (running : before.allFound = false)
      (answer : Engine.next cancelled before.engine =
        (.ok (some unifier), engine))
      (keyed : unifier.userKey? before.goal = some key)
      (fresh : key ∉ before.keys) :
      Pulls cancelled before .found
        { before with
          engine
          unifiers := before.unifiers.push unifier
          keys := before.keys.push key }
  | duplicate {engine : σ} {unifier : Unifier} {key : UnifierKey}
      (running : before.allFound = false)
      (answer : Engine.next cancelled before.engine =
        (.ok (some unifier), engine))
      (keyed : unifier.userKey? before.goal = some key)
      (known : key ∈ before.keys) :
      Pulls cancelled before .duplicate
        { before with
          engine
          duplicatesSkipped := before.duplicatesSkipped + 1 }
  | foreign {engine : σ} {unifier : Unifier}
      (running : before.allFound = false)
      (answer : Engine.next cancelled before.engine =
        (.ok (some unifier), engine))
      (unkeyed : unifier.userKey? before.goal = none) :
      Pulls cancelled before (.failed .foreignUnifier) { before with engine }
  | failed {engine : σ} {error : UnificationError}
      (running : before.allFound = false)
      (answer : Engine.next cancelled before.engine = (.error error, engine)) :
      Pulls cancelled before (.failed error) { before with engine }
  | exhausted {engine : σ} (running : before.allFound = false)
      (answer : Engine.next cancelled before.engine = (.ok none, engine)) :
      Pulls cancelled before .exhausted
        { before with engine, allFound := true }
  | ended (allFound : before.allFound = true) :
      Pulls cancelled before .exhausted before

theorem pulls_pull (cancelled : CancelSchedule) (session : Session σ) :
    session.Pulls cancelled (session.pull cancelled).1
      (session.pull cancelled).2 := by
  by_cases allFound : session.allFound = true
  · rw [pull, if_pos allFound]
    exact .ended allFound
  · have running : session.allFound = false := by simpa using allFound
    rw [pull, if_neg allFound]
    cases answer : Engine.next cancelled session.engine with
    | mk answered engine =>
    cases answered with
    | error error => exact .failed running answer
    | ok found =>
    cases found with
    | none => exact .exhausted running answer
    | some unifier =>
        simp only [record]
        cases keyed : unifier.userKey? session.goal with
        | none => exact .foreign running answer keyed
        | some key =>
            by_cases known : session.keys.contains key = true
            · simp only [known, if_true]
              exact .duplicate running answer keyed
                (Array.contains_iff_mem.mp known)
            · simp only [known]
              exact .found running answer keyed
                (mt Array.contains_iff_mem.mpr known)

theorem pull_eq_of_pulls {cancelled : CancelSchedule}
    {before after : Session σ} {pull : Pull}
    (pulls : before.Pulls cancelled pull after) :
    before.pull cancelled = (pull, after) := by
  unfold Session.pull
  cases pulls with
  | found running answer keyed fresh =>
      simp [running, answer, record, keyed, fresh]
  | duplicate running answer keyed known =>
      simp [running, answer, record, keyed, known]
  | foreign running answer unkeyed =>
      simp [running, answer, record, unkeyed]
  | failed running answer => simp [running, answer]
  | exhausted running answer => simp [running, answer]
  | ended allFound => simp [allFound]

section Searches

/-- What comes of asking until there is a new unifier, and how often that takes
place. -/
inductive Searches (cancelled : CancelSchedule) :
    Session σ → Nat → Except UnificationError Bool → Session σ → Prop
  | found {before after : Session σ}
      (pulls : before.Pulls cancelled .found after) :
      Searches cancelled before 1 (.ok true) after
  | exhausted {before after : Session σ}
      (pulls : before.Pulls cancelled .exhausted after) :
      Searches cancelled before 1 (.ok false) after
  | failed {before after : Session σ} {error : UnificationError}
      (pulls : before.Pulls cancelled (.failed error) after) :
      Searches cancelled before 1 (.error error) after
  | duplicate {before between after : Session σ} {asked : Nat}
      {outcome : Except UnificationError Bool}
      (pulls : before.Pulls cancelled .duplicate between)
      (later : Searches cancelled between asked outcome after) :
      Searches cancelled before (asked + 1) outcome after

/-- That many times the engine was asked and gave a duplicate. -/
inductive Skips (cancelled : CancelSchedule) :
    Session σ → Nat → Session σ → Prop
  | none (session : Session σ) : Skips cancelled session 0 session
  | duplicate {before between after : Session σ} {asked : Nat}
      (pulls : before.Pulls cancelled .duplicate between)
      (later : Skips cancelled between asked after) :
      Skips cancelled before (asked + 1) after

variable {cancelled : CancelSchedule} {before after : Session σ}

theorem computeNext_of_searches {asked : Nat}
    {outcome : Except UnificationError Bool}
    (searches : before.Searches cancelled asked outcome after) {pulls : Nat}
    (enough : asked ≤ pulls) :
    before.computeNext cancelled pulls = (outcome, after) := by
  induction searches generalizing pulls with
  | found pulled =>
      obtain ⟨more, rfl⟩ := Nat.exists_eq_add_of_le' enough
      rw [computeNext, pull_eq_of_pulls pulled]
  | exhausted pulled =>
      obtain ⟨more, rfl⟩ := Nat.exists_eq_add_of_le' enough
      rw [computeNext, pull_eq_of_pulls pulled]
  | failed pulled =>
      obtain ⟨more, rfl⟩ := Nat.exists_eq_add_of_le' enough
      rw [computeNext, pull_eq_of_pulls pulled]
  | duplicate pulled _ induction =>
      cases pulls with
      | zero => cases enough
      | succ pulls =>
          rw [computeNext, pull_eq_of_pulls pulled]
          exact induction (Nat.le_of_succ_le_succ enough)

theorem computeNext_of_skips {pulls : Nat}
    (skips : before.Skips cancelled pulls after) :
    before.computeNext cancelled pulls = (.error .pullLimitReached, after) := by
  induction skips with
  | none => rfl
  | duplicate pulled _ induction =>
      rw [computeNext, pull_eq_of_pulls pulled]
      exact induction

/-- A search comes to an end within some number of pulls, or finds only
duplicates in them. -/
theorem searches_or_skips (cancelled : CancelSchedule) (pulls : Nat)
    (session : Session σ) :
    (∃ asked outcome after, asked ≤ pulls ∧
        session.Searches cancelled asked outcome after) ∨
      ∃ after, session.Skips cancelled pulls after := by
  induction pulls generalizing session with
  | zero => exact .inr ⟨session, .none session⟩
  | succ pulls induction =>
      have pulled := pulls_pull cancelled session
      generalize session.pull cancelled = asked at pulled
      obtain ⟨pull, between⟩ := asked
      have once : 1 ≤ pulls + 1 := Nat.le_add_left 1 pulls
      cases pull with
      | found => exact .inl ⟨1, _, between, once, .found pulled⟩
      | exhausted => exact .inl ⟨1, _, between, once, .exhausted pulled⟩
      | failed => exact .inl ⟨1, _, between, once, .failed pulled⟩
      | duplicate =>
          rcases induction between with
            ⟨asked, outcome, after, within, searches⟩ | ⟨after, skips⟩
          · exact .inl ⟨asked + 1, outcome, after, Nat.succ_le_succ within,
              .duplicate pulled searches⟩
          · exact .inr ⟨after, .duplicate pulled skips⟩

theorem bounded_computeNext (cancelled : CancelSchedule)
    (session : Session σ) :
    Bounded (fun pulls => session.computeNext cancelled pulls)
      (session.Searches cancelled) (session.Skips cancelled)
      (.error .pullLimitReached, ·) where
  enough := computeNext_of_searches
  spent := computeNext_of_skips
  decided := fun pulls => searches_or_skips cancelled pulls session

end Searches

section Collects

/-- What comes of searching until there are no more unifiers, and how often the
engine is asked. -/
inductive Collects (cancelled : CancelSchedule) :
    Session σ → Nat → Except UnificationError Nat → Session σ → Prop
  | exhausted {before after : Session σ} {asked : Nat}
      (searches : before.Searches cancelled asked (.ok false) after) :
      Collects cancelled before asked (.ok after.size) after
  | failed {before after : Session σ} {asked : Nat} {error : UnificationError}
      (searches : before.Searches cancelled asked (.error error) after) :
      Collects cancelled before asked (.error error) after
  | found {before between after : Session σ} {asked later : Nat}
      {outcome : Except UnificationError Nat}
      (searches : before.Searches cancelled asked (.ok true) between)
      (collects : Collects cancelled between later outcome after) :
      Collects cancelled before (asked + later) outcome after

/-- That many times the engine was asked and gave a new unifier or a
duplicate. -/
inductive Gathers (cancelled : CancelSchedule) :
    Session σ → Nat → Session σ → Prop
  | skips {before after : Session σ} {asked : Nat}
      (skips : before.Skips cancelled asked after) :
      Gathers cancelled before asked after
  | found {before between after : Session σ} {asked later : Nat}
      (searches : before.Searches cancelled asked (.ok true) between)
      (gathers : Gathers cancelled between later after) :
      Gathers cancelled before (asked + later) after

variable {cancelled : CancelSchedule} {before after : Session σ}

/-- To compute all unifiers is to search for the next one, and to go on if there
is one. -/
theorem computeAll_of_searches (pulls : Nat) {asked : Nat}
    {outcome : Except UnificationError Bool} :
    before.Searches cancelled asked outcome after →
      before.computeAll cancelled (asked + pulls) =
        match outcome with
        | .ok true => after.computeAll cancelled pulls
        | .ok false => (.ok after.size, after)
        | .error error => (.error error, after) := by
  intro searches
  induction searches with
  | found pulled =>
      rw [Nat.add_comm, computeAll, pull_eq_of_pulls pulled]
  | exhausted pulled =>
      rw [Nat.add_comm, computeAll, pull_eq_of_pulls pulled]
  | failed pulled =>
      rw [Nat.add_comm, computeAll, pull_eq_of_pulls pulled]
  | duplicate pulled _ induction =>
      rw [Nat.add_right_comm, computeAll, pull_eq_of_pulls pulled]
      exact induction

theorem computeAll_of_skips {pulls : Nat}
    (skips : before.Skips cancelled pulls after) :
    before.computeAll cancelled pulls = (.error .pullLimitReached, after) := by
  induction skips with
  | none => rfl
  | duplicate pulled _ induction =>
      rw [computeAll, pull_eq_of_pulls pulled]
      exact induction

theorem computeAll_of_collects {asked : Nat}
    {outcome : Except UnificationError Nat}
    (collects : before.Collects cancelled asked outcome after) {pulls : Nat}
    (enough : asked ≤ pulls) :
    before.computeAll cancelled pulls = (outcome, after) := by
  obtain ⟨more, rfl⟩ := Nat.exists_eq_add_of_le enough
  clear enough
  induction collects with
  | exhausted searches => exact computeAll_of_searches more searches
  | failed searches => exact computeAll_of_searches more searches
  | found searches _ induction =>
      rw [Nat.add_assoc, computeAll_of_searches _ searches]
      exact induction

theorem computeAll_of_gathers {pulls : Nat}
    (gathers : before.Gathers cancelled pulls after) :
    before.computeAll cancelled pulls = (.error .pullLimitReached, after) := by
  induction gathers with
  | skips skips => exact computeAll_of_skips skips
  | found searches _ induction =>
      rw [computeAll_of_searches _ searches]
      exact induction

theorem Searches.pos {asked : Nat} {outcome : Except UnificationError Bool}
    (searches : before.Searches cancelled asked outcome after) : 0 < asked := by
  cases searches with
  | duplicate => exact Nat.succ_pos _
  | _ => exact Nat.one_pos

theorem collects_or_gathers (cancelled : CancelSchedule) (pulls : Nat)
    (session : Session σ) :
    (∃ asked outcome after, asked ≤ pulls ∧
        session.Collects cancelled asked outcome after) ∨
      ∃ after, session.Gathers cancelled pulls after := by
  induction pulls using Nat.strongRecOn generalizing session with
  | ind pulls induction =>
      rcases searches_or_skips cancelled pulls session with
        ⟨asked, outcome, between, within, searches⟩ | ⟨after, skips⟩
      · match outcome with
        | .error error =>
            exact .inl ⟨asked, _, between, within, .failed searches⟩
        | .ok false =>
            exact .inl ⟨asked, _, between, within, .exhausted searches⟩
        | .ok true =>
            obtain ⟨left, rfl⟩ := Nat.exists_eq_add_of_le within
            have fewer : left < asked + left :=
              Nat.lt_add_of_pos_left searches.pos
            rcases induction left fewer between with
              ⟨later, outcome, after, within', collects⟩ | ⟨after, gathers⟩
            · exact .inl ⟨asked + later, outcome, after,
                Nat.add_le_add_left within' asked, .found searches collects⟩
            · exact .inr ⟨after, .found searches gathers⟩
      · exact .inr ⟨after, .skips skips⟩

theorem bounded_computeAll (cancelled : CancelSchedule) (session : Session σ) :
    Bounded (fun pulls => session.computeAll cancelled pulls)
      (session.Collects cancelled) (session.Gathers cancelled)
      (.error .pullLimitReached, ·) where
  enough := computeAll_of_collects
  spent := computeAll_of_gathers
  decided := fun pulls => collects_or_gathers cancelled pulls session

end Collects

end Session

end ConceptUnification
