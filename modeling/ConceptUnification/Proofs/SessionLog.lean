import ConceptUnification.Proofs.SessionOperation

/-!
# Logged answers

Here the engine of a session keeps a log of its answers, which changes nothing
else.  The log shows how often the engine was asked, and why an operation
failed: because the engine did, or because all pulls were used up.
-/

namespace ConceptUnification

/-- An engine with the answers that it has given so far. -/
structure LoggedEngine (σ : Type) where
  engine : σ
  log : List Answer := []

namespace LoggedEngine

variable {σ : Type} [Engine σ]

/-- The next answer, which is added to the log. -/
def next (cancelled : CancelSchedule) (logged : LoggedEngine σ) :
    Answer × LoggedEngine σ :=
  match Engine.next cancelled logged.engine with
  | (answer, engine) => (answer, ⟨engine, logged.log ++ [answer]⟩)

instance : Engine (LoggedEngine σ) where
  name logged := Engine.name logged.engine
  next := next
  info logged := Engine.info logged.engine

end LoggedEngine

namespace Session

variable {σ : Type}

section Unlogged

/-- The session without the log. -/
def unlogged (session : Session (LoggedEngine σ)) : Session σ :=
  { session with engine := session.engine.engine }

theorem advanceTo_unlogged (target : Nat)
    (computed : Except UnificationError Bool × Session (LoggedEngine σ)) :
    advanceTo target (computed.map id unlogged) =
      (advanceTo target computed).map id unlogged := by
  obtain ⟨outcome, after⟩ := computed
  cases outcome with
  | error => rfl
  | ok =>
      simp only [Prod.map_apply, id, advanceTo, apply_ite unlogged]
      rfl

variable [Engine σ] (session : Session (LoggedEngine σ))

theorem pull_unlogged (cancelled : CancelSchedule) :
    session.unlogged.pull cancelled =
      (session.pull cancelled).map id unlogged := by
  obtain ⟨goal, logged, unifiers, keys, cursor, allFound, skipped⟩ := session
  cases allFound with
  | true => rfl
  | false =>
      simp only [pull, unlogged, Engine.next, LoggedEngine.next,
        Bool.false_eq_true, if_false]
      generalize Engine.next cancelled logged.engine = asked
      obtain ⟨answer, engine⟩ := asked
      cases answer with
      | error => rfl
      | ok found =>
      cases found with
      | none => rfl
      | some unifier =>
          simp only [record]
          cases unifier.userKey? goal with
          | none => rfl
          | some key =>
              by_cases known : keys.contains key = true
              · simp only [known, if_true]
                rfl
              · simp only [known]
                rfl

theorem computeNext_unlogged (cancelled : CancelSchedule) (pulls : Nat) :
    session.unlogged.computeNext cancelled pulls =
      (session.computeNext cancelled pulls).map id unlogged := by
  induction pulls generalizing session with
  | zero => rfl
  | succ pulls induction =>
      rw [computeNext, computeNext, pull_unlogged]
      generalize session.pull cancelled = pulled
      obtain ⟨pull, between⟩ := pulled
      cases pull with
      | duplicate => exact induction between
      | _ => rfl

theorem computeAll_unlogged (cancelled : CancelSchedule) (pulls : Nat) :
    session.unlogged.computeAll cancelled pulls =
      (session.computeAll cancelled pulls).map id unlogged := by
  induction pulls generalizing session with
  | zero => rfl
  | succ pulls induction =>
      rw [computeAll, computeAll, pull_unlogged]
      generalize session.pull cancelled = pulled
      obtain ⟨pull, between⟩ := pulled
      cases pull with
      | found => exact induction between
      | duplicate => exact induction between
      | _ => rfl

theorem iterate_unlogged (requests : List (CancelSchedule × Nat))
    (ended : Bool) :
    iterate requests { session := session.unlogged, ended } =
      (iterate requests { session, ended }).map id
        fun iterator => ⟨iterator.session.unlogged, iterator.ended⟩ := by
  induction requests generalizing session ended with
  | nil => rfl
  | cons request requests induction =>
      cases ended with
      | true =>
          rw [iterate_ended, iterate_ended]
          rfl
      | false =>
          simp only [iterate, UnifierIterator.next, Bool.false_eq_true,
            if_false, computeNext_unlogged]
          generalize session.computeNext request.1 request.2 = result
          obtain ⟨outcome, after⟩ := result
          cases outcome with
          | error error =>
              simp only [Prod.map, id, induction]
          | ok found =>
              cases found with
              | false => simp only [Prod.map, id, induction]
              | true =>
                  simp only [Prod.map, id, induction]
                  rfl

theorem seek_unlogged (cancelled : CancelSchedule) (target pulls : Nat) :
    session.unlogged.seek cancelled target pulls =
      (session.seek cancelled target pulls).map id unlogged := by
  have same : session.unlogged.size = session.size := rfl
  rw [seek, seek, ← advanceTo_unlogged, same, computeNext_unlogged,
    apply_ite (Prod.map id unlogged)]
  rfl

/-- The log changes nothing else. -/
theorem perform_unlogged (operation : Operation) :
    session.unlogged.perform operation =
      (session.perform operation).map id unlogged := by
  cases operation with
  | computeNext cancelled pulls =>
      simp only [perform, computeNext_unlogged]
      rfl
  | computeAll cancelled pulls =>
      simp only [perform, computeAll_unlogged]
      rfl
  | first cancelled pulls =>
      simp only [perform, first_eq_seek, seek_unlogged]
      rfl
  | next cancelled pulls =>
      simp only [perform, next_eq_seek]
      rw [seek_unlogged]
      rfl
  | last cancelled pulls =>
      simp only [perform, last, computeAll_unlogged]
      generalize session.computeAll cancelled pulls = result
      obtain ⟨outcome, after⟩ := result
      cases outcome with
      | error => rfl
      | ok => rfl
  | previous => rfl
  | moveTo index =>
      have same : session.unlogged.size = session.size := rfl
      simp only [perform, moveTo, same]
      by_cases inside : index < session.size
      · simp only [if_pos inside]
        rfl
      · simp only [if_neg inside]
        rfl
  | iterate requests =>
      simp only [perform, iterate_unlogged]
      rfl

theorem performAll_unlogged (operations : List Operation) :
    session.unlogged.performAll operations =
      (session.performAll operations).unlogged := by
  induction operations generalizing session with
  | nil => rfl
  | cons operation operations induction =>
      rw [performAll, List.foldl_cons, perform_unlogged]
      exact induction _

end Unlogged

section Log

variable [Engine σ]

/-- The session of a goal after some operations, where all answers of the engine
are logged. -/
def logged (goal : Goal) (engine : σ) (operations : List Operation) :
    Session (LoggedEngine σ) :=
  (Session.new goal (LoggedEngine.mk engine [])).performAll operations

theorem log_next {cancelled : CancelSchedule} {logged after : LoggedEngine σ}
    {answer : Answer}
    (answered : Engine.next cancelled logged = (answer, after)) :
    after.log = logged.log ++ [answer] := by
  simp only [Engine.next, LoggedEngine.next] at answered
  obtain ⟨rfl, rfl⟩ := Prod.mk.inj answered
  rfl

variable {cancelled : CancelSchedule}
  {before between after : Session (LoggedEngine σ)}

/-- Asking once adds an answer to the log, or changes nothing. -/
theorem Pulls.exists_log_eq {pull : Pull}
    (pulls : before.Pulls cancelled pull after) :
    after = before ∨ ∃ answer, after.engine.log =
      before.engine.log ++ [answer] := by
  cases pulls with
  | found _ answered => exact .inr ⟨_, log_next answered⟩
  | duplicate _ answered => exact .inr ⟨_, log_next answered⟩
  | foreign _ answered => exact .inr ⟨_, log_next answered⟩
  | failed _ answered => exact .inr ⟨_, log_next answered⟩
  | exhausted _ answered => exact .inr ⟨_, log_next answered⟩
  | ended => exact .inl rfl

/-- Answers stay in the log. -/
theorem Asks.log_prefix (asks : before.Asks after) :
    before.engine.log <+: after.engine.log := by
  induction asks with
  | refl => exact List.prefix_refl _
  | step pulls _ induction =>
      rcases pulls.exists_log_eq with same | ⟨answer, log⟩
      · rw [same] at induction
        exact induction
      · rw [log] at induction
        exact (List.prefix_append _ _).trans induction

theorem Skips.log_length {asked : Nat}
    (skips : before.Skips cancelled asked after) :
    after.engine.log.length = before.engine.log.length + asked := by
  induction skips with
  | none => rfl
  | duplicate pulls _ induction =>
      cases pulls with
      | duplicate _ answered =>
          rw [induction, log_next answered, List.length_append,
            List.length_singleton]
          omega

theorem Searches.log_length {asked : Nat}
    (searches : before.Searches cancelled asked (.ok true) after) :
    after.engine.log.length = before.engine.log.length + asked := by
  generalize found : Except.ok true = outcome at searches
  induction searches with
  | found pulls =>
      cases pulls with
      | found _ answered =>
          rw [log_next answered, List.length_append, List.length_singleton]
  | exhausted => cases found
  | failed => cases found
  | duplicate pulls _ induction =>
      cases pulls with
      | duplicate _ answered =>
          rw [induction found, log_next answered, List.length_append,
            List.length_singleton]
          omega

theorem Gathers.log_length {asked : Nat}
    (gathers : before.Gathers cancelled asked after) :
    after.engine.log.length = before.engine.log.length + asked := by
  induction gathers with
  | skips skips => exact skips.log_length
  | found searches _ induction =>
      rw [induction, searches.log_length, Nat.add_assoc]

end Log

section Faults

/-- Why asking the engine comes to an error: it is the last answer of the
engine, or that answer is a unifier of another goal, or one of the budgets is
used up. -/
inductive Faults (before after : Session (LoggedEngine σ))
    (budgets : List Nat) : UnificationError → Prop
  | answered {error : UnificationError} {earlier : List Answer}
      (log : after.engine.log =
        before.engine.log ++ (earlier ++ [.error error])) :
      Faults before after budgets error
  | foreign {unifier : Unifier} {earlier : List Answer}
      (log : after.engine.log =
        before.engine.log ++ (earlier ++ [.ok (some unifier)]))
      (unkeyed : unifier.userKey? before.goal = none) :
      Faults before after budgets .foreignUnifier
  | spent {pulls : Nat} (budget : pulls ∈ budgets)
      (asked : before.engine.log.length + pulls ≤ after.engine.log.length) :
      Faults before after budgets .pullLimitReached

/-- Why an operation comes to an error: because asking the engine does, or
because there is no unifier with the index. -/
inductive Blames (before : Session (LoggedEngine σ)) :
    Operation → Session (LoggedEngine σ) → UnificationError → Prop
  | asked {operation : Operation} {after : Session (LoggedEngine σ)}
      {error : UnificationError}
      (faults : before.Faults after operation.budgets error) :
      Blames before operation after error
  | outside {index : Nat} (bound : before.size ≤ index) :
      Blames before (.moveTo index) before
        (.indexOutOfRange index before.size)

variable [Engine σ] {cancelled : CancelSchedule}
  {before between after : Session (LoggedEngine σ)}
  {error : UnificationError}

/-- An error is blamed on the same after the engine was asked before. -/
theorem Faults.of_asks {budgets budgets' : List Nat}
    (asks : before.Asks between) (faults : between.Faults after budgets error)
    (subset : budgets ⊆ budgets') : before.Faults after budgets' error := by
  obtain ⟨answers, same⟩ := asks.log_prefix
  cases faults with
  | answered log =>
      rw [← same, List.append_assoc, ← List.append_assoc answers] at log
      exact .answered log
  | foreign log unkeyed =>
      rw [← same, List.append_assoc, ← List.append_assoc answers] at log
      rw [asks.keeps.goal] at unkeyed
      exact .foreign log unkeyed
  | spent budget asked =>
      have longer := asks.log_prefix.length_le
      exact .spent (subset budget) (by omega)

theorem Searches.faults {asked : Nat}
    (searches : before.Searches cancelled asked (.error error) after)
    (budgets : List Nat) : before.Faults after budgets error := by
  generalize failed : Except.error error = outcome at searches
  induction searches with
  | found => cases failed
  | exhausted => cases failed
  | failed pulls =>
      cases failed
      cases pulls with
      | foreign _ answered unkeyed =>
          exact .foreign (show _ = _ ++ ([] ++ [_]) from log_next answered)
            unkeyed
      | failed _ answered =>
          exact .answered (show _ = _ ++ ([] ++ [_]) from log_next answered)
  | duplicate pulls _ induction =>
      exact (induction failed).of_asks pulls.asks (List.Subset.refl budgets)

theorem Collects.faults {asked : Nat}
    (collects : before.Collects cancelled asked (.error error) after)
    (budgets : List Nat) : before.Faults after budgets error := by
  generalize failed : Except.error error = outcome at collects
  induction collects with
  | exhausted => cases failed
  | failed searches =>
      cases failed
      exact searches.faults budgets
  | found searches _ induction =>
      exact (induction failed).of_asks searches.asks (List.Subset.refl budgets)

variable (session : Session (LoggedEngine σ))

theorem faults_computeNext {cancelled : CancelSchedule} {pulls : Nat}
    (failed : (session.computeNext cancelled pulls).1 = .error error) :
    session.Faults (session.computeNext cancelled pulls).2 [pulls] error := by
  rcases (bounded_computeNext cancelled session).cases pulls with
    ⟨asked, _, searches⟩ | ⟨after, skips, stopped⟩
  · rw [failed] at searches
    exact searches.faults _
  · rw [stopped] at failed ⊢
    cases failed
    exact .spent List.mem_cons_self (Nat.le_of_eq skips.log_length.symm)

theorem faults_computeAll {cancelled : CancelSchedule} {pulls : Nat}
    (failed : (session.computeAll cancelled pulls).1 = .error error) :
    session.Faults (session.computeAll cancelled pulls).2 [pulls] error := by
  rcases (bounded_computeAll cancelled session).cases pulls with
    ⟨asked, _, collects⟩ | ⟨after, gathers, stopped⟩
  · rw [failed] at collects
    exact collects.faults _
  · rw [stopped] at failed ⊢
    cases failed
    exact .spent List.mem_cons_self (Nat.le_of_eq gathers.log_length.symm)

/-- Moving the cursor makes no errors of its own. -/
theorem faults_seek {cancelled : CancelSchedule} {target pulls : Nat}
    (failed : (session.seek cancelled target pulls).1 = .error error) :
    session.Faults (session.seek cancelled target pulls).2 [pulls] error := by
  rcases Nat.lt_or_ge target session.size with listed | reached
  · rw [seek_of_lt cancelled pulls listed] at failed
    cases failed
  · have faults := @faults_computeNext _ _ error session cancelled pulls
    rw [seek_of_le cancelled pulls reached] at failed ⊢
    generalize session.computeNext cancelled pulls = result at failed faults ⊢
    obtain ⟨outcome, after⟩ := result
    cases outcome with
    | error =>
        cases failed
        exact faults rfl
    | ok => cases failed

theorem faults_iterate {requests : List (CancelSchedule × Nat)}
    (reported : some (.error error) ∈ (iterate requests { session }).1) :
    session.Faults (iterate requests { session }).2.session
      (requests.map Prod.snd) error := by
  induction requests generalizing session with
  | nil => cases reported
  | cons request requests induction =>
      obtain ⟨cancelled, pulls⟩ := request
      have cases_ := (bounded_next_iterator cancelled session).cases pulls
      simp only [iterate] at reported ⊢
      generalize UnifierIterator.next cancelled pulls { session } = result
        at cases_ reported ⊢
      obtain ⟨item, iterator⟩ := result
      rcases cases_ with ⟨asked, _, delivers⟩ | ⟨after, skips, stopped⟩
      · cases delivers with
        | found searches listed =>
            rcases List.mem_cons.mp reported with same | later
            · cases same
            · exact (induction _ later).of_asks searches.asks
                (List.subset_cons_self _ _)
        | exhausted searches =>
            simp [iterate_ended, List.mem_replicate] at reported
        | failed searches =>
            simp only [iterate_ended] at reported ⊢
            rcases List.mem_cons.mp reported with same | later
            · cases same
              exact searches.faults _
            · cases List.eq_of_mem_replicate later
      · cases stopped
        simp only [iterate_ended] at reported ⊢
        rcases List.mem_cons.mp reported with same | later
        · cases same
          exact .spent List.mem_cons_self
            (Nat.le_of_eq skips.log_length.symm)
        · cases List.eq_of_mem_replicate later

/-- Every error of an operation has a reason. -/
theorem blames_perform (operation : Operation)
    (reported : (session.perform operation).1.Reports error) :
    session.Blames operation (session.perform operation).2 error := by
  cases operation with
  | computeNext cancelled pulls =>
      apply Blames.asked
      exact faults_computeNext session (Reply.eq_error_of_reports reported)
  | computeAll cancelled pulls =>
      apply Blames.asked
      exact faults_computeAll session (Reply.eq_error_of_reports reported)
  | first cancelled pulls =>
      apply Blames.asked
      simp only [perform, first_eq_seek] at reported ⊢
      exact faults_seek session reported
  | next cancelled pulls =>
      apply Blames.asked
      simp only [perform, next_eq_seek] at reported ⊢
      exact faults_seek session reported
  | last cancelled pulls =>
      apply Blames.asked
      have faults := @faults_computeAll _ _ error session cancelled pulls
      simp only [perform, last] at reported ⊢
      generalize session.computeAll cancelled pulls = result
        at faults reported ⊢
      obtain ⟨outcome, after⟩ := result
      cases outcome with
      | error =>
          cases reported
          exact faults rfl
      | ok => cases reported
  | previous => cases reported
  | moveTo index =>
      simp only [perform, moveTo] at reported ⊢
      by_cases inside : index < session.size
      · rw [if_pos inside] at reported
        cases reported
      · rw [if_neg inside] at reported ⊢
        cases reported
        exact .outside (Nat.le_of_not_lt inside)
  | iterate requests => exact .asked (faults_iterate session reported)

end Faults

end Session

end ConceptUnification
