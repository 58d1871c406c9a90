import ConceptUnification.Proofs.SessionSearch

/-!
# Operations on sessions

Whatever is done with a session, it asks its engine some number of times, and
may then move the cursor.  `Asks` carries what asking once keeps to all
operations.
-/

namespace ConceptUnification

namespace Session

variable {σ : Type}

section Steps

variable [Engine σ]

/-- Any number of steps, in each of which the engine is asked once. -/
inductive Asks : Session σ → Session σ → Prop
  | refl (session : Session σ) : Asks session session
  | step {before between after : Session σ} {cancelled : CancelSchedule}
      {pull : Pull} (pulls : before.Pulls cancelled pull between)
      (later : Asks between after) : Asks before after

theorem Asks.trans {before between after : Session σ}
    (first : before.Asks between) (second : between.Asks after) :
    before.Asks after := by
  induction first with
  | refl => exact second
  | step pulls _ induction => exact .step pulls (induction second)

/-- What is kept however often the engine is asked. -/
structure Keeps (before after : Session σ) : Prop where
  goal : after.goal = before.goal
  cursor : after.cursor = before.cursor
  listed : before.unifiers.toList <+: after.unifiers.toList
  ended : before.allFound = true → after = before

theorem Pulls.keeps {before after : Session σ} {cancelled : CancelSchedule}
    {pull : Pull} (pulls : before.Pulls cancelled pull after) :
    before.Keeps after := by
  cases pulls with
  | found running =>
      refine ⟨rfl, rfl, ?_, by simp [running]⟩
      simp
  | duplicate running => exact ⟨rfl, rfl, List.prefix_refl _, by simp [running]⟩
  | foreign running => exact ⟨rfl, rfl, List.prefix_refl _, by simp [running]⟩
  | failed running => exact ⟨rfl, rfl, List.prefix_refl _, by simp [running]⟩
  | exhausted running => exact ⟨rfl, rfl, List.prefix_refl _, by simp [running]⟩
  | ended => exact ⟨rfl, rfl, List.prefix_refl _, fun _ => rfl⟩

theorem Asks.keeps {before after : Session σ} (asks : before.Asks after) :
    before.Keeps after := by
  induction asks with
  | refl => exact ⟨rfl, rfl, List.prefix_refl _, fun _ => rfl⟩
  | step pulls _ induction =>
      have first := pulls.keeps
      refine ⟨induction.goal.trans first.goal,
        induction.cursor.trans first.cursor,
        first.listed.trans induction.listed, fun allFound => ?_⟩
      have same := first.ended allFound
      subst same
      exact induction.ended allFound

theorem Pulls.asks {before after : Session σ} {cancelled : CancelSchedule}
    {pull : Pull} (pulls : before.Pulls cancelled pull after) :
    before.Asks after :=
  .step pulls (.refl after)

section Searches

variable {cancelled : CancelSchedule} {before after : Session σ} {asked : Nat}

theorem Searches.asks {outcome : Except UnificationError Bool}
    (searches : before.Searches cancelled asked outcome after) :
    before.Asks after := by
  induction searches with
  | found pulls => exact pulls.asks
  | exhausted pulls => exact pulls.asks
  | failed pulls => exact pulls.asks
  | duplicate pulls _ induction => exact .step pulls induction

theorem Skips.asks (skips : before.Skips cancelled asked after) :
    before.Asks after := by
  induction skips with
  | none session => exact .refl session
  | duplicate pulls _ induction => exact .step pulls induction

theorem Collects.asks {outcome : Except UnificationError Nat}
    (collects : before.Collects cancelled asked outcome after) :
    before.Asks after := by
  induction collects with
  | exhausted searches => exact searches.asks
  | failed searches => exact searches.asks
  | found searches _ induction => exact searches.asks.trans induction

theorem Gathers.asks (gathers : before.Gathers cancelled asked after) :
    before.Asks after := by
  induction gathers with
  | skips skips => exact skips.asks
  | found searches _ induction => exact searches.asks.trans induction

end Searches

end Steps

section Operations

/-- What a search for one more unifier comes to. -/
inductive Computes (before after : Session σ) :
    Except UnificationError Bool → Prop
  | found {unifier : Unifier}
      (listed : after.unifiers = before.unifiers.push unifier)
      (allFound : after.allFound = before.allFound) :
      Computes before after (.ok true)
  | exhausted (listed : after.unifiers = before.unifiers)
      (allFound : after.allFound = true) : Computes before after (.ok false)
  | failed {error : UnificationError}
      (listed : after.unifiers = before.unifiers)
      (allFound : after.allFound = before.allFound) :
      Computes before after (.error error)

theorem Computes.of_same {before between after : Session σ}
    {outcome : Except UnificationError Bool}
    (computes : between.Computes after outcome)
    (sameListed : between.unifiers = before.unifiers)
    (sameAllFound : between.allFound = before.allFound) :
    before.Computes after outcome := by
  cases computes with
  | found listed allFound =>
      rw [sameListed] at listed
      exact .found listed (allFound.trans sameAllFound)
  | exhausted listed allFound =>
      exact .exhausted (listed.trans sameListed) allFound
  | failed listed allFound =>
      exact .failed (listed.trans sameListed) (allFound.trans sameAllFound)

theorem Computes.size_eq {before after : Session σ} {found : Bool}
    (computes : before.Computes after (.ok found)) :
    after.size = before.size + found.toNat := by
  cases computes with
  | found listed => simp [size, listed]
  | exhausted listed => simp [size, listed]

/-- What can be done with a session. -/
inductive Operation where
  | computeNext (cancelled : CancelSchedule) (pulls : Nat)
  | computeAll (cancelled : CancelSchedule) (pulls : Nat)
  | first (cancelled : CancelSchedule) (pulls : Nat)
  | next (cancelled : CancelSchedule) (pulls : Nat)
  | last (cancelled : CancelSchedule) (pulls : Nat)
  | previous
  | moveTo (index : Nat)
  /-- Some requests to an iterator that is made for them. -/
  | iterate (requests : List (CancelSchedule × Nat))

/-- How often an operation may ask the engine, for each request on its own. -/
def Operation.budgets : Operation → List Nat
  | .computeNext _ pulls | .computeAll _ pulls | .first _ pulls
  | .next _ pulls | .last _ pulls => [pulls]
  | .previous | .moveTo _ => []
  | .iterate requests => requests.map Prod.snd

/-- What an operation answers: how it ended, or the items of an iterator. -/
inductive Reply where
  | outcome (result : Except UnificationError Unit)
  | items (items : List (Option (Except UnificationError Unifier)))

/-- The error is among what an operation answers. -/
def Reply.Reports (error : UnificationError) : Reply → Prop
  | .outcome result => result = .error error
  | .items given => some (.error error) ∈ given

theorem Reply.not_reports_ok (error : UnificationError) :
    ¬ Reply.Reports error (.outcome (.ok ())) := by
  intro reports
  cases reports

theorem Reply.eq_error_of_reports {α : Type} {error : UnificationError}
    {result : Except UnificationError α}
    (reports : Reply.Reports error (.outcome (result.map fun _ => ()))) :
    result = .error error := by
  cases result with
  | error =>
      cases reports
      rfl
  | ok => cases reports

/-- How the items of an iterator end, if they do: with nothing more after the
engine has no more unifiers, or after one error. -/
inductive Ending (before after : Session σ) :
    List (Option (Except UnificationError Unifier)) → Prop
  | going (allFound : after.allFound = before.allFound) : Ending before after []
  | exhausted (later : Nat) (allFound : after.allFound = true) :
      Ending before after (List.replicate (later + 1) none)
  | failed (error : UnificationError) (later : Nat)
      (allFound : after.allFound = before.allFound) :
      Ending before after (some (.error error) :: List.replicate later none)

theorem Ending.allFound_eq {before after : Session σ}
    {ending : List (Option (Except UnificationError Unifier))}
    (ends : before.Ending after ending) {error : UnificationError}
    (failed : some (.error error) ∈ ending) :
    after.allFound = before.allFound := by
  cases ends with
  | going allFound => exact allFound
  | exhausted later =>
      have none_ := List.eq_of_mem_replicate failed
      cases none_
  | failed _ _ allFound => exact allFound

variable [Engine σ]

/-- The answers of an iterator to some requests, one after the other. -/
def iterate : List (CancelSchedule × Nat) → UnifierIterator σ →
    List (Option (Except UnificationError Unifier)) × UnifierIterator σ
  | [], iterator => ([], iterator)
  | (cancelled, pulls) :: requests, iterator =>
      let (item, iterator) := iterator.next cancelled pulls
      let (later, iterator) := iterate requests iterator
      (item :: later, iterator)

/-- Performs one operation. -/
def perform (session : Session σ) : Operation → Reply × Session σ
  | .computeNext cancelled pulls =>
      let (result, session) := session.computeNext cancelled pulls
      (.outcome (result.map fun _ => ()), session)
  | .computeAll cancelled pulls =>
      let (result, session) := session.computeAll cancelled pulls
      (.outcome (result.map fun _ => ()), session)
  | .first cancelled pulls =>
      let (result, session) := session.first cancelled pulls
      (.outcome result, session)
  | .next cancelled pulls =>
      let (result, session) := session.next cancelled pulls
      (.outcome result, session)
  | .last cancelled pulls =>
      let (result, session) := session.last cancelled pulls
      (.outcome result, session)
  | .previous => (.outcome (.ok ()), session.previous)
  | .moveTo index =>
      let (result, session) := session.moveTo index
      (.outcome result, session)
  | .iterate requests =>
      let (given, iterator) := iterate requests { session }
      (.items given, iterator.session)

/-- The session after some operations. -/
def performAll (session : Session σ) (operations : List Operation) :
    Session σ :=
  operations.foldl (fun session operation => (session.perform operation).2)
    session

/-- Moves the cursor to a place in the list, unless an error came first. -/
def advanceTo (target : Nat) :
    Except UnificationError Bool × Session σ →
      Except UnificationError Unit × Session σ
  | (.error error, session) => (.error error, session)
  | (.ok _, session) =>
      (.ok (),
        if target < session.size then { session with cursor := some target }
        else session)

/-- Moves the cursor to a place in the list.  If the list ends there, one more
unifier is searched for. -/
def seek (cancelled : CancelSchedule) (target pulls : Nat)
    (session : Session σ) : Except UnificationError Unit × Session σ :=
  advanceTo target
    (if session.size ≤ target then session.computeNext cancelled pulls
      else (.ok true, session))

theorem seek_of_lt (cancelled : CancelSchedule) {target : Nat} (pulls : Nat)
    {session : Session σ} (listed : target < session.size) :
    session.seek cancelled target pulls =
      (.ok (), { session with cursor := some target }) := by
  rw [seek, if_neg (Nat.not_le_of_lt listed), advanceTo, if_pos listed]

theorem seek_of_le (cancelled : CancelSchedule) {target : Nat} (pulls : Nat)
    {session : Session σ} (reached : session.size ≤ target) :
    session.seek cancelled target pulls =
      advanceTo target (session.computeNext cancelled pulls) := by
  rw [seek, if_pos reached]

theorem first_eq_seek (cancelled : CancelSchedule) (pulls : Nat)
    (session : Session σ) :
    session.first cancelled pulls = session.seek cancelled 0 pulls := by
  have needed : (session.size == 0) = true ↔ session.size ≤ 0 := by
    rw [beq_iff_eq, Nat.le_zero]
  rw [first, seek]
  simp only [needed]
  generalize (if session.size ≤ 0 then session.computeNext cancelled pulls
    else (.ok true, session)) = result
  obtain ⟨outcome, after⟩ := result
  cases outcome with
  | error => rfl
  | ok => rfl

/-- The index after the cursor, which is the first one if there is no cursor. -/
def following (session : Session σ) : Nat :=
  (session.cursor.map (· + 1)).getD 0

theorem next_eq_seek (cancelled : CancelSchedule) (pulls : Nat)
    (session : Session σ) :
    session.next cancelled pulls =
      session.seek cancelled session.following pulls := by
  rw [next, seek, following]
  generalize (if session.size ≤ (session.cursor.map (· + 1)).getD 0 then
    session.computeNext cancelled pulls else (.ok true, session)) = result
  obtain ⟨outcome, after⟩ := result
  cases outcome with
  | error => rfl
  | ok => rfl

section Searches

variable {cancelled : CancelSchedule} {before after : Session σ} {asked : Nat}

theorem Searches.computes {outcome : Except UnificationError Bool}
    (searches : before.Searches cancelled asked outcome after) :
    before.Computes after outcome := by
  induction searches with
  | found pulls =>
      cases pulls with
      | found => exact .found rfl rfl
  | exhausted pulls =>
      cases pulls with
      | exhausted => exact .exhausted rfl rfl
      | ended allFound => exact .exhausted rfl allFound
  | failed pulls =>
      cases pulls with
      | foreign => exact .failed rfl rfl
      | failed => exact .failed rfl rfl
  | duplicate pulls _ induction =>
      cases pulls with
      | duplicate => exact induction.of_same rfl rfl

theorem Skips.computes (skips : before.Skips cancelled asked after) :
    before.Computes after (.error .pullLimitReached) := by
  induction skips with
  | none => exact .failed rfl rfl
  | duplicate pulls _ induction =>
      cases pulls with
      | duplicate => exact induction.of_same rfl rfl

/-- Only when there are no more unifiers, all of them are computed, and an error
leaves open whether there are more. -/
theorem Collects.allFound_eq {outcome : Except UnificationError Nat}
    (collects : before.Collects cancelled asked outcome after) :
    match outcome with
    | .ok _ => after.allFound = true
    | .error _ => after.allFound = before.allFound := by
  induction collects with
  | exhausted searches =>
      cases searches.computes with
      | exhausted _ allFound => exact allFound
  | failed searches =>
      cases searches.computes with
      | failed _ allFound => exact allFound
  | @found _ _ _ _ _ outcome searches _ induction =>
      cases searches.computes with
      | found _ allFound =>
      cases outcome with
      | ok => exact induction
      | error => exact induction.trans allFound

theorem Gathers.allFound_eq (gathers : before.Gathers cancelled asked after) :
    after.allFound = before.allFound := by
  induction gathers with
  | skips skips =>
      cases skips.computes with
      | failed _ allFound => exact allFound
  | found searches _ induction =>
      cases searches.computes with
      | found _ allFound => exact induction.trans allFound

end Searches

theorem computes_computeNext (cancelled : CancelSchedule) (pulls : Nat)
    (session : Session σ) :
    session.Asks (session.computeNext cancelled pulls).2 ∧
      session.Computes (session.computeNext cancelled pulls).2
        (session.computeNext cancelled pulls).1 := by
  rcases (bounded_computeNext cancelled session).cases pulls with
    ⟨asked, _, searches⟩ | ⟨after, skips, stopped⟩
  · exact ⟨searches.asks, searches.computes⟩
  · rw [stopped]
    exact ⟨skips.asks, skips.computes⟩

theorem allFound_computeNext (cancelled : CancelSchedule) (pulls : Nat)
    (session : Session σ) {error : UnificationError}
    (failed : (session.computeNext cancelled pulls).1 = .error error) :
    (session.computeNext cancelled pulls).2.allFound = session.allFound := by
  obtain ⟨_, computes⟩ := computes_computeNext cancelled pulls session
  rw [failed] at computes
  cases computes with
  | failed _ allFound => exact allFound

theorem asks_computeAll (cancelled : CancelSchedule) (pulls : Nat)
    (session : Session σ) :
    session.Asks (session.computeAll cancelled pulls).2 ∧
      ∀ error, (session.computeAll cancelled pulls).1 = .error error →
        (session.computeAll cancelled pulls).2.allFound = session.allFound := by
  rcases (bounded_computeAll cancelled session).cases pulls with
    ⟨asked, _, collects⟩ | ⟨after, gathers, stopped⟩
  · refine ⟨collects.asks, ?_⟩
    intro error failed
    rw [failed] at collects
    exact collects.allFound_eq
  · rw [stopped]
    exact ⟨gathers.asks, fun _ _ => gathers.allFound_eq⟩

/-- What an iterator that has not ended gives, and how often the engine is asked
for it. -/
inductive Delivers (cancelled : CancelSchedule) (before : Session σ) :
    Nat → Option (Except UnificationError Unifier) → UnifierIterator σ → Prop
  | found {asked : Nat} {after : Session σ} {unifier : Unifier}
      (searches : before.Searches cancelled asked (.ok true) after)
      (listed : after.unifiers = before.unifiers.push unifier) :
      Delivers cancelled before asked (some (.ok unifier)) { session := after }
  | exhausted {asked : Nat} {after : Session σ}
      (searches : before.Searches cancelled asked (.ok false) after) :
      Delivers cancelled before asked none { session := after, ended := true }
  | failed {asked : Nat} {after : Session σ} {error : UnificationError}
      (searches : before.Searches cancelled asked (.error error) after) :
      Delivers cancelled before asked (some (.error error))
        { session := after, ended := true }

theorem bounded_next_iterator (cancelled : CancelSchedule)
    (session : Session σ) :
    Bounded (fun pulls => UnifierIterator.next cancelled pulls { session })
      (session.Delivers cancelled) (session.Skips cancelled)
      fun after => (some (.error .pullLimitReached),
        { session := after, ended := true }) where
  enough := by
    intro asked item iterator delivers pulls enough
    cases delivers with
    | found searches listed =>
        simp [UnifierIterator.next, computeNext_of_searches searches enough,
          listed]
    | exhausted searches =>
        simp [UnifierIterator.next, computeNext_of_searches searches enough]
    | failed searches =>
        simp [UnifierIterator.next, computeNext_of_searches searches enough]
  spent := by
    intro pulls after skips
    simp [UnifierIterator.next, computeNext_of_skips skips]
  decided := by
    intro pulls
    rcases searches_or_skips cancelled pulls session with
      ⟨asked, outcome, after, within, searches⟩ | spends
    · left
      cases searches.computes with
      | found listed => exact ⟨asked, _, _, within, .found searches listed⟩
      | exhausted => exact ⟨asked, _, _, within, .exhausted searches⟩
      | failed => exact ⟨asked, _, _, within, .failed searches⟩
    · exact .inr spends

/-- An iterator that has ended gives nothing more. -/
theorem iterate_ended (requests : List (CancelSchedule × Nat))
    (session : Session σ) :
    iterate requests { session, ended := true } =
      (List.replicate requests.length none, { session, ended := true }) := by
  induction requests with
  | nil => rfl
  | cons request requests induction =>
      have next : UnifierIterator.next request.1 request.2
          { session, ended := true } = (none, { session, ended := true }) := by
        simp [UnifierIterator.next]
      simp only [iterate, next, induction]
      rfl

/-- An iterator gives the unifiers that its requests add to the list, until it
ends. -/
theorem exists_items_iterate (requests : List (CancelSchedule × Nat))
    (session : Session σ) :
    session.Asks (iterate requests { session }).2.session ∧
      ∃ appended ending,
        (iterate requests { session }).1 =
          appended.map (fun unifier => some (.ok unifier)) ++ ending ∧
        (iterate requests { session }).2.session.unifiers.toList =
          session.unifiers.toList ++ appended ∧
        session.Ending (iterate requests { session }).2.session ending := by
  induction requests generalizing session with
  | nil => exact ⟨.refl _, [], [], rfl, by simp [iterate], .going rfl⟩
  | cons request requests induction =>
      obtain ⟨asks, computes⟩ :=
        computes_computeNext request.1 request.2 session
      simp only [iterate, UnifierIterator.next, Bool.false_eq_true, if_false]
      generalize session.computeNext request.1 request.2 = result
        at asks computes ⊢
      obtain ⟨outcome, between⟩ := result
      dsimp only at asks computes
      cases computes with
      | @found unifier listed allFound =>
          obtain ⟨asks', appended, ending, items, listed', ends⟩ :=
            induction between
          refine ⟨asks.trans asks', unifier :: appended, ending, ?_, ?_, ?_⟩
          · simp [items, listed]
          · simp [listed', listed]
          · cases ends with
            | going same => exact .going (same.trans allFound)
            | exhausted later all => exact .exhausted later all
            | failed error later same =>
                exact .failed error later (same.trans allFound)
      | exhausted listed allFound =>
          simp only [iterate_ended]
          refine ⟨asks, [], none :: List.replicate requests.length none, rfl,
            by simp [listed], ?_⟩
          exact .exhausted requests.length allFound
      | @failed error listed allFound =>
          simp only [iterate_ended]
          refine ⟨asks, [], some (.error error) ::
            List.replicate requests.length none, rfl, by simp [listed], ?_⟩
          exact .failed error requests.length allFound

/-- What an operation does to a session: it asks the engine, and unless it fails
it may then move the cursor.  An error leaves the flag as it is. -/
inductive Operates (before : Session σ) : Reply → Session σ → Prop
  | asked {reply : Reply} {after : Session σ} (asks : before.Asks after)
      (failed : ∀ error, reply.Reports error →
        after.allFound = before.allFound) :
      Operates before reply after
  | moved {between : Session σ} (asks : before.Asks between)
      (cursor : Option Nat) :
      Operates before (.outcome (.ok ())) { between with cursor }

theorem Operates.of_outcome {α : Type} {before after : Session σ}
    {outcome : Except UnificationError α} (asks : before.Asks after)
    (failed : ∀ error, outcome = .error error →
      after.allFound = before.allFound) :
    before.Operates (.outcome (outcome.map fun _ => ())) after := by
  cases outcome with
  | error error => exact .asked asks fun _ _ => failed error rfl
  | ok =>
      exact .asked asks fun error reports =>
        (Reply.not_reports_ok error reports).elim

theorem operates_seek (cancelled : CancelSchedule) (target pulls : Nat)
    (session : Session σ) :
    session.Operates (.outcome (session.seek cancelled target pulls).1)
      (session.seek cancelled target pulls).2 := by
  rcases Nat.lt_or_ge target session.size with listed | reached
  · rw [seek_of_lt cancelled pulls listed]
    exact .moved (.refl session) _
  · rw [seek_of_le cancelled pulls reached]
    obtain ⟨asks, _⟩ := computes_computeNext cancelled pulls session
    have failed := @allFound_computeNext _ _ cancelled pulls session
    generalize session.computeNext cancelled pulls = result at asks failed ⊢
    obtain ⟨outcome, after⟩ := result
    cases outcome with
    | error => exact .asked asks fun _ _ => failed rfl
    | ok =>
        simp only [advanceTo]
        split
        · exact .moved asks _
        · exact .asked asks fun error reports =>
            (Reply.not_reports_ok error reports).elim

theorem operates_perform (operation : Operation) (session : Session σ) :
    session.Operates (session.perform operation).1
      (session.perform operation).2 := by
  cases operation with
  | computeNext cancelled pulls =>
      obtain ⟨asks, _⟩ := computes_computeNext cancelled pulls session
      exact .of_outcome asks fun _ =>
        allFound_computeNext cancelled pulls session
  | computeAll cancelled pulls =>
      obtain ⟨asks, failed⟩ := asks_computeAll cancelled pulls session
      exact .of_outcome asks failed
  | first cancelled pulls =>
      simp only [perform, first_eq_seek]
      exact operates_seek cancelled 0 pulls session
  | next cancelled pulls =>
      simp only [perform, next_eq_seek]
      exact operates_seek cancelled session.following pulls session
  | last cancelled pulls =>
      obtain ⟨asks, failed⟩ := asks_computeAll cancelled pulls session
      simp only [perform, last]
      generalize session.computeAll cancelled pulls = result at asks failed ⊢
      obtain ⟨outcome, after⟩ := result
      cases outcome with
      | error error => exact .asked asks fun _ _ => failed error rfl
      | ok => exact .moved asks _
  | previous => exact .moved (.refl session) _
  | moveTo index =>
      simp only [perform, moveTo]
      split
      · exact .moved (.refl session) _
      · exact .asked (.refl session) fun _ _ => rfl
  | iterate requests =>
      obtain ⟨asks, appended, ending, given, _, ends⟩ :=
        exists_items_iterate requests session
      apply Operates.asked asks
      intro error failed
      replace failed : some (.error error) ∈ (iterate requests { session }).1 :=
        failed
      rw [given, List.mem_append] at failed
      rcases failed with listed | failed
      · obtain ⟨_, _, same⟩ := List.mem_map.mp listed
        cases same
      · exact ends.allFound_eq failed

end Operations

end Session

end ConceptUnification
