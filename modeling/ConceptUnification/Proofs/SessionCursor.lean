import ConceptUnification.Proofs.SessionHistory

/-!
# The cursor of a session

Some operations move the cursor, and the list of unifiers only grows, so the
cursor stays inside the list.  A request for the next unifier moves it by one,
unless the last unifier is reached and there are no more.  So repeated requests
visit the later unifiers one after the other, and all of them if the engine has
no errors and the pulls are enough.
-/

namespace ConceptUnification

namespace Session

variable {σ : Type}

/-- If there is a cursor, it is the index of a listed unifier. -/
def Inside (session : Session σ) : Prop :=
  ∀ index, session.cursor = some index → index < session.size

section Inside

variable {session : Session σ}

theorem inside_new (goal : Goal) (engine : σ) :
    (Session.new goal engine).Inside := by
  intro index placed
  cases placed

theorem Inside.following_le (inside : session.Inside) :
    session.following ≤ session.size := by
  unfold following
  cases cursor : session.cursor with
  | none => exact Nat.zero_le _
  | some index => exact inside index cursor

theorem Inside.current?_eq_none_iff (inside : session.Inside) :
    session.current? = none ↔ session.cursor = none := by
  unfold current?
  cases cursor : session.cursor with
  | none => simp
  | some index =>
      have bound : index < session.unifiers.size := inside index cursor
      simpa using bound

/-- The index after the cursor determines the cursor. -/
theorem cursor_eq_of_following_eq {other : Session σ}
    (same : session.following = other.following) :
    session.cursor = other.cursor := by
  unfold following at same
  cases left : session.cursor with
  | none =>
      cases right : other.cursor with
      | none => rfl
      | some index => simp [left, right] at same
  | some index =>
      cases right : other.cursor with
      | none => simp [left, right] at same
      | some index' => simpa [left, right] using same

end Inside

/-- What every operation keeps of the list: it only grows, and no more when all
unifiers were found. -/
structure Continues (before after : Session σ) : Prop where
  listed : before.unifiers.toList <+: after.unifiers.toList
  ended : before.allFound = true →
    after.unifiers = before.unifiers ∧ after.allFound = true

section Continues

variable {before between after : Session σ}

theorem Continues.refl (session : Session σ) : session.Continues session where
  listed := List.prefix_refl _
  ended := fun allFound => ⟨rfl, allFound⟩

theorem Continues.trans (first : before.Continues between)
    (second : between.Continues after) : before.Continues after where
  listed := first.listed.trans second.listed
  ended := by
    intro allFound
    obtain ⟨same, still⟩ := first.ended allFound
    obtain ⟨same', still'⟩ := second.ended still
    exact ⟨same'.trans same, still'⟩

theorem Continues.size_le (continues : before.Continues after) :
    before.size ≤ after.size :=
  continues.listed.length_le

theorem Continues.inside (continues : before.Continues after)
    (inside : before.Inside) (cursor : after.cursor = before.cursor) :
    after.Inside := by
  intro index placed
  rw [cursor] at placed
  exact Nat.lt_of_lt_of_le (inside index placed) continues.size_le

/-- A unifier that is listed now keeps its place. -/
theorem Continues.getElem?_eq (continues : before.Continues after) {index : Nat}
    (bound : index < before.size) :
    before.unifiers[index]? = after.unifiers[index]? := by
  obtain ⟨rest, same⟩ := continues.listed
  rw [← Array.getElem?_toList, ← Array.getElem?_toList, ← same]
  exact (List.getElem?_append_left bound).symm

theorem Continues.exists_drop_eq (continues : before.Continues after)
    {index : Nat} (bound : index < before.size) :
    ∃ unifier, before.unifiers[index]? = some unifier ∧
      after.unifiers.toList.drop index =
        unifier :: after.unifiers.toList.drop (index + 1) := by
  have bound' : index < after.unifiers.toList.length :=
    Nat.lt_of_lt_of_le bound continues.size_le
  refine ⟨after.unifiers.toList[index], ?_, List.drop_eq_getElem_cons bound'⟩
  rw [continues.getElem?_eq bound, ← Array.getElem?_toList,
    List.getElem?_eq_getElem bound']

end Continues

/-- What a walk from one session to another one answers, errors apart: the
unifiers after the cursor one by one, none left out and none twice, and only
after the end of a complete list the last one again. -/
inductive Visits (before after : Session σ) :
    List (Option Unifier) → Prop
  | of_later (visited : List Unifier) (repeated : Nat)
      (later : visited <+: after.unifiers.toList.drop before.following)
      (moved : after.following = before.following + visited.length)
      (complete : repeated ≠ 0 → after.allFound = true ∧
        visited = after.unifiers.toList.drop before.following) :
      Visits before after
        (visited.map some ++ List.replicate repeated after.current?)

section Visits

variable {before between after : Session σ} {given : List (Option Unifier)}
  (visits : between.Visits after given)

include visits

theorem Visits.of_following_eq (same : between.following = before.following) :
    before.Visits after given := by
  cases visits with
  | of_later visited repeated later moved complete =>
      rw [same] at later moved complete
      exact .of_later visited repeated later moved complete

/-- The cursor moved to a unifier that is still listed. -/
theorem Visits.cons_of_moved {unifier : Unifier}
    (following : between.following = before.following + 1)
    (drop : after.unifiers.toList.drop before.following =
      unifier :: after.unifiers.toList.drop (before.following + 1)) :
    before.Visits after (some unifier :: given) := by
  cases visits with
  | of_later visited repeated later moved complete =>
      rw [following] at later moved complete
      refine .of_later (unifier :: visited) repeated ?_ ?_ ?_
      · rw [drop]
        exact List.cons_prefix_cons.mpr ⟨rfl, later⟩
      · rw [moved, List.length_cons]
        omega
      · intro again
        obtain ⟨allFound, same⟩ := complete again
        exact ⟨allFound, by rw [drop, ← same]⟩

/-- The cursor stayed at the end of a list that is complete. -/
theorem Visits.cons_of_stayed
    (following : between.following = before.following)
    (reached : between.size = before.following)
    (same : after.unifiers = between.unifiers)
    (allFound : after.allFound = true) :
    before.Visits after (between.current? :: given) := by
  have nothing : after.unifiers.toList.drop before.following = [] := by
    rw [same, ← reached]
    exact List.drop_length
  cases visits with
  | of_later visited repeated later moved =>
      rw [following] at later moved
      rw [nothing] at later
      obtain rfl := List.prefix_nil.mp later
      have cursor : after.cursor = between.cursor :=
        cursor_eq_of_following_eq (moved.trans following.symm)
      have current : between.current? = after.current? := by
        rw [current?, current?, cursor, same]
      rw [current]
      exact .of_later [] (repeated + 1) List.nil_prefix moved
        fun _ => ⟨allFound, nothing.symm⟩

end Visits

/-- The cursor can be put at any listed unifier. -/
theorem inside_of_some {session : Session σ} {target : Nat}
    (bound : target < session.size) :
    Inside { session with cursor := some target } := by
  intro index placed
  cases placed
  exact bound

theorem inside_advanceTo (target : Nat)
    {computed : Except UnificationError Bool × Session σ}
    (inside : computed.2.Inside) : (advanceTo target computed).2.Inside := by
  obtain ⟨outcome, after⟩ := computed
  cases outcome with
  | error => exact inside
  | ok =>
      simp only [advanceTo]
      split
      · next bound => exact inside_of_some bound
      · exact inside

variable [Engine σ]

theorem Asks.continues {before after : Session σ} (asks : before.Asks after) :
    before.Continues after where
  listed := asks.keeps.listed
  ended := by
    intro allFound
    rw [asks.keeps.ended allFound]
    exact ⟨rfl, allFound⟩

theorem Inside.asks {before after : Session σ} (inside : before.Inside)
    (asks : before.Asks after) : after.Inside :=
  asks.continues.inside inside asks.keeps.cursor

section Requests

/-- What a request for the unifier at a place comes to, and how often the engine
is asked.  It is asked only if the list ends there. -/
inductive Seeks (cancelled : CancelSchedule) (target : Nat)
    (before : Session σ) :
    Nat → Except UnificationError Unit → Session σ → Prop
  | listed (bound : target < before.size) :
      Seeks cancelled target before 0 (.ok ())
        { before with cursor := some target }
  | found {asked : Nat} {after : Session σ} (reached : before.size = target)
      (searches : before.Searches cancelled asked (.ok true) after) :
      Seeks cancelled target before asked (.ok ())
        { after with cursor := some target }
  | exhausted {asked : Nat} {after : Session σ} (reached : before.size = target)
      (searches : before.Searches cancelled asked (.ok false) after) :
      Seeks cancelled target before asked (.ok ()) after
  | failed {asked : Nat} {after : Session σ} {error : UnificationError}
      (reached : before.size = target)
      (searches : before.Searches cancelled asked (.error error) after) :
      Seeks cancelled target before asked (.error error) after

/-- What a request for the last unifier comes to, and how often the engine is
asked. -/
inductive Completes (cancelled : CancelSchedule) (before : Session σ) :
    Nat → Except UnificationError Unit → Session σ → Prop
  | empty {asked found : Nat} {after : Session σ}
      (collects : before.Collects cancelled asked (.ok found) after)
      (size : after.size = 0) :
      Completes cancelled before asked (.ok ()) { after with cursor := none }
  | last {asked found index : Nat} {after : Session σ}
      (collects : before.Collects cancelled asked (.ok found) after)
      (size : after.size = index + 1) :
      Completes cancelled before asked (.ok ())
        { after with cursor := some index }
  | failed {asked : Nat} {after : Session σ} {error : UnificationError}
      (collects : before.Collects cancelled asked (.error error) after) :
      Completes cancelled before asked (.error error) after

theorem bounded_seek (cancelled : CancelSchedule) {target : Nat}
    {session : Session σ} (within : target ≤ session.size) :
    Bounded (fun pulls => session.seek cancelled target pulls)
      (session.Seeks cancelled target)
      (fun pulls after =>
        session.size = target ∧ session.Skips cancelled pulls after)
      (.error .pullLimitReached, ·) where
  enough := by
    intro asked outcome after seeks pulls enough
    cases seeks with
    | listed bound => exact seek_of_lt cancelled pulls bound
    | @found _ between reached searches =>
        have size : between.size = session.size + 1 := searches.computes.size_eq
        have bound : target < between.size := by omega
        rw [seek_of_le cancelled pulls (Nat.le_of_eq reached),
          computeNext_of_searches searches enough, advanceTo, if_pos bound]
    | exhausted reached searches =>
        have size : after.size = session.size := searches.computes.size_eq
        have bound : ¬ target < after.size := by omega
        rw [seek_of_le cancelled pulls (Nat.le_of_eq reached),
          computeNext_of_searches searches enough, advanceTo, if_neg bound]
    | failed reached searches =>
        rw [seek_of_le cancelled pulls (Nat.le_of_eq reached),
          computeNext_of_searches searches enough, advanceTo]
  spent := by
    intro pulls after spends
    obtain ⟨reached, skips⟩ := spends
    rw [seek_of_le cancelled pulls (Nat.le_of_eq reached),
      computeNext_of_skips skips, advanceTo]
  decided := by
    intro pulls
    rcases Nat.lt_or_eq_of_le within with listed | same
    · exact .inl ⟨0, _, _, Nat.zero_le pulls, .listed listed⟩
    · have reached : session.size = target := same.symm
      rcases searches_or_skips cancelled pulls session with
        ⟨asked, outcome, after, asked_le, searches⟩ | ⟨after, skips⟩
      · left
        cases outcome with
        | error _ => exact ⟨asked, _, _, asked_le, .failed reached searches⟩
        | ok found =>
            cases found with
            | true => exact ⟨asked, _, _, asked_le, .found reached searches⟩
            | false =>
                exact ⟨asked, _, _, asked_le, .exhausted reached searches⟩
      · exact .inr ⟨after, reached, skips⟩

theorem bounded_last (cancelled : CancelSchedule) (session : Session σ) :
    Bounded (fun pulls => session.last cancelled pulls)
      (session.Completes cancelled) (session.Gathers cancelled)
      (.error .pullLimitReached, ·) where
  enough := by
    intro asked outcome after completes pulls enough
    cases completes with
    | empty collects size =>
        simp [last, computeAll_of_collects collects enough, size]
    | last collects size =>
        simp [last, computeAll_of_collects collects enough, size]
    | failed collects => simp [last, computeAll_of_collects collects enough]
  spent := by
    intro pulls after gathers
    simp [last, computeAll_of_gathers gathers]
  decided := by
    intro pulls
    rcases collects_or_gathers cancelled pulls session with
      ⟨asked, outcome, after, asked_le, collects⟩ | spends
    · left
      cases outcome with
      | error => exact ⟨asked, _, _, asked_le, .failed collects⟩
      | ok found =>
          cases size : after.size with
          | zero => exact ⟨asked, _, _, asked_le, .empty collects size⟩
          | succ index => exact ⟨asked, _, _, asked_le, .last collects size⟩
    · exact .inr spends

end Requests

/-- No operation moves the cursor out of the list. -/
theorem Inside.perform {session : Session σ} (inside : session.Inside)
    (operation : Operation) : (session.perform operation).2.Inside := by
  have seeks : ∀ cancelled target pulls,
      (session.seek cancelled target pulls).2.Inside := by
    intro cancelled target pulls
    rcases Nat.lt_or_ge target session.size with listed | reached
    · rw [seek_of_lt cancelled pulls listed]
      exact inside_of_some listed
    · rw [seek_of_le cancelled pulls reached]
      exact inside_advanceTo _
        (inside.asks (computes_computeNext cancelled pulls session).1)
  cases operation with
  | computeNext cancelled pulls =>
      exact inside.asks (computes_computeNext cancelled pulls session).1
  | computeAll cancelled pulls =>
      exact inside.asks (asks_computeAll cancelled pulls session).1
  | first cancelled pulls =>
      simp only [Session.perform, first_eq_seek]
      exact seeks cancelled 0 pulls
  | next cancelled pulls =>
      simp only [Session.perform, next_eq_seek]
      exact seeks cancelled session.following pulls
  | last cancelled pulls =>
      simp only [Session.perform]
      rcases (bounded_last cancelled session).cases pulls with
        ⟨asked, _, completes⟩ | ⟨after, gathers, stopped⟩
      · generalize session.last cancelled pulls = result at completes ⊢
        obtain ⟨outcome, after⟩ := result
        cases completes with
        | empty =>
            intro index placed
            cases placed
        | last _ size =>
            apply inside_of_some
            rw [size]
            exact Nat.lt_succ_self _
        | failed collects => exact inside.asks collects.asks
      · rw [stopped]
        exact inside.asks gathers.asks
  | previous =>
      intro index placed
      obtain ⟨earlier, placed', rfl⟩ := Option.map_eq_some_iff.mp placed
      exact Nat.lt_of_le_of_lt (Nat.sub_le earlier 1) (inside earlier placed')
  | moveTo index =>
      simp only [Session.perform, moveTo]
      split
      · next bound => exact inside_of_some bound
      · exact inside
  | iterate requests =>
      exact inside.asks (exists_items_iterate requests session).1

theorem Inside.performAll {session : Session σ} (inside : session.Inside)
    (operations : List Operation) :
    (session.performAll operations).Inside := by
  induction operations generalizing session with
  | nil => exact inside
  | cons operation operations induction =>
      exact induction (inside.perform operation)

/-- What a request for the next unifier does to the cursor. -/
inductive Advances (before after : Session σ) :
    Except UnificationError Unit → Prop
  | moved (cursor : after.cursor = some before.following)
      (bound : before.following < after.size) : Advances before after (.ok ())
  | stayed (cursor : after.cursor = before.cursor)
      (allFound : after.allFound = true)
      (reached : after.size = before.following) :
      Advances before after (.ok ())
  | failed {error : UnificationError}
      (cursor : after.cursor = before.cursor)
      (reached : before.size = before.following) :
      Advances before after (.error error)

theorem Seeks.advances {cancelled : CancelSchedule} {asked : Nat}
    {outcome : Except UnificationError Unit} {before after : Session σ}
    (seeks : before.Seeks cancelled before.following asked outcome after) :
    before.Continues after ∧ before.Advances after outcome := by
  cases seeks with
  | listed bound =>
      exact ⟨⟨List.prefix_refl _, fun allFound => ⟨rfl, allFound⟩⟩,
        .moved rfl bound⟩
  | @found _ between reached searches =>
      have continues := searches.asks.continues
      have size : between.size = before.size + 1 := searches.computes.size_eq
      exact ⟨⟨continues.listed, continues.ended⟩, .moved rfl
        (show before.following < between.size by omega)⟩
  | exhausted reached searches =>
      have size : after.size = before.size := searches.computes.size_eq
      cases searches.computes with
      | exhausted _ allFound =>
          exact ⟨searches.asks.continues, .stayed searches.asks.keeps.cursor
            allFound (size.trans reached)⟩
  | failed reached searches =>
      exact ⟨searches.asks.continues,
        .failed searches.asks.keeps.cursor reached⟩

theorem Inside.bounded_next {session : Session σ} (inside : session.Inside)
    (cancelled : CancelSchedule) :
    Bounded (fun pulls => session.next cancelled pulls)
      (session.Seeks cancelled session.following)
      (fun pulls after => session.size = session.following ∧
        session.Skips cancelled pulls after)
      (.error .pullLimitReached, ·) := by
  simp only [next_eq_seek]
  exact bounded_seek cancelled inside.following_le

theorem Inside.advances {session : Session σ} (inside : session.Inside)
    (cancelled : CancelSchedule) (pulls : Nat) :
    session.Continues (session.next cancelled pulls).2 ∧
      session.Advances (session.next cancelled pulls).2
        (session.next cancelled pulls).1 := by
  rcases (inside.bounded_next cancelled).cases pulls with
    ⟨asked, _, seeks⟩ | ⟨after, ⟨reached, skips⟩, stopped⟩
  · exact seeks.advances
  · rw [stopped]
    exact ⟨skips.asks.continues, .failed skips.asks.keeps.cursor reached⟩

/-- The answers to some requests for the next unifier, each with the unifier at
the cursor or with an error. -/
def walk : List (CancelSchedule × Nat) → Session σ →
    List (Except UnificationError (Option Unifier)) × Session σ
  | [], session => ([], session)
  | (cancelled, pulls) :: requests, session =>
      let (outcome, session) := session.next cancelled pulls
      let (later, final) := walk requests session
      (outcome.map (fun _ => session.current?) :: later, final)

theorem continues_walk (requests : List (CancelSchedule × Nat))
    {session : Session σ} (inside : session.Inside) :
    session.Continues (walk requests session).2 := by
  induction requests generalizing session with
  | nil => exact .refl session
  | cons request requests induction =>
      obtain ⟨continues, _⟩ := inside.advances request.1 request.2
      exact continues.trans
        (induction (inside.perform (.next request.1 request.2)))

/-- Repeated requests for the next unifier visit the later ones in order. -/
theorem Inside.visits (requests : List (CancelSchedule × Nat))
    {session : Session σ} (inside : session.Inside) :
    session.Visits (walk requests session).2
      ((walk requests session).1.filterMap Except.toOption) := by
  induction requests generalizing session with
  | nil => exact .of_later [] 0 List.nil_prefix rfl (by simp)
  | cons request requests induction =>
      obtain ⟨cancelled, pulls⟩ := request
      have inside' := inside.perform (.next cancelled pulls)
      have continues := continues_walk requests inside'
      have visits := induction inside'
      obtain ⟨_, advances⟩ := inside.advances cancelled pulls
      -- The walk goes on from where the first request leads.
      simp only [walk]
      simp only [Session.perform] at inside' continues visits
      generalize session.next cancelled pulls = result
        at advances inside' continues visits ⊢
      obtain ⟨outcome, between⟩ := result
      dsimp only at advances inside' continues visits ⊢
      generalize walk requests between = walked at continues visits ⊢
      obtain ⟨answers, final⟩ := walked
      dsimp only at continues visits ⊢
      cases advances with
      | moved cursor bound =>
          obtain ⟨unifier, listed, drop⟩ := continues.exists_drop_eq bound
          have following : between.following = session.following + 1 := by
            simp [Session.following, cursor]
          have current : between.current? = some unifier := by
            rw [current?, cursor]
            exact listed
          rw [Except.map, current]
          exact visits.cons_of_moved following drop
      | stayed cursor allFound reached =>
          obtain ⟨same, still⟩ := continues.ended allFound
          exact visits.cons_of_stayed (by rw [following, cursor, following])
            reached same still
      | failed cursor =>
          exact visits.of_following_eq (by rw [following, cursor, following])

section Complete

variable {cancelled : CancelSchedule} {asked : Nat}

/-- Where the cursor is makes no difference to a search. -/
theorem Pulls.withCursor {before after : Session σ} {pull : Pull}
    (pulls : before.Pulls cancelled pull after) (cursor : Option Nat) :
    Pulls cancelled { before with cursor } pull { after with cursor } := by
  cases pulls with
  | found running answer keyed fresh =>
      exact .found running answer keyed fresh
  | duplicate running answer keyed known =>
      exact .duplicate running answer keyed known
  | foreign running answer unkeyed => exact .foreign running answer unkeyed
  | failed running answer => exact .failed running answer
  | exhausted running answer => exact .exhausted running answer
  | ended allFound => exact .ended allFound

theorem Searches.withCursor {before after : Session σ}
    {outcome : Except UnificationError Bool}
    (searches : before.Searches cancelled asked outcome after)
    (cursor : Option Nat) :
    Searches cancelled { before with cursor } asked outcome
      { after with cursor } := by
  induction searches with
  | found pulls => exact .found (pulls.withCursor cursor)
  | exhausted pulls => exact .exhausted (pulls.withCursor cursor)
  | failed pulls => exact .failed (pulls.withCursor cursor)
  | duplicate pulls _ induction =>
      exact .duplicate (pulls.withCursor cursor) induction

theorem Collects.withCursor {before after : Session σ}
    {outcome : Except UnificationError Nat}
    (collects : before.Collects cancelled asked outcome after)
    (cursor : Option Nat) :
    Collects cancelled { before with cursor } asked outcome
      { after with cursor } := by
  induction collects with
  | exhausted searches => exact .exhausted (searches.withCursor cursor)
  | failed searches => exact .failed (searches.withCursor cursor)
  | found searches _ induction =>
      exact .found (searches.withCursor cursor) induction

/-- A step forward of a session that collects `unifiers` within some number of
pulls: it ends at the next of them, or stays at the last, and collects the same
from there. -/
structure Proceeds (cancelled : CancelSchedule) (pulls : Nat)
    (unifiers : Array Unifier) (before after : Session σ) : Prop where
  inside : after.Inside
  following : after.following = min (before.following + 1) unifiers.size
  current : after.current? = unifiers[min before.following (unifiers.size - 1)]?
  collects : ∃ asked found final, asked ≤ pulls ∧
    after.Collects cancelled asked (.ok found) final ∧ final.unifiers = unifiers

theorem Proceeds.of_moved {pulls found : Nat} {before between final : Session σ}
    (bound : before.following < between.size)
    (collects : between.Collects cancelled asked (.ok found) final)
    (enough : asked ≤ pulls) :
    before.Proceeds cancelled pulls final.unifiers
      { between with cursor := some before.following } := by
  have continues := collects.asks.continues
  have bound' : before.following < final.unifiers.size :=
    Nat.lt_of_lt_of_le bound continues.size_le
  have last : min before.following (final.unifiers.size - 1) =
      before.following := by
    omega
  refine ⟨inside_of_some bound, (Nat.min_eq_left bound').symm, ?_,
    asked, found, _, enough, collects.withCursor _, rfl⟩
  rw [last, ← continues.getElem?_eq bound]
  rfl

theorem Proceeds.of_stayed {pulls : Nat} {before after : Session σ}
    (inside : before.Inside) (reached : before.size = before.following)
    (searches : before.Searches cancelled asked (.ok false) after)
    (enough : asked ≤ pulls) :
    before.Proceeds cancelled pulls after.unifiers after := by
  have cursor : after.cursor = before.cursor := searches.asks.keeps.cursor
  have size : after.unifiers.size = before.size := searches.computes.size_eq
  have allFound : after.allFound = true := by
    cases searches.computes with
    | exhausted _ allFound => exact allFound
  refine ⟨inside.asks searches.asks, ?_, ?_, 1, _, after,
    Nat.le_trans searches.pos enough,
    .exhausted (.exhausted (.ended allFound)), rfl⟩
  · rw [Session.following, cursor, ← Session.following]
    omega
  · rw [current?, cursor]
    cases placed : before.cursor with
    | none =>
        have none_ : before.following = 0 := by
          rw [Session.following, placed]
          rfl
        have empty : after.unifiers.size = 0 := by omega
        simp [empty]
    | some index =>
        have place : before.following = index + 1 := by
          rw [Session.following, placed]
          rfl
        have last : min before.following (after.unifiers.size - 1) = index := by
          omega
        rw [last]
        rfl

/-- A request for the next unifier is a step forward. -/
theorem Inside.exists_proceeds {pulls found : Nat} {session final : Session σ}
    (inside : session.Inside)
    (collects : session.Collects cancelled asked (.ok found) final)
    (enough : asked ≤ pulls) :
    ∃ after, session.next cancelled pulls = (.ok (), after) ∧
      session.Proceeds cancelled pulls final.unifiers after := by
  have next := inside.bounded_next cancelled
  rcases Nat.lt_or_eq_of_le inside.following_le with listed | same
  · exact ⟨_, next.enough (.listed listed) (Nat.zero_le pulls),
      .of_moved listed collects enough⟩
  · have reached : session.size = session.following := same.symm
    cases collects with
    | exhausted searches =>
        exact ⟨final, next.enough (.exhausted reached searches) enough,
          .of_stayed inside reached searches enough⟩
    | @found _ between _ first later _ searches collects =>
        have size : between.size = session.size + 1 :=
          searches.computes.size_eq
        exact ⟨_, next.enough (.found reached searches)
            (Nat.le_trans (Nat.le_add_right first later) enough),
          .of_moved (show session.following < between.size by omega) collects
            (Nat.le_trans (Nat.le_add_left later first) enough)⟩

/-- If all unifiers can be computed, then repeated requests for the next one
visit every later one in its place, and from then on the last one. -/
theorem Inside.walk_eq {pulls found : Nat} {session final : Session σ}
    (inside : session.Inside)
    (collects : session.Collects cancelled asked (.ok found) final)
    (enough : asked ≤ pulls) (count : Nat) :
    (walk (List.replicate count (cancelled, pulls)) session).1 =
      (List.range count).map fun step => .ok
        final.unifiers[min (session.following + step) (final.size - 1)]? := by
  generalize listed : final.unifiers = unifiers
  have size : final.size = unifiers.size := by rw [← listed, Session.size]
  rw [size]
  induction count generalizing session asked found final with
  | zero => rfl
  | succ count induction =>
      obtain ⟨after, performed, proceeds⟩ :=
        inside.exists_proceeds collects enough
      rw [listed] at proceeds
      obtain ⟨asked', found', final', enough', collects', listed'⟩ :=
        proceeds.collects
      have size' : final'.size = unifiers.size := by
        rw [← listed', Session.size]
      have later := induction proceeds.inside collects' enough' listed' size'
      simp only [List.replicate_succ, walk, performed, Except.map, later,
        List.range_succ_eq_map, List.map_cons, List.map_map,
        proceeds.current, Nat.add_zero]
      congr 1
      apply List.map_congr_left
      intro step _
      have place : min (after.following + step) (unifiers.size - 1) =
          min (session.following + (step + 1)) (unifiers.size - 1) := by
        rw [proceeds.following]
        omega
      rw [place]
      rfl

end Complete

/-- An error leaves the cursor where it is. -/
theorem Operates.cursor_eq {before after : Session σ} {reply : Reply}
    (operates : before.Operates reply after) {error : UnificationError}
    (reports : reply.Reports error) : after.cursor = before.cursor := by
  cases operates with
  | asked asks => exact asks.keeps.cursor
  | moved => exact (Reply.not_reports_ok error reports).elim

/-- What the operations do to the cursor of a session. -/
structure Navigates (session : Session (LoggedEngine σ)) : Prop where
  inside : session.Inside
  current : session.current? = none ↔ session.cursor = none
  /-- An error has a reason, and leaves the cursor where it is. -/
  failed : ∀ operation error reply after,
    session.perform operation = (reply, after) → reply.Reports error →
      after.cursor = session.cursor ∧ session.Blames operation after error
  advances : ∀ cancelled pulls, session.Advances
    (session.next cancelled pulls).2 (session.next cancelled pulls).1
  next : ∀ cancelled,
    Bounded (fun pulls => session.next cancelled pulls)
      (session.Seeks cancelled session.following)
      (fun pulls after => session.size = session.following ∧
        session.Skips cancelled pulls after)
      (.error .pullLimitReached, ·)
  previous : session.previous =
    { session with cursor := session.cursor.map Nat.pred }
  first : ∀ cancelled,
    Bounded (fun pulls => session.first cancelled pulls)
      (session.Seeks cancelled 0)
      (fun pulls after => session.size = 0 ∧
        session.Skips cancelled pulls after)
      (.error .pullLimitReached, ·)
  last : ∀ cancelled,
    Bounded (fun pulls => session.last cancelled pulls)
      (session.Completes cancelled) (session.Gathers cancelled)
      (.error .pullLimitReached, ·)
  atLast : ∀ cancelled pulls after,
    session.last cancelled pulls = (.ok (), after) →
      after.allFound = true ∧
        (after.size = 0 ∧ after.cursor = none ∨
          ∃ index, after.size = index + 1 ∧ after.cursor = some index)
  visits : ∀ requests, session.Continues (walk requests session).2 ∧
    session.Visits (walk requests session).2
      ((walk requests session).1.filterMap Except.toOption)
  /-- All later unifiers are visited if they can all be computed. -/
  visitsAll : ∀ cancelled asked found final,
    session.Collects cancelled asked (.ok found) final →
      ∀ pulls, asked ≤ pulls → ∀ count,
        (walk (List.replicate count (cancelled, pulls)) session).1 =
          (List.range count).map fun step => .ok
            final.unifiers[min (session.following + step) (final.size - 1)]?

theorem Inside.navigates {session : Session (LoggedEngine σ)}
    (inside : session.Inside) : session.Navigates where
  inside := inside
  current := inside.current?_eq_none_iff
  failed := by
    intro operation error reply after performed reports
    have operates := operates_perform operation session
    have blames := @blames_perform _ _ error session operation
    rw [performed] at operates blames
    exact ⟨operates.cursor_eq reports, blames reports⟩
  advances := fun cancelled pulls => (inside.advances cancelled pulls).2
  next := inside.bounded_next
  previous := rfl
  first := by
    intro cancelled
    simp only [first_eq_seek]
    exact bounded_seek cancelled (Nat.zero_le session.size)
  last := fun cancelled => bounded_last cancelled session
  atLast := by
    intro cancelled pulls after performed
    rcases (bounded_last cancelled session).cases pulls with
      ⟨asked, _, completes⟩ | ⟨between, _, stopped⟩
    · rw [performed] at completes
      cases completes with
      | empty collects size => exact ⟨collects.allFound_eq, .inl ⟨size, rfl⟩⟩
      | last collects size =>
          exact ⟨collects.allFound_eq, .inr ⟨_, size, rfl⟩⟩
    · cases performed.symm.trans stopped
  visits := fun requests =>
    ⟨continues_walk requests inside, inside.visits requests⟩
  visitsAll := fun _ _ _ _ collects _ enough count =>
    inside.walk_eq collects enough count

/-- Whatever is done with a session, its cursor is the index of a listed
unifier if there is one, and moves as it should: one step forward, one step
back, to the first unifier or to the last one.  Only where it needs a unifier
that is not listed does it ask the engine, which is the same as without the
log, and only that can fail.  Repeated steps forward visit all later unifiers in
their order. -/
theorem logged_navigates (goal : Goal) (engine : σ)
    (operations : List Operation) :
    (logged goal engine operations).unlogged =
        (Session.new goal engine).performAll operations ∧
      (logged goal engine operations).Navigates := by
  have inside : (logged goal engine operations).Inside :=
    (inside_new goal _).performAll operations
  exact ⟨(performAll_unlogged _ operations).symm, inside.navigates⟩

end Session

open ScriptedEngine in
theorem Session.logged_navigates_duplicating :
    (∃ after, (Session.logged .unboundVariable duplicating []).perform
        (.next Engine.never 1) = (.outcome (.error .interrupted), after) ∧
      after.cursor = none ∧
      (Session.logged .unboundVariable duplicating []).Blames
        (.next Engine.never 1) after .interrupted) ∧
    (Session.logged .unboundVariable duplicating [.next Engine.never 1,
        .last Engine.never 4, .previous]).cursor = some 0 ∧
    (∀ pulls, ∃ after,
      (Session.logged .unboundVariable duplicating [.next Engine.never 1,
          .last Engine.never 4, .previous]).next Engine.never pulls =
        (.ok (), after) ∧ after.cursor = some 1) ∧
    (Session.walk (List.replicate 4 (Engine.never, 4))
      (Session.logged .unboundVariable duplicating
        [.next Engine.never 1])).1 =
      [.ok (some top), .ok (some constant), .ok (some constant),
        .ok (some constant)] ∧
    (Session.logged .unboundVariable duplicating
        [.next Engine.never 1, .next Engine.never 1]).Visits
      (Session.walk [(Engine.never, 1), (Engine.never, 2), (Engine.never, 1)]
        (Session.logged .unboundVariable duplicating
          [.next Engine.never 1, .next Engine.never 1])).2
      [some constant, some constant] := by
  refine ⟨?_, by decide +kernel, ?_, ?_, ?_⟩
  · obtain ⟨_, fresh⟩ :=
      Session.logged_navigates .unboundVariable duplicating []
    obtain ⟨cursor, blames⟩ :=
      fresh.failed (.next Engine.never 1) .interrupted _ _ rfl rfl
    exact ⟨_, rfl, cursor, blames⟩
  · obtain ⟨_, back⟩ := Session.logged_navigates .unboundVariable duplicating
      [.next Engine.never 1, .last Engine.never 4, .previous]
    have bound : (Session.logged .unboundVariable duplicating
        [.next Engine.never 1, .last Engine.never 4, .previous]).following <
        (Session.logged .unboundVariable duplicating
          [.next Engine.never 1, .last Engine.never 4, .previous]).size := by
      decide +kernel
    have following : (Session.logged .unboundVariable duplicating
        [.next Engine.never 1, .last Engine.never 4, .previous]).following =
          1 := by
      decide +kernel
    intro pulls
    exact ⟨_, (back.next Engine.never).enough (.listed bound)
      (Nat.zero_le pulls), congrArg some following⟩
  · obtain ⟨_, failed⟩ := Session.logged_navigates .unboundVariable duplicating
      [.next Engine.never 1]
    have found : ((Session.logged .unboundVariable duplicating
        [.next Engine.never 1]).computeAll Engine.never 4).1 = .ok 2 := by
      decide +kernel
    have listed : ((Session.logged .unboundVariable duplicating
        [.next Engine.never 1]).computeAll Engine.never 4).2.unifiers =
          #[top, constant] := by
      decide +kernel
    rcases (Session.bounded_computeAll Engine.never
        (Session.logged .unboundVariable duplicating
          [.next Engine.never 1])).cases 4 with
      ⟨asked, enough, collects⟩ | ⟨after, _, stopped⟩
    · rw [found] at collects
      rw [failed.visitsAll Engine.never asked 2 _ collects 4 enough 4, size,
        listed]
      rfl
    · rw [stopped] at found
      cases found
  · obtain ⟨_, moved⟩ := Session.logged_navigates .unboundVariable duplicating
      [.next Engine.never 1, .next Engine.never 1]
    obtain ⟨_, visits⟩ :=
      moved.visits [(Engine.never, 1), (Engine.never, 2), (Engine.never, 1)]
    have given : (Session.walk
        [(Engine.never, 1), (Engine.never, 2), (Engine.never, 1)]
        (Session.logged .unboundVariable duplicating
          [.next Engine.never 1, .next Engine.never 1])).1.filterMap
            Except.toOption =
        [some constant, some constant] := by
      decide +kernel
    rw [given] at visits
    exact visits

end ConceptUnification
