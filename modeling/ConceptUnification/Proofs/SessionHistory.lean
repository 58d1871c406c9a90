import ConceptUnification.Proofs.CanonicalExpansion
import ConceptUnification.Proofs.SessionLog
import ConceptUnification.Proofs.SessionRun

/-!
# Sessions and the answers of their engines

The engine of a session may be any state machine, and its answers may come in
any order.  Here it keeps a log of them, which changes nothing else.  Whatever
is done with a session, its list holds the first of the unifiers in the log for
each key.
-/

namespace ConceptUnification

section FirstOccurrences

/-- Adding an element at the end adds it to the first occurrences, unless an
equal one is there. -/
theorem eraseDupsBy_concat {α : Type} (same : α → α → Bool) (as : List α)
    (a : α) :
    (as ++ [a]).eraseDupsBy same =
      if (as.eraseDupsBy same).any (same a) then as.eraseDupsBy same
      else as.eraseDupsBy same ++ [a] := by
  have loop : ∀ kept,
      List.eraseDupsBy.loop same (as ++ [a]) kept =
        if (List.eraseDupsBy.loop same as kept).any (same a) then
          List.eraseDupsBy.loop same as kept
        else List.eraseDupsBy.loop same as kept ++ [a] := by
    induction as with
    | nil =>
        intro kept
        simp only [List.nil_append, List.eraseDupsBy.loop, List.any_reverse]
        cases kept.any (same a) with
        | false => simp
        | true => simp
    | cons b as induction =>
        intro kept
        by_cases present : kept.any (same b) = true
        · simp only [List.cons_append, List.eraseDupsBy.loop, present]
          exact induction kept
        · simp only [List.cons_append, List.eraseDupsBy.loop, present]
          exact induction (b :: kept)
  exact loop []

namespace Goal

/-- The unifiers with values for all user variables, which are the ones with
keys.  A unifier of another goal may have none, and sessions refuse it. -/
def keyed (goal : Goal) (unifiers : List Unifier) : List Unifier :=
  unifiers.filter fun unifier => (unifier.userKey? goal).isSome

/-- Each unifier with a key, unless an earlier one has the same key. -/
def firstOccurrences (goal : Goal) (unifiers : List Unifier) : List Unifier :=
  (goal.keyed unifiers).eraseDupsBy fun unifier other =>
    unifier.userKey? goal == other.userKey? goal

variable {goal : Goal} {unifiers : List Unifier} {unifier : Unifier}

theorem keyed_concat_of_none (foreign : unifier.userKey? goal = none) :
    goal.keyed (unifiers ++ [unifier]) = goal.keyed unifiers := by
  simp [keyed, foreign]

theorem keyed_concat_of_some {key : UnifierKey}
    (found : unifier.userKey? goal = some key) :
    goal.keyed (unifiers ++ [unifier]) = goal.keyed unifiers ++ [unifier] := by
  simp [keyed, found]

theorem firstOccurrences_concat_of_none
    (foreign : unifier.userKey? goal = none) :
    goal.firstOccurrences (unifiers ++ [unifier]) =
      goal.firstOccurrences unifiers := by
  rw [firstOccurrences, keyed_concat_of_none foreign, firstOccurrences]

section Keyed

variable {key : UnifierKey} (found : unifier.userKey? goal = some key)

include found

theorem firstOccurrences_concat_of_known
    (known : ∃ other ∈ goal.firstOccurrences unifiers,
      other.userKey? goal = some key) :
    goal.firstOccurrences (unifiers ++ [unifier]) =
      goal.firstOccurrences unifiers := by
  rw [firstOccurrences, keyed_concat_of_some found, eraseDupsBy_concat, found]
  apply if_pos
  rw [List.any_eq_true]
  obtain ⟨other, member, same⟩ := known
  exact ⟨other, member, by simp [same]⟩

theorem firstOccurrences_concat_of_fresh
    (fresh : ¬ ∃ other ∈ goal.firstOccurrences unifiers,
      other.userKey? goal = some key) :
    goal.firstOccurrences (unifiers ++ [unifier]) =
      goal.firstOccurrences unifiers ++ [unifier] := by
  rw [firstOccurrences, keyed_concat_of_some found, eraseDupsBy_concat, found]
  apply if_neg
  rw [List.any_eq_true]
  intro known
  obtain ⟨other, member, same⟩ := known
  rw [beq_iff_eq] at same
  exact fresh ⟨other, member, same.symm⟩

end Keyed

end Goal

end FirstOccurrences

namespace Session

variable {σ : Type}

section History

/-- The list, the counter and the flag agree with the answers in the log. -/
structure History (session : Session (LoggedEngine σ)) : Prop where
  remembered : session.Distinct
  listed : session.unifiers.toList =
    session.goal.firstOccurrences (Engine.returned session.engine.log)
  counted : session.size + session.duplicatesSkipped =
    (session.goal.keyed (Engine.returned session.engine.log)).length
  allFound : session.allFound = true ↔ .ok none ∈ session.engine.log
  final : ∀ earlier later,
    session.engine.log = earlier ++ .ok none :: later → later = []

theorem history_new (goal : Goal) (engine : σ) :
    (Session.new goal (LoggedEngine.mk engine [])).History where
  remembered := distinct_new goal _
  listed := rfl
  counted := rfl
  allFound := by simp [Session.new]
  final := by
    intro earlier later empty
    simp [Session.new] at empty

/-- Only the last answer can be the one that there are no more unifiers. -/
theorem final_concat {log : List Answer} {answer : Answer}
    (running : .ok none ∉ log) (earlier later : List Answer)
    (split : log ++ [answer] = earlier ++ .ok none :: later) : later = [] := by
  cases later using List.reverseRecOn with
  | nil => rfl
  | append_singleton later last =>
      have same : log ++ [answer] =
          (earlier ++ .ok none :: later) ++ [last] := by
        rw [split]
        simp
      rw [(List.append_inj' same rfl).1] at running
      simp at running

theorem History.not_mem {session : Session (LoggedEngine σ)}
    (history : session.History) (running : session.allFound = false) :
    .ok none ∉ session.engine.log := by
  rw [← history.allFound, running]
  exact Bool.false_ne_true

variable [Engine σ]

/-- A new answer keeps the agreement if the list, the counter and the flag take
it in. -/
theorem History.answer {before after : Session (LoggedEngine σ)}
    {cancelled : CancelSchedule} {answer : Answer} (history : before.History)
    (running : before.allFound = false)
    (answered : Engine.next cancelled before.engine = (answer, after.engine))
    (goal : after.goal = before.goal) (remembered : after.Distinct)
    (listed : after.unifiers.toList = before.goal.firstOccurrences
      (Engine.returned before.engine.log ++ Engine.returned [answer]))
    (counted : after.size + after.duplicatesSkipped = (before.goal.keyed
      (Engine.returned before.engine.log ++ Engine.returned [answer])).length)
    (allFound : after.allFound = true ↔ answer = .ok none) :
    after.History where
  remembered := remembered
  listed := by
    rw [listed, goal, log_next answered, Engine.returned_append]
  counted := by
    rw [counted, goal, log_next answered, Engine.returned_append]
  allFound := by
    rw [allFound, log_next answered, List.mem_append, List.mem_singleton]
    simp [history.not_mem running, eq_comm]
  final := by
    rw [log_next answered]
    exact final_concat (history.not_mem running)

theorem History.pulls {before after : Session (LoggedEngine σ)}
    {cancelled : CancelSchedule} {pull : Pull} (history : before.History)
    (pulls : before.Pulls cancelled pull after) : after.History := by
  have finds : ∀ key, key ∈ before.keys ↔
      ∃ other ∈ before.goal.firstOccurrences
        (Engine.returned before.engine.log),
        other.userKey? before.goal = some key := by
    intro key
    rw [← history.remembered.finds_iff, ← history.listed]
    simp [Finds]
  cases pulls with
  | @found engine unifier key running answer keyed fresh =>
      refine history.answer running answer rfl ?_ ?_ ?_ ?_
      · exact history.remembered.push engine keyed fresh
      · rw [finds] at fresh
        rw [Engine.returned_ok, Option.toList_some,
          Goal.firstOccurrences_concat_of_fresh keyed fresh, ← history.listed]
        simp
      · rw [Engine.returned_ok, Option.toList_some,
          Goal.keyed_concat_of_some keyed, List.length_append,
          ← history.counted]
        simp [size]
        omega
      · simp [running]
  | @duplicate engine unifier key running answer keyed known =>
      refine history.answer running answer rfl ?_ ?_ ?_ ?_
      · exact ⟨history.remembered.remembered, history.remembered.distinct⟩
      · rw [Engine.returned_ok, Option.toList_some,
          Goal.firstOccurrences_concat_of_known keyed ((finds key).mp known)]
        exact history.listed
      · rw [Engine.returned_ok, Option.toList_some,
          Goal.keyed_concat_of_some keyed, List.length_append,
          ← history.counted]
        rfl
      · simp [running]
  | foreign running answer unkeyed =>
      refine history.answer running answer rfl ?_ ?_ ?_ ?_
      · exact ⟨history.remembered.remembered, history.remembered.distinct⟩
      · rw [Engine.returned_ok, Option.toList_some,
          Goal.firstOccurrences_concat_of_none unkeyed]
        exact history.listed
      · rw [Engine.returned_ok, Option.toList_some,
          Goal.keyed_concat_of_none unkeyed]
        exact history.counted
      · simp [running]
  | failed running answer =>
      refine history.answer running answer rfl ?_ ?_ ?_ ?_
      · exact ⟨history.remembered.remembered, history.remembered.distinct⟩
      · rw [Engine.returned_error, List.append_nil]
        exact history.listed
      · rw [Engine.returned_error, List.append_nil]
        exact history.counted
      · simp [running]
  | exhausted running answer =>
      refine history.answer running answer rfl ?_ ?_ ?_ ?_
      · exact ⟨history.remembered.remembered, history.remembered.distinct⟩
      · rw [Engine.returned_ok, Option.toList_none, List.append_nil]
        exact history.listed
      · rw [Engine.returned_ok, Option.toList_none, List.append_nil]
        exact history.counted
      · simp
  | ended => exact history

theorem History.asks {before after : Session (LoggedEngine σ)}
    (history : before.History) (asks : before.Asks after) : after.History := by
  induction asks with
  | refl => exact history
  | step pulls _ induction => exact induction (history.pulls pulls)

end History

section Agreement

/-- Listed unifiers have values for some user variable that are not
equivalent. -/
theorem Distinct.pairwise {session : Session σ} (distinct : session.Distinct) :
    session.unifiers.toList.Pairwise fun unifier other =>
      ∃ x ∈ session.goal.userVariables, ∃ value value',
        unifier.expand? session.goal.store x = some value ∧
          other.expand? session.goal.store x = some value' ∧
          value.isEquivalent value' = false := by
  have keyed : ∀ unifier ∈ session.unifiers.toList,
      ∃ key, unifier.userKey? session.goal = some key := by
    intro unifier member
    have inKeys : unifier.userKey? session.goal ∈
        session.keys.toList.map some := by
      rw [← distinct.remembered]
      exact List.mem_map_of_mem member
    obtain ⟨key, _, same⟩ := List.mem_map.mp inKeys
    exact ⟨key, same.symm⟩
  have different : (session.unifiers.toList.map
      (·.userKey? session.goal)).Nodup := by
    rw [distinct.remembered]
    exact distinct.distinct.map (Option.some_injective _)
  rw [List.Nodup, List.pairwise_map] at different
  apply different.imp_of_mem
  intro unifier other member member' differ
  obtain ⟨key, found⟩ := keyed unifier member
  obtain ⟨key', found'⟩ := keyed other member'
  apply Unifier.exists_not_isEquivalent found found'
  intro same
  rw [found, found', same] at differ
  exact differ rfl

variable [Engine σ]

theorem Operates.keeps {before after : Session (LoggedEngine σ)} {reply : Reply}
    (operates : before.Operates reply after) (history : before.History) :
    after.History ∧ after.goal = before.goal ∧
      before.unifiers.toList <+: after.unifiers.toList ∧
      (before.allFound = true → after.engine = before.engine) ∧
      ∀ error, reply.Reports error → after.allFound = before.allFound ∧
        after.cursor = before.cursor := by
  cases operates with
  | asked asks failed =>
      have keeps := asks.keeps
      refine ⟨history.asks asks, keeps.goal, keeps.listed, ?_, ?_⟩
      · intro allFound
        rw [keeps.ended allFound]
      · intro error reports
        exact ⟨failed error reports, keeps.cursor⟩
  | moved asks cursor =>
      have keeps := asks.keeps
      have kept := history.asks asks
      refine ⟨⟨⟨kept.remembered.remembered, kept.remembered.distinct⟩,
        kept.listed, kept.counted, kept.allFound, kept.final⟩, keeps.goal,
        keeps.listed, ?_, ?_⟩
      · intro allFound
        rw [keeps.ended allFound]
      · intro error reports
        exact (Reply.not_reports_ok error reports).elim

theorem history_performAll (operations : List Operation)
    {session : Session (LoggedEngine σ)} (history : session.History) :
    (session.performAll operations).History ∧
      (session.performAll operations).goal = session.goal := by
  induction operations generalizing session with
  | nil => exact ⟨history, rfl⟩
  | cons operation operations induction =>
      obtain ⟨next, sameGoal, _⟩ :=
        (operates_perform operation session).keeps history
      obtain ⟨last, sameGoal'⟩ := induction next
      exact ⟨last, sameGoal'.trans sameGoal⟩

/-- What is known of a session with a goal whose engine logs its answers, and of
what any operation does to it. -/
structure Deduplicates (goal : Goal) (session : Session (LoggedEngine σ)) :
    Prop where
  sameGoal : session.goal = goal
  listed : session.unifiers.toList =
    goal.firstOccurrences (Engine.returned session.engine.log)
  counted : session.size + session.duplicatesSkipped =
    (goal.keyed (Engine.returned session.engine.log)).length
  different : session.unifiers.toList.Pairwise fun unifier other =>
    ∃ x ∈ goal.userVariables, ∃ value value',
      unifier.expand? goal.store x = some value ∧
        other.expand? goal.store x = some value' ∧
        value.isEquivalent value' = false
  allFound : session.allFound = true ↔ .ok none ∈ session.engine.log
  final : ∀ earlier later,
    session.engine.log = earlier ++ .ok none :: later → later = []
  appends : ∀ operation, session.unifiers.toList <+:
    (session.perform operation).2.unifiers.toList
  /-- The engine is not asked any more when all unifiers were found. -/
  silent : session.allFound = true → ∀ operation,
    (session.perform operation).2.engine = session.engine
  /-- An error has a reason, and changes neither the flag nor the cursor. -/
  failed : ∀ operation error reply after,
    session.perform operation = (reply, after) → reply.Reports error →
      after.allFound = session.allFound ∧ after.cursor = session.cursor ∧
        session.Blames operation after error
  searches : ∀ cancelled,
    Bounded (fun pulls => session.computeNext cancelled pulls)
      (session.Searches cancelled) (session.Skips cancelled)
      (.error .pullLimitReached, ·)
  collects : ∀ cancelled,
    Bounded (fun pulls => session.computeAll cancelled pulls)
      (session.Collects cancelled) (session.Gathers cancelled)
      (.error .pullLimitReached, ·)
  delivers : ∀ cancelled,
    Bounded (fun pulls => UnifierIterator.next cancelled pulls { session })
      (session.Delivers cancelled) (session.Skips cancelled)
      fun after => (some (.error .pullLimitReached),
        { session := after, ended := true })
  /-- An iterator gives the unifiers that are added, until it ends. -/
  iterates : ∀ requests, ∃ appended ending after,
    session.perform (.iterate requests) =
      (.items (appended.map (fun unifier => some (.ok unifier)) ++ ending),
        after) ∧
    after.unifiers.toList = session.unifiers.toList ++ appended ∧
    session.Ending after ending

theorem History.deduplicates {session : Session (LoggedEngine σ)}
    (history : session.History) : session.Deduplicates session.goal where
  sameGoal := rfl
  listed := history.listed
  counted := history.counted
  different := history.remembered.pairwise
  allFound := history.allFound
  final := history.final
  appends := fun operation =>
    ((operates_perform operation session).keeps history).2.2.1
  silent := fun allFound operation =>
    ((operates_perform operation session).keeps history).2.2.2.1 allFound
  failed := by
    intro operation error reply after performed reports
    obtain ⟨_, _, _, _, failed⟩ :=
      (operates_perform operation session).keeps history
    have blames := @blames_perform _ _ error session operation
    rw [performed] at failed blames
    obtain ⟨allFound, cursor⟩ := failed error reports
    exact ⟨allFound, cursor, blames reports⟩
  searches := fun cancelled => bounded_computeNext cancelled session
  collects := fun cancelled => bounded_computeAll cancelled session
  delivers := fun cancelled => bounded_next_iterator cancelled session
  iterates := by
    intro requests
    obtain ⟨_, appended, ending, given, listed, ends⟩ :=
      exists_items_iterate requests session
    refine ⟨appended, ending, _, ?_, listed, ends⟩
    rw [← given]
    rfl

/-- A session lists the first unifier for each key among the answers of its
engine, whatever is done with it.  It counts the others, it has all unifiers
when the engine answered so, and from then on does not ask it.  The list only
grows, an error comes from the engine or from a budget that is used up, and an
iterator gives the unifiers that are added until it ends.  With enough pulls a
session and its iterators come to what the engine answers next. -/
theorem lists_firstOccurrences (goal : Goal) (engine : σ)
    (operations : List Operation) :
    (logged goal engine operations).unlogged =
        (Session.new goal engine).performAll operations ∧
      (logged goal engine operations).Deduplicates goal := by
  obtain ⟨history, sameGoal⟩ : (logged goal engine operations).History ∧
      (logged goal engine operations).goal = goal :=
    history_performAll operations (history_new goal engine)
  have deduplicates := history.deduplicates
  rw [sameGoal] at deduplicates
  exact ⟨(performAll_unlogged _ operations).symm, deduplicates⟩

end Agreement

end Session

/-- An engine that gives some answers, and then finds no more unifiers. -/
structure ScriptedEngine where
  answers : List Answer

instance : Engine ScriptedEngine where
  name _ := "script"
  next _ script :=
    match script.answers with
    | [] => (.ok none, script)
    | answer :: answers => (answer, ⟨answers⟩)
  info _ := []

/-- A goal without constraints. -/
def Goal.unconstrained : Goal :=
  ⟨.empty, [], [], [], [], [], []⟩

/-- A user variable and a constant, without constraints. -/
def Goal.unboundVariable : Goal :=
  { Goal.unconstrained with
    store := (((∅ : AtomStore).internName "X").2.setKind 0 .userVariable
      |>.internName "A").2 }

namespace ScriptedEngine

/-- The variable is `⊤`. -/
def top : Unifier :=
  ⟨[⟨0, {}⟩]⟩

/-- The variable is the constant. -/
def constant : Unifier :=
  ⟨[⟨0, {1}⟩]⟩

/-- The variable may be `⊤` or the constant.  The first value comes twice. -/
def duplicating : ScriptedEngine :=
  ⟨[.error .interrupted, .ok (some top), .ok (some top), .ok (some constant)]⟩

end ScriptedEngine

open ScriptedEngine in
theorem Session.lists_firstOccurrences_duplicating :
    (∃ after, (Session.logged .unboundVariable duplicating []).perform
        (.next Engine.never 1) = (.outcome (.error .interrupted), after) ∧
      after.allFound = false ∧ after.cursor = none ∧
      (Session.logged .unboundVariable duplicating []).Blames
        (.next Engine.never 1) after .interrupted) ∧
    (∃ after, (Session.logged .unboundVariable duplicating
          [.next Engine.never 1]).perform
        (.iterate [(Engine.never, 1), (Engine.never, 2), (Engine.never, 1)]) =
          (.items [some (.ok top), some (.ok constant), none], after) ∧
      after.unifiers.toList = [top, constant]) ∧
    (∀ pulls, 2 ≤ pulls →
      (UnifierIterator.next Engine.never pulls
        { session := Session.logged .unboundVariable duplicating
            [.next Engine.never 1, .iterate [(Engine.never, 1)]] }).1 =
          some (.ok constant)) ∧
    Goal.unboundVariable.firstOccurrences [top, top, constant] =
      [top, constant] := by
  refine ⟨?_, ?_, ?_, ?_⟩
  · obtain ⟨_, fresh⟩ :=
      Session.lists_firstOccurrences .unboundVariable duplicating []
    obtain ⟨allFound, cursor, blames⟩ :=
      fresh.failed (.next Engine.never 1) .interrupted _ _ rfl rfl
    exact ⟨_, rfl, allFound, cursor, blames⟩
  · obtain ⟨_, asked⟩ := Session.lists_firstOccurrences .unboundVariable
      duplicating [.next Engine.never 1]
    obtain ⟨appended, ending, after, performed, listed, ends⟩ := asked.iterates
      [(Engine.never, 1), (Engine.never, 2), (Engine.never, 1)]
    have empty : (Session.logged .unboundVariable duplicating
        [.next Engine.never 1]).unifiers.toList = [] := rfl
    have given : (Session.iterate
        [(Engine.never, 1), (Engine.never, 2), (Engine.never, 1)]
        { session := Session.logged .unboundVariable duplicating
            [.next Engine.never 1] }).1 =
        [some (.ok top), some (.ok constant), none] := by
      decide +kernel
    have items : appended.map (fun unifier => some (.ok unifier)) ++ ending =
        [some (.ok top), some (.ok constant), none] :=
      (Reply.items.inj (congrArg Prod.fst performed)).symm.trans given
    refine ⟨after, by rw [performed, items], ?_⟩
    rw [listed, empty, List.nil_append]
    -- What is not a unifier belongs to the ending.
    have values :=
      congrArg (List.filterMap (Option.bind · Except.toOption)) items
    cases ends with
    | going => simpa [Function.comp_def, Except.toOption] using values
    | exhausted => simpa [Function.comp_def, Except.toOption] using values
    | failed =>
        simpa [Function.comp_def, Except.toOption, List.filterMap_cons]
          using values
  · obtain ⟨_, asked⟩ := Session.lists_firstOccurrences .unboundVariable
      duplicating [.next Engine.never 1, .iterate [(Engine.never, 1)]]
    have given : (UnifierIterator.next Engine.never 2
        { session := Session.logged .unboundVariable duplicating
            [.next Engine.never 1, .iterate [(Engine.never, 1)]] }).1 =
        some (.ok constant) := by
      decide +kernel
    intro pulls enough
    rw [(asked.delivers Engine.never).eq_of_le enough]
    · exact given
    · intro after stopped
      rw [stopped] at given
      cases given
  · obtain ⟨_, ended⟩ := Session.lists_firstOccurrences .unboundVariable
      duplicating [.next Engine.never 1, .last Engine.never 4]
    have log : Engine.returned (Session.logged .unboundVariable duplicating
        [.next Engine.never 1, .last Engine.never 4]).engine.log =
          [top, top, constant] := by
      decide +kernel
    have listed : (Session.logged .unboundVariable duplicating
        [.next Engine.never 1, .last Engine.never 4]).unifiers.toList =
          [top, constant] := by
      decide +kernel
    have first := ended.listed
    rw [listed, log] at first
    exact first.symm

end ConceptUnification
