import ConceptUnification.Proofs.ExhaustiveOracle

/-!
# Errors of the enumeration of satisfying assignments

A request may be cancelled, limited or let down by the oracle at any of its
questions, also while a valuation is shrunk.  It then leaves the formula as it
was, and a later request starts again.  A failure of the oracle and the end of
the enumeration are remembered, and the oracle is not asked any more.  Clauses
are added for returned unifiers only, so an oracle whose answers depend on the
formula alone gives interrupted requests the same unifiers as uninterrupted
ones.
-/

namespace ConceptUnification

/-- The oracle that fails at every question. -/
structure FailingOracle where
  reason : String

namespace FailingOracle

instance : Oracle FailingOracle where
  solve _ oracle := (.error oracle.reason, oracle)

theorem sound : Oracle.Sound FailingOracle := by
  intro formula oracle valuation next solved
  cases solved

end FailingOracle

/-- The unifier that is read off a valuation of the formula. -/
def Goal.unifierAt (goal : Goal) (valuation : Valuation) : Unifier :=
  .ofAssignment goal ((Encoding.ofGoal goal).decode valuation)

namespace SatSearch

variable {ω : Type} [Oracle ω]

section Failure

/-- What a request leaves that ends in an error.  It records a failure of the
oracle. -/
structure Fails (before after : SatSearch ω) (error : UnificationError) :
    Prop where
  goal : after.goal = before.goal
  mode : after.mode = before.mode
  encoding : after.encoding = before.encoding
  exhausted : after.exhausted = before.exhausted
  recorded : ∀ reason, error = .oracleFailure reason →
    after.failure = some reason
  cause : after.failure = before.failure ∨
    ∃ (reason : String) (formula : Formula) (oracle next : ω),
      Oracle.solve formula oracle = (.error reason, next)

theorem Keeps.fails {first second third : SatSearch ω}
    {error : UnificationError} (keeps : first.Keeps second)
    (fails : second.Fails third error) : first.Fails third error where
  goal := fails.goal.trans keeps.goal
  mode := fails.mode.trans keeps.mode
  encoding := fails.encoding.trans keeps.encoding
  exhausted := fails.exhausted.trans keeps.exhausted
  recorded := fails.recorded
  cause := by
    rw [← keeps.failure]
    exact fails.cause

variable {cancelled : CancelSchedule} {search after : SatSearch ω}
  {error : UnificationError}

theorem fails_of_ask {steps : Nat} {formula : Formula}
    (run : search.ask cancelled steps formula = (.error error, after)) :
    search.Fails after error := by
  unfold ask at run
  split at run
  · cases run
    exact ⟨rfl, rfl, rfl, rfl, by simp, .inl rfl⟩
  · split at run
    · cases run
      exact ⟨rfl, rfl, rfl, rfl, by simp, .inl rfl⟩
    · simp only at run
      split at run
      · cases run
      · next reason oracle solved =>
          cases run
          exact ⟨rfl, rfl, rfl, rfl, by simp, .inr ⟨_, _, _, _, solved⟩⟩

theorem fails_of_shrink {encoding : Encoding} {steps : Nat}
    {valuation : Valuation}
    (run : shrink cancelled encoding steps valuation search =
      (.error error, after)) : search.Fails after error := by
  fun_induction shrink cancelled encoding steps valuation search with
  | case1 => cases run
  | case2 steps valuation search _ counted error' next asked =>
      have counting : search.Keeps counted := ⟨rfl, rfl, rfl, rfl, rfl, rfl⟩
      cases run
      exact counting.fails (fails_of_ask asked)
  | case3 => cases run
  | case4 steps valuation search _ counted smaller next asked _ induction =>
      have counting : search.Keeps counted := ⟨rfl, rfl, rfl, rfl, rfl, rfl⟩
      exact (counting.trans (ask_eq_ok asked).1).fails (induction run)
  | case5 => cases run

theorem fails_of_nextValuation
    (run : search.nextValuation cancelled = (.error error, after)) :
    search.Fails after error := by
  unfold nextValuation at run
  split at run
  · next asked =>
      cases run
      exact fails_of_ask asked
  · cases run
  · next asked =>
      split at run
      · cases run
      · split at run
        · next shrunk =>
            cases run
            exact (ask_eq_ok asked).1.fails (fails_of_shrink shrunk)
        · cases run

theorem next_of_failed {reason : String} (failed : search.failure = some reason)
    (cancelled : CancelSchedule) :
    search.next cancelled = (.error (.oracleFailure reason), search) := by
  rw [next, failed]

/-- An error changes neither the formula nor whether the enumeration has
ended. -/
theorem fails_of_next (run : search.next cancelled = (.error error, after)) :
    search.Fails after error := by
  unfold next at run
  split at run
  · next reason failed =>
      cases run
      refine ⟨rfl, rfl, rfl, rfl, ?_, .inl rfl⟩
      intro other same
      cases same
      exact failed
  · split at run
    · cases run
    · split at run
      · next asked =>
          cases run
          exact fails_of_nextValuation asked
      · cases run
      · cases run

end Failure

section History

/-- The formula of an enumeration that returned unifiers for some valuations.  A
clause was added for each of them, apart from a last one whose clause has no
literals. -/
structure Issued (goal : Goal) (mode : SatMode) (earlier : List Valuation)
    (last : Option Valuation) (search : SatSearch ω) : Prop where
  sameGoal : search.goal = goal
  sameMode : search.mode = mode
  subsumers : search.encoding.subsumers = (Encoding.ofGoal goal).subsumers
  clauses : search.encoding.formula.clauses.toList =
    (Encoding.ofGoal goal).formula.clauses.toList ++
      earlier.map ((Encoding.ofGoal goal).blockingClause mode)
  satisfies : ∀ valuation ∈ earlier ++ last.toList,
    valuation.satisfies (Encoding.ofGoal goal).formula = true
  blocks : ∀ valuation ∈ earlier,
    (Encoding.ofGoal goal).blockingClause mode valuation ≠ []
  ends : ∀ valuation ∈ last,
    (Encoding.ofGoal goal).blockingClause mode valuation = [] ∧
      search.exhausted = true
  unfailed : search.exhausted = true → search.failure = none

variable {goal : Goal} {mode : SatMode} {earlier : List Valuation}
  {last : Option Valuation} {cancelled : CancelSchedule} {answer : Answer}
  {search after : SatSearch ω}

omit [Oracle ω] in
theorem issued_new (goal : Goal) (mode : SatMode) (oracle : ω) (limit : Nat) :
    (SatSearch.new goal mode oracle limit).Issued goal mode [] none where
  sameGoal := rfl
  sameMode := rfl
  subsumers := rfl
  clauses := by simp [SatSearch.new]
  satisfies := by simp
  blocks := by simp
  ends := by simp
  unfailed := by simp [SatSearch.new]

omit [Oracle ω] in
theorem Issued.serves (issued : search.Issued goal mode earlier last) :
    search.Serves goal mode where
  sameGoal := issued.sameGoal
  sameMode := issued.sameMode
  subsumers := issued.subsumers
  satisfies := by
    intro valuation remains
    obtain ⟨_, satisfies⟩ := remains
    rw [Valuation.satisfies_iff] at satisfies ⊢
    intro clause member
    apply satisfies clause
    rw [← Array.mem_toList_iff] at member ⊢
    rw [issued.clauses]
    exact List.mem_append_left _ member

omit [Oracle ω] in
theorem Issued.same (issued : search.Issued goal mode earlier last)
    (sameGoal : after.goal = search.goal) (sameMode : after.mode = search.mode)
    (encoding : after.encoding = search.encoding)
    (ended : search.exhausted = true → after.exhausted = true)
    (unfailed : after.exhausted = true → after.failure = none) :
    after.Issued goal mode earlier last where
  sameGoal := sameGoal.trans issued.sameGoal
  sameMode := sameMode.trans issued.sameMode
  subsumers := by
    rw [encoding]
    exact issued.subsumers
  clauses := by
    rw [encoding]
    exact issued.clauses
  satisfies := issued.satisfies
  blocks := issued.blocks
  ends := by
    intro valuation member
    obtain ⟨empty, exhausted⟩ := issued.ends valuation member
    exact ⟨empty, ended exhausted⟩
  unfailed := unfailed

omit [Oracle ω] in
theorem Issued.keeps (issued : search.Issued goal mode earlier last)
    (keeps : search.Keeps after) : after.Issued goal mode earlier last := by
  apply issued.same keeps.goal keeps.mode keeps.encoding
  · rw [keeps.exhausted]
    exact id
  · rw [keeps.exhausted, keeps.failure]
    exact issued.unfailed

theorem Issued.error {error : UnificationError}
    (issued : search.Issued goal mode earlier last)
    (run : search.next cancelled = (.error error, after)) :
    after.Issued goal mode earlier last := by
  have fails := fails_of_next run
  apply issued.same fails.goal fails.mode fails.encoding
  · rw [fails.exhausted]
    exact id
  · intro exhausted
    rw [fails.exhausted] at exhausted
    rw [next_of_exhausted exhausted (issued.unfailed exhausted)] at run
    cases run

theorem Issued.exhausted (issued : search.Issued goal mode earlier last)
    (run : search.next cancelled = (.ok none, after)) :
    after.Issued goal mode earlier last := by
  obtain ⟨ended, unfailed, _, sameGoal, sameMode, encoding⟩ :=
    exhausted_of_next run
  apply issued.same sameGoal sameMode encoding
  · intro _
    exact ended
  · intro _
    exact unfailed

theorem unfailed_of_next {answer : Option Unifier}
    (run : search.next cancelled = (.ok answer, after)) :
    search.failure = none := by
  cases failed : search.failure with
  | none => rfl
  | some reason =>
      rw [next_of_failed failed] at run
      cases run

omit [Oracle ω] in
/-- A valuation whose clause has no literals stays the last one. -/
theorem Issued.block {valuation : Valuation}
    (issued : search.Issued goal mode earlier none)
    (remains : search.Remains valuation) (unfailed : search.failure = none) :
    (search.block valuation).Issued goal mode (earlier ++ [valuation]) none ∨
      (search.block valuation).Issued goal mode earlier (some valuation) := by
  have satisfies : ∀ other ∈ earlier ++ [valuation],
      other.satisfies (Encoding.ofGoal goal).formula = true := by
    rw [List.forall_mem_append, List.forall_mem_singleton]
    have before := issued.satisfies
    rw [Option.toList_none, List.append_nil] at before
    exact ⟨before, issued.serves.satisfies valuation remains⟩
  have clause := issued.serves.blockingClause_eq valuation
  by_cases empty : (Encoding.ofGoal goal).blockingClause mode valuation = []
  · right
    rw [SatSearch.block, clause, empty]
    exact
      { sameGoal := issued.sameGoal
        sameMode := issued.sameMode
        subsumers := issued.subsumers
        clauses := issued.clauses
        satisfies := satisfies
        blocks := issued.blocks
        ends := by
          intro other member
          cases member
          exact ⟨empty, rfl⟩
        unfailed := fun _ => unfailed }
  · left
    rw [SatSearch.block, clause]
    simp only [List.isEmpty_iff, empty, if_false]
    exact
      { sameGoal := issued.sameGoal
        sameMode := issued.sameMode
        subsumers := issued.subsumers
        clauses := by
          simp [Encoding.addClause, Formula.addClause, issued.clauses]
        satisfies := by simpa using satisfies
        blocks := by
          rw [List.forall_mem_append, List.forall_mem_singleton]
          exact ⟨issued.blocks, empty⟩
        ends := by simp
        unfailed := issued.unfailed }

/-- A returned unifier is read off a valuation whose clause is added last. -/
theorem Issued.found (sound : Oracle.Sound ω) {unifier : Unifier}
    (issued : search.Issued goal mode earlier last)
    (run : search.next cancelled = (.ok (some unifier), after)) :
    last = none ∧ ∃ valuation, unifier = goal.unifierAt valuation ∧
      (after.Issued goal mode (earlier ++ [valuation]) none ∨
        after.Issued goal mode earlier (some valuation)) := by
  have unfailed := unfailed_of_next run
  obtain ⟨valuation, middle, running, asked, rfl, rfl⟩ := next_eq_some run
  have unended : last = none := by
    cases last with
    | none => rfl
    | some other =>
        have ended := (issued.ends other rfl).2
        rw [running] at ended
        cases ended
  subst unended
  have keeps := keeps_of_nextValuation asked
  have remains : search.Remains valuation :=
    ⟨running, satisfies_of_nextValuation sound asked⟩
  refine ⟨rfl, valuation, ?_, ?_⟩
  · rw [Goal.unifierAt, keeps.goal, keeps.encoding, issued.sameGoal,
      issued.serves.decode_eq]
  · apply (issued.keeps keeps).block (keeps.remains_iff.mpr remains)
    exact keeps.failure.trans unfailed

/-- Each request lists the unifier that it returns. -/
theorem Issued.next (sound : Oracle.Sound ω)
    (issued : search.Issued goal mode earlier last)
    (run : search.next cancelled = (answer, after)) :
    ∃ earlier' last', after.Issued goal mode earlier' last' ∧
      (earlier' ++ last'.toList).map goal.unifierAt =
        (earlier ++ last.toList).map goal.unifierAt ++
          Engine.returned [answer] := by
  cases answer with
  | error error => exact ⟨earlier, last, issued.error run, by simp⟩
  | ok found =>
      cases found with
      | none => exact ⟨earlier, last, issued.exhausted run, by simp⟩
      | some unifier =>
          obtain ⟨rfl, valuation, rfl, added | ended⟩ := issued.found sound run
          · exact ⟨_, _, added, by simp⟩
          · exact ⟨_, _, ended, by simp⟩

theorem Issued.run (sound : Oracle.Sound ω)
    (issued : search.Issued goal mode earlier last)
    (schedules : List CancelSchedule) :
    ∃ earlier' last',
      (Engine.after schedules search).Issued goal mode earlier' last' ∧
        (earlier' ++ last'.toList).map goal.unifierAt =
          (earlier ++ last.toList).map goal.unifierAt ++
            Engine.returned (Engine.answers schedules search) := by
  induction schedules generalizing search earlier last with
  | nil => exact ⟨earlier, last, issued, by simp [Engine.answers]⟩
  | cons cancelled schedules induction =>
      obtain ⟨_, _, issued', first⟩ := issued.next sound
        (show search.next cancelled = (_, _) from rfl)
      obtain ⟨earlier', last', issued'', rest⟩ := induction issued'
      refine ⟨earlier', last', issued'', ?_⟩
      rw [rest, first, List.append_assoc, Engine.answers,
        ← Engine.returned_cons]
      rfl

end History

section Interruption

/-- Two enumerations that have the same valuations left.  The right one has no
limit. -/
structure Alike (left right : SatSearch ω) : Prop where
  goal : right.goal = left.goal
  mode : right.mode = left.mode
  encoding : right.encoding = left.encoding
  exhausted : right.exhausted = left.exhausted
  leftUnfailed : left.failure = none
  rightUnfailed : right.failure = none
  unlimited : right.stepLimit = 0

variable {cancelled : CancelSchedule}
  {left left' right right' : SatSearch ω}

omit [Oracle ω] in
theorem Alike.keeps (alike : left.Alike right) (keepsLeft : left.Keeps left')
    (keepsRight : right.Keeps right') : left'.Alike right' where
  goal := by rw [keepsLeft.goal, keepsRight.goal, alike.goal]
  mode := by rw [keepsLeft.mode, keepsRight.mode, alike.mode]
  encoding := by rw [keepsLeft.encoding, keepsRight.encoding, alike.encoding]
  exhausted := by
    rw [keepsLeft.exhausted, keepsRight.exhausted, alike.exhausted]
  leftUnfailed := keepsLeft.failure.trans alike.leftUnfailed
  rightUnfailed := keepsRight.failure.trans alike.rightUnfailed
  unlimited := keepsRight.stepLimit.trans alike.unlimited

omit [Oracle ω] in
theorem Alike.block (alike : left.Alike right) (valuation : Valuation) :
    (left.block valuation).Alike (right.block valuation) := by
  unfold SatSearch.block
  simp only [alike.mode, alike.encoding]
  split
  · exact ⟨alike.goal, rfl, rfl, rfl, alike.leftUnfailed,
      alike.rightUnfailed, alike.unlimited⟩
  · exact ⟨alike.goal, rfl, rfl, alike.exhausted, alike.leftUnfailed,
      alike.rightUnfailed, alike.unlimited⟩

variable (determined : Oracle.Determined ω)

include determined

/-- Without cancellation and limits a question gets the same answer. -/
theorem ask_of_ask (unlimited : right.stepLimit = 0) {steps : Nat}
    {formula : Formula} {outcome : SatOutcome}
    (run : left.ask cancelled steps formula = (.ok outcome, left')) :
    ∃ right', right.ask Engine.never steps formula =
      (.ok outcome, right') := by
  obtain ⟨_, oracle, next, solved⟩ := ask_eq_ok run
  have same := determined formula oracle right.oracle
  rw [solved] at same
  obtain ⟨again, answered⟩ : ∃ again, Oracle.solve formula right.oracle =
      (.ok outcome, again) :=
    ⟨(Oracle.solve formula right.oracle).2, Prod.ext same.symm rfl⟩
  unfold ask Engine.never
  simp only [Bool.false_eq_true, if_false, unlimited, bne_self_eq_false,
    Bool.false_and, answered]
  exact ⟨_, rfl⟩

theorem shrink_of_shrink {encoding : Encoding} {steps : Nat}
    {valuation smallest : Valuation}
    (run : shrink cancelled encoding steps valuation left =
      (.ok smallest, left')) (right : SatSearch ω)
    (unlimited : right.stepLimit = 0) :
    ∃ right', shrink Engine.never encoding steps valuation right =
      (.ok smallest, right') := by
  revert right
  fun_induction shrink cancelled encoding steps valuation left with
  | case1 steps valuation left empty =>
      cases run
      intro right _
      rw [shrink, if_pos empty]
      exact ⟨_, rfl⟩
  | case2 => cases run
  | case3 steps valuation left nonempty _ next asked =>
      cases run
      intro right unlimited
      rw [shrink, if_neg nonempty]
      extract_lets _ counted
      obtain ⟨_, asked'⟩ := ask_of_ask determined
        (show counted.stepLimit = 0 from unlimited) asked
      simp only [asked']
      exact ⟨_, rfl⟩
  | case4 steps valuation left nonempty _ smaller next asked fewer induction =>
      intro right unlimited
      rw [shrink, if_neg nonempty]
      extract_lets _ counted
      obtain ⟨right', asked'⟩ := ask_of_ask determined
        (show counted.stepLimit = 0 from unlimited) asked
      simp only [asked', if_pos fewer]
      apply induction run right'
      exact (ask_eq_ok asked').1.stepLimit.trans unlimited
  | case5 steps valuation left nonempty _ smaller next asked fewer =>
      cases run
      intro right unlimited
      rw [shrink, if_neg nonempty]
      extract_lets _ counted
      obtain ⟨_, asked'⟩ := ask_of_ask determined
        (show counted.stepLimit = 0 from unlimited) asked
      simp only [asked', if_neg fewer]
      exact ⟨_, rfl⟩

theorem nextValuation_of_nextValuation (alike : left.Alike right)
    {found : Option Valuation}
    (run : left.nextValuation cancelled = (.ok found, left')) :
    ∃ right', right.nextValuation Engine.never = (.ok found, right') ∧
      left'.Alike right' := by
  have again : ∃ right',
      right.nextValuation Engine.never = (.ok found, right') := by
    obtain ⟨outcome, middle, asked, result⟩ := nextValuation_eq_ok_iff.mp run
    rw [← alike.encoding] at asked result
    rw [← alike.mode] at result
    obtain ⟨middle', asked'⟩ := ask_of_ask determined alike.unlimited asked
    simp only [nextValuation_eq_ok_iff]
    cases outcome with
    | unsatisfiable => exact ⟨_, _, _, asked', result.1, rfl⟩
    | satisfiable first =>
        cases mode : right.mode with
        | all =>
            simp only [mode] at result
            refine ⟨middle', _, _, asked', ?_⟩
            exact ⟨result.1, rfl⟩
        | minimal =>
            simp only [mode] at result
            obtain ⟨smallest, same, shrunk⟩ := result
            obtain ⟨right', shrunk'⟩ := shrink_of_shrink determined shrunk
              middle' ((ask_eq_ok asked').1.stepLimit.trans alike.unlimited)
            refine ⟨right', _, _, asked', ?_⟩
            exact ⟨smallest, same, shrunk'⟩
  obtain ⟨right', run'⟩ := again
  refine ⟨right', run', ?_⟩
  exact alike.keeps (keeps_of_nextValuation run) (keeps_of_nextValuation run')

/-- A request that succeeds in spite of cancellation and limits gives what it
gives without them. -/
theorem Alike.next (alike : left.Alike right) {answer : Option Unifier}
    (run : left.next cancelled = (.ok answer, left')) :
    ∃ right', right.next Engine.never = (.ok answer, right') ∧
      left'.Alike right' := by
  cases exhausted : left.exhausted with
  | true =>
      rw [next_of_exhausted exhausted alike.leftUnfailed] at run
      cases run
      exact ⟨right, next_of_exhausted (alike.exhausted.trans exhausted)
        alike.rightUnfailed _, alike⟩
  | false =>
      have running := alike.exhausted.trans exhausted
      simp only [SatSearch.next, alike.leftUnfailed, alike.rightUnfailed,
        exhausted, running, Bool.false_eq_true, if_false] at run ⊢
      split at run
      · cases run
      · next asked =>
          cases run
          obtain ⟨other, asked', alike'⟩ :=
            nextValuation_of_nextValuation determined alike asked
          simp only [asked']
          exact ⟨_, rfl, alike'.goal, alike'.mode, alike'.encoding, rfl,
            alike'.leftUnfailed, alike'.rightUnfailed, alike'.unlimited⟩
      · next valuation middle asked =>
          cases run
          obtain ⟨other, asked', alike'⟩ :=
            nextValuation_of_nextValuation determined alike asked
          simp only [asked', alike'.goal, alike'.encoding]
          exact ⟨_, rfl, alike'.block valuation⟩

omit determined in
/-- A request that is interrupted or limited has no effect. -/
theorem Alike.error (total : Oracle.Total ω) (alike : left.Alike right)
    {error : UnificationError}
    (run : left.next cancelled = (.error error, left')) :
    left'.Alike right := by
  have fails := fails_of_next run
  have unfailed : left'.failure = none := by
    rcases fails.cause with same | ⟨reason, formula, oracle, next, failed⟩
    · exact same.trans alike.leftUnfailed
    · obtain ⟨_, _, solved⟩ := total formula oracle
      rw [failed] at solved
      cases solved
  exact
    { goal := alike.goal.trans fails.goal.symm
      mode := alike.mode.trans fails.mode.symm
      encoding := alike.encoding.trans fails.encoding.symm
      exhausted := alike.exhausted.trans fails.exhausted.symm
      leftUnfailed := unfailed
      rightUnfailed := alike.rightUnfailed
      unlimited := alike.unlimited }

/-- Interrupted requests return the first of the unifiers that uninterrupted
requests yield. -/
theorem Alike.returned_prefix (total : Oracle.Total ω)
    (alike : left.Alike right) {unifiers : List Unifier}
    (yields : Engine.Yields right unifiers)
    (schedules : List CancelSchedule) :
    Engine.returned (Engine.answers schedules left) <+: unifiers := by
  induction schedules generalizing left right unifiers with
  | nil => exact List.nil_prefix
  | cons cancelled schedules induction =>
      rw [Engine.answers, Engine.returned_cons]
      obtain ⟨⟨answer, left'⟩, run⟩ : ∃ result,
          Engine.next cancelled left = result := ⟨_, rfl⟩
      rw [run]
      cases answer with
      | error error => exact induction (alike.error total run) yields
      | ok found =>
          obtain ⟨right', run', alike'⟩ := alike.next determined run
          cases yields with
          | exhausted answer =>
              cases answer.symm.trans run'
              rw [Engine.returned_ok]
              apply induction alike'
              obtain ⟨ended, unfailed, _⟩ := exhausted_of_next run'
              exact .exhausted (next_of_exhausted ended unfailed _)
          | found answer later =>
              cases answer.symm.trans run'
              rw [Engine.returned_ok]
              apply (List.prefix_append_right_inj _).mpr
              exact induction alike' later

end Interruption

section Answers

variable {schedules : List CancelSchedule} {search : SatSearch ω}

/-- A failure of the oracle is answered again and again. -/
theorem next_of_mem_answers_failure {reason : String}
    (member : .error (.oracleFailure reason) ∈
      Engine.answers schedules search) (cancelled : CancelSchedule) :
    Engine.next cancelled (Engine.after schedules search) =
      (.error (.oracleFailure reason), Engine.after schedules search) := by
  apply Engine.still_of_mem_answers _ member
  intro _ state next run
  exact next_of_failed ((fails_of_next run).recorded reason rfl)

theorem next_of_mem_answers_none
    (member : .ok none ∈ Engine.answers schedules search)
    (cancelled : CancelSchedule) :
    Engine.next cancelled (Engine.after schedules search) =
      (.ok none, Engine.after schedules search) := by
  apply Engine.still_of_mem_answers _ member
  intro _ state next run
  obtain ⟨ended, unfailed, _⟩ := exhausted_of_next run
  exact next_of_exhausted ended unfailed

end Answers

/-- Errors are atomic.  A request that ends in an error changes neither the
formula nor whether the enumeration has ended.  After a failure of the oracle,
and after the end, requests give the same answer for ever and leave the state,
with the oracle and the number of its calls, as it is.  At any time the clauses
are those for the goal and then those that block the returned unifiers, of which
the last one may have no clause.  If the oracle never fails and its answers
depend on the formula only, interrupted requests with limits return the first of
the unifiers that uninterrupted ones yield. -/
theorem errors_atomic (sound : Oracle.Sound ω) (goal : Goal) (mode : SatMode)
    (oracle : ω) :
    (∀ limit schedules, ∃ search answers,
      Engine.after schedules (SatSearch.new goal mode oracle limit) = search ∧
      Engine.answers schedules (SatSearch.new goal mode oracle limit) =
        answers ∧
      (∀ cancelled error after,
        Engine.next cancelled search = (.error error, after) →
          after.encoding = search.encoding ∧
            after.exhausted = search.exhausted) ∧
      (∀ reason, .error (.oracleFailure reason) ∈ answers → ∀ cancelled,
        Engine.next cancelled search =
          (.error (.oracleFailure reason), search)) ∧
      (.ok none ∈ answers → search.exhausted = true) ∧
      (search.exhausted = true → ∀ cancelled,
        Engine.next cancelled search = (.ok none, search)) ∧
      ∃ (earlier : List Valuation) (last : Option Valuation),
        Engine.returned answers =
          (earlier ++ last.toList).map goal.unifierAt ∧
        search.encoding.formula.clauses.toList =
          (Encoding.ofGoal goal).formula.clauses.toList ++
            earlier.map ((Encoding.ofGoal goal).blockingClause mode) ∧
        (∀ valuation ∈ earlier ++ last.toList,
          valuation.satisfies (Encoding.ofGoal goal).formula = true) ∧
        (∀ valuation ∈ earlier,
          (Encoding.ofGoal goal).blockingClause mode valuation ≠ []) ∧
        ∀ valuation ∈ last,
          (Encoding.ofGoal goal).blockingClause mode valuation = [] ∧
            search.exhausted = true) ∧
    (Oracle.Total ω → Oracle.Determined ω → ∃ unifiers,
      Engine.Yields (SatSearch.new goal mode oracle 0) unifiers ∧
      ∀ limit schedules, Engine.returned (Engine.answers schedules
        (SatSearch.new goal mode oracle limit)) <+: unifiers) := by
  constructor
  · intro limit schedules
    obtain ⟨earlier, last, issued, returned⟩ :=
      (issued_new goal mode oracle limit).run sound schedules
    refine ⟨_, _, rfl, rfl, ?_, ?_, ?_, ?_, earlier, last, returned.symm,
      issued.clauses, issued.satisfies, issued.blocks, issued.ends⟩
    · intro cancelled error after run
      have fails := fails_of_next run
      exact ⟨fails.encoding, fails.exhausted⟩
    · intro reason member
      exact next_of_mem_answers_failure member
    · intro member
      exact (exhausted_of_next
        (next_of_mem_answers_none member Engine.never)).1
    · intro exhausted
      exact next_of_exhausted exhausted (issued.unfailed exhausted)
  · intro total determined
    obtain ⟨unifiers, yields⟩ :=
      exists_yields_of_sound total sound goal mode oracle
    refine ⟨unifiers, yields, ?_⟩
    intro limit schedules
    have alike : (SatSearch.new goal mode oracle limit).Alike
        (SatSearch.new goal mode oracle 0) :=
      ⟨rfl, rfl, rfl, rfl, rfl, rfl, rfl⟩
    exact alike.returned_prefix determined total yields schedules

/-- The request of the second schedule is cancelled while the valuation is
shrunk. -/
theorem errors_atomic_sampleCalls :
    ∃ goal, ((GoalBuilder.new Goal.sampleBackground {}).performAll
        Goal.sampleCalls).build = .ok goal ∧
      (∀ cancelled, ∃ search : SatSearch FailingOracle,
        Engine.after [Engine.never] (SatSearch.new goal .minimal
          (FailingOracle.mk "broken") 0) = search ∧
        Engine.next cancelled search =
          (.error (.oracleFailure "broken"), search)) ∧
      ∃ unifiers, Engine.Yields
        (SatSearch.new goal .minimal ExhaustiveOracle.start 0) unifiers ∧
        Engine.returned (Engine.answers
          [Engine.never, fun look => look == 1, Engine.never]
          (SatSearch.new goal .minimal ExhaustiveOracle.start 3)) <+:
            unifiers := by
  obtain ⟨goal, built, _⟩ := Goal.exists_build_sampleCalls
  refine ⟨goal, built, ?_, ?_⟩
  · intro cancelled
    obtain ⟨search, answers, after, rfl, _, failed, _⟩ :=
      (errors_atomic FailingOracle.sound goal .minimal
        (FailingOracle.mk "broken")).1 0 [Engine.never]
    refine ⟨search, after, ?_⟩
    exact failed "broken" (List.mem_singleton.mpr rfl) cancelled
  · obtain ⟨unifiers, yields, begins⟩ :=
      (errors_atomic ExhaustiveOracle.correct.sound goal .minimal
        ExhaustiveOracle.start).2 ExhaustiveOracle.total
          ExhaustiveOracle.determined
    exact ⟨unifiers, yields, begins 3 _⟩

end SatSearch

end ConceptUnification
