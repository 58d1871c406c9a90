import ConceptUnification.Engine
import ConceptUnification.Proofs.UnifierValue

/-!
# Complete runs of engines

`Engine.Yields` says that an engine, asked until it has no more unifiers and
never cancelled, yields exactly the listed ones and then ends.  What a correct
engine yields are the local solutions of its goal, up to user keys.
-/

namespace ConceptUnification

namespace Engine

/-- The schedule of a request that is never cancelled. -/
def never : CancelSchedule :=
  fun _ => false

/-- Requests that are never cancelled yield the listed unifiers, and the next
one finds that there are no more. -/
inductive Yields {σ : Type} [Engine σ] : σ → List Unifier → Prop where
  | exhausted {state next : σ}
      (answer : Engine.next never state = (.ok none, next)) :
      Yields state []
  | found {state next : σ} {unifier : Unifier} {unifiers : List Unifier}
      (answer : Engine.next never state = (.ok (some unifier), next))
      (later : Yields next unifiers) : Yields state (unifier :: unifiers)

/-- What an engine yields is determined by its state. -/
theorem Yields.unique {σ : Type} [Engine σ] {state : σ}
    {left right : List Unifier} (first : Yields state left)
    (second : Yields state right) : left = right := by
  induction first generalizing right with
  | exhausted answer =>
      cases second with
      | exhausted => rfl
      | found answer' =>
          rw [answer] at answer'
          cases answer'
  | found answer _ induction =>
      cases second with
      | exhausted answer' =>
          rw [answer] at answer'
          cases answer'
      | found answer' later' =>
          rw [answer] at answer'
          cases answer'
          rw [induction later']

section Requests

variable {σ : Type} [Engine σ]

/-- The answers to requests with the listed cancel schedules, one after the
other. -/
def answers : List CancelSchedule → σ → List Answer
  | [], _ => []
  | cancelled :: schedules, state =>
      (Engine.next cancelled state).1 ::
        answers schedules (Engine.next cancelled state).2

/-- The state after these requests. -/
def after (schedules : List CancelSchedule) (state : σ) : σ :=
  schedules.foldl (fun state cancelled => (Engine.next cancelled state).2) state

/-- The unifiers among some answers. -/
def returned (answers : List Answer) : List Unifier :=
  answers.filterMap fun answer => answer.toOption.join

@[simp] theorem after_cons (cancelled : CancelSchedule)
    (schedules : List CancelSchedule) (state : σ) :
    after (cancelled :: schedules) state =
      after schedules (Engine.next cancelled state).2 := rfl

@[simp] theorem returned_nil : returned [] = [] := rfl

theorem returned_append (answers later : List Answer) :
    returned (answers ++ later) = returned answers ++ returned later :=
  List.filterMap_append

theorem returned_cons (answer : Answer) (answers : List Answer) :
    returned (answer :: answers) = returned [answer] ++ returned answers :=
  returned_append [answer] answers

@[simp] theorem returned_ok (answer : Option Unifier) :
    returned [.ok answer] = answer.toList := by
  cases answer with
  | none => rfl
  | some => rfl

@[simp] theorem returned_error (error : UnificationError) :
    returned [.error error] = [] := rfl

theorem after_of_still {state : σ} {answer : Answer}
    (still : ∀ later, Engine.next later state = (answer, state))
    (schedules : List CancelSchedule) : after schedules state = state := by
  induction schedules with
  | nil => rfl
  | cons cancelled schedules induction =>
      rw [after_cons, still cancelled]
      exact induction

/-- An answer that is given for ever once it was given is given from then
on, and the state stays. -/
theorem still_of_mem_answers {answer : Answer}
    (still : ∀ (cancelled : CancelSchedule) (state next : σ),
      Engine.next cancelled state = (answer, next) →
        ∀ later, Engine.next later next = (answer, next))
    {schedules : List CancelSchedule} {state : σ}
    (member : answer ∈ answers schedules state) (later : CancelSchedule) :
    Engine.next later (after schedules state) =
      (answer, after schedules state) := by
  induction schedules generalizing state with
  | nil => cases member
  | cons cancelled schedules induction =>
      rw [after_cons]
      rcases List.mem_cons.mp member with same | inLater
      · have stays := still cancelled state _ (Prod.ext same.symm rfl)
        rw [after_of_still stays]
        exact stays later
      · exact induction inLater

/-- An engine that never finds more unifiers after it found none gives what it
yields, and from then on answers that there are no more. -/
theorem Yields.answers_eq {state : σ} {unifiers : List Unifier}
    (yields : Yields state unifiers)
    (still : ∀ state next : σ, Engine.next never state = (.ok none, next) →
      Engine.next never next = (.ok none, next)) (more : Nat) :
    answers (List.replicate (unifiers.length + more) never) state =
      unifiers.map (fun unifier => .ok (some unifier)) ++
        List.replicate more (.ok none) := by
  induction yields with
  | @exhausted state next answer =>
      have ended : ∀ more, answers (List.replicate more never) next =
          List.replicate more (.ok none) := by
        intro more
        induction more with
        | zero => rfl
        | succ more induction =>
            rw [List.replicate_succ, answers, still state next answer]
            rw [List.replicate_succ, induction]
      cases more with
      | zero => rfl
      | succ more =>
          rw [List.length_nil, Nat.zero_add, List.replicate_succ, answers,
            answer, ended]
          rfl
  | found answer _ induction =>
      rw [List.length_cons, Nat.add_right_comm, List.replicate_succ, answers,
        answer, induction]
      rfl

end Requests

end Engine

namespace Goal

variable {goal : Goal}

/-- The unifier of some local solution has the key. -/
def HasKey (goal : Goal) (key : UnifierKey) : Prop :=
  ∃ solution : Assignment, solution.LocalSolution goal ∧
    (Unifier.ofAssignment goal solution).userKey? goal = some key

/-- The unifiers come from local solutions, and the key of every local solution
occurs among theirs. -/
structure Enumerates (goal : Goal) (unifiers : List Unifier) : Prop where
  sound : ∀ unifier ∈ unifiers, ∃ solution : Assignment,
    solution.LocalSolution goal ∧ unifier = .ofAssignment goal solution
  complete : ∀ solution : Assignment, solution.LocalSolution goal →
    ∃ unifier ∈ unifiers, ∃ key, unifier.userKey? goal = some key ∧
      (Unifier.ofAssignment goal solution).userKey? goal = some key

/-- Every local solution has a key. -/
theorem WellFormed.exists_key (wellFormed : goal.WellFormed)
    {solution : Assignment} (local_ : solution.LocalSolution goal) :
    ∃ key, (Unifier.ofAssignment goal solution).userKey? goal = some key :=
  Unifier.exists_userKey?_ofAssignment wellFormed local_.acyclic local_.proper

theorem Enumerates.exists_userKey?_iff {unifiers : List Unifier}
    (enumerates : goal.Enumerates unifiers) {key : UnifierKey} :
    (∃ unifier ∈ unifiers, unifier.userKey? goal = some key) ↔
      goal.HasKey key := by
  constructor
  · rintro ⟨unifier, member, found⟩
    obtain ⟨solution, local_, rfl⟩ := enumerates.sound unifier member
    exact ⟨solution, local_, found⟩
  · rintro ⟨solution, local_, found⟩
    obtain ⟨unifier, member, key', found', same⟩ :=
      enumerates.complete solution local_
    rw [found, Option.some.injEq] at same
    rw [← same] at found'
    exact ⟨unifier, member, found'⟩

end Goal

end ConceptUnification
