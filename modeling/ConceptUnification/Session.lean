import ConceptUnification.Engine

/-!
# Sessions

A session asks an engine for unifiers, drops those that agree with an earlier one on every user
variable, and keeps the others in a list with a cursor. The list only grows. Nothing more is asked
once the engine has no more unifiers.

An engine may deliver duplicates for ever. An operation that asks the engine is therefore given the
number of times that it may do so, and fails when these are used up. Like after any other error, the
session can be used further.
-/

namespace ConceptUnification

/-- The unifiers of a goal found so far by an engine of type `σ`. -/
structure Session (σ : Type) where
  goal : Goal
  engine : σ
  /-- The different unifiers found so far, in the order of their discovery. -/
  unifiers : Array Unifier := #[]
  /-- The keys of these unifiers. -/
  keys : Array UnifierKey := #[]
  /-- The index of the current unifier. -/
  cursor : Option Nat := none
  /-- The engine has no more unifiers. -/
  allFound : Bool := false
  /-- The number of unifiers that were dropped. -/
  duplicatesSkipped : Nat := 0

/-- What comes of asking the engine once. -/
inductive Pull where
  /-- A unifier that differs from all earlier ones. -/
  | found
  /-- A unifier that agrees with an earlier one. -/
  | duplicate
  | exhausted
  /-- The engine failed. -/
  | failed (error : UnificationError)

namespace Session

variable {σ : Type}

/-- A session without unifiers. -/
def new (goal : Goal) (engine : σ) : Session σ where
  goal := goal
  engine := engine

/-- The number of unifiers found so far. -/
def size (session : Session σ) : Nat :=
  session.unifiers.size

/-- The unifier at the cursor. -/
def current? (session : Session σ) : Option Unifier := do
  session.unifiers[← session.cursor]?

/-- Adds a unifier, unless it agrees with an earlier one. A unifier of another goal may have no
values for the user variables of this one, and is refused. -/
def record (session : Session σ) (unifier : Unifier) : Pull × Session σ :=
  match unifier.userKey? session.goal with
  | none => (.failed .foreignUnifier, session)
  | some key =>
    if session.keys.contains key then
      (.duplicate, { session with duplicatesSkipped := session.duplicatesSkipped + 1 })
    else
      (.found,
        { session with unifiers := session.unifiers.push unifier, keys := session.keys.push key })

/-- Moves the cursor back by one, but not beyond the first unifier. -/
def previous (session : Session σ) : Session σ :=
  { session with cursor := session.cursor.map (· - 1) }

/-- Moves the cursor to a unifier found earlier. -/
def moveTo (session : Session σ) (index : Nat) :
    Except UnificationError Unit × Session σ :=
  if index < session.size then (.ok (), { session with cursor := some index })
  else (.error (.indexOutOfRange index session.size), session)

variable [Engine σ]

/-- Asks the engine once. -/
def pull (cancelled : CancelSchedule) (session : Session σ) : Pull × Session σ :=
  if session.allFound then (.exhausted, session)
  else
    match Engine.next cancelled session.engine with
    | (.error error, engine) => (.failed error, { session with engine })
    | (.ok none, engine) => (.exhausted, { session with engine, allFound := true })
    | (.ok (some unifier), engine) => { session with engine }.record unifier

/-- Asks the engine until it yields a unifier that is new. Answers whether it did. -/
def computeNext (cancelled : CancelSchedule) :
    (pulls : Nat) → Session σ → Except UnificationError Bool × Session σ
  | 0, session => (.error .pullLimitReached, session)
  | pulls + 1, session =>
    match session.pull cancelled with
    | (.found, session) => (.ok true, session)
    | (.exhausted, session) => (.ok false, session)
    | (.failed error, session) => (.error error, session)
    | (.duplicate, session) => computeNext cancelled pulls session

/-- Asks the engine until it has no more unifiers. Answers how many were found. -/
def computeAll (cancelled : CancelSchedule) :
    (pulls : Nat) → Session σ → Except UnificationError Nat × Session σ
  | 0, session => (.error .pullLimitReached, session)
  | pulls + 1, session =>
    match session.pull cancelled with
    | (.exhausted, session) => (.ok session.size, session)
    | (.failed error, session) => (.error error, session)
    | (.found, session) | (.duplicate, session) => computeAll cancelled pulls session

/-- Moves the cursor to the first unifier, which is computed if there is none yet. -/
def first (cancelled : CancelSchedule) (pulls : Nat) (session : Session σ) :
    Except UnificationError Unit × Session σ :=
  let (outcome, session) :=
    if session.size == 0 then session.computeNext cancelled pulls else (.ok true, session)
  match outcome with
  | .error error => (.error error, session)
  | .ok _ => (.ok (), if 0 < session.size then { session with cursor := some 0 } else session)

/-- Moves the cursor forward by one. At the end of the list one more unifier is computed, and if
there is none the cursor stays. -/
def next (cancelled : CancelSchedule) (pulls : Nat) (session : Session σ) :
    Except UnificationError Unit × Session σ :=
  let target := (session.cursor.map (· + 1)).getD 0
  let (outcome, session) :=
    if session.size ≤ target then session.computeNext cancelled pulls else (.ok true, session)
  match outcome with
  | .error error => (.error error, session)
  | .ok _ =>
    (.ok (), if target < session.size then { session with cursor := some target } else session)

/-- Computes all unifiers and moves the cursor to the last one. -/
def last (cancelled : CancelSchedule) (pulls : Nat) (session : Session σ) :
    Except UnificationError Unit × Session σ :=
  match session.computeAll cancelled pulls with
  | (.error error, session) => (.error error, session)
  | (.ok _, session) =>
    (.ok (),
      { session with cursor := if session.size = 0 then none else some (session.size - 1) })

/-- Statistics of the session and of its engine. -/
def info (session : Session σ) : List (String × String) :=
  [("Algorithm", Engine.name session.engine),
    ("Unifiers", toString session.size),
    ("Duplicates skipped", toString session.duplicatesSkipped),
    ("All found", toString session.allFound)] ++ Engine.info session.engine

end Session

/-- An iterator over the unifiers that a session computes from now on. -/
structure UnifierIterator (σ : Type) where
  session : Session σ
  /-- The iterator has ended. -/
  ended : Bool := false

/-- The next unifier of an iterator. It ends when the engine has no more, or after one error. -/
def UnifierIterator.next {σ : Type} [Engine σ] (cancelled : CancelSchedule) (pulls : Nat)
    (iterator : UnifierIterator σ) :
    Option (Except UnificationError Unifier) × UnifierIterator σ :=
  if iterator.ended then (none, iterator)
  else
    match iterator.session.computeNext cancelled pulls with
    | (.ok true, session) => (session.unifiers.back?.map .ok, { session })
    | (.ok false, session) => (none, { session, ended := true })
    | (.error error, session) => (some (.error error), { session, ended := true })

end ConceptUnification
