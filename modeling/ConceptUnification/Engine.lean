import ConceptUnification.Unifier
import ConceptUnification.Error

/-!
# Engines

An engine is a state that yields the unifiers of a goal one at a time. The caller's cancel flag is
looked at several times in the course of one request. The flag is therefore a function of the number
of the look, which counts from zero in each request.
-/

namespace ConceptUnification

/-- What an engine answers to a request: a unifier, nothing if there are no more, or an error. -/
abbrev Answer := Except UnificationError (Option Unifier)

/-- Whether a request is cancelled, as seen at each look at the flag. -/
abbrev CancelSchedule := Nat → Bool

/-- States that yield unifiers. -/
class Engine (σ : Type) where
  name : σ → String
  /-- The next unifier, and the state in which to ask for the one after it. -/
  next : CancelSchedule → σ → Answer × σ
  info : σ → List (String × String)

end ConceptUnification
