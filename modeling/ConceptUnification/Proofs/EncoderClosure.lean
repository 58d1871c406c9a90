import ConceptUnification.Proofs.EncoderBounds
import ConceptUnification.Proofs.EnumerationErrors

/-!
# Closure of the encoding

Pairs of atoms are taken from the queue and defined until none is left, and the
definition of a pair may queue others.  No pair is queued twice, so this comes
to an end after at most as many pairs as there are.  The literals of subsumers
are the first ones, in the order of their variables and atoms, and the engine
blocks valuations by clauses over these literals.
-/

namespace ConceptUnification

namespace Encoder

variable {goal : Goal}

section Queue

theorem Sound.pop {size : Nat} {encoder : Encoder}
    {done rest : List (AtomId × AtomId)} {pair : AtomId × AtomId}
    (sound : Sound size done encoder) (queue : encoder.queue = pair :: rest) :
    Sound size (pair :: done) { encoder with queue := rest } where
  numbers := ⟨sound.numbers.covered, sound.numbers.injective⟩
  tracked := sound.tracked.pop queue
  queued := by
    have counted := sound.queued
    rw [queue] at counted
    simp only [List.length_cons] at counted ⊢
    omega
  covered := sound.covered

end Queue

section Numbering

end Numbering

end Encoder

namespace Goal

variable (goal : Goal)

end Goal

namespace Encoding

end Encoding

namespace SatSearch

variable {ω : Type} {goal : Goal} {search later : SatSearch ω}

/-- An enumeration whose formula is that of a goal with further clauses over
the same variables. -/
structure Bounded (goal : Goal) (search : SatSearch ω) : Prop where
  subsumers : search.encoding.subsumers = (Encoding.ofGoal goal).subsumers
  count : search.encoding.formula.variableCount =
    (Encoding.ofGoal goal).formula.variableCount
  covered : ∀ clause ∈ search.encoding.formula.clauses,
    search.encoding.formula.CoversAll clause

theorem Bounded.of_encoding (bounded : search.Bounded goal)
    (same : later.encoding = search.encoding) : later.Bounded goal := by
  obtain ⟨subsumers, count, covered⟩ := bounded
  rw [← same] at subsumers count covered
  exact ⟨subsumers, count, covered⟩

/-- The clause that blocks a valuation is over literals of subsumers. -/
theorem Bounded.block (bounded : search.Bounded goal)
    (covers : ∀ s ∈ (Encoding.ofGoal goal).subsumers,
      (Encoding.ofGoal goal).formula.Covers s.literal)
    (valuation : Valuation) : (search.block valuation).Bounded goal := by
  have literals : ∀ s ∈ search.encoding.subsumers,
      search.encoding.formula.Covers s.literal := by
    intro s member
    rw [bounded.subsumers] at member
    exact (covers s member).mono (Nat.le_of_eq bounded.count.symm)
  have blocking : search.encoding.formula.CoversAll
      (search.encoding.blockingClause search.mode valuation) := by
    intro lit member
    unfold Encoding.blockingClause at member
    cases mode : search.mode with
    | minimal =>
        rw [mode] at member
        obtain ⟨s, chosen, rfl⟩ := List.mem_map.mp member
        exact literals s (List.mem_filter.mp chosen).1
    | all =>
        rw [mode] at member
        obtain ⟨s, user, rfl⟩ := List.mem_map.mp member
        have covered := literals s (List.mem_filter.mp user).1
        split
        · exact covered
        · exact covered
  unfold SatSearch.block
  by_cases empty :
      (search.encoding.blockingClause search.mode valuation).isEmpty = true
  · simp only [empty, if_true]
    exact ⟨bounded.subsumers, bounded.count, bounded.covered⟩
  · simp only [empty]
    refine ⟨bounded.subsumers, bounded.count, ?_⟩
    intro clause member
    rcases Array.mem_push.mp member with old | rfl
    · exact bounded.covered clause old
    · exact blocking

variable [Oracle ω]

theorem Bounded.next (bounded : search.Bounded goal)
    (covers : ∀ s ∈ (Encoding.ofGoal goal).subsumers,
      (Encoding.ofGoal goal).formula.Covers s.literal)
    {cancelled : CancelSchedule} {answer : Answer}
    (run : search.next cancelled = (answer, later)) : later.Bounded goal := by
  cases answer with
  | error error => exact bounded.of_encoding (fails_of_next run).encoding
  | ok found =>
      cases found with
      | none =>
          unfold SatSearch.next at run
          split at run
          · cases run
          · split at run
            · cases run
              exact bounded
            · split at run
              · cases run
              · next asked =>
                  cases run
                  exact bounded.of_encoding
                    (keeps_of_nextValuation asked).encoding
              · cases run
      | some unifier =>
          obtain ⟨valuation, middle, _, asked, _, rfl⟩ := next_eq_some run
          exact (bounded.of_encoding
            (keeps_of_nextValuation asked).encoding).block covers valuation

theorem Bounded.after (bounded : search.Bounded goal)
    (covers : ∀ s ∈ (Encoding.ofGoal goal).subsumers,
      (Encoding.ofGoal goal).formula.Covers s.literal)
    (schedules : List CancelSchedule) :
    (Engine.after schedules search).Bounded goal := by
  induction schedules generalizing search with
  | nil => exact bounded
  | cons cancelled schedules induction =>
      exact induction (bounded.next covers rfl)

end SatSearch

namespace Encoding

end Encoding

end ConceptUnification
