import Mathlib.Data.List.Sublists
import Mathlib.Data.List.Perm.Subperm
import ConceptUnification.Proofs.EngineRun
import ConceptUnification.Proofs.UserLiterals

/-!
# Runs of the enumeration of satisfying assignments

Beside the encoding an enumeration has an oracle, of which only the correctness
of its answers is used.  A valuation remains for an enumeration if it satisfies
the formula with all clauses added so far.  Each request takes one of the
remaining valuations, and leaves those that the new clause does not exclude.
Runs end, for no two valuations that are taken choose the same subsumers.
-/

namespace ConceptUnification

/-- What an outcome says about a formula. -/
def SatOutcome.Right (formula : Formula) : SatOutcome → Prop
  | .satisfiable valuation => valuation.satisfies formula = true
  | .unsatisfiable => ∀ valuation : Valuation,
      ¬ valuation.satisfies formula = true

/-- Every answer of the oracle is right.  It may fail. -/
def Oracle.Correct (ω : Type) [Oracle ω] : Prop :=
  ∀ (formula : Formula) (oracle : ω) (outcome : SatOutcome) (next : ω),
    Oracle.solve formula oracle = (.ok outcome, next) → outcome.Right formula

/-- The oracle only answers with valuations that satisfy the formula.  It may deny
that there is one, and it may fail. -/
def Oracle.Sound (ω : Type) [Oracle ω] : Prop :=
  ∀ (formula : Formula) (oracle : ω) (valuation : Valuation) (next : ω),
    Oracle.solve formula oracle = (.ok (.satisfiable valuation), next) →
      valuation.satisfies formula = true

theorem Oracle.Correct.sound {ω : Type} [Oracle ω]
    (correct : Oracle.Correct ω) : Oracle.Sound ω := by
  intro formula oracle valuation next solved
  exact correct formula oracle (.satisfiable valuation) next solved

/-- The oracle never fails. -/
def Oracle.Total (ω : Type) [Oracle ω] : Prop :=
  ∀ (formula : Formula) (oracle : ω), ∃ (outcome : SatOutcome) (next : ω),
    Oracle.solve formula oracle = (.ok outcome, next)

/-- The answer of the oracle depends on the formula only. -/
def Oracle.Determined (ω : Type) [Oracle ω] : Prop :=
  ∀ (formula : Formula) (oracle other : ω),
    (Oracle.solve formula oracle).1 = (Oracle.solve formula other).1

namespace Valuation

theorem satisfies_addClause {valuation : Valuation} {formula : Formula}
    {clause : Clause} :
    valuation.satisfies (formula.addClause clause) = true ↔
      valuation.satisfies formula = true ∧
        valuation.holdsClause clause = true := by
  simp only [satisfies_iff, Formula.addClause, Array.mem_push]
  constructor
  · intro all
    exact ⟨fun other member => all other (.inl member), all clause (.inr rfl)⟩
  · rintro ⟨old, new⟩ other (member | rfl)
    · exact old other member
    · exact new

end Valuation

namespace Encoding

variable {encoding : Encoding} {valuation other : Valuation}

theorem mem_chosen {s : SubsumerLiteral} :
    s ∈ encoding.chosen valuation ↔
      s ∈ encoding.subsumers ∧ valuation.holds s.literal = true :=
  List.mem_filter

/-- The formula for fewer subsumers asks for a proper subset of them. -/
theorem satisfies_strictlyBelow_iff :
    other.satisfies (encoding.strictlyBelow valuation) = true ↔
      other.satisfies encoding.formula = true ∧
        encoding.chosen other ⊆ encoding.chosen valuation ∧
        ¬ encoding.chosen valuation ⊆ encoding.chosen other := by
  have fold : ∀ (literals : List Literal) (formula : Formula),
      other.satisfies (literals.foldl (fun formula literal =>
        formula.addClause [literal.negate]) formula) = true ↔
      other.satisfies formula = true ∧
        ∀ literal ∈ literals, ¬ other.holds literal = true := by
    intro literals
    induction literals with
    | nil => simp
    | cons literal literals induction =>
        intro formula
        rw [List.foldl_cons, induction, Valuation.satisfies_addClause]
        simp [and_assoc]
  have unchosen : (∀ literal ∈ (encoding.subsumers.filter fun s =>
        !valuation.holds s.literal).map SubsumerLiteral.literal,
      ¬ other.holds literal = true) ↔
        encoding.chosen other ⊆ encoding.chosen valuation := by
    simp only [List.forall_mem_map, List.mem_filter, List.subset_def,
      mem_chosen]
    constructor
    · rintro excluded s ⟨member, holds⟩
      refine ⟨member, ?_⟩
      by_contra lost
      exact excluded s ⟨member, by simpa using lost⟩ holds
    · rintro within s ⟨member, lost⟩ holds
      rw [(within ⟨member, holds⟩).2] at lost
      cases lost
  have smaller : other.holdsClause (((encoding.chosen valuation).map
        SubsumerLiteral.literal).map Literal.negate) = true ↔
        ¬ encoding.chosen valuation ⊆ encoding.chosen other := by
    simp only [Valuation.holdsClause_iff, List.mem_map, List.subset_def,
      not_forall]
    constructor
    · rintro ⟨_, ⟨_, ⟨s, chosen, rfl⟩, rfl⟩, holds⟩
      exact ⟨s, chosen, fun kept =>
        Valuation.holds_negate.mp holds (mem_chosen.mp kept).2⟩
    · rintro ⟨s, chosen, lost⟩
      refine ⟨_, ⟨_, ⟨s, chosen, rfl⟩, rfl⟩, Valuation.holds_negate.mpr ?_⟩
      exact fun holds => lost (mem_chosen.mpr ⟨(mem_chosen.mp chosen).1, holds⟩)
  rw [strictlyBelow, Valuation.satisfies_addClause, fold, unchosen, smaller,
    and_assoc]

/-- A valuation that is not blocked chooses other subsumers. -/
theorem chosen_ne_of_holdsClause {mode : SatMode}
    (free : other.holdsClause (encoding.blockingClause mode valuation) = true) :
    encoding.chosen other ≠ encoding.chosen valuation := by
  intro same
  have agrees : ∀ s ∈ encoding.subsumers,
      (other.holds s.literal = true ↔ valuation.holds s.literal = true) := by
    intro s member
    have membership : s ∈ encoding.chosen other ↔
        s ∈ encoding.chosen valuation := by rw [same]
    simpa [mem_chosen, member] using membership
  cases mode with
  | all =>
      have blocked := not_holdsClause_blockingClause_all.mpr
        fun s member _ => Bool.eq_iff_iff.mpr (agrees s member).symm
      rw [blocked] at free
      cases free
  | minimal =>
      obtain ⟨literal, inClause, holds⟩ := Valuation.holdsClause_iff.mp free
      obtain ⟨s, chosen, rfl⟩ := List.mem_map.mp inClause
      obtain ⟨member, selected⟩ := mem_chosen.mp chosen
      exact Valuation.holds_negate.mp holds ((agrees s member).mpr selected)

end Encoding

namespace SatSearch

variable {ω : Type}

/-- What requests to the oracle keep when they succeed. -/
structure Keeps (before after : SatSearch ω) : Prop where
  goal : after.goal = before.goal
  mode : after.mode = before.mode
  encoding : after.encoding = before.encoding
  stepLimit : after.stepLimit = before.stepLimit
  exhausted : after.exhausted = before.exhausted
  failure : after.failure = before.failure

theorem Keeps.refl (search : SatSearch ω) : search.Keeps search :=
  ⟨rfl, rfl, rfl, rfl, rfl, rfl⟩

theorem Keeps.trans {first second third : SatSearch ω}
    (early : first.Keeps second) (late : second.Keeps third) :
    first.Keeps third :=
  ⟨late.goal.trans early.goal, late.mode.trans early.mode,
    late.encoding.trans early.encoding, late.stepLimit.trans early.stepLimit,
    late.exhausted.trans early.exhausted, late.failure.trans early.failure⟩

/-- The valuation satisfies the formula and was not excluded so far. -/
def Remains (search : SatSearch ω) (valuation : Valuation) : Prop :=
  search.exhausted = false ∧
    valuation.satisfies search.encoding.formula = true

/-- What taking a valuation changes: it and all that the new clause excludes
remain no longer. -/
structure Takes (before after : SatSearch ω) (valuation : Valuation) :
    Prop where
  goal : after.goal = before.goal
  mode : after.mode = before.mode
  subsumers : after.encoding.subsumers = before.encoding.subsumers
  stepLimit : after.stepLimit = before.stepLimit
  failure : after.failure = before.failure
  remains : ∀ other : Valuation, after.Remains other ↔
    before.Remains other ∧ other.holdsClause
      (before.encoding.blockingClause before.mode valuation) = true

theorem takes_block {search : SatSearch ω} {valuation : Valuation}
    (remains : search.Remains valuation) :
    search.Takes (search.block valuation) valuation := by
  obtain ⟨running, _⟩ := remains
  unfold block
  by_cases empty :
      (search.encoding.blockingClause search.mode valuation).isEmpty = true
  · simp only [empty, if_true]
    refine ⟨rfl, rfl, rfl, rfl, rfl, fun other => ?_⟩
    rw [List.isEmpty_iff.mp empty]
    simp [Remains]
  · simp only [empty]
    refine ⟨rfl, rfl, rfl, rfl, rfl, fun other => ?_⟩
    simp only [Remains, Encoding.addClause, Bool.false_eq_true, if_false,
      Valuation.satisfies_addClause, running, true_and]

theorem Keeps.remains_iff {before after : SatSearch ω}
    (keeps : before.Keeps after) {valuation : Valuation} :
    after.Remains valuation ↔ before.Remains valuation := by
  rw [Remains, Remains, keeps.exhausted, keeps.encoding]

variable [Oracle ω]

section Requests

variable {cancelled : CancelSchedule} {search after : SatSearch ω}

/-- A question that is answered was put to the oracle. -/
theorem ask_eq_ok {steps : Nat} {formula : Formula} {outcome : SatOutcome}
    (run : search.ask cancelled steps formula = (.ok outcome, after)) :
    search.Keeps after ∧ ∃ oracle next : ω,
      Oracle.solve formula oracle = (.ok outcome, next) := by
  unfold ask at run
  split at run
  · cases run
  · split at run
    · cases run
    · simp only at run
      split at run
      · next solved =>
          cases run
          exact ⟨⟨rfl, rfl, rfl, rfl, rfl, rfl⟩, _, _, solved⟩
      · cases run

theorem keeps_of_shrink {encoding : Encoding} {steps : Nat}
    {valuation smallest : Valuation}
    (run : shrink cancelled encoding steps valuation search =
      (.ok smallest, after)) : search.Keeps after := by
  fun_induction shrink cancelled encoding steps valuation search with
  | case1 =>
      cases run
      exact .refl _
  | case2 => cases run
  | case3 steps valuation search _ counted next asked =>
      have counting : search.Keeps counted := ⟨rfl, rfl, rfl, rfl, rfl, rfl⟩
      cases run
      exact counting.trans (ask_eq_ok asked).1
  | case4 steps valuation search _ counted smaller next asked _ induction =>
      have counting : search.Keeps counted := ⟨rfl, rfl, rfl, rfl, rfl, rfl⟩
      exact (counting.trans (ask_eq_ok asked).1).trans (induction run)
  | case5 steps valuation search _ counted smaller next asked _ =>
      have counting : search.Keeps counted := ⟨rfl, rfl, rfl, rfl, rfl, rfl⟩
      cases run
      exact counting.trans (ask_eq_ok asked).1

/-- Shrinking a valuation keeps the formula satisfied. -/
theorem satisfies_of_shrink (sound : Oracle.Sound ω) {encoding : Encoding}
    {steps : Nat} {valuation smallest : Valuation}
    (run : shrink cancelled encoding steps valuation search =
      (.ok smallest, after))
    (satisfies : valuation.satisfies encoding.formula = true) :
    smallest.satisfies encoding.formula = true := by
  fun_induction shrink cancelled encoding steps valuation search with
  | case1 =>
      cases run
      exact satisfies
  | case2 => cases run
  | case3 =>
      cases run
      exact satisfies
  | case4 steps valuation search _ counted smaller next asked _ induction =>
      obtain ⟨_, _, _, solved⟩ := ask_eq_ok asked
      have stronger := sound _ _ _ _ solved
      exact induction run (Encoding.satisfies_strictlyBelow_iff.mp stronger).1
  | case5 steps valuation search _ counted smaller next asked _ =>
      obtain ⟨_, _, _, solved⟩ := ask_eq_ok asked
      have stronger := sound _ _ _ _ solved
      cases run
      exact (Encoding.satisfies_strictlyBelow_iff.mp stronger).1

/-- What a request finds is the first answer of the oracle, and in mode
`minimal` what the shrinking makes of it. -/
theorem nextValuation_eq_ok_iff {found : Option Valuation} :
    search.nextValuation cancelled = (.ok found, after) ↔
      ∃ outcome middle,
        search.ask cancelled 0 search.encoding.formula =
          (.ok outcome, middle) ∧
        match outcome, search.mode with
        | .unsatisfiable, _ => found = none ∧ after = middle
        | .satisfiable first, .all => found = some first ∧ after = middle
        | .satisfiable first, .minimal => ∃ smallest, found = some smallest ∧
            shrink cancelled search.encoding 1 first middle =
              (.ok smallest, after) := by
  unfold nextValuation
  constructor
  · intro run
    split at run
    · cases run
    · next middle asked =>
        cases run
        exact ⟨_, _, asked, rfl, rfl⟩
    · next first middle asked =>
        obtain ⟨keeps, _⟩ := ask_eq_ok asked
        refine ⟨_, _, asked, ?_⟩
        rw [keeps.mode, keeps.encoding] at run
        cases mode : search.mode with
        | all =>
            simp only [mode] at run
            cases run
            exact ⟨rfl, rfl⟩
        | minimal =>
            simp only [mode] at run
            split at run
            · cases run
            · next shrunk =>
                cases run
                exact ⟨_, rfl, shrunk⟩
  · intro result
    obtain ⟨outcome, middle, asked, result⟩ := result
    obtain ⟨keeps, _⟩ := ask_eq_ok asked
    cases outcome with
    | unsatisfiable =>
        obtain ⟨rfl, rfl⟩ := result
        simp only [asked]
    | satisfiable first =>
        simp only [asked, keeps.mode, keeps.encoding]
        cases mode : search.mode with
        | all =>
            simp only [mode] at result
            obtain ⟨rfl, rfl⟩ := result
            rfl
        | minimal =>
            simp only [mode] at result
            obtain ⟨smallest, rfl, shrunk⟩ := result
            simp only [shrunk]

theorem keeps_of_nextValuation {found : Option Valuation}
    (run : search.nextValuation cancelled = (.ok found, after)) :
    search.Keeps after := by
  obtain ⟨outcome, middle, asked, result⟩ :=
    nextValuation_eq_ok_iff.mp run
  obtain ⟨keeps, _⟩ := ask_eq_ok asked
  cases outcome with
  | unsatisfiable =>
      rw [result.2]
      exact keeps
  | satisfiable first =>
      cases mode : search.mode with
      | all =>
          simp only [mode] at result
          rw [result.2]
          exact keeps
      | minimal =>
          simp only [mode] at result
          obtain ⟨_, _, shrunk⟩ := result
          exact keeps.trans (keeps_of_shrink shrunk)

/-- The valuation that a request takes satisfies the formula. -/
theorem satisfies_of_nextValuation (sound : Oracle.Sound ω)
    {valuation : Valuation}
    (run : search.nextValuation cancelled = (.ok (some valuation), after)) :
    valuation.satisfies search.encoding.formula = true := by
  obtain ⟨outcome, middle, asked, result⟩ :=
    nextValuation_eq_ok_iff.mp run
  obtain ⟨_, _, _, solved⟩ := ask_eq_ok asked
  cases outcome with
  | unsatisfiable => cases result.1
  | satisfiable first =>
      have satisfies := sound _ _ _ _ solved
      cases mode : search.mode with
      | all =>
          simp only [mode] at result
          cases result.1
          exact satisfies
      | minimal =>
          simp only [mode] at result
          obtain ⟨_, same, shrunk⟩ := result
          cases same
          exact satisfies_of_shrink sound shrunk satisfies

/-- A request finds no valuation if the oracle denies that there is one. -/
theorem nextValuation_eq_none
    (run : search.nextValuation cancelled = (.ok none, after)) :
    ∃ oracle next : ω, Oracle.solve search.encoding.formula oracle =
      (.ok .unsatisfiable, next) := by
  obtain ⟨outcome, middle, asked, result⟩ :=
    nextValuation_eq_ok_iff.mp run
  obtain ⟨_, denied⟩ := ask_eq_ok asked
  cases outcome with
  | unsatisfiable => exact denied
  | satisfiable first =>
      cases mode : search.mode with
      | all =>
          simp only [mode] at result
          cases result.1
      | minimal =>
          simp only [mode] at result
          obtain ⟨_, same, _⟩ := result
          cases same

end Requests

/-- A request that finds a unifier reads it off the next valuation. -/
theorem next_eq_some {cancelled : CancelSchedule} {search after : SatSearch ω}
    {unifier : Unifier}
    (run : search.next cancelled = (.ok (some unifier), after)) :
    ∃ valuation middle, search.exhausted = false ∧
      search.nextValuation cancelled = (.ok (some valuation), middle) ∧
      unifier = .ofAssignment middle.goal
        (middle.encoding.decode valuation) ∧
      after = middle.block valuation := by
  unfold next at run
  split at run
  · cases run
  · split at run
    · cases run
    · next running =>
        split at run
        · cases run
        · cases run
        · next valuation middle asked =>
            cases run
            exact ⟨valuation, middle, by simpa using running, asked, rfl, rfl⟩

/-- The next valuation remains, and blocking takes it. -/
theorem takes_of_nextValuation (sound : Oracle.Sound ω)
    {cancelled : CancelSchedule} {search middle : SatSearch ω}
    {valuation : Valuation} (running : search.exhausted = false)
    (asked : search.nextValuation cancelled =
      (.ok (some valuation), middle)) :
    search.Remains valuation ∧
      search.Takes (middle.block valuation) valuation := by
  have keeps := keeps_of_nextValuation asked
  have remains : search.Remains valuation :=
    ⟨running, satisfies_of_nextValuation sound asked⟩
  have takes := takes_block (keeps.remains_iff.mpr remains)
  exact ⟨remains,
    { goal := takes.goal.trans keeps.goal
      mode := takes.mode.trans keeps.mode
      subsumers := takes.subsumers.trans
        (congrArg Encoding.subsumers keeps.encoding)
      stepLimit := takes.stepLimit.trans keeps.stepLimit
      failure := takes.failure.trans keeps.failure
      remains := fun other => by
        rw [takes.remains, keeps.remains_iff, keeps.encoding, keeps.mode] }⟩

/-- A request that finds a unifier takes a remaining valuation. -/
theorem takes_of_next (sound : Oracle.Sound ω) {cancelled : CancelSchedule}
    {search after : SatSearch ω} {unifier : Unifier}
    (run : search.next cancelled = (.ok (some unifier), after)) :
    ∃ valuation, search.Remains valuation ∧
      unifier = .ofAssignment search.goal
        (search.encoding.decode valuation) ∧
      search.Takes after valuation := by
  obtain ⟨valuation, middle, running, asked, rfl, rfl⟩ := next_eq_some run
  have keeps := keeps_of_nextValuation asked
  obtain ⟨remains, takes⟩ := takes_of_nextValuation sound running asked
  exact ⟨valuation, remains, by rw [keeps.goal, keeps.encoding], takes⟩

theorem next_of_exhausted {search : SatSearch ω}
    (exhausted : search.exhausted = true) (unfailed : search.failure = none)
    (cancelled : CancelSchedule) :
    search.next cancelled = (.ok none, search) := by
  simp [next, unfailed, exhausted]

/-- A request that finds no unifier ends the enumeration: the oracle denied
that there is one, in this request or in an earlier one. -/
theorem exhausted_of_next {cancelled : CancelSchedule}
    {search after : SatSearch ω}
    (run : search.next cancelled = (.ok none, after)) :
    after.exhausted = true ∧ after.failure = none ∧
      (search.exhausted = true ∨ ∃ oracle next : ω,
        Oracle.solve search.encoding.formula oracle =
          (.ok .unsatisfiable, next)) ∧
      after.goal = search.goal ∧ after.mode = search.mode ∧
      after.encoding = search.encoding := by
  unfold next at run
  split at run
  · cases run
  · next unfailed =>
      split at run
      · next exhausted =>
          cases run
          exact ⟨exhausted, unfailed, .inl exhausted, rfl, rfl, rfl⟩
      · split at run
        · cases run
        · next middle asked =>
            cases run
            have keeps := keeps_of_nextValuation asked
            exact ⟨rfl, keeps.failure.trans unfailed,
              .inr (nextValuation_eq_none asked), keeps.goal, keeps.mode,
              keeps.encoding⟩
        · cases run

/-- A request that finds no unifier has none to find, and so have all later
ones. -/
theorem next_eq_none (correct : Oracle.Correct ω) {cancelled : CancelSchedule}
    {search after : SatSearch ω}
    (run : search.next cancelled = (.ok none, after)) :
    (∀ valuation, ¬ search.Remains valuation) ∧
      ∀ later, after.next later = (.ok none, after) := by
  obtain ⟨ended, unfailed, denied, _⟩ := exhausted_of_next run
  refine ⟨?_, next_of_exhausted ended unfailed⟩
  intro valuation remains
  obtain ⟨running, satisfies⟩ := remains
  rcases denied with exhausted | ⟨oracle, next, solved⟩
  · rw [running] at exhausted
    cases exhausted
  · exact correct _ _ _ _ solved valuation satisfies

/-- An enumeration for a goal in some mode, after any requests. -/
structure Serves (goal : Goal) (mode : SatMode) (search : SatSearch ω) :
    Prop where
  sameGoal : search.goal = goal
  sameMode : search.mode = mode
  subsumers : search.encoding.subsumers = (Encoding.ofGoal goal).subsumers
  satisfies : ∀ valuation, search.Remains valuation →
    valuation.satisfies (Encoding.ofGoal goal).formula = true

section Runs

variable {goal : Goal} {mode : SatMode} {search after : SatSearch ω}

omit [Oracle ω] in
theorem serves_new (goal : Goal) (mode : SatMode) (oracle : ω)
    (stepLimit : Nat) :
    (SatSearch.new goal mode oracle stepLimit).Serves goal mode where
  sameGoal := rfl
  sameMode := rfl
  subsumers := rfl
  satisfies := fun _ remains => remains.2

omit [Oracle ω] in
theorem Serves.takes {valuation : Valuation}
    (serves : search.Serves goal mode) (takes : search.Takes after valuation) :
    after.Serves goal mode where
  sameGoal := takes.goal.trans serves.sameGoal
  sameMode := takes.mode.trans serves.sameMode
  subsumers := takes.subsumers.trans serves.subsumers
  satisfies := fun other remains =>
    serves.satisfies other ((takes.remains other).mp remains).1

omit [Oracle ω] in
theorem Serves.decode_eq (serves : search.Serves goal mode)
    (valuation : Valuation) :
    search.encoding.decode valuation =
      (Encoding.ofGoal goal).decode valuation := by
  rw [Encoding.decode, Encoding.decode, Encoding.chosen, Encoding.chosen,
    serves.subsumers]

omit [Oracle ω] in
theorem Serves.blockingClause_eq (serves : search.Serves goal mode)
    (valuation : Valuation) :
    search.encoding.blockingClause search.mode valuation =
      (Encoding.ofGoal goal).blockingClause mode valuation := by
  rw [serves.sameMode]
  unfold Encoding.blockingClause Encoding.chosen
  rw [serves.subsumers]

variable (correct : Oracle.Correct ω)

include correct

/-- What is yielded is read off remaining valuations. -/
theorem exists_remains_of_yields {unifiers : List Unifier}
    (yields : Engine.Yields search unifiers)
    (serves : search.Serves goal mode) :
    ∀ unifier ∈ unifiers, ∃ valuation, search.Remains valuation ∧
      unifier = .ofAssignment goal
        ((Encoding.ofGoal goal).decode valuation) := by
  induction yields with
  | exhausted => simp
  | found answer _ induction =>
      obtain ⟨valuation, remains, same, takes⟩ :=
        takes_of_next correct.sound answer
      intro unifier member
      rcases List.mem_cons.mp member with rfl | later
      · refine ⟨valuation, remains, ?_⟩
        rw [same, serves.sameGoal, serves.decode_eq]
      · obtain ⟨other, remains', same'⟩ :=
          induction (serves.takes takes) unifier later
        exact ⟨other, ((takes.remains other).mp remains').1, same'⟩

/-- For every remaining valuation one is taken whose clause excludes it. -/
theorem exists_blocking_of_yields {unifiers : List Unifier}
    (yields : Engine.Yields search unifiers)
    (serves : search.Serves goal mode) {other : Valuation}
    (remains : search.Remains other) :
    ∃ valuation, search.Remains valuation ∧
      .ofAssignment goal ((Encoding.ofGoal goal).decode valuation) ∈
        unifiers ∧
      other.holdsClause ((Encoding.ofGoal goal).blockingClause mode valuation) =
        false := by
  induction yields with
  | exhausted answer =>
      exact ((next_eq_none correct answer).1 other remains).elim
  | found answer _ induction =>
      obtain ⟨valuation, remains', same, takes⟩ :=
        takes_of_next correct.sound answer
      cases free : other.holdsClause
          ((Encoding.ofGoal goal).blockingClause mode valuation) with
      | false =>
          refine ⟨valuation, remains', ?_, free⟩
          rw [same, serves.sameGoal, serves.decode_eq]
          exact List.mem_cons_self
      | true =>
          rw [← serves.blockingClause_eq] at free
          obtain ⟨found, remains'', member, blocked⟩ := induction
            (serves.takes takes) ((takes.remains other).mpr ⟨remains, free⟩)
          exact ⟨found, ((takes.remains found).mp remains'').1,
            List.mem_cons_of_mem _ member, blocked⟩

end Runs

section Ending

variable {goal : Goal} {mode : SatMode} {search after : SatSearch ω}
  (total : Oracle.Total ω)

include total

/-- A question that is not cancelled or limited is answered. -/
theorem exists_ask (unlimited : search.stepLimit = 0) (steps : Nat)
    (formula : Formula) :
    ∃ outcome after, search.ask Engine.never steps formula =
      (.ok outcome, after) := by
  obtain ⟨outcome, next, solved⟩ := total formula search.oracle
  unfold ask Engine.never
  simp only [Bool.false_eq_true, if_false, unlimited, bne_self_eq_false,
    Bool.false_and, solved]
  exact ⟨_, _, rfl⟩

theorem exists_shrink (encoding : Encoding) (steps : Nat)
    (valuation : Valuation) (unlimited : search.stepLimit = 0) :
    ∃ smallest after, shrink Engine.never encoding steps valuation search =
      (.ok smallest, after) := by
  fun_induction shrink Engine.never encoding steps valuation search with
  | case1 => exact ⟨_, _, rfl⟩
  | case2 steps valuation search _ counted error next asked =>
      obtain ⟨_, _, answered⟩ := exists_ask total
        (show counted.stepLimit = 0 from unlimited) steps
        (encoding.strictlyBelow valuation)
      rw [asked] at answered
      cases answered
  | case3 => exact ⟨_, _, rfl⟩
  | case4 steps valuation search _ counted smaller next asked _ induction =>
      exact induction ((ask_eq_ok asked).1.stepLimit.trans unlimited)
  | case5 => exact ⟨_, _, rfl⟩

theorem exists_next (unlimited : search.stepLimit = 0)
    (unfailed : search.failure = none) :
    ∃ found after, search.next Engine.never = (.ok found, after) := by
  unfold next
  rw [unfailed]
  by_cases exhausted : search.exhausted = true
  · simp only [exhausted, if_true]
    exact ⟨_, _, rfl⟩
  have valued : ∃ found after, search.nextValuation Engine.never =
      (.ok found, after) := by
    obtain ⟨outcome, middle, asked⟩ :=
      exists_ask total unlimited 0 search.encoding.formula
    unfold nextValuation
    rw [asked]
    cases outcome with
    | unsatisfiable => exact ⟨_, _, rfl⟩
    | satisfiable valuation =>
        cases mode : middle.mode with
        | all =>
            simp only [mode]
            exact ⟨_, _, rfl⟩
        | minimal =>
            obtain ⟨smallest, last, shrunk⟩ := exists_shrink total
              middle.encoding 1 valuation
              ((ask_eq_ok asked).1.stepLimit.trans unlimited)
            simp only [mode, shrunk]
            exact ⟨_, _, rfl⟩
  obtain ⟨found, middle, run⟩ := valued
  simp only [exhausted, run]
  cases found <;> exact ⟨_, _, rfl⟩

/-- Each valuation that is taken chooses other subsumers than those before, and
there are only finitely many choices. -/
theorem exists_yields_of_seen (sound : Oracle.Sound ω) (left : Nat)
    (seen : List (List SubsumerLiteral)) (distinct : seen.Nodup)
    (within : seen ⊆ (Encoding.ofGoal goal).subsumers.sublists)
    (enough : (Encoding.ofGoal goal).subsumers.sublists.length <
      left + seen.length)
    (serves : search.Serves goal mode)
    (new : ∀ valuation, search.Remains valuation →
      (Encoding.ofGoal goal).chosen valuation ∉ seen)
    (unlimited : search.stepLimit = 0) (unfailed : search.failure = none) :
    ∃ unifiers, Engine.Yields search unifiers := by
  induction left generalizing seen search with
  | zero =>
      have bounded := (List.subperm_of_subset distinct within).length_le
      omega
  | succ left induction =>
      obtain ⟨found, after, answer⟩ := exists_next total unlimited unfailed
      cases found with
      | none => exact ⟨[], .exhausted answer⟩
      | some unifier =>
          obtain ⟨valuation, remains, _, takes⟩ := takes_of_next sound answer
          obtain ⟨unifiers, later⟩ := induction
            ((Encoding.ofGoal goal).chosen valuation :: seen)
            (List.nodup_cons.mpr ⟨new valuation remains, distinct⟩)
            (List.cons_subset.mpr ⟨List.mem_sublists.mpr List.filter_sublist,
              within⟩)
            (by rw [List.length_cons]; omega)
            (serves.takes takes)
            (by
              intro other remains'
              obtain ⟨before, free⟩ := (takes.remains other).mp remains'
              rw [serves.blockingClause_eq] at free
              rw [List.mem_cons, not_or]
              exact ⟨Encoding.chosen_ne_of_holdsClause free, new other before⟩)
            (takes.stepLimit.trans unlimited) (takes.failure.trans unfailed)
          exact ⟨unifier :: unifiers, .found answer later⟩

/-- The run of an enumeration ends if the oracle never fails, even if it denies
satisfying valuations. -/
theorem exists_yields_of_sound (sound : Oracle.Sound ω) (goal : Goal)
    (mode : SatMode) (oracle : ω) :
    ∃ unifiers,
      Engine.Yields (SatSearch.new goal mode oracle 0) unifiers :=
  exists_yields_of_seen total sound
    ((Encoding.ofGoal goal).subsumers.sublists.length + 1) [] List.nodup_nil
    (List.nil_subset _) (by simp) (serves_new goal mode oracle 0) (by simp)
    rfl rfl

theorem exists_yields (correct : Oracle.Correct ω) (goal : Goal)
    (mode : SatMode) (oracle : ω) :
    ∃ unifiers,
      Engine.Yields (SatSearch.new goal mode oracle 0) unifiers :=
  exists_yields_of_sound total correct.sound goal mode oracle

end Ending

end SatSearch

end ConceptUnification
