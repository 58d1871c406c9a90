import Mathlib.Data.List.Perm.Basic
import ConceptUnification.Proofs.ExhaustiveOracle

/-!
# Enumeration of minimal solutions

In mode `minimal` a valuation is shrunk against the formula that also blocks
the solutions found before.  What is minimal there is minimal for the encoding
itself, since a blocking clause that a valuation satisfies is satisfied by every
valuation that chooses less.  So a run finds each minimal choice of subsumers
exactly once, whatever oracle it uses.
-/

namespace ConceptUnification

namespace Encoding

variable {encoding : Encoding} {valuation other : Valuation}

/-- Between satisfying valuations, none chooses a proper subset of the
subsumers. -/
structure Minimal (encoding : Encoding) (valuation : Valuation) : Prop where
  satisfies : valuation.satisfies encoding.formula = true
  least : ∀ other : Valuation, other.satisfies encoding.formula = true →
    encoding.chosen other ⊆ encoding.chosen valuation →
      encoding.chosen valuation ⊆ encoding.chosen other

/-- A smaller choice is the part of the larger one that holds. -/
theorem chosen_eq_filter
    (within : encoding.chosen other ⊆ encoding.chosen valuation) :
    encoding.chosen other =
      (encoding.chosen valuation).filter fun s => other.holds s.literal := by
  unfold chosen at within ⊢
  rw [List.filter_filter]
  apply List.filter_congr
  intro s member
  cases holds : other.holds s.literal with
  | false => simp
  | true =>
      have inOther : s ∈ encoding.subsumers.filter fun s =>
          other.holds s.literal := List.mem_filter.mpr ⟨member, holds⟩
      simpa using (List.mem_filter.mp (within inOther)).2.symm

theorem chosen_eq_of_subset
    (within : encoding.chosen other ⊆ encoding.chosen valuation)
    (covers : encoding.chosen valuation ⊆ encoding.chosen other) :
    encoding.chosen other = encoding.chosen valuation := by
  rw [chosen_eq_filter within]
  exact List.filter_eq_self.mpr fun s member => (mem_chosen.mp (covers member)).2

/-- An answer to the question for fewer subsumers has fewer of them. -/
theorem length_chosen_lt
    (smaller : other.satisfies (encoding.strictlyBelow valuation) = true) :
    (encoding.chosen other).length < (encoding.chosen valuation).length := by
  obtain ⟨_, within, proper⟩ := satisfies_strictlyBelow_iff.mp smaller
  rw [chosen_eq_filter within]
  apply List.length_filter_lt_length_iff_exists.mpr
  by_contra all
  apply proper
  intro s member
  rw [chosen_eq_filter within]
  refine List.mem_filter.mpr ⟨member, ?_⟩
  by_contra lost
  exact all ⟨s, member, lost⟩

theorem minimal_of_nothing_chosen
    (satisfies : valuation.satisfies encoding.formula = true)
    (nothing : (encoding.chosen valuation).isEmpty = true) :
    encoding.Minimal valuation where
  satisfies := satisfies
  least := by
    rw [List.isEmpty_iff.mp nothing]
    exact fun _ _ _ => List.nil_subset _

theorem minimal_of_strictlyBelow
    (satisfies : valuation.satisfies encoding.formula = true)
    (none_ : ∀ other : Valuation,
      ¬ other.satisfies (encoding.strictlyBelow valuation) = true) :
    encoding.Minimal valuation where
  satisfies := satisfies
  least := by
    intro other otherSatisfies within
    by_contra proper
    exact none_ other
      (satisfies_strictlyBelow_iff.mpr ⟨otherSatisfies, within, proper⟩)

/-- The clause that blocks a minimal solution blocks what chooses at least the
same subsumers. -/
theorem holdsClause_blockingClause_minimal :
    other.holdsClause (encoding.blockingClause .minimal valuation) = true ↔
      ¬ encoding.chosen valuation ⊆ encoding.chosen other := by
  simp only [blockingClause, Valuation.holdsClause_iff, List.mem_map,
    List.subset_def, not_forall]
  constructor
  · rintro ⟨_, ⟨s, chosen, rfl⟩, holds⟩
    exact ⟨s, chosen, fun kept =>
      Valuation.holds_negate.mp holds (mem_chosen.mp kept).2⟩
  · rintro ⟨s, chosen, lost⟩
    refine ⟨_, ⟨s, chosen, rfl⟩, Valuation.holds_negate.mpr ?_⟩
    exact fun holds => lost (mem_chosen.mpr ⟨(mem_chosen.mp chosen).1, holds⟩)

/-- Below every satisfying valuation there is a minimal one. -/
theorem exists_minimal
    (satisfies : valuation.satisfies encoding.formula = true) :
    ∃ smallest, encoding.Minimal smallest ∧
      encoding.chosen smallest ⊆ encoding.chosen valuation := by
  induction size : (encoding.chosen valuation).length using Nat.strongRecOn
    generalizing valuation with
  | _ size induction =>
      subst size
      by_cases smaller : ∃ other : Valuation,
          other.satisfies (encoding.strictlyBelow valuation) = true
      · obtain ⟨other, below⟩ := smaller
        obtain ⟨otherSatisfies, within, _⟩ :=
          satisfies_strictlyBelow_iff.mp below
        obtain ⟨smallest, minimal, least⟩ :=
          induction _ (length_chosen_lt below) otherSatisfies rfl
        exact ⟨smallest, minimal, List.Subset.trans least within⟩
      · exact ⟨valuation, minimal_of_strictlyBelow satisfies
          fun other below => smaller ⟨other, below⟩, fun _ => id⟩

end Encoding

namespace SatSearch

variable {ω : Type} [Oracle ω]

/-- Counts a question that is put to shrink a solution. -/
def countMinimization (search : SatSearch ω) : SatSearch ω :=
  { search with
    stats := { search.stats with
      minimizationCalls := search.stats.minimizationCalls + 1 } }

/-- The loop that shrinks a valuation: each answer of the oracle replaces the
valuation before it, whatever the answer is, until the oracle has none. -/
inductive Shrinks (cancelled : CancelSchedule) (encoding : Encoding) :
    Nat → Valuation → SatSearch ω → Valuation → SatSearch ω → Prop
  | nothingChosen {steps : Nat} {valuation : Valuation}
      {search : SatSearch ω}
      (nothing : (encoding.chosen valuation).isEmpty = true) :
      Shrinks cancelled encoding steps valuation search valuation search
  | unsatisfiable {steps : Nat} {valuation : Valuation}
      {search after : SatSearch ω}
      (something : ¬ (encoding.chosen valuation).isEmpty = true)
      (asked : ask cancelled steps (encoding.strictlyBelow valuation)
        search.countMinimization = (.ok .unsatisfiable, after)) :
      Shrinks cancelled encoding steps valuation search valuation after
  | satisfiable {steps : Nat} {valuation smaller smallest : Valuation}
      {search middle after : SatSearch ω}
      (something : ¬ (encoding.chosen valuation).isEmpty = true)
      (asked : ask cancelled steps (encoding.strictlyBelow valuation)
        search.countMinimization = (.ok (.satisfiable smaller), middle))
      (later : Shrinks cancelled encoding (steps + 1) smaller middle smallest
        after) :
      Shrinks cancelled encoding steps valuation search smallest after

section Requests

variable {cancelled : CancelSchedule} {search after : SatSearch ω}

/-- With a sound oracle the guard of the shrinking is never needed: it does
what the loop without the guard does. -/
theorem shrink_eq_ok_iff (sound : Oracle.Sound ω) {encoding : Encoding}
    {steps : Nat} {valuation smallest : Valuation} :
    shrink cancelled encoding steps valuation search = (.ok smallest, after) ↔
      Shrinks cancelled encoding steps valuation search smallest after := by
  constructor
  · intro run
    fun_induction shrink cancelled encoding steps valuation search with
    | case1 steps valuation search nothing =>
        cases run
        exact .nothingChosen nothing
    | case2 => cases run
    | case3 steps valuation search something counted next asked =>
        cases run
        exact .unsatisfiable something asked
    | case4 steps valuation search something counted smaller next asked _
        induction => exact .satisfiable something asked (induction run)
    | case5 steps valuation search something counted smaller next asked
        notFewer =>
        obtain ⟨_, _, _, solved⟩ := ask_eq_ok asked
        exact (notFewer (Encoding.length_chosen_lt
          (sound _ _ _ _ solved))).elim
  · intro shrinks
    induction shrinks with
    | nothingChosen nothing =>
        unfold shrink
        rw [if_pos nothing]
    | unsatisfiable something asked =>
        unfold shrink
        rw [if_neg something]
        unfold countMinimization at asked
        simp only [asked]
    | satisfiable something asked _ induction =>
        obtain ⟨_, _, _, solved⟩ := ask_eq_ok asked
        have fewer := Encoding.length_chosen_lt (sound _ _ _ _ solved)
        unfold shrink
        rw [if_neg something]
        unfold countMinimization at asked
        simp only [asked, if_pos fewer]
        exact induction

variable (correct : Oracle.Correct ω)

include correct

/-- What the loop ends with is minimal. -/
theorem Shrinks.minimal {encoding : Encoding} {steps : Nat}
    {valuation smallest : Valuation}
    (shrinks : Shrinks cancelled encoding steps valuation search smallest
      after)
    (satisfies : valuation.satisfies encoding.formula = true) :
    encoding.Minimal smallest := by
  induction shrinks with
  | nothingChosen nothing =>
      exact Encoding.minimal_of_nothing_chosen satisfies nothing
  | unsatisfiable _ asked =>
      obtain ⟨_, _, _, solved⟩ := ask_eq_ok asked
      exact Encoding.minimal_of_strictlyBelow satisfies
        (correct _ _ _ _ solved)
  | satisfiable _ asked _ induction =>
      obtain ⟨_, _, _, solved⟩ := ask_eq_ok asked
      exact induction
        (Encoding.satisfies_strictlyBelow_iff.mp (correct _ _ _ _ solved)).1

/-- In mode `minimal` the next valuation is what the loop makes of the first
answer of the oracle. -/
theorem nextValuation_eq_some_iff (mode : search.mode = .minimal)
    {valuation : Valuation} :
    search.nextValuation cancelled = (.ok (some valuation), after) ↔
      ∃ first middle,
        search.ask cancelled 0 search.encoding.formula =
          (.ok (.satisfiable first), middle) ∧
        Shrinks cancelled middle.encoding 1 first middle valuation after := by
  simp only [← shrink_eq_ok_iff correct.sound]
  constructor
  · intro run
    obtain ⟨outcome, middle, asked, result⟩ := nextValuation_eq_ok_iff.mp run
    rw [mode] at result
    cases outcome with
    | unsatisfiable => cases result.1
    | satisfiable first =>
        obtain ⟨_, same, shrunk⟩ := result
        cases same
        rw [← (ask_eq_ok asked).1.encoding] at shrunk
        exact ⟨first, middle, asked, shrunk⟩
  · intro result
    obtain ⟨first, middle, asked, shrunk⟩ := result
    rw [(ask_eq_ok asked).1.encoding] at shrunk
    refine nextValuation_eq_ok_iff.mpr ⟨_, middle, asked, ?_⟩
    rw [mode]
    exact ⟨valuation, rfl, shrunk⟩

/-- The next valuation is minimal for the formula with the clauses added so
far. -/
theorem minimal_of_nextValuation (mode : search.mode = .minimal)
    {valuation : Valuation}
    (run : search.nextValuation cancelled = (.ok (some valuation), after)) :
    search.encoding.Minimal valuation := by
  obtain ⟨first, middle, asked, shrinks⟩ :=
    (nextValuation_eq_some_iff correct mode).mp run
  obtain ⟨keeps, _, _, solved⟩ := ask_eq_ok asked
  have satisfies := correct _ _ _ _ solved
  rw [keeps.encoding] at shrinks
  exact shrinks.minimal correct satisfies

end Requests

/-- Requests that are never cancelled put the first question to the oracle,
shrink its answer to the listed valuations, and answer with a unifier.  The
last request finds that there are no more, and so do all after it. -/
inductive Decodes : SatSearch ω → List Valuation → Prop
  | exhausted {search after : SatSearch ω}
      (answer : search.next Engine.never = (.ok none, after))
      (still : ∀ cancelled, after.next cancelled = (.ok none, after)) :
      Decodes search []
  | found {search middle last after : SatSearch ω}
      {first valuation : Valuation} {unifier : Unifier}
      {valuations : List Valuation}
      (asked : search.ask Engine.never 0 search.encoding.formula =
        (.ok (.satisfiable first), middle))
      (shrinks : Shrinks Engine.never middle.encoding 1 first middle valuation
        last)
      (answer : search.next Engine.never = (.ok (some unifier), after))
      (decoded : unifier = .ofAssignment search.goal
        (search.encoding.decode valuation))
      (later : Decodes after valuations) :
      Decodes search (valuation :: valuations)

section Runs

variable {goal : Goal} {search after : SatSearch ω} {found : List Valuation}

omit [Oracle ω] in
theorem Serves.chosen_eq {mode : SatMode} (serves : search.Serves goal mode)
    (valuation : Valuation) :
    search.encoding.chosen valuation =
      (Encoding.ofGoal goal).chosen valuation := by
  rw [Encoding.chosen, Encoding.chosen, serves.subsumers]

/-- What remains after some valuations were found are the valuations of the
encoding that choose all subsumers of none of them. -/
structure Excludes (goal : Goal) (found : List Valuation)
    (search : SatSearch ω) : Prop where
  serves : search.Serves goal .minimal
  remains : ∀ valuation, search.Remains valuation ↔
    valuation.satisfies (Encoding.ofGoal goal).formula = true ∧
      ∀ earlier ∈ found, ¬ (Encoding.ofGoal goal).chosen earlier ⊆
        (Encoding.ofGoal goal).chosen valuation

omit [Oracle ω] in
theorem excludes_new (goal : Goal) (oracle : ω) (stepLimit : Nat) :
    (SatSearch.new goal .minimal oracle stepLimit).Excludes goal [] where
  serves := serves_new goal .minimal oracle stepLimit
  remains := by simp [Remains, SatSearch.new]

omit [Oracle ω] in
theorem Excludes.takes {valuation : Valuation}
    (excludes : search.Excludes goal found)
    (takes : search.Takes after valuation) :
    after.Excludes goal (valuation :: found) where
  serves := excludes.serves.takes takes
  remains := by
    intro other
    rw [takes.remains, excludes.remains, excludes.serves.blockingClause_eq,
      Encoding.holdsClause_blockingClause_minimal, List.forall_mem_cons]
    tauto

omit [Oracle ω] in
/-- What is minimal among the remaining valuations is minimal altogether: a
valuation that chooses less is not excluded either. -/
theorem Excludes.minimal {valuation : Valuation}
    (excludes : search.Excludes goal found)
    (remains : search.Remains valuation)
    (minimal : search.encoding.Minimal valuation) :
    (Encoding.ofGoal goal).Minimal valuation where
  satisfies := ((excludes.remains valuation).mp remains).1
  least := by
    intro other satisfies within
    have free := ((excludes.remains valuation).mp remains).2
    have otherRemains : search.Remains other :=
      (excludes.remains other).mpr ⟨satisfies, fun earlier member below =>
        free earlier member (List.Subset.trans below within)⟩
    have least := minimal.least other otherRemains.2
    rw [excludes.serves.chosen_eq, excludes.serves.chosen_eq] at least
    exact least within

variable (correct : Oracle.Correct ω)

include correct

/-- A request that finds a unifier takes a minimal valuation. -/
theorem Excludes.step {middle last : SatSearch ω} {first valuation : Valuation}
    {unifier : Unifier} (excludes : search.Excludes goal found)
    (asked : search.ask Engine.never 0 search.encoding.formula =
      (.ok (.satisfiable first), middle))
    (shrinks : Shrinks Engine.never middle.encoding 1 first middle valuation
      last)
    (answer : search.next Engine.never = (.ok (some unifier), after)) :
    (Encoding.ofGoal goal).Minimal valuation ∧
      (∀ earlier ∈ found, ¬ (Encoding.ofGoal goal).chosen earlier ⊆
        (Encoding.ofGoal goal).chosen valuation) ∧
      after.Excludes goal (valuation :: found) := by
  have mode := excludes.serves.sameMode
  have taken := (nextValuation_eq_some_iff correct mode).mpr
    ⟨first, middle, asked, shrinks⟩
  obtain ⟨other, _, running, taken', _, rfl⟩ := next_eq_some answer
  rw [taken] at taken'
  cases taken'
  obtain ⟨remains, takes⟩ := takes_of_nextValuation correct.sound running taken
  exact ⟨excludes.minimal remains
      (minimal_of_nextValuation correct mode taken),
    ((excludes.remains _).mp remains).2, excludes.takes takes⟩

/-- A run decodes minimal valuations with different choices, and decodes every
minimal choice that is not excluded from the beginning. -/
theorem Decodes.exact {valuations : List Valuation}
    (decodes : search.Decodes valuations)
    (excludes : search.Excludes goal found) :
    (valuations.map (Encoding.ofGoal goal).chosen).Nodup ∧
      (∀ valuation ∈ valuations, (Encoding.ofGoal goal).Minimal valuation ∧
        ∀ earlier ∈ found, ¬ (Encoding.ofGoal goal).chosen earlier ⊆
          (Encoding.ofGoal goal).chosen valuation) ∧
      ∀ other, (Encoding.ofGoal goal).Minimal other →
        (Encoding.ofGoal goal).chosen other ∈
            valuations.map (Encoding.ofGoal goal).chosen ∨
          ∃ earlier ∈ found, (Encoding.ofGoal goal).chosen earlier ⊆
            (Encoding.ofGoal goal).chosen other := by
  induction decodes generalizing found with
  | @exhausted search after answer _ =>
      refine ⟨List.nodup_nil, by simp, fun other minimal => .inr ?_⟩
      by_contra free
      refine (next_eq_none correct answer).1 other
        ((excludes.remains other).mpr ⟨minimal.satisfies, ?_⟩)
      exact fun earlier member below => free ⟨earlier, member, below⟩
  | @found search middle last after first valuation unifier valuations asked
      shrinks answer _ _ induction =>
      obtain ⟨minimal, free, excludes'⟩ :=
        excludes.step correct asked shrinks answer
      obtain ⟨distinct, sound, complete⟩ := induction excludes'
      refine ⟨?_, ?_, ?_⟩
      · rw [List.map_cons, List.nodup_cons]
        refine ⟨fun repeated => ?_, distinct⟩
        obtain ⟨later, member, same⟩ := List.mem_map.mp repeated
        have proper := (sound later member).2 valuation List.mem_cons_self
        rw [same] at proper
        exact proper fun _ => id
      · intro other member
        rcases List.mem_cons.mp member with rfl | later
        · exact ⟨minimal, free⟩
        · obtain ⟨otherMinimal, otherFree⟩ := sound other later
          exact ⟨otherMinimal, fun earlier inFound =>
            otherFree earlier (List.mem_cons_of_mem _ inFound)⟩
      · intro other otherMinimal
        rw [List.map_cons, List.mem_cons]
        rcases complete other otherMinimal with later | ⟨earlier, member, below⟩
        · exact .inl (.inr later)
        · rcases List.mem_cons.mp member with rfl | inFound
          · have above := otherMinimal.least _ minimal.satisfies below
            exact .inl (.inl (Encoding.chosen_eq_of_subset above below))
          · exact .inr ⟨earlier, inFound, below⟩

/-- A complete run decodes one valuation for each minimal choice. -/
theorem Decodes.minimalChoices {oracle : ω} {limit : Nat}
    {valuations : List Valuation}
    (decodes : (SatSearch.new goal .minimal oracle limit).Decodes valuations) :
    (valuations.map (Encoding.ofGoal goal).chosen).Nodup ∧
      (∀ valuation ∈ valuations, (Encoding.ofGoal goal).Minimal valuation) ∧
      ∀ choice, choice ∈ valuations.map (Encoding.ofGoal goal).chosen ↔
        ∃ valuation, (Encoding.ofGoal goal).Minimal valuation ∧
          (Encoding.ofGoal goal).chosen valuation = choice := by
  obtain ⟨distinct, sound, complete⟩ :=
    decodes.exact correct (excludes_new goal oracle limit)
  refine ⟨distinct, fun valuation member => (sound valuation member).1,
    fun choice => ⟨fun member => ?_, ?_⟩⟩
  · obtain ⟨valuation, inRun, same⟩ := List.mem_map.mp member
    exact ⟨valuation, (sound valuation inRun).1, same⟩
  · rintro ⟨valuation, minimal, rfl⟩
    rcases complete valuation minimal with member | ⟨_, inNothing, _⟩
    · exact member
    · cases inNothing

/-- Every complete run of requests decodes valuations. -/
theorem exists_decodes {unifiers : List Unifier}
    (yields : Engine.Yields search unifiers)
    (serves : search.Serves goal .minimal) :
    ∃ valuations, search.Decodes valuations ∧
      unifiers = valuations.map fun valuation =>
        .ofAssignment goal ((Encoding.ofGoal goal).decode valuation) := by
  induction yields with
  | exhausted answer =>
      exact ⟨[], .exhausted answer (next_eq_none correct answer).2, rfl⟩
  | @found search after unifier unifiers answer _ induction =>
      obtain ⟨valuation, middle, running, taken, same, rfl⟩ :=
        next_eq_some answer
      obtain ⟨_, takes⟩ := takes_of_nextValuation correct.sound running taken
      obtain ⟨valuations, decodes, others⟩ := induction (serves.takes takes)
      obtain ⟨first, middle', asked, shrinks⟩ :=
        (nextValuation_eq_some_iff correct serves.sameMode).mp taken
      have keeps := keeps_of_nextValuation taken
      rw [keeps.goal, keeps.encoding] at same
      refine ⟨valuation :: valuations,
        .found asked shrinks answer same decodes, ?_⟩
      rw [List.map_cons, ← others, same, serves.sameGoal, serves.decode_eq]

end Runs

/-- Without limit and cancellation every request in mode `minimal` ends its loop
and is answered, and after finitely many requests there are no more unifiers.
The choices of the valuations that they decode are the minimal ones, each
exactly once.  Another oracle only changes their order. -/
theorem decodes_minimal_choices {ω : Type} [Oracle ω]
    (correct : Oracle.Correct ω) (total : Oracle.Total ω) {goal : Goal}
    (obtained : goal.Obtained) (oracle : ω) :
    ∃ valuations,
      (SatSearch.new goal .minimal oracle 0).Decodes valuations ∧
      Engine.Yields (SatSearch.new goal .minimal oracle 0)
        (valuations.map fun valuation =>
          .ofAssignment goal ((Encoding.ofGoal goal).decode valuation)) ∧
      (∀ valuation ∈ valuations,
        ((Encoding.ofGoal goal).decode valuation).LocalSolution goal) ∧
      (valuations.map (Encoding.ofGoal goal).chosen).Nodup ∧
      (∀ choice, choice ∈ valuations.map (Encoding.ofGoal goal).chosen ↔
        ∃ valuation, (Encoding.ofGoal goal).Minimal valuation ∧
          (Encoding.ofGoal goal).chosen valuation = choice) ∧
      ∀ (ω' : Type) [Oracle ω'], Oracle.Correct ω' →
        ∀ (other : ω') (others : List Valuation),
          (SatSearch.new goal .minimal other 0).Decodes others →
            (others.map (Encoding.ofGoal goal).chosen).Perm
              (valuations.map (Encoding.ofGoal goal).chosen) := by
  obtain ⟨unifiers, yields⟩ :=
    exists_yields total correct goal .minimal oracle
  obtain ⟨valuations, decodes, rfl⟩ := exists_decodes correct yields
    (serves_new goal .minimal oracle 0)
  obtain ⟨distinct, minimal, mem_iff⟩ := decodes.minimalChoices correct
  refine ⟨valuations, decodes, yields, fun valuation member => ?_, distinct,
    mem_iff, ?_⟩
  · exact Encoder.localSolution_decode obtained.wellFormed
      (minimal valuation member).satisfies
  · intro ω' _ correct' other others decodes'
    obtain ⟨distinct', _, mem_iff'⟩ := decodes'.minimalChoices correct'
    rw [List.perm_ext_iff_of_nodup distinct' distinct]
    exact fun choice => (mem_iff' choice).trans (mem_iff choice).symm

/-- The goal has a solution, so minimal choices are found. -/
theorem decodes_minimal_choices_sampleCalls :
    ∃ goal, ((GoalBuilder.new Goal.sampleBackground {}).performAll
        Goal.sampleCalls).build = .ok goal ∧
      ∃ valuations, valuations ≠ [] ∧
        (SatSearch.new goal .minimal ExhaustiveOracle.start 0).Decodes
          valuations ∧
        (∀ valuation ∈ valuations,
          ((Encoding.ofGoal goal).decode valuation).LocalSolution goal) ∧
        (valuations.map (Encoding.ofGoal goal).chosen).Nodup ∧
        ∀ choice, choice ∈ valuations.map (Encoding.ofGoal goal).chosen ↔
          ∃ valuation, (Encoding.ofGoal goal).Minimal valuation ∧
            (Encoding.ofGoal goal).chosen valuation = choice := by
  obtain ⟨goal, built, _, _, _, local_⟩ := Goal.exists_build_sampleCalls
  obtain ⟨valuations, decodes, _, solutions, distinct, mem_iff, _⟩ :=
    decodes_minimal_choices ExhaustiveOracle.correct ExhaustiveOracle.total
      (.built built) ExhaustiveOracle.start
  refine ⟨goal, built, valuations, ?_, decodes, solutions, distinct, mem_iff⟩
  obtain ⟨valuation, satisfies, _⟩ :=
    Encoder.exists_decode_eq (Goal.Obtained.built built).wellFormed local_
  obtain ⟨smallest, minimal, _⟩ := Encoding.exists_minimal satisfies
  rintro rfl
  cases (mem_iff _).mpr ⟨smallest, minimal, rfl⟩

end SatSearch

end ConceptUnification
