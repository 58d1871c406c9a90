import Mathlib.Algebra.Group.Nat.Defs
import Mathlib.Data.List.Sections
import ConceptUnification.Proofs.ExhaustiveOracle

/-!
# Enumeration of patterns

In mode `all` an enumeration tells two satisfying valuations apart by the truth
values of the literals of user variables, their pattern.  The clauses that it
adds exclude exactly the patterns that were found.  So it finds each pattern of
a satisfying valuation once, whatever valuations a correct oracle answers with,
and there are no more patterns than the literals allow.
-/

namespace ConceptUnification

namespace Encoding

variable {encoding : Encoding} {valuation other : Valuation}

/-- The literals of user variables. -/
def userLiterals (encoding : Encoding) : List Literal :=
  (encoding.subsumers.filter (·.user)).map SubsumerLiteral.literal

/-- The truth values of the literals of user variables. -/
def pattern (encoding : Encoding) (valuation : Valuation) : List Bool :=
  encoding.userLiterals.map valuation.holds

theorem pattern_eq_iff :
    encoding.pattern valuation = encoding.pattern other ↔
      ∀ s ∈ encoding.subsumers, s.user = true →
        valuation.holds s.literal = other.holds s.literal := by
  rw [pattern, pattern, List.map_inj_left]
  constructor
  · intro agrees s member user
    apply agrees
    exact List.mem_map_of_mem (List.mem_filter.mpr ⟨member, user⟩)
  · intro agrees literal inUsers
    obtain ⟨s, user, rfl⟩ := List.mem_map.mp inUsers
    obtain ⟨member, user⟩ := List.mem_filter.mp user
    exact agrees s member user

/-- A clause excludes the valuations with the pattern that it was made for. -/
theorem holdsClause_blockingClause_all :
    other.holdsClause (encoding.blockingClause .all valuation) = true ↔
      encoding.pattern valuation ≠ encoding.pattern other := by
  rw [ne_eq, pattern_eq_iff, ← not_holdsClause_blockingClause_all,
    Bool.not_eq_false]

theorem length_sections_replicate (n : Nat) :
    (List.replicate n [true, false]).sections.length = 2 ^ n := by
  induction n with
  | zero => rfl
  | succ n induction =>
      rw [List.replicate_succ, List.sections, List.length_flatMap]
      simp [induction, pow_succ]

/-- There are at most as many different patterns as lists of truth values. -/
theorem length_le_two_pow {valuations : List Valuation}
    (distinct : (valuations.map encoding.pattern).Nodup) :
    valuations.length ≤ 2 ^ encoding.userLiterals.length := by
  have within : valuations.map encoding.pattern ⊆
      (List.replicate encoding.userLiterals.length [true, false]).sections := by
    intro found member
    obtain ⟨valuation, _, rfl⟩ := List.mem_map.mp member
    rw [List.mem_sections, pattern]
    induction encoding.userLiterals with
    | nil => exact .nil
    | cons literal literals induction =>
        rw [List.map_cons, List.length_cons, List.replicate_succ]
        exact .cons (by simp) induction
  have bounded := (List.subperm_of_subset distinct within).length_le
  rw [List.length_map, length_sections_replicate] at bounded
  exact bounded

end Encoding

namespace SatSearch

variable {ω : Type} [Oracle ω]

/-- Requests that are never cancelled read a unifier off each answer of the
oracle.  The last request finds that there are no more, and so do all after
it. -/
inductive Enumerates : SatSearch ω → List Valuation → Prop
  | exhausted {search after : SatSearch ω}
      (answer : search.next Engine.never = (.ok none, after))
      (still : ∀ cancelled, after.next cancelled = (.ok none, after)) :
      Enumerates search []
  | found {search middle after : SatSearch ω} {valuation : Valuation}
      {unifier : Unifier} {valuations : List Valuation}
      (asked : search.ask Engine.never 0 search.encoding.formula =
        (.ok (.satisfiable valuation), middle))
      (answer : search.next Engine.never = (.ok (some unifier), after))
      (decoded : unifier = .ofAssignment search.goal
        (search.encoding.decode valuation))
      (later : Enumerates after valuations) :
      Enumerates search (valuation :: valuations)

theorem nextValuation_eq_some_iff_all {cancelled : CancelSchedule}
    {search after : SatSearch ω} (mode : search.mode = .all)
    {valuation : Valuation} :
    search.nextValuation cancelled = (.ok (some valuation), after) ↔
      search.ask cancelled 0 search.encoding.formula =
        (.ok (.satisfiable valuation), after) := by
  constructor
  · intro run
    obtain ⟨outcome, middle, asked, result⟩ := nextValuation_eq_ok_iff.mp run
    rw [mode] at result
    cases outcome with
    | unsatisfiable => cases result.1
    | satisfiable first =>
        obtain ⟨same, rfl⟩ := result
        cases same
        exact asked
  · intro asked
    refine nextValuation_eq_ok_iff.mpr ⟨_, after, asked, ?_⟩
    rw [mode]
    exact ⟨rfl, rfl⟩

section Runs

variable {goal : Goal} {search after : SatSearch ω} {found : List Valuation}

omit [Oracle ω]

/-- What remains after some valuations were found are the valuations of the
encoding with other patterns. -/
structure ExcludesPatterns (goal : Goal) (found : List Valuation)
    (search : SatSearch ω) : Prop where
  serves : search.Serves goal .all
  remains : ∀ valuation, search.Remains valuation ↔
    valuation.satisfies (Encoding.ofGoal goal).formula = true ∧
      ∀ earlier ∈ found, (Encoding.ofGoal goal).pattern earlier ≠
        (Encoding.ofGoal goal).pattern valuation

theorem excludesPatterns_new (goal : Goal) (oracle : ω) (stepLimit : Nat) :
    (SatSearch.new goal .all oracle stepLimit).ExcludesPatterns goal [] where
  serves := serves_new goal .all oracle stepLimit
  remains := by simp [Remains, SatSearch.new]

theorem ExcludesPatterns.takes {valuation : Valuation}
    (excludes : search.ExcludesPatterns goal found)
    (takes : search.Takes after valuation) :
    after.ExcludesPatterns goal (valuation :: found) where
  serves := excludes.serves.takes takes
  remains := by
    intro other
    rw [takes.remains, excludes.remains, excludes.serves.blockingClause_eq,
      Encoding.holdsClause_blockingClause_all, List.forall_mem_cons,
      and_assoc, and_comm (b := _ ≠ _)]

end Runs

section Correct

variable {goal : Goal} {search after : SatSearch ω} {found : List Valuation}
  (correct : Oracle.Correct ω)

include correct

/-- A request that finds a unifier takes a valuation with a new pattern. -/
theorem ExcludesPatterns.step {middle : SatSearch ω} {valuation : Valuation}
    {unifier : Unifier} (excludes : search.ExcludesPatterns goal found)
    (asked : search.ask Engine.never 0 search.encoding.formula =
      (.ok (.satisfiable valuation), middle))
    (answer : search.next Engine.never = (.ok (some unifier), after)) :
    valuation.satisfies (Encoding.ofGoal goal).formula = true ∧
      (∀ earlier ∈ found, (Encoding.ofGoal goal).pattern earlier ≠
        (Encoding.ofGoal goal).pattern valuation) ∧
      after.ExcludesPatterns goal (valuation :: found) := by
  have taken :=
    (nextValuation_eq_some_iff_all excludes.serves.sameMode).mpr asked
  obtain ⟨other, _, running, taken', _, rfl⟩ := next_eq_some answer
  rw [taken] at taken'
  cases taken'
  obtain ⟨remains, takes⟩ := takes_of_nextValuation correct.sound running taken
  obtain ⟨satisfies, new⟩ := (excludes.remains _).mp remains
  exact ⟨satisfies, new, excludes.takes takes⟩

/-- A run finds valuations with different patterns, and finds every pattern that
is not excluded from the beginning. -/
theorem Enumerates.exact {valuations : List Valuation}
    (enumerates : search.Enumerates valuations)
    (excludes : search.ExcludesPatterns goal found) :
    (valuations.map (Encoding.ofGoal goal).pattern).Nodup ∧
      (∀ valuation ∈ valuations,
        valuation.satisfies (Encoding.ofGoal goal).formula = true ∧
          ∀ earlier ∈ found, (Encoding.ofGoal goal).pattern earlier ≠
            (Encoding.ofGoal goal).pattern valuation) ∧
      ∀ other : Valuation,
        other.satisfies (Encoding.ofGoal goal).formula = true →
          (Encoding.ofGoal goal).pattern other ∈
            (found ++ valuations).map (Encoding.ofGoal goal).pattern := by
  induction enumerates generalizing found with
  | @exhausted search after answer _ =>
      refine ⟨List.nodup_nil, by simp, ?_⟩
      intro other satisfies
      by_contra new
      apply (next_eq_none correct answer).1 other
      apply (excludes.remains other).mpr
      refine ⟨satisfies, ?_⟩
      intro earlier member same
      apply new
      rw [List.append_nil, ← same]
      exact List.mem_map_of_mem member
  | @found search middle after valuation unifier valuations asked answer _ _
      induction =>
      obtain ⟨satisfies, new, excludes'⟩ := excludes.step correct asked answer
      obtain ⟨distinct, sound, complete⟩ := induction excludes'
      refine ⟨?_, ?_, ?_⟩
      · rw [List.map_cons, List.nodup_cons]
        refine ⟨?_, distinct⟩
        intro repeated
        obtain ⟨later, member, same⟩ := List.mem_map.mp repeated
        exact (sound later member).2 valuation List.mem_cons_self same.symm
      · intro other member
        rcases List.mem_cons.mp member with rfl | later
        · exact ⟨satisfies, new⟩
        · obtain ⟨otherSatisfies, otherNew⟩ := sound other later
          exact ⟨otherSatisfies, fun earlier inFound =>
            otherNew earlier (List.mem_cons_of_mem _ inFound)⟩
      · intro other otherSatisfies
        apply (List.perm_middle.map _).mem_iff.mpr
        exact complete other otherSatisfies

/-- A complete run finds one valuation for each pattern. -/
theorem Enumerates.patterns {oracle : ω} {limit : Nat}
    {valuations : List Valuation}
    (enumerates : (SatSearch.new goal .all oracle limit).Enumerates
      valuations) :
    (valuations.map (Encoding.ofGoal goal).pattern).Nodup ∧
      (∀ valuation ∈ valuations,
        valuation.satisfies (Encoding.ofGoal goal).formula = true) ∧
      ∀ pattern, pattern ∈ valuations.map (Encoding.ofGoal goal).pattern ↔
        ∃ valuation : Valuation,
          valuation.satisfies (Encoding.ofGoal goal).formula = true ∧
            (Encoding.ofGoal goal).pattern valuation = pattern := by
  obtain ⟨distinct, sound, complete⟩ :=
    enumerates.exact correct (excludesPatterns_new goal oracle limit)
  refine ⟨distinct, fun valuation member => (sound valuation member).1, ?_⟩
  intro pattern
  constructor
  · intro member
    obtain ⟨valuation, inRun, same⟩ := List.mem_map.mp member
    exact ⟨valuation, (sound valuation inRun).1, same⟩
  · intro possible
    obtain ⟨valuation, satisfies, same⟩ := possible
    rw [← same]
    exact complete valuation satisfies

/-- Every complete run of requests enumerates valuations. -/
theorem exists_enumerates {unifiers : List Unifier}
    (yields : Engine.Yields search unifiers)
    (serves : search.Serves goal .all) :
    ∃ valuations, search.Enumerates valuations ∧
      unifiers = valuations.map fun valuation =>
        .ofAssignment goal ((Encoding.ofGoal goal).decode valuation) := by
  induction yields with
  | exhausted answer =>
      exact ⟨[], .exhausted answer (next_eq_none correct answer).2, rfl⟩
  | @found search after unifier unifiers answer _ induction =>
      obtain ⟨valuation, middle, running, taken, same, rfl⟩ :=
        next_eq_some answer
      obtain ⟨_, takes⟩ := takes_of_nextValuation correct.sound running taken
      obtain ⟨valuations, enumerates, others⟩ :=
        induction (serves.takes takes)
      have asked := (nextValuation_eq_some_iff_all serves.sameMode).mp taken
      have keeps := keeps_of_nextValuation taken
      rw [keeps.goal, keeps.encoding] at same
      refine ⟨valuation :: valuations,
        .found asked answer same enumerates, ?_⟩
      rw [List.map_cons, ← others, same, serves.sameGoal, serves.decode_eq]

/-- A run for a goal without literals of user variables finds one valuation if
there is a satisfying one, and none otherwise. -/
theorem Enumerates.length_eq_one_iff {oracle : ω} {limit : Nat}
    {valuations : List Valuation}
    (enumerates : (SatSearch.new goal .all oracle limit).Enumerates valuations)
    (none_ : (Encoding.ofGoal goal).userLiterals = []) :
    valuations.length = 1 ↔ ∃ valuation : Valuation,
      valuation.satisfies (Encoding.ofGoal goal).formula = true := by
  obtain ⟨distinct, sound, mem_iff⟩ := enumerates.patterns correct
  have bounded := Encoding.length_le_two_pow distinct
  rw [none_, List.length_nil, pow_zero] at bounded
  constructor
  · intro single
    obtain ⟨valuation, same⟩ := List.length_eq_one_iff.mp single
    subst same
    exact ⟨valuation, sound valuation (List.mem_singleton_self _)⟩
  · intro possible
    obtain ⟨valuation, satisfies⟩ := possible
    have member := (mem_iff _).mpr ⟨valuation, satisfies, rfl⟩
    have nonempty := List.length_pos_of_mem member
    rw [List.length_map] at nonempty
    omega

end Correct

theorem userLiterals_eq_nil {goal : Goal} (wellFormed : goal.WellFormed)
    (without : goal.userVariables = []) :
    (Encoding.ofGoal goal).userLiterals = [] := by
  rw [Encoding.userLiterals, List.map_eq_nil_iff, List.filter_eq_nil_iff]
  intro s member user
  obtain ⟨_, _, marked, _⟩ :=
    (Encoder.listsSubsumers wellFormed).stands s member
  rw [marked, AtomStore.hasKind, beq_iff_eq, ← Goal.mem_userVariables,
    without] at user
  cases user

/-- Without limit and cancellation the enumeration in mode `all` answers each
request, and ends after at most one request for each list of truth values of the
user literals, and one more.  It finds each pattern of a satisfying valuation
once, and reads unifiers of the goal off.  Another oracle only changes their
order. -/
theorem enumerates_patterns {ω : Type} [Oracle ω]
    (correct : Oracle.Correct ω) (total : Oracle.Total ω) {goal : Goal}
    (obtained : goal.Obtained) (oracle : ω) :
    ∃ valuations,
      (SatSearch.new goal .all oracle 0).Enumerates valuations ∧
      (∀ more, Engine.answers
          (List.replicate (valuations.length + more) Engine.never)
          (SatSearch.new goal .all oracle 0) =
        valuations.map (fun valuation => .ok (some (.ofAssignment goal
          ((Encoding.ofGoal goal).decode valuation)))) ++
          List.replicate more (.ok none)) ∧
      valuations.length + 1 ≤
        2 ^ (Encoding.ofGoal goal).userLiterals.length + 1 ∧
      (∀ valuation ∈ valuations, (Unifier.ofAssignment goal
        ((Encoding.ofGoal goal).decode valuation)).satisfies? goal =
          some true) ∧
      (valuations.map (Encoding.ofGoal goal).pattern).Nodup ∧
      (∀ pattern, pattern ∈ valuations.map (Encoding.ofGoal goal).pattern ↔
        ∃ valuation : Valuation,
          valuation.satisfies (Encoding.ofGoal goal).formula = true ∧
            (Encoding.ofGoal goal).pattern valuation = pattern) ∧
      (goal.userVariables = [] → (valuations.length = 1 ↔
        ∃ valuation : Valuation,
          valuation.satisfies (Encoding.ofGoal goal).formula = true)) ∧
      ∀ (ω' : Type) [Oracle ω'], Oracle.Correct ω' →
        ∀ (other : ω') (others : List Valuation),
          (SatSearch.new goal .all other 0).Enumerates others →
            (others.map (Encoding.ofGoal goal).pattern).Perm
              (valuations.map (Encoding.ofGoal goal).pattern) := by
  have wellFormed := obtained.wellFormed
  obtain ⟨unifiers, yields⟩ := exists_yields total correct goal .all oracle
  obtain ⟨valuations, enumerates, rfl⟩ := exists_enumerates correct yields
    (serves_new goal .all oracle 0)
  obtain ⟨distinct, sound, mem_iff⟩ := enumerates.patterns correct
  refine ⟨valuations, enumerates, ?_,
    Nat.succ_le_succ (Encoding.length_le_two_pow distinct), ?_, distinct,
    mem_iff, ?_, ?_⟩
  · intro more
    have answers := yields.answers_eq
      (fun _ _ answer => (next_eq_none correct answer).2 Engine.never) more
    rw [List.length_map, List.map_map] at answers
    exact answers
  · intro valuation member
    exact (Encoder.localSolution_decode wellFormed
      (sound valuation member)).satisfies
  · intro without
    exact enumerates.length_eq_one_iff correct
      (userLiterals_eq_nil wellFormed without)
  · intro ω' _ correct' other others enumerates'
    obtain ⟨distinct', _, mem_iff'⟩ := enumerates'.patterns correct'
    rw [List.perm_ext_iff_of_nodup distinct' distinct]
    intro pattern
    exact (mem_iff' pattern).trans (mem_iff pattern).symm

/-- The goal has a solution, so patterns are found. -/
theorem enumerates_patterns_sampleCalls :
    ∃ goal, ((GoalBuilder.new Goal.sampleBackground {}).performAll
        Goal.sampleCalls).build = .ok goal ∧
      ∃ valuations, valuations ≠ [] ∧
        (SatSearch.new goal .all ExhaustiveOracle.start 0).Enumerates
          valuations ∧
        valuations.length ≤
          2 ^ (Encoding.ofGoal goal).userLiterals.length ∧
        (valuations.map (Encoding.ofGoal goal).pattern).Nodup ∧
        (∀ valuation ∈ valuations, (Unifier.ofAssignment goal
          ((Encoding.ofGoal goal).decode valuation)).satisfies? goal =
            some true) ∧
        ∀ others, (SatSearch.new goal .all ExhaustiveOracle.start 0).Enumerates
            others →
          (others.map (Encoding.ofGoal goal).pattern).Perm
            (valuations.map (Encoding.ofGoal goal).pattern) := by
  obtain ⟨goal, built, _, _, _, local_⟩ := Goal.exists_build_sampleCalls
  obtain ⟨valuations, enumerates, _, bounded, unifies, distinct, mem_iff, _,
    others⟩ := enumerates_patterns ExhaustiveOracle.correct
      ExhaustiveOracle.total (.built built) ExhaustiveOracle.start
  refine ⟨goal, built, valuations, ?_, enumerates,
    Nat.le_of_succ_le_succ bounded, distinct, unifies,
    others ExhaustiveOracle ExhaustiveOracle.correct ExhaustiveOracle.start⟩
  obtain ⟨valuation, satisfies, _⟩ :=
    Encoder.exists_decode_eq (Goal.Obtained.built built).wellFormed local_
  intro empty
  have member := (mem_iff _).mpr ⟨valuation, satisfies, rfl⟩
  rw [empty] at member
  cases member

end SatSearch

end ConceptUnification
