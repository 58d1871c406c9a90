import ConceptUnification.Proofs.ExhaustiveOracle
import ConceptUnification.Proofs.SearchRun
import ConceptUnification.Proofs.SessionRun

/-!
# The engines agree

The search by rules and the enumeration of all satisfying assignments find
unifiers with the same keys, unless equations lead from a variable back to
itself through direct conjuncts.  The enumeration of minimal assignments finds
some of these keys, and at least one if there is any.
-/

namespace ConceptUnification

namespace SatSearch

variable {ω : Type} [Oracle ω] {goal : Goal} {mode : SatMode} {oracle : ω}
  {limit : Nat} {unifiers : List Unifier} (correct : Oracle.Correct ω)
  (wellFormed : goal.WellFormed)
  (yields : Engine.Yields (SatSearch.new goal mode oracle limit) unifiers)

include correct wellFormed yields

/-- In every mode the unifiers come from local solutions. -/
theorem sound_of_yields : ∀ unifier ∈ unifiers, ∃ solution : Assignment,
    solution.LocalSolution goal ∧ unifier = .ofAssignment goal solution := by
  intro unifier member
  obtain ⟨valuation, remains, same⟩ := exists_remains_of_yields correct yields
    (serves_new goal mode oracle limit) unifier member
  exact ⟨_, Encoder.localSolution_decode wellFormed remains.2, same⟩

/-- If there is a local solution, some unifier is found. -/
theorem ne_nil_of_yields {solution : Assignment}
    (local_ : solution.LocalSolution goal) : unifiers ≠ [] := by
  obtain ⟨valuation, satisfies, _⟩ :=
    Encoder.exists_decode_eq wellFormed local_
  obtain ⟨_, _, member, _⟩ := exists_blocking_of_yields correct yields
    (serves_new goal mode oracle limit)
    (show (SatSearch.new goal mode oracle limit).Remains valuation from
      ⟨rfl, satisfies⟩)
  exact List.ne_nil_of_mem member

end SatSearch

namespace SatSearch

variable {ω : Type} [Oracle ω] {goal : Goal} {oracle : ω} {limit : Nat}
  {unifiers : List Unifier}

/-- In mode `all` the keys of all local solutions are found. -/
theorem enumerates_of_yields (correct : Oracle.Correct ω)
    (wellFormed : goal.WellFormed) (direct : ∀ x, ¬ goal.OnDirectCycle x)
    (yields : Engine.Yields (SatSearch.new goal .all oracle limit) unifiers) :
    goal.Enumerates unifiers where
  sound := sound_of_yields correct wellFormed yields
  complete := by
    intro solution local_
    obtain ⟨other, satisfies, same⟩ :=
      Encoder.exists_decode_eq wellFormed local_
    obtain ⟨valuation, remains, member, blocked⟩ :=
      exists_blocking_of_yields correct yields
        (serves_new goal .all oracle limit)
        (show (SatSearch.new goal .all oracle limit).Remains other from
          ⟨rfl, satisfies⟩)
    obtain ⟨key, found, found'⟩ :=
      Encoding.userKey?_decode_eq wellFormed remains.2 satisfies
        fun s inSubsumers fixed =>
          Encoding.not_holdsClause_blockingClause_all.mp blocked s inSubsumers
            (fixed.resolve_right (direct s.name))
    rw [same] at found'
    exact ⟨_, member, key, found, found'⟩

end SatSearch

namespace Session

/-- A session over an engine whose unifiers come from local solutions runs to
the end if the engine does. -/
theorem exists_exhausts_of_sound {σ : Type} [Engine σ] {goal : Goal}
    {engine : σ} {unifiers : List Unifier} (wellFormed : goal.WellFormed)
    (yields : Engine.Yields engine unifiers)
    (sound : ∀ unifier ∈ unifiers, ∃ solution : Assignment,
      solution.LocalSolution goal ∧ unifier = .ofAssignment goal solution) :
    ∃ final, (Session.new goal engine).Exhausts final := by
  refine @exists_exhausts _ _ (Session.new goal engine) unifiers yields rfl
    fun unifier member => ?_
  obtain ⟨solution, local_, rfl⟩ := sound unifier member
  exact wellFormed.exists_key local_

section Keys

variable {goal : Goal} {limit : Nat} (wellFormed : goal.WellFormed)

include wellFormed

/-- The search by rules finds the keys of all local solutions. -/
theorem Exhausts.rule_finds_iff {final : Session RuleSearch}
    (exhausts : (Session.new goal (RuleSearch.new goal limit)).Exhausts final) :
    final.Distinct ∧ ∀ key, final.Finds key ↔ goal.HasKey key := by
  obtain ⟨unifiers, yields, distinct, keys⟩ := exhausts.exists_finds_iff
  obtain ⟨unifiers', yields', enumerates⟩ :=
    RuleSearch.exists_yields wellFormed
  have same : unifiers' = unifiers :=
    yields'.unique (RuleSearch.yields_unlimited yields)
  rw [same] at enumerates
  exact ⟨distinct, fun key =>
    (keys key).trans enumerates.exists_userKey?_iff⟩

variable {ω : Type} [Oracle ω] (correct : Oracle.Correct ω) {oracle : ω}
  {final : Session (SatSearch ω)}

include correct

/-- Without direct cycles so does the enumeration of all assignments. -/
theorem Exhausts.all_finds_iff (direct : ∀ x, ¬ goal.OnDirectCycle x)
    (exhausts : (Session.new goal
      (SatSearch.new goal .all oracle limit)).Exhausts final) :
    final.Distinct ∧ ∀ key, final.Finds key ↔ goal.HasKey key := by
  obtain ⟨unifiers, yields, distinct, keys⟩ := exhausts.exists_finds_iff
  have enumerates :=
    SatSearch.enumerates_of_yields correct wellFormed direct yields
  exact ⟨distinct, fun key =>
    (keys key).trans enumerates.exists_userKey?_iff⟩

/-- In every mode only keys of local solutions are found, and some key is found
if there is any. -/
theorem Exhausts.finds_hasKey {mode : SatMode}
    (exhausts : (Session.new goal
      (SatSearch.new goal mode oracle limit)).Exhausts final) :
    (∀ key, final.Finds key → goal.HasKey key) ∧
      (final.size = 0 → ∀ key, ¬ goal.HasKey key) := by
  obtain ⟨unifiers, yields, distinct, keys⟩ := exhausts.exists_finds_iff
  have sound := SatSearch.sound_of_yields correct wellFormed yields
  constructor
  · intro key finds
    obtain ⟨unifier, member, keyed⟩ := (keys key).mp finds
    obtain ⟨solution, local_, rfl⟩ := sound unifier member
    exact ⟨solution, local_, keyed⟩
  · intro empty key hasKey
    obtain ⟨solution, local_, _⟩ := hasKey
    apply SatSearch.ne_nil_of_yields correct wellFormed yields local_
    apply List.eq_nil_iff_forall_not_mem.mpr
    intro unifier member
    obtain ⟨other, local', same⟩ := sound unifier member
    obtain ⟨key', keyed⟩ := wellFormed.exists_key local'
    rw [← same] at keyed
    exact distinct.size_eq_zero_iff.mp empty key'
      ((keys key').mpr ⟨unifier, member, keyed⟩)

end Keys

/-- Sessions over the engines that run to the end find equally many unifiers
with the same keys, which are the keys of all local solutions.  In mode
`minimal` only such keys are found, and none only if there are none.  Without
step limits the sessions run to the end, if the oracle never fails. -/
theorem engines_agree {ω : Type} [Oracle ω] (correct : Oracle.Correct ω)
    {goal : Goal} (obtained : goal.Obtained)
    (direct : ∀ x, ¬ goal.OnDirectCycle x) (first second : ω) :
    (∀ ruleLimit allLimit minimalLimit rules all minimal,
      (Session.new goal (RuleSearch.new goal ruleLimit)).Exhausts rules →
      (Session.new goal (SatSearch.new goal .all first allLimit)).Exhausts
        all →
      (Session.new goal
        (SatSearch.new goal .minimal second minimalLimit)).Exhausts minimal →
      rules.size = all.size ∧ (∀ key, rules.Finds key ↔ all.Finds key) ∧
        (∀ key, rules.Finds key ↔ goal.HasKey key) ∧
        (∀ key, minimal.Finds key → rules.Finds key) ∧
        (minimal.size = 0 → rules.size = 0)) ∧
    (∃ rules, (Session.new goal (RuleSearch.new goal 0)).Exhausts rules) ∧
    (Oracle.Total ω →
      (∃ all, (Session.new goal
        (SatSearch.new goal .all first 0)).Exhausts all) ∧
      ∃ minimal, (Session.new goal
        (SatSearch.new goal .minimal second 0)).Exhausts minimal) := by
  have wellFormed := obtained.wellFormed
  refine ⟨?_, ?_, fun total => ⟨?_, ?_⟩⟩
  · intro _ _ _ rules all minimal ruleRun allRun minimalRun
    obtain ⟨ruleDistinct, ruleKeys⟩ := ruleRun.rule_finds_iff wellFormed
    obtain ⟨allDistinct, allKeys⟩ :=
      allRun.all_finds_iff wellFormed correct direct
    obtain ⟨minimalKeys, none_⟩ := minimalRun.finds_hasKey wellFormed correct
    have same : ∀ key, rules.Finds key ↔ all.Finds key := fun key =>
      (ruleKeys key).trans (allKeys key).symm
    refine ⟨ruleDistinct.size_eq_size allDistinct same, same, ruleKeys, ?_, ?_⟩
    · intro key finds
      exact (ruleKeys key).mpr (minimalKeys key finds)
    · intro empty
      rw [ruleDistinct.size_eq_zero_iff]
      exact fun key finds => none_ empty key ((ruleKeys key).mp finds)
  · obtain ⟨unifiers, yields, enumerates⟩ :=
      RuleSearch.exists_yields wellFormed
    exact exists_exhausts_of_sound wellFormed yields enumerates.sound
  · obtain ⟨unifiers, yields⟩ :=
      SatSearch.exists_yields total correct goal .all first
    exact exists_exhausts_of_sound wellFormed yields
      (SatSearch.sound_of_yields correct wellFormed yields)
  · obtain ⟨unifiers, yields⟩ :=
      SatSearch.exists_yields total correct goal .minimal second
    exact exists_exhausts_of_sound wellFormed yields
      (SatSearch.sound_of_yields correct wellFormed yields)

theorem engines_agree_sampleCalls :
    ∃ goal, ((GoalBuilder.new Goal.sampleBackground {}).performAll
        Goal.sampleCalls).build = .ok goal ∧
      ∃ (rules : Session RuleSearch)
        (all minimal : Session (SatSearch ExhaustiveOracle)),
        (Session.new goal (RuleSearch.new goal 0)).Exhausts rules ∧
        (Session.new goal (SatSearch.new goal .all .start 0)).Exhausts all ∧
        (Session.new goal (SatSearch.new goal .minimal .start 0)).Exhausts
          minimal ∧
        rules.size = all.size ∧ (∀ key, rules.Finds key ↔ all.Finds key) ∧
        (∃ key, (Unifier.ofAssignment goal Goal.sampleSolution).userKey? goal =
          some key ∧ rules.Finds key ∧ all.Finds key) ∧
        (∀ key, minimal.Finds key → rules.Finds key) ∧ minimal.size ≠ 0 := by
  obtain ⟨goal, built, plain, _, local_, _⟩ := Goal.exists_build_sampleCalls
  have obtained : goal.Obtained := .built built
  obtain ⟨agree, ⟨rules, ruleRun⟩, ends⟩ :=
    engines_agree ExhaustiveOracle.correct obtained
      (Goal.not_onDirectCycle_of_plain plain) .start .start
  obtain ⟨⟨all, allRun⟩, minimal, minimalRun⟩ := ends ExhaustiveOracle.total
  obtain ⟨sizes, same, keys, among, empty⟩ :=
    agree 0 0 0 rules all minimal ruleRun allRun minimalRun
  obtain ⟨key, keyed⟩ := obtained.wellFormed.exists_key local_
  have found : rules.Finds key := (keys key).mpr ⟨_, local_, keyed⟩
  refine ⟨goal, built, rules, all, minimal, ruleRun, allRun, minimalRun, sizes,
    same, ⟨key, keyed, found, (same key).mp found⟩, among, ?_⟩
  intro none_
  obtain ⟨distinct, _⟩ := ruleRun.rule_finds_iff obtained.wellFormed
  exact distinct.size_eq_zero_iff.mp (empty none_) key found

end Session

end ConceptUnification
