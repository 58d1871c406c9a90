import ConceptUnification.Proofs.UserLiterals

/-!
# What the literals of subsumptions mean

The clauses that define the literals of subsumptions refer to each other, so on
their own they could have several solutions.  The order between fillers leaves
only one: a literal is true exactly if the values of its two atoms are related.
So the chosen subsumers determine these literals.
-/

namespace ConceptUnification

namespace Encoding

variable {goal : Goal} {valuation other : Valuation}

/-- The atoms of a pair with a literal have values, and the literal says whether
these are related. -/
theorem exists_expand?_of_numbered (wellFormed : goal.WellFormed)
    (satisfies : valuation.satisfies (ofGoal goal).formula = true)
    {a b : AtomId} {var : Nat}
    (found : (Encoder.final goal).numbering[LiteralMeaning.subsumption a b]? =
      some var) :
    ∃ lower upper,
      (Unifier.ofAssignment goal
        ((ofGoal goal).decode valuation)).expand? goal.store a = some lower ∧
      (Unifier.ofAssignment goal
        ((ofGoal goal).decode valuation)).expand? goal.store b = some upper ∧
      (valuation.holds (.pos var) = true ↔ lower.isBelow upper = true) := by
  have satisfied : Encoder.Satisfied goal valuation :=
    Encoder.satisfied_of_satisfies wellFormed satisfies
  have proper : ((ofGoal goal).decode valuation).Proper goal.store :=
    Encoder.proper_decode wellFormed
  have acyclic := Encoder.acyclic_decode wellFormed satisfied.order
  obtain ⟨value, evaluates⟩ := Assignment.exists_evaluates
    (acyclic.ranked wellFormed.store proper)
  have stands : Encoder.Stands (Encoder.final goal) (.subsumption a b)
      (.pos var) := ⟨var, found, rfl⟩
  obtain ⟨lower, upper⟩ := stands.numbered.stored wellFormed
  refine ⟨value a, value b, ?_, ?_, ?_⟩
  · exact Unifier.atom?_ofAssignment wellFormed acyclic proper evaluates lower
  · exact Unifier.atom?_ofAssignment wellFormed acyclic proper evaluates upper
  · rw [stands.holds_iff]
    exact Encoder.below_iff_isBelow wellFormed satisfied evaluates lower upper
      stands.numbered

/-- The literals of subsumers determine the assignment. -/
theorem decode_eq_decode (wellFormed : goal.WellFormed)
    (agrees : ∀ s ∈ (ofGoal goal).subsumers,
      valuation.holds s.literal = other.holds s.literal) :
    (ofGoal goal).decode valuation = (ofGoal goal).decode other := by
  apply Assignment.eq_of_contains_iff
  intro x atom
  rw [← Assignment.mem_subsumers, ← Assignment.mem_subsumers,
    subsumers_decode_eq wellFormed fun s member _ => agrees s member]

/-- In every satisfying valuation the literal of a pair of atoms is true exactly
if the values of the atoms are related under the chosen unifier.  So valuations
that choose the same subsumers agree on all these literals. -/
theorem subsumption_literals_exact {goal : Goal} (obtained : goal.Obtained) :
    (∀ valuation : Valuation,
      valuation.satisfies (ofGoal goal).formula = true →
      ∀ a b var,
        (Encoder.final goal).numbering[LiteralMeaning.subsumption a b]? =
          some var →
        ∃ lower upper,
          (Unifier.ofAssignment goal
            ((ofGoal goal).decode valuation)).expand? goal.store a =
              some lower ∧
          (Unifier.ofAssignment goal
            ((ofGoal goal).decode valuation)).expand? goal.store b =
              some upper ∧
          (valuation.holds (.pos var) = true ↔
            lower.isBelow upper = true)) ∧
    ∀ valuation other : Valuation,
      valuation.satisfies (ofGoal goal).formula = true →
      other.satisfies (ofGoal goal).formula = true →
      (∀ s ∈ (ofGoal goal).subsumers,
        valuation.holds s.literal = other.holds s.literal) →
      ∀ a b var,
        (Encoder.final goal).numbering[LiteralMeaning.subsumption a b]? =
          some var →
        valuation.holds (.pos var) = other.holds (.pos var) := by
  have wellFormed := obtained.wellFormed
  constructor
  · intro valuation satisfies a b var
    exact exists_expand?_of_numbered wellFormed satisfies
  · intro valuation other first second agrees a b var found
    obtain ⟨lower, upper, expanded, expanded', holds⟩ :=
      exists_expand?_of_numbered wellFormed first found
    obtain ⟨lower', upper', same, same', holds'⟩ :=
      exists_expand?_of_numbered wellFormed second found
    rw [← decode_eq_decode wellFormed agrees] at same same'
    cases expanded.symm.trans same
    cases expanded'.symm.trans same'
    rw [Bool.eq_iff_iff, holds, holds']

/-- The two valuations order the definition of `A` and the abbreviation of
`B ⊓ C` differently. -/
theorem subsumption_literals_exact_sampleCalls :
    ∃ goal, ((GoalBuilder.new Goal.sampleBackground {}).performAll
        Goal.sampleCalls).build = .ok goal ∧
      ∃ (valuation other : Valuation) (var : Nat) (lower upper : NormalConcept),
        valuation.satisfies (ofGoal goal).formula = true ∧
        (ofGoal goal).decode valuation = Goal.sampleSolution ∧
        (Encoder.final goal).numbering[LiteralMeaning.subsumption 0 4]? =
          some var ∧
        (Unifier.ofAssignment goal Goal.sampleSolution).expand? goal.store 0 =
          some lower ∧
        (Unifier.ofAssignment goal Goal.sampleSolution).expand? goal.store 4 =
          some upper ∧
        valuation.holds (.pos var) = true ∧ lower.isBelow upper = true ∧
        other.satisfies (ofGoal goal).formula = true ∧
        Encoder.Truth (Encoder.final goal) valuation (.order 1 6) ∧
        ¬ Encoder.Truth (Encoder.final goal) other (.order 1 6) ∧
        (∀ s ∈ (ofGoal goal).subsumers,
          valuation.holds s.literal = other.holds s.literal) ∧
        valuation.holds (.pos var) = other.holds (.pos var) := by
  obtain ⟨goal, built, _, _, solution, _⟩ := Goal.exists_build_sampleCalls
  have wellFormed := (Goal.Obtained.built built).wellFormed
  obtain ⟨member, restriction, _⟩ := Goal.stored_sampleCalls built
  obtain ⟨ranked, rankedAbove, restriction', varying, varying'⟩ :=
    Goal.ranked_sampleCalls built
  have filler : 1 ∈ Encoder.fillerVariables goal :=
    Encoder.mem_fillerVariables.mpr
      ⟨varying, 4, 1, AtomStore.restriction?_eq_some_iff.mp restriction⟩
  have filler' : 6 ∈ Encoder.fillerVariables goal :=
    Encoder.mem_fillerVariables.mpr
      ⟨varying', 7, 0, AtomStore.restriction?_eq_some_iff.mp restriction'⟩
  obtain ⟨valuation, satisfies, chooses, ordered⟩ :=
    Encoder.exists_decode_eq_of_ranked wellFormed solution ranked
  obtain ⟨other, satisfies', chooses', ordered'⟩ :=
    Encoder.exists_decode_eq_of_ranked wellFormed solution rankedAbove
  have agrees : ∀ s ∈ (ofGoal goal).subsumers,
      valuation.holds s.literal = other.holds s.literal := by
    intro s inSubsumers
    rw [Bool.eq_iff_iff, holds_iff_contains wellFormed inSubsumers,
      holds_iff_contains wellFormed inSubsumers, chooses, chooses']
  -- The formula makes the literal of the pair true.
  have below : Encoder.Below (Encoder.final goal) valuation 0 4 := by
    rcases (Encoder.satisfied_of_satisfies wellFormed
      satisfies).positive _ member with trivial_ | ⟨contrary, _⟩ | ⟨_, below⟩
    · exact absurd (OrderedSet.mem_singleton.mp trivial_) (by decide)
    · rw [AtomStore.not_isVariable_of_restriction
        (AtomStore.restriction?_eq_some_iff.mp restriction)] at contrary
      cases contrary
    · obtain ⟨b, inBody, below⟩ := below
      rwa [OrderedSet.mem_singleton.mp inBody] at below
  obtain ⟨var, found, holds⟩ := below
  obtain ⟨exact_, determined⟩ := subsumption_literals_exact (.built built)
  obtain ⟨lower, upper, expanded, expanded', means⟩ :=
    exact_ valuation satisfies 0 4 var found
  rw [chooses] at expanded expanded'
  have true_ : valuation.holds (.pos var) = true :=
    Valuation.holds_pos.mpr holds
  exact ⟨goal, built, valuation, other, var, lower, upper, satisfies, chooses,
    found, expanded, expanded', true_, means.mp true_, satisfies',
    (ordered 1 filler 6 filler').mpr (by decide),
    mt (ordered' 1 filler 6 filler').mp (by decide), agrees,
    determined valuation other satisfies satisfies' agrees 0 4 var found⟩

end Encoding

end ConceptUnification
