import ConceptUnification.Proofs.SatRun

/-!
# An oracle that tries all valuations

Whether a formula is true depends only on the variables that it mentions.  So
it is enough to try the sets of these variables, and the oracle that does so is
always right.
-/

namespace ConceptUnification

namespace Formula

/-- The variables of the literals of the clauses. -/
def mentioned (formula : Formula) : List Nat :=
  formula.clauses.toList.flatMap fun clause => clause.map Literal.var

/-- A satisfying valuation that makes some of the mentioned variables true. -/
def exhaustive? (formula : Formula) : Option Valuation :=
  (formula.mentioned.sublists.map Valuation.ofTrue).find? fun valuation =>
    valuation.satisfies formula

variable {formula : Formula} {valuation other : Valuation}

theorem satisfies_of_agrees
    (agrees : ∀ var ∈ formula.mentioned, other var = valuation var)
    (satisfies : valuation.satisfies formula = true) :
    other.satisfies formula = true := by
  rw [Valuation.satisfies_iff] at satisfies ⊢
  intro clause member
  obtain ⟨literal, inClause, holds⟩ :=
    Valuation.holdsClause_iff.mp (satisfies clause member)
  refine Valuation.holdsClause_iff.mpr ⟨literal, inClause, ?_⟩
  have mentions : literal.var ∈ formula.mentioned :=
    List.mem_flatMap.mpr ⟨clause, Array.mem_toList_iff.mpr member,
      List.mem_map_of_mem inClause⟩
  rw [Valuation.holds, agrees literal.var mentions]
  exact holds

/-- If no set of mentioned variables satisfies the formula, nothing does. -/
theorem not_satisfies_of_exhaustive? (none_ : formula.exhaustive? = none) :
    ¬ valuation.satisfies formula = true := by
  intro satisfies
  have tried : Valuation.ofTrue (formula.mentioned.filter valuation) ∈
      formula.mentioned.sublists.map Valuation.ofTrue :=
    List.mem_map_of_mem (List.mem_sublists.mpr List.filter_sublist)
  refine List.find?_eq_none.mp none_ _ tried (satisfies_of_agrees ?_ satisfies)
  intro var mentions
  rw [Bool.eq_iff_iff]
  simp [Valuation.ofTrue, mentions]

end Formula

/-- The oracle that tries all valuations.  It has no state. -/
inductive ExhaustiveOracle where
  | start

namespace ExhaustiveOracle

instance : Oracle ExhaustiveOracle where
  solve formula oracle :=
    match formula.exhaustive? with
    | some valuation => (.ok (.satisfiable valuation), oracle)
    | none => (.ok .unsatisfiable, oracle)

theorem correct : Oracle.Correct ExhaustiveOracle := by
  intro formula oracle outcome next solved
  unfold Oracle.solve instOracle at solved
  simp only at solved
  split at solved
  · next valuation found =>
      cases solved
      have holds := List.find?_some found
      exact holds
  · next none_ =>
      cases solved
      exact fun _ => Formula.not_satisfies_of_exhaustive? none_

theorem total : Oracle.Total ExhaustiveOracle := by
  intro formula oracle
  unfold Oracle.solve instOracle
  simp only
  split
  · exact ⟨_, _, rfl⟩
  · exact ⟨_, _, rfl⟩

theorem determined : Oracle.Determined ExhaustiveOracle := by
  intro formula oracle other
  cases oracle
  cases other
  rfl

end ExhaustiveOracle

end ConceptUnification
