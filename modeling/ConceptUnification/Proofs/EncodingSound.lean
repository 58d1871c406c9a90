import ConceptUnification.Proofs.EncodedGoal

/-!
# Valuations choose local solutions

The clauses of a pair speak about further pairs, and the definitions may refer
to each other in cycles.  On the assignment that a valuation chooses they still
have only the intended meaning: the order literals make the assignment acyclic,
and every clause leads to pairs of smaller height.
-/

namespace ConceptUnification

namespace Encoder

variable {goal : Goal} {valuation : Valuation}

theorem mem_fillerVariables {y : AtomId} :
    y ∈ fillerVariables goal ↔ goal.store.isVariable y = true ∧
      ∃ atom role, goal.store.atom? atom = some (.restriction role y) := by
  simp only [fillerVariables, OrderedSet.mem_ofList, List.mem_filter,
    List.mem_map, List.mem_filterMap, Goal.mem_nonVariableAtoms]
  constructor
  · rintro ⟨⟨⟨role, _⟩, ⟨atom, _, restricts⟩, rfl⟩, varying⟩
    exact ⟨varying, atom, role,
      AtomStore.restriction?_eq_some_iff.mp restricts⟩
  · rintro ⟨varying, atom, role, restriction⟩
    refine ⟨⟨(role, y), ⟨atom, ⟨?_, ?_⟩, ?_⟩, rfl⟩, varying⟩
    · exact AtomStore.lt_size_of_atom? restriction
    · exact AtomStore.not_isVariable_of_restriction restriction
    · exact AtomStore.restriction?_eq_some_iff.mpr restriction

/-- The chosen assignment has the chosen subsumers. -/
theorem contains_decode (wellFormed : goal.WellFormed) {x atom : AtomId} :
    ((Encoding.ofGoal goal).decode valuation).contains x atom = true ↔
      (x ∈ goal.allVariables ∧ atom ∈ goal.nonVariableAtoms) ∧
        Chosen (final goal) valuation x atom := by
  have lists := listsSubsumers wellFormed
  simp only [Encoding.decode, Encoding.chosen, Assignment.contains_ofList,
    List.mem_map, List.mem_filter, Prod.mk.injEq]
  constructor
  · rintro ⟨s, ⟨member, holds⟩, rfl, rfl⟩
    obtain ⟨inVariables, inAtoms, _, stands⟩ := lists.stands s member
    exact ⟨⟨inVariables, inAtoms⟩, stands.holds_iff.mp holds⟩
  · rintro ⟨⟨inVariables, inAtoms⟩, chosen⟩
    obtain ⟨s, member, rfl, rfl⟩ :=
      lists.complete x inVariables atom inAtoms
    obtain ⟨_, _, _, stands⟩ := lists.stands s member
    exact ⟨s, ⟨member, stands.holds_iff.mpr chosen⟩, rfl, rfl⟩

theorem proper_decode (wellFormed : goal.WellFormed) :
    ((Encoding.ofGoal goal).decode valuation).Proper goal.store :=
  Assignment.proper_iff.mpr fun _ _ chosen =>
    ((contains_decode wellFormed).mp chosen).1

/-- Between variables that occur as fillers, dependency is part of the
order. -/
theorem OrderHolds.of_depends (wellFormed : goal.WellFormed)
    (ordered : OrderHolds goal (final goal) valuation) {x y : AtomId}
    (filler : x ∈ fillerVariables goal)
    (depends : ((Encoding.ofGoal goal).decode valuation).Depends
      goal.store x y) :
    y ∈ fillerVariables goal ∧ Truth (final goal) valuation (.order x y) := by
  obtain ⟨atom, role, chosen, restriction, varying⟩ := depends
  obtain ⟨⟨_, inAtoms⟩, inSolution⟩ := (contains_decode wellFormed).mp chosen
  have filler' : y ∈ fillerVariables goal :=
    mem_fillerVariables.mpr ⟨varying, atom, role, restriction⟩
  exact ⟨filler', ordered.depends x filler atom inAtoms role y
    (AtomStore.restriction?_eq_some_iff.mpr restriction) filler' inSolution⟩

/-- Every variable on a cycle occurs as a filler, so the order forbids
cycles. -/
theorem acyclic_decode (wellFormed : goal.WellFormed)
    (ordered : OrderHolds goal (final goal) valuation) :
    ((Encoding.ofGoal goal).decode valuation).Acyclic goal.store := by
  have path_ordered : ∀ x y, x ∈ fillerVariables goal →
      Relation.TransGen (((Encoding.ofGoal goal).decode valuation).Depends
        goal.store) x y →
      y ∈ fillerVariables goal ∧
        Truth (final goal) valuation (.order x y) := by
    intro x y filler path
    induction path with
    | single edge => exact ordered.of_depends wellFormed filler edge
    | tail _ edge induction =>
        obtain ⟨middle, before⟩ := induction
        obtain ⟨last, after⟩ := ordered.of_depends wellFormed middle edge
        exact ⟨last, ordered.transitive x filler _ middle _ last before after⟩
  intro x cycle
  have filler : x ∈ fillerVariables goal := by
    obtain ⟨_, _, atom, role, _, restriction, varying⟩ :=
      Relation.TransGen.tail'_iff.mp cycle
    exact mem_fillerVariables.mpr ⟨varying, atom, role, restriction⟩
  exact ordered.irreflexive x filler (path_ordered x x filler cycle).2

section Values

variable {value : AtomId → NormalConcept}
  (wellFormed : goal.WellFormed) (satisfied : Satisfied goal valuation)
  (evaluates : Evaluates goal.store
    ((Encoding.ofGoal goal).decode valuation).subsumers value)

include wellFormed

theorem chosen_iff_mem_subsumers {x atom : AtomId}
    (varying : goal.store.isVariable x = true) :
    (atom ∈ goal.nonVariableAtoms ∧ Chosen (final goal) valuation x atom) ↔
      atom ∈ ((Encoding.ofGoal goal).decode valuation).subsumers x := by
  rw [Assignment.mem_subsumers, contains_decode wellFormed,
    Goal.mem_allVariables, varying]
  tauto

include evaluates

section Pair

variable {height : AtomId → Nat} {a b : AtomId}
  (ranked : ((Encoding.ofGoal goal).decode valuation).Ranked goal.store height)
  (lower : a < goal.store.size) (upper : b < goal.store.size)
  (defined : Defined goal (final goal) valuation a b) (different : a ≠ b)
  (induction : ∀ c d, height c + height d < height a + height b →
    c < goal.store.size → d < goal.store.size → Numbered (final goal) c d →
      (Below (final goal) valuation c d ↔
        (value c).isBelow (value d) = true))

include ranked defined different induction

include lower in
theorem below_variable_iff (varying : goal.store.isVariable b = true) :
    Below (final goal) valuation a b ↔ (value a).isBelow (value b) = true := by
  rw [Defined, if_neg different, if_pos varying] at defined
  have inner : ∀ atom ∈ goal.nonVariableAtoms,
      Chosen (final goal) valuation b atom →
        (Below (final goal) valuation a atom ↔
          (value a).isBelow (value atom) = true) := by
    intro atom inAtoms chosen
    have member :=
      (chosen_iff_mem_subsumers wellFormed varying).mp ⟨inAtoms, chosen⟩
    have smaller :=
      ranked.subsumer b atom (Assignment.mem_subsumers.mp member)
    exact induction a atom (by omega) lower
      (Goal.mem_nonVariableAtoms.mp inAtoms).1 (defined.2 atom inAtoms)
  rw [defined.1, evaluates.isBelow_variable_iff varying]
  constructor
  · intro all atom member
    obtain ⟨inAtoms, chosen⟩ :=
      (chosen_iff_mem_subsumers wellFormed varying).mpr member
    exact (inner atom inAtoms chosen).mp (all atom inAtoms chosen)
  · intro all atom inAtoms chosen
    exact (inner atom inAtoms chosen).mpr (all atom
      ((chosen_iff_mem_subsumers wellFormed varying).mp ⟨inAtoms, chosen⟩))

include upper in
theorem variable_below_iff (varying : goal.store.isVariable a = true)
    (nonVariable : goal.store.isVariable b = false) :
    Below (final goal) valuation a b ↔ (value a).isBelow (value b) = true := by
  rw [Defined, if_neg different, if_neg (by rw [nonVariable]; simp),
    if_pos varying] at defined
  have inner : ∀ atom ∈ goal.nonVariableAtoms,
      Chosen (final goal) valuation a atom →
        (Below (final goal) valuation atom b ↔
          (value atom).isBelow (value b) = true) := by
    intro atom inAtoms chosen
    have member :=
      (chosen_iff_mem_subsumers wellFormed varying).mp ⟨inAtoms, chosen⟩
    have smaller :=
      ranked.subsumer a atom (Assignment.mem_subsumers.mp member)
    exact induction atom b (by omega)
      (Goal.mem_nonVariableAtoms.mp inAtoms).1 upper (defined.2 atom inAtoms)
  rw [defined.1, evaluates.variable_isBelow_iff varying upper nonVariable]
  constructor
  · rintro ⟨atom, inAtoms, chosen, below⟩
    exact ⟨atom,
      (chosen_iff_mem_subsumers wellFormed varying).mp ⟨inAtoms, chosen⟩,
      (inner atom inAtoms chosen).mp below⟩
  · rintro ⟨atom, member, isBelow⟩
    obtain ⟨inAtoms, chosen⟩ :=
      (chosen_iff_mem_subsumers wellFormed varying).mpr member
    exact ⟨atom, inAtoms, chosen, (inner atom inAtoms chosen).mpr isBelow⟩

include lower upper in
theorem nonVariable_below_iff (nonVariable : goal.store.isVariable a = false)
    (nonVariable' : goal.store.isVariable b = false) :
    Below (final goal) valuation a b ↔ (value a).isBelow (value b) = true := by
  rw [Defined, if_neg different, if_neg (by rw [nonVariable']; simp),
    if_neg (by rw [nonVariable]; simp)] at defined
  rw [evaluates.nonVariable_isBelow_iff_match lower upper nonVariable
    nonVariable' different]
  cases restrictsLower : goal.store.restriction? a with
  | none =>
      rw [restrictsLower] at defined
      exact iff_of_false defined id
  | some pair =>
      cases restrictsUpper : goal.store.restriction? b with
      | none =>
          rw [restrictsLower, restrictsUpper] at defined
          exact iff_of_false defined id
      | some pair' =>
          obtain ⟨role, filler⟩ := pair
          obtain ⟨role', filler'⟩ := pair'
          simp only [restrictsLower, restrictsUpper] at defined
          by_cases sameRole : role = role'
          · rw [if_pos sameRole] at defined
            have present := AtomStore.restriction?_eq_some_iff.mp restrictsLower
            have present' :=
              AtomStore.restriction?_eq_some_iff.mp restrictsUpper
            obtain ⟨_, _, named⟩ := wellFormed.store a role filler present
            obtain ⟨_, _, named'⟩ := wellFormed.store b role' filler' present'
            have smaller := ranked.filler a role filler present
            have smaller' := ranked.filler b role' filler' present'
            rw [defined.1, induction filler filler' (by omega)
              (AtomStore.lt_size_of_atom? named)
              (AtomStore.lt_size_of_atom? named') defined.2]
            exact (and_iff_right sameRole).symm
          · rw [if_neg sameRole] at defined
            exact iff_of_false defined fun both => sameRole both.1

end Pair

include satisfied

/-- The subsumption literals in use are true exactly if the values are
related. -/
theorem below_iff_isBelow {a b : AtomId} (lower : a < goal.store.size)
    (upper : b < goal.store.size) (numbered : Numbered (final goal) a b) :
    Below (final goal) valuation a b ↔ (value a).isBelow (value b) = true := by
  have ranked := (acyclic_decode wellFormed satisfied.order).ranked
    wellFormed.store (proper_decode wellFormed)
  generalize ((Encoding.ofGoal goal).decode valuation).height goal.store =
    height at ranked
  -- By induction on the sum of the heights of the pair.
  induction bound : height a + height b using Nat.strongRecOn
    generalizing a b with
  | _ bound induction =>
      subst bound
      have defined := satisfied.defined a b numbered
      have inner : ∀ c d, height c + height d < height a + height b →
          c < goal.store.size → d < goal.store.size →
            Numbered (final goal) c d →
              (Below (final goal) valuation c d ↔
                (value c).isBelow (value d) = true) :=
        fun c d smaller storedLower storedUpper numbered' =>
          induction _ smaller storedLower storedUpper numbered' rfl
      by_cases same : a = b
      · rw [Defined, if_pos same] at defined
        subst same
        exact iff_of_true defined (NormalConcept.isBelow_refl _)
      cases varying : goal.store.isVariable b with
      | true =>
          exact below_variable_iff wellFormed evaluates ranked lower defined
            same inner varying
      | false =>
          cases varying' : goal.store.isVariable a with
          | true =>
              exact variable_below_iff wellFormed evaluates ranked upper
                defined same inner varying' varying
          | false =>
              exact nonVariable_below_iff wellFormed evaluates ranked lower
                upper defined same inner varying' varying

/-- A positive subsumption that the formula states holds for the values. -/
theorem PositiveHolds.holds {s : FlatSubsumption}
    (member : s ∈ goal.positiveSubsumptions)
    (positive : PositiveHolds goal (final goal) valuation s) :
    s.Holds value := by
  obtain ⟨body, head⟩ := wellFormed.stores_positive member
  have lift : ∀ {atom}, atom < goal.store.size →
      (∃ b ∈ s.body, Below (final goal) valuation b atom) →
        (conjoin value s.body).isBelow (value atom) = true := by
    rintro atom stored ⟨b, inBody, below⟩
    refine NormalConcept.isBelow_trans (conjoin_isBelow_of_mem inBody) ?_
    exact (below_iff_isBelow wellFormed satisfied evaluates (body b inBody)
      stored below.numbered).mp below
  rw [FlatSubsumption.Holds]
  rcases positive with inBody | ⟨varying, rows⟩ | ⟨_, below⟩
  · exact conjoin_isBelow_of_mem inBody
  · rw [evaluates.isBelow_variable_iff varying]
    intro atom chosen
    obtain ⟨⟨_, inAtoms⟩, inSolution⟩ :=
      (contains_decode wellFormed).mp (Assignment.mem_subsumers.mp chosen)
    exact lift (Goal.mem_nonVariableAtoms.mp inAtoms).1
      (rows atom inAtoms inSolution)
  · exact lift head below

/-- If the formula says that a conjunction does not lie below another one, its
value does not. -/
theorem NotBelow.not_isBelow {body head : AtomSet}
    (stored : goal.store.Stores body) (stored' : goal.store.Stores head)
    (notBelow : NotBelow goal (final goal) valuation body head) :
    ¬ (conjoin value body).isBelow (conjoin value head) = true := by
  have refute : ∀ {atom}, atom < goal.store.size →
      goal.store.isVariable atom = false →
      (∀ b ∈ body, Numbered (final goal) b atom ∧
        ¬ Below (final goal) valuation b atom) →
      ¬ (conjoin value body).isBelow (value atom) = true := by
    intro atom inStore nonVariable excluded isBelow
    obtain ⟨b, inBody, below⟩ := (conjoin_isBelow_iff_exists
      (evaluates.interprets.single inStore nonVariable)).mp isBelow
    obtain ⟨numbered, notBelow⟩ := excluded b inBody
    exact notBelow ((below_iff_isBelow wellFormed satisfied evaluates
      (stored b inBody) inStore numbered).mpr below)
  intro isBelow
  rw [isBelow_conjoin_iff] at isBelow
  obtain ⟨upper, inHead, ⟨varying, atom, inAtoms, chosen, excluded⟩ |
    ⟨nonVariable, excluded⟩⟩ := notBelow
  · obtain ⟨inStore, nonVariable⟩ := Goal.mem_nonVariableAtoms.mp inAtoms
    refine refute inStore nonVariable excluded
      (NormalConcept.isBelow_trans (isBelow upper inHead) ?_)
    refine evaluates.variable_isBelow_of_mem varying ?_
    rw [Assignment.mem_subsumers, contains_decode wellFormed]
    exact ⟨⟨Goal.mem_allVariables.mpr varying, inAtoms⟩, chosen⟩
  · exact refute (stored' upper inHead) nonVariable excluded
      (isBelow upper inHead)

theorem NegativeHolds.holds {constraint : NegativeConstraint}
    (member : constraint ∈ goal.negativeConstraints)
    (negative : NegativeHolds goal (final goal) valuation constraint) :
    constraint.Holds value := by
  rcases List.mem_append.mp member with inDisequations | inDissubsumptions
  · obtain ⟨disequation, inGoal, rfl⟩ := List.mem_map.mp inDisequations
    obtain ⟨left, right⟩ := wellFormed.disequations disequation inGoal
    rw [NegativeConstraint.Holds, NormalConcept.isEquivalent, Bool.and_eq_true]
    rintro ⟨forward, backward⟩
    rcases negative with notBelow | notBelow
    · exact notBelow.not_isBelow wellFormed satisfied evaluates left right
        forward
    · exact notBelow.not_isBelow wellFormed satisfied evaluates right left
        backward
  · obtain ⟨dissubsumption, inGoal, rfl⟩ := List.mem_map.mp inDissubsumptions
    obtain ⟨body, head⟩ := wellFormed.dissubsumptions dissubsumption inGoal
    exact NotBelow.not_isBelow wellFormed satisfied evaluates body head negative

end Values

/-- The assignment that a satisfying valuation chooses is a local solution. -/
theorem localSolution_decode (wellFormed : goal.WellFormed)
    (satisfies : valuation.satisfies (Encoding.ofGoal goal).formula = true) :
    ((Encoding.ofGoal goal).decode valuation).LocalSolution goal := by
  have satisfied : Satisfied goal valuation :=
    satisfied_of_satisfies wellFormed satisfies
  have proper : ((Encoding.ofGoal goal).decode valuation).Proper goal.store :=
    proper_decode wellFormed
  have acyclic := acyclic_decode wellFormed satisfied.order
  obtain ⟨value, evaluates⟩ := Assignment.exists_evaluates
    (acyclic.ranked wellFormed.store proper)
  refine ⟨Assignment.proper_iff.mp proper, acyclic, ?_⟩
  rw [Unifier.satisfies?_ofAssignment wellFormed acyclic proper evaluates]
  constructor
  · intro s member
    exact (satisfied.positive s member).holds wellFormed satisfied evaluates
      member
  · intro constraint member
    exact (satisfied.negative constraint member).holds wellFormed satisfied
      evaluates member

end Encoder

end ConceptUnification
