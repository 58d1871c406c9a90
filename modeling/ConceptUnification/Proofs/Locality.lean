import ConceptUnification.Proofs.EncodingComplete
import ConceptUnification.Proofs.SearchRun

/-!
# Locality

Substitutions of arbitrary concepts for the variables of a goal need not be
searched for.  Such a substitution is projected to the assignment of all
non-variable atoms of the goal above its values.  Role depth shows that the
projection is acyclic.  Its values lie above those of the substitution and are
related in every way in which these are, so it solves the positive subsumptions
that the substitution solves.
-/

namespace ConceptUnification

/-- The values of concept names under a substitution for the variables: the
other names stand for themselves. -/
def AtomStore.ground (store : AtomStore) (substitution : AtomId → NormalConcept)
    (id : AtomId) : NormalConcept :=
  if store.isVariable id then substitution id else .name id

theorem AtomStore.WellFormed.interprets_ground {store : AtomStore}
    (wellFormed : store.WellFormed)
    (substitution : AtomId → NormalConcept) :
    Interprets store (store.valueOf (store.ground substitution)) where
  constant := by
    intro id symbol present constant
    rw [AtomStore.valueOf_name present]
    simp [ground, constant]
  restriction := by
    intro id role filler present
    obtain ⟨_, symbol, named⟩ := wellFormed id role filler present
    rw [AtomStore.valueOf_restriction present, AtomStore.valueOf_name named]

theorem AtomStore.valueOf_ground {store : AtomStore}
    {substitution : AtomId → NormalConcept} {x : AtomId}
    (varying : store.isVariable x = true) :
    store.valueOf (store.ground substitution) x = substitution x := by
  obtain ⟨symbol, named⟩ := AtomStore.exists_name_of_isVariable varying
  rw [AtomStore.valueOf_name named]
  simp [ground, varying]

namespace Assignment

section Projection

variable {goal : Goal} {given value : AtomId → NormalConcept}
  (wellFormed : goal.WellFormed) (interprets : Interprets goal.store given)
  (evaluates :
    Evaluates goal.store (closure goal given).subsumers value)

include wellFormed interprets evaluates

/-- The projection keeps all subsumptions between atoms of the goal.  The
induction is on the upper atom, which only leads to lower ones: from a variable
to its subsumers and from a restriction to its filler. -/
theorem isBelow_of_given {a b : AtomId} (lower : a < goal.store.size)
    (upper : b < goal.store.size)
    (below : (given a).isBelow (given b) = true) :
    (value a).isBelow (value b) = true := by
  have ranked := (acyclic_closure interprets).ranked wellFormed.store
    proper_closure
  generalize (closure goal given).height goal.store = height at ranked
  induction rank : height b using Nat.strongRecOn generalizing a b with
  | _ rank induction =>
      subst rank
      by_cases upperVaries : goal.store.isVariable b = true
      · rw [evaluates.isBelow_variable_iff upperVaries]
        intro atom member
        have chosen := mem_subsumers.mp member
        obtain ⟨_, ⟨stored, _⟩, above⟩ := contains_closure.mp chosen
        exact induction _ (ranked.subsumer b atom chosen) lower stored
          (NormalConcept.isBelow_trans below above) rfl
      rw [Bool.not_eq_true] at upperVaries
      by_cases lowerVaries : goal.store.isVariable a = true
      · apply evaluates.variable_isBelow_of_mem lowerVaries
        exact mem_subsumers.mpr
          (contains_closure.mpr ⟨lowerVaries, ⟨upper, upperVaries⟩, below⟩)
      rw [Bool.not_eq_true] at lowerVaries
      by_cases same : a = b
      · rw [same]
        exact NormalConcept.isBelow_refl _
      obtain ⟨role, filler, filler', lowerAtom, upperAtom, fillers⟩ :=
        (interprets.nonVariable_isBelow_iff lower upper lowerVaries upperVaries
          same).mp below
      obtain ⟨_, _, named⟩ := wellFormed.store a role filler lowerAtom
      obtain ⟨_, _, named'⟩ := wellFormed.store b role filler' upperAtom
      have related := induction _ (ranked.filler b role filler' upperAtom)
        (AtomStore.lt_size_of_atom? named) (AtomStore.lt_size_of_atom? named')
        fillers rfl
      rw [evaluates.restriction a role filler lowerAtom,
        evaluates.restriction b role filler' upperAtom]
      exact NormalConcept.restriction_isBelow_restriction.mpr ⟨rfl, related⟩

/-- The values of the projection are more general than the given ones. -/
theorem given_isBelow_value {id : AtomId} (stored : id < goal.store.size) :
    (given id).isBelow (value id) = true := by
  have ranked := (acyclic_closure interprets).ranked wellFormed.store
    proper_closure
  generalize (closure goal given).height goal.store = height at ranked
  induction rank : height id using Nat.strongRecOn generalizing id with
  | _ rank induction =>
      subst rank
      by_cases varying : goal.store.isVariable id = true
      · rw [evaluates.isBelow_variable_iff varying]
        intro atom member
        have chosen := mem_subsumers.mp member
        obtain ⟨_, ⟨inStore, _⟩, above⟩ := contains_closure.mp chosen
        exact NormalConcept.isBelow_trans above
          (induction _ (ranked.subsumer id atom chosen) inStore rfl)
      rw [Bool.not_eq_true] at varying
      obtain ⟨atom, present⟩ := AtomStore.exists_atom? stored
      cases atom with
      | name symbol =>
          rw [interprets.constant id symbol present varying,
            evaluates.constant id symbol present varying]
          exact NormalConcept.isBelow_refl _
      | restriction role filler =>
          obtain ⟨_, _, named⟩ := wellFormed.store id role filler present
          rw [interprets.restriction id role filler present,
            evaluates.restriction id role filler present]
          exact NormalConcept.restriction_isBelow_restriction.mpr ⟨rfl,
            induction _ (ranked.filler id role filler present)
              (AtomStore.lt_size_of_atom? named) rfl⟩

/-- The projection solves the subsumptions that hold for the given values.  If
the head is a variable, each of its subsumers lies above the given value of the
body, and therefore above that of one conjunct. -/
theorem holds_of_given {subsumption : FlatSubsumption}
    (member : subsumption ∈ goal.positiveSubsumptions)
    (holds : subsumption.Holds given) : subsumption.Holds value := by
  obtain ⟨body, head⟩ := wellFormed.stores_positive member
  have conjunct : ∀ atom, atom < goal.store.size →
      goal.store.isVariable atom = false →
      (conjoin given subsumption.body).isBelow (given atom) = true →
      (conjoin value subsumption.body).isBelow (value atom) = true := by
    intro atom stored nonVariable below
    obtain ⟨lower, inBody, lowerBelow⟩ := (conjoin_isBelow_iff_exists
      (interprets.single stored nonVariable)).mp below
    exact NormalConcept.isBelow_trans (conjoin_isBelow_of_mem inBody)
      (isBelow_of_given wellFormed interprets evaluates (body lower inBody)
        stored lowerBelow)
  unfold FlatSubsumption.Holds at holds ⊢
  by_cases varying : goal.store.isVariable subsumption.head = true
  · rw [evaluates.isBelow_variable_iff varying]
    intro atom inSubsumers
    obtain ⟨_, ⟨stored, nonVariable⟩, above⟩ :=
      contains_closure.mp (mem_subsumers.mp inSubsumers)
    exact conjunct atom stored nonVariable
      (NormalConcept.isBelow_trans holds above)
  · rw [Bool.not_eq_true] at varying
    exact conjunct subsumption.head head varying holds

end Projection

end Assignment

namespace Goal

/-- If a substitution of any concepts solves a goal without negative
constraints, the search by rules finds a unifier that is at least as general,
and the encoding of the goal can be satisfied. -/
theorem engines_lose_no_generality {goal : Goal} (obtained : goal.Obtained)
    (positive : goal.hasNegative = false)
    (substitution : AtomId → NormalConcept)
    (solves : ∀ subsumption ∈ goal.positiveSubsumptions,
      subsumption.Holds (goal.store.valueOf
        (goal.store.ground substitution))) :
    (∃ unifiers, Engine.Yields (RuleSearch.new goal 0) unifiers ∧
      ∃ unifier ∈ unifiers, ∀ x ∈ goal.allVariables, ∃ value,
        unifier.expand? goal.store x = some value ∧
          (substitution x).isBelow value = true) ∧
      ∃ valuation : Valuation,
        valuation.satisfies (Encoding.ofGoal goal).formula = true := by
  have wellFormed := obtained.wellFormed
  have interprets := wellFormed.store.interprets_ground substitution
  generalize shape : goal.store.valueOf (goal.store.ground substitution) =
    given at interprets solves
  have acyclic := Assignment.acyclic_closure interprets
  have proper : (Assignment.closure goal given).Proper goal.store :=
    Assignment.proper_closure
  obtain ⟨value, evaluates⟩ := Assignment.exists_evaluates
    (acyclic.ranked wellFormed.store proper)
  have holds : ∀ subsumption ∈ goal.positiveSubsumptions,
      subsumption.Holds value := fun subsumption member =>
    Assignment.holds_of_given wellFormed interprets evaluates member
      (solves subsumption member)
  have nothing : ∀ constraint ∈ goal.negativeConstraints,
      constraint.Holds value := by
    simp [SearchInvariant.negativeConstraints_eq_nil positive]
  constructor
  · -- The search reports the closure of the projection, which has its values.
    have closed := Assignment.closedSolution_closure wellFormed.store acyclic
      proper evaluates holds
    obtain ⟨unifiers, yields, _, complete⟩ :=
      RuleSearch.exists_yields_closed wellFormed
    have respected := (Unifier.respectsNegative?_ofAssignment wellFormed
      closed.acyclic closed.proper closed.evaluates).mpr nothing
    refine ⟨unifiers, yields, _, complete _ value closed respected, ?_⟩
    intro x member
    have varying := Goal.mem_allVariables.mp member
    have stored := AtomStore.lt_size_of_isVariable varying
    have moreGeneral :=
      Assignment.given_isBelow_value wellFormed interprets evaluates stored
    rw [← shape, AtomStore.valueOf_ground varying] at moreGeneral
    exact ⟨value x, Unifier.atom?_ofAssignment wellFormed closed.acyclic
      closed.proper closed.evaluates stored, moreGeneral⟩
  · have local_ : (Assignment.closure goal given).LocalSolution goal :=
      { choices := Assignment.proper_iff.mp proper
        acyclic
        satisfies := (Unifier.satisfies?_ofAssignment wellFormed acyclic proper
          evaluates).mpr ⟨holds, nothing⟩ }
    obtain ⟨valuation, satisfies, _⟩ :=
      Encoder.exists_decode_eq wellFormed local_
    exact ⟨valuation, satisfies⟩

/-- Calls that ask for a concept below a restriction over another one and,
together with a constant, below that one.  The sides nest a conjunction under a
restriction. -/
def nestedCalls : List BuilderCall :=
  [.userVariable "X", .userVariable "Y",
    .subsumption (.name "X") (.restriction "r" (.name "Y")),
    .subsumption (.restriction "r" (.conjunction [.name "X", .name "B"]))
      (.restriction "r" (.name "Y"))]

/-- Values with a role and a name that the goal does not have.  The variables
are `X`, `Y` and the abbreviation of `X` with the constant `B`. -/
def foreignSubstitution (x : AtomId) : NormalConcept :=
  let foreign : NormalConcept := .restriction 7 (.name 99)
  if x = 1 then foreign
  else if x = 4 then .conjunction [foreign, .restriction 0 foreign, .name 3]
  else .conjunction [foreign, .restriction 0 foreign]

theorem engines_lose_no_generality_nestedCalls :
    ∃ goal, ((GoalBuilder.new ∅ {}).performAll nestedCalls).build = .ok goal ∧
      goal.hasNegative = false ∧ goal.allVariables = [0, 1, 4] ∧
      (∀ subsumption ∈ goal.positiveSubsumptions,
        subsumption.Holds (goal.store.valueOf
          (goal.store.ground foreignSubstitution))) ∧
      (∃ unifiers, Engine.Yields (RuleSearch.new goal 0) unifiers ∧
        ∃ unifier ∈ unifiers, ∀ x ∈ goal.allVariables, ∃ value,
          unifier.expand? goal.store x = some value ∧
            (foreignSubstitution x).isBelow value = true) ∧
      ∃ valuation : Valuation,
        valuation.satisfies (Encoding.ofGoal goal).formula = true := by
  have holds : ((GoalBuilder.new ∅ {}).performAll
      nestedCalls).build.toOption.any (fun goal => decide (
        goal.hasNegative = false ∧ goal.allVariables = [0, 1, 4] ∧
        ∀ subsumption ∈ goal.positiveSubsumptions,
          (conjoin (goal.store.valueOf (goal.store.ground foreignSubstitution))
            subsumption.body).isBelow (goal.store.valueOf
              (goal.store.ground foreignSubstitution) subsumption.head) =
                true)) = true := by
    simp only [nestedCalls, GoalBuilder.performAll, List.foldl,
      GoalBuilder.perform, GoalBuilder.addSubsumption, GoalBuilder.flatten,
      GoalBuilder.flattenWith, GoalBuilder.flattenAllWith]
    unfold GoalBuilder.nameWith
    decide +kernel
  obtain ⟨goal, built, facts⟩ := exists_ok_of_any holds
  obtain ⟨positive, unknowns, solves⟩ := of_decide_eq_true facts
  obtain ⟨rules, sat⟩ := engines_lose_no_generality (.built built) positive
    foreignSubstitution solves
  exact ⟨goal, built, positive, unknowns, solves, rules, sat⟩

end Goal

end ConceptUnification
