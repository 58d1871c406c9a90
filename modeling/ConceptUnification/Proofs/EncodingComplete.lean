import ConceptUnification.Proofs.EncodingSound
import ConceptUnification.Proofs.ModelConstruction

/-!
# Local solutions are chosen by valuations

For a local solution every literal has an intended truth: subsumer literals say
what is chosen, subsumption literals how the values are related, and order
literals what comes first in some strict order that respects the dependencies.
Under this truth every clause of the encoding can be satisfied, when the further
variables name the witnesses of the disjunctions.
-/

namespace ConceptUnification

namespace Encoder

/-- What the literals are to say for an assignment with some values, when the
variables are ordered in some way. -/
def Intended (assignment : Assignment) (value : AtomId → NormalConcept)
    (before : AtomId → AtomId → Prop) : LiteralMeaning → Prop
  | .subsumer x atom => assignment.contains x atom = true
  | .subsumption a b => (value a).isBelow (value b) = true
  | .order x y => before x y

section Writing

variable {goal : Goal} {assignment : Assignment}
  {value : AtomId → NormalConcept} {before : AtomId → AtomId → Prop}
  {stage : Stage goal.store.size (Intended assignment value before)}

theorem writes_conjunctsBelow {body : AtomSet} {atom : AtomId}
    (stored : goal.store.Stores body) (upper : atom < goal.store.size) :
    Writes stage (conjunctsBelow body atom) fun lits stage' =>
      List.Forall₂
        (fun b lit => stage'.Means lit ((value b).isBelow (value atom) = true))
        body.toList lits :=
  .mapM_means _ fun b member _ _ =>
    writes_subsumption (stored b (OrderedSet.mem_iff.mpr member)) upper

/-- A literal that implies that no conjunct lies below an atom. -/
theorem writes_excluded {body : AtomSet} {atom : AtomId} {lit : Literal}
    {p : Prop} (means : stage.Means lit p)
    (stored : goal.store.Stores body) (upper : atom < goal.store.size)
    (excludes : p → ∀ b ∈ body, ¬ (value b).isBelow (value atom) = true) :
    Writes stage (do
      (← conjunctsBelow body atom).forM fun below =>
        addClause [lit.negate, below.negate]) fun _ _ => True := by
  refine (writes_conjunctsBelow stored upper).bind ?_
  intro lits stage' extension related
  refine .forM fun below inLits stage'' extension' => ?_
  obtain ⟨b, inBody, belowMeans⟩ := exists_related related inLits
  refine writes_addClause (.pair
    (means.mono (extension.trans extension')).negate
    (belowMeans.mono extension').negate) ?_
  by_cases holds : p
  · exact .inr (excludes holds b (OrderedSet.mem_iff.mpr inBody))
  · exact .inl holds

/-- An option is true if its atom is chosen and no conjunct lies below it. -/
theorem writes_option {body : AtomSet} {upper atom : AtomId}
    (stored : goal.store.Stores body) (inStore : atom < goal.store.size) :
    Writes stage (optionLiteral body upper atom)
      fun option stage' => stage'.Means option
        (assignment.contains upper atom = true ∧
          ∀ b ∈ body, ¬ (value b).isBelow (value atom) = true) := by
  refine (writes_freshLiteral (assignment.contains upper atom = true ∧
    ∀ b ∈ body, ¬ (value b).isBelow (value atom) = true)).bind ?_
  intro option stage1 _ optionMeans
  refine (writes_subsumer upper atom).bind ?_
  intro chosen stage2 extension2 chosenMeans
  refine (writes_addClause (.pair (optionMeans.mono extension2).negate
    chosenMeans) ?_).bind ?_
  · change ¬ _ ∨ assignment.contains upper atom = true
    tauto
  intro _ stage3 extension3 _
  have later := optionMeans.mono (extension2.trans extension3)
  rw [← bind_assoc]
  exact (writes_excluded later stored inStore fun named => named.2).bind
    fun _ _ extension _ => .pure (later.mono extension)

/-- A witness of two literals can mean both. -/
theorem writes_both {first second : Literal} {p q : Prop}
    (firstMeans : stage.Means first p) (secondMeans : stage.Means second q) :
    Writes stage (bothLiteral first second)
      fun witness stage' => stage'.Means witness (p ∧ q) := by
  refine (writes_freshLiteral (p ∧ q)).bind ?_
  intro witness stage1 extension1 witnessMeans
  refine (writes_addClause (.pair witnessMeans.negate
    (firstMeans.mono extension1)) ?_).bind ?_
  · tauto
  intro _ stage2 extension2 _
  refine (writes_addClause (.pair (witnessMeans.mono extension2).negate
    (secondMeans.mono (extension1.trans extension2))) ?_).bind ?_
  · tauto
  intro _ stage3 extension3 _
  exact .pure (witnessMeans.mono (extension2.trans extension3))

/-- Literals with equivalent meanings can be made equivalent. -/
theorem writes_equivalent {first second : Literal} {p q : Prop}
    (firstMeans : stage.Means first p) (secondMeans : stage.Means second q)
    (same : p ↔ q) :
    Writes stage
      (do
        addClause [first.negate, second]
        addClause [first, second.negate]) fun _ _ => True := by
  refine (writes_addClause (.pair firstMeans.negate secondMeans) ?_).bind ?_
  · tauto
  intro _ stage1 extension _
  refine writes_addClause (.pair (firstMeans.mono extension)
    (secondMeans.mono extension).negate) ?_
  tauto

variable (wellFormed : goal.WellFormed)
  (evaluates : Evaluates goal.store assignment.subsumers value)
  (proper : assignment.Proper goal.store)

include evaluates proper

/-- A witness is true if the conjunction does not lie below its atom. -/
theorem writes_witness {body : AtomSet} {upper : AtomId}
    (stored : goal.store.Stores body) (inStore : upper < goal.store.size) :
    Writes stage (witnessLiteral goal body upper)
      fun witness stage' => stage'.Means witness
        (¬ (conjoin value body).isBelow (value upper) = true) := by
  have excluded : ∀ {atom},
      ¬ (conjoin value body).isBelow (value atom) = true →
        ∀ b ∈ body, ¬ (value b).isBelow (value atom) = true :=
    fun notBelow b inBody isBelow => notBelow
      (NormalConcept.isBelow_trans (conjoin_isBelow_of_mem inBody) isBelow)
  refine (writes_freshLiteral
    (¬ (conjoin value body).isBelow (value upper) = true)).bind ?_
  intro witness stage1 _ witnessMeans
  by_cases varying : goal.store.isVariable upper = true
  · rw [if_pos varying]
    refine (Writes.mapM_means _ fun atom inAtoms _ _ =>
      writes_option stored
        (Goal.mem_nonVariableAtoms.mp inAtoms).1).bind ?_
    intro options stage2 extension2 related
    have later := witnessMeans.mono extension2
    refine (writes_addClause (.cons later.negate (.of_forall₂ related))
      ?_).bind fun _ _ extension _ => .pure (later.mono extension)
    by_cases isBelow : (conjoin value body).isBelow (value upper) = true
    · exact .inl (not_not_intro isBelow)
    · rw [evaluates.isBelow_variable_iff varying] at isBelow
      push Not at isBelow
      obtain ⟨atom, member, notBelow⟩ := isBelow
      have chosen := Assignment.mem_subsumers.mp member
      exact .inr ⟨atom, (Assignment.proper_iff.mp proper upper atom chosen).2,
        chosen, excluded notBelow⟩
  · rw [if_neg varying, ← bind_assoc]
    exact (writes_excluded witnessMeans stored inStore excluded).bind
      fun _ _ extension _ => .pure (witnessMeans.mono extension)

theorem writes_notBelow {body head : AtomSet}
    (bodyStored : goal.store.Stores body)
    (headStored : goal.store.Stores head) :
    Writes stage (notBelow goal body head) fun differs stage' =>
      stage'.Means differs
        (¬ (conjoin value body).isBelow (conjoin value head) = true) := by
  rw [notBelow_eq]
  refine (writes_freshLiteral
    (¬ (conjoin value body).isBelow (conjoin value head) = true)).bind ?_
  intro differs stage1 _ differsMeans
  refine (Writes.mapM_means _ fun upper inHead _ _ =>
    writes_witness evaluates proper bodyStored
      (headStored upper (OrderedSet.mem_iff.mpr inHead))).bind ?_
  intro witnesses stage2 extension2 related
  have later := differsMeans.mono extension2
  refine (writes_addClause (.cons later.negate (.of_forall₂ related))
    ?_).bind fun _ _ extension _ => .pure (later.mono extension)
  by_cases isBelow : (conjoin value body).isBelow (conjoin value head) = true
  · exact .inl (not_not_intro isBelow)
  · rw [isBelow_conjoin_iff] at isBelow
    push Not at isBelow
    exact .inr isBelow

theorem writes_defineBelowVariable {lit : Literal} {a y : AtomId}
    (lower : a < goal.store.size) (varying : goal.store.isVariable y = true)
    (means : stage.Means lit ((value a).isBelow (value y) = true)) :
    Writes stage (defineBelowVariable goal lit a y) fun _ _ => True := by
  rw [defineBelowVariable_eq]
  refine (Writes.mapM_means (fun atom => assignment.contains y atom = true ∧
    ¬ (value a).isBelow (value atom) = true)
      fun atom inAtoms stage1 extension1 => ?_).bind ?_
  · obtain ⟨stored, nonVariable⟩ := Goal.mem_nonVariableAtoms.mp inAtoms
    refine (writes_subsumer y atom).bind ?_
    intro chosen stage2 extension2 chosenMeans
    refine (writes_subsumption lower stored).bind ?_
    intro below stage3 extension3 belowMeans
    refine (writes_addClause (.cons (means.mono (extension1.trans
      (extension2.trans extension3))).negate
        (.pair (chosenMeans.mono extension3).negate belowMeans)) ?_).bind ?_
    · change _ ∨ ¬ assignment.contains y atom = true ∨
        (value a).isBelow (value atom) = true
      by_cases inSolution : assignment.contains y atom = true
      · by_cases isBelow : (value a).isBelow (value y) = true
        · exact .inr (.inr (NormalConcept.isBelow_trans isBelow
            (evaluates.variable_isBelow_of_mem varying
              (Assignment.mem_subsumers.mpr inSolution))))
        · exact .inl isBelow
      · exact .inr (.inl inSolution)
    intro _ stage4 extension4 _
    exact writes_both (chosenMeans.mono (extension3.trans extension4))
      (belowMeans.mono extension4).negate
  · intro witnesses stage1 extension related
    refine writes_addClause
      (.cons (means.mono extension) (.of_forall₂ related)) ?_
    by_cases isBelow : (value a).isBelow (value y) = true
    · exact .inl isBelow
    · rw [evaluates.isBelow_variable_iff varying] at isBelow
      push Not at isBelow
      obtain ⟨atom, member, notBelow⟩ := isBelow
      have chosen := Assignment.mem_subsumers.mp member
      exact .inr ⟨atom, (Assignment.proper_iff.mp proper y atom chosen).2,
        chosen, notBelow⟩

theorem writes_defineVariableBelow {lit : Literal} {x b : AtomId}
    (upper : b < goal.store.size) (nonVariable : goal.store.isVariable b = false)
    (varying : goal.store.isVariable x = true)
    (means : stage.Means lit ((value x).isBelow (value b) = true)) :
    Writes stage (defineVariableBelow goal lit x b) fun _ _ => True := by
  rw [defineVariableBelow_eq]
  refine (Writes.mapM_means (fun atom => assignment.contains x atom = true ∧
    (value atom).isBelow (value b) = true)
      fun atom inAtoms stage1 extension1 => ?_).bind ?_
  · refine (writes_subsumer x atom).bind ?_
    intro chosen stage2 extension2 chosenMeans
    refine (writes_subsumption (Goal.mem_nonVariableAtoms.mp inAtoms).1
      upper).bind ?_
    intro below stage3 extension3 belowMeans
    refine (writes_addClause (.cons (chosenMeans.mono extension3).negate
      (.pair belowMeans.negate (means.mono (extension1.trans
        (extension2.trans extension3))))) ?_).bind ?_
    · change ¬ assignment.contains x atom = true ∨
        ¬ (value atom).isBelow (value b) = true ∨ _
      by_cases inSolution : assignment.contains x atom = true
      · by_cases isBelow : (value atom).isBelow (value b) = true
        · exact .inr (.inr (NormalConcept.isBelow_trans
            (evaluates.variable_isBelow_of_mem varying
              (Assignment.mem_subsumers.mpr inSolution)) isBelow))
        · exact .inr (.inl isBelow)
      · exact .inl inSolution
    intro _ stage4 extension4 _
    exact writes_both (chosenMeans.mono (extension3.trans extension4))
      (belowMeans.mono extension4)
  · intro witnesses stage1 extension related
    refine writes_addClause
      (.cons (means.mono extension).negate (.of_forall₂ related)) ?_
    by_cases isBelow : (value x).isBelow (value b) = true
    · obtain ⟨atom, member, isBelow'⟩ :=
        (evaluates.variable_isBelow_iff varying upper nonVariable).mp isBelow
      have chosen := Assignment.mem_subsumers.mp member
      exact .inr ⟨atom, (Assignment.proper_iff.mp proper x atom chosen).2,
        chosen, isBelow'⟩
    · exact .inl isBelow

include wellFormed

omit proper in
theorem writes_encodePositive {s : FlatSubsumption}
    (member : s ∈ goal.positiveSubsumptions) (holds : s.Holds value) :
    Writes stage (encodePositive goal s) fun _ _ => True := by
  obtain ⟨body, head⟩ := wellFormed.stores_positive member
  have conjunct : ∀ {atom}, atom < goal.store.size →
      goal.store.isVariable atom = false →
      (conjoin value s.body).isBelow (value atom) = true →
        ∃ b ∈ s.body.toList, (value b).isBelow (value atom) = true :=
    fun stored nonVariable isBelow => (conjoin_isBelow_iff_exists
      (evaluates.interprets.single stored nonVariable)).mp isBelow
  unfold encodePositive
  by_cases trivial_ : s.head ∈ s.body
  · rw [if_pos trivial_]
    exact .pure trivial
  rw [if_neg trivial_]
  by_cases varying : goal.store.isVariable s.head = true
  · rw [if_pos varying]
    refine .forM fun atom inAtoms stage' _ => ?_
    obtain ⟨stored, nonVariable⟩ := Goal.mem_nonVariableAtoms.mp inAtoms
    refine (writes_subsumer s.head atom).bind ?_
    intro chosen stage' _ chosenMeans
    refine (writes_conjunctsBelow body stored).bind ?_
    intro lits stage'' extension related
    refine writes_addClause (.cons (chosenMeans.mono extension).negate
      (.of_forall₂ related)) ?_
    by_cases inSolution : assignment.contains s.head atom = true
    · exact .inr (conjunct stored nonVariable (NormalConcept.isBelow_trans holds
        (evaluates.variable_isBelow_of_mem varying
          (Assignment.mem_subsumers.mpr inSolution))))
    · exact .inl inSolution
  · rw [if_neg varying]
    rw [Bool.not_eq_true] at varying
    refine (writes_conjunctsBelow body head).bind ?_
    intro lits stage' _ related
    exact writes_addClause (.of_forall₂ related) (conjunct head varying holds)

theorem writes_encodeNegative {constraint : NegativeConstraint}
    (member : constraint ∈ goal.negativeConstraints)
    (holds : constraint.Holds value) :
    Writes stage (encodeNegative goal constraint) fun _ _ => True := by
  rcases List.mem_append.mp member with inDisequations | inDissubsumptions
  · obtain ⟨disequation, inGoal, rfl⟩ := List.mem_map.mp inDisequations
    obtain ⟨left, right⟩ := wellFormed.disequations disequation inGoal
    refine (writes_notBelow evaluates proper left right).bind ?_
    intro forward stage1 _ forwardMeans
    refine (writes_notBelow evaluates proper right left).bind ?_
    intro backward stage2 extension backwardMeans
    refine writes_addClause
      (.pair (forwardMeans.mono extension) backwardMeans) ?_
    rw [NegativeConstraint.Holds, NormalConcept.isEquivalent,
      Bool.and_eq_true, not_and_or] at holds
    exact holds
  · obtain ⟨dissubsumption, inGoal, rfl⟩ := List.mem_map.mp inDissubsumptions
    obtain ⟨body, head⟩ := wellFormed.dissubsumptions dissubsumption inGoal
    refine (writes_notBelow evaluates proper body head).bind ?_
    intro differs stage1 _ differsMeans
    exact writes_addClause (.one differsMeans) holds

theorem writes_defineSubsumption {a b : AtomId}
    (lower : a < goal.store.size) (upper : b < goal.store.size) :
    Writes stage (defineSubsumption goal a b) fun _ _ => True := by
  unfold defineSubsumption
  refine (writes_subsumption lower upper).bind ?_
  intro lit stage1 _ means
  by_cases same : a = b
  · rw [if_pos (by simpa using same)]
    subst same
    exact writes_addClause (.one means) (NormalConcept.isBelow_refl _)
  rw [if_neg (by simpa using same)]
  by_cases varying : goal.store.isVariable b = true
  · rw [if_pos varying]
    exact writes_defineBelowVariable evaluates proper lower varying
      means
  rw [if_neg varying]
  rw [Bool.not_eq_true] at varying
  by_cases varying' : goal.store.isVariable a = true
  · rw [if_pos varying']
    exact writes_defineVariableBelow evaluates proper upper varying
      varying' means
  rw [if_neg varying']
  rw [Bool.not_eq_true] at varying'
  have related := evaluates.nonVariable_isBelow_iff_match lower upper varying'
    varying same
  have never : ¬ (value a).isBelow (value b) = true →
      Writes stage1 (addClause [lit.negate]) fun _ _ => True :=
    writes_addClause (.one means.negate)
  cases restrictsLower : goal.store.restriction? a with
  | none =>
      rw [restrictsLower] at related
      exact never related.mp
  | some pair =>
      cases restrictsUpper : goal.store.restriction? b with
      | none =>
          rw [restrictsLower, restrictsUpper] at related
          exact never related.mp
      | some pair' =>
          obtain ⟨role, filler⟩ := pair
          obtain ⟨role', filler'⟩ := pair'
          simp only [restrictsLower, restrictsUpper] at related
          have present := AtomStore.restriction?_eq_some_iff.mp restrictsLower
          have present' := AtomStore.restriction?_eq_some_iff.mp restrictsUpper
          obtain ⟨_, _, named⟩ := wellFormed.store a role filler present
          obtain ⟨_, _, named'⟩ := wellFormed.store b role' filler' present'
          by_cases sameRole : role = role'
          · have inner :
                Intended assignment value before (.subsumption a b) ↔
                  Intended assignment value before
                    (.subsumption filler filler') :=
              related.trans (and_iff_right sameRole)
            simp only [sameRole, beq_self_eq_true, if_true]
            refine (writes_subsumption (AtomStore.lt_size_of_atom? named)
              (AtomStore.lt_size_of_atom? named')).bind ?_
            intro below stage2 extension2 belowMeans
            exact writes_equivalent (means.mono extension2) belowMeans inner
          · simp only [sameRole, beq_iff_eq, if_false]
            exact never fun below => sameRole (related.mp below).1

theorem writes_defineQueued (steps : Nat) :
    Writes stage (defineQueued goal steps) fun _ _ => True := by
  induction steps generalizing stage with
  | zero => exact .pure trivial
  | succ steps induction =>
      cases queue : stage.encoder.queue with
      | nil =>
          refine ⟨stage, ?_, .refl stage, trivial⟩
          rw [run_defineQueued_nil goal steps queue]
      | cons pair rest =>
          obtain ⟨a, b⟩ := pair
          obtain ⟨⟨lower, upper⟩, others⟩ :=
            List.forall_mem_cons.mp (queue ▸ stage.queued)
          have defines : Writes { stage with
              encoder := { stage.encoder with queue := rest }
              queued := others } (do
                defineSubsumption goal a b
                defineQueued goal steps) fun _ _ => True :=
            (writes_defineSubsumption wellFormed evaluates proper lower
              upper).bind fun _ _ _ _ => induction
          obtain ⟨stage', same, ⟨count, agrees⟩, _⟩ := defines
          refine ⟨stage', ?_, ⟨count, agrees⟩, trivial⟩
          rw [run_defineQueued_cons goal steps queue]
          exact same

omit wellFormed evaluates proper in
theorem writes_encodeAcyclicity [IsStrictOrder AtomId before]
    (respects : ∀ x y, assignment.Depends goal.store x y → before x y) :
    Writes stage (encodeAcyclicity goal) fun _ _ => True := by
  unfold encodeAcyclicity
  refine (Writes.forM fun x _ stage1 _ => .forM fun atom _ stage2 _ =>
    ?_).bind ?_
  · cases restricts : goal.store.restriction? atom with
    | none => exact .pure trivial
    | some pair =>
        obtain ⟨role, y⟩ := pair
        by_cases filler : y ∈ fillerVariables goal
        · simp only [filler, if_true]
          refine (writes_subsumer x atom).bind ?_
          intro chosen stage3 _ chosenMeans
          refine (writes_order x y).bind ?_
          intro depends stage4 extension4 dependsMeans
          refine writes_addClause (.pair (chosenMeans.mono extension4).negate
            dependsMeans) ?_
          by_cases inSolution : assignment.contains x atom = true
          · exact .inr (respects x y ⟨atom, role, inSolution,
              AtomStore.restriction?_eq_some_iff.mp restricts,
              (mem_fillerVariables.mp filler).1⟩)
          · exact .inl inSolution
        · simp only [filler, if_false]
          exact .pure trivial
  · intro _ stage1 _ _
    refine .forM fun x _ stage2 _ => ?_
    refine (writes_order x x).bind ?_
    intro self stage3 _ selfMeans
    refine (writes_addClause (.one selfMeans.negate)
      (irrefl_of before x)).bind ?_
    intro _ stage4 _ _
    refine .forM fun y _ stage5 _ => .forM fun z _ stage6 _ => ?_
    refine (writes_order x y).bind ?_
    intro xy stage7 _ xyMeans
    refine (writes_order y z).bind ?_
    intro yz stage8 extension8 yzMeans
    refine (writes_order x z).bind ?_
    intro xz stage9 extension9 xzMeans
    refine writes_addClause (.cons
      (xyMeans.mono (extension8.trans extension9)).negate
      (.pair (yzMeans.mono extension9).negate xzMeans)) ?_
    by_cases first : before x y
    · by_cases second : before y z
      · exact .inr (.inr (trans_of before first second))
      · exact .inr (.inl second)
    · exact .inl first

omit wellFormed evaluates proper in
theorem writes_subsumerLiterals :
    Writes stage (subsumerLiterals goal) fun _ _ => True := by
  unfold subsumerLiterals
  refine (Writes.mapM (fun _ _ _ => True) (fun _ _ _ _ _ => id)
    fun x _ stage1 _ => ?_).bind fun _ _ _ _ => .pure trivial
  refine (Writes.mapM (fun _ _ _ => True) (fun _ _ _ _ _ => id)
    fun atom _ stage2 _ => ?_).imp fun _ _ _ => trivial
  exact (writes_subsumer x atom).bind fun _ _ _ _ => .pure trivial

/-- Under a local solution with its values every clause can be satisfied. -/
theorem writes_encode [IsStrictOrder AtomId before]
    (respects : ∀ x y, assignment.Depends goal.store x y → before x y)
    (positive : ∀ s ∈ goal.positiveSubsumptions, s.Holds value)
    (negative : ∀ constraint ∈ goal.negativeConstraints,
      constraint.Holds value) :
    Writes stage (encode goal) fun _ _ => True := by
  unfold encode
  refine writes_subsumerLiterals.bind fun literals _ _ _ => ?_
  refine (Writes.forM fun s member _ _ => writes_encodePositive wellFormed
    evaluates member (positive s member)).bind fun _ _ _ _ => ?_
  refine (Writes.forM fun constraint member _ _ =>
    writes_encodeNegative wellFormed evaluates proper member
      (negative constraint member)).bind fun _ _ _ _ => ?_
  refine (writes_defineQueued wellFormed evaluates proper _).bind
    fun _ _ _ _ => ?_
  exact (writes_encodeAcyclicity respects).bind fun _ _ _ _ => .pure trivial

end Writing

/-- The stage before anything is encoded. -/
def Stage.initial (size : Nat) (intended : LiteralMeaning → Prop) :
    Stage size intended where
  encoder := {}
  valuation := fun _ => false
  numbered := by simp
  bounded := by simp
  satisfied := by simp
  queued := by simp

/-- In the end every literal says what it is to say. -/
theorem Stage.truth_iff {goal : Goal} {intended : LiteralMeaning → Prop}
    {stage : Stage goal.store.size intended}
    (ends : stage.encoder = final goal) {meaning : LiteralMeaning}
    {lit : Literal} (stands : Stands (final goal) meaning lit) :
    Truth (final goal) stage.valuation meaning ↔ intended meaning := by
  obtain ⟨var, found, rfl⟩ := id stands
  rw [← stands.holds_iff, Valuation.holds_pos]
  exact (stage.numbered meaning var (by rw [ends]; exact found)).2

/-- Every local solution is what some satisfying valuation chooses, and between
fillers the order literals may follow any strict order that respects the
dependencies. -/
theorem exists_decode_eq_of_strictOrder {goal : Goal}
    (wellFormed : goal.WellFormed) {assignment : Assignment}
    (solution : assignment.LocalSolution goal)
    (before : AtomId → AtomId → Prop) [IsStrictOrder AtomId before]
    (respects : ∀ x y, assignment.Depends goal.store x y → before x y) :
    ∃ valuation : Valuation,
      valuation.satisfies (Encoding.ofGoal goal).formula = true ∧
        (Encoding.ofGoal goal).decode valuation = assignment ∧
        ∀ x ∈ fillerVariables goal, ∀ y ∈ fillerVariables goal,
          Truth (final goal) valuation (.order x y) ↔ before x y := by
  have proper : assignment.Proper goal.store := solution.proper
  obtain ⟨value, evaluates⟩ := Assignment.exists_evaluates
    (solution.acyclic.ranked wellFormed.store proper)
  obtain ⟨positive, negative⟩ := (Unifier.satisfies?_ofAssignment wellFormed
    solution.acyclic proper evaluates).mp solution.satisfies
  obtain ⟨stage, same, _, _⟩ : Writes
      (Stage.initial goal.store.size (Intended assignment value before))
      (encode goal) fun _ _ => True :=
    writes_encode wellFormed evaluates proper respects positive negative
  change stage.encoder = final goal at same
  have satisfies : stage.valuation.satisfies (final goal).formula = true := by
    rw [← same]
    exact Valuation.satisfies_iff.mpr stage.satisfied
  refine ⟨stage.valuation, satisfies, ?_, ?_⟩
  · apply Assignment.eq_of_contains_iff
    intro x atom
    have lists := listsSubsumers wellFormed
    have chosen_iff : x ∈ goal.allVariables → atom ∈ goal.nonVariableAtoms →
        (Chosen (final goal) stage.valuation x atom ↔
          assignment.contains x atom = true) := by
      intro inVariables inAtoms
      obtain ⟨s, member, rfl, rfl⟩ :=
        lists.complete x inVariables atom inAtoms
      obtain ⟨_, _, _, stands⟩ := lists.stands s member
      exact Stage.truth_iff same stands
    rw [contains_decode wellFormed]
    constructor
    · rintro ⟨⟨inVariables, inAtoms⟩, chosen⟩
      exact (chosen_iff inVariables inAtoms).mp chosen
    · intro chosen
      obtain ⟨inVariables, inAtoms⟩ := solution.choices x atom chosen
      exact ⟨⟨inVariables, inAtoms⟩,
        (chosen_iff inVariables inAtoms).mpr chosen⟩
  · intro x filler y filler'
    obtain ⟨_, stands⟩ := (satisfied_of_satisfies wellFormed
      satisfies).order.numbered x filler y filler'
    exact Stage.truth_iff same stands

/-- Heights that decrease along the dependencies give such an order. -/
theorem exists_decode_eq_of_ranked {goal : Goal} (wellFormed : goal.WellFormed)
    {assignment : Assignment} (solution : assignment.LocalSolution goal)
    {height : AtomId → Nat} (ranked : assignment.Ranked goal.store height) :
    ∃ valuation : Valuation,
      valuation.satisfies (Encoding.ofGoal goal).formula = true ∧
        (Encoding.ofGoal goal).decode valuation = assignment ∧
        ∀ x ∈ fillerVariables goal, ∀ y ∈ fillerVariables goal,
          Truth (final goal) valuation (.order x y) ↔ height y < height x := by
  have : IsStrictOrder AtomId fun x y => height y < height x :=
    { irrefl := fun _ => Nat.lt_irrefl _
      trans := fun _ _ _ first second => Nat.lt_trans second first }
  exact exists_decode_eq_of_strictOrder wellFormed solution _
    fun _ _ => ranked.lt_of_depends

/-- Every local solution is what some satisfying valuation chooses. -/
theorem exists_decode_eq {goal : Goal} (wellFormed : goal.WellFormed)
    {assignment : Assignment} (solution : assignment.LocalSolution goal) :
    ∃ valuation : Valuation,
      valuation.satisfies (Encoding.ofGoal goal).formula = true ∧
        (Encoding.ofGoal goal).decode valuation = assignment := by
  obtain ⟨valuation, satisfies, chooses, _⟩ :=
    exists_decode_eq_of_ranked wellFormed solution
      (solution.acyclic.ranked wellFormed.store solution.proper)
  exact ⟨valuation, satisfies, chooses⟩

end Encoder

namespace Encoding

/-- The satisfying valuations choose exactly the local solutions.  So the
formula can be satisfied if and only if there is a local solution. -/
theorem decodes_localSolutions {goal : Goal} (obtained : goal.Obtained) :
    (∀ valuation : Valuation,
      valuation.satisfies (ofGoal goal).formula = true →
        ((ofGoal goal).decode valuation).LocalSolution goal) ∧
    (∀ assignment : Assignment, assignment.LocalSolution goal →
      ∃ valuation : Valuation,
        valuation.satisfies (ofGoal goal).formula = true ∧
          (ofGoal goal).decode valuation = assignment) ∧
    ((∃ valuation : Valuation,
      valuation.satisfies (ofGoal goal).formula = true) ↔
        ∃ assignment : Assignment, assignment.LocalSolution goal) := by
  have wellFormed := obtained.wellFormed
  refine ⟨fun valuation => Encoder.localSolution_decode wellFormed,
    fun assignment => Encoder.exists_decode_eq wellFormed, ?_⟩
  constructor
  · rintro ⟨valuation, satisfies⟩
    exact ⟨_, Encoder.localSolution_decode wellFormed satisfies⟩
  · rintro ⟨assignment, solution⟩
    obtain ⟨valuation, satisfies, _⟩ :=
      Encoder.exists_decode_eq wellFormed solution
    exact ⟨valuation, satisfies⟩

theorem decodes_localSolutions_sampleCalls :
    ∃ goal, ((GoalBuilder.new Goal.sampleBackground {}).performAll
        Goal.sampleCalls).build = .ok goal ∧
      Goal.sampleSolution.LocalSolution goal ∧
      ∃ valuation : Valuation,
        valuation.satisfies (ofGoal goal).formula = true ∧
          (ofGoal goal).decode valuation = Goal.sampleSolution ∧
          ((ofGoal goal).decode valuation).LocalSolution goal := by
  obtain ⟨goal, built, _, _, solution, _⟩ := Goal.exists_build_sampleCalls
  obtain ⟨sound, complete, _⟩ := decodes_localSolutions (.built built)
  obtain ⟨valuation, satisfies, chooses⟩ := complete _ solution
  exact ⟨goal, built, solution, valuation, satisfies, chooses,
    sound valuation satisfies⟩

end Encoding

end ConceptUnification
