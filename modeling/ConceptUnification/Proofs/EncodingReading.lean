import ConceptUnification.Proofs.EncoderRun
import ConceptUnification.Proofs.UnifierValue

/-!
# What parts of the encoding say

Each part of the encoder is read as a statement about the truth of literals
under a valuation that satisfies the final formula.  These statements still
mention the literals of subsumptions, which refer to each other.
-/

namespace ConceptUnification

namespace Encoder

section Reading

variable {goal : Goal} {final : Encoder} {valuation : Valuation}

/-- The atom is chosen as a subsumer of the variable. -/
def Chosen (final : Encoder) (valuation : Valuation) (x atom : AtomId) :
    Prop :=
  Truth final valuation (.subsumer x atom)

/-- The first atom is said to lie below the second one. -/
def Below (final : Encoder) (valuation : Valuation) (a b : AtomId) : Prop :=
  Truth final valuation (.subsumption a b)

/-- The pair of atoms has a subsumption literal. -/
def Numbered (final : Encoder) (a b : AtomId) : Prop :=
  (final.numbering[LiteralMeaning.subsumption a b]?).isSome = true

theorem Below.numbered {a b : AtomId} (below : Below final valuation a b) :
    Numbered final a b := by
  obtain ⟨var, found, _⟩ := below
  rw [Numbered, found]
  rfl

theorem Stands.numbered {a b : AtomId} {lit : Literal}
    (stands : Stands final (.subsumption a b) lit) : Numbered final a b := by
  obtain ⟨var, found, _⟩ := stands
  rw [Numbered, found]
  rfl

theorem reads_conjunctsBelow {body : AtomSet} {atom : AtomId}
    (stored : goal.store.Stores body) (upper : atom < goal.store.size) :
    Reads goal.store.size final (conjunctsBelow body atom)
      (List.Forall₂ (fun b => Stands final (.subsumption b atom))
        body.toList) :=
  .mapM _ fun b member => reads_subsumption (stored b member) upper

theorem exists_below {body : List AtomId} {atom : AtomId}
    {lits : List Literal}
    (stand : List.Forall₂ (fun b => Stands final (.subsumption b atom)) body
      lits) :
    (∃ lit ∈ lits, valuation.holds lit = true) ↔
      ∃ b ∈ body, Below final valuation b atom := by
  induction stand with
  | nil => simp
  | cons first _ induction =>
      simp [induction, first.holds_iff, Below]

theorem forall_not_below {body : List AtomId} {atom : AtomId}
    {lits : List Literal}
    (stand : List.Forall₂ (fun b => Stands final (.subsumption b atom)) body
      lits) (fail : ∀ lit ∈ lits, ¬ valuation.holds lit = true) :
    ∀ b ∈ body, Numbered final b atom ∧ ¬ Below final valuation b atom := by
  induction stand with
  | nil => simp
  | cons first _ induction =>
      intro b member
      rcases List.mem_cons.mp member with rfl | later
      · refine ⟨first.numbered, fun below => ?_⟩
        exact fail _ List.mem_cons_self (first.holds_iff.mpr below)
      · exact induction (fun lit inTail =>
          fail lit (List.mem_cons_of_mem _ inTail)) b later

theorem exists_related {α β : Type} {related : α → β → Prop} {l : List α}
    {l' : List β} (pairs : List.Forall₂ related l l') {b : β}
    (member : b ∈ l') : ∃ a ∈ l, related a b := by
  induction pairs with
  | nil => cases member
  | cons first _ induction =>
      rcases List.mem_cons.mp member with rfl | later
      · exact ⟨_, List.mem_cons_self, first⟩
      · obtain ⟨a, inTail, holds⟩ := induction later
        exact ⟨a, List.mem_cons_of_mem _ inTail, holds⟩

theorem related_left {α β : Type} {related : α → β → Prop} {l : List α}
    {l' : List β} (pairs : List.Forall₂ related l l') {a : α}
    (member : a ∈ l) : ∃ b ∈ l', related a b :=
  exists_related pairs.flip member

/-- A positive subsumption, read off the formula. -/
def PositiveHolds (goal : Goal) (final : Encoder) (valuation : Valuation)
    (s : FlatSubsumption) : Prop :=
  s.head ∈ s.body ∨
    (goal.store.isVariable s.head = true ∧
      ∀ atom ∈ goal.nonVariableAtoms, Chosen final valuation s.head atom →
        ∃ b ∈ s.body, Below final valuation b atom) ∨
    goal.store.isVariable s.head = false ∧
      ∃ b ∈ s.body, Below final valuation b s.head

/-- That a conjunction does not lie below another one, read off the
formula. -/
def NotBelow (goal : Goal) (final : Encoder) (valuation : Valuation)
    (body head : AtomSet) : Prop :=
  ∃ upper ∈ head,
    (goal.store.isVariable upper = true ∧
      ∃ atom ∈ goal.nonVariableAtoms, Chosen final valuation upper atom ∧
        ∀ b ∈ body, Numbered final b atom ∧
          ¬ Below final valuation b atom) ∨
    goal.store.isVariable upper = false ∧
      ∀ b ∈ body, Numbered final b upper ∧ ¬ Below final valuation b upper

/-- A negative constraint, read off the formula. -/
def NegativeHolds (goal : Goal) (final : Encoder) (valuation : Valuation) :
    NegativeConstraint → Prop
  | .dissubsumption constraint =>
      NotBelow goal final valuation constraint.body constraint.head
  | .disequation constraint =>
      NotBelow goal final valuation constraint.left constraint.right ∨
        NotBelow goal final valuation constraint.right constraint.left

/-- The definition of the literal of a pair, read off the formula. -/
def Defined (goal : Goal) (final : Encoder) (valuation : Valuation)
    (a b : AtomId) : Prop :=
  if a = b then Below final valuation a b
  else if goal.store.isVariable b = true then
    (Below final valuation a b ↔ ∀ atom ∈ goal.nonVariableAtoms,
      Chosen final valuation b atom → Below final valuation a atom) ∧
      ∀ atom ∈ goal.nonVariableAtoms, Numbered final a atom
  else if goal.store.isVariable a = true then
    (Below final valuation a b ↔ ∃ atom ∈ goal.nonVariableAtoms,
      Chosen final valuation a atom ∧ Below final valuation atom b) ∧
      ∀ atom ∈ goal.nonVariableAtoms, Numbered final atom b
  else
    match goal.store.restriction? a, goal.store.restriction? b with
    | some (role, lower), some (role', upper) =>
        if role = role' then
          (Below final valuation a b ↔ Below final valuation lower upper) ∧
            Numbered final lower upper
        else ¬ Below final valuation a b
    | _, _ => ¬ Below final valuation a b

/-- The order between fillers, read off the formula. -/
structure OrderHolds (goal : Goal) (final : Encoder) (valuation : Valuation) :
    Prop where
  numbered : ∀ x ∈ fillerVariables goal, ∀ y ∈ fillerVariables goal,
    ∃ lit, Stands final (.order x y) lit
  depends : ∀ x ∈ fillerVariables goal, ∀ atom ∈ goal.nonVariableAtoms,
    ∀ role y, goal.store.restriction? atom = some (role, y) →
      y ∈ fillerVariables goal → Chosen final valuation x atom →
        Truth final valuation (.order x y)
  irreflexive : ∀ x ∈ fillerVariables goal,
    ¬ Truth final valuation (.order x x)
  transitive : ∀ x ∈ fillerVariables goal, ∀ y ∈ fillerVariables goal,
    ∀ z ∈ fillerVariables goal, Truth final valuation (.order x y) →
      Truth final valuation (.order y z) → Truth final valuation (.order x z)

variable (satisfied : valuation.satisfies final.formula = true)

include satisfied

theorem reads_encodePositive {s : FlatSubsumption}
    (body : goal.store.Stores s.body) (head : s.head < goal.store.size) :
    Reads goal.store.size final (encodePositive goal s) fun _ =>
      PositiveHolds goal final valuation s := by
  unfold encodePositive
  by_cases trivial_ : s.head ∈ s.body
  · rw [if_pos trivial_]
    exact .pure (.inl trivial_)
  · rw [if_neg trivial_]
    by_cases varying : goal.store.isVariable s.head = true
    · rw [if_pos varying]
      have rows : Reads goal.store.size final
          (goal.nonVariableAtoms.forM fun atom => do
            let chosen ← subsumer s.head atom
            addClause (chosen.negate :: (← conjunctsBelow s.body atom)))
          fun _ => ∀ atom ∈ goal.nonVariableAtoms,
            Chosen final valuation s.head atom →
              ∃ b ∈ s.body, Below final valuation b atom := by
        refine .forM _ fun atom member => ?_
        have stored := (Goal.mem_nonVariableAtoms.mp member).1
        refine (reads_subsumer s.head atom).bind fun chosen => ?_
        refine (reads_conjunctsBelow body stored).bind fun lits => ?_
        refine (reads_addClause satisfied _).imp ?_
        intro _ clause stand chosenStands inSolution
        exact (exists_below stand).mp (Valuation.exists_holds_of_negate clause
          (chosenStands.holds_iff.mpr inSolution))
      exact rows.imp fun _ rows => .inr (.inl ⟨varying, rows⟩)
    · rw [if_neg varying]
      refine (reads_conjunctsBelow body head).bind fun lits => ?_
      refine (reads_addClause satisfied _).imp ?_
      intro _ clause stand
      rw [Valuation.holdsClause_iff] at clause
      exact .inr (.inr ⟨by simpa using varying, (exists_below stand).mp clause⟩)

/-- An option of a witness names a subsumer that no conjunct lies below. -/
theorem reads_option {body : AtomSet} {upper atom : AtomId}
    (stored : goal.store.Stores body) (inStore : atom < goal.store.size) :
    Reads goal.store.size final (optionLiteral body upper atom)
      fun option => valuation.holds option = true →
        Chosen final valuation upper atom ∧ ∀ b ∈ body,
          Numbered final b atom ∧ ¬ Below final valuation b atom := by
  refine reads_freshLiteral.bind fun option => ?_
  refine (reads_subsumer upper atom).bind fun chosen => ?_
  refine (reads_addClause satisfied _).bind fun _ => ?_
  refine (reads_conjunctsBelow stored inStore).bind fun lits => ?_
  refine (Reads.forM _ fun below _ => reads_addClause satisfied _).bind
    fun _ => ?_
  refine .pure fun excluded stand implied chosenStands _ holds => ?_
  have optional : ∀ {lit : Literal},
      valuation.holdsClause [option.negate, lit] = true →
        valuation.holds lit = true := by
    intro lit clause
    simpa [holds] using clause
  refine ⟨chosenStands.holds_iff.mp (optional implied), ?_⟩
  refine forall_not_below stand fun lit member => ?_
  exact Valuation.holds_negate.mp (optional (excluded lit member))

/-- A witness names an upper atom that no conjunct lies below, or whose value
has such an atom. -/
theorem reads_witness {body : AtomSet} {upper : AtomId}
    (stored : goal.store.Stores body) (inStore : upper < goal.store.size) :
    Reads goal.store.size final (witnessLiteral goal body upper)
      fun witness => valuation.holds witness = true →
        (goal.store.isVariable upper = true ∧
          ∃ atom ∈ goal.nonVariableAtoms,
            Chosen final valuation upper atom ∧ ∀ b ∈ body,
              Numbered final b atom ∧ ¬ Below final valuation b atom) ∨
        goal.store.isVariable upper = false ∧ ∀ b ∈ body,
          Numbered final b upper ∧ ¬ Below final valuation b upper := by
  refine reads_freshLiteral.bind fun witness => ?_
  by_cases varying : goal.store.isVariable upper = true
  · rw [if_pos varying]
    refine (Reads.mapM _ fun atom member => reads_option satisfied stored
      (Goal.mem_nonVariableAtoms.mp member).1).bind fun options => ?_
    refine (reads_addClause satisfied _).bind fun _ => ?_
    refine .pure fun clause related _ holds => ?_
    obtain ⟨lit, inOptions, litHolds⟩ :=
      Valuation.exists_holds_of_negate clause holds
    obtain ⟨atom, inAtoms, names⟩ := exists_related related inOptions
    exact .inl ⟨varying, atom, inAtoms, names litHolds⟩
  · rw [if_neg varying]
    refine (reads_conjunctsBelow stored inStore).bind fun lits => ?_
    refine (Reads.forM _ fun below _ => reads_addClause satisfied _).bind
      fun _ => ?_
    refine .pure fun excluded stand _ holds => ?_
    refine .inr ⟨by simpa using varying, ?_⟩
    refine forall_not_below stand fun lit member => ?_
    have clause := excluded lit member
    simpa [holds] using clause

theorem reads_notBelow {body head : AtomSet}
    (bodyStored : goal.store.Stores body)
    (headStored : goal.store.Stores head) :
    Reads goal.store.size final (notBelow goal body head) fun differs =>
      valuation.holds differs = true →
        NotBelow goal final valuation body head := by
  rw [notBelow_eq]
  refine reads_freshLiteral.bind fun differs => ?_
  refine (Reads.mapM _ fun upper member => reads_witness satisfied bodyStored
    (headStored upper member)).bind fun witnesses => ?_
  refine (reads_addClause satisfied _).bind fun _ => ?_
  refine .pure fun clause related _ holds => ?_
  obtain ⟨lit, inWitnesses, litHolds⟩ :=
    Valuation.exists_holds_of_negate clause holds
  obtain ⟨upper, inHead, names⟩ := exists_related related inWitnesses
  exact ⟨upper, inHead, names litHolds⟩

theorem reads_encodeNegative (wellFormed : goal.WellFormed)
    {constraint : NegativeConstraint}
    (member : constraint ∈ goal.negativeConstraints) :
    Reads goal.store.size final (encodeNegative goal constraint) fun _ =>
      NegativeHolds goal final valuation constraint := by
  rcases List.mem_append.mp member with inDisequations | inDissubsumptions
  · obtain ⟨disequation, inGoal, rfl⟩ := List.mem_map.mp inDisequations
    obtain ⟨left, right⟩ := wellFormed.disequations disequation inGoal
    refine (reads_notBelow satisfied left right).bind fun forward => ?_
    refine (reads_notBelow satisfied right left).bind fun backward => ?_
    refine (reads_addClause satisfied _).imp ?_
    intro _ clause backwardReads forwardReads
    rw [Valuation.holdsClause_iff] at clause
    simp only [List.mem_cons, List.not_mem_nil, or_false,
      exists_eq_or_imp, exists_eq_left] at clause
    rcases clause with holds | holds
    · exact .inl (forwardReads holds)
    · exact .inr (backwardReads holds)
  · obtain ⟨dissubsumption, inGoal, rfl⟩ := List.mem_map.mp inDissubsumptions
    obtain ⟨body, head⟩ := wellFormed.dissubsumptions dissubsumption inGoal
    refine (reads_notBelow satisfied body head).bind fun differs => ?_
    refine (reads_addClause satisfied _).imp ?_
    intro _ clause reads
    exact reads (by simpa using clause)

/-- A witness of two literals implies both. -/
theorem reads_both {first second : Literal} :
    Reads goal.store.size final (bothLiteral first second)
      fun witness => valuation.holds witness = true →
        valuation.holds first = true ∧ valuation.holds second = true := by
  refine reads_freshLiteral.bind fun witness => ?_
  refine (reads_addClause satisfied _).bind fun _ => ?_
  refine (reads_addClause satisfied _).bind fun _ => ?_
  refine .pure fun clause' clause _ holds => ⟨?_, ?_⟩
  · simpa using Valuation.exists_holds_of_negate clause holds
  · simpa using Valuation.exists_holds_of_negate clause' holds

theorem reads_defineBelowVariable {lit : Literal} {a y : AtomId}
    (lower : a < goal.store.size) :
    Reads goal.store.size final (defineBelowVariable goal lit a y) fun _ =>
      (valuation.holds lit = true ↔ ∀ atom ∈ goal.nonVariableAtoms,
        Chosen final valuation y atom → Below final valuation a atom) ∧
        ∀ atom ∈ goal.nonVariableAtoms, Numbered final a atom := by
  rw [defineBelowVariable_eq]
  refine Reads.bind (Reads.mapM (fun atom witness =>
      (valuation.holds lit = true → Chosen final valuation y atom →
        Below final valuation a atom) ∧
      (valuation.holds witness = true → Chosen final valuation y atom ∧
        ¬ Below final valuation a atom) ∧ Numbered final a atom)
    fun atom member => ?_) fun witnesses => ?_
  · refine (reads_subsumer y atom).bind fun chosen => ?_
    refine (reads_subsumption lower
      (Goal.mem_nonVariableAtoms.mp member).1).bind fun below => ?_
    refine (reads_addClause satisfied _).bind fun _ => ?_
    refine (reads_both satisfied).imp ?_
    intro _ both forward belowStands chosenStands
    refine ⟨fun holds inSolution => ?_, fun holds => ?_, belowStands.numbered⟩
    · have chosenHolds : valuation.holds chosen = true :=
        chosenStands.holds_iff.mpr inSolution
      exact belowStands.holds_iff.mp
        (by simpa [holds, chosenHolds] using forward)
    · obtain ⟨chosenHolds, excluded⟩ := both holds
      refine ⟨chosenStands.holds_iff.mp chosenHolds, fun isBelow => ?_⟩
      exact Valuation.holds_negate.mp excluded
        (belowStands.holds_iff.mpr isBelow)
  · refine (reads_addClause satisfied _).imp fun _ clause related => ?_
    have each : ∀ atom ∈ goal.nonVariableAtoms, _ :=
      fun atom => related_left related (a := atom)
    refine ⟨⟨?_, ?_⟩, fun atom member => ?_⟩
    · intro holds atom member
      obtain ⟨_, _, forward, _⟩ := each atom member
      exact forward holds
    · intro all
      obtain ⟨lit', inClause, holds⟩ := Valuation.holdsClause_iff.mp clause
      rcases List.mem_cons.mp inClause with rfl | inWitnesses
      · exact holds
      · obtain ⟨atom, inAtoms, _, backward, _⟩ :=
          exists_related related inWitnesses
        obtain ⟨inSolution, notBelow⟩ := backward holds
        exact (notBelow (all atom inAtoms inSolution)).elim
    · obtain ⟨_, _, _, _, numbered⟩ := each atom member
      exact numbered

theorem reads_defineVariableBelow {lit : Literal} {x b : AtomId}
    (upper : b < goal.store.size) :
    Reads goal.store.size final (defineVariableBelow goal lit x b) fun _ =>
      (valuation.holds lit = true ↔ ∃ atom ∈ goal.nonVariableAtoms,
        Chosen final valuation x atom ∧ Below final valuation atom b) ∧
        ∀ atom ∈ goal.nonVariableAtoms, Numbered final atom b := by
  rw [defineVariableBelow_eq]
  refine Reads.bind (Reads.mapM (fun atom witness =>
      (Chosen final valuation x atom → Below final valuation atom b →
        valuation.holds lit = true) ∧
      (valuation.holds witness = true → Chosen final valuation x atom ∧
        Below final valuation atom b) ∧ Numbered final atom b)
    fun atom member => ?_) fun witnesses => ?_
  · refine (reads_subsumer x atom).bind fun chosen => ?_
    refine (reads_subsumption (Goal.mem_nonVariableAtoms.mp member).1
      upper).bind fun below => ?_
    refine (reads_addClause satisfied _).bind fun _ => ?_
    refine (reads_both satisfied).imp ?_
    intro _ both backward belowStands chosenStands
    refine ⟨fun inSolution isBelow => ?_, fun holds => ?_,
      belowStands.numbered⟩
    · have chosenHolds : valuation.holds chosen = true :=
        chosenStands.holds_iff.mpr inSolution
      have belowHolds : valuation.holds below = true :=
        belowStands.holds_iff.mpr isBelow
      simpa [chosenHolds, belowHolds] using backward
    · obtain ⟨chosenHolds, belowHolds⟩ := both holds
      exact ⟨chosenStands.holds_iff.mp chosenHolds,
        belowStands.holds_iff.mp belowHolds⟩
  · refine (reads_addClause satisfied _).imp fun _ clause related => ?_
    have each : ∀ atom ∈ goal.nonVariableAtoms, _ :=
      fun atom => related_left related (a := atom)
    refine ⟨⟨?_, ?_⟩, fun atom member => ?_⟩
    · intro holds
      obtain ⟨lit', inWitnesses, holds'⟩ :=
        Valuation.exists_holds_of_negate clause holds
      obtain ⟨atom, inAtoms, _, forward, _⟩ :=
        exists_related related inWitnesses
      exact ⟨atom, inAtoms, forward holds'⟩
    · rintro ⟨atom, member, inSolution, isBelow⟩
      obtain ⟨_, _, backward, _⟩ := each atom member
      exact backward inSolution isBelow
    · obtain ⟨_, _, _, _, numbered⟩ := each atom member
      exact numbered

/-- Two clauses make a literal equivalent to another one. -/
theorem reads_equivalent {first second : Literal} :
    Reads goal.store.size final
      (do
        addClause [first.negate, second]
        addClause [first, second.negate])
      fun _ => valuation.holds first = true ↔ valuation.holds second = true := by
  refine (reads_addClause satisfied _).bind fun _ => ?_
  refine (reads_addClause satisfied _).imp fun _ backward forward => ?_
  constructor
  · intro holds
    simpa using Valuation.exists_holds_of_negate forward holds
  · intro holds
    simpa [holds] using backward

/-- The clauses for a pair define its literal. -/
theorem reads_defineSubsumption (wellFormed : goal.WellFormed) {a b : AtomId}
    (lower : a < goal.store.size) (upper : b < goal.store.size) :
    Reads goal.store.size final (defineSubsumption goal a b) fun _ =>
      Defined goal final valuation a b := by
  unfold defineSubsumption
  refine (reads_subsumption lower upper).bind fun lit => ?_
  by_cases same : a = b
  · rw [if_pos (by simpa using same)]
    refine (reads_addClause satisfied _).imp fun _ clause stands => ?_
    rw [Defined, if_pos same]
    exact stands.holds_iff.mp (by simpa using clause)
  · rw [if_neg (by simpa using same)]
    by_cases varying : goal.store.isVariable b = true
    · rw [if_pos varying]
      refine (reads_defineBelowVariable satisfied lower).imp
        fun _ defined stands => ?_
      rw [Defined, if_neg same, if_pos varying]
      rw [stands.holds_iff] at defined
      exact defined
    · rw [if_neg varying]
      by_cases varying' : goal.store.isVariable a = true
      · rw [if_pos varying']
        refine (reads_defineVariableBelow satisfied upper).imp
          fun _ defined stands => ?_
        rw [Defined, if_neg same, if_neg varying, if_pos varying']
        rw [stands.holds_iff] at defined
        exact defined
      · rw [if_neg varying']
        have never : Reads goal.store.size final (addClause [lit.negate])
            fun _ => Stands final (.subsumption a b) lit →
              ¬ Below final valuation a b := by
          refine (reads_addClause satisfied _).imp fun _ clause stands => ?_
          rw [Below, ← stands.holds_iff]
          simpa using clause
        unfold Defined
        simp only [same, varying, varying', if_false]
        cases restrictsLower : goal.store.restriction? a with
        | none => exact never
        | some pair =>
            cases restrictsUpper : goal.store.restriction? b with
            | none => exact never
            | some pair' =>
                obtain ⟨role, filler⟩ := pair
                obtain ⟨role', filler'⟩ := pair'
                have present :=
                  AtomStore.restriction?_eq_some_iff.mp restrictsLower
                have present' :=
                  AtomStore.restriction?_eq_some_iff.mp restrictsUpper
                obtain ⟨_, _, named⟩ := wellFormed.store a role filler present
                obtain ⟨_, _, named'⟩ :=
                  wellFormed.store b role' filler' present'
                by_cases sameRole : role = role'
                · simp only [sameRole, beq_self_eq_true, if_true]
                  refine (reads_subsumption
                    (AtomStore.lt_size_of_atom? named)
                    (AtomStore.lt_size_of_atom? named')).bind
                      fun inner => ?_
                  refine (reads_equivalent satisfied).imp ?_
                  intro _ equivalent innerStands stands
                  rw [stands.holds_iff, innerStands.holds_iff] at equivalent
                  exact ⟨equivalent, innerStands.numbered⟩
                · simp only [sameRole, beq_iff_eq, if_false]
                  exact never

theorem reads_encodeAcyclicity :
    Reads goal.store.size final (encodeAcyclicity goal) fun _ =>
      OrderHolds goal final valuation := by
  unfold encodeAcyclicity
  refine Reads.bind (Reads.forM (fun x =>
    ∀ atom ∈ goal.nonVariableAtoms, ∀ role y,
      goal.store.restriction? atom = some (role, y) →
        y ∈ fillerVariables goal → Chosen final valuation x atom →
          Truth final valuation (.order x y)) fun x _ => ?_) fun _ => ?_
  · refine .forM _ fun atom _ => ?_
    cases restricts : goal.store.restriction? atom with
    | none => exact .pure (by simp)
    | some pair =>
        obtain ⟨role, y⟩ := pair
        by_cases inFillers : y ∈ fillerVariables goal
        · simp only [inFillers, if_true]
          refine (reads_subsumer x atom).bind fun chosen => ?_
          refine (reads_order x y).bind fun depends => ?_
          refine (reads_addClause satisfied _).imp ?_
          intro _ clause dependsStands chosenStands _ _ same _ inSolution
          cases same
          have chosenHolds : valuation.holds chosen = true :=
            chosenStands.holds_iff.mpr inSolution
          exact dependsStands.holds_iff.mp
            (by simpa [chosenHolds] using clause)
        · simp only [inFillers, if_false]
          refine .pure ?_
          intro _ _ same inFillers'
          cases same
          exact (inFillers inFillers').elim
  · refine (Reads.forM (fun x =>
      ¬ Truth final valuation (.order x x) ∧
        ∀ y ∈ fillerVariables goal, ∀ z ∈ fillerVariables goal,
          (∃ lit, Stands final (.order x z) lit) ∧
            (Truth final valuation (.order x y) →
              Truth final valuation (.order y z) →
                Truth final valuation (.order x z))) fun x _ => ?_).imp
        fun _ ordered depends =>
          { numbered := fun x member y member' =>
              ((ordered x member).2 x member y member').1
            depends
            irreflexive := fun x member => (ordered x member).1
            transitive := fun x member y member' z member'' =>
              ((ordered x member).2 y member' z member'').2 }
    refine (reads_order x x).bind fun self => ?_
    refine (reads_addClause satisfied _).bind fun _ => ?_
    refine (Reads.forM _ fun y _ => Reads.forM (fun z =>
      (∃ lit, Stands final (.order x z) lit) ∧
        (Truth final valuation (.order x y) →
          Truth final valuation (.order y z) →
            Truth final valuation (.order x z))) fun z _ => ?_).imp
        fun _ transitive clause selfStands => ⟨?_, transitive⟩
    · refine (reads_order x y).bind fun xy => ?_
      refine (reads_order y z).bind fun yz => ?_
      refine (reads_order x z).bind fun xz => ?_
      refine (reads_addClause satisfied _).imp ?_
      intro _ clause xzStands yzStands xyStands
      refine ⟨⟨xz, xzStands⟩, fun first second => ?_⟩
      have firstHolds : valuation.holds xy = true :=
        xyStands.holds_iff.mpr first
      have secondHolds : valuation.holds yz = true :=
        yzStands.holds_iff.mpr second
      exact xzStands.holds_iff.mp
        (by simpa [firstHolds, secondHolds] using clause)
    · rw [← selfStands.holds_iff]
      simpa using clause

omit satisfied in
theorem reads_subsumerLiterals :
    Reads goal.store.size final (subsumerLiterals goal) fun literals =>
      (∀ s ∈ literals, s.name ∈ goal.allVariables ∧
        s.atom ∈ goal.nonVariableAtoms ∧
        s.user = goal.store.hasKind .userVariable s.name ∧
        Stands final (.subsumer s.name s.atom) s.literal) ∧
      ∀ x ∈ goal.allVariables, ∀ atom ∈ goal.nonVariableAtoms,
        ∃ s ∈ literals, s.name = x ∧ s.atom = atom := by
  unfold subsumerLiterals
  refine Reads.bind (Reads.mapM (fun x row => List.Forall₂
    (fun atom (s : SubsumerLiteral) => s.name = x ∧ s.atom = atom ∧
      s.user = goal.store.hasKind .userVariable x ∧
      Stands final (.subsumer x atom) s.literal)
    goal.nonVariableAtoms row) fun x _ => ?_) fun rows => ?_
  · refine .mapM _ fun atom _ => ?_
    exact (reads_subsumer x atom).bind fun literal =>
      .pure fun stands => ⟨rfl, rfl, rfl, stands⟩
  · refine .pure fun related => ⟨?_, ?_⟩
    · intro s member
      obtain ⟨row, inRows, inRow⟩ := List.mem_flatten.mp member
      obtain ⟨x, inVariables, rowRelated⟩ := exists_related related inRows
      obtain ⟨atom, inAtoms, rfl, rfl, user, stands⟩ :=
        exists_related rowRelated inRow
      exact ⟨inVariables, inAtoms, user, stands⟩
    · intro x inVariables atom inAtoms
      obtain ⟨row, inRows, rowRelated⟩ := related_left related inVariables
      obtain ⟨s, inRow, name, same, _⟩ := related_left rowRelated inAtoms
      exact ⟨s, List.mem_flatten.mpr ⟨row, inRows, inRow⟩, name, same⟩

end Reading

end Encoder

end ConceptUnification
