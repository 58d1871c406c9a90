import ConceptUnification.Proofs.EncoderRun

/-!
# Requests for literals

The encoder asks for two kinds of literals: those of a meaning, which are the
same whenever they are asked for, and witnesses, which are always new.
`Asks` lists the requests that a step makes.  Two of them are answered by the
same variable exactly if they ask for the same meaning, and all variables of
the formula are answers to requests.
-/

namespace ConceptUnification

namespace Formula

/-- The literal is over a variable of the formula. -/
def Covers (formula : Formula) (lit : Literal) : Prop :=
  1 ≤ lit.var ∧ lit.var ≤ formula.variableCount

theorem Covers.mono {formula later : Formula} {lit : Literal}
    (covers : formula.Covers lit)
    (count : formula.variableCount ≤ later.variableCount) : later.Covers lit :=
  ⟨covers.1, Nat.le_trans covers.2 count⟩

theorem Covers.negate {formula : Formula} {lit : Literal}
    (covers : formula.Covers lit) : formula.Covers lit.negate :=
  covers

end Formula

namespace Encoder

/-- A request for a literal with its answer. -/
structure Request where
  /-- What the literal is to stand for, unless it is a witness. -/
  meaning : Option LiteralMeaning
  /-- The answer. -/
  literal : Literal

/-- The requests share a variable exactly if they ask for the same meaning. -/
def Request.Apart (request other : Request) : Prop :=
  request.literal.var = other.literal.var ↔
    ∃ meaning, request.meaning = some meaning ∧ other.meaning = some meaning

/-- The requests that a step makes in a state, in their order. -/
inductive Asks :
    {α : Type} → EncodeM α → Encoder → List Request → Prop where
  | nothing {α : Type} {step : EncodeM α} {encoder : Encoder}
      (numbering : (step.run encoder).2.numbering = encoder.numbering)
      (count : (step.run encoder).2.formula.variableCount =
        encoder.formula.variableCount) : Asks step encoder []
  | witness {encoder : Encoder} :
      Asks freshLiteral encoder [⟨none, (freshLiteral.run encoder).1⟩]
  | meaning {encoder : Encoder} {meaning : LiteralMeaning} :
      Asks (literal meaning) encoder
        [⟨some meaning, ((literal meaning).run encoder).1.1⟩]
  | bind {α β : Type} {step : EncodeM α} {next : α → EncodeM β}
      {encoder : Encoder} {early late : List Request}
      (first : Asks step encoder early)
      (second : Asks (next (step.run encoder).1) (step.run encoder).2 late) :
      Asks (step >>= next) encoder (early ++ late)

/-- Numbers of meanings are variables of the formula, and no two meanings share
one. -/
structure Numbers (encoder : Encoder) : Prop where
  covered : ∀ (meaning : LiteralMeaning) (var : Nat),
    encoder.numbering[meaning]? = some var → encoder.formula.Covers (.pos var)
  injective : ∀ (meaning other : LiteralMeaning) (var : Nat),
    encoder.numbering[meaning]? = some var →
      encoder.numbering[other]? = some var → meaning = other

/-- How requests lead from one state to another one. -/
structure Answers (before : Encoder) (requests : List Request)
    (after : Encoder) : Prop where
  numbers : after.Numbers
  count : before.formula.variableCount ≤ after.formula.variableCount
  kept : ∀ (meaning : LiteralMeaning) (var : Nat),
    before.numbering[meaning]? = some var →
      after.numbering[meaning]? = some var
  fresh : ∀ (meaning : LiteralMeaning) (var : Nat),
    after.numbering[meaning]? = some var →
      before.numbering[meaning]? = some var ∨
        before.formula.variableCount < var
  stands : ∀ request ∈ requests, ∀ meaning, request.meaning = some meaning →
    Stands after meaning request.literal
  witness : ∀ request ∈ requests, request.meaning = none →
    before.formula.variableCount < request.literal.var ∧
      after.formula.Covers request.literal ∧
        ∀ meaning : LiteralMeaning,
          after.numbering[meaning]? ≠ some request.literal.var
  apart : requests.Pairwise Request.Apart
  complete : ∀ var, before.formula.variableCount < var →
    var ≤ after.formula.variableCount →
      ∃ request ∈ requests, request.literal = .pos var

section Answers

variable {before between after : Encoder} {early late : List Request}

theorem Answers.nothing (numbers : before.Numbers)
    (numbering : after.numbering = before.numbering)
    (count : after.formula.variableCount = before.formula.variableCount) :
    Answers before [] after where
  numbers := by
    constructor
    · intro meaning var found
      rw [numbering] at found
      exact (numbers.covered meaning var found).mono (Nat.le_of_eq count.symm)
    · rw [numbering]
      exact numbers.injective
  count := Nat.le_of_eq count.symm
  kept := by
    rw [numbering]
    exact fun _ _ => id
  fresh := by
    rw [numbering]
    exact fun _ _ => .inl
  stands := by simp
  witness := by simp
  apart := .nil
  complete := by
    intro var lower upper
    omega

/-- A witness gets a new variable, which is not numbered. -/
theorem Answers.new_witness (numbers : before.Numbers) :
    Answers before [⟨none, (freshLiteral.run before).1⟩]
      (freshLiteral.run before).2 where
  numbers := ⟨fun meaning var found => (numbers.covered meaning var found).mono
    (Nat.le_succ _), numbers.injective⟩
  count := Nat.le_succ _
  kept := fun _ _ => id
  fresh := fun _ _ => .inl
  stands := by simp
  witness := by
    intro request member _
    rw [List.mem_singleton] at member
    subst member
    refine ⟨Nat.lt_succ_self _, ⟨Nat.succ_le_succ (Nat.zero_le _),
      Nat.le_refl _⟩, ?_⟩
    intro meaning found
    exact Nat.not_succ_le_self _ (numbers.covered meaning _ found).2
  apart := List.pairwise_singleton _ _
  complete := by
    intro var lower upper
    exact ⟨_, List.mem_singleton_self _,
      congrArg Literal.pos (Nat.le_antisymm lower upper)⟩

theorem Answers.known {meaning : LiteralMeaning} {var : Nat}
    (numbers : before.Numbers)
    (found : before.numbering[meaning]? = some var) :
    Answers before [⟨some meaning, .pos var⟩] before where
  numbers := numbers
  count := Nat.le_refl _
  kept := fun _ _ => id
  fresh := fun _ _ => .inl
  stands := by
    intro request member _ asked
    rw [List.mem_singleton] at member
    subst member
    cases asked
    exact ⟨var, found, rfl⟩
  witness := by simp
  apart := List.pairwise_singleton _ _
  complete := by
    intro var lower upper
    omega

/-- A meaning without a number gets a new variable. -/
theorem Answers.new_meaning {meaning : LiteralMeaning}
    (numbers : before.Numbers) (new : before.numbering[meaning]? = none) :
    Answers before
      [⟨some meaning, .pos (before.formula.variableCount + 1)⟩]
      { before with
        formula := before.formula.addVariable
        numbering := before.numbering.insert meaning
          (before.formula.variableCount + 1) } := by
  have found_iff : ∀ (other : LiteralMeaning) (var : Nat),
      (before.numbering.insert meaning
        (before.formula.variableCount + 1))[other]? = some var ↔
        (other = meaning ∧ var = before.formula.variableCount + 1) ∨
          before.numbering[other]? = some var := by
    intro other var
    rw [Std.HashMap.getElem?_insert]
    by_cases same : meaning = other
    · subst same
      simp [new, eq_comm]
    · simp [same, Ne.symm same]
  refine ⟨⟨?_, ?_⟩, Nat.le_succ _, ?_, ?_, ?_, by simp,
    List.pairwise_singleton _ _, ?_⟩
  · intro other var found
    rcases (found_iff other var).mp found with ⟨_, rfl⟩ | old
    · exact ⟨Nat.succ_le_succ (Nat.zero_le _), Nat.le_refl _⟩
    · exact (numbers.covered other var old).mono (Nat.le_succ _)
  · -- The new number is above all old ones.
    have above : ∀ other : LiteralMeaning, before.numbering[other]? ≠
        some (before.formula.variableCount + 1) := fun other old =>
      Nat.not_succ_le_self _ (numbers.covered other _ old).2
    intro first second var found found'
    rcases (found_iff first var).mp found with ⟨rfl, rfl⟩ | old
    · rcases (found_iff second _).mp found' with ⟨rfl, _⟩ | old'
      · rfl
      · exact (above second old').elim
    · rcases (found_iff second var).mp found' with ⟨_, rfl⟩ | old'
      · exact (above first old).elim
      · exact numbers.injective first second var old old'
  · exact fun other var old => (found_iff other var).mpr (.inr old)
  · intro other var found
    rcases (found_iff other var).mp found with ⟨_, rfl⟩ | old
    · exact .inr (Nat.lt_succ_self _)
    · exact .inl old
  · intro request member other asked
    rw [List.mem_singleton] at member
    subst member
    cases asked
    exact ⟨_, (found_iff meaning _).mpr (.inl ⟨rfl, rfl⟩), rfl⟩
  · intro var lower upper
    exact ⟨_, List.mem_singleton_self _,
      congrArg Literal.pos (Nat.le_antisymm lower upper)⟩

/-- The variables of early requests are covered when the late ones are made, so
late witnesses differ from them. -/
theorem Answers.covered (answers : Answers before early between)
    {request : Request} (member : request ∈ early) :
    between.formula.Covers request.literal := by
  cases asked : request.meaning with
  | none => exact (answers.witness request member asked).2.1
  | some meaning =>
      obtain ⟨var, found, same⟩ :=
        answers.stands request member meaning asked
      rw [same]
      exact answers.numbers.covered meaning var found

/-- Witnesses stay without a number. -/
theorem Answers.unnumbered (first : Answers before early between)
    (second : Answers between late after) {request : Request}
    (member : request ∈ early) (asked : request.meaning = none)
    (meaning : LiteralMeaning) :
    after.numbering[meaning]? ≠ some request.literal.var := by
  intro found
  obtain ⟨_, covers, unnumbered⟩ := first.witness request member asked
  rcases second.fresh meaning _ found with old | new
  · exact unnumbered meaning old
  · exact Nat.not_lt_of_le covers.2 new

theorem Stands.eq_iff {encoder : Encoder} (numbers : encoder.Numbers)
    {meaning other : LiteralMeaning} {lit lit' : Literal}
    (first : Stands encoder meaning lit) (second : Stands encoder other lit') :
    lit.var = lit'.var ↔ meaning = other := by
  obtain ⟨var, found, rfl⟩ := first
  obtain ⟨var', found', rfl⟩ := second
  constructor
  · intro same
    change var = var' at same
    subst same
    exact numbers.injective meaning other var found found'
  · rintro rfl
    exact Option.some.inj (found.symm.trans found')

theorem Stands.mono {meaning : LiteralMeaning} {lit : Literal}
    (stands : Stands between meaning lit)
    (second : Answers between late after) : Stands after meaning lit := by
  obtain ⟨var, found, same⟩ := stands
  exact ⟨var, second.kept meaning var found, same⟩

theorem Answers.apart_append (first : Answers before early between)
    (second : Answers between late after) {request other : Request}
    (member : request ∈ early) (member' : other ∈ late) :
    request.Apart other := by
  have covers := first.covered member
  cases asked : request.meaning with
  | none =>
      refine ⟨fun same => ?_, fun ⟨_, contrary, _⟩ => ?_⟩
      · cases asked' : other.meaning with
        | none =>
            have above := (second.witness other member' asked').1
            exact (Nat.not_lt_of_le covers.2 (same ▸ above)).elim
        | some meaning =>
            obtain ⟨var, found, literal_⟩ :=
              second.stands other member' meaning asked'
            rw [literal_] at same
            exact (first.unnumbered second member asked meaning
              (same ▸ found)).elim
      · cases asked.symm.trans contrary
  | some meaning =>
      cases asked' : other.meaning with
      | none =>
          refine ⟨fun same => ?_, fun ⟨_, _, contrary⟩ => ?_⟩
          · have above := (second.witness other member' asked').1
            exact (Nat.not_lt_of_le covers.2 (same ▸ above)).elim
          · cases asked'.symm.trans contrary
      | some meaning' =>
          have same_iff := Stands.eq_iff second.numbers
            ((first.stands request member meaning asked).mono second)
            (second.stands other member' meaning' asked')
          rw [Request.Apart, same_iff, asked, asked']
          simp [eq_comm]

theorem Answers.append (first : Answers before early between)
    (second : Answers between late after) :
    Answers before (early ++ late) after where
  numbers := second.numbers
  count := Nat.le_trans first.count second.count
  kept := fun meaning var old =>
    second.kept meaning var (first.kept meaning var old)
  fresh := by
    intro meaning var found
    rcases second.fresh meaning var found with old | new
    · exact first.fresh meaning var old
    · exact .inr (Nat.lt_of_le_of_lt first.count new)
  stands := by
    intro request member meaning asked
    rcases List.mem_append.mp member with inEarly | inLate
    · exact (first.stands request inEarly meaning asked).mono second
    · exact second.stands request inLate meaning asked
  witness := by
    intro request member asked
    rcases List.mem_append.mp member with inEarly | inLate
    · obtain ⟨above, covers, _⟩ := first.witness request inEarly asked
      exact ⟨above, covers.mono second.count,
        first.unnumbered second inEarly asked⟩
    · obtain ⟨above, covers, unnumbered⟩ :=
        second.witness request inLate asked
      exact ⟨Nat.lt_of_le_of_lt first.count above, covers, unnumbered⟩
  apart := List.pairwise_append.mpr ⟨first.apart, second.apart,
    fun _ inEarly _ inLate => first.apart_append second inEarly inLate⟩
  complete := by
    intro var lower upper
    rcases Nat.lt_or_ge between.formula.variableCount var with above | below
    · obtain ⟨request, member, same⟩ := second.complete var above upper
      exact ⟨request, List.mem_append_right _ member, same⟩
    · obtain ⟨request, member, same⟩ := first.complete var lower below
      exact ⟨request, List.mem_append_left _ member, same⟩

end Answers

/-- Whatever a step asks for is answered apart. -/
theorem Asks.answers {α : Type} {step : EncodeM α} {encoder : Encoder}
    {requests : List Request} (asks : Asks step encoder requests)
    (numbers : encoder.Numbers) :
    Answers encoder requests (step.run encoder).2 := by
  induction asks with
  | nothing numbering count => exact .nothing numbers numbering count
  | witness => exact .new_witness numbers
  | @meaning encoder meaning =>
      cases found : encoder.numbering[meaning]? with
      | some var =>
          rw [run_literal_known found]
          exact .known numbers found
      | none =>
          rw [run_literal_new found]
          exact .new_meaning numbers found
  | bind _ _ induction induction' =>
      have early := induction numbers
      exact early.append (induction' early.numbers)

end Encoder

end ConceptUnification
