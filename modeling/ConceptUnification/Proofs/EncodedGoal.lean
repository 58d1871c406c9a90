import Mathlib.Data.List.ProdSigma
import Mathlib.Data.List.Nodup
import Mathlib.Data.List.Perm.Subperm
import ConceptUnification.Proofs.EncodingReading

/-!
# What the formula of a whole goal says

The definition of a pair queues further pairs.  There are no more pairs than
steps, so in the end every subsumption literal in use is defined.  `Satisfied`
collects what the formula says: all constraints, these definitions, and the
order between fillers.
-/

namespace ConceptUnification

namespace Encoder

section Queue

variable {goal : Goal}

theorem run_defineQueued_nil (goal : Goal) (steps : Nat) {encoder : Encoder}
    (queue : encoder.queue = []) :
    (defineQueued goal (steps + 1)).run encoder = ((), encoder) := by
  rw [defineQueued, StateT.run_bind, StateT.run_get, pure_bind, queue]
  rfl

theorem run_defineQueued_cons (goal : Goal) (steps : Nat) {encoder : Encoder}
    {a b : AtomId} {rest : List (AtomId × AtomId)}
    (queue : encoder.queue = (a, b) :: rest) :
    (defineQueued goal (steps + 1)).run encoder =
      (defineQueued goal steps).run ((defineSubsumption goal a b).run
        { encoder with queue := rest }).2 := by
  rw [defineQueued, StateT.run_bind, StateT.run_get, pure_bind, queue]
  rfl

theorem Tracked.length_le {size : Nat} {encoder : Encoder}
    {done : List (AtomId × AtomId)} (tracked : Tracked size done encoder) :
    done.length + encoder.queue.length ≤ size * size := by
  have within : done ++ encoder.queue ⊆ List.range size ×ˢ List.range size := by
    intro pair member
    obtain ⟨lower, upper⟩ := tracked.stored pair member
    exact List.mem_product.mpr
      ⟨List.mem_range.mpr lower, List.mem_range.mpr upper⟩
  have counted := (List.subperm_of_subset tracked.distinct within).length_le
  rw [← List.length_append]
  simpa only [List.length_product, List.length_range] using counted

theorem Tracked.pop {size : Nat} {encoder : Encoder}
    {done rest : List (AtomId × AtomId)} {pair : AtomId × AtomId}
    (tracked : Tracked size done encoder) (queue : encoder.queue = pair :: rest) :
    Tracked size (pair :: done) { encoder with queue := rest } := by
  have around : ∀ other, other ∈ pair :: done ++ rest ↔
      other ∈ done ++ encoder.queue := by
    intro other
    rw [queue]
    exact List.perm_middle.symm.mem_iff
  constructor
  · intro a b
    rw [around]
    exact tracked.numbered a b
  · have distinct := tracked.distinct
    rw [queue] at distinct
    exact List.perm_middle.nodup_iff.mp distinct
  · intro other member
    exact tracked.stored other ((around other).mp member)

/-- Enough steps define every pair that is ever queued. -/
theorem defineQueued_reads (wellFormed : goal.WellFormed) (steps : Nat)
    {encoder : Encoder} {done : List (AtomId × AtomId)}
    (tracked : Tracked goal.store.size done encoder)
    (enough : goal.store.size * goal.store.size ≤ steps + done.length) :
    encoder.Within ((defineQueued goal steps).run encoder).2 ∧
      ((defineQueued goal steps).run encoder).2.queue = [] ∧
      ∃ done', Tracked goal.store.size done'
          ((defineQueued goal steps).run encoder).2 ∧
        ∀ final valuation, valuation.satisfies final.formula = true →
          ((defineQueued goal steps).run encoder).2.Within final →
            ∀ pair ∈ done', pair ∈ done ∨
              Defined goal final valuation pair.1 pair.2 := by
  induction steps generalizing encoder done with
  | zero =>
      have bounded := tracked.length_le
      have empty : encoder.queue = [] :=
        List.eq_nil_of_length_eq_zero (by omega)
      exact ⟨.refl encoder, empty, done, tracked,
        fun _ _ _ _ pair member => .inl member⟩
  | succ steps induction =>
      cases queue : encoder.queue with
      | nil =>
          rw [run_defineQueued_nil goal steps queue]
          exact ⟨.refl encoder, queue, done, tracked,
            fun _ _ _ _ pair member => .inl member⟩
      | cons pair rest =>
          obtain ⟨a, b⟩ := pair
          have popped := tracked.pop queue
          obtain ⟨lower, upper⟩ := popped.stored (a, b) List.mem_cons_self
          have reads : ∀ final valuation,
              valuation.satisfies final.formula = true →
                Reads goal.store.size final (defineSubsumption goal a b)
                  fun _ => Defined goal final valuation a b :=
            fun _ _ satisfied =>
              reads_defineSubsumption satisfied wellFormed lower upper
          -- The growth does not depend on what is read in the end.
          have grows := (reads {} (fun _ => false)
            (Valuation.satisfies_iff.mpr (by simp))
            { encoder with queue := rest }).1
          obtain ⟨within, empty, done', tracked', defined⟩ := induction
            (grows.tracked _ popped) (by simp only [List.length_cons]; omega)
          rw [run_defineQueued_cons goal steps queue]
          refine ⟨Within.trans ⟨grows.within.clauses, grows.within.numbering⟩
            within, empty, done', tracked', ?_⟩
          intro final valuation satisfied withinFinal pair member
          rcases defined final valuation satisfied withinFinal pair member with
            old | new
          · rcases List.mem_cons.mp old with rfl | inDone
            · right
              exact (reads final valuation satisfied _).2
                (within.trans withinFinal)
            · exact .inl inDone
          · exact .inr new

/-- A step that leaves the queue alone. -/
def Keeps {α : Type} (step : EncodeM α) : Prop :=
  ∀ encoder : Encoder, (step.run encoder).2.queue = encoder.queue

theorem Keeps.bind {α β : Type} {step : EncodeM α} {next : α → EncodeM β}
    (first : Keeps step) (second : ∀ a, Keeps (next a)) :
    Keeps (step >>= next) :=
  fun encoder => (second _ _).trans (first encoder)

theorem Keeps.pure {α : Type} (a : α) : Keeps (Pure.pure a) :=
  fun _ => rfl

theorem Keeps.forM {α : Type} {l : List α} {f : α → EncodeM PUnit}
    (each : ∀ a, Keeps (f a)) : Keeps (l.forM f) := by
  induction l with
  | nil => exact .pure _
  | cons a l induction => exact (each a).bind fun _ => induction

theorem keeps_literal (meaning : LiteralMeaning) : Keeps (literal meaning) := by
  intro encoder
  cases known : encoder.numbering[meaning]? with
  | some var => rw [run_literal_known known]
  | none => rw [run_literal_new known]

theorem keeps_addClause (clause : Clause) : Keeps (addClause clause) :=
  fun _ => rfl

theorem keeps_encodeAcyclicity (goal : Goal) : Keeps (encodeAcyclicity goal) := by
  have subsumers : ∀ x atom, Keeps (subsumer x atom) := fun _ _ =>
    (keeps_literal _).bind fun _ => .pure _
  have orders : ∀ x y, Keeps (order x y) := fun _ _ =>
    (keeps_literal _).bind fun _ => .pure _
  unfold encodeAcyclicity
  refine .bind (.forM fun x => .forM fun atom => ?_) fun _ =>
    .forM fun x => ?_
  · cases goal.store.restriction? atom with
    | none => exact .pure _
    | some pair =>
        by_cases inFillers : pair.2 ∈ fillerVariables goal
        · simp only [inFillers, if_true]
          exact (subsumers _ _).bind fun _ => (orders _ _).bind fun _ =>
            keeps_addClause _
        · simp only [inFillers, if_false]
          exact .pure _
  · refine (orders _ _).bind fun _ => (keeps_addClause _).bind fun _ => ?_
    refine .forM fun y => .forM fun z => ?_
    exact (orders _ _).bind fun _ => (orders _ _).bind fun _ =>
      (orders _ _).bind fun _ => keeps_addClause _

end Queue

/-- The encoder after encoding a goal. -/
def final (goal : Goal) : Encoder :=
  ((encode goal).run {}).2

/-- What the formula of a goal says under a valuation. -/
structure Satisfied (goal : Goal) (valuation : Valuation) : Prop where
  positive : ∀ s ∈ goal.positiveSubsumptions,
    PositiveHolds goal (final goal) valuation s
  negative : ∀ constraint ∈ goal.negativeConstraints,
    NegativeHolds goal (final goal) valuation constraint
  defined : ∀ a b, Numbered (final goal) a b →
    Defined goal (final goal) valuation a b
  order : OrderHolds goal (final goal) valuation

/-- The literals of possible subsumers are complete and stand for what they
say. -/
structure ListsSubsumers (goal : Goal) (literals : List SubsumerLiteral) :
    Prop where
  stands : ∀ s ∈ literals, s.name ∈ goal.allVariables ∧
    s.atom ∈ goal.nonVariableAtoms ∧
    s.user = goal.store.hasKind .userVariable s.name ∧
    Stands (final goal) (.subsumer s.name s.atom) s.literal
  complete : ∀ x ∈ goal.allVariables, ∀ atom ∈ goal.nonVariableAtoms,
    ∃ s ∈ literals, s.name = x ∧ s.atom = atom

/-- The part of the encoding before the queued pairs are defined. -/
def encodeConstraints (goal : Goal) : EncodeM (List SubsumerLiteral) := do
  let subsumers ← subsumerLiterals goal
  goal.positiveSubsumptions.forM (encodePositive goal)
  goal.negativeConstraints.forM (encodeNegative goal)
  return subsumers

theorem run_encode (goal : Goal) :
    (encode goal).run {} =
      (((encodeConstraints goal).run {}).1,
        ((encodeAcyclicity goal).run
          ((defineQueued goal (goal.store.size * goal.store.size)).run
            ((encodeConstraints goal).run {}).2).2).2) := by
  rfl

theorem tracked_empty (size : Nat) : Tracked size [] {} where
  numbered := by simp
  distinct := by simp
  stored := by simp

theorem reads_encodeConstraints {goal : Goal} {final : Encoder}
    {valuation : Valuation} (wellFormed : goal.WellFormed)
    (satisfied : valuation.satisfies final.formula = true) :
    Reads goal.store.size final (encodeConstraints goal) fun literals =>
      ((∀ s ∈ literals, s.name ∈ goal.allVariables ∧
        s.atom ∈ goal.nonVariableAtoms ∧
        s.user = goal.store.hasKind .userVariable s.name ∧
        Stands final (.subsumer s.name s.atom) s.literal) ∧
      ∀ x ∈ goal.allVariables, ∀ atom ∈ goal.nonVariableAtoms,
        ∃ s ∈ literals, s.name = x ∧ s.atom = atom) ∧
      (∀ s ∈ goal.positiveSubsumptions,
        PositiveHolds goal final valuation s) ∧
      ∀ constraint ∈ goal.negativeConstraints,
        NegativeHolds goal final valuation constraint := by
  refine reads_subsumerLiterals.bind fun literals => ?_
  refine (Reads.forM (PositiveHolds goal final valuation)
    fun s member => ?_).bind fun _ => ?_
  · obtain ⟨body, head⟩ := wellFormed.stores_positive member
    exact reads_encodePositive satisfied body head
  · refine (Reads.forM _ fun constraint member =>
      reads_encodeNegative satisfied wellFormed member).bind fun _ => ?_
    exact .pure fun negative positive lists => ⟨lists, positive, negative⟩

/-- The three parts of a run, one within the next.  The pairs that are numbered
in the end are those that were defined, and they are pairs of stored atoms. -/
theorem exists_parts {goal : Goal} (wellFormed : goal.WellFormed) :
    ((encodeConstraints goal).run {}).2.Within (final goal) ∧
      (∀ valuation : Valuation,
        valuation.satisfies (final goal).formula = true →
          OrderHolds goal (final goal) valuation) ∧
      (∀ valuation : Valuation,
        valuation.satisfies (final goal).formula = true →
          ∀ a b, Numbered (final goal) a b →
            Defined goal (final goal) valuation a b) ∧
      ∃ done, Tracked goal.store.size done (final goal) := by
  have trivially : Valuation.satisfies (fun _ => false)
      ({} : Encoder).formula = true := Valuation.satisfies_iff.mpr (by simp)
  have constraints := (reads_encodeConstraints wellFormed trivially {}).1
  obtain ⟨within, empty, done, tracked, defined⟩ := defineQueued_reads
    wellFormed (goal.store.size * goal.store.size)
    (constraints.tracked [] (tracked_empty _)) (Nat.le_add_right _ _)
  have ending : final goal = ((encodeAcyclicity goal).run
      ((defineQueued goal (goal.store.size * goal.store.size)).run
        ((encodeConstraints goal).run {}).2).2).2 :=
    congrArg Prod.snd (run_encode goal)
  have acyclicity : ∀ {last : Encoder} {valuation : Valuation},
      valuation.satisfies last.formula = true →
        Reads goal.store.size last (encodeAcyclicity goal) fun _ =>
          OrderHolds goal last valuation := reads_encodeAcyclicity
  have kept := keeps_encodeAcyclicity goal
    ((defineQueued goal (goal.store.size * goal.store.size)).run
      ((encodeConstraints goal).run {}).2).2
  have grows := (acyclicity trivially
    ((defineQueued goal (goal.store.size * goal.store.size)).run
      ((encodeConstraints goal).run {}).2).2).1
  rw [← ending] at kept grows
  refine ⟨within.trans grows.within, ?_, ?_, done, grows.tracked done tracked⟩
  · intro valuation satisfied
    refine (acyclicity satisfied ((defineQueued goal
      (goal.store.size * goal.store.size)).run
        ((encodeConstraints goal).run {}).2).2).2 ?_
    rw [← ending]
    exact .refl _
  · intro valuation satisfied a b numbered
    have member := ((grows.tracked done tracked).numbered a b).mp numbered
    rw [kept, empty, List.append_nil] at member
    rcases defined (final goal) valuation satisfied grows.within (a, b)
        member with contrary | holds
    · cases contrary
    · exact holds

/-- A valuation that satisfies the formula of a goal makes true what the
formula is meant to say. -/
theorem satisfied_of_satisfies {goal : Goal} (wellFormed : goal.WellFormed)
    {valuation : Valuation}
    (satisfied : valuation.satisfies (final goal).formula = true) :
    Satisfied goal valuation := by
  obtain ⟨within, order, defined, _⟩ := exists_parts wellFormed
  obtain ⟨_, positive, negative⟩ :=
    (reads_encodeConstraints wellFormed satisfied {}).2 within
  exact ⟨positive, negative, defined valuation satisfied,
    order valuation satisfied⟩

/-- Only pairs of stored atoms have a subsumption literal. -/
theorem Numbered.stored {goal : Goal} (wellFormed : goal.WellFormed)
    {a b : AtomId} (numbered : Numbered (final goal) a b) :
    a < goal.store.size ∧ b < goal.store.size := by
  obtain ⟨_, _, _, done, tracked⟩ := exists_parts wellFormed
  exact tracked.stored (a, b) ((tracked.numbered a b).mp numbered)

theorem listsSubsumers {goal : Goal} (wellFormed : goal.WellFormed) :
    ListsSubsumers goal (Encoding.ofGoal goal).subsumers := by
  have trivially : Valuation.satisfies (fun _ => false)
      ({} : Encoder).formula = true := Valuation.satisfies_iff.mpr (by simp)
  have others : ∀ literals : List SubsumerLiteral,
      Reads goal.store.size {} (do
        goal.positiveSubsumptions.forM (encodePositive goal)
        goal.negativeConstraints.forM (encodeNegative goal)
        return literals) fun _ => True := by
    intro literals
    refine (Reads.forM (PositiveHolds goal {} fun _ => false)
        fun s member => ?_).bind fun _ =>
      (Reads.forM (NegativeHolds goal {} fun _ => false)
        fun constraint member => ?_).bind fun _ =>
          .pure fun _ _ => trivial
    · obtain ⟨body, head⟩ := wellFormed.stores_positive member
      exact reads_encodePositive trivially body head
    · exact reads_encodeNegative trivially wellFormed member
  have grows := (others ((subsumerLiterals goal).run {}).1
    ((subsumerLiterals goal).run {}).2).1
  obtain ⟨within, _⟩ := exists_parts wellFormed
  obtain ⟨stands, complete⟩ :=
    (reads_subsumerLiterals {}).2 (grows.within.trans within)
  exact ⟨stands, complete⟩

end Encoder

end ConceptUnification
