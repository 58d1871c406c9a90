import ConceptUnification.Proofs.NormalOrder

/-!
# Structural subsumption of normal forms

Subsumption is a preorder, a conjunction is the greatest lower bound of its
parts, and leaving out absorbed atoms changes neither.  On canonical forms,
whose atoms are increasing and independent at every depth, subsumption is also
antisymmetric: equivalent canonical forms are equal.
-/

namespace ConceptUnification

/-- Before each member of a list, with respect to a strict order, there is an
initial one. -/
theorem exists_initial {α : Type} (before : α → α → Prop)
    (irreflexive : ∀ a, ¬ before a a)
    (transitive : ∀ a b c, before a b → before b c → before a c)
    (l : List α) :
    ∀ a ∈ l, ∃ b ∈ l, (b = a ∨ before b a) ∧ ∀ c ∈ l, ¬ before c b := by
  induction l with
  | nil => simp
  | cons x l induction =>
      intro a member
      rcases List.mem_cons.mp member with rfl | inTail
      · by_cases preceded : ∃ y ∈ l, before y a
        · obtain ⟨y, inTail, earlier⟩ := preceded
          obtain ⟨b, bMember, bBefore, bFree⟩ := induction y inTail
          have strictly : before b a := by
            rcases bBefore with rfl | bBefore
            · exact earlier
            · exact transitive _ _ _ bBefore earlier
          refine ⟨b, List.mem_cons_of_mem _ bMember, .inr strictly, ?_⟩
          intro c inList
          rcases List.mem_cons.mp inList with rfl | later
          · exact fun contrary =>
              irreflexive b (transitive _ _ _ strictly contrary)
          · exact bFree c later
        · refine ⟨a, List.mem_cons_self, .inl rfl, ?_⟩
          intro c inList
          rcases List.mem_cons.mp inList with rfl | later
          · exact irreflexive c
          · exact fun contrary => preceded ⟨c, later, contrary⟩
      · obtain ⟨b, bMember, bBefore, bFree⟩ := induction a inTail
        by_cases headBefore : before x b
        · refine ⟨x, List.mem_cons_self, .inr ?_, ?_⟩
          · rcases bBefore with rfl | bBefore
            · exact headBefore
            · exact transitive _ _ _ headBefore bBefore
          · intro c inList
            rcases List.mem_cons.mp inList with rfl | later
            · exact irreflexive c
            · exact fun contrary =>
                bFree c later (transitive _ _ _ contrary headBefore)
        · refine ⟨b, List.mem_cons_of_mem _ bMember, bBefore, ?_⟩
          intro c inList
          rcases List.mem_cons.mp inList with rfl | later
          · exact headBefore
          · exact bFree c later

namespace NormalAtom

theorem subsumesAll_iff {bs as : List NormalAtom} :
    subsumesAll bs as = true ↔ ∀ b ∈ bs, ∃ a ∈ as, b.subsumes a = true := by
  induction bs with
  | nil => simp [subsumesAll]
  | cons b bs induction => simp [subsumesAll, induction]

mutual

theorem subsumes_refl (a : NormalAtom) : a.subsumes a = true := by
  cases a with
  | name id => simp [subsumes]
  | restriction role filler =>
      have fillerBelow : subsumesAll filler filler = true :=
        subsumesAll_iff.mpr fun a member =>
          ⟨a, member, subsumes_refl_of_mem filler a member⟩
      simp [subsumes, fillerBelow]

theorem subsumes_refl_of_mem (as : List NormalAtom) (a : NormalAtom)
    (member : a ∈ as) : a.subsumes a = true := by
  cases as with
  | nil => simp at member
  | cons first as =>
      rcases List.mem_cons.mp member with rfl | later
      · exact subsumes_refl a
      · exact subsumes_refl_of_mem as a later

end

mutual

theorem subsumes_trans (a b c : NormalAtom) (upper : a.subsumes b = true)
    (lower : b.subsumes c = true) : a.subsumes c = true := by
  cases a with
  | name a =>
      cases b with
      | restriction role filler => simp [subsumes] at upper
      | name b =>
          cases c with
          | restriction role filler => simp [subsumes] at lower
          | name c =>
              simp only [subsumes, beq_iff_eq] at upper lower ⊢
              exact lower.trans upper
  | restriction role filler =>
      cases b with
      | name b => simp [subsumes] at upper
      | restriction role' filler' =>
          cases c with
          | name c => simp [subsumes] at lower
          | restriction role'' filler'' =>
              simp only [subsumes, Bool.and_eq_true, beq_iff_eq]
                at upper lower ⊢
              exact ⟨lower.1.trans upper.1,
                subsumesAll_trans filler filler' filler'' upper.2 lower.2⟩

theorem subsumesAll_trans (as bs cs : List NormalAtom)
    (upper : subsumesAll as bs = true) (lower : subsumesAll bs cs = true) :
    subsumesAll as cs = true := by
  cases as with
  | nil => rfl
  | cons a as =>
      simp only [subsumesAll, Bool.and_eq_true, List.any_eq_true]
        at upper ⊢
      obtain ⟨⟨b, inUpper, above⟩, others⟩ := upper
      obtain ⟨c, inLower, below⟩ := subsumesAll_iff.mp lower b inUpper
      exact ⟨⟨c, inLower, subsumes_trans a b c above below⟩,
        subsumesAll_trans as bs cs others lower⟩

end

@[simp] theorem isBelow_refl (a : NormalAtom) : a.isBelow a = true :=
  subsumes_refl a

theorem isBelow_trans {a b c : NormalAtom} (lower : a.isBelow b = true)
    (upper : b.isBelow c = true) : a.isBelow c = true :=
  subsumes_trans c b a upper lower

@[simp] theorem name_isBelow_name {a b : AtomId} :
    (name a).isBelow (name b) = true ↔ a = b := by
  simp [isBelow, subsumes]

@[simp] theorem name_not_isBelow_restriction {id : AtomId} {role : RoleId}
    {filler : List NormalAtom} :
    (name id).isBelow (restriction role filler) = false := rfl

@[simp] theorem restriction_not_isBelow_name {id : AtomId} {role : RoleId}
    {filler : List NormalAtom} :
    (restriction role filler).isBelow (name id) = false := rfl

@[simp] theorem restriction_isBelow_restriction {role role' : RoleId}
    {filler filler' : List NormalAtom} :
    (restriction role filler).isBelow (restriction role' filler') = true ↔
      role = role' ∧ subsumesAll filler' filler = true := by
  simp [isBelow, subsumes]

/-- An atom absorbs the strictly weaker ones and the larger equivalent ones. -/
theorem absorbs_iff {b a : NormalAtom} :
    b.absorbs a = true ↔
      b ≠ a ∧ b.isBelow a = true ∧
        (a.isBelow b = true → a.order b ≠ .lt) := by
  cases below : a.isBelow b <;> simp [absorbs, below, and_assoc]

theorem absorbs_irrefl (a : NormalAtom) : ¬ a.absorbs a = true := by
  simp [absorbs_iff]

theorem absorbs_trans {a b c : NormalAtom} (first : a.absorbs b = true)
    (second : b.absorbs c = true) : a.absorbs c = true := by
  obtain ⟨_, aBelowB, aFirst⟩ := absorbs_iff.mp first
  obtain ⟨differs, bBelowC, bFirst⟩ := absorbs_iff.mp second
  have chain : c.isBelow a = true → c.order a ≠ .lt ∧ a ≠ c := by
    intro cBelowA
    have bBelowA := isBelow_trans bBelowC cBelowA
    have cBelowB := isBelow_trans cBelowA aBelowB
    have notBA := aFirst bBelowA
    have notCB := bFirst cBelowB
    have bBeforeC : b.order c = .lt :=
      (order_lt_or_gt differs).resolve_right notCB
    constructor
    · intro cBeforeA
      exact notBA (order_lt_trans b c a bBeforeC cBeforeA)
    · rintro rfl
      exact notBA bBeforeC
  refine absorbs_iff.mpr ⟨?_, isBelow_trans aBelowB bBelowC, ?_⟩
  · rintro rfl
    exact (chain (isBelow_refl a)).2 rfl
  · intro cBelowA
    exact (chain cBelowA).1

/-- Beside different equivalent or comparable atoms one of the two is
absorbed. -/
theorem absorbs_or_absorbs_of_isBelow {a b : NormalAtom} (different : a ≠ b)
    (below : a.isBelow b = true) :
    a.absorbs b = true ∨ b.absorbs a = true := by
  by_cases above : b.isBelow a = true
  · rcases order_lt_or_gt different with first | first
    · left
      refine absorbs_iff.mpr ⟨different, below, fun _ later => ?_⟩
      exact order_lt_irrefl a (order_lt_trans a b a first later)
    · right
      refine absorbs_iff.mpr ⟨different.symm, above, fun _ later => ?_⟩
      exact order_lt_irrefl b (order_lt_trans b a b first later)
  · left
    exact absorbs_iff.mpr ⟨different, below, fun contrary => (above contrary).elim⟩

/-- Below each member of a list there is one that no member absorbs. -/
theorem exists_unabsorbed (l : List NormalAtom) :
    ∀ a ∈ l, ∃ b ∈ l, (b = a ∨ b.absorbs a = true) ∧
      ∀ c ∈ l, ¬ c.absorbs b = true :=
  exists_initial (fun b a => b.absorbs a = true) absorbs_irrefl
    (fun _ _ _ => absorbs_trans) l

/-- The number of restrictions nested in each other. -/
def depth : NormalAtom → Nat
  | .name _ => 0
  | .restriction _ filler => 1 + depthAll filler
where
  /-- The greatest depth in a list of atoms. -/
  depthAll : List NormalAtom → Nat
    | [] => 0
    | a :: as => max a.depth (depthAll as)

theorem depth_le_depthAll {a : NormalAtom} {as : List NormalAtom}
    (member : a ∈ as) : a.depth ≤ depth.depthAll as := by
  induction as with
  | nil => simp at member
  | cons first as induction =>
      simp only [depth.depthAll]
      rcases List.mem_cons.mp member with rfl | later
      · exact Nat.le_max_left _ _
      · exact Nat.le_trans (induction later) (Nat.le_max_right _ _)

mutual

theorem depth_le_of_subsumes (b a : NormalAtom) (above : b.subsumes a = true) :
    b.depth ≤ a.depth := by
  cases b with
  | name b => simp [depth]
  | restriction role filler =>
      cases a with
      | name a => simp [subsumes] at above
      | restriction role' filler' =>
          simp only [subsumes, Bool.and_eq_true] at above
          have fillerDepth := depthAll_le_of_subsumesAll filler filler' above.2
          simp only [depth]
          omega

theorem depthAll_le_of_subsumesAll (bs as : List NormalAtom)
    (above : subsumesAll bs as = true) :
    depth.depthAll bs ≤ depth.depthAll as := by
  cases bs with
  | nil => simp [depth.depthAll]
  | cons b bs =>
      simp only [subsumesAll, Bool.and_eq_true, List.any_eq_true] at above
      obtain ⟨⟨a, member, headAbove⟩, tailAbove⟩ := above
      have headDepth := depth_le_of_subsumes b a headAbove
      have memberDepth := depth_le_depthAll member
      have tailDepth := depthAll_le_of_subsumesAll bs as tailAbove
      simp only [depth.depthAll]
      omega

end

mutual

/-- The atoms below an atom are increasing and independent at every depth. -/
def Canonical : NormalAtom → Prop
  | .name _ => True
  | .restriction _ filler =>
      CanonicalAll filler ∧
        filler.Pairwise (fun a b => a.order b = .lt) ∧
        ∀ a ∈ filler, ∀ b ∈ filler, a.isBelow b = true → a = b

/-- All atoms of a list are canonical. -/
def CanonicalAll : List NormalAtom → Prop
  | [] => True
  | a :: as => a.Canonical ∧ CanonicalAll as

end

theorem canonicalAll_iff {as : List NormalAtom} :
    CanonicalAll as ↔ ∀ a ∈ as, a.Canonical := by
  induction as with
  | nil => simp [CanonicalAll]
  | cons a as induction => simp [CanonicalAll, induction]

/-- The step of antisymmetry from atoms to lists: each member of one list has
an equivalent member in the other one, and independence makes it unique. -/
theorem mem_of_mutual {as bs : List NormalAtom}
    (independent : ∀ a ∈ as, ∀ a' ∈ as, a.isBelow a' = true → a = a')
    (below : subsumesAll bs as = true) (above : subsumesAll as bs = true)
    {a : NormalAtom} (member : a ∈ as)
    (antisymmetric : ∀ b ∈ bs, a.isBelow b = true → b.isBelow a = true →
      a = b) : a ∈ bs := by
  obtain ⟨b, inOther, lower⟩ := subsumesAll_iff.mp above a member
  obtain ⟨a', inSame, lowest⟩ := subsumesAll_iff.mp below b inOther
  have same : a' = a :=
    independent a' inSame a member (isBelow_trans lowest lower)
  subst same
  rw [antisymmetric b inOther lowest lower]
  exact inOther

mutual

theorem isBelow_antisymm (a b : NormalAtom) (left : a.Canonical)
    (right : b.Canonical) (below : a.isBelow b = true)
    (above : b.isBelow a = true) : a = b := by
  cases a with
  | name a =>
      cases b with
      | name b => simpa using below
      | restriction role filler => simp at below
  | restriction role filler =>
      cases b with
      | name b => simp at below
      | restriction role' filler' =>
          simp only [restriction_isBelow_restriction] at below above
          simp only [Canonical] at left right
          rw [below.1, eq_of_subsumesAll filler filler' left.1 right.1
            left.2.1 right.2.1 left.2.2 right.2.2 below.2 above.2]

theorem eq_of_subsumesAll (as bs : List NormalAtom) (left : CanonicalAll as)
    (right : CanonicalAll bs)
    (leftIncreasing : as.Pairwise (fun a b => a.order b = .lt))
    (rightIncreasing : bs.Pairwise (fun a b => a.order b = .lt))
    (leftIndependent : ∀ a ∈ as, ∀ b ∈ as, a.isBelow b = true → a = b)
    (rightIndependent : ∀ a ∈ bs, ∀ b ∈ bs, a.isBelow b = true → a = b)
    (below : subsumesAll bs as = true) (above : subsumesAll as bs = true) :
    as = bs := by
  have antisymmetric := isBelow_antisymm_of_mem as left
  refine eq_of_increasing_of_mem_iff leftIncreasing rightIncreasing ?_
  intro x
  constructor
  · intro member
    refine mem_of_mutual leftIndependent below above member ?_
    intro b inOther lower upper
    exact antisymmetric x member b (canonicalAll_iff.mp right b inOther)
      lower upper
  · intro member
    refine mem_of_mutual rightIndependent above below member ?_
    intro a inOther lower upper
    exact (antisymmetric a inOther x (canonicalAll_iff.mp right x member)
      upper lower).symm

theorem isBelow_antisymm_of_mem (as : List NormalAtom)
    (canonical : CanonicalAll as) :
    ∀ a ∈ as, ∀ b : NormalAtom, b.Canonical → a.isBelow b = true →
      b.isBelow a = true → a = b := by
  cases as with
  | nil => simp
  | cons first as =>
      simp only [CanonicalAll] at canonical
      intro a member b other below above
      rcases List.mem_cons.mp member with same | later
      · rw [same] at below above ⊢
        exact isBelow_antisymm first b canonical.1 other below above
      · exact isBelow_antisymm_of_mem as canonical.2 a later b other below
          above

end

end NormalAtom

end ConceptUnification
