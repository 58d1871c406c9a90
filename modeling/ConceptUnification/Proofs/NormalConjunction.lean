import ConceptUnification.Proofs.NormalSubsumption

/-!
# Conjunctions of normal forms

`NormalConcept.conjunction` is the greatest lower bound of its parts.  Names,
restrictions and conjunctions of canonical forms are canonical, so values that
are built by these operations are equal as soon as they are equivalent.
-/

namespace ConceptUnification

namespace NormalConcept

theorem isBelow_iff {c d : NormalConcept} :
    c.isBelow d = true ↔
      ∀ b ∈ d.atoms, ∃ a ∈ c.atoms, a.isBelow b = true :=
  NormalAtom.subsumesAll_iff

@[simp] theorem isBelow_refl (c : NormalConcept) : c.isBelow c = true :=
  isBelow_iff.mpr fun a member => ⟨a, member, NormalAtom.isBelow_refl a⟩

theorem isBelow_trans {c d e : NormalConcept} (lower : c.isBelow d = true)
    (upper : d.isBelow e = true) : c.isBelow e = true :=
  NormalAtom.subsumesAll_trans e.atoms d.atoms c.atoms upper lower

@[simp] theorem isEquivalent_iff {c d : NormalConcept} :
    c.isEquivalent d = true ↔ c.isBelow d = true ∧ d.isBelow c = true := by
  simp [isEquivalent]

@[simp] theorem isBelow_top (c : NormalConcept) : c.isBelow top = true := by
  simp [isBelow_iff, top]

@[simp] theorem name_isBelow_name {a b : AtomId} :
    (name a).isBelow (name b) = true ↔ a = b := by
  simp [isBelow_iff, name]

@[simp] theorem name_not_isBelow_restriction {id : AtomId} {role : RoleId}
    {filler : NormalConcept} :
    (name id).isBelow (restriction role filler) = false := by
  simp [isBelow, name, restriction, NormalAtom.subsumesAll,
    NormalAtom.subsumes]

@[simp] theorem restriction_not_isBelow_name {id : AtomId} {role : RoleId}
    {filler : NormalConcept} :
    (restriction role filler).isBelow (name id) = false := by
  simp [isBelow, name, restriction, NormalAtom.subsumesAll,
    NormalAtom.subsumes]

@[simp] theorem restriction_isBelow_restriction {role role' : RoleId}
    {filler filler' : NormalConcept} :
    (restriction role filler).isBelow (restriction role' filler') = true ↔
      role = role' ∧ filler.isBelow filler' = true := by
  simp [isBelow, restriction, NormalAtom.subsumesAll, NormalAtom.subsumes]

/-- The number of restrictions nested in each other. -/
def depth (c : NormalConcept) : Nat :=
  NormalAtom.depth.depthAll c.atoms

theorem depth_le_of_isBelow {c d : NormalConcept}
    (below : c.isBelow d = true) : d.depth ≤ c.depth :=
  NormalAtom.depthAll_le_of_subsumesAll d.atoms c.atoms below

@[simp] theorem depth_restriction (role : RoleId) (filler : NormalConcept) :
    (restriction role filler).depth = filler.depth + 1 := by
  simp [depth, restriction, NormalAtom.depth, NormalAtom.depth.depthAll]
  omega

theorem depth_lt_of_isBelow_restriction {c filler : NormalConcept}
    {role : RoleId} (below : c.isBelow (restriction role filler) = true) :
    filler.depth < c.depth := by
  have bounded := depth_le_of_isBelow below
  simp only [depth_restriction] at bounded
  omega

theorem mem_reduce {l : List NormalAtom} {a : NormalAtom} :
    a ∈ (reduce l).atoms ↔ a ∈ l ∧ ∀ b ∈ l, ¬ b.absorbs a = true := by
  simp [reduce]

/-- Absorbed atoms are implied by those that stay. -/
theorem exists_mem_reduce {l : List NormalAtom} {a : NormalAtom}
    (member : a ∈ l) : ∃ b ∈ (reduce l).atoms, b.isBelow a = true := by
  obtain ⟨b, inList, absorbs, free⟩ :=
    NormalAtom.exists_unabsorbed l a member
  refine ⟨b, mem_reduce.mpr ⟨inList, free⟩, ?_⟩
  rcases absorbs with rfl | absorbs
  · exact NormalAtom.isBelow_refl b
  · exact (NormalAtom.absorbs_iff.mp absorbs).2.1

theorem mem_foldr_insertOrdered {l : List NormalAtom} {a : NormalAtom} :
    a ∈ l.foldr (insertOrdered NormalAtom.order) [] ↔ a ∈ l := by
  induction l with
  | nil => simp
  | cons b l induction => simp [mem_insertOrdered, induction]

theorem pairwise_foldr_insertOrdered (l : List NormalAtom) :
    (l.foldr (insertOrdered NormalAtom.order) []).Pairwise
      (fun a b => a.order b = .lt) := by
  induction l with
  | nil => exact .nil
  | cons a l induction => exact pairwise_insertOrdered induction

/-- Every atom of a conjunction is an atom of a part. -/
theorem exists_mem_of_mem_conjunction {parts : List NormalConcept}
    {a : NormalAtom} (member : a ∈ (conjunction parts).atoms) :
    ∃ part ∈ parts, a ∈ part.atoms := by
  have inAll := (mem_reduce.mp member).1
  rw [mem_foldr_insertOrdered] at inAll
  simpa using inAll

theorem exists_mem_conjunction {parts : List NormalConcept}
    {part : NormalConcept} {a : NormalAtom} (inParts : part ∈ parts)
    (inPart : a ∈ part.atoms) :
    ∃ b ∈ (conjunction parts).atoms, b.isBelow a = true := by
  apply exists_mem_reduce
  rw [mem_foldr_insertOrdered]
  exact List.mem_flatMap.mpr ⟨part, inParts, inPart⟩

theorem conjunction_isBelow_part {parts : List NormalConcept}
    {part : NormalConcept} (inParts : part ∈ parts) :
    (conjunction parts).isBelow part = true :=
  isBelow_iff.mpr fun _ inPart => exists_mem_conjunction inParts inPart

/-- The conjunction is the greatest lower bound of its parts. -/
theorem isBelow_conjunction_iff {c : NormalConcept}
    {parts : List NormalConcept} :
    c.isBelow (conjunction parts) = true ↔
      ∀ part ∈ parts, c.isBelow part = true := by
  constructor
  · intro below part inParts
    exact isBelow_trans below (conjunction_isBelow_part inParts)
  · intro below
    rw [isBelow_iff]
    intro a member
    obtain ⟨part, inParts, inPart⟩ := exists_mem_of_mem_conjunction member
    exact isBelow_iff.mp (below part inParts) a inPart

/-- A concept with at most one atom lies above a conjunction only if it lies
above a part. -/
theorem conjunction_isBelow_singleton {parts : List NormalConcept}
    {b : NormalAtom} :
    (conjunction parts).isBelow ⟨[b]⟩ = true ↔
      ∃ part ∈ parts, part.isBelow ⟨[b]⟩ = true := by
  constructor
  · intro below
    obtain ⟨a, member, lower⟩ := isBelow_iff.mp below b List.mem_cons_self
    obtain ⟨part, inParts, inPart⟩ := exists_mem_of_mem_conjunction member
    refine ⟨part, inParts, isBelow_iff.mpr ?_⟩
    intro b' single
    rw [List.mem_singleton] at single
    subst single
    exact ⟨a, inPart, lower⟩
  · rintro ⟨part, inParts, below⟩
    exact isBelow_trans (conjunction_isBelow_part inParts) below

/-- The atoms are increasing and independent at every depth. -/
structure Canonical (c : NormalConcept) : Prop where
  parts : NormalAtom.CanonicalAll c.atoms
  increasing : c.atoms.Pairwise (fun a b => a.order b = .lt)
  independent : ∀ a ∈ c.atoms, ∀ b ∈ c.atoms, a.isBelow b = true → a = b

/-- Equivalent canonical forms are equal. -/
theorem Canonical.eq_of_isBelow {c d : NormalConcept} (left : c.Canonical)
    (right : d.Canonical) (below : c.isBelow d = true)
    (above : d.isBelow c = true) : c = d := by
  have same := NormalAtom.eq_of_subsumesAll c.atoms d.atoms left.parts
    right.parts left.increasing right.increasing left.independent
    right.independent below above
  cases c
  cases d
  simpa using same

/-- Canonical forms with the same lower bounds are equal. -/
theorem Canonical.eq_of_isBelow_iff {c d : NormalConcept}
    (left : c.Canonical) (right : d.Canonical)
    (same : ∀ e : NormalConcept, e.isBelow c = true ↔ e.isBelow d = true) :
    c = d :=
  left.eq_of_isBelow right ((same c).mp (isBelow_refl c))
    ((same d).mpr (isBelow_refl d))

/-- For canonical forms, equivalence is equality. -/
theorem Canonical.isEquivalent_iff_eq {c d : NormalConcept}
    (left : c.Canonical) (right : d.Canonical) :
    c.isEquivalent d = true ↔ c = d := by
  rw [isEquivalent_iff]
  constructor
  · rintro ⟨below, above⟩
    exact left.eq_of_isBelow right below above
  · rintro rfl
    exact ⟨isBelow_refl c, isBelow_refl c⟩

theorem canonical_name (id : AtomId) : (name id).Canonical where
  parts := by simp [name, NormalAtom.CanonicalAll, NormalAtom.Canonical]
  increasing := List.pairwise_singleton _ _
  independent := by simp [name]

theorem Canonical.restriction {c : NormalConcept} (canonical : c.Canonical)
    (role : RoleId) : (restriction role c).Canonical where
  parts := by
    simp only [NormalConcept.restriction, NormalAtom.CanonicalAll,
      NormalAtom.Canonical, and_true]
    exact ⟨canonical.parts, canonical.increasing, canonical.independent⟩
  increasing := List.pairwise_singleton _ _
  independent := by simp [NormalConcept.restriction]

theorem canonical_conjunction {parts : List NormalConcept}
    (canonical : ∀ part ∈ parts, part.Canonical) :
    (conjunction parts).Canonical where
  parts := by
    rw [NormalAtom.canonicalAll_iff]
    intro a member
    obtain ⟨part, inParts, inPart⟩ := exists_mem_of_mem_conjunction member
    exact NormalAtom.canonicalAll_iff.mp (canonical part inParts).parts a inPart
  increasing :=
    (pairwise_foldr_insertOrdered _).sublist List.filter_sublist
  independent := by
    intro a inConjunction b inConjunction' below
    by_cases same : a = b
    · exact same
    · obtain ⟨inAll, free⟩ := mem_reduce.mp inConjunction
      obtain ⟨inAll', free'⟩ := mem_reduce.mp inConjunction'
      rcases NormalAtom.absorbs_or_absorbs_of_isBelow same below with
        absorbs | absorbs
      · exact (free' a inAll absorbs).elim
      · exact (free b inAll' absorbs).elim

theorem canonical_top : top.Canonical := by
  have empty : ∀ part ∈ ([] : List NormalConcept), part.Canonical := by simp
  exact canonical_conjunction empty

/-- Conjunctions of canonical parts are equal if the same concepts lie below all
parts. -/
theorem conjunction_eq_of_isBelow_iff {left right : List NormalConcept}
    (leftCanonical : ∀ part ∈ left, part.Canonical)
    (rightCanonical : ∀ part ∈ right, part.Canonical)
    (same : ∀ c : NormalConcept, (∀ part ∈ left, c.isBelow part = true) ↔
      ∀ part ∈ right, c.isBelow part = true) :
    conjunction left = conjunction right := by
  apply (canonical_conjunction leftCanonical).eq_of_isBelow_iff
    (canonical_conjunction rightCanonical)
  intro c
  rw [isBelow_conjunction_iff, isBelow_conjunction_iff]
  exact same c

/-- Conjunctions over two lists of canonical parts are equal if each part of
one list lies above some part of the other one. -/
theorem conjunction_eq_conjunction {left right : List NormalConcept}
    (leftCanonical : ∀ part ∈ left, part.Canonical)
    (rightCanonical : ∀ part ∈ right, part.Canonical)
    (covers : ∀ part ∈ right, ∃ lower ∈ left, lower.isBelow part = true)
    (covered : ∀ part ∈ left, ∃ lower ∈ right, lower.isBelow part = true) :
    conjunction left = conjunction right := by
  apply conjunction_eq_of_isBelow_iff leftCanonical rightCanonical
  intro c
  constructor
  · intro below part inRight
    obtain ⟨lower, inLeft, lies⟩ := covers part inRight
    exact isBelow_trans (below lower inLeft) lies
  · intro below part inLeft
    obtain ⟨lower, inRight, lies⟩ := covered part inLeft
    exact isBelow_trans (below lower inRight) lies

end NormalConcept

end ConceptUnification
