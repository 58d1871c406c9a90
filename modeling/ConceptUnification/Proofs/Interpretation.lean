import Mathlib.Data.Set.Lattice
import ConceptUnification.Proofs.NormalConjunction

/-!
# Interpretations of concepts

An interpretation reads concept names as sets of elements and roles as relations
between elements.  A concept holds of the elements that all its atoms hold of.
Structural subsumption is inclusion in every interpretation.  For the converse
the concepts themselves are the elements of one interpretation, in which a
concept belongs to exactly those that lie above it.
-/

namespace ConceptUnification

universe u

/-- A domain with a set of elements for each concept name and a relation between
elements for each role. -/
structure Interpretation where
  Domain : Type u
  names : AtomId → Set Domain
  roles : RoleId → Domain → Domain → Prop

namespace Interpretation

variable (interpretation : Interpretation.{u})

mutual

/-- The elements that an atom holds of.  A restriction holds of those with a
successor over its role that all atoms of the filler hold of. -/
def atomExtension : NormalAtom → Set interpretation.Domain
  | .name id => interpretation.names id
  | .restriction role filler =>
      {x | ∃ y, interpretation.roles role x y ∧ y ∈ extensionAll filler}

/-- The elements that all atoms of a list hold of. -/
def extensionAll : List NormalAtom → Set interpretation.Domain
  | [] => Set.univ
  | a :: as => atomExtension a ∩ extensionAll as

end

/-- The elements that a concept holds of. -/
def extension (c : NormalConcept) : Set interpretation.Domain :=
  interpretation.extensionAll c.atoms

variable {interpretation}

theorem mem_extensionAll_iff {as : List NormalAtom}
    {x : interpretation.Domain} :
    x ∈ interpretation.extensionAll as ↔
      ∀ a ∈ as, x ∈ interpretation.atomExtension a := by
  induction as with
  | nil => simp [extensionAll]
  | cons a as induction => simp [extensionAll, induction]

@[simp] theorem extension_top :
    interpretation.extension .top = Set.univ := by
  simp [extension, NormalConcept.top, extensionAll]

@[simp] theorem extension_name (id : AtomId) :
    interpretation.extension (.name id) = interpretation.names id := by
  simp [extension, NormalConcept.name, extensionAll, atomExtension]

@[simp] theorem extension_restriction (role : RoleId)
    (filler : NormalConcept) :
    interpretation.extension (.restriction role filler) =
      {x | ∃ y, interpretation.roles role x y ∧
        y ∈ interpretation.extension filler} := by
  simp [extension, NormalConcept.restriction, extensionAll, atomExtension]

mutual

theorem atomExtension_subset (b a : NormalAtom)
    (above : b.subsumes a = true) :
    interpretation.atomExtension a ⊆ interpretation.atomExtension b := by
  cases b with
  | name b =>
      cases a with
      | name a =>
          simp only [NormalAtom.subsumes, beq_iff_eq] at above
          rw [above]
      | restriction role filler => simp [NormalAtom.subsumes] at above
  | restriction role filler =>
      cases a with
      | name a => simp [NormalAtom.subsumes] at above
      | restriction role' filler' =>
          simp only [NormalAtom.subsumes, Bool.and_eq_true, beq_iff_eq]
            at above
          obtain ⟨sameRole, fillerAbove⟩ := above
          simp only [atomExtension, sameRole]
          intro x holds
          obtain ⟨y, related, inFiller⟩ := holds
          exact ⟨y, related, extensionAll_subset filler filler' fillerAbove
            inFiller⟩

theorem extensionAll_subset (bs as : List NormalAtom)
    (above : NormalAtom.subsumesAll bs as = true) :
    interpretation.extensionAll as ⊆ interpretation.extensionAll bs := by
  cases bs with
  | nil => exact Set.subset_univ _
  | cons b bs =>
      simp only [NormalAtom.subsumesAll, Bool.and_eq_true, List.any_eq_true]
        at above
      obtain ⟨⟨a, member, headAbove⟩, tailAbove⟩ := above
      intro x holds
      exact ⟨atomExtension_subset b a headAbove
          (mem_extensionAll_iff.mp holds a member),
        extensionAll_subset bs as tailAbove holds⟩

end

/-- The concepts as elements.  A name holds of the concepts with this name among
their atoms, and the successors of a concept are the fillers of its
restrictions. -/
def ofConcepts : Interpretation.{u} where
  Domain := ULift NormalConcept
  names id := {x | .name id ∈ x.down.atoms}
  roles role x y := .restriction role y.down.atoms ∈ x.down.atoms

mutual

theorem mem_atomExtension_ofConcepts_iff (b : NormalAtom)
    (x : ofConcepts.{u}.Domain) :
    x ∈ ofConcepts.atomExtension b ↔
      ∃ a ∈ x.down.atoms, a.isBelow b = true := by
  cases b with
  | name b =>
      constructor
      · intro member
        exact ⟨.name b, member, NormalAtom.isBelow_refl _⟩
      · intro found
        obtain ⟨a, member, below⟩ := found
        cases a with
        | name a =>
            rw [NormalAtom.name_isBelow_name] at below
            rw [← below]
            exact member
        | restriction role filler => simp at below
  | restriction role filler =>
      simp only [atomExtension, Set.mem_ofPred_eq]
      constructor
      · intro holds
        obtain ⟨y, related, inFiller⟩ := holds
        refine ⟨.restriction role y.down.atoms, related, ?_⟩
        rw [NormalAtom.restriction_isBelow_restriction]
        exact ⟨rfl, (mem_extensionAll_ofConcepts_iff filler y).mp inFiller⟩
      · intro found
        obtain ⟨a, member, below⟩ := found
        cases a with
        | name a => simp at below
        | restriction role' filler' =>
            rw [NormalAtom.restriction_isBelow_restriction] at below
            obtain ⟨rfl, fillerBelow⟩ := below
            refine ⟨⟨⟨filler'⟩⟩, member, ?_⟩
            exact (mem_extensionAll_ofConcepts_iff filler ⟨⟨filler'⟩⟩).mpr
              fillerBelow

theorem mem_extensionAll_ofConcepts_iff (bs : List NormalAtom)
    (x : ofConcepts.{u}.Domain) :
    x ∈ ofConcepts.extensionAll bs ↔
      NormalAtom.subsumesAll bs x.down.atoms = true := by
  cases bs with
  | nil => simp [extensionAll, NormalAtom.subsumesAll]
  | cons b bs =>
      simp only [extensionAll, Set.mem_inter_iff, NormalAtom.subsumesAll,
        Bool.and_eq_true, List.any_eq_true]
      rw [mem_atomExtension_ofConcepts_iff b x,
        mem_extensionAll_ofConcepts_iff bs x]
      rfl

end

/-- Leaving out absorbed atoms changes no extension. -/
theorem extension_reduce (atoms : List NormalAtom) :
    interpretation.extension (.reduce atoms) =
      ⋂ a ∈ atoms, interpretation.atomExtension a := by
  apply Set.Subset.antisymm
  · have below : NormalAtom.subsumesAll atoms
        (NormalConcept.reduce atoms).atoms = true :=
      NormalAtom.subsumesAll_iff.mpr fun _ member =>
        NormalConcept.exists_mem_reduce member
    intro x holds
    exact Set.mem_iInter₂.mpr
      (mem_extensionAll_iff.mp (extensionAll_subset _ _ below holds))
  · intro x holds
    apply mem_extensionAll_iff.mpr
    intro a kept
    exact Set.mem_iInter₂.mp holds a (NormalConcept.mem_reduce.mp kept).1

theorem extension_conjunction (parts : List NormalConcept) :
    interpretation.extension (.conjunction parts) =
      ⋂ part ∈ parts, interpretation.extension part := by
  ext x
  rw [NormalConcept.conjunction, extension_reduce]
  simp only [Set.mem_iInter₂, NormalConcept.mem_foldr_insertOrdered,
    List.mem_flatMap, extension, mem_extensionAll_iff]
  constructor
  · intro all part inParts a inPart
    exact all a ⟨part, inParts, inPart⟩
  · intro all a member
    obtain ⟨part, inParts, inPart⟩ := member
    exact all part inParts a inPart

end Interpretation

namespace NormalConcept

/-- Structural subsumption is subsumption in all interpretations, where the
operations on concepts mean what they should.  In particular the reduction of a
conjunction changes no extension. -/
theorem isBelow_iff_extension_subset (c d : NormalConcept) :
    (c.isBelow d = true ↔ ∀ interpretation : Interpretation.{u},
      interpretation.extension c ⊆ interpretation.extension d) ∧
    ∀ interpretation : Interpretation.{u},
      interpretation.extension top = Set.univ ∧
      (∀ id, interpretation.extension (name id) = interpretation.names id) ∧
      (∀ role filler, interpretation.extension (restriction role filler) =
        {x | ∃ y, interpretation.roles role x y ∧
          y ∈ interpretation.extension filler}) ∧
      (∀ atoms, interpretation.extension (reduce atoms) =
        ⋂ a ∈ atoms, interpretation.atomExtension a) ∧
      ∀ parts, interpretation.extension (conjunction parts) =
        ⋂ part ∈ parts, interpretation.extension part := by
  constructor
  · constructor
    · intro below interpretation
      exact Interpretation.extensionAll_subset d.atoms c.atoms below
    · intro included
      have self : (⟨c⟩ : Interpretation.ofConcepts.{u}.Domain) ∈
          Interpretation.ofConcepts.extension c :=
        (Interpretation.mem_extensionAll_ofConcepts_iff c.atoms ⟨c⟩).mpr
          (isBelow_refl c)
      exact (Interpretation.mem_extensionAll_ofConcepts_iff d.atoms ⟨c⟩).mp
        (included _ self)
  · intro interpretation
    exact ⟨Interpretation.extension_top, Interpretation.extension_name,
      Interpretation.extension_restriction, Interpretation.extension_reduce,
      Interpretation.extension_conjunction⟩

end NormalConcept

end ConceptUnification
