import ConceptUnification.Proofs.NormalConjunction

/-!
# Laws of conjunction

Concepts are constructed from the top concept and concept names by restrictions
and conjunctions.  What is constructed is canonical, so a conjunction is
determined by its lower bounds: neither the order nor the grouping of its parts
matters, nor do parts that lie above others.
-/

namespace ConceptUnification

namespace NormalConcept

/-- The concept is built by the operations on normal forms. -/
inductive Constructed : NormalConcept → Prop
  | top : Constructed top
  | name (id : AtomId) : Constructed (name id)
  | restriction (role : RoleId) {filler : NormalConcept}
      (constructed : Constructed filler) :
      Constructed (restriction role filler)
  | conjunction {parts : List NormalConcept}
      (constructed : ∀ part ∈ parts, Constructed part) :
      Constructed (conjunction parts)

theorem Constructed.canonical {c : NormalConcept}
    (constructed : c.Constructed) : c.Canonical := by
  induction constructed with
  | top => exact canonical_top
  | name id => exact canonical_name id
  | restriction role _ induction => exact induction.restriction role
  | conjunction _ induction => exact canonical_conjunction induction

end NormalConcept

/-- Concepts that are grouped into nested conjunctions. -/
inductive Nesting where
  | part (c : NormalConcept)
  | group (members : List Nesting)

namespace Nesting

mutual

/-- The concept that the conjunctions give, from the innermost ones outwards. -/
def value : Nesting → NormalConcept
  | .part c => c
  | .group members => .conjunction (values members)

/-- The values of the members of a group. -/
def values : List Nesting → List NormalConcept
  | [] => []
  | member :: members => value member :: values members

end

mutual

/-- The concepts that are grouped. -/
def parts : Nesting → List NormalConcept
  | .part c => [c]
  | .group members => partsAll members

/-- The concepts that the members of a group hold. -/
def partsAll : List Nesting → List NormalConcept
  | [] => []
  | member :: members => parts member ++ partsAll members

end

mutual

/-- However concepts are grouped, the value is their greatest lower bound. -/
theorem isBelow_value_iff (nesting : Nesting) {c : NormalConcept} :
    c.isBelow nesting.value = true ↔
      ∀ part ∈ nesting.parts, c.isBelow part = true := by
  cases nesting with
  | part d => simp [value, parts]
  | group members =>
      rw [value, parts, NormalConcept.isBelow_conjunction_iff]
      exact isBelow_values_iff members

theorem isBelow_values_iff (members : List Nesting) {c : NormalConcept} :
    (∀ d ∈ values members, c.isBelow d = true) ↔
      ∀ part ∈ partsAll members, c.isBelow part = true := by
  cases members with
  | nil => simp [values, partsAll]
  | cons member members =>
      rw [values, partsAll, List.forall_mem_cons, List.forall_mem_append,
        isBelow_value_iff member, isBelow_values_iff members]

end

mutual

theorem canonical_value (nesting : Nesting)
    (canonical : ∀ part ∈ nesting.parts, part.Canonical) :
    nesting.value.Canonical := by
  cases nesting with
  | part c => exact canonical c (by simp [parts])
  | group members =>
      rw [value]
      apply NormalConcept.canonical_conjunction
      exact canonical_values members canonical

theorem canonical_values (members : List Nesting)
    (canonical : ∀ part ∈ partsAll members, part.Canonical) :
    ∀ c ∈ values members, c.Canonical := by
  cases members with
  | nil => simp [values]
  | cons member members =>
      rw [partsAll, List.forall_mem_append] at canonical
      rw [values, List.forall_mem_cons]
      exact ⟨canonical_value member canonical.1,
        canonical_values members canonical.2⟩

end

theorem value_eq_conjunction {nesting : Nesting} {others : List NormalConcept}
    (canonical : ∀ part ∈ nesting.parts, part.Canonical)
    (othersCanonical : ∀ other ∈ others, other.Canonical)
    (same : ∀ c : NormalConcept,
      (∀ part ∈ nesting.parts, c.isBelow part = true) ↔
        ∀ other ∈ others, c.isBelow other = true) :
    nesting.value = .conjunction others := by
  apply (nesting.canonical_value canonical).eq_of_isBelow_iff
    (NormalConcept.canonical_conjunction othersCanonical)
  intro c
  rw [nesting.isBelow_value_iff, NormalConcept.isBelow_conjunction_iff]
  exact same c

end Nesting

namespace NormalConcept

/-- The conjunction is the greatest lower bound of its parts.  It stays the same
if parts are reordered, repeated or grouped into nested conjunctions, and if the
top concept or a concept above some part is added.  Restrictions over a role are
ordered like their fillers. -/
theorem conjunction_meet {parts : List NormalConcept}
    (constructed : ∀ part ∈ parts, part.Constructed) :
    (∀ part ∈ parts, (conjunction parts).isBelow part = true) ∧
    (∀ c : NormalConcept, (∀ part ∈ parts, c.isBelow part = true) →
      c.isBelow (conjunction parts) = true) ∧
    (∀ others : List NormalConcept, (∀ c, c ∈ others ↔ c ∈ parts) →
      conjunction others = conjunction parts) ∧
    (∀ nesting : Nesting, (∀ c, c ∈ nesting.parts ↔ c ∈ parts) →
      nesting.value = conjunction parts) ∧
    conjunction (top :: parts) = conjunction parts ∧
    (∀ upper : NormalConcept, upper.Constructed →
      (∃ part ∈ parts, part.isBelow upper = true) →
        conjunction (upper :: parts) = conjunction parts) ∧
    ∀ (role : RoleId) (c d : NormalConcept),
      (restriction role c).isBelow (restriction role d) = true ↔
        c.isBelow d = true := by
  have canonical : ∀ part ∈ parts, part.Canonical :=
    fun part member => (constructed part member).canonical
  refine ⟨fun part => conjunction_isBelow_part,
    fun c => isBelow_conjunction_iff.mpr, ?_, ?_, ?_, ?_, ?_⟩
  · intro others same
    apply conjunction_eq_of_isBelow_iff _ canonical
    · simp only [same, implies_true]
    · intro other member
      exact canonical other ((same other).mp member)
  · intro nesting same
    apply Nesting.value_eq_conjunction _ canonical
    · simp only [same, implies_true]
    · intro part member
      exact canonical part ((same part).mp member)
  · apply conjunction_eq_of_isBelow_iff _ canonical
    · simp
    · exact List.forall_mem_cons.mpr ⟨canonical_top, canonical⟩
  · intro upper upperConstructed above
    obtain ⟨part, member, below⟩ := above
    apply conjunction_eq_of_isBelow_iff _ canonical
    · intro c
      rw [List.forall_mem_cons]
      constructor
      · exact fun all => all.2
      · exact fun all => ⟨isBelow_trans (all part member) below, all⟩
    · exact List.forall_mem_cons.mpr ⟨upperConstructed.canonical, canonical⟩
  · simp

theorem conjunction_meet_nested :
    (∀ part ∈ [name 0, restriction 0 (name 1), restriction 0 top],
      part.Constructed) ∧
    (Nesting.group [.group [.part (restriction 0 top), .part (name 0)],
        .part (restriction 0 (name 1)), .part (name 0)]).value =
      conjunction [name 0, restriction 0 (name 1), restriction 0 top] := by
  have constructed : ∀ part ∈ [name 0, restriction 0 (name 1),
      restriction 0 top], part.Constructed := by
    simp only [List.forall_mem_cons, List.not_mem_nil, false_imp_iff,
      implies_true, and_true]
    exact ⟨.name 0, .restriction 0 (.name 1), .restriction 0 .top⟩
  obtain ⟨_, _, _, nested, _⟩ := conjunction_meet constructed
  refine ⟨constructed, ?_⟩
  apply nested
  intro c
  simp only [Nesting.parts, Nesting.partsAll]
  grind

end NormalConcept

end ConceptUnification
