import ConceptUnification.Proofs.ConjunctionLaws

/-!
# Ascending normal forms

Atoms and concepts are compared by two functions that call each other.  Both
comparisons are linear orders that tell all different values apart.  In what is
constructed the atoms ascend strictly, in the concept itself and in the fillers
of its restrictions at any depth.  So the set of atoms determines the form, in
whatever order they were put in.
-/

namespace ConceptUnification

/-- A comparison that puts all values into one line and tells different ones
apart. -/
structure LinearComparison {α : Type} (cmp : α → α → Ordering) : Prop where
  eq_iff : ∀ a b, cmp a b = .eq ↔ a = b
  swap : ∀ a b, cmp a b = (cmp b a).swap
  transitive : ∀ a b c, (cmp a b).isLE = true → (cmp b c).isLE = true →
    (cmp a c).isLE = true
  total : ∀ a b, (cmp a b).isLE = true ∨ (cmp b a).isLE = true

theorem linearComparison {α : Type} (cmp : α → α → Ordering)
    [Std.TransCmp cmp] [Std.LawfulEqCmp cmp] : LinearComparison cmp where
  eq_iff := fun _ _ => Std.LawfulEqCmp.compare_eq_iff_eq
  swap := fun _ _ => Std.OrientedCmp.eq_swap
  transitive := fun _ _ _ => Std.TransCmp.isLE_trans
  total := by
    intro a b
    have swapped : cmp a b = (cmp b a).swap := Std.OrientedCmp.eq_swap
    rw [swapped]
    cases cmp b a <;> simp

namespace NormalConcept

instance : Std.LawfulEqCmp order where
  compare_self := NormalAtom.orderAll_self _
  eq_of_compare {c d} same := by
    have atoms := NormalAtom.eq_of_orderAll_eq c.atoms d.atoms same
    cases c
    cases d
    rw [NormalConcept.mk.injEq]
    exact atoms

instance : Std.TransCmp order :=
  NormalAtom.transCmp_of_lt_trans
    (fun _ _ => NormalAtom.orderAll_eq_swap _ _)
    (fun _ _ _ => NormalAtom.orderAll_lt_trans _ _ _)

/-- The second concept is the first one, or the filler of a restriction in it at
some depth. -/
inductive HasLevel : NormalConcept → NormalConcept → Prop
  | whole (c : NormalConcept) : HasLevel c c
  | filler {c d : NormalConcept} {role : RoleId} {atoms : List NormalAtom}
      (member : .restriction role atoms ∈ c.atoms) (later : HasLevel ⟨atoms⟩ d) :
      HasLevel c d

theorem Constructed.filler {c : NormalConcept} (constructed : c.Constructed)
    {role : RoleId} {atoms : List NormalAtom}
    (member : .restriction role atoms ∈ c.atoms) :
    Constructed ⟨atoms⟩ := by
  induction constructed with
  | top => cases member
  | name id => cases List.mem_singleton.mp member
  | restriction role' constructed _ =>
      cases List.mem_singleton.mp member
      exact constructed
  | conjunction _ induction =>
      obtain ⟨part, inParts, inPart⟩ := exists_mem_of_mem_conjunction member
      exact induction part inParts inPart

theorem Constructed.level {c d : NormalConcept} (constructed : c.Constructed)
    (level : c.HasLevel d) : d.Constructed := by
  induction level with
  | whole => exact constructed
  | filler member _ induction => exact induction (constructed.filler member)

/-- Only the set of all atoms of the parts counts for a conjunction. -/
theorem conjunction_eq_of_mem_iff {parts others : List NormalConcept}
    (same : ∀ a, (∃ part ∈ parts, a ∈ part.atoms) ↔
      ∃ other ∈ others, a ∈ other.atoms) :
    conjunction parts = conjunction others := by
  have sorted : (parts.flatMap atoms).foldr (insertOrdered NormalAtom.order) [] =
      (others.flatMap atoms).foldr (insertOrdered NormalAtom.order) [] := by
    apply eq_of_increasing_of_mem_iff (pairwise_foldr_insertOrdered _)
      (pairwise_foldr_insertOrdered _)
    intro a
    simp only [mem_foldr_insertOrdered, List.mem_flatMap]
    exact same a
  rw [conjunction, conjunction, sorted]

/-- The comparisons of atoms and of concepts are linear orders in which only
equal values compare as equal.  Names come before restrictions, names are
ordered by number, restrictions by role and then by filler, and concepts
lexicographically by their atoms.  At every level of a constructed concept the
atoms ascend strictly, so two constructed concepts with the same atoms are
equal, and so are conjunctions over the same atoms in any order. -/
theorem linear_order_of_ascending_forms :
    (LinearComparison NormalAtom.order ∧
      LinearComparison NormalConcept.order) ∧
    ((∀ a b : AtomId, (NormalAtom.name a).order (.name b) = compare a b) ∧
      (∀ (a : AtomId) (role : RoleId) (filler : List NormalAtom),
        (NormalAtom.name a).order (.restriction role filler) = .lt) ∧
      (∀ (role role' : RoleId) (filler filler' : NormalConcept),
        (NormalAtom.restriction role filler.atoms).order
            (.restriction role' filler'.atoms) = .lt ↔
          role < role' ∨ role = role' ∧ filler.order filler' = .lt) ∧
      ∀ c d : NormalConcept, c.order d = .lt ↔
        List.Lex (fun a b => a.order b = .lt) c.atoms d.atoms) ∧
    (∀ c : NormalConcept, c.Constructed → ∀ level, c.HasLevel level →
      level.atoms.Pairwise fun a b => a.order b = .lt) ∧
    (∀ c d : NormalConcept, c.Constructed → d.Constructed →
      (∀ a, a ∈ c.atoms ↔ a ∈ d.atoms) → c = d) ∧
    ∀ parts others : List NormalConcept,
      (∀ a, (∃ part ∈ parts, a ∈ part.atoms) ↔
        ∃ other ∈ others, a ∈ other.atoms) →
      conjunction parts = conjunction others := by
  refine ⟨⟨linearComparison _, linearComparison _⟩, ⟨?_, ?_, ?_, ?_⟩, ?_, ?_, ?_⟩
  · intro a b
    rw [NormalAtom.order]
  · intro a role filler
    rw [NormalAtom.order]
  · intro role role' filler filler'
    rw [NormalAtom.order, Ordering.then_eq_lt, Nat.compare_eq_lt,
      Nat.compare_eq_eq]
    rfl
  · intro c d
    exact NormalAtom.orderAll_eq_lt_iff
  · intro c constructed level inside
    exact (constructed.level inside).canonical.increasing
  · intro c d left right same
    have atoms := eq_of_increasing_of_mem_iff left.canonical.increasing
      right.canonical.increasing same
    cases c
    cases d
    rw [NormalConcept.mk.injEq]
    exact atoms
  · intro parts others same
    exact conjunction_eq_of_mem_iff same

theorem linear_order_of_ascending_forms_nested :
    let filler := conjunction [name 2, restriction 0 top, name 1]
    let early := conjunction [name 0, restriction 0 filler]
    let late := conjunction [restriction 0 filler, name 0]
    early.Constructed ∧ late.Constructed ∧ early.HasLevel filler ∧
      (filler.atoms.Pairwise fun a b => a.order b = .lt) ∧
      (name 1).order filler = .lt ∧ filler.order early = .gt ∧
      early = late := by
  intro filler early late
  have inner : filler.Constructed := by
    refine .conjunction ?_
    simp only [List.forall_mem_cons, List.not_mem_nil, false_imp_iff,
      implies_true, and_true]
    exact ⟨.name 2, .restriction 0 .top, .name 1⟩
  have constructed : ∀ parts : List NormalConcept,
      (∀ part ∈ parts, part = name 0 ∨ part = restriction 0 filler) →
        (conjunction parts).Constructed := by
    intro parts members
    refine .conjunction fun part member => ?_
    rcases members part member with rfl | rfl
    · exact .name 0
    · exact .restriction 0 inner
  have first : early.Constructed := constructed _ (by simp)
  have second : late.Constructed := constructed _ (by simp)
  have inside : early.HasLevel filler := by
    have member : .restriction 0 filler.atoms ∈ early.atoms := by
      decide +kernel
    exact .filler member (.whole _)
  obtain ⟨⟨_, concepts⟩, ⟨_, _, _, lexicographic⟩, ascending, determined,
    reordered⟩ := linear_order_of_ascending_forms
  have prefixed : (name 1).order filler = .lt :=
    (lexicographic _ _).mpr (by decide +kernel)
  refine ⟨first, second, inside, ascending early first filler inside, prefixed,
    ?_, determined early late first second ?_⟩
  · rw [concepts.swap]
    decide +kernel
  · intro a
    have same : early = late := by
      apply reordered
      intro a
      simp [or_comm]
    rw [same]

end NormalConcept

end ConceptUnification
