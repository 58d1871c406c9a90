import ConceptUnification.Proofs.ConjunctionLaws
import ConceptUnification.Proofs.UnifierValue

/-!
# Canonical values of unifiers

Whatever a unifier binds variables to, the values that it gives atoms are in
normal form.  So values are equivalent only if they are equal, and unifiers with
different keys differ in more than the form of their values.
-/

namespace ConceptUnification

/-- The results of a successful `mapM` come from the elements, and each of them
has one. -/
theorem exists_of_mapM {α β : Type} {f : α → Option β} {l : List α}
    {found : List β} (success : l.mapM f = some found) :
    (∀ b ∈ found, ∃ a ∈ l, f a = some b) ∧ ∀ a ∈ l, ∃ b, f a = some b := by
  induction l generalizing found with
  | nil =>
      rw [List.mapM_nil] at success
      cases success
      simp
  | cons a l induction =>
      rw [List.mapM_cons] at success
      obtain ⟨b, first, others⟩ := Option.bind_eq_some_iff.mp success
      obtain ⟨rest, later, same⟩ := Option.bind_eq_some_iff.mp others
      cases same
      obtain ⟨fromRest, fromList⟩ := induction later
      constructor
      · intro c member
        rcases List.mem_cons.mp member with rfl | inRest
        · exact ⟨a, List.mem_cons_self, first⟩
        · obtain ⟨a', inList, same⟩ := fromRest c inRest
          exact ⟨a', List.mem_cons_of_mem _ inList, same⟩
      · intro a' member
        rcases List.mem_cons.mp member with rfl | inList
        · exact ⟨b, first⟩
        · exact fromList a' inList

namespace Substitution

variable {substitution : Substitution}

theorem canonical_name? (known : ∀ pair ∈ substitution.values, pair.2.Canonical)
    {id : AtomId} {c : NormalConcept}
    (found : substitution.name? id = some c) : c.Canonical := by
  unfold name? at found
  split at found
  · next value =>
      cases found
      exact known _ (mem_of_lookup value)
  · split at found
    · cases found
    · cases found
      exact NormalConcept.canonical_name id

theorem canonical_atom? (known : ∀ pair ∈ substitution.values, pair.2.Canonical)
    {id : AtomId} {c : NormalConcept}
    (found : substitution.atom? id = some c) : c.Canonical := by
  unfold atom? at found
  split at found
  · cases found
  · exact canonical_name? known found
  · next role filler _ =>
      split at found
      · obtain ⟨inner, found', rfl⟩ := Option.map_eq_some_iff.mp found
        exact (canonical_name? known found').restriction role
      · cases found

theorem canonical_conjunction?
    (known : ∀ pair ∈ substitution.values, pair.2.Canonical)
    {conjunction : AtomSet} {c : NormalConcept}
    (found : substitution.conjunction? conjunction = some c) : c.Canonical := by
  obtain ⟨parts, evaluated, rfl⟩ := Option.map_eq_some_iff.mp found
  apply NormalConcept.canonical_conjunction
  intro part member
  obtain ⟨id, _, found⟩ := (exists_of_mapM evaluated).1 part member
  exact canonical_atom? known found

/-- All values that the rounds find are in normal form. -/
theorem canonical_resolve (substitution : Substitution)
    (known : ∀ pair ∈ substitution.values, pair.2.Canonical) :
    ∀ pair ∈ substitution.resolve.values, pair.2.Canonical := by
  fun_induction resolve substitution with
  | case1 => exact known
  | case2 substitution pair others found induction =>
      apply induction
      intro value member
      rcases List.mem_append.mp member with new | old
      · rw [← found] at new
        obtain ⟨binding, _, evaluated⟩ := List.mem_filterMap.mp new
        obtain ⟨c, found', rfl⟩ := Option.map_eq_some_iff.mp evaluated
        exact canonical_conjunction? known found'
      · exact known value old

end Substitution

namespace Unifier

theorem canonical_expand? {unifier : Unifier} {store : AtomStore} {id : AtomId}
    {c : NormalConcept} (found : unifier.expand? store id = some c) :
    c.Canonical :=
  Substitution.canonical_atom?
    (Substitution.canonical_resolve _ fun _ => by simp) found

section Keys

variable {goal : Goal} {unifier other : Unifier} {key key' : UnifierKey}

theorem exists_expand? (found : unifier.userKey? goal = some key) :
    ∀ x ∈ goal.userVariables, ∃ value,
      unifier.expand? goal.store x = some value := by
  intro x member
  obtain ⟨pair, paired⟩ := (exists_of_mapM found).2 x member
  obtain ⟨value, valued, _⟩ := Option.map_eq_some_iff.mp paired
  exact ⟨value, valued⟩

theorem eq_map_of_userKey? (found : unifier.userKey? goal = some key) :
    key = goal.userVariables.map fun x =>
      (x, (unifier.expand? goal.store x).getD default) := by
  apply forall_eq_some_of_mapM found
  intro x _ pair paired
  obtain ⟨value, valued, same⟩ := Option.map_eq_some_iff.mp paired
  rw [← same]
  simp [expand?, valued]

/-- Keys are equal exactly if the values of all user variables are
equivalent. -/
theorem key_eq_iff (found : unifier.userKey? goal = some key)
    (found' : other.userKey? goal = some key') :
    key = key' ↔ ∀ x ∈ goal.userVariables, ∃ value value',
      unifier.expand? goal.store x = some value ∧
        other.expand? goal.store x = some value' ∧
        value.isEquivalent value' = true := by
  rw [eq_map_of_userKey? found, eq_map_of_userKey? found', List.map_inj_left]
  constructor
  · intro same x member
    obtain ⟨value, valued⟩ := exists_expand? found x member
    obtain ⟨value', valued'⟩ := exists_expand? found' x member
    have equal : value = value' := by
      simpa [valued, valued'] using same x member
    refine ⟨value, value', valued, valued', ?_⟩
    simp [equal]
  · intro equivalent x member
    obtain ⟨value, value', valued, valued', below⟩ := equivalent x member
    have equal : value = value' :=
      ((canonical_expand? valued).isEquivalent_iff_eq
        (canonical_expand? valued')).mp below
    rw [valued, valued', equal]

/-- Unifiers with different keys have values for some user variable that are not
equivalent. -/
theorem exists_not_isEquivalent (found : unifier.userKey? goal = some key)
    (found' : other.userKey? goal = some key') (different : key ≠ key') :
    ∃ x ∈ goal.userVariables, ∃ value value',
      unifier.expand? goal.store x = some value ∧
        other.expand? goal.store x = some value' ∧
        value.isEquivalent value' = false := by
  by_contra none_
  apply different
  apply (key_eq_iff found found').mpr
  intro x member
  obtain ⟨value, valued⟩ := exists_expand? found x member
  obtain ⟨value', valued'⟩ := exists_expand? found' x member
  refine ⟨value, value', valued, valued', ?_⟩
  by_contra distinct
  exact none_ ⟨x, member, value, value', valued, valued',
    Bool.eq_false_iff.mpr distinct⟩

end Keys

end Unifier

namespace NormalConcept

/-- Constructed concepts are reduced at every depth, so equivalence is equality.
The keys of unifiers, which exist for acyclic assignments, are therefore equal
exactly if the values of all user variables are equivalent. -/
theorem isEquivalent_iff_eq_of_constructed {c d : NormalConcept}
    (first : c.Constructed) (second : d.Constructed) :
    c.Canonical ∧ c.isBelow c = true ∧
      (∀ e : NormalConcept, c.isBelow d = true → d.isBelow e = true →
        c.isBelow e = true) ∧
      (c.isEquivalent d = true ↔ c = d) ∧
      (∀ (goal : Goal) (unifier other : Unifier) (key key' : UnifierKey),
        unifier.userKey? goal = some key →
        other.userKey? goal = some key' →
        (key = key' ↔ ∀ x ∈ goal.userVariables, ∃ value value',
          unifier.expand? goal.store x = some value ∧
            other.expand? goal.store x = some value' ∧
            value.isEquivalent value' = true)) ∧
      ∀ (goal : Goal) (assignment : Assignment), goal.Obtained →
        assignment.Acyclic goal.store → assignment.Proper goal.store →
        ∃ key, (Unifier.ofAssignment goal assignment).userKey? goal =
          some key := by
  refine ⟨first.canonical, isBelow_refl c, fun e => isBelow_trans,
    first.canonical.isEquivalent_iff_eq second.canonical, ?_, ?_⟩
  · intro goal unifier other key key' found found'
    exact Unifier.key_eq_iff found found'
  · intro goal assignment obtained acyclic proper
    exact Unifier.exists_userKey?_ofAssignment obtained.wellFormed acyclic
      proper

theorem isEquivalent_iff_eq_of_constructed_reordered :
    (conjunction [restriction 0 top, name 0, restriction 0 (name 1)]) =
      conjunction [restriction 0 (name 1), name 0] ∧
    ∃ goal, ((GoalBuilder.new Goal.sampleBackground {}).performAll
        Goal.sampleCalls).build = .ok goal ∧
      ∃ key key',
        (Unifier.ofAssignment goal Goal.sampleSolution).userKey? goal =
          some key ∧
        (Unifier.ofAssignment goal Goal.sampleVariant).userKey? goal =
          some key' ∧
        (key = key' ↔ ∀ x ∈ goal.userVariables, ∃ value value',
          (Unifier.ofAssignment goal Goal.sampleSolution).expand? goal.store x =
              some value ∧
            (Unifier.ofAssignment goal Goal.sampleVariant).expand? goal.store
              x = some value' ∧
            value.isEquivalent value' = true) := by
  have longer : Constructed
      (conjunction [restriction 0 top, name 0, restriction 0 (name 1)]) := by
    apply Constructed.conjunction
    simp only [List.forall_mem_cons, List.not_mem_nil, false_imp_iff,
      implies_true, and_true]
    exact ⟨.restriction 0 .top, .name 0, .restriction 0 (.name 1)⟩
  have shorter : Constructed
      (conjunction [restriction 0 (name 1), name 0]) := by
    apply Constructed.conjunction
    simp only [List.forall_mem_cons, List.not_mem_nil, false_imp_iff,
      implies_true, and_true]
    exact ⟨.restriction 0 (.name 1), .name 0⟩
  obtain ⟨_, _, _, equivalent, keys, exists_⟩ :=
    isEquivalent_iff_eq_of_constructed longer shorter
  obtain ⟨goal, built, _, _, solution, variant⟩ :=
    Goal.exists_build_sampleCalls
  obtain ⟨key, found⟩ :=
    exists_ goal _ (.built built) solution.acyclic solution.proper
  obtain ⟨key', found'⟩ :=
    exists_ goal _ (.built built) variant.acyclic variant.proper
  refine ⟨equivalent.mp (by decide +kernel), goal, built, key, key', found,
    found', ?_⟩
  exact keys goal _ _ key key' found found'

end NormalConcept

end ConceptUnification
