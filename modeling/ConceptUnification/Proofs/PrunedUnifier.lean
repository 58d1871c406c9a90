import ConceptUnification.Proofs.UnifierValue

/-!
# Unifiers without redundant atoms

Pruning looks at the values under the unpruned bindings, while the unifier
expands the pruned ones everywhere.  Both have the same values on all atoms,
since values are determined by heights and every conjunction keeps its value.
-/

namespace ConceptUnification

namespace NormalAtom

mutual

/-- The concept names of an atom, on all levels. -/
def names : NormalAtom → List AtomId
  | .name id => [id]
  | .restriction _ filler => namesAll filler

/-- The concept names of a list of atoms. -/
def namesAll : List NormalAtom → List AtomId
  | [] => []
  | a :: as => names a ++ namesAll as

end

theorem mem_namesAll {as : List NormalAtom} {n : AtomId} :
    n ∈ namesAll as ↔ ∃ a ∈ as, n ∈ a.names := by
  induction as with
  | nil => simp [namesAll]
  | cons a as induction => simp [namesAll, induction]

end NormalAtom

namespace NormalConcept

/-- The concept names of a normal form, on all levels. -/
def names (c : NormalConcept) : List AtomId :=
  NormalAtom.namesAll c.atoms

@[simp] theorem names_name (id : AtomId) :
    (NormalConcept.name id).names = [id] := by
  simp [names, NormalConcept.name, NormalAtom.namesAll, NormalAtom.names]

@[simp] theorem names_restriction (role : RoleId) (filler : NormalConcept) :
    (NormalConcept.restriction role filler).names = filler.names := by
  simp [names, NormalConcept.restriction, NormalAtom.namesAll,
    NormalAtom.names]

theorem exists_of_mem_names_conjunction {parts : List NormalConcept}
    {n : AtomId} (member : n ∈ (conjunction parts).names) :
    ∃ part ∈ parts, n ∈ part.names := by
  obtain ⟨a, inConjunction, inAtom⟩ := NormalAtom.mem_namesAll.mp member
  obtain ⟨part, inParts, inPart⟩ :=
    exists_mem_of_mem_conjunction inConjunction
  exact ⟨part, inParts, NormalAtom.mem_namesAll.mpr ⟨a, inPart, inAtom⟩⟩

end NormalConcept

/-- No variable is left in the values of an acyclic assignment. -/
theorem Evaluates.variableFree {store : AtomStore}
    {conjunctionOf : AtomId → AtomSet} {value : AtomId → NormalConcept}
    {assignment : Assignment} {height : AtomId → Nat}
    (evaluates : Evaluates store conjunctionOf value)
    (ranked : assignment.Ranked store height)
    (proper : assignment.Proper store) (wellFormed : store.WellFormed)
    (within : ∀ x atom, atom ∈ conjunctionOf x →
      assignment.contains x atom = true)
    {id : AtomId} (stored : id < store.size) :
    ∀ n ∈ (value id).names, store.isVariable n = false := by
  -- Heights decrease from variables to subsumers and into restrictions.
  induction bound : height id using Nat.strongRecOn generalizing id with
  | _ bound induction =>
      subst bound
      intro n member
      obtain ⟨atom, present⟩ := AtomStore.exists_atom? stored
      cases atom with
      | name symbol =>
          by_cases varying : store.isVariable id = true
          · rw [evaluates.varying id varying] at member
            obtain ⟨part, inParts, inPart⟩ :=
              NormalConcept.exists_of_mem_names_conjunction member
            obtain ⟨atom, chosen, rfl⟩ := List.mem_map.mp inParts
            have pair := within id atom chosen
            exact induction _ (ranked.subsumer id atom pair)
              (proper.stored id atom pair) rfl n inPart
          · rw [Bool.not_eq_true] at varying
            rw [evaluates.constant id symbol present varying,
              NormalConcept.names_name, List.mem_singleton] at member
            rw [member]
            exact varying
      | restriction role filler =>
          obtain ⟨earlier, _⟩ := wellFormed id role filler present
          rw [evaluates.restriction id role filler present,
            NormalConcept.names_restriction] at member
          exact induction _ (ranked.filler id role filler present)
            (Nat.lt_trans earlier stored) rfl n member

namespace Unifier

/-- The unifier that binds each variable of a goal to all its subsumers. -/
def unpruned (goal : Goal) (assignment : Assignment) : Unifier :=
  ⟨goal.allVariables.map fun x => ⟨x, assignment.subsumers x⟩⟩

/-- Substitution of the bindings into an atom, again into what they bring, until
no bound variable is left. -/
inductive Expands (unifier : Unifier) (store : AtomStore) :
    AtomId → NormalConcept → Prop where
  | bound {x : AtomId} {binding : Binding} {values : AtomId → NormalConcept}
      (varying : store.isVariable x = true)
      (found : unifier.binding? x = some binding)
      (parts : ∀ atom ∈ binding.conjunction,
        Expands unifier store atom (values atom)) :
      Expands unifier store x (conjoin values binding.conjunction)
  | unbound {x : AtomId} (varying : store.isVariable x = true)
      (missing : unifier.binding? x = none) : Expands unifier store x (.name x)
  | constant {id : AtomId} {symbol : String}
      (named : store.atom? id = some (.name symbol))
      (nonVariable : store.isVariable id = false) :
      Expands unifier store id (.name id)
  | restriction {id filler : AtomId} {role : RoleId} {c : NormalConcept}
      (present : store.atom? id = some (.restriction role filler))
      (inner : Expands unifier store filler c) :
      Expands unifier store id (.restriction role c)

theorem find?_map_binding {conjunctionOf : AtomId → AtomSet} {x : AtomId}
    {names : List AtomId} (member : x ∈ names) :
    (names.map fun y => Binding.mk y (conjunctionOf y)).find?
      (·.name == x) = some ⟨x, conjunctionOf x⟩ := by
  induction names with
  | nil => cases member
  | cons y names induction =>
      rw [List.map_cons, List.find?_cons]
      by_cases same : y = x
      · subst same
        simp
      · rw [beq_eq_false_iff_ne.mpr same]
        exact induction ((List.mem_cons.mp member).resolve_left (Ne.symm same))

section Values

variable {goal : Goal} {unifier : Unifier} {conjunctionOf : AtomId → AtomSet}
  {value : AtomId → NormalConcept}
  (bindings : unifier.bindings =
    goal.allVariables.map fun x => ⟨x, conjunctionOf x⟩)

include bindings

theorem binding?_eq_some {x : AtomId} (member : x ∈ goal.allVariables) :
    unifier.binding? x = some ⟨x, conjunctionOf x⟩ := by
  rw [binding?, bindings]
  exact find?_map_binding member

variable (evaluates : Evaluates goal.store conjunctionOf value)

include evaluates

/-- Whatever substitution comes to is the value. -/
theorem Expands.eq_value {id : AtomId} {c : NormalConcept}
    (expands : unifier.Expands goal.store id c) : c = value id := by
  induction expands with
  | @bound x binding values varying found _ induction =>
      rw [binding?_eq_some bindings (Goal.mem_allVariables.mpr varying)] at found
      cases found
      rw [evaluates.varying x varying]
      exact conjoin_congr induction
  | @unbound x varying missing =>
      rw [binding?_eq_some bindings
        (Goal.mem_allVariables.mpr varying)] at missing
      cases missing
  | constant named nonVariable =>
      exact (evaluates.constant _ _ named nonVariable).symm
  | restriction present _ induction =>
      rw [evaluates.restriction _ _ _ present, induction]

variable {assignment : Assignment} {height : AtomId → Nat}
  (ranked : assignment.Ranked goal.store height)
  (proper : assignment.Proper goal.store)
  (wellFormed : goal.store.WellFormed)
  (within : ∀ x atom, atom ∈ conjunctionOf x →
    assignment.contains x atom = true)

include ranked proper wellFormed within

/-- Substitution comes to an end on every atom. -/
theorem expands_value {id : AtomId} (stored : id < goal.store.size) :
    unifier.Expands goal.store id (value id) := by
  induction bound : height id using Nat.strongRecOn generalizing id with
  | _ bound induction =>
      subst bound
      obtain ⟨atom, present⟩ := AtomStore.exists_atom? stored
      cases atom with
      | name symbol =>
          by_cases varying : goal.store.isVariable id = true
          · rw [evaluates.varying id varying]
            refine .bound varying (binding?_eq_some bindings
              (Goal.mem_allVariables.mpr varying)) fun atom chosen => ?_
            have pair := within id atom chosen
            exact induction _ (ranked.subsumer id atom pair)
              (proper.stored id atom pair) rfl
          · rw [Bool.not_eq_true] at varying
            rw [evaluates.constant id symbol present varying]
            exact .constant present varying
      | restriction role filler =>
          obtain ⟨earlier, _⟩ := wellFormed id role filler present
          rw [evaluates.restriction id role filler present]
          exact .restriction present (induction _
            (ranked.filler id role filler present)
            (Nat.lt_trans earlier stored) rfl)

theorem expands_iff {id : AtomId} (stored : id < goal.store.size)
    {c : NormalConcept} :
    unifier.Expands goal.store id c ↔ c = value id := by
  constructor
  · exact Expands.eq_value bindings evaluates
  · rintro rfl
    exact expands_value bindings evaluates ranked proper wellFormed within
      stored

theorem expand?_eq_some {id : AtomId} (stored : id < goal.store.size) :
    unifier.expand? goal.store id = some (value id) := by
  rw [expand?, substitution, bindings]
  exact Substitution.atom?_ofBindings evaluates wellFormed ranked proper within
    (fun x => Goal.mem_allVariables.mpr) stored

end Values

/-- Turning an acyclic assignment into a unifier keeps its substitution: each
variable of the goal has one binding, atoms have the variable-free values that
the unpruned bindings give them, and the bindings hold the subsumers that no
other one implies. -/
theorem ofAssignment_keeps_substitution {goal : Goal}
    (obtained : goal.Obtained) {assignment : Assignment}
    (choices : ∀ x atom, assignment.contains x atom = true →
      x ∈ goal.allVariables ∧ atom ∈ goal.nonVariableAtoms)
    (acyclic : assignment.Acyclic goal.store) :
    (ofAssignment goal assignment).bindings.map Binding.name =
      goal.allVariables ∧
    goal.allVariables.Pairwise (· < ·) ∧
    ∃ value,
      (∀ id, id < goal.store.size →
        (ofAssignment goal assignment).expand? goal.store id =
          some (value id) ∧
        (unpruned goal assignment).expand? goal.store id = some (value id) ∧
        (∀ c, (ofAssignment goal assignment).Expands goal.store id c ↔
          c = value id) ∧
        (∀ c, (unpruned goal assignment).Expands goal.store id c ↔
          c = value id) ∧
        ∀ n ∈ (value id).names, goal.store.isVariable n = false) ∧
      ∀ x ∈ goal.allVariables, ∃ binding,
        (ofAssignment goal assignment).binding? x = some binding ∧
        binding.name = x ∧
        Reduces value (assignment.subsumers x) binding.conjunction := by
  have wellFormed := obtained.wellFormed
  have proper := Assignment.proper_iff.mpr choices
  have ranked := acyclic.ranked wellFormed.store proper
  obtain ⟨value, evaluates⟩ := Assignment.exists_evaluates ranked
  obtain ⟨conjunctionOf, bindings, reduces, pruned⟩ :=
    exists_pruned wellFormed acyclic proper evaluates
  have within : ∀ x atom, atom ∈ assignment.subsumers x →
      assignment.contains x atom = true := fun _ _ => Assignment.mem_subsumers.mp
  have within' : ∀ x atom, atom ∈ conjunctionOf x →
      assignment.contains x atom = true := fun x atom member =>
    within x atom ((reduces x).kept atom member)
  refine ⟨?_, ?_, value, ?_, ?_⟩
  · rw [bindings, List.map_map]
    exact List.map_id _
  · exact List.Pairwise.filter _ List.pairwise_lt_range
  · intro id stored
    refine ⟨?_, ?_, fun c => ?_, fun c => ?_, ?_⟩
    · exact expand?_eq_some bindings pruned ranked proper wellFormed.store
        within' stored
    · exact expand?_eq_some rfl evaluates ranked proper wellFormed.store within
        stored
    · exact expands_iff bindings pruned ranked proper wellFormed.store within'
        stored
    · exact expands_iff rfl evaluates ranked proper wellFormed.store within
        stored
    · exact evaluates.variableFree ranked proper wellFormed.store within stored
  · intro x member
    exact ⟨_, binding?_eq_some bindings member, rfl, reduces x⟩

/-- The variant has two subsumers of the variable `8`, and the unifier and the
unpruned bindings expand it to the same value. -/
theorem ofAssignment_keeps_substitution_sampleVariant :
    ∃ goal, ((GoalBuilder.new Goal.sampleBackground {}).performAll
        Goal.sampleCalls).build = .ok goal ∧
      Goal.sampleVariant.contains 8 3 = true ∧
      Goal.sampleVariant.contains 8 7 = true ∧
      ∃ c binding,
        (ofAssignment goal Goal.sampleVariant).expand? goal.store 8 = some c ∧
        (unpruned goal Goal.sampleVariant).expand? goal.store 8 = some c ∧
        (ofAssignment goal Goal.sampleVariant).Expands goal.store 8 c ∧
        (ofAssignment goal Goal.sampleVariant).binding? 8 = some binding ∧
        ∀ atom ∈ binding.conjunction,
          Goal.sampleVariant.contains 8 atom = true := by
  obtain ⟨goal, built, _, _, _, solution⟩ := Goal.exists_build_sampleCalls
  have first : Goal.sampleVariant.contains 8 3 = true := by decide
  have second : Goal.sampleVariant.contains 8 7 = true := by decide
  have member := (solution.choices 8 7 second).1
  obtain ⟨_, _, value, expanded, reduced⟩ := ofAssignment_keeps_substitution
    (.built built) solution.choices solution.acyclic
  obtain ⟨pruned, unpruned, expands, _⟩ := expanded 8
    (AtomStore.lt_size_of_isVariable (Goal.mem_allVariables.mp member))
  obtain ⟨binding, found, _, reduces⟩ := reduced 8 member
  exact ⟨goal, built, first, second, value 8, binding, pruned, unpruned,
    (expands _).mpr rfl, found, fun atom inBinding =>
      Assignment.mem_subsumers.mp (reduces.kept atom inBinding)⟩

end Unifier

end ConceptUnification
