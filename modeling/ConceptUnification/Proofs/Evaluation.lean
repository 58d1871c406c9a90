import ConceptUnification.Substitution
import ConceptUnification.Proofs.Dependency
import ConceptUnification.Proofs.NormalConjunction

/-!
# Values of atoms

`Evaluates` says what values atoms have when each variable stands for a
conjunction.  Acyclic assignments have exactly one such evaluation, and the
rounds of `Substitution.resolve` find it.
-/

namespace ConceptUnification

/-- The value of a conjunction of atoms with given values. -/
def conjoin (value : AtomId → NormalConcept) (conjunction : AtomSet) :
    NormalConcept :=
  .conjunction (conjunction.toList.map value)

/-- Each variable has the value of its conjunction, restrictions have the
values of their fillers, and constants stand for themselves. -/
structure Evaluates (store : AtomStore) (conjunctionOf : AtomId → AtomSet)
    (value : AtomId → NormalConcept) : Prop where
  varying : ∀ x, store.isVariable x = true →
    value x = conjoin value (conjunctionOf x)
  constant : ∀ id symbol, store.atom? id = some (.name symbol) →
    store.isVariable id = false → value id = .name id
  restriction : ∀ id role filler,
    store.atom? id = some (.restriction role filler) →
      value id = .restriction role (value filler)

/-- Constants stand for themselves and restrictions have the values of their
fillers, whatever the values of the variables are. -/
structure Interprets (store : AtomStore) (value : AtomId → NormalConcept) :
    Prop where
  constant : ∀ id symbol, store.atom? id = some (.name symbol) →
    store.isVariable id = false → value id = .name id
  restriction : ∀ id role filler,
    store.atom? id = some (.restriction role filler) →
      value id = .restriction role (value filler)

theorem Evaluates.interprets {store : AtomStore}
    {conjunctionOf : AtomId → AtomSet} {value : AtomId → NormalConcept}
    (evaluates : Evaluates store conjunctionOf value) :
    Interprets store value :=
  ⟨evaluates.constant, evaluates.restriction⟩

section Conjoin

variable {value : AtomId → NormalConcept} {conjunction : AtomSet}

theorem isBelow_conjoin_iff {c : NormalConcept} :
    c.isBelow (conjoin value conjunction) = true ↔
      ∀ atom ∈ conjunction, c.isBelow (value atom) = true := by
  simp [conjoin, NormalConcept.isBelow_conjunction_iff, OrderedSet.mem_iff]

theorem conjoin_isBelow_of_mem {atom : AtomId} (member : atom ∈ conjunction) :
    (conjoin value conjunction).isBelow (value atom) = true :=
  NormalConcept.conjunction_isBelow_part (List.mem_map_of_mem member)

theorem conjoin_isBelow_iff_exists {c : NormalConcept}
    (single : ∃ b, c.atoms = [b]) :
    (conjoin value conjunction).isBelow c = true ↔
      ∃ atom ∈ conjunction, (value atom).isBelow c = true := by
  obtain ⟨b, atoms⟩ := single
  obtain ⟨found⟩ := c
  subst atoms
  simp [conjoin, NormalConcept.conjunction_isBelow_singleton,
    OrderedSet.mem_iff]

@[simp] theorem conjoin_singleton_isBelow {atom : AtomId} {c : NormalConcept} :
    (conjoin value ({atom} : AtomSet)).isBelow c = true ↔
      (value atom).isBelow c = true := by
  constructor
  · intro below
    refine NormalConcept.isBelow_trans ?_ below
    rw [isBelow_conjoin_iff]
    intro other member
    rw [OrderedSet.mem_singleton.mp member]
    exact NormalConcept.isBelow_refl _
  · intro below
    refine NormalConcept.isBelow_trans ?_ below
    exact conjoin_isBelow_of_mem (OrderedSet.mem_singleton.mpr rfl)

theorem conjoin_congr {other : AtomId → NormalConcept}
    (same : ∀ atom ∈ conjunction, value atom = other atom) :
    conjoin value conjunction = conjoin other conjunction := by
  have equality : conjunction.toList.map value =
      conjunction.toList.map other := List.map_congr_left same
  rw [conjoin, conjoin, equality]

end Conjoin

/-- The value of an atom if concept names have the given values: a restriction
has the restriction of the value of its filler. -/
def AtomStore.valueOf (store : AtomStore) (named : AtomId → NormalConcept)
    (id : AtomId) : NormalConcept :=
  match store.restriction? id with
  | some (role, filler) => .restriction role (named filler)
  | none => named id

section ValueOf

variable {store : AtomStore} {named : AtomId → NormalConcept}

theorem AtomStore.valueOf_name {id : AtomId} {symbol : String}
    (present : store.atom? id = some (.name symbol)) :
    store.valueOf named id = named id := by
  simp [valueOf, restriction?, present]

theorem AtomStore.valueOf_restriction {id : AtomId} {role : RoleId}
    {filler : AtomId}
    (present : store.atom? id = some (.restriction role filler)) :
    store.valueOf named id = .restriction role (named filler) := by
  simp [valueOf, restriction?, present]

end ValueOf

namespace Interprets

variable {store : AtomStore} {value : AtomId → NormalConcept}

/-- The value of a non-variable atom has one atom on its top level. -/
theorem single (interprets : Interprets store value) {b : AtomId}
    (stored : b < store.size) (nonVariable : store.isVariable b = false) :
    ∃ atom, (value b).atoms = [atom] := by
  obtain ⟨found, present⟩ := AtomStore.exists_atom? stored
  cases found with
  | name symbol =>
      exact ⟨_, congrArg NormalConcept.atoms
        (interprets.constant b symbol present nonVariable)⟩
  | restriction role filler =>
      exact ⟨_, congrArg NormalConcept.atoms
        (interprets.restriction b role filler present)⟩

/-- Between different non-variable atoms, only restrictions over one role can
be related. -/
theorem nonVariable_isBelow_iff (interprets : Interprets store value)
    {a b : AtomId}
    (storedLower : a < store.size) (storedUpper : b < store.size)
    (lower : store.isVariable a = false) (upper : store.isVariable b = false)
    (different : a ≠ b) :
    (value a).isBelow (value b) = true ↔
      ∃ role filler filler', store.atom? a = some (.restriction role filler) ∧
        store.atom? b = some (.restriction role filler') ∧
        (value filler).isBelow (value filler') = true := by
  obtain ⟨found, present⟩ := AtomStore.exists_atom? storedLower
  obtain ⟨found', present'⟩ := AtomStore.exists_atom? storedUpper
  cases found with
  | name symbol =>
      have valueLower := interprets.constant a symbol present lower
      cases found' with
      | name symbol' =>
          have valueUpper := interprets.constant b symbol' present' upper
          simp [valueLower, valueUpper, present, different]
      | restriction role filler =>
          have valueUpper := interprets.restriction b role filler present'
          simp [valueLower, valueUpper, present]
  | restriction role filler =>
      have valueLower := interprets.restriction a role filler present
      cases found' with
      | name symbol' =>
          have valueUpper := interprets.constant b symbol' present' upper
          simp [valueLower, valueUpper, present']
      | restriction role' filler' =>
          have valueUpper := interprets.restriction b role' filler' present'
          simp only [valueLower, valueUpper, present, present',
            NormalConcept.restriction_isBelow_restriction, Option.some.injEq,
            Atom.restriction.injEq]
          constructor
          · rintro ⟨sameRole, below⟩
            exact ⟨role, filler, filler', ⟨rfl, rfl⟩, ⟨sameRole.symm, rfl⟩,
              below⟩
          · rintro ⟨_, _, _, ⟨rfl, rfl⟩, ⟨rfl, rfl⟩, below⟩
            exact ⟨rfl, below⟩

end Interprets

namespace Evaluates

variable {store : AtomStore} {conjunctionOf : AtomId → AtomSet}
  {value : AtomId → NormalConcept}

theorem isBelow_variable_iff (evaluates : Evaluates store conjunctionOf value)
    {x : AtomId} (varying : store.isVariable x = true) {c : NormalConcept} :
    c.isBelow (value x) = true ↔
      ∀ atom ∈ conjunctionOf x, c.isBelow (value atom) = true := by
  rw [evaluates.varying x varying, isBelow_conjoin_iff]

theorem variable_isBelow_of_mem
    (evaluates : Evaluates store conjunctionOf value) {x atom : AtomId}
    (varying : store.isVariable x = true) (member : atom ∈ conjunctionOf x) :
    (value x).isBelow (value atom) = true := by
  rw [evaluates.varying x varying]
  exact conjoin_isBelow_of_mem member

theorem variable_isBelow_iff (evaluates : Evaluates store conjunctionOf value)
    {x b : AtomId} (varying : store.isVariable x = true)
    (stored : b < store.size) (nonVariable : store.isVariable b = false) :
    (value x).isBelow (value b) = true ↔
      ∃ atom ∈ conjunctionOf x, (value atom).isBelow (value b) = true := by
  rw [evaluates.varying x varying]
  exact conjoin_isBelow_iff_exists
    (evaluates.interprets.single stored nonVariable)

/-- The same in terms of what the two atoms restrict. -/
theorem nonVariable_isBelow_iff_match
    (evaluates : Evaluates store conjunctionOf value) {a b : AtomId}
    (storedLower : a < store.size) (storedUpper : b < store.size)
    (lower : store.isVariable a = false) (upper : store.isVariable b = false)
    (different : a ≠ b) :
    (value a).isBelow (value b) = true ↔
      match store.restriction? a, store.restriction? b with
      | some (role, filler), some (role', filler') =>
          role = role' ∧ (value filler).isBelow (value filler') = true
      | _, _ => False := by
  rw [evaluates.interprets.nonVariable_isBelow_iff storedLower storedUpper
    lower upper different]
  simp only [← AtomStore.restriction?_eq_some_iff]
  cases store.restriction? a with
  | none => simp
  | some pair =>
      cases store.restriction? b with
      | none => simp
      | some pair' =>
          constructor
          · rintro ⟨_, _, _, ⟨⟩, ⟨⟩, below⟩
            exact ⟨rfl, below⟩
          · rintro ⟨sameRole, below⟩
            refine ⟨pair.1, pair.2, pair'.2, rfl, ?_, below⟩
            rw [sameRole]

end Evaluates

namespace Assignment

/-- The values within a number of steps from variables to their subsumers and
from restrictions to their fillers. -/
def valueWithin (assignment : Assignment) (store : AtomStore) :
    Nat → AtomId → NormalConcept
  | 0, _ => .top
  | steps + 1, id =>
      match store.atom? id with
      | none => .top
      | some (.name _) =>
          if store.isVariable id then
            conjoin (assignment.valueWithin store steps)
              (assignment.subsumers id)
          else .name id
      | some (.restriction role filler) =>
          .restriction role (assignment.valueWithin store steps filler)

variable {assignment : Assignment} {store : AtomStore}
  {height : AtomId → Nat}

theorem valueWithin_stable (ranked : assignment.Ranked store height)
    {steps steps' : Nat} {id : AtomId} (enough : height id < steps)
    (enough' : height id < steps') :
    assignment.valueWithin store steps id =
      assignment.valueWithin store steps' id := by
  induction steps generalizing steps' id with
  | zero => omega
  | succ steps induction =>
      cases steps' with
      | zero => omega
      | succ steps' =>
          unfold valueWithin
          cases present : store.atom? id with
          | none => rfl
          | some atom =>
              cases atom with
              | name symbol =>
                  simp only
                  split
                  · apply conjoin_congr
                    intro atom member
                    have lower :=
                      ranked.subsumer id atom (mem_subsumers.mp member)
                    exact induction (by omega) (by omega)
                  · rfl
              | restriction role filler =>
                  have lower := ranked.filler id role filler present
                  simp only
                  have fillers : assignment.valueWithin store steps filler =
                      assignment.valueWithin store steps' filler :=
                    induction (by omega) (by omega)
                  rw [fillers]

theorem exists_evaluates (ranked : assignment.Ranked store height) :
    ∃ value, Evaluates store assignment.subsumers value := by
  refine ⟨fun id => assignment.valueWithin store (height id + 1) id, ?_⟩
  constructor
  · intro x varying
    obtain ⟨symbol, named⟩ := AtomStore.exists_name_of_isVariable varying
    rw [valueWithin, named]
    simp only [varying, if_true]
    apply conjoin_congr
    intro atom member
    have lower := ranked.subsumer x atom (mem_subsumers.mp member)
    exact valueWithin_stable ranked lower (Nat.lt_succ_self _)
  · intro id symbol named constant
    simp [valueWithin, named, constant]
  · intro id role filler present
    have lower := ranked.filler id role filler present
    rw [valueWithin, present]
    simp only
    rw [valueWithin_stable ranked lower (Nat.lt_succ_self _)]

theorem canonical_of_evaluates (ranked : assignment.Ranked store height)
    (wellFormed : store.WellFormed) (proper : assignment.Proper store)
    {value : AtomId → NormalConcept}
    (evaluates : Evaluates store assignment.subsumers value) {id : AtomId}
    (stored : id < store.size) : (value id).Canonical := by
  induction bound : height id using Nat.strongRecOn generalizing id with
  | _ bound induction =>
      subst bound
      obtain ⟨atom, present⟩ := AtomStore.exists_atom? stored
      cases atom with
      | name symbol =>
          by_cases varying : store.isVariable id = true
          · rw [evaluates.varying id varying]
            apply NormalConcept.canonical_conjunction
            intro part member
            obtain ⟨atom, inSubsumers, rfl⟩ := List.mem_map.mp member
            have chosen := mem_subsumers.mp (OrderedSet.mem_iff.mpr inSubsumers)
            exact induction _ (ranked.subsumer id atom chosen)
              (proper.stored id atom chosen) rfl
          · rw [Bool.not_eq_true] at varying
            rw [evaluates.constant id symbol present varying]
            exact NormalConcept.canonical_name id
      | restriction role filler =>
          obtain ⟨_, symbol, named⟩ := wellFormed id role filler present
          rw [evaluates.restriction id role filler present]
          exact (induction _ (ranked.filler id role filler present)
            (AtomStore.lt_size_of_atom? named) rfl).restriction role

end Assignment

theorem mapM_eq_some {α β : Type} {f : α → Option β} {g : α → β} {l : List α}
    (known : ∀ a ∈ l, f a = some (g a)) : l.mapM f = some (l.map g) := by
  induction l with
  | nil => rfl
  | cons a l induction =>
      have first := known a List.mem_cons_self
      have others := induction fun b member =>
        known b (List.mem_cons_of_mem _ member)
      rw [List.mapM_cons, first, others]
      rfl

theorem forall_eq_some_of_mapM {α β : Type} {f : α → Option β} {g : α → β}
    {l : List α} {found : List β} (success : l.mapM f = some found)
    (agrees : ∀ a ∈ l, ∀ b, f a = some b → b = g a) : found = l.map g := by
  induction l generalizing found with
  | nil =>
      rw [List.mapM_nil] at success
      cases success
      rfl
  | cons a l induction =>
      rw [List.mapM_cons] at success
      cases first : f a with
      | none => simp [first] at success
      | some b =>
          cases others : l.mapM f with
          | none => simp [first, others] at success
          | some rest =>
              simp only [first, others, Option.bind_eq_bind, Option.bind_some,
                Option.pure_def, Option.some.injEq] at success
              subst success
              rw [agrees a List.mem_cons_self b first,
                induction others fun c member =>
                  agrees c (List.mem_cons_of_mem _ member)]
              rfl

namespace Substitution

variable {store : AtomStore} {conjunctionOf : AtomId → AtomSet}
  {value : AtomId → NormalConcept}

/-- Known values are right, and each variable has a known value or waits for
one. -/
structure Faithful (store : AtomStore) (conjunctionOf : AtomId → AtomSet)
    (value : AtomId → NormalConcept) (substitution : Substitution) : Prop where
  sameStore : substitution.store = store
  known : ∀ pair ∈ substitution.values, pair.2 = value pair.1
  pending : ∀ binding ∈ substitution.pending,
    store.isVariable binding.name = true ∧
      binding.conjunction = conjunctionOf binding.name
  covered : ∀ x, store.isVariable x = true →
    (∃ c, (x, c) ∈ substitution.values) ∨
      ∃ binding ∈ substitution.pending, binding.name = x

theorem mem_of_lookup {values : List (AtomId × NormalConcept)} {x : AtomId}
    {c : NormalConcept} (found : values.lookup x = some c) :
    (x, c) ∈ values := by
  obtain ⟨before, after, rfl, _⟩ := List.lookup_eq_some_iff.mp found
  simp

section Found

variable {substitution : Substitution}
  (faithful : Faithful store conjunctionOf value substitution)
  (evaluates : Evaluates store conjunctionOf value)

include faithful evaluates

theorem name?_eq_some {id : AtomId} {symbol : String} {c : NormalConcept}
    (named : store.atom? id = some (.name symbol))
    (found : substitution.name? id = some c) : c = value id := by
  unfold name? at found
  split at found
  · next known =>
      cases found
      exact faithful.known _ (mem_of_lookup known)
  · next unknown =>
      split at found
      · cases found
      · next idle =>
          cases found
          refine (evaluates.constant id symbol named ?_).symm
          rw [Bool.eq_false_iff]
          intro varying
          rcases faithful.covered id varying with ⟨c, known⟩ | waiting
          · rw [List.lookup_eq_none_iff] at unknown
            simpa using unknown _ known
          · obtain ⟨binding, member, same⟩ := waiting
            exact idle (List.any_eq_true.mpr ⟨binding, member, by simp [same]⟩)

theorem atom?_eq_some (wellFormed : store.WellFormed) {id : AtomId}
    {c : NormalConcept} (found : substitution.atom? id = some c) :
    c = value id := by
  unfold atom? at found
  rw [faithful.sameStore] at found
  split at found
  · cases found
  · next symbol named =>
      exact name?_eq_some faithful evaluates named found
  · next role filler present =>
      obtain ⟨_, symbol, named⟩ := wellFormed id role filler present
      split at found
      · obtain ⟨c', found', rfl⟩ := Option.map_eq_some_iff.mp found
        rw [evaluates.restriction id role filler present,
          name?_eq_some faithful evaluates named found']
      · cases found

theorem conjunction?_eq_some (wellFormed : store.WellFormed)
    {conjunction : AtomSet} {c : NormalConcept}
    (found : substitution.conjunction? conjunction = some c) :
    c = conjoin value conjunction := by
  obtain ⟨values, evaluated, rfl⟩ := Option.map_eq_some_iff.mp found
  rw [forall_eq_some_of_mapM evaluated fun atom _ c found =>
    atom?_eq_some faithful evaluates wellFormed found]
  rfl

/-- A round keeps the known values right. -/
theorem Faithful.round (wellFormed : store.WellFormed) :
    Faithful store conjunctionOf value
      { substitution with
        values := substitution.ready ++ substitution.values
        pending := substitution.waiting substitution.ready } where
  sameStore := faithful.sameStore
  known := by
    intro pair member
    rcases List.mem_append.mp member with new | old
    · obtain ⟨binding, waiting, evaluated⟩ := List.mem_filterMap.mp new
      obtain ⟨c, found, rfl⟩ := Option.map_eq_some_iff.mp evaluated
      obtain ⟨varying, bound⟩ := faithful.pending binding waiting
      have same :=
        conjunction?_eq_some faithful evaluates wellFormed found
      rw [bound, ← evaluates.varying _ varying] at same
      exact same
    · exact faithful.known pair old
  pending := fun binding member =>
    faithful.pending binding (List.mem_filter.mp member).1
  covered := by
    intro x varying
    rcases faithful.covered x varying with ⟨c, known⟩ | ⟨binding, member, rfl⟩
    · exact .inl ⟨c, List.mem_append_right _ known⟩
    · cases found : substitution.ready.lookup binding.name with
      | none =>
          right
          exact ⟨binding, List.mem_filter.mpr ⟨member, by simp [found]⟩, rfl⟩
      | some c =>
          exact .inl ⟨c, List.mem_append_left _ (mem_of_lookup found)⟩

end Found

/-- The rounds keep the known values right, and end when nothing is ready. -/
theorem faithful_resolve {substitution : Substitution}
    (faithful : Faithful store conjunctionOf value substitution)
    (evaluates : Evaluates store conjunctionOf value)
    (wellFormed : store.WellFormed) :
    Faithful store conjunctionOf value substitution.resolve ∧
      substitution.resolve.ready = [] := by
  fun_induction resolve substitution with
  | case1 substitution found => exact ⟨faithful, found⟩
  | case2 substitution pair others found induction =>
      apply induction
      have next := faithful.round evaluates wellFormed
      rw [found] at next
      exact next

section Exhausted

variable {substitution : Substitution} {assignment : Assignment}
  {height : AtomId → Nat}

/-- When nothing is ready, the values of all atoms with heights are known. -/
theorem isSome_atom? (faithful : Faithful store conjunctionOf value substitution)
    (exhausted : substitution.ready = []) (wellFormed : store.WellFormed)
    (ranked : assignment.Ranked store height)
    (proper : assignment.Proper store)
    (within : ∀ x atom, atom ∈ conjunctionOf x →
      assignment.contains x atom = true)
    {id : AtomId} (stored : id < store.size) :
    (substitution.atom? id).isSome = true := by
  have names : ∀ {n symbol}, store.atom? n = some (.name symbol) →
      (∀ atom, assignment.contains n atom = true →
        (substitution.atom? atom).isSome = true) →
      (substitution.name? n).isSome = true := by
    intro n symbol named parts
    unfold name?
    split
    · rfl
    · next unknown =>
        split
        · next waiting =>
            obtain ⟨binding, member, same⟩ := List.any_eq_true.mp waiting
            rw [beq_iff_eq] at same
            subst same
            obtain ⟨_, bound⟩ := faithful.pending binding member
            have evaluated : (substitution.conjunction?
                binding.conjunction).isSome = true := by
              unfold conjunction?
              rw [Option.isSome_map, mapM_eq_some
                (g := fun atom => (substitution.atom? atom).getD .top)]
              · rfl
              · intro atom inConjunction
                rw [bound] at inConjunction
                obtain ⟨c, found⟩ := Option.isSome_iff_exists.mp
                  (parts atom (within _ atom inConjunction))
                rw [found]
                rfl
            obtain ⟨c, found⟩ := Option.isSome_iff_exists.mp evaluated
            have inReady : (binding.name, c) ∈ substitution.ready :=
              List.mem_filterMap.mpr ⟨binding, member, by rw [found]; rfl⟩
            rw [exhausted] at inReady
            cases inReady
        · rfl
  induction bound : height id using Nat.strongRecOn generalizing id with
  | _ bound induction =>
      subst bound
      have parts : ∀ {n}, height n ≤ height id → ∀ atom,
          assignment.contains n atom = true →
            (substitution.atom? atom).isSome = true := by
        intro n lower atom chosen
        exact induction _ (Nat.lt_of_lt_of_le
          (ranked.subsumer n atom chosen) lower)
          (proper.stored n atom chosen) rfl
      obtain ⟨atom, present⟩ := AtomStore.exists_atom? stored
      unfold atom?
      rw [faithful.sameStore, present]
      cases atom with
      | name symbol => exact names present (parts (Nat.le_refl _))
      | restriction role filler =>
          obtain ⟨_, symbol, named⟩ := wellFormed id role filler present
          have lower := ranked.filler id role filler present
          simp only [AtomStore.symbol?, named, Option.isSome_some, if_true,
            Option.isSome_map]
          exact names named (parts (Nat.le_of_lt lower))

/-- The substitution of the bindings of all variables gives each stored atom
its value. -/
theorem atom?_ofBindings (evaluates : Evaluates store conjunctionOf value)
    (wellFormed : store.WellFormed) (ranked : assignment.Ranked store height)
    (proper : assignment.Proper store)
    (within : ∀ x atom, atom ∈ conjunctionOf x →
      assignment.contains x atom = true)
    {names : List AtomId}
    (complete : ∀ x, store.isVariable x = true → x ∈ names)
    {id : AtomId} (stored : id < store.size) :
    (ofBindings store
      (names.map fun x => ⟨x, conjunctionOf x⟩)).atom? id =
        some (value id) := by
  have initial : Faithful store conjunctionOf value
      { store := store
        pending := (names.map fun x => Binding.mk x (conjunctionOf x)).filter
          (store.isVariable ·.name) } := by
    constructor
    · rfl
    · simp
    · intro binding member
      obtain ⟨inAll, varying⟩ := List.mem_filter.mp member
      obtain ⟨x, _, rfl⟩ := List.mem_map.mp inAll
      exact ⟨varying, rfl⟩
    · intro x varying
      right
      refine ⟨⟨x, conjunctionOf x⟩, List.mem_filter.mpr ⟨?_, varying⟩, rfl⟩
      exact List.mem_map_of_mem (complete x varying)
  obtain ⟨faithful, exhausted⟩ :=
    faithful_resolve initial evaluates wellFormed
  obtain ⟨c, found⟩ := Option.isSome_iff_exists.mp
    (isSome_atom? faithful exhausted wellFormed ranked proper within stored)
  unfold ofBindings
  rw [found, atom?_eq_some faithful evaluates wellFormed found]

end Exhausted

/-- If all atoms of a conjunction have their values, so has the
conjunction. -/
theorem conjunction?_eq {substitution : Substitution} {conjunction : AtomSet}
    (known : ∀ atom ∈ conjunction,
      substitution.atom? atom = some (value atom)) :
    substitution.conjunction? conjunction = some (conjoin value conjunction) := by
  unfold conjunction?
  rw [mapM_eq_some (g := value) known]
  rfl

end Substitution

end ConceptUnification
