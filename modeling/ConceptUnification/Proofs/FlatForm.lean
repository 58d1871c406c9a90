import ConceptUnification.Proofs.FlatteningRelation

/-!
# Flat forms

The flat form of a term is read off from a store of atoms and the equations of
the auxiliary variables: every atom that it needs is looked up, and none is
added.  Flattening leaves a builder in which the term has the flat form that was
computed, and the term keeps it from then on, whatever the builder does.
-/

namespace ConceptUnification

/-- The auxiliary variable that abbreviates a conjunction. -/
def abbreviationOf? (auxiliary : List Equation) (conjunction : AtomSet) :
    Option AtomId :=
  (auxiliary.find? (·.right == conjunction)).map Equation.left

/-- The atom that stands for a conjunction: its only one or its
abbreviation. -/
def atomOf? (auxiliary : List Equation) (conjunction : AtomSet) :
    Option AtomId :=
  match conjunction.single? with
  | some id => some id
  | none => abbreviationOf? auxiliary conjunction

/-- The concept name that stands for a conjunction: its only atom, if that is a
name, or its abbreviation. -/
def AtomStore.nameOf? (store : AtomStore) (auxiliary : List Equation)
    (conjunction : AtomSet) : Option AtomId :=
  match conjunction.single? with
  | some id =>
      if (store.symbol? id).isSome then some id
      else abbreviationOf? auxiliary conjunction
  | none => abbreviationOf? auxiliary conjunction

mutual

/-- The flat form of a term, if all atoms and abbreviations that it needs are
there. -/
def Term.flatForm? (store : AtomStore) (auxiliary : List Equation) :
    Term → Option AtomSet
  | .name symbol => (store.findName? symbol).map fun id => {id}
  | .conjunction parts => Term.flatFormOfAll? store auxiliary parts
  | .restriction role filler => do
      let flat ← filler.flatForm? store auxiliary
      let name ← store.nameOf? auxiliary flat
      let roleId ← store.findRole? role
      let id ← store.atoms.find? (.restriction roleId name)
      return {id}
  | .unreadable => none

/-- The flat form of the conjunction of some terms. -/
def Term.flatFormOfAll? (store : AtomStore) (auxiliary : List Equation) :
    List Term → Option AtomSet
  | [] => some ∅
  | part :: parts => do
      let first ← part.flatForm? store auxiliary
      let others ← Term.flatFormOfAll? store auxiliary parts
      return first ∪ others

end

section Lookup

variable {store : AtomStore} {auxiliary : List Equation}

theorem abbreviationOf?_eq_some {conjunction : AtomSet} {id : AtomId}
    (found : abbreviationOf? auxiliary conjunction = some id) :
    ∃ equation ∈ auxiliary,
      equation.right = conjunction ∧ equation.left = id := by
  obtain ⟨equation, found, left⟩ := Option.map_eq_some_iff.mp found
  exact ⟨equation, List.mem_of_find?_eq_some found,
    by simpa using List.find?_some found, left⟩

theorem abbreviationOf?_of_initial {later : List Equation}
    (extended : auxiliary <+: later) {conjunction : AtomSet} {id : AtomId}
    (found : abbreviationOf? auxiliary conjunction = some id) :
    abbreviationOf? later conjunction = some id := by
  obtain ⟨others, rfl⟩ := extended
  obtain ⟨equation, found, left⟩ := Option.map_eq_some_iff.mp found
  rw [abbreviationOf?, List.find?_append, found]
  exact congrArg some left

theorem atomOf?_of_initial {later : List Equation}
    (extended : auxiliary <+: later) {conjunction : AtomSet} {id : AtomId}
    (found : atomOf? auxiliary conjunction = some id) :
    atomOf? later conjunction = some id := by
  unfold atomOf? at found ⊢
  split at found
  · exact found
  · exact abbreviationOf?_of_initial extended found

/-- The atom of a conjunction is its only one or its abbreviation. -/
theorem atomOf?_cases {conjunction : AtomSet} {id : AtomId}
    (found : atomOf? auxiliary conjunction = some id) :
    conjunction = {id} ∨ abbreviationOf? auxiliary conjunction = some id := by
  unfold atomOf? at found
  split at found
  · next single =>
      cases found
      exact .inl (GoalBuilder.eq_singleton_of_single? single)
  · exact .inr found

/-- The name of a conjunction is its only atom or its abbreviation. -/
theorem AtomStore.nameOf?_cases {conjunction : AtomSet} {id : AtomId}
    (found : store.nameOf? auxiliary conjunction = some id) :
    (conjunction = {id} ∧ ∃ symbol, store.atom? id = some (.name symbol)) ∨
      abbreviationOf? auxiliary conjunction = some id := by
  unfold nameOf? at found
  split at found
  · next single =>
      split at found
      · next named =>
          cases found
          obtain ⟨symbol, named⟩ := Option.isSome_iff_exists.mp named
          exact .inl ⟨GoalBuilder.eq_singleton_of_single? single, symbol,
            AtomStore.symbol?_eq_some_iff.mp named⟩
      · exact .inr found
  · exact .inr found

theorem Term.flatForm?_restriction {role : String} {filler : Term}
    {flat : AtomSet} :
    (Term.restriction role filler).flatForm? store auxiliary = some flat ↔
      ∃ inner name roleId id,
        filler.flatForm? store auxiliary = some inner ∧
          store.nameOf? auxiliary inner = some name ∧
          store.roleName? roleId = some role ∧
          store.atom? id = some (.restriction roleId name) ∧ flat = {id} := by
  simp only [Term.flatForm?, Option.bind_eq_bind, Option.bind_eq_some_iff,
    Option.pure_def, Option.some.injEq, AtomStore.findRole?,
    Table.find?_eq_some_iff, AtomStore.roleName?, AtomStore.atom?]
  constructor
  · rintro ⟨inner, form, name, single, roleId, numbered, id, present, rfl⟩
    exact ⟨inner, name, roleId, id, form, single, numbered, present, rfl⟩
  · rintro ⟨inner, name, roleId, id, form, single, numbered, present, rfl⟩
    exact ⟨inner, form, name, single, roleId, numbered, id, present, rfl⟩

theorem Term.flatForm?_name {symbol : String} {flat : AtomSet} :
    (Term.name symbol).flatForm? store auxiliary = some flat ↔
      ∃ id, store.atom? id = some (.name symbol) ∧ {id} = flat := by
  simp only [Term.flatForm?, Option.map_eq_some_iff,
    AtomStore.findName?_eq_some_iff]

theorem Term.flatForm?_cons {part : Term} {parts : List Term}
    {flat : AtomSet} :
    (Term.conjunction (part :: parts)).flatForm? store auxiliary = some flat ↔
      ∃ first others, part.flatForm? store auxiliary = some first ∧
        (Term.conjunction parts).flatForm? store auxiliary = some others ∧
        flat = first ∪ others := by
  simp only [Term.flatForm?, Term.flatFormOfAll?, Option.bind_eq_bind,
    Option.bind_eq_some_iff, Option.pure_def, Option.some.injEq]
  constructor
  · rintro ⟨first, head, others, tail, rfl⟩
    exact ⟨first, others, head, tail, rfl⟩
  · rintro ⟨first, others, head, tail, rfl⟩
    exact ⟨first, head, others, tail, rfl⟩

theorem Term.flatForm?_conjunction_name {term : Term} {symbol : String}
    {flat : AtomSet} :
    (Term.conjunction [term, .name symbol]).flatForm? store auxiliary =
        some flat ↔
      ∃ inner id, term.flatForm? store auxiliary = some inner ∧
        store.atom? id = some (.name symbol) ∧ insert id inner = flat := by
  have same : ∀ (id : AtomId) (inner : AtomSet),
      inner ∪ ({id} ∪ ∅) = insert id inner := by
    intro id inner
    apply OrderedSet.eq_of_mem_iff
    intro atom
    simp [or_comm]
  simp only [Term.flatForm?, Term.flatFormOfAll?, Option.bind_eq_bind,
    Option.bind_eq_some_iff, Option.pure_def, Option.some.injEq,
    Option.map_eq_some_iff, AtomStore.findName?_eq_some_iff]
  constructor
  · rintro ⟨inner, form, _, ⟨_, ⟨id, present, rfl⟩, _, rfl, rfl⟩, rfl⟩
    exact ⟨inner, id, form, present, (same id inner).symm⟩
  · rintro ⟨inner, id, form, present, rfl⟩
    exact ⟨inner, form, _, ⟨_, ⟨id, present, rfl⟩, _, rfl, rfl⟩, same id inner⟩

end Lookup

/-- Induction on terms, where a conjunction is built up part by part. -/
@[elab_as_elim]
theorem Term.inductionOnParts {motive : Term → Prop}
    (name : ∀ symbol, motive (.name symbol))
    (nil : motive (.conjunction []))
    (cons : ∀ part parts, motive part → motive (.conjunction parts) →
      motive (.conjunction (part :: parts)))
    (restriction : ∀ role filler, motive filler →
      motive (.restriction role filler))
    (unreadable : motive .unreadable) : ∀ term, motive term
  | .name symbol => name symbol
  | .conjunction [] => nil
  | .conjunction (part :: parts) =>
      cons part parts
        (Term.inductionOnParts name nil cons restriction unreadable part)
        (Term.inductionOnParts name nil cons restriction unreadable
          (.conjunction parts))
  | .restriction role filler =>
      restriction role filler
        (Term.inductionOnParts name nil cons restriction unreadable filler)
  | .unreadable => unreadable
termination_by term => sizeOf term

section Keep

variable {before after : GoalBuilder}

/-- The atoms of a flat form are stored. -/
theorem Term.stores_flatForm? {store : AtomStore} {auxiliary : List Equation}
    (term : Term) {flat : AtomSet}
    (form : term.flatForm? store auxiliary = some flat) :
    store.Stores flat := by
  induction term using Term.inductionOnParts generalizing flat with
  | name symbol =>
      obtain ⟨id, present, rfl⟩ := Term.flatForm?_name.mp form
      exact GoalBuilder.singleton_stores (AtomStore.lt_size_of_atom? present)
  | nil =>
      cases form
      exact fun _ member => (OrderedSet.not_mem_empty member).elim
  | cons part parts head tail =>
      obtain ⟨first, others, firstForm, othersForm, rfl⟩ :=
        Term.flatForm?_cons.mp form
      intro atom member
      rcases OrderedSet.mem_union.mp member with inFirst | inOthers
      · exact head firstForm atom inFirst
      · exact tail othersForm atom inOthers
  | restriction role filler induction =>
      obtain ⟨_, _, _, id, _, _, _, present, rfl⟩ :=
        Term.flatForm?_restriction.mp form
      exact GoalBuilder.singleton_stores (AtomStore.lt_size_of_atom? present)
  | unreadable => cases form

theorem AtomStore.nameOf?_develop
    (development : GoalBuilder.Develops before after) {conjunction : AtomSet}
    (stored : before.store.Stores conjunction) {id : AtomId}
    (found : before.store.nameOf? before.auxiliary conjunction = some id) :
    after.store.nameOf? after.auxiliary conjunction = some id := by
  unfold nameOf? at found ⊢
  split at found
  · next atom single =>
      -- A stored atom that is no name does not become one.
      obtain ⟨entry, present⟩ :=
        AtomStore.exists_atom? (stored atom (GoalBuilder.mem_of_single? single))
      have kept := development.extension atom entry present
      cases entry with
      | name symbol =>
          simp only [AtomStore.symbol?, present, Option.isSome_some,
            ↓reduceIte] at found
          simpa only [AtomStore.symbol?, kept, Option.isSome_some, ↓reduceIte]
            using found
      | restriction role filler =>
          simp only [AtomStore.symbol?, present, Option.isSome_none,
            Bool.false_eq_true, ↓reduceIte] at found
          simp only [AtomStore.symbol?, kept, Option.isSome_none,
            Bool.false_eq_true, ↓reduceIte]
          exact abbreviationOf?_of_initial development.auxiliary found
  · exact abbreviationOf?_of_initial development.auxiliary found

/-- A flat form stays when the builder develops. -/
theorem Term.flatForm?_develop (term : Term)
    (development : GoalBuilder.Develops before after) {flat : AtomSet}
    (form : term.flatForm? before.store before.auxiliary = some flat) :
    term.flatForm? after.store after.auxiliary = some flat := by
  induction term using Term.inductionOnParts generalizing flat with
  | name symbol =>
      obtain ⟨id, present, rfl⟩ := Term.flatForm?_name.mp form
      exact Term.flatForm?_name.mpr
        ⟨id, development.extension id _ present, rfl⟩
  | nil => exact form
  | cons part parts head tail =>
      obtain ⟨first, others, firstForm, othersForm, rfl⟩ :=
        Term.flatForm?_cons.mp form
      exact Term.flatForm?_cons.mpr
        ⟨first, others, head firstForm, tail othersForm, rfl⟩
  | restriction role filler induction =>
      obtain ⟨inner, name, roleId, id, innerForm, single, numbered, present,
        rfl⟩ := Term.flatForm?_restriction.mp form
      exact Term.flatForm?_restriction.mpr ⟨inner, name, roleId, id,
        induction innerForm,
        AtomStore.nameOf?_develop development (filler.stores_flatForm? innerForm)
          single,
        development.roles roleId role numbered,
        development.extension id _ present, rfl⟩
  | unreadable => cases form

/-- A flat form depends on the atoms and roles of a store only. -/
theorem Term.flatForm?_congr (term : Term) {store other : AtomStore}
    {auxiliary : List Equation} (atoms : store.atoms = other.atoms)
    (roles : store.roles = other.roles) :
    term.flatForm? store auxiliary = term.flatForm? other auxiliary := by
  have atom? : store.atom? = other.atom? := by
    funext id
    rw [AtomStore.atom?, atoms, AtomStore.atom?]
  have nameOf? : store.nameOf? auxiliary = other.nameOf? auxiliary := by
    funext conjunction
    unfold AtomStore.nameOf? AtomStore.symbol?
    rw [atom?]
  apply Option.ext
  intro flat
  induction term using Term.inductionOnParts generalizing flat with
  | name symbol => rw [Term.flatForm?_name, Term.flatForm?_name, atom?]
  | nil => rfl
  | cons part parts head tail =>
      simp only [Term.flatForm?_cons, head, tail]
  | restriction role filler induction =>
      simp only [Term.flatForm?_restriction, induction, nameOf?, atom?,
        AtomStore.roleName?, roles]
  | unreadable => rfl

end Keep

namespace GoalBuilder

section Form

variable {builder after : GoalBuilder}

theorem abbreviationOf?_of_abbreviate {conjunction : AtomSet} {id : AtomId}
    (run : (abbreviate conjunction).run builder = (id, after)) :
    abbreviationOf? after.auxiliary conjunction = some id := by
  rcases abbreviate_cases run with ⟨equation, found, rfl, rfl⟩ | ⟨new, rfl, rfl⟩
  · rw [abbreviationOf?, found]
    rfl
  · simp [abbreviationOf?, withAbbreviation, List.find?_append, new]

theorem atomOf?_of_singleAtom {conjunction : AtomSet} {id : AtomId}
    (run : (singleAtom conjunction).run builder = (id, after)) :
    atomOf? after.auxiliary conjunction = some id := by
  rcases singleAtom_cases run with ⟨rfl, rfl⟩ | ⟨several, run⟩
  · rfl
  · rw [atomOf?, several]
    exact abbreviationOf?_of_abbreviate run

theorem nameOf?_of_singleName {conjunction : AtomSet}
    (stored : builder.store.Stores conjunction) {id : AtomId}
    (run : (singleName conjunction).run builder = (id, after)) :
    after.store.nameOf? after.auxiliary conjunction = some id := by
  rcases singleName_cases run with ⟨rfl, named, rfl⟩ | ⟨unnamed, run⟩
  · have single : OrderedSet.single? ({id} : AtomSet) = some id := rfl
    simp [AtomStore.nameOf?, single, named]
  · have found := abbreviationOf?_of_abbreviate run
    unfold AtomStore.nameOf?
    split
    · next atom single =>
        -- The single atom is a restriction, and it stays one.
        obtain ⟨entry, present⟩ := AtomStore.exists_atom?
          (stored atom (mem_of_single? single))
        have kept := (develops_abbreviate run).extension atom entry present
        cases entry with
        | name symbol =>
            have contrary := unnamed atom single
            simp [AtomStore.symbol?, present] at contrary
        | restriction role filler => simpa [AtomStore.symbol?, kept] using found
    · exact found

/-- After a term was flattened, the result is its flat form. -/
theorem Flattens.flatForm? {term : Term} {flat : AtomSet}
    (flattens : Flattens builder term flat after) :
    term.flatForm? after.store after.auxiliary = some flat := by
  induction flattens with
  | known number settled =>
      subst number
      exact Term.flatForm?_name.mpr ⟨_, AtomStore.atom?_intern, rfl⟩
  | imported number new found inner induction =>
      exact Term.flatForm?_name.mpr ⟨_, atom?_of_import number inner, rfl⟩
  | nil => rfl
  | cons head tail first others =>
      exact Term.flatForm?_cons.mpr
        ⟨_, _, Term.flatForm?_develop _ tail.develops first, others, rfl⟩
  | restriction inner single interned induction =>
      have stored := Term.stores_flatForm? _ induction
      have named := nameOf?_of_singleName stored single
      have development := develops_singleName single
      obtain ⟨_, _, rfl, numbered, present⟩ := internRestriction_cases interned
      exact Term.flatForm?_restriction.mpr ⟨_, _, _, _,
        Term.flatForm?_develop _
          (development.trans (develops_withRestriction _ _ _)) induction,
        AtomStore.nameOf?_develop (develops_withRestriction _ _ _)
          (development.extension.stores stored) named,
        numbered, present, rfl⟩

/-- A flat form means its term. -/
theorem Means.of_flatForm? (wellFormed : builder.WellFormed) (term : Term)
    {flat : AtomSet}
    (form : term.flatForm? builder.store builder.auxiliary = some flat) :
    Means builder term flat := by
  induction term using Term.inductionOnParts generalizing flat with
  | name symbol =>
      obtain ⟨id, present, rfl⟩ := Term.flatForm?_name.mp form
      exact .name present
  | nil =>
      cases form
      exact .nil
  | cons part parts head tail =>
      obtain ⟨first, others, firstForm, othersForm, rfl⟩ :=
        Term.flatForm?_cons.mp form
      exact .cons (head firstForm) (tail othersForm)
  | restriction role filler induction =>
      obtain ⟨inner, name, roleId, id, innerForm, single, numbered, present,
        rfl⟩ := Term.flatForm?_restriction.mp form
      have means := induction innerForm
      refine .restriction wellFormed ?_ numbered present
      rcases AtomStore.nameOf?_cases single with ⟨rfl, _⟩ | abbreviated
      · exact means
      · obtain ⟨equation, member, rfl, rfl⟩ :=
          abbreviationOf?_eq_some abbreviated
        exact means.abbreviated wellFormed member
  | unreadable => cases form

/-- The atom that stands for a conjunction means the same. -/
theorem Means.of_atomOf? (wellFormed : builder.WellFormed) {term : Term}
    {flat : AtomSet} (means : Means builder term flat) {id : AtomId}
    (single : atomOf? builder.auxiliary flat = some id) :
    Means builder term {id} := by
  rcases atomOf?_cases single with rfl | abbreviated
  · exact means
  · obtain ⟨equation, member, rfl, rfl⟩ := abbreviationOf?_eq_some abbreviated
    exact means.abbreviated wellFormed member

end Form

end GoalBuilder

end ConceptUnification
