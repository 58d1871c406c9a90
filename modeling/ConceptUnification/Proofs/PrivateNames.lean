import ConceptUnification.Proofs.AuxiliaryLayers

/-!
# Private names

A name is private if no call leads to it or declares it and if it has not the
form of an auxiliary name.  It can still be stored, as the undefined part of a
definition, and then it stays a constant.  Flat forms of other terms neither
contain it nor restrict it, so their values do not depend on it.
-/

namespace ConceptUnification

namespace AtomStore

theorem exists_kind? {store : AtomStore} {id : AtomId} {symbol : String}
    (present : store.atom? id = some (.name symbol)) :
    ∃ kind, store.kind? id = some kind := by
  have bound : id < store.kinds.size := by
    rw [store.aligned]
    exact lt_size_of_atom? present
  unfold kind?
  rw [present]
  exact ⟨_, Array.getElem?_eq_getElem bound⟩

/-- A concept name is a constant if it is stored. -/
def KeepsConstant (store : AtomStore) (symbol : String) : Prop :=
  ∀ id, store.atom? id = some (.name symbol) →
    store.kind? id = some .constant

section KeepsConstant

variable {store : AtomStore} {symbol : String}

theorem KeepsConstant.intern (keeps : store.KeepsConstant symbol)
    (atom : Atom) : (store.intern atom).2.KeepsConstant symbol := by
  intro id present
  obtain ⟨kind, known⟩ := exists_kind? present
  by_cases constant : kind = .constant
  · rw [known, constant]
  · -- Only old names are no constants.
    have old := kind?_of_kind?_intern known constant
    obtain ⟨other, named⟩ := exists_name_of_kind? old
    have kept : (store.intern atom).2.atom? id = some (.name other) :=
      extends_intern id _ named
    rw [kept, Option.some.injEq, Atom.name.injEq] at present
    rw [present] at named
    rw [keeps id named] at old
    exact absurd (Option.some.inj old).symm constant

theorem KeepsConstant.setKind (keeps : store.KeepsConstant symbol)
    {other : AtomId} {name : String}
    (named : store.atom? other = some (.name name)) (different : name ≠ symbol)
    (kind : NameKind) : (store.setKind other kind).KeepsConstant symbol := by
  intro id present
  have apart : id ≠ other := by
    rintro rfl
    rw [atom?_setKind, named, Option.some.injEq, Atom.name.injEq] at present
    exact different present
  rw [kind?_setKind_of_ne apart]
  exact keeps id present

theorem KeepsConstant.foldl_setKind (keeps : store.KeepsConstant symbol)
    {ids : List AtomId} {kind : NameKind}
    (named : ∀ other ∈ ids, ∃ name,
      store.atom? other = some (.name name) ∧ name ≠ symbol) :
    (ids.foldl (fun store other => store.setKind other kind)
      store).KeepsConstant symbol := by
  induction ids generalizing store with
  | nil => exact keeps
  | cons other ids induction =>
      obtain ⟨⟨name, present, different⟩, others⟩ :=
        List.forall_mem_cons.mp named
      exact induction (keeps.setKind present different kind) others

end KeepsConstant

/-- An atom is neither a given concept name nor a restriction to it. -/
def Apart (store : AtomStore) (part id : AtomId) : Prop :=
  id ≠ part ∧ ∀ role, store.atom? id ≠ some (.restriction role part)

theorem apart_of_name {store : AtomStore} {part id : AtomId} {name : String}
    (present : store.atom? id = some (.name name)) (different : id ≠ part) :
    store.Apart part id :=
  ⟨different, fun role restricts => by cases present.symm.trans restricts⟩

end AtomStore

/-- The atoms of a flat form are apart from a name that does not occur in the
term and is no abbreviation. -/
theorem Term.apart_of_flatForm? {store : AtomStore} {auxiliary : List Equation}
    (term : Term) {flat : AtomSet} {symbol : String} {part : AtomId}
    (present : store.atom? part = some (.name symbol))
    (unused : symbol ∉ term.symbols)
    (lefts : ∀ equation ∈ auxiliary, equation.left ≠ part)
    (form : term.flatForm? store auxiliary = some flat) :
    ∀ atom ∈ flat, store.Apart part atom := by
  induction term using Term.inductionOnParts generalizing flat with
  | name other =>
      obtain ⟨id, named, rfl⟩ := Term.flatForm?_name.mp form
      intro atom member
      rw [OrderedSet.mem_singleton.mp member]
      refine AtomStore.apart_of_name named ?_
      rintro rfl
      rw [present, Option.some.injEq, Atom.name.injEq] at named
      exact unused (List.mem_singleton.mpr named)
  | nil =>
      cases form
      exact fun _ member => (OrderedSet.not_mem_empty member).elim
  | cons first others head tail =>
      obtain ⟨_, _, firstForm, othersForm, rfl⟩ := Term.flatForm?_cons.mp form
      intro atom member
      rcases OrderedSet.mem_union.mp member with inFirst | inOthers
      · exact head (fun inTerm => unused (List.mem_append_left _ inTerm))
          firstForm atom inFirst
      · exact tail (fun inTerm => unused (List.mem_append_right _ inTerm))
          othersForm atom inOthers
  | restriction role filler induction =>
      obtain ⟨inner, name, roleId, id, innerForm, single, _, restricts, rfl⟩ :=
        Term.flatForm?_restriction.mp form
      intro atom member
      rw [OrderedSet.mem_singleton.mp member]
      refine ⟨?_, ?_⟩
      · rintro rfl
        cases present.symm.trans restricts
      · intro role' same
        rw [restricts, Option.some.injEq, Atom.restriction.injEq] at same
        obtain ⟨_, rfl⟩ := same
        rcases AtomStore.nameOf?_cases single with ⟨rfl, _⟩ | abbreviated
        · exact (induction unused innerForm _
            (OrderedSet.mem_singleton.mpr rfl)).1 rfl
        · obtain ⟨equation, member, _, same⟩ :=
            abbreviationOf?_eq_some abbreviated
          exact lefts equation member same
  | unreadable => cases form

/-- Atoms that are apart from a name have the same values under valuations that
differ in that name only. -/
theorem ConceptValuation.value_of_apart {v w : ConceptValuation}
    {store : AtomStore} {symbol : String} {part id : AtomId}
    (agree : ∀ other, other ≠ symbol → w.concept other = v.concept other)
    (wellFormed : store.WellFormed)
    (present : store.atom? part = some (.name symbol))
    (stored : id < store.size) (apart : store.Apart part id) :
    w.value store id = v.value store id := by
  have names : ∀ {other : AtomId} {name : String},
      store.atom? other = some (.name name) → other ≠ part →
        w.concept name = v.concept name := by
    intro other name named different
    refine agree name ?_
    rintro rfl
    exact different (AtomStore.atom?_injective named present)
  obtain ⟨atom, found⟩ := AtomStore.exists_atom? stored
  cases atom with
  | name name => rw [value_name found, value_name found, names found apart.1]
  | restriction role filler =>
      obtain ⟨_, name, named⟩ := wellFormed id role filler found
      have different : filler ≠ part := by
        rintro rfl
        exact apart.2 role found
      rw [value_restriction wellFormed found, value_restriction wellFormed found,
        value_name named, value_name named, names named different]

namespace GoalBuilder

section Private

variable {mentioned : String → Prop} {before after builder : GoalBuilder}
  {background : Ontology Term} {config : Config} {calls : List BuilderCall}
  {symbol : String}

/-- Changes reclassify mentioned names and auxiliary names only. -/
theorem Change.keepsConstant (change : Change mentioned before after)
    (unused : ¬ mentioned symbol)
    (apart : ∀ number : Nat, symbol ≠ before.auxiliaryStem ++ toString number)
    (keeps : before.store.KeepsConstant symbol) :
    after.store.KeepsConstant symbol := by
  cases change with
  | name inScope => exact keeps.intern _
  | undefinedPart found primitive => exact keeps.intern _
  | @restriction role _ filler named =>
      have numbered : (before.withRole role).store.KeepsConstant symbol := keeps
      exact numbered.intern _
  | abbreviation inScope form new =>
      have named : (before.store.internName before.freshSymbol).2.atom?
          (before.store.internName before.freshSymbol).1 =
            some (.name before.freshSymbol) := AtomStore.atom?_intern
      exact (keeps.intern _).setKind named (apart _).symm _
  | beginImport found inScope named new =>
      exact keeps.setKind named (fun same => unused (same ▸ inScope)) _
  | define found named form => exact keeps

/-- A private name is a constant in the goal. -/
theorem Builds.keepsConstant
    (builds : Builds (new background config) calls builder)
    (unused : ¬ Occurs background calls symbol)
    (apart : ∀ number : Nat,
      symbol ≠ config.auxiliaryStem ++ toString number) :
    builder.finished.store.KeepsConstant symbol := by
  have undeclared : builder.auxiliaryStem = config.auxiliaryStem ∧
      builder.store.KeepsConstant symbol := by
    refine builds.preserves
      (fun builder => builder.auxiliaryStem = config.auxiliaryStem ∧
        builder.store.KeepsConstant symbol)
      (closed_reachable background calls)
      (fun _ member _ inTerm => .term member inTerm) ?_ ?_ ?_ ⟨rfl, ?_⟩
    · rintro earlier later change ⟨stem, keeps⟩
      exact ⟨change.develops.auxiliaryStem.trans stem,
        change.keepsConstant (fun reachable => unused (.inl reachable))
          (stem ▸ apart) keeps⟩
    · rintro builder constraint ⟨stem, keeps⟩
      cases constraint <;> exact ⟨stem, keeps⟩
    · rintro builder other ⟨stem, keeps⟩
      exact ⟨stem, keeps.intern _⟩
    · intro id present
      exact (Nat.not_lt_zero id (AtomStore.lt_size_of_atom? present)).elim
  have declares := builds.run_new.declaresMentioned
    (fun _ member => by cases member)
  refine undeclared.2.foldl_setKind fun id member => ?_
  obtain ⟨name, named, occurs⟩ := declares id member
  exact ⟨name, named, fun same => unused (same ▸ occurs)⟩

/-- What an auxiliary variable stands for is the flat form of a term over names
in scope. -/
def Sourced (mentioned : String → Prop) (builder : GoalBuilder) : Prop :=
  ∀ equation ∈ builder.auxiliary, ∃ term : Term,
    (∀ symbol ∈ term.symbols, mentioned symbol) ∧
      term.flatForm? builder.store builder.auxiliary = some equation.right

theorem Sourced.develop (sourced : Sourced mentioned before)
    (development : Develops before after)
    (same : after.auxiliary = before.auxiliary) : Sourced mentioned after := by
  intro equation member
  rw [same] at member
  obtain ⟨term, inScope, form⟩ := sourced equation member
  exact ⟨term, inScope, term.flatForm?_develop development form⟩

theorem Change.sourced (change : Change mentioned before after)
    (sourced : Sourced mentioned before) : Sourced mentioned after := by
  have development := change.develops
  cases change with
  | @abbreviation term conjunction inScope form new =>
      intro equation member
      rcases List.mem_append.mp member with old | added
      · obtain ⟨source, inScope, form⟩ := sourced equation old
        exact ⟨source, inScope, source.flatForm?_develop development form⟩
      · obtain rfl := List.mem_singleton.mp added
        exact ⟨term, inScope, term.flatForm?_develop development form⟩
  | name | undefinedPart | restriction | beginImport | define =>
      exact sourced.develop development rfl

theorem Builds.sourced (builds : Builds (new background config) calls builder) :
    Sourced (Reachable background calls) builder := by
  refine builds.preserves (Sourced (Reachable background calls))
    (closed_reachable background calls)
    (fun _ member _ inTerm => .term member inTerm)
    (fun _ _ change => change.sourced) ?_ ?_ (fun _ member => by cases member)
  · intro builder constraint sourced
    refine sourced.develop (develops_add builder constraint) ?_
    cases constraint <;> rfl
  · intro builder symbol sourced
    exact sourced.develop (develops_declareUserVariable builder symbol) rfl

end Private

end GoalBuilder

end ConceptUnification
