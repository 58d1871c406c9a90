import ConceptUnification.View
import ConceptUnification.Proofs.ConjunctionLaws
import ConceptUnification.Proofs.PrunedUnifier
import ConceptUnification.Proofs.StoreHistory
import ConceptUnification.Proofs.UnfoldedTerms

/-!
# Written normal forms are read back

A normal form over the names and roles of a store is written as a nested concept
in which no conjunction has a single part.  The normal form of the nested
concept is the same again: names and roles have one number each, and on all
levels the conjunction of the parts leaves none of them out.  What a view shows
of the value of a variable is therefore the value, and it holds no variables.
-/

namespace ConceptUnification

section Written

variable {store : AtomStore}

mutual

/-- The names and roles of an atom are stored. -/
def NormalAtom.StoredIn (store : AtomStore) : NormalAtom → Prop
  | .name id => ∃ symbol, store.symbol? id = some symbol
  | .restriction role filler =>
      (∃ text, store.roleName? role = some text) ∧
        NormalAtom.StoredAllIn store filler

/-- The names and roles of some atoms are stored. -/
def NormalAtom.StoredAllIn (store : AtomStore) : List NormalAtom → Prop
  | [] => True
  | a :: as => a.StoredIn store ∧ NormalAtom.StoredAllIn store as

end

theorem NormalAtom.storedAllIn_iff {as : List NormalAtom} :
    NormalAtom.StoredAllIn store as ↔ ∀ a ∈ as, a.StoredIn store := by
  induction as with
  | nil => simp [NormalAtom.StoredAllIn]
  | cons a as induction => simp [NormalAtom.StoredAllIn, induction]

namespace NormalConcept

/-- The conjunction of the atoms of a canonical form is the form. -/
theorem Canonical.conjunction_singletons {atoms : List NormalAtom}
    (canonical : Canonical ⟨atoms⟩) :
    conjunction (atoms.map fun a => ⟨[a]⟩) = ⟨atoms⟩ := by
  have single : ∀ a ∈ atoms, Canonical ⟨[a]⟩ := by
    intro a member
    exact
      { parts := ⟨NormalAtom.canonicalAll_iff.mp canonical.parts a member,
          trivial⟩
        increasing := List.pairwise_singleton _ _
        independent := by simp }
  have parts : ∀ part ∈ atoms.map (fun a => NormalConcept.mk [a]),
      part.Canonical := by
    intro part member
    obtain ⟨a, inAtoms, rfl⟩ := List.mem_map.mp member
    exact single a inAtoms
  apply (canonical_conjunction parts).eq_of_isBelow canonical
  · rw [isBelow_iff]
    intro a member
    exact exists_mem_conjunction
      (List.mem_map_of_mem (f := fun a => NormalConcept.mk [a]) member)
      (List.mem_singleton_self a)
  · rw [isBelow_conjunction_iff]
    intro part member
    obtain ⟨a, inAtoms, rfl⟩ := List.mem_map.mp member
    rw [isBelow_iff]
    intro b inPart
    obtain rfl := List.mem_singleton.mp inPart
    exact ⟨b, inAtoms, NormalAtom.isBelow_refl b⟩

/-- A list of parts is read as their conjunction, even if a single part stands
for itself. -/
theorem normalForm?_ofConjuncts {atoms : List NormalAtom}
    (canonical : Canonical ⟨atoms⟩) {parts : List Concept}
    (read : Term.normalForms? store (Concept.toTerms parts) =
      some (atoms.map fun a => ⟨[a]⟩)) :
    (Concept.ofConjuncts parts).toTerm.normalForm? store = some ⟨atoms⟩ := by
  have whole : (Concept.conjunction parts).toTerm.normalForm? store =
      some ⟨atoms⟩ := by
    rw [Concept.toTerm, Term.normalForm?, read, Option.map_some,
      canonical.conjunction_singletons]
  match parts with
  | [] => exact whole
  | _ :: _ :: _ => exact whole
  | [part] =>
      simp only [Concept.toTerms, Term.normalForms?, Option.pure_def,
        Option.bind_eq_bind, Option.bind_some] at read
      obtain ⟨c, found, same⟩ := Option.bind_eq_some_iff.mp read
      rw [Concept.ofConjuncts, found]
      match atoms with
      | [] => cases same
      | [a] =>
          cases same
          rfl
      | _ :: _ :: _ => cases same

end NormalConcept

theorem Concept.symbols_ofConjuncts (parts : List Concept) :
    (Concept.ofConjuncts parts).toTerm.symbols =
      Term.symbolsOfAll (Concept.toTerms parts) := by
  match parts with
  | [] => rfl
  | [part] => exact (List.append_nil _).symm
  | _ :: _ :: _ => rfl

namespace NormalAtom

mutual

theorem exists_toConcept? (a : NormalAtom) (stored : a.StoredIn store)
    (canonical : a.Canonical) :
    ∃ part, a.toConcept? store = some part ∧
      part.toTerm.normalForm? store = some ⟨[a]⟩ := by
  cases a with
  | name id =>
      obtain ⟨symbol, named⟩ := stored
      refine ⟨.name symbol, by rw [toConcept?, named, Option.map_some], ?_⟩
      rw [Concept.toTerm, Term.normalForm?, AtomStore.findName?_eq_some_iff.mpr
        (AtomStore.symbol?_eq_some_iff.mp named)]
      rfl
  | restriction role filler =>
      obtain ⟨⟨text, named⟩, inner⟩ := stored
      obtain ⟨parts, written, read⟩ :=
        exists_toConcepts? filler inner canonical.1
      have whole := NormalConcept.normalForm?_ofConjuncts
        ⟨canonical.1, canonical.2.1, canonical.2.2⟩ read
      have found : store.findRole? text = some role :=
        Table.find?_eq_some_iff.mpr named
      refine ⟨.restriction text (.ofConjuncts parts), ?_, ?_⟩
      · simp only [toConcept?, named, written]
      · rw [Concept.toTerm, Term.normalForm?, found, whole]
        rfl

theorem exists_toConcepts? (as : List NormalAtom)
    (stored : StoredAllIn store as) (canonical : CanonicalAll as) :
    ∃ parts, toConcepts? store as = some parts ∧
      Term.normalForms? store (Concept.toTerms parts) =
        some (as.map fun a => ⟨[a]⟩) := by
  cases as with
  | nil => exact ⟨[], rfl, rfl⟩
  | cons a as =>
      obtain ⟨first, written, read⟩ :=
        exists_toConcept? a stored.1 canonical.1
      obtain ⟨others, written', read'⟩ :=
        exists_toConcepts? as stored.2 canonical.2
      refine ⟨first :: others, by simp only [toConcepts?, written, written'], ?_⟩
      rw [Concept.toTerms, Term.normalForms?, read, read']
      rfl

end

mutual

/-- What is written of an atom mentions the names that occur in it. -/
theorem exists_mem_names_of_toConcept? (a : NormalAtom) {part : Concept}
    (written : a.toConcept? store = some part) :
    ∀ symbol ∈ part.toTerm.symbols,
      ∃ id ∈ a.names, store.symbol? id = some symbol := by
  cases a with
  | name id =>
      obtain ⟨text, named, rfl⟩ := Option.map_eq_some_iff.mp written
      intro symbol member
      obtain rfl := List.mem_singleton.mp member
      exact ⟨id, List.mem_singleton_self id, named⟩
  | restriction role filler =>
      rw [toConcept?] at written
      split at written
      · next inner =>
          cases written
          rw [Concept.toTerm, Term.symbols, Concept.symbols_ofConjuncts]
          exact exists_mem_names_of_toConcepts? filler inner
      · cases written

theorem exists_mem_names_of_toConcepts? (as : List NormalAtom)
    {parts : List Concept} (written : toConcepts? store as = some parts) :
    ∀ symbol ∈ Term.symbolsOfAll (Concept.toTerms parts),
      ∃ id ∈ namesAll as, store.symbol? id = some symbol := by
  cases as with
  | nil =>
      cases written
      intro symbol member
      cases member
  | cons a as =>
      rw [toConcepts?] at written
      split at written
      · next first others =>
          cases written
          intro symbol member
          rcases List.mem_append.mp member with inFirst | inOthers
          · obtain ⟨id, inNames, named⟩ :=
              exists_mem_names_of_toConcept? a first symbol inFirst
            exact ⟨id, List.mem_append_left _ inNames, named⟩
          · obtain ⟨id, inNames, named⟩ :=
              exists_mem_names_of_toConcepts? as others symbol inOthers
            exact ⟨id, List.mem_append_right _ inNames, named⟩
      · cases written

end

end NormalAtom

namespace NormalConcept

/-- The concept is built by the operations on normal forms from names and roles
of a store. -/
inductive ConstructedOver (store : AtomStore) : NormalConcept → Prop
  | top : ConstructedOver store top
  | name {id : AtomId} {symbol : String}
      (named : store.symbol? id = some symbol) :
      ConstructedOver store (name id)
  | restriction {role : RoleId} {text : String}
      (stored : store.roleName? role = some text) {filler : NormalConcept}
      (constructed : ConstructedOver store filler) :
      ConstructedOver store (restriction role filler)
  | conjunction {parts : List NormalConcept}
      (constructed : ∀ part ∈ parts, ConstructedOver store part) :
      ConstructedOver store (conjunction parts)

theorem ConstructedOver.constructed {c : NormalConcept}
    (constructed : c.ConstructedOver store) : c.Constructed := by
  induction constructed with
  | top => exact .top
  | name => exact .name _
  | restriction _ _ induction => exact .restriction _ induction
  | conjunction _ induction => exact .conjunction induction

theorem ConstructedOver.stored {c : NormalConcept}
    (constructed : c.ConstructedOver store) :
    NormalAtom.StoredAllIn store c.atoms := by
  induction constructed with
  | top => trivial
  | @name id symbol named => exact ⟨⟨symbol, named⟩, trivial⟩
  | @restriction role text stored _ _ induction =>
      exact ⟨⟨⟨text, stored⟩, induction⟩, trivial⟩
  | conjunction _ induction =>
      rw [NormalAtom.storedAllIn_iff]
      intro a member
      obtain ⟨part, inParts, inPart⟩ := exists_mem_of_mem_conjunction member
      exact NormalAtom.storedAllIn_iff.mp (induction part inParts) a inPart

/-- What is built from names and roles of a store can be written, and what is
written is read as the same concept. -/
theorem ConstructedOver.exists_toConcept? {c : NormalConcept}
    (constructed : c.ConstructedOver store) :
    ∃ concept, c.toConcept? store = some concept ∧
      concept.toTerm.normalForm? store = some c := by
  have canonical := constructed.constructed.canonical
  obtain ⟨parts, written, read⟩ := NormalAtom.exists_toConcepts? c.atoms
    constructed.stored canonical.parts
  exact ⟨.ofConjuncts parts, by rw [toConcept?, written, Option.map_some],
    normalForm?_ofConjuncts canonical read⟩

/-- Different concepts are written differently. -/
theorem ConstructedOver.eq_of_toConcept?_eq {c d : NormalConcept}
    (left : c.ConstructedOver store) (right : d.ConstructedOver store)
    (same : c.toConcept? store = d.toConcept? store) : c = d := by
  obtain ⟨concept, written, read⟩ := left.exists_toConcept?
  obtain ⟨concept', written', read'⟩ := right.exists_toConcept?
  rw [written, written'] at same
  cases same
  exact Option.some.inj (read.symm.trans read')

theorem exists_mem_names_of_toConcept? {c : NormalConcept} {concept : Concept}
    (written : c.toConcept? store = some concept) :
    ∀ symbol ∈ concept.toTerm.symbols,
      ∃ id ∈ c.names, store.symbol? id = some symbol := by
  obtain ⟨parts, inner, rfl⟩ := Option.map_eq_some_iff.mp written
  rw [Concept.symbols_ofConjuncts]
  exact NormalAtom.exists_mem_names_of_toConcepts? c.atoms inner

/-- Names have one number each, so a variable is not written if its number does
not occur. -/
theorem not_mem_symbols_of_isVariable {c : NormalConcept} {concept : Concept}
    (written : c.toConcept? store = some concept)
    (free : ∀ n ∈ c.names, store.isVariable n = false) {x : AtomId}
    {symbol : String} (varying : store.isVariable x = true)
    (named : store.symbol? x = some symbol) :
    symbol ∉ concept.toTerm.symbols := by
  intro mentioned
  obtain ⟨id, inNames, sameName⟩ :=
    exists_mem_names_of_toConcept? written symbol mentioned
  have same : id = x := AtomStore.atom?_injective
    (AtomStore.symbol?_eq_some_iff.mp sameName)
    (AtomStore.symbol?_eq_some_iff.mp named)
  rw [← same, free id inNames] at varying
  cases varying

end NormalConcept

end Written

section Views

/-- A `mapM` over elements that all have results gives these results in the
same order. -/
theorem exists_mapM_forall₂ {α β : Type} {f : α → Option β}
    {post : α → β → Prop} {as : List α}
    (total : ∀ a ∈ as, ∃ b, f a = some b ∧ post a b) :
    ∃ bs, as.mapM f = some bs ∧ List.Forall₂ post as bs := by
  induction as with
  | nil => exact ⟨[], rfl, .nil⟩
  | cons a as induction =>
      obtain ⟨first, others⟩ := List.forall_mem_cons.mp total
      obtain ⟨b, found, holds⟩ := first
      obtain ⟨bs, rest, pairs⟩ := induction others
      refine ⟨b :: bs, ?_, .cons holds pairs⟩
      rw [List.mapM_cons, found, rest]
      rfl

theorem AtomView.exists_ofAtom? {store : AtomStore} (aligned : store.Aligned)
    {id : AtomId} (stored : id < store.size) :
    ∃ view, AtomView.ofAtom? store id = some view := by
  obtain ⟨atom, present⟩ := AtomStore.exists_atom? stored
  cases atom with
  | name symbol =>
      refine ⟨.name symbol, ?_⟩
      rw [AtomView.ofAtom?, present]
  | restriction role filler =>
      obtain ⟨older, symbol, named⟩ := aligned.wellFormed id role filler present
      obtain ⟨text, numbered⟩ := aligned.roles id role filler present
      have inner : AtomView.ofAtom? store filler = some (.name symbol) := by
        rw [AtomView.ofAtom?, named]
      refine ⟨.restriction text (.name symbol), ?_⟩
      rw [AtomView.ofAtom?, present]
      simp only [if_pos older, numbered, inner]

theorem AtomView.exists_ofSet? {store : AtomStore} (aligned : store.Aligned)
    {conjunction : AtomSet} (stored : ∀ atom ∈ conjunction, atom < store.size) :
    ∃ views, AtomView.ofSet? store conjunction = some views := by
  have total : ∀ atom ∈ conjunction.toList,
      ∃ view, AtomView.ofAtom? store atom = some view ∧ True := by
    intro atom member
    obtain ⟨view, found⟩ := AtomView.exists_ofAtom? aligned
      (stored atom (OrderedSet.mem_iff.mpr member))
    exact ⟨view, found, trivial⟩
  obtain ⟨views, found, _⟩ := exists_mapM_forall₂ total
  exact ⟨views, found⟩

/-- Substitution builds values from names and roles of the store. -/
theorem Unifier.Expands.constructedOver {unifier : Unifier} {store : AtomStore}
    (aligned : store.Aligned) {id : AtomId} {c : NormalConcept}
    (expands : unifier.Expands store id c) : c.ConstructedOver store := by
  induction expands with
  | bound varying found parts induction =>
      apply NormalConcept.ConstructedOver.conjunction
      intro part member
      obtain ⟨atom, inBinding, rfl⟩ := List.mem_map.mp member
      exact induction atom (OrderedSet.mem_iff.mpr inBinding)
  | unbound varying =>
      obtain ⟨symbol, named⟩ := AtomStore.exists_name_of_isVariable varying
      exact .name (AtomStore.symbol?_eq_some_iff.mpr named)
  | constant named =>
      exact .name (AtomStore.symbol?_eq_some_iff.mpr named)
  | restriction present _ induction =>
      obtain ⟨text, numbered⟩ := aligned.roles _ _ _ present
      exact .restriction numbered induction

/-- What a view shows of a binding: the name of the variable, and its value in a
form that is read back and holds no variables of the goal. -/
structure BindingView.Shows (shown : BindingView) (goal : Goal)
    (unifier : Unifier) (binding : Binding) : Prop where
  symbol : goal.store.symbol? binding.name = some shown.symbol
  expanded : ∃ c, unifier.expand? goal.store binding.name = some c ∧
    c.toConcept? goal.store = some shown.expanded ∧
    shown.expanded.toTerm.normalForm? goal.store = some c
  variableFree : ∀ x ∈ goal.allVariables, ∀ symbol,
    goal.store.symbol? x = some symbol →
      symbol ∉ shown.expanded.toTerm.symbols

section OfAssignment

variable {goal : Goal} {assignment : Assignment}
  (obtained : goal.Obtained)
  (choices : ∀ x atom, assignment.contains x atom = true →
    x ∈ goal.allVariables ∧ atom ∈ goal.nonVariableAtoms)
  (acyclic : assignment.Acyclic goal.store)

include obtained choices acyclic

/-- Every binding of an acyclic assignment has a view. -/
theorem BindingView.exists_ofBinding? :
    ∀ binding ∈ (Unifier.ofAssignment goal assignment).bindings,
      ∃ shown, BindingView.ofBinding? goal
          ((Unifier.ofAssignment goal assignment).substitution goal.store)
          binding = some shown ∧
        shown.Shows goal (Unifier.ofAssignment goal assignment) binding := by
  have wellFormed := obtained.wellFormed
  have aligned := obtained.aligned
  have proper := Assignment.proper_iff.mpr choices
  have ranked := acyclic.ranked wellFormed.store proper
  obtain ⟨value, evaluates⟩ := Assignment.exists_evaluates ranked
  obtain ⟨conjunctionOf, bindings, reduces, pruned⟩ :=
    Unifier.exists_pruned wellFormed acyclic proper evaluates
  have within : ∀ x atom, atom ∈ conjunctionOf x →
      assignment.contains x atom = true := fun x atom member =>
    Assignment.mem_subsumers.mp ((reduces x).kept atom member)
  intro binding member
  rw [bindings] at member
  obtain ⟨x, inVariables, rfl⟩ := List.mem_map.mp member
  obtain ⟨symbol, named⟩ := AtomStore.exists_name_of_isVariable
    (Goal.mem_allVariables.mp inVariables)
  have stored : x < goal.store.size := AtomStore.lt_size_of_atom? named
  have symbol? : goal.store.symbol? x = some symbol :=
    AtomStore.symbol?_eq_some_iff.mpr named
  have expanded := Unifier.expand?_eq_some bindings pruned ranked proper
    wellFormed.store within stored
  have constructed : (value x).ConstructedOver goal.store :=
    (Unifier.expands_value bindings pruned ranked proper wellFormed.store
      within stored).constructedOver aligned
  obtain ⟨concept, written, read⟩ := constructed.exists_toConcept?
  obtain ⟨views, atoms⟩ := AtomView.exists_ofSet? aligned fun atom member =>
    proper.stored x atom (within x atom member)
  refine ⟨⟨symbol, goal.store.hasKind .userVariable x, views, concept⟩, ?_, ?_⟩
  · have found : ((Unifier.ofAssignment goal assignment).substitution
        goal.store).atom? x = some (value x) := expanded
    simp only [BindingView.ofBinding?, named, atoms, found, written, symbol?,
      Option.bind_eq_bind, Option.bind_some, Option.pure_def, Option.getD_some]
  · refine ⟨symbol?, ⟨value x, expanded, written, read⟩, ?_⟩
    have free := pruned.variableFree ranked proper wellFormed.store within
      stored
    intro y varying text named'
    exact NormalConcept.not_mem_symbols_of_isVariable written free
      (Goal.mem_allVariables.mp varying) named'

end OfAssignment

/-- A concept over the names and roles of a goal is written in a form that is
read back as the same concept, so different concepts are written differently.
The view of a unifier shows the value of each variable in such a form, where no
variable of the goal is mentioned. -/
theorem Unifier.expanded_values_read_back {goal : Goal}
    (obtained : goal.Obtained) :
    (∀ c : NormalConcept, c.ConstructedOver goal.store →
      ∃ concept, c.toConcept? goal.store = some concept ∧
        concept.toTerm.normalForm? goal.store = some c) ∧
    (∀ c d : NormalConcept, c.ConstructedOver goal.store →
      d.ConstructedOver goal.store → c ≠ d →
        c.toConcept? goal.store ≠ d.toConcept? goal.store) ∧
    ∀ assignment : Assignment,
      (∀ x atom, assignment.contains x atom = true →
        x ∈ goal.allVariables ∧ atom ∈ goal.nonVariableAtoms) →
      assignment.Acyclic goal.store →
      ∃ view, UnifierView.ofUnifier? goal (ofAssignment goal assignment) =
          some view ∧
        List.Forall₂
          (fun binding shown => BindingView.Shows shown goal
            (ofAssignment goal assignment) binding)
          (ofAssignment goal assignment).bindings view.bindings := by
  refine ⟨fun c => NormalConcept.ConstructedOver.exists_toConcept?, ?_, ?_⟩
  · intro c d left right different same
    exact different (left.eq_of_toConcept?_eq right same)
  · intro assignment choices acyclic
    obtain ⟨shown, found, shows_⟩ := exists_mapM_forall₂
      (BindingView.exists_ofBinding? obtained choices acyclic)
    refine ⟨⟨shown⟩, ?_, shows_⟩
    rw [UnifierView.ofUnifier?, found]
    rfl

/-- `B ⊓ ∃r.(C ⊓ ∃s.B)` over the goal of the sample calls, with the weaker atom
`∃r.C` that the conjunction leaves out. -/
def NormalConcept.sampleNested : NormalConcept :=
  .conjunction [.restriction 1 (.name 5), .name 2,
    .restriction 1 (.conjunction [.restriction 0 (.name 2), .name 5])]

theorem NormalConcept.constructedOver_sampleNested {store : AtomStore}
    (b : store.symbol? 2 = some "B") (c : store.symbol? 5 = some "C")
    (s : store.roleName? 0 = some "s") (r : store.roleName? 1 = some "r") :
    sampleNested.ConstructedOver store := by
  refine .conjunction ?_
  simp only [List.forall_mem_cons, List.not_mem_nil, false_imp_iff,
    implies_true, and_true]
  refine ⟨.restriction r (.name c), .name b, .restriction r (.conjunction ?_)⟩
  simp only [List.forall_mem_cons, List.not_mem_nil, false_imp_iff,
    implies_true, and_true]
  exact ⟨.restriction s (.name b), .name c⟩

theorem Unifier.expanded_values_read_back_sampleVariant :
    ∃ goal, ((GoalBuilder.new Goal.sampleBackground {}).performAll
        Goal.sampleCalls).build = .ok goal ∧
      NormalConcept.sampleNested.ConstructedOver goal.store ∧
      (∃ concept,
        NormalConcept.sampleNested.toConcept? goal.store = some concept ∧
        concept.toTerm.normalForm? goal.store =
          some NormalConcept.sampleNested) ∧
      NormalConcept.sampleNested.toConcept? goal.store ≠
        (NormalConcept.name 2).toConcept? goal.store ∧
      ∃ view, UnifierView.ofUnifier? goal
          (ofAssignment goal Goal.sampleVariant) = some view ∧
        List.Forall₂
          (fun binding shown => BindingView.Shows shown goal
            (ofAssignment goal Goal.sampleVariant) binding)
          (ofAssignment goal Goal.sampleVariant).bindings view.bindings := by
  obtain ⟨goal, built, _, _, _, solution⟩ := Goal.exists_build_sampleCalls
  obtain ⟨_, _, b, c, s, r⟩ := Goal.stored_sampleCalls built
  have nested := NormalConcept.constructedOver_sampleNested b c s r
  have different : NormalConcept.sampleNested ≠ NormalConcept.name 2 := by
    decide +kernel
  obtain ⟨reads, distinct, shows_⟩ := expanded_values_read_back (.built built)
  exact ⟨goal, built, nested, reads _ nested,
    distinct _ _ nested (.name b) different,
    shows_ Goal.sampleVariant solution.choices solution.acyclic⟩

end Views

end ConceptUnification
