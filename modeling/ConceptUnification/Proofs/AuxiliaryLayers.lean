import ConceptUnification.Proofs.AuxiliaryNames

/-!
# Layers of auxiliary variables

An auxiliary variable is new when it is introduced, so it is younger than all
atoms of the conjunction that it stands for, and no two auxiliary variables are
the same atom.  Whatever a builder does later leaves the equations of auxiliary
variables as they are.
-/

namespace ConceptUnification

/-- Among elements with different values under a function, each one is found by
its own value. -/
theorem filter_eq_singleton {α β : Type} [DecidableEq α] {f : α → β}
    {l : List α} {a : α} {p : α → Bool} (distinct : (l.map f).Nodup)
    (member : a ∈ l) (test : ∀ b ∈ l, p b = true ↔ f b = f a) :
    l.filter p = [a] := by
  have same : ∀ b ∈ l, p b = (b == a) := by
    intro b inList
    rw [Bool.eq_iff_iff, test b inList, beq_iff_eq]
    exact ⟨List.inj_on_of_nodup_map distinct inList member, congrArg f⟩
  rw [List.filter_congr same, List.filter_beq,
    List.count_eq_one_of_mem (List.Nodup.of_map f distinct) member,
    List.replicate_one]

theorem AtomStore.internName_of_not_mem {store : AtomStore} {symbol : String}
    (fresh : symbol ∉ store.symbols) :
    (store.internName symbol).1 = store.size := by
  refine (intern_of_fresh ?_).1
  cases found : store.atoms.find? (.name symbol) with
  | none => rfl
  | some id =>
      exact absurd (mem_symbols.mpr ⟨id, findName?_eq_some_iff.mp found⟩) fresh

namespace GoalBuilder

/-- Auxiliary variables carry auxiliary names, are younger than the atoms that
they stand for and come in the order of their ages. -/
structure Layered (builder : GoalBuilder) : Prop where
  named : ∀ equation ∈ builder.auxiliary, ∃ number : Nat,
    builder.store.atom? equation.left =
      some (.name (builder.auxiliaryStem ++ toString number))
  below : ∀ equation ∈ builder.auxiliary, ∀ atom ∈ equation.right,
    atom < equation.left
  increasing : (builder.auxiliary.map Equation.left).Pairwise (· < ·)

section Layered

variable {mentioned : String → Prop} {before after : GoalBuilder}

theorem layered_new (background : Ontology Term) (config : Config) :
    (new background config).Layered where
  named := by simp [new]
  below := by simp [new]
  increasing := .nil

/-- The equations of auxiliary variables keep their places. -/
theorem Layered.develop (layered : before.Layered)
    (development : Develops before after)
    (same : after.auxiliary = before.auxiliary) : after.Layered where
  named := by
    intro equation member
    rw [same] at member
    obtain ⟨number, named⟩ := layered.named equation member
    refine ⟨number, ?_⟩
    rw [development.auxiliaryStem]
    exact development.extension _ _ named
  below := by
    rw [same]
    exact layered.below
  increasing := by
    rw [same]
    exact layered.increasing

/-- A new auxiliary variable is younger than everything that is stored. -/
theorem Layered.abbreviation (layered : before.Layered) {conjunction : AtomSet}
    (stored : before.store.Stores conjunction) :
    (before.withAbbreviation conjunction).Layered := by
  have youngest :=
    AtomStore.internName_of_not_mem before.freshSymbol_not_mem
  have named : (before.withAbbreviation conjunction).store.atom?
      (before.store.internName before.freshSymbol).1 =
        some (.name before.freshSymbol) := AtomStore.atom?_intern
  have development := develops_withAbbreviation before conjunction
  exact
    { named := by
        intro equation member
        rcases List.mem_append.mp member with old | new
        · obtain ⟨number, kept⟩ := layered.named equation old
          exact ⟨number, development.extension _ _ kept⟩
        · obtain rfl := List.mem_singleton.mp new
          exact ⟨before.freshNumber, named⟩
      below := by
        intro equation member atom inRight
        rcases List.mem_append.mp member with old | new
        · exact layered.below equation old atom inRight
        · obtain rfl := List.mem_singleton.mp new
          exact Nat.lt_of_lt_of_eq (stored atom inRight) youngest.symm
      increasing := by
        simp only [withAbbreviation, List.map_append, List.map_cons,
          List.map_nil]
        refine List.pairwise_append.mpr
          ⟨layered.increasing, List.pairwise_singleton _ _, ?_⟩
        intro left inOld right inNew
        obtain ⟨equation, member, rfl⟩ := List.mem_map.mp inOld
        obtain ⟨number, kept⟩ := layered.named equation member
        obtain rfl := List.mem_singleton.mp inNew
        exact Nat.lt_of_lt_of_eq (AtomStore.lt_size_of_atom? kept)
          youngest.symm }

theorem Change.layered (change : Change mentioned before after)
    (layered : before.Layered) : after.Layered := by
  cases change with
  | abbreviation inScope form new =>
      exact layered.abbreviation (Term.stores_flatForm? _ form)
  | name inScope => exact layered.develop (develops_withName _ _) rfl
  | undefinedPart found primitive =>
      exact layered.develop (develops_withName _ _) rfl
  | restriction named =>
      exact layered.develop (develops_withRestriction _ _ _) rfl
  | beginImport found inScope named new =>
      exact layered.develop (develops_withImport _ _) rfl
  | define found named form => exact layered.develop (develops_define _ _) rfl

theorem Path.layered (path : Path mentioned before after)
    (layered : before.Layered) : after.Layered :=
  Path.preserves Layered path (fun _ _ change => change.layered) layered

theorem Flattens.layered {term : Term} {flat : AtomSet}
    (flattens : Flattens before term flat after) (layered : before.Layered) :
    after.Layered :=
  (flattens.path closed_all fun _ _ => trivial).layered layered

theorem Builds.layered {calls : List BuilderCall}
    (builds : Builds before calls after) (layered : before.Layered) :
    after.Layered := by
  refine builds.preserves Layered closed_all (fun _ _ _ _ => trivial)
    (fun _ _ change => change.layered) ?_ ?_
    layered
  · intro builder constraint layered
    refine layered.develop (develops_add builder constraint) ?_
    cases constraint <;> rfl
  · intro builder symbol layered
    exact layered.develop (develops_declareUserVariable builder symbol) rfl

end Layered

end GoalBuilder

namespace Goal

/-- No name that occurs has the form of an auxiliary name. -/
def KeepsApart (background : Ontology Term) (config : Config)
    (calls : List BuilderCall) : Prop :=
  ∀ symbol, GoalBuilder.Occurs background calls symbol →
    ∀ number : Nat, symbol ≠ config.auxiliaryStem ++ toString number

/-- If no name that occurs has the form of an auxiliary name, all auxiliary
variables are auxiliary in the goal. -/
theorem hides_auxiliary {background : Ontology Term} {config : Config}
    {calls : List BuilderCall} {builder : GoalBuilder}
    (builds : GoalBuilder.Builds (.new background config) calls builder)
    (apart : KeepsApart background config calls) :
    ∀ equation ∈ builder.auxiliary,
      builder.finished.store.Hides (GoalBuilder.Occurs background calls)
        equation.left := by
  have run := builds.run_new
  have declares := run.declaresMentioned (fun _ member => by cases member)
  have foreseen : GoalBuilder.Foreseen
      (GoalBuilder.Occurs background calls) (.new background config) :=
    fun number _ occurs => (apart _ occurs number rfl).elim
  exact fun equation member =>
    ((run.hidden foreseen).auxiliary equation member).foldl_setKind declares

end Goal

end ConceptUnification
