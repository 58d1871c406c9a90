import ConceptUnification.AtomStore
import ConceptUnification.NormalForm

/-!
# Substitutions

Bindings map variables to flat conjunctions of atoms, in which further variables may occur. The
substitution of given bindings maps variables to normal forms without bound variables. It is found
in rounds: a round evaluates the bindings that mention only variables whose values are known, until
a round finds none. Each binding is evaluated once, however often its variable occurs. A variable
that depends on itself has no value, and neither has one that depends on a number without an atom.
-/

namespace ConceptUnification

/-- The conjunction that a variable is mapped to. -/
structure Binding where
  name : AtomId
  /-- Its value, whose restrictions may have variables as fillers. -/
  conjunction : AtomSet
deriving DecidableEq

/-- The values of the bound variables of a store, as far as they are known. -/
structure Substitution where
  store : AtomStore
  /-- The variables with their values. -/
  values : List (AtomId × NormalConcept) := []
  /-- The bindings of the variables whose values are not known. -/
  pending : List Binding

namespace Substitution

/-- The value of a concept name. A name that is no bound variable stands for itself. -/
def name? (substitution : Substitution) (id : AtomId) : Option NormalConcept :=
  match substitution.values.lookup id with
  | some value => some value
  | none => if substitution.pending.any (·.name == id) then none else some (.name id)

/-- The value of an atom. -/
def atom? (substitution : Substitution) (id : AtomId) : Option NormalConcept :=
  match substitution.store.atom? id with
  | none => none
  | some (.name _) => substitution.name? id
  | some (.restriction role filler) =>
    if (substitution.store.symbol? filler).isSome then
      (substitution.name? filler).map (.restriction role)
    else none

/-- The value of a conjunction. -/
def conjunction? (substitution : Substitution) (conjunction : AtomSet) : Option NormalConcept :=
  (conjunction.toList.mapM substitution.atom?).map .conjunction

/-- The variables that get a value in the next round, with their values. -/
def ready (substitution : Substitution) : List (AtomId × NormalConcept) :=
  substitution.pending.filterMap fun binding =>
    (substitution.conjunction? binding.conjunction).map (binding.name, ·)

/-- The bindings that are still pending after a round that found some values. -/
def waiting (substitution : Substitution) (found : List (AtomId × NormalConcept)) : List Binding :=
  substitution.pending.filter fun binding => (found.lookup binding.name).isNone

theorem length_waiting_lt {substitution : Substitution} {value : AtomId × NormalConcept}
    {others : List (AtomId × NormalConcept)} (found : substitution.ready = value :: others) :
    (substitution.waiting (value :: others)).length < substitution.pending.length := by
  have member : value ∈ substitution.ready := by simp [found]
  obtain ⟨binding, pending, evaluated⟩ := List.mem_filterMap.mp member
  obtain ⟨_, _, rfl⟩ := Option.map_eq_some_iff.mp evaluated
  exact List.length_filter_lt_length_iff_exists.mpr ⟨binding, pending, by simp⟩

/-- Evaluates bindings in rounds until no further one can be evaluated. -/
def resolve (substitution : Substitution) : Substitution :=
  match _found : substitution.ready with
  | [] => substitution
  | value :: others =>
    resolve { substitution with
      values := value :: others ++ substitution.values
      pending := substitution.waiting (value :: others) }
termination_by substitution.pending.length
decreasing_by exact length_waiting_lt _found

/-- The substitution of the bindings of the variables of a store. -/
def ofBindings (store : AtomStore) (bindings : List Binding) : Substitution :=
  resolve { store, pending := bindings.filter (store.isVariable ·.name) }

end Substitution

end ConceptUnification
