import ConceptUnification.AtomStore

/-!
# Assignments of subsumers

An assignment says for each variable which non-variable atoms its value is to lie below. It induces
a substitution as long as no variable depends on itself, where a variable depends on the variables
that occur as fillers of its subsumers. `Assignment.createsCycle?` decides whether one more subsumer
would close such a cycle.
-/

namespace ConceptUnification

/-- Pairs are ordered by their first component and then by their second one. -/
def pairOrder : AtomId × AtomId → AtomId × AtomId → Ordering :=
  compareLex (compareOn Prod.fst) (compareOn Prod.snd)

instance : Std.TransCmp pairOrder :=
  inferInstanceAs (Std.TransCmp (compareLex (compareOn Prod.fst) (compareOn Prod.snd)))

instance : Std.LawfulEqCmp pairOrder where
  eq_of_compare := by
    intro (x, a) (y, b) same
    simp only [pairOrder, compareLex, compareOn, Ordering.then_eq_eq, Nat.compare_eq_eq] at same
    simp [same.1, same.2]

/-- Chosen subsumers, as a finite set of pairs of a variable and an atom. -/
structure Assignment where
  /-- The pairs of a variable and one of its subsumers. -/
  pairs : OrderedSet (AtomId × AtomId) pairOrder
deriving DecidableEq, Hashable

namespace Assignment

instance : EmptyCollection Assignment where
  emptyCollection := ⟨∅⟩

instance : Inhabited Assignment where
  default := ∅

/-- Whether an atom is a chosen subsumer of a variable. -/
def contains (assignment : Assignment) (x atom : AtomId) : Bool :=
  (x, atom) ∈ assignment.pairs

/-- The assignment with one more subsumer. -/
def insert (assignment : Assignment) (x atom : AtomId) : Assignment :=
  ⟨Insert.insert (x, atom) assignment.pairs⟩

/-- The second components of the pairs that start at `x`. -/
def atomsOf (pairs : List (AtomId × AtomId)) (x : AtomId) : List AtomId :=
  (pairs.filter (·.1 == x)).map Prod.snd

/-- The pairs that do not start at `x`. -/
def pairsWithout (pairs : List (AtomId × AtomId)) (x : AtomId) : List (AtomId × AtomId) :=
  pairs.filter (·.1 != x)

/-- The chosen subsumers of a variable. -/
def subsumers (assignment : Assignment) (x : AtomId) : AtomSet :=
  .ofList (atomsOf assignment.pairs.toList x)

/-- The variables that have a subsumer, in increasing order. -/
def support (assignment : Assignment) : List AtomId :=
  (assignment.pairs.toList.map Prod.fst).eraseDups

/-- The assignment that chooses the pairs of a list. -/
def ofList (pairs : List (AtomId × AtomId)) : Assignment :=
  ⟨.ofList pairs⟩

/-- The variable that the value of an atom depends on: the filler of a restriction over a variable.
The outer answer is missing for a number that no atom has. -/
def dependency? (store : AtomStore) (atom : AtomId) : Option (Option AtomId) :=
  match store.atom? atom with
  | none => none
  | some (.name _) => some none
  | some (.restriction _ filler) => some (if store.isVariable filler then some filler else none)

/-- The variables that the values of some atoms depend on, in the order of the atoms. -/
def dependencies? (store : AtomStore) : List AtomId → Option (List AtomId)
  | [] => some []
  | atom :: atoms =>
    match dependency? store atom, dependencies? store atoms with
    | some found, some others => some (found.toList ++ others)
    | _, _ => none

theorem length_dependencies?_le {store : AtomStore} {atoms found : List AtomId}
    (answered : dependencies? store atoms = some found) : found.length ≤ atoms.length := by
  induction atoms generalizing found with
  | nil => simp_all [dependencies?]
  | cons atom atoms ih =>
    simp only [dependencies?] at answered
    split at answered
    · next first others _ rest =>
      have shorter := ih rest
      cases answered
      cases first <;> simp <;> omega
    · cases answered

theorem length_atomsOf_add_length_pairsWithout (pairs : List (AtomId × AtomId)) (x : AtomId) :
    (atomsOf pairs x).length + (pairsWithout pairs x).length = pairs.length := by
  induction pairs with
  | nil => rfl
  | cons pair pairs ih =>
    simp only [atomsOf, pairsWithout, List.length_map] at ih
    by_cases same : pair.1 = x
    · simp [atomsOf, pairsWithout, same]
      omega
    · simp [atomsOf, pairsWithout, same]
      omega

/-- Whether `target` can be reached from a variable of `todo` along dependencies. The variables are
visited depth first. A variable is left together with its pairs, so each pair is followed once.
There is no answer if the search meets a number that no atom has. -/
def reaches? (store : AtomStore) (target : AtomId) (pairs : List (AtomId × AtomId))
    (todo : List AtomId) : Option Bool :=
  match todo with
  | [] => some false
  | x :: rest =>
    if x == target then some true
    else
      match _followed : dependencies? store (atomsOf pairs x) with
      | none => none
      | some found => reaches? store target (pairsWithout pairs x) (found.reverse ++ rest)
termination_by pairs.length + todo.length
decreasing_by
  have shorter := length_dependencies?_le _followed
  have split := length_atomsOf_add_length_pairsWithout pairs x
  simp only [List.length_append, List.length_reverse, List.length_cons]
  omega

/-- Whether choosing one more subsumer of a variable makes the variable depend on itself. Only a
restriction over a variable can do so. There is no answer if a number is met that no atom has. -/
def createsCycle? (assignment : Assignment) (store : AtomStore) (x atom : AtomId) : Option Bool :=
  match dependency? store atom with
  | none => none
  | some none => some false
  | some (some filler) => reaches? store x assignment.pairs.toList [filler]

end Assignment

end ConceptUnification
