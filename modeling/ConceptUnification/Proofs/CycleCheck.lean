import Mathlib.Algebra.Order.Ring.Nat
import ConceptUnification.Proofs.NodeInvariant

/-!
# The cycle check

The loop behind the cycle check visits variables depth first and remembers the
ones it has seen.  It comes to an end on every graph, cyclic ones included: a
visited variable takes its pairs out of the search, so `Assignment.reaches?`
answers as the loop does.  On an acyclic assignment the answer is exact, and
an extension of a node fails for no other reason.
-/

namespace ConceptUnification

namespace Assignment

section Loop

variable (assignment : Assignment) (store : AtomStore) (target : AtomId)

/-- The loop that looks for the target, with the variables it has seen and
those that are left to visit.  It is lost when it meets a number that no atom
has. -/
inductive Walks : List AtomId → List AtomId → Option Bool → Prop where
  | exhausted {seen : List AtomId} : Walks seen [] (some false)
  | arrived {seen rest : List AtomId} : Walks seen (target :: rest) (some true)
  | passed {seen rest : List AtomId} {x : AtomId} {answer : Option Bool}
      (different : x ≠ target) (already : x ∈ seen)
      (onward : Walks seen rest answer) : Walks seen (x :: rest) answer
  | lost {seen rest : List AtomId} {x : AtomId} (different : x ≠ target)
      (fresh : x ∉ seen)
      (missing : dependencies? store (atomsOf assignment.pairs.toList x) =
        none) : Walks seen (x :: rest) none
  | followed {seen rest found : List AtomId} {x : AtomId}
      {answer : Option Bool} (different : x ≠ target) (fresh : x ∉ seen)
      (successors : dependencies? store (atomsOf assignment.pairs.toList x) =
        some found)
      (onward : Walks (x :: seen) (found.reverse ++ rest) answer) :
      Walks seen (x :: rest) answer

/-- The check whether one more subsumer of `x` closes a cycle: only the
variable below a restriction is looked for. -/
inductive ChecksCycle (x atom : AtomId) : Option Bool → Prop where
  | missing (absent : dependency? store atom = none) :
      ChecksCycle x atom none
  | independent (ground : dependency? store atom = some none) :
      ChecksCycle x atom (some false)
  | searched {filler : AtomId} {answer : Option Bool}
      (depends : dependency? store atom = some (some filler))
      (walks : assignment.Walks store x [] [filler] answer) :
      ChecksCycle x atom answer

/-- The pairs of the variables that have not been seen. -/
def unseenPairs (seen : List AtomId) : List (AtomId × AtomId) :=
  assignment.pairs.toList.filter fun pair => decide (pair.1 ∉ seen)

end Loop

variable {assignment : Assignment} {store : AtomStore} {target : AtomId}
  {seen rest : List AtomId} {x : AtomId}

@[simp] theorem unseenPairs_nil :
    assignment.unseenPairs [] = assignment.pairs.toList := by
  simp [unseenPairs]

theorem pairsWithout_unseenPairs :
    pairsWithout (assignment.unseenPairs seen) x =
      assignment.unseenPairs (x :: seen) := by
  simp only [pairsWithout, unseenPairs, List.filter_filter]
  apply List.filter_congr
  rintro ⟨y, atom⟩ _
  by_cases same : y = x <;> simp [same]

/-- All pairs of a variable that has not been seen are there. -/
theorem atomsOf_unseenPairs (fresh : x ∉ seen) :
    atomsOf (assignment.unseenPairs seen) x =
      atomsOf assignment.pairs.toList x := by
  simp only [atomsOf, unseenPairs, List.filter_filter]
  congr 1
  apply List.filter_congr
  rintro ⟨y, atom⟩ _
  by_cases same : y = x
  · subst same
    simp [fresh]
  · simp [same]

theorem atomsOf_unseenPairs_of_mem (already : x ∈ seen) :
    atomsOf (assignment.unseenPairs seen) x = [] := by
  rw [List.eq_nil_iff_forall_not_mem]
  intro atom member
  rw [mem_atomsOf, unseenPairs, List.mem_filter] at member
  exact absurd already (by simpa using member.2)

/-- Without pairs to leave it, a variable is dropped from the search. -/
theorem reaches?_cons_of_mem (different : x ≠ target) (already : x ∈ seen) :
    reaches? store target (assignment.unseenPairs seen) (x :: rest) =
      reaches? store target (assignment.unseenPairs seen) rest := by
  have stays : assignment.unseenPairs (x :: seen) =
      assignment.unseenPairs seen := by
    apply List.filter_congr
    rintro ⟨y, atom⟩ _
    by_cases same : y = x
    · subst same
      simp [already]
    · simp [same]
  rw [reaches?, if_neg (by simpa using different)]
  split
  · next missing =>
      rw [atomsOf_unseenPairs_of_mem already] at missing
      cases missing
  · next found followed =>
      rw [atomsOf_unseenPairs_of_mem already] at followed
      cases followed
      rw [pairsWithout_unseenPairs, stays]
      rfl

/-- The loop answers as the search that takes the pairs of visited variables
out. -/
theorem Walks.reaches? {todo : List AtomId} {answer : Option Bool}
    (walks : assignment.Walks store target seen todo answer) :
    reaches? store target (assignment.unseenPairs seen) todo = answer := by
  induction walks with
  | exhausted => rw [Assignment.reaches?]
  | arrived => rw [Assignment.reaches?, if_pos (by simp)]
  | passed different already _ induction =>
      rw [reaches?_cons_of_mem different already]
      exact induction
  | lost different fresh missing =>
      rw [Assignment.reaches?, if_neg (by simpa using different)]
      split
      · rfl
      · next found followed =>
          rw [atomsOf_unseenPairs fresh, missing] at followed
          cases followed
  | followed different fresh successors _ induction =>
      rw [Assignment.reaches?, if_neg (by simpa using different)]
      split
      · next missing =>
          rw [atomsOf_unseenPairs fresh, successors] at missing
          cases missing
      · next found followed =>
          rw [atomsOf_unseenPairs fresh, successors] at followed
          cases followed
          rw [pairsWithout_unseenPairs]
          exact induction

/-- The loop comes to an end: each step visits a variable for the first time
or shortens what is left, and a visited variable keeps no pairs. -/
theorem exists_walks (assignment : Assignment) (store : AtomStore)
    (target : AtomId) (seen todo : List AtomId) :
    ∃ answer, assignment.Walks store target seen todo answer := by
  match todo with
  | [] => exact ⟨_, .exhausted⟩
  | x :: rest =>
      by_cases same : x = target
      · subst same
        exact ⟨_, .arrived⟩
      · by_cases already : x ∈ seen
        · obtain ⟨answer, onward⟩ :=
            exists_walks assignment store target seen rest
          exact ⟨answer, .passed same already onward⟩
        · cases successors : dependencies? store
              (atomsOf assignment.pairs.toList x) with
          | none => exact ⟨none, .lost same already successors⟩
          | some found =>
              obtain ⟨answer, onward⟩ := exists_walks assignment store target
                (x :: seen) (found.reverse ++ rest)
              exact ⟨answer, .followed same already successors onward⟩
termination_by (assignment.unseenPairs seen).length + todo.length
decreasing_by
  · simp
  · have shorter := length_dependencies?_le successors
    have split := length_atomsOf_add_length_pairsWithout
      (assignment.unseenPairs seen) x
    rw [pairsWithout_unseenPairs, atomsOf_unseenPairs already] at split
    simp only [List.length_append, List.length_reverse, List.length_cons]
    omega

theorem walks_iff {todo : List AtomId} {answer : Option Bool} :
    assignment.Walks store target seen todo answer ↔
      reaches? store target (assignment.unseenPairs seen) todo = answer := by
  constructor
  · exact Walks.reaches?
  · intro answered
    obtain ⟨other, walks⟩ := exists_walks assignment store target seen todo
    rw [← answered, walks.reaches?]
    exact walks

theorem checksCycle_iff {atom : AtomId} {answer : Option Bool} :
    assignment.ChecksCycle store x atom answer ↔
      assignment.createsCycle? store x atom = answer := by
  have searched : ∀ filler,
      assignment.Walks store x [] [filler] answer ↔
        reaches? store x assignment.pairs.toList [filler] = answer := by
    intro filler
    rw [walks_iff, unseenPairs_nil]
  unfold createsCycle?
  constructor
  · rintro (absent | ground | ⟨depends, walks⟩)
    · rw [absent]
    · rw [ground]
    · rw [depends]
      exact (searched _).mp walks
  · intro answered
    split at answered
    · next absent => exact answered ▸ .missing absent
    · next ground => exact answered ▸ .independent ground
    · next filler depends =>
        exact .searched depends ((searched filler).mpr answered)

end Assignment

namespace SearchNode

variable {node extended : SearchNode} {store : AtomStore} {x atom : AtomId}

theorem assignment_extend
    (success : node.extend store x atom = .ok extended) :
    extended.assignment = node.assignment.insert x atom := by
  cases chosen : node.assignment.contains x atom with
  | true =>
      rw [extend_of_contains chosen] at success
      cases success
      apply Assignment.eq_of_contains_iff
      intro y other
      rw [Assignment.contains_insert]
      constructor
      · exact .inr
      · rintro (⟨rfl, rfl⟩ | old)
        · exact chosen
        · exact old
  | false => exact (extend_eq_ok success chosen).2.assignment

/-- An extension succeeds if the subsumer is there already or if no cycle is
reported for it. -/
theorem extend_success_iff :
    (∃ extended, node.extend store x atom = .ok extended) ↔
      node.assignment.contains x atom = true ∨
        node.assignment.createsCycle? store x atom = some false := by
  unfold extend
  split
  · next chosen => simp [chosen]
  · next fresh => split <;> simp_all

theorem createsCycle?_of_extend_error
    (conflict : node.extend store x atom = .error .conflict) :
    node.assignment.createsCycle? store x atom = some true := by
  unfold extend at conflict
  split at conflict
  · cases conflict
  · split at conflict
    · cases conflict
    · next cycle => exact cycle
    · cases conflict

end SearchNode

namespace Assignment

/-- The cycle check ends on every assignment.  On an acyclic one it says
whether the new subsumer closes a cycle, so the extensions of a node stay
acyclic and none that does so is refused. -/
theorem cycleCheck_exact (assignment : Assignment) (store : AtomStore)
    (x atom : AtomId) :
    (∀ answer, assignment.ChecksCycle store x atom answer ↔
      assignment.createsCycle? store x atom = answer) ∧
    (assignment.Known store → atom < store.size →
      ∃ answer, assignment.createsCycle? store x atom = some answer) ∧
    (assignment.Acyclic store →
      (∀ answer, assignment.createsCycle? store x atom = some answer →
        (answer = true ↔ ¬ (assignment.insert x atom).Acyclic store)) ∧
      ∀ node : SearchNode, node.assignment = assignment →
        (∀ extended, node.extend store x atom = .ok extended →
          extended.assignment = assignment.insert x atom ∧
            extended.assignment.Acyclic store) ∧
        (node.extend store x atom = .error .conflict →
          ¬ (assignment.insert x atom).Acyclic store) ∧
        (assignment.Known store → atom < store.size →
          (assignment.insert x atom).Acyclic store →
            ∃ extended, node.extend store x atom = .ok extended)) := by
  refine ⟨fun answer => checksCycle_iff, exists_createsCycle?, ?_⟩
  intro acyclic
  refine ⟨fun answer => acyclic.createsCycle?_iff, ?_⟩
  rintro node rfl
  refine ⟨?_, ?_, ?_⟩
  · intro extended success
    have grown := SearchNode.assignment_extend success
    refine ⟨grown, ?_⟩
    rcases SearchNode.extend_success_iff.mp ⟨extended, success⟩ with
      chosen | safe
    · rw [SearchNode.extend_of_contains chosen] at success
      cases success
      exact acyclic
    · rw [grown]
      exact acyclic.insert safe
  · intro conflict
    exact (acyclic.createsCycle?_iff
      (SearchNode.createsCycle?_of_extend_error conflict)).mp rfl
  · intro known stored stays
    obtain ⟨answer, answered⟩ := exists_createsCycle? (x := x) known stored
    refine SearchNode.extend_success_iff.mpr (.inr ?_)
    cases answer with
    | false => exact answered
    | true => exact ((acyclic.createsCycle?_iff answered).mp rfl stays).elim

/-- The variables `X`, `Y` and `Z`, and a restriction over each of them. -/
def chainStore : AtomStore :=
  let named := ["X", "Y", "Z"].foldl
    (fun store symbol => (store.internName symbol).2) (∅ : AtomStore)
  let varying := [0, 1, 2].foldl
    (fun store x => store.setKind x .userVariable) named
  [0, 1, 2].foldl (fun store x =>
    ((store.internRestriction "r" x).toOption.map Prod.snd).getD store) varying

/-- `X` depends on `Y`, and `Y` on `Z`. -/
def chain : Assignment :=
  .ofList [(0, 4), (1, 5)]

/-- The restriction over `X` closes a cycle below `Z`, and the one over `Z`
closes none below `X`. -/
theorem cycleCheck_exact_chain :
    chain.Acyclic chainStore ∧ chain.Known chainStore ∧
      chain.createsCycle? chainStore 2 3 = some true ∧
      ¬ (chain.insert 2 3).Acyclic chainStore ∧
      chain.createsCycle? chainStore 0 5 = some false ∧
      (chain.insert 0 5).Acyclic chainStore ∧
      (∃ extended, ({ assignment := chain } : SearchNode).extend chainStore 0 5 =
        .ok extended ∧ extended.assignment = chain.insert 0 5) := by
  have acyclic : chain.Acyclic chainStore :=
    (Ranked.of_pairs (fun id => [4, 2, 0, 5, 3, 1].getD id 0)
      (by decide +kernel) (by decide +kernel)).acyclic
  have known : chain.Known chainStore := by
    intro x atom chosen
    rw [contains_iff, OrderedSet.mem_iff] at chosen
    have stored : ∀ pair ∈ chain.pairs.toList, pair.2 < chainStore.size := by
      decide +kernel
    exact stored (x, atom) chosen
  obtain ⟨loop, -, exact_⟩ := cycleCheck_exact chain chainStore 2 3
  obtain ⟨loop', answers, exact'⟩ := cycleCheck_exact chain chainStore 0 5
  have belowX : dependencies? chainStore (atomsOf chain.pairs.toList 0) =
      some [1] := by decide +kernel
  have belowY : dependencies? chainStore (atomsOf chain.pairs.toList 1) =
      some [2] := by decide +kernel
  have belowZ : dependencies? chainStore (atomsOf chain.pairs.toList 2) =
      some [] := by decide +kernel
  have fillerX : dependency? chainStore 3 = some (some 0) := by decide +kernel
  have fillerZ : dependency? chainStore 5 = some (some 2) := by decide +kernel
  have closing : chain.createsCycle? chainStore 2 3 = some true :=
    (loop _).mp (.searched fillerX (.followed (by decide) (by decide) belowX
      (.followed (by decide) (by decide) belowY .arrived)))
  have open_ : chain.createsCycle? chainStore 0 5 = some false :=
    (loop' _).mp (.searched fillerZ (.followed (by decide) (by decide) belowZ
      .exhausted))
  obtain ⟨answer, extends_⟩ := exact' acyclic
  have stays : (chain.insert 0 5).Acyclic chainStore := by
    by_contra cyclic
    exact absurd ((answer false open_).mpr cyclic) (by simp)
  obtain ⟨grown, -, accepted⟩ := extends_ { assignment := chain } rfl
  obtain ⟨extended, success⟩ := accepted known (by decide +kernel) stays
  exact ⟨acyclic, known, closing,
    ((exact_ acyclic).1 true closing).mp rfl, open_, stays,
    extended, success, (grown extended success).1⟩

end Assignment

end ConceptUnification
