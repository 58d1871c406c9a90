import Std.Data.HashMap
import ConceptUnification.Assignment
import ConceptUnification.Goal

/-!
# Nodes of the rule search

A node holds an assignment and the subsumptions known so far, each either solved or pending. Adding
a subsumer to a variable reopens what was solved with that variable as head: the body must also lie
below the new subsumer. Nodes are the same state of the search if their keys are equal, whatever the
order in which their subsumptions became known.
-/

namespace ConceptUnification

/-- Why a step on a node fails. -/
inductive NodeFailure where
  /-- The branch cannot lead to a unifier. -/
  | conflict
  /-- The node refers to a number that no atom has. -/
  | unknownAtom
deriving DecidableEq

/-- A subsumption that a node has to account for. -/
structure Obligation where
  subsumption : FlatSubsumption
  /-- Nothing is left to be done for it. -/
  solved : Bool
deriving DecidableEq, Hashable

/-- The index maps the subsumption of each obligation to its position, and holds no others. -/
def Indexes (index : Std.HashMap FlatSubsumption Nat) (obligations : Array Obligation) : Prop :=
  ∀ subsumption position, index[subsumption]? = some position ↔
    obligations[position]?.map Obligation.subsumption = some subsumption

namespace Indexes

variable {index : Std.HashMap FlatSubsumption Nat} {obligations : Array Obligation}

/-- A subsumption that is not in the index gets the next position. -/
theorem push (indexes : Indexes index obligations) {subsumption : FlatSubsumption}
    (fresh : index[subsumption]? = none) (solved : Bool) :
    Indexes (index.insert subsumption obligations.size)
      (obligations.push ⟨subsumption, solved⟩) := by
  intro other position
  rw [Std.HashMap.getElem?_insert, Array.getElem?_push]
  by_cases same : subsumption = other
  · subst same
    by_cases last : position = obligations.size
    · simp [last]
    · have absent := indexes subsumption position
      rw [fresh] at absent
      simp [last, ← absent, Ne.symm last]
  · by_cases last : position = obligations.size
    · have absent := indexes other position
      simp [last] at absent
      simp [last, same, absent]
    · simp [last, same, indexes other position]

/-- Marking obligations leaves their positions. -/
theorem modify (indexes : Indexes index obligations) (position : Nat) {change : Obligation → Obligation}
    (kept : ∀ o, (change o).subsumption = o.subsumption) :
    Indexes index (obligations.modify position change) := by
  intro subsumption other
  rw [indexes, Array.getElem?_modify]
  split
  · simp [Option.map_map, Function.comp_def, kept]
  · rfl

end Indexes

/-- A state of the rule search. -/
@[ext]
structure SearchNode where
  assignment : Assignment := ∅
  /-- The known subsumptions, in the order in which they became known. -/
  obligations : Array Obligation := #[]
  /-- The positions of the known subsumptions. -/
  index : Std.HashMap FlatSubsumption Nat := ∅
  /-- The position of the last candidate that a refinement added. -/
  refined : Option Nat := none
  /-- No subsumption is known twice. -/
  indexed : Indexes index obligations := by simp [Indexes]

instance : Inhabited SearchNode where
  default := {}

/-- Obligations by head, body and state. -/
def Obligation.order (a b : Obligation) : Ordering :=
  ((compare a.subsumption.head b.subsumption.head).then
    (compare a.subsumption.body.toList b.subsumption.body.toList)).then (compare a.solved b.solved)

/-- What distinguishes states of the search. -/
structure NodeKey where
  assignment : Assignment
  /-- The obligations in a fixed order. -/
  obligations : List Obligation
  /-- The position of the last candidate that a refinement added. -/
  refined : Option Nat
deriving DecidableEq, Hashable

namespace SearchNode

/-- Whether a subsumption is known. -/
def knows (node : SearchNode) (subsumption : FlatSubsumption) : Bool :=
  node.index.contains subsumption

/-- The node with a pending subsumption, unless it is already known. -/
def add (node : SearchNode) (subsumption : FlatSubsumption) : SearchNode :=
  if known : node.knows subsumption then node
  else
    { node with
      obligations := node.obligations.push ⟨subsumption, false⟩
      index := node.index.insert subsumption node.obligations.size
      indexed := node.indexed.push (by simpa [knows] using known) false }

/-- The node where nothing is solved yet. -/
def ofSubsumptions (subsumptions : List FlatSubsumption) : SearchNode :=
  subsumptions.foldl add {}

/-- The node where the obligation at a position is solved. -/
def markSolved (node : SearchNode) (position : Nat) : SearchNode :=
  { node with
    obligations := node.obligations.modify position fun o => { o with solved := true }
    indexed := node.indexed.modify position fun _ => rfl }

/-- The number of pending obligations. -/
def pending (node : SearchNode) : Nat :=
  node.obligations.countP (!·.solved)

/-- The position of the first pending obligation. -/
def firstPending? (node : SearchNode) : Option Nat :=
  node.obligations.findIdx? (!·.solved)

/-- The node with one more subsumer of a variable. Each solved obligation with this variable as head
brings the pending one with the new subsumer as head. A subsumer that is already there changes
nothing, and one that closes a cycle is a conflict. -/
def extend (node : SearchNode) (store : AtomStore) (x atom : AtomId) :
    Except NodeFailure SearchNode :=
  if node.assignment.contains x atom then .ok node
  else
    match node.assignment.createsCycle? store x atom with
    | none => .error .unknownAtom
    | some true => .error .conflict
    | some false =>
      let reopened := node.obligations.toList.filter fun o => o.solved && o.subsumption.head == x
      let extended := { node with assignment := node.assignment.insert x atom }
      .ok (reopened.foldl (fun node o => node.add ⟨o.subsumption.body, atom⟩) extended)

/-- Solves an obligation with a variable as head by requiring its body to lie below each subsumer of
the variable. Later subsumers are accounted for by `extend`. -/
def expandHead (node : SearchNode) (position : Nat) : SearchNode :=
  match node.obligations[position]? with
  | none => node
  | some obligation =>
    (node.assignment.subsumers obligation.subsumption.head).toList.foldl
      (fun node atom => node.add ⟨obligation.subsumption.body, atom⟩) (node.markSolved position)

/-- The node that remembers a candidate as its last refinement. -/
def withRefined (node : SearchNode) (position : Nat) : SearchNode :=
  { node with refined := some position }

/-- The position of the first candidate that may still refine the node. -/
def nextCandidate (node : SearchNode) : Nat :=
  match node.refined with
  | none => 0
  | some last => last + 1

/-- What distinguishes the node from others. -/
def key (node : SearchNode) : NodeKey where
  assignment := node.assignment
  obligations := node.obligations.toList.mergeSort fun a b => (a.order b).isLE
  refined := node.refined

end SearchNode

end ConceptUnification
