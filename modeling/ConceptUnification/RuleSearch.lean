import Std.Data.HashSet
import ConceptUnification.Engine
import ConceptUnification.Statistics

/-!
# Search by rules

The search goes depth first through the nodes that the rules produce. A node is first saturated by
the eager rules. If an obligation is still pending, the alternatives for the first pending one
become its children. Otherwise the node is a leaf: its assignment is reported as a unifier unless a
negative constraint forbids it, and it is refined by every further candidate, so that assignments
with more subsumers than needed are reached as well. Nodes and assignments that were seen before are
skipped.

The stack of open nodes is kept between requests, so a request continues where the last one stopped.
The search ends because every child is lighter than its parent, where the weight of a node counts
the obligations that it may still acquire, those that are pending and the candidates still to be
tried.
-/

namespace ConceptUnification

/-- Replaces the first weight by any number of smaller ones. -/
inductive StackLighter : List Nat → List Nat → Prop
  /-- The first weight goes, and smaller ones take its place. -/
  | replace {below : List Nat} {weight : Nat} {rest : List Nat}
      (smaller : ∀ w ∈ below, w < weight) : StackLighter (below ++ rest) (weight :: rest)

theorem StackLighter.acc_cons (weight : Nat) :
    ∀ {rest : List Nat}, Acc StackLighter rest → Acc StackLighter (weight :: rest) := by
  induction weight using Nat.strongRecOn with
  | _ weight ih =>
    intro rest accessible
    constructor
    intro stack lighter
    generalize shape : weight :: rest = whole at lighter
    cases lighter with
    | @replace below weight' rest' smaller =>
      obtain ⟨rfl, rfl⟩ := List.cons.inj shape
      clear shape
      induction below with
      | nil => exact accessible
      | cons w below descend =>
        exact ih w (smaller w List.mem_cons_self)
          (descend fun v member => smaller v (List.mem_cons_of_mem _ member))

theorem StackLighter.wellFounded : WellFounded StackLighter := by
  constructor
  intro stack
  induction stack with
  | nil =>
    constructor
    intro other lighter
    cases lighter
  | cons weight rest ih => exact StackLighter.acc_cons weight ih

/-- The weights of the nodes on a stack, the top first. -/
structure StackWeights where
  /-- The weights. -/
  weights : List Nat

instance : WellFoundedRelation StackWeights where
  rel a b := StackLighter a.weights b.weights
  wf := InvImage.wf StackWeights.weights StackLighter.wellFounded

/-- What stays fixed during a search. -/
structure SearchSpace where
  goal : Goal
  /-- The pairs of a variable and a possible subsumer, in increasing order. -/
  candidates : Array (AtomId × AtomId)
  /-- No node ever holds more obligations than this. -/
  capacity : Nat
deriving Inhabited

/-- What a search remembers of the nodes that it has left. -/
structure SearchMemory where
  /-- The saturated nodes seen so far. -/
  visited : Std.HashSet NodeKey := ∅
  /-- The assignments of the leaves seen so far. -/
  reported : Std.HashSet Assignment := ∅
  stats : RuleStats := {}
deriving Inhabited

/-- The state of a search. -/
structure RuleSearch where
  space : SearchSpace
  /-- How many nodes one request may expand, where zero sets no limit. -/
  stepLimit : Nat
  /-- The open nodes, the top of the stack first. -/
  stack : List SearchNode
  /-- What is remembered of earlier nodes. -/
  memory : SearchMemory := {}
deriving Inhabited

/-- A computation that counts rule applications and may fail at a node. -/
abbrev SaturationM := ExceptT NodeFailure (StateM RuleStats)

namespace SearchNode

/-- Applies an eager rule to each pending obligation in turn, from a position on. Obligations that
are added on the way are met at the end. Also says whether any rule applied. -/
def sweep (store : AtomStore) (steps position : Nat) (node : SearchNode) (changed : Bool) :
    SaturationM (SearchNode × Bool) :=
  match steps with
  | 0 => return (node, changed)
  | steps + 1 =>
    match node.obligations[position]? with
    | none => return (node, changed)
    | some obligation =>
      if obligation.solved then sweep store steps (position + 1) node changed
      else do
        match ← firstEager? obligation.subsumption node.assignment store Rule.eagerRules with
        | none => sweep store steps (position + 1) node changed
        | some (rule, application) =>
          modify (RuleStats.recordEager rule)
          let node ← node.apply store position application
          sweep store steps (position + 1) node true

/-- Sweeps until no eager rule applies, at most `rounds` times. -/
def saturateWithin (store : AtomStore) (capacity : Nat) :
    (rounds : Nat) → SearchNode → SaturationM SearchNode
  | 0, node => return node
  | rounds + 1, node => do
    let (node, changed) ← node.sweep store capacity 0 false
    if changed then saturateWithin store capacity rounds node else return node

/-- Applies eager rules until none applies. Each sweep but the last one solves an obligation, so
there are no more sweeps than obligations, and one. -/
def saturate (node : SearchNode) (store : AtomStore) (capacity : Nat) : SaturationM SearchNode :=
  node.saturateWithin store capacity (capacity + 1)

/-- Counts each obligation that can still be acquired twice, each pending one once, and each
candidate that can still be tried once. -/
def weight (node : SearchNode) (capacity candidates : Nat) : Nat :=
  2 * (capacity - node.obligations.size) + node.pending + (candidates - node.nextCandidate)

end SearchNode

/-- What comes of expanding a node. -/
structure Expansion where
  /-- The children, the one to be expanded first in front. -/
  children : List SearchNode := []
  unifier : Option Unifier := none

namespace SearchSpace

/-- The number of different subsumptions between atoms of a goal that can become obligations: bodies
are those of the goal and single atoms. -/
def capacityOf (goal : Goal) : Nat :=
  (goal.positiveSubsumptions.length + goal.store.size) * goal.store.size

/-- The space of the assignments of a goal. -/
def ofGoal (goal : Goal) : SearchSpace where
  goal := goal
  candidates :=
    (goal.allVariables.flatMap fun x => goal.nonVariableAtoms.map fun atom => (x, atom)).toArray
  capacity := capacityOf goal

/-- The weight of a node in this space. -/
def weight (space : SearchSpace) (node : SearchNode) : Nat :=
  node.weight space.capacity space.candidates.size

/-- The refinements of a node by the candidates after its last one: what becomes of each candidate
that is new. -/
def refinements (space : SearchSpace) (node : SearchNode) :
    List (Except NodeFailure SearchNode) :=
  let later := space.candidates.toList.zipIdx.drop node.nextCandidate
  let fresh := later.filter fun ((x, atom), _) => !node.assignment.contains x atom
  fresh.map fun ((x, atom), position) =>
    (node.extend space.goal.store x atom).map (·.withRefined position)

/-- The branches of a node at an obligation: what becomes of each alternative, with the rule that
proposes it. -/
def branches (space : SearchSpace) (node : SearchNode) (position : Nat)
    (proposals : List (BranchingRule × Application)) :
    List (Except NodeFailure (BranchingRule × SearchNode)) :=
  proposals.map fun (rule, application) =>
    (node.apply space.goal.store position application).map (rule, ·)

end SearchSpace

namespace SearchMemory

/-- Changes the counters. -/
def count (memory : SearchMemory) (change : RuleStats → RuleStats) : SearchMemory :=
  { memory with stats := change memory.stats }

/-- Counts nodes or children that were given up. -/
def countFailures (memory : SearchMemory) (failures : Nat) : SearchMemory :=
  memory.count fun stats => { stats with failedBranches := stats.failedBranches + failures }

/-- Counts a leaf, and answers the unifier of its assignment. There is none if the assignment was
reported before or violates a negative constraint. -/
def reportLeaf (memory : SearchMemory) (goal : Goal) (assignment : Assignment) :
    Option Unifier × SearchMemory :=
  let memory := memory.count fun stats => { stats with leaves := stats.leaves + 1 }
  if memory.reported.contains assignment then
    (none, memory.count fun stats => { stats with repeatedLeaves := stats.repeatedLeaves + 1 })
  else
    let memory := { memory with reported := memory.reported.insert assignment }
    let unifier := Unifier.ofAssignment goal assignment
    if goal.hasNegative && unifier.respectsNegative? goal != some true then
      (none, memory.count fun stats => { stats with rejectedLeaves := stats.rejectedLeaves + 1 })
    else (some unifier, memory)

/-- Expands a saturated node without pending obligations, where `height` nodes are left on the
stack. -/
def expandLeaf (memory : SearchMemory) (space : SearchSpace) (node : SearchNode) (height : Nat) :
    Expansion × SearchMemory :=
  let outcomes := space.refinements node
  let children := outcomes.filterMap Except.toOption
  let memory := memory.countFailures (outcomes.length - children.length)
  let memory := memory.count fun stats =>
    { stats with refinements := stats.refinements + children.length }.recordDepth
      (children.length + height)
  let (unifier, memory) := memory.reportLeaf space.goal node.assignment
  ({ children, unifier }, memory)

/-- Expands a saturated node at its first pending obligation, where `height` nodes are left on the
stack. -/
def expandBranch (memory : SearchMemory) (space : SearchSpace) (node : SearchNode)
    (position : Nat) (subsumption : FlatSubsumption) (height : Nat) : Expansion × SearchMemory :=
  match alternatives subsumption space.goal.store Rule.branchingRules with
  | .error _ | .ok [] => ({}, memory.countFailures 1)
  | .ok proposals =>
    let outcomes := space.branches node position proposals
    let created := outcomes.filterMap Except.toOption
    let memory := memory.countFailures (outcomes.length - created.length)
    let memory := memory.count fun stats =>
      (created.foldl (fun stats child => stats.recordBranch child.1) stats).recordDepth
        (created.length + height)
    ({ children := created.map Prod.snd }, memory)

/-- Expands a node that was taken from the stack, where `height` nodes are left on the stack. -/
def expand (memory : SearchMemory) (space : SearchSpace) (node : SearchNode) (height : Nat) :
    Expansion × SearchMemory :=
  let memory := memory.count fun stats => { stats with nodesExpanded := stats.nodesExpanded + 1 }
  let (outcome, stats) :=
    (node.saturate space.goal.store space.capacity).run.run memory.stats
  let memory := { memory with stats }
  match outcome with
  | .error _ => ({}, memory.countFailures 1)
  | .ok node =>
    let key := node.key
    if memory.visited.contains key then
      ({}, memory.count fun stats => { stats with memoizedSkips := stats.memoizedSkips + 1 })
    else
      let memory := { memory with visited := memory.visited.insert key }
      match node.firstPending? with
      | none => memory.expandLeaf space node height
      | some position =>
        match node.obligations[position]? with
        | none => ({}, memory)
        | some obligation => memory.expandBranch space node position obligation.subsumption height

end SearchMemory

namespace RuleSearch

/-- The search of a goal at its start. -/
def new (goal : Goal) (stepLimit : Nat) : RuleSearch where
  space := .ofGoal goal
  stepLimit := stepLimit
  stack := [.ofSubsumptions goal.positiveSubsumptions]

/-- Expands nodes of the stack until a unifier is found, all nodes are expanded, the request is
cancelled or its steps are used up. Each round looks at the cancel flag once. Only children that are
lighter than their parent are pushed, which holds of all of them. -/
def resume (space : SearchSpace) (stepLimit : Nat) (cancelled : CancelSchedule) (steps : Nat)
    (stack : List SearchNode) (memory : SearchMemory) :
    Answer × List SearchNode × SearchMemory :=
  if cancelled steps then (.error .interrupted, stack, memory)
  else if stepLimit != 0 && stepLimit ≤ steps then
    (.error (.stepLimitExceeded stepLimit), stack, memory)
  else
    match stack with
    | [] => (.ok none, [], memory)
    | node :: rest =>
      match memory.expand space node rest.length with
      | (expansion, memory) =>
        let stack := expansion.children.filter (space.weight · < space.weight node) ++ rest
        match expansion.unifier with
        | some unifier => (.ok (some unifier), stack, memory)
        | none => resume space stepLimit cancelled (steps + 1) stack memory
termination_by StackWeights.mk (stack.map space.weight)
decreasing_by
  simp only [List.map_append, List.map_cons]
  refine StackLighter.replace ?_
  intro weight member
  obtain ⟨child, kept, rfl⟩ := List.mem_map.mp member
  simpa using (List.mem_filter.mp kept).2

/-- Continues the search up to the next unifier. -/
def next (cancelled : CancelSchedule) (search : RuleSearch) : Answer × RuleSearch :=
  match resume search.space search.stepLimit cancelled 0 search.stack search.memory with
  | (answer, stack, memory) => (answer, { search with stack, memory })

instance : Engine RuleSearch where
  name _ := "rule"
  next := next
  info search := search.memory.stats.info

end RuleSearch

end ConceptUnification
