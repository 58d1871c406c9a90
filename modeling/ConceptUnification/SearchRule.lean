import ConceptUnification.SearchNode

/-!
# Rules of the search

Each rule looks at one pending subsumption of a node and proposes ways to deal with it. Eager rules
propose at most one, which loses no unifier. Branching rules propose one alternative for each way in
which the subsumption could be solved. `Rule.table` lists the rules in the order in which they are
tried.
-/

namespace ConceptUnification

/-- A rule that can be applied without branching. -/
inductive EagerRule where
  /-- Without variables, the head has to be one of the conjuncts. -/
  | groundSolving
  /-- The head is one of the conjuncts. -/
  | solving
  /-- The head is a chosen subsumer of a variable among the conjuncts. -/
  | assignmentSolving
  /-- The head is a variable, so that the body has to lie below its subsumers. -/
  | expansion
  /-- All other conjuncts are subsumers of one variable, which must take the head as well. -/
  | extension
deriving DecidableEq

/-- A rule that proposes alternatives. -/
inductive BranchingRule where
  /-- A conjunct restricts the same role as the head, and its filler lies below that of the head. -/
  | decomposition
  /-- A variable among the conjuncts takes the head as a subsumer. -/
  | extension
deriving DecidableEq

/-- A rule of the search. -/
inductive Rule where
  /-- Applied without branching. -/
  | eager (rule : EagerRule)
  /-- Applied by branching. -/
  | branching (rule : BranchingRule)
deriving DecidableEq

/-- What a rule does with a subsumption. Everything except `fail` solves it. -/
inductive Application where
  /-- Nothing is left to be done. -/
  | solve
  | fail
  /-- The variable takes one more subsumer. -/
  | extend (x atom : AtomId)
  /-- The body has to lie below the head. -/
  | decompose (body head : AtomId)
  /-- The body has to lie below each subsumer of the head. -/
  | expandHead
deriving DecidableEq

namespace Rule

/-- All eager rules, in the order in which they are tried. -/
def eagerRules : List EagerRule :=
  [.groundSolving, .solving, .assignmentSolving, .expansion, .extension]

/-- All branching rules, in the order in which their alternatives are explored. -/
def branchingRules : List BranchingRule :=
  [.decomposition, .extension]

/-- All rules. Eager ones come first. -/
def table : List Rule :=
  eagerRules.map .eager ++ branchingRules.map .branching

/-- The name of a rule in statistics. -/
def text : Rule → String
  | .eager .groundSolving => "Eager Ground Solving"
  | .eager .solving => "Eager Solving"
  | .eager .assignmentSolving => "Eager Assignment Solving"
  | .eager .expansion => "Eager Expansion"
  | .eager .extension => "Eager Extension"
  | .branching .decomposition => "Decomposition"
  | .branching .extension => "Extension"

/-- Whether a rule is applied without branching. -/
def isEager : Rule → Bool
  | .eager _ => true
  | .branching _ => false

end Rule

/-- The variables among the conjuncts of a body. -/
def FlatSubsumption.bodyVariables (subsumption : FlatSubsumption) (store : AtomStore) :
    List AtomId :=
  subsumption.body.toList.filter store.isVariable

/-- Whether all atoms are ground. The atoms after the first one that is not are not looked at. -/
def allGround (store : AtomStore) : List AtomId → Except NodeFailure Bool
  | [] => .ok true
  | atom :: atoms =>
    match store.isGround? atom with
    | none => .error .unknownAtom
    | some true => allGround store atoms
    | some false => .ok false

/-- The fillers of the restrictions over a role among some atoms. -/
def fillersOver (store : AtomStore) (role : RoleId) : List AtomId → Except NodeFailure (List AtomId)
  | [] => .ok []
  | atom :: atoms =>
    match store.atom? atom with
    | none => .error .unknownAtom
    | some (.name _) => fillersOver store role atoms
    | some (.restriction role' filler) => do
      let others ← fillersOver store role atoms
      return if role' == role then filler :: others else others

/-- The way in which an eager rule deals with a subsumption, if it applies. -/
def EagerRule.application? (rule : EagerRule) (subsumption : FlatSubsumption)
    (assignment : Assignment) (store : AtomStore) : Except NodeFailure (Option Application) :=
  let head := subsumption.head
  let body := subsumption.body
  match rule with
  | .groundSolving => do
    if ← allGround store (head :: body.toList) then
      return some (if head ∈ body then .solve else .fail)
    else return none
  | .solving => .ok (if head ∈ body then some .solve else none)
  | .assignmentSolving =>
    .ok (if (subsumption.bodyVariables store).any (assignment.contains · head) then some .solve
      else none)
  | .expansion => .ok (if store.isVariable head then some .expandHead else none)
  | .extension =>
    .ok (if store.isVariable head then none
      else
        ((subsumption.bodyVariables store).find? fun x =>
          body.toList.all fun atom => atom == x || assignment.contains x atom).map
            (.extend · head))

/-- The alternatives that a branching rule proposes, in the order of the conjuncts. There are none
if the head is a variable. -/
def BranchingRule.applications (rule : BranchingRule) (subsumption : FlatSubsumption)
    (store : AtomStore) : Except NodeFailure (List Application) :=
  if store.isVariable subsumption.head then .ok []
  else
    match rule with
    | .decomposition =>
      match store.atom? subsumption.head with
      | none => .error .unknownAtom
      | some (.name _) => .ok []
      | some (.restriction role headFiller) => do
        let fillers ← fillersOver store role subsumption.body.toList
        return fillers.map (.decompose · headFiller)
    | .extension =>
      .ok ((subsumption.bodyVariables store).map (.extend · subsumption.head))

/-- All ways in which a rule deals with a subsumption. -/
def Rule.applications (rule : Rule) (subsumption : FlatSubsumption) (assignment : Assignment)
    (store : AtomStore) : Except NodeFailure (List Application) :=
  match rule with
  | .eager rule => (rule.application? subsumption assignment store).map Option.toList
  | .branching rule => rule.applications subsumption store

/-- The first eager rule that applies to a subsumption, with what it does. -/
def firstEager? (subsumption : FlatSubsumption) (assignment : Assignment) (store : AtomStore) :
    List EagerRule → Except NodeFailure (Option (EagerRule × Application))
  | [] => .ok none
  | rule :: rules => do
    match ← rule.application? subsumption assignment store with
    | some application => return some (rule, application)
    | none => firstEager? subsumption assignment store rules

/-- The alternatives for a subsumption, each with the rule that proposes it. -/
def alternatives (subsumption : FlatSubsumption) (store : AtomStore) :
    List BranchingRule → Except NodeFailure (List (BranchingRule × Application))
  | [] => .ok []
  | rule :: rules => do
    let first ← rule.applications subsumption store
    let others ← alternatives subsumption store rules
    return first.map (rule, ·) ++ others

/-- The node after dealing with the obligation at a position. -/
def SearchNode.apply (node : SearchNode) (store : AtomStore) (position : Nat) :
    Application → Except NodeFailure SearchNode
  | .solve => .ok (node.markSolved position)
  | .fail => .error .conflict
  | .extend x atom => do
    let extended ← node.extend store x atom
    return extended.markSolved position
  | .decompose body head => .ok ((node.add ⟨{body}, head⟩).markSolved position)
  | .expandHead => .ok (node.expandHead position)

end ConceptUnification
