import ConceptUnification.Proofs.NodeInvariant

/-!
# Application of rules

`EagerProposal` and `BranchProposal` say what the rules propose for a
subsumption.  Dealing with a pending obligation in a proposed way keeps the
invariant of the node, solves one more obligation and makes the node lighter.
-/

namespace ConceptUnification

/-- What an eager rule may propose. -/
inductive EagerProposal (store : AtomStore) (assignment : Assignment)
    (s : FlatSubsumption) : Application → Prop where
  | conjunct (member : s.head ∈ s.body) :
      EagerProposal store assignment s .solve
  | failure (headGround : store.isGround? s.head = some true)
      (bodyGround : ∀ atom ∈ s.body, store.isGround? atom = some true)
      (absent : s.head ∉ s.body) : EagerProposal store assignment s .fail
  | subsumer {x : AtomId} (member : x ∈ s.body)
      (varying : store.isVariable x = true)
      (chosen : assignment.contains x s.head = true) :
      EagerProposal store assignment s .solve
  | expansion (varying : store.isVariable s.head = true) :
      EagerProposal store assignment s .expandHead
  | extension {x : AtomId} (member : x ∈ s.body)
      (varying : store.isVariable x = true)
      (nonVariable : store.isVariable s.head = false)
      (others : ∀ atom ∈ s.body,
        atom = x ∨ assignment.contains x atom = true) :
      EagerProposal store assignment s (.extend x s.head)

/-- What a branching rule may propose. -/
inductive BranchProposal (store : AtomStore) (s : FlatSubsumption) :
    Application → Prop where
  | decomposition {role : RoleId} {b filler filler' : AtomId}
      (member : b ∈ s.body)
      (lower : store.atom? b = some (.restriction role filler))
      (upper : store.atom? s.head = some (.restriction role filler')) :
      BranchProposal store s (.decompose filler filler')
  | extension {x : AtomId} (member : x ∈ s.body)
      (varying : store.isVariable x = true)
      (nonVariable : store.isVariable s.head = false) :
      BranchProposal store s (.extend x s.head)

section Rules

variable {store : AtomStore} {s : FlatSubsumption}

theorem exists_isGround? {atom : AtomId} (stored : atom < store.size) :
    ∃ answer, store.isGround? atom = some answer := by
  obtain ⟨found, present⟩ := AtomStore.exists_atom? stored
  cases found with
  | name symbol => exact ⟨_, by rw [AtomStore.isGround?, present]⟩
  | restriction role filler => exact ⟨_, by rw [AtomStore.isGround?, present]⟩

theorem allGround_eq_ok {atoms : List AtomId}
    (stored : ∀ atom ∈ atoms, atom < store.size) :
    ∃ answer, allGround store atoms = .ok answer ∧
      (answer = true ↔ ∀ atom ∈ atoms, store.isGround? atom = some true) := by
  induction atoms with
  | nil => exact ⟨true, rfl, by simp⟩
  | cons atom atoms induction =>
      obtain ⟨ground, grounded⟩ :=
        exists_isGround? (stored atom List.mem_cons_self)
      obtain ⟨rest, answered, restGround⟩ :=
        induction fun other member =>
          stored other (List.mem_cons_of_mem _ member)
      cases ground with
      | false =>
          exact ⟨false, by simp [allGround, grounded], by simp [grounded]⟩
      | true =>
          refine ⟨rest, by simp [allGround, grounded, answered], ?_⟩
          rw [restGround]
          simp [grounded]

theorem mem_bodyVariables {x : AtomId} :
    x ∈ s.bodyVariables store ↔ x ∈ s.body ∧ store.isVariable x = true := by
  simp [FlatSubsumption.bodyVariables, OrderedSet.mem_iff]

/-- An eager rule has an answer for stored atoms, and what it proposes is one
of the eager proposals. -/
theorem EagerRule.application?_eq_ok (rule : EagerRule)
    (assignment : Assignment) (body : store.Stores s.body) (head : s.head < store.size) :
    ∃ answer, rule.application? s assignment store = .ok answer ∧
      ∀ application, answer = some application →
        EagerProposal store assignment s application := by
  cases rule with
  | groundSolving =>
      have stored : ∀ atom ∈ s.head :: s.body.toList, atom < store.size := by
        intro atom member
        rcases List.mem_cons.mp member with rfl | inBody
        · exact head
        · exact body atom inBody
      obtain ⟨ground, answered, grounded⟩ := allGround_eq_ok stored
      refine ⟨if ground then some (if s.head ∈ s.body then .solve else .fail)
        else none, ?_, ?_⟩
      · cases ground <;>
          simp [application?, answered, bind, Except.bind, pure, Except.pure]
      · intro application proposes
        cases ground with
        | false => simp at proposes
        | true =>
            simp only [if_true, Option.some.injEq] at proposes
            by_cases member : s.head ∈ s.body
            · rw [if_pos member] at proposes
              subst proposes
              exact .conjunct member
            · rw [if_neg member] at proposes
              subst proposes
              refine .failure (grounded.mp rfl _ List.mem_cons_self) ?_ member
              intro atom inBody
              exact grounded.mp rfl atom (List.mem_cons_of_mem _ inBody)
  | solving =>
      refine ⟨_, rfl, ?_⟩
      intro application proposes
      split at proposes
      · next member =>
          cases proposes
          exact .conjunct member
      · cases proposes
  | assignmentSolving =>
      refine ⟨_, rfl, ?_⟩
      intro application proposes
      split at proposes
      · next found =>
          cases proposes
          obtain ⟨x, inVariables, chosen⟩ := List.any_eq_true.mp found
          obtain ⟨member, varying⟩ := mem_bodyVariables.mp inVariables
          exact .subsumer member varying chosen
      · cases proposes
  | expansion =>
      refine ⟨_, rfl, ?_⟩
      intro application proposes
      split at proposes
      · next varying =>
          cases proposes
          exact .expansion varying
      · cases proposes
  | extension =>
      refine ⟨_, rfl, ?_⟩
      intro application proposes
      split at proposes
      · cases proposes
      · next nonVariable =>
          obtain ⟨x, found, rfl⟩ := Option.map_eq_some_iff.mp proposes
          obtain ⟨member, varying⟩ :=
            mem_bodyVariables.mp (List.mem_of_find?_eq_some found)
          refine .extension member varying (by simpa using nonVariable) ?_
          intro atom inBody
          have covered := List.find?_some found
          rw [List.all_eq_true] at covered
          simpa using covered atom inBody

theorem firstEager?_eq_ok (assignment : Assignment)
    (rules : List EagerRule) (body : store.Stores s.body) (head : s.head < store.size) :
    ∃ answer, firstEager? s assignment store rules = .ok answer ∧
      (∀ rule application, answer = some (rule, application) →
        EagerProposal store assignment s application) ∧
      (answer = none → ∀ rule ∈ rules,
        rule.application? s assignment store = .ok none) := by
  induction rules with
  | nil => exact ⟨none, rfl, by simp, by simp⟩
  | cons rule rules induction =>
      obtain ⟨first, firstEq, proposal⟩ :=
        rule.application?_eq_ok assignment body head
      cases first with
      | some application =>
          refine ⟨some (rule, application), ?_, ?_, by simp⟩
          · rw [firstEager?, firstEq]
            rfl
          · intro rule' application' same
            cases same
            exact proposal application rfl
      | none =>
          obtain ⟨answer, answered, proposals, idle⟩ := induction
          refine ⟨answer, ?_, proposals, ?_⟩
          · rw [firstEager?, firstEq]
            exact answered
          · intro nothing rule' member
            rcases List.mem_cons.mp member with rfl | later
            · exact firstEq
            · exact idle nothing rule' later

theorem proposal_of_firstEager? {assignment : Assignment}
    {rule : EagerRule} {application : Application}
    (body : store.Stores s.body) (head : s.head < store.size)
    (tried : firstEager? s assignment store Rule.eagerRules =
      .ok (some (rule, application))) :
    EagerProposal store assignment s application := by
  obtain ⟨answer, answered, proposals, _⟩ :=
    firstEager?_eq_ok assignment Rule.eagerRules body head
  rw [tried] at answered
  cases answered
  exact proposals rule application rfl

/-- What it means for a subsumption that no eager rule applies. -/
structure Idle (store : AtomStore) (assignment : Assignment)
    (s : FlatSubsumption) : Prop where
  notGround : ¬ ∀ atom ∈ s.head :: s.body.toList,
    store.isGround? atom = some true
  absent : s.head ∉ s.body
  unchosen : ∀ x ∈ s.body, store.isVariable x = true →
    assignment.contains x s.head = false
  nonVariable : store.isVariable s.head = false
  uncovered : ∀ x ∈ s.body, store.isVariable x = true →
    ∃ atom ∈ s.body, atom ≠ x ∧ assignment.contains x atom = false

theorem idle_of_firstEager? {assignment : Assignment}
    (body : store.Stores s.body) (head : s.head < store.size)
    (tried : firstEager? s assignment store Rule.eagerRules = .ok none) :
    Idle store assignment s := by
  obtain ⟨answer, answered, _, none_⟩ :=
    firstEager?_eq_ok assignment Rule.eagerRules body head
  rw [tried] at answered
  cases answered
  have idle : ∀ rule ∈ Rule.eagerRules,
      EagerRule.application? rule s assignment store = .ok none := none_ rfl
  have expansion := idle .expansion (by simp [Rule.eagerRules])
  have nonVariable : store.isVariable s.head = false := by
    rw [Bool.eq_false_iff]
    intro varying
    simp [EagerRule.application?, varying] at expansion
  refine ⟨?_, ?_, ?_, nonVariable, ?_⟩
  · have stored : ∀ atom ∈ s.head :: s.body.toList, atom < store.size := by
      intro atom member
      rcases List.mem_cons.mp member with rfl | inBody
      · exact head
      · exact body atom inBody
    obtain ⟨ground, answered, grounded⟩ := allGround_eq_ok stored
    have grounding := idle .groundSolving (by simp [Rule.eagerRules])
    rw [← grounded]
    rintro rfl
    simp [EagerRule.application?, answered, bind, Except.bind, pure,
      Except.pure] at grounding
  · have solving := idle .solving (by simp [Rule.eagerRules])
    intro member
    simp [EagerRule.application?, member] at solving
  · have solving := idle .assignmentSolving (by simp [Rule.eagerRules])
    intro x member varying
    rw [Bool.eq_false_iff]
    intro chosen
    have found : (s.bodyVariables store).any
        (assignment.contains · s.head) = true :=
      List.any_eq_true.mpr ⟨x, mem_bodyVariables.mpr ⟨member, varying⟩, chosen⟩
    simp only [EagerRule.application?, found] at solving
    cases solving
  · have extension := idle .extension (by simp [Rule.eagerRules])
    intro x member varying
    simp only [EagerRule.application?, nonVariable, Bool.false_eq_true,
      if_false, Except.ok.injEq, Option.map_eq_none_iff,
      List.find?_eq_none] at extension
    have unfit := extension x (mem_bodyVariables.mpr ⟨member, varying⟩)
    simp only [List.all_eq_true, Bool.or_eq_true, beq_iff_eq, not_forall,
      not_or, Bool.not_eq_true] at unfit
    obtain ⟨atom, inBody, different, absent⟩ := unfit
    exact ⟨atom, inBody, different, absent⟩

theorem fillersOver_eq_ok {role : RoleId} {atoms : List AtomId}
    (stored : ∀ atom ∈ atoms, atom < store.size) :
    ∃ fillers, fillersOver store role atoms = .ok fillers ∧
      ∀ filler, filler ∈ fillers ↔ ∃ atom ∈ atoms,
        store.atom? atom = some (.restriction role filler) := by
  induction atoms with
  | nil => exact ⟨[], rfl, by simp⟩
  | cons atom atoms induction =>
      obtain ⟨others, answered, exact_⟩ :=
        induction fun other member =>
          stored other (List.mem_cons_of_mem _ member)
      obtain ⟨found, present⟩ :=
        AtomStore.exists_atom? (stored atom List.mem_cons_self)
      cases found with
      | name symbol =>
          refine ⟨others, by simp [fillersOver, present, answered], ?_⟩
          intro filler
          simp [exact_, present]
      | restriction role' filler' =>
          refine ⟨if role' == role then filler' :: others else others, ?_, ?_⟩
          · simp [fillersOver, present, answered, bind, Except.bind, pure,
              Except.pure]
          · intro filler
            by_cases same : role' = role
            · subst same
              simp [exact_, present, eq_comm]
            · simp [exact_, present, same]

/-- The proposed decompositions are those into a restriction of the body and the
head, over one role. -/
theorem decompositions_eq_ok (body : store.Stores s.body)
    (head : s.head < store.size)
    (nonVariable : store.isVariable s.head = false) :
    ∃ fillers, BranchingRule.decomposition.applications s store =
        .ok fillers ∧
      ∀ application, application ∈ fillers ↔
        ∃ role filler filler', application = .decompose filler filler' ∧
          store.atom? s.head = some (.restriction role filler') ∧
          ∃ b ∈ s.body, store.atom? b = some (.restriction role filler) := by
  obtain ⟨found, present⟩ := AtomStore.exists_atom? head
  cases found with
  | name symbol =>
      refine ⟨[], ?_, ?_⟩
      · simp [BranchingRule.applications, nonVariable, present]
      · simp [present]
  | restriction role headFiller =>
      obtain ⟨fillers, answered, exact_⟩ :=
        @fillersOver_eq_ok store role s.body.toList body
      refine ⟨fillers.map (.decompose · headFiller), ?_, ?_⟩
      · simp [BranchingRule.applications, nonVariable, present, answered,
          bind, Except.bind, pure, Except.pure]
      · intro application
        rw [List.mem_map]
        constructor
        · rintro ⟨filler, member, rfl⟩
          obtain ⟨b, inBody, lower⟩ := (exact_ filler).mp member
          exact ⟨role, filler, headFiller, rfl, present, b, inBody, lower⟩
        · rintro ⟨_, filler, _, rfl, upper, b, inBody, lower⟩
          rw [present] at upper
          cases upper
          exact ⟨filler, (exact_ filler).mpr ⟨b, inBody, lower⟩, rfl⟩

/-- The alternatives for a subsumption whose head is no variable are exactly
the branching proposals. -/
theorem alternatives_eq_ok (body : store.Stores s.body)
    (head : s.head < store.size)
    (nonVariable : store.isVariable s.head = false) :
    ∃ proposals, alternatives s store Rule.branchingRules = .ok proposals ∧
      ∀ application, (∃ rule, (rule, application) ∈ proposals) ↔
        BranchProposal store s application := by
  have extensions : BranchingRule.extension.applications s store =
      .ok ((s.bodyVariables store).map (.extend · s.head)) := by
    simp [BranchingRule.applications, nonVariable]
  obtain ⟨fillers, answered, exact_⟩ :=
    decompositions_eq_ok body head nonVariable
  refine ⟨fillers.map (BranchingRule.decomposition, ·) ++
    ((s.bodyVariables store).map (.extend · s.head)).map
      (BranchingRule.extension, ·), ?_, ?_⟩
  · simp [Rule.branchingRules, alternatives, answered, extensions, bind,
      Except.bind, pure, Except.pure]
  · intro application
    constructor
    · rintro ⟨rule, member⟩
      rcases List.mem_append.mp member with first | second
      · obtain ⟨other, inFillers, same⟩ := List.mem_map.mp first
        cases same
        obtain ⟨role, filler, filler', rfl, upper, b, inBody, lower⟩ :=
          (exact_ application).mp inFillers
        exact .decomposition inBody lower upper
      · obtain ⟨other, inVariables, same⟩ := List.mem_map.mp second
        cases same
        obtain ⟨x, inBody, rfl⟩ := List.mem_map.mp inVariables
        obtain ⟨member, varying⟩ := mem_bodyVariables.mp inBody
        exact .extension member varying nonVariable
    · intro proposal
      cases proposal with
      | decomposition member lower upper =>
          refine ⟨.decomposition, List.mem_append_left _ ?_⟩
          exact List.mem_map_of_mem ((exact_ _).mpr
            ⟨_, _, _, rfl, upper, _, member, lower⟩)
      | extension member varying _ =>
          refine ⟨.extension, List.mem_append_right _ ?_⟩
          exact List.mem_map_of_mem
            (List.mem_map_of_mem (mem_bodyVariables.mpr ⟨member, varying⟩))

end Rules

namespace SearchNode

variable {node after : SearchNode} {capacity candidates : Nat}

/-- The number of solved obligations. -/
def solvedCount (node : SearchNode) : Nat :=
  node.obligations.toList.countP (·.solved)

theorem pending_eq (node : SearchNode) :
    node.pending = node.obligations.toList.countP (!·.solved) := by
  simp [pending]

theorem solvedCount_le (node : SearchNode) :
    node.solvedCount ≤ node.obligations.size := by
  have bounded := List.countP_le_length (p := fun o : Obligation => o.solved)
    (l := node.obligations.toList)
  simpa [solvedCount] using bounded

theorem Acquires.counts {news : List FlatSubsumption}
    (acquires : Acquires node after news) :
    after.solvedCount = node.solvedCount ∧
      ∃ k, after.obligations.size = node.obligations.size + k ∧
        after.pending = node.pending + k := by
  obtain ⟨fresh, appended, unsolved⟩ := acquires.appended
  have none_ : fresh.countP (·.solved) = 0 := by
    rw [List.countP_eq_zero]
    intro o member
    simp [(unsolved o member).1]
  have all : fresh.countP (!·.solved) = fresh.length := by
    rw [List.countP_eq_length]
    intro o member
    simp [(unsolved o member).1]
  refine ⟨?_, fresh.length, ?_, ?_⟩
  · rw [solvedCount, solvedCount, appended, List.countP_append, none_,
      Nat.add_zero]
  · rw [← Array.length_toList, appended, List.length_append,
      Array.length_toList]
  · rw [pending_eq, pending_eq, appended, List.countP_append, all]

/-- Acquiring subsumptions makes a node lighter, as long as the capacity
suffices. -/
theorem Acquires.weight_le {news : List FlatSubsumption}
    (acquires : Acquires node after news)
    (enough : after.obligations.size ≤ capacity) :
    after.weight capacity candidates ≤ node.weight capacity candidates := by
  obtain ⟨_, k, sizes, pendings⟩ := acquires.counts
  have same : after.nextCandidate = node.nextCandidate := by
    rw [nextCandidate, nextCandidate, acquires.refined]
  rw [weight, weight, same]
  omega

theorem counts_markSolved {position : Nat} {obligation : Obligation}
    (found : node.obligations[position]? = some obligation)
    (pending : obligation.solved = false) :
    (node.markSolved position).solvedCount = node.solvedCount + 1 ∧
      (node.markSolved position).obligations.size = node.obligations.size ∧
        (node.markSolved position).pending + 1 = node.pending := by
  obtain ⟨before, after, split, marked⟩ := exists_split found
  refine ⟨?_, by simp [SearchNode.markSolved], ?_⟩
  · rw [solvedCount, solvedCount, split, marked]
    simp [List.countP_append, pending]
    omega
  · rw [pending_eq, pending_eq, split, marked]
    simp [List.countP_append, pending]
    omega

theorem weight_markSolved {position : Nat} {obligation : Obligation}
    (found : node.obligations[position]? = some obligation)
    (pending : obligation.solved = false) :
    (node.markSolved position).weight capacity candidates <
      node.weight capacity candidates := by
  obtain ⟨_, sizes, pendings⟩ := counts_markSolved found pending
  have same : (node.markSolved position).nextCandidate =
      node.nextCandidate := rfl
  rw [weight, weight, same]
  omega

theorem add_markSolved {position : Nat} (inRange : position < node.obligations.size)
    (s : FlatSubsumption) :
    (node.markSolved position).add s = (node.add s).markSolved position ∧
      position < (node.add s).obligations.size := by
  by_cases already : s ∈ node.known
  · rw [add_of_known already,
      add_of_known (by rw [known_markSolved]; exact already)]
    exact ⟨rfl, inRange⟩
  · obtain ⟨pushed, inserted⟩ := add_of_fresh already
    obtain ⟨pushed', inserted'⟩ := @add_of_fresh (node.markSolved position) s
      (by rw [known_markSolved]; exact already)
    constructor
    · apply SearchNode.ext
      · simp [SearchNode.markSolved]
      · rw [pushed']
        simp only [SearchNode.markSolved, pushed]
        apply Array.toList_inj.mp
        rw [Array.toList_push, Array.toList_modify, Array.toList_modify,
          Array.toList_push,
          List.modify_eq_take_cons_drop (by simpa using inRange),
          List.modify_eq_take_cons_drop (by simp; omega)]
        have later : position + 1 ≤ node.obligations.toList.length := by
          rw [Array.length_toList]
          exact inRange
        rw [List.drop_append_of_le_length later]
        simp [List.take_append_of_le_length, List.getElem_append_left,
          inRange, Nat.le_of_lt inRange]
      · rw [inserted']
        simp [SearchNode.markSolved, inserted]
      · simp [SearchNode.markSolved]
    · rw [pushed, Array.size_push]
      omega

theorem foldl_add_markSolved {position : Nat} (news : List FlatSubsumption)
    (inRange : position < node.obligations.size) :
    news.foldl add (node.markSolved position) =
      (news.foldl add node).markSolved position := by
  induction news generalizing node with
  | nil => rfl
  | cons s news induction =>
      obtain ⟨same, inRange'⟩ := add_markSolved inRange s
      rw [List.foldl_cons, List.foldl_cons, same, induction inRange']

theorem expandHead_eq {position : Nat} {obligation : Obligation}
    (found : node.obligations[position]? = some obligation) :
    node.expandHead position =
      (((node.assignment.subsumers obligation.subsumption.head).toList.map
        fun atom => (⟨obligation.subsumption.body, atom⟩ :
          FlatSubsumption)).foldl add node).markSolved position := by
  rw [expandHead, found, ← foldl_add_markSolved _
    (Array.getElem?_eq_some_iff.mp found).1, List.foldl_map]

section SolvedCount

variable {store : AtomStore} {position : Nat} {obligation : Obligation}
  {application : Application}

theorem solvedCount_acquire {between : SearchNode}
    {news : List FlatSubsumption} (acquires : Acquires node between news)
    (found : node.obligations[position]? = some obligation)
    (pending : obligation.solved = false) :
    (between.markSolved position).solvedCount = node.solvedCount + 1 := by
  rw [(counts_markSolved (acquires.getElem? found) pending).1,
    acquires.counts.1]

/-- Dealing with a pending obligation solves exactly this one. -/
theorem solvedCount_apply
    (found : node.obligations[position]? = some obligation)
    (pending : obligation.solved = false)
    (success : node.apply store position application = .ok after) :
    after.solvedCount = node.solvedCount + 1 := by
  cases application with
  | solve =>
      cases success
      exact solvedCount_acquire (.refl node) found pending
  | fail => cases success
  | extend x atom =>
      simp only [apply, bind, Except.bind] at success
      cases extends_ : node.extend store x atom with
      | error failure => simp [extends_] at success
      | ok extended =>
          simp only [extends_, pure, Except.pure, Except.ok.injEq] at success
          subst success
          cases known : node.assignment.contains x atom with
          | true =>
              rw [extend_of_contains known] at extends_
              cases extends_
              exact solvedCount_acquire (.refl node) found pending
          | false =>
              obtain ⟨_, acquires⟩ := extend_eq_ok extends_ known
              have counted := solvedCount_acquire acquires found pending
              exact counted
  | decompose body head =>
      cases success
      exact solvedCount_acquire (acquires_add node _) found pending
  | expandHead =>
      cases success
      rw [expandHead_eq found]
      exact solvedCount_acquire (acquires_foldl _ node) found pending

end SolvedCount

/-- What a step that only prepares an obligation keeps. -/
structure Prepares (goal : Goal) (node between : SearchNode) : Prop where
  wellFormed : between.WellFormed goal
  refined : between.refined = node.refined
  weight_le : ∀ candidates,
    between.weight (SearchSpace.capacityOf goal) candidates ≤
      node.weight (SearchSpace.capacityOf goal) candidates
  kept : ∀ {position : Nat} {obligation : Obligation},
    node.obligations[position]? = some obligation →
      between.obligations[position]? = some obligation
  within : node.assignment.Within between.assignment

/-- What dealing with a pending obligation achieves. -/
structure Progress (goal : Goal) (node after : SearchNode) : Prop where
  wellFormed : after.WellFormed goal
  refined : after.refined = node.refined
  lighter : ∀ candidates,
    after.weight (SearchSpace.capacityOf goal) candidates <
      node.weight (SearchSpace.capacityOf goal) candidates
  within : node.assignment.Within after.assignment

variable {goal : Goal}

theorem Prepares.refl (wellFormed : node.WellFormed goal) :
    Prepares goal node node where
  wellFormed := wellFormed
  refined := rfl
  weight_le := fun _ => Nat.le_refl _
  kept := id
  within := fun _ _ => id

theorem Prepares.acquire {news : List FlatSubsumption}
    (wellFormed : node.WellFormed goal) (acquires : Acquires node after news)
    (arise : ∀ s ∈ news, goal.CanArise s) : Prepares goal node after where
  wellFormed := wellFormed.acquire acquires arise
  refined := acquires.refined
  weight_le := fun _ =>
    acquires.weight_le (wellFormed.acquire acquires arise).size_le
  kept := acquires.getElem?
  within := by
    intro x atom chosen
    rw [acquires.assignment]
    exact chosen

theorem Prepares.extend {x atom : AtomId} (wellFormed : node.WellFormed goal)
    (success : node.extend goal.store x atom = .ok after)
    (varying : goal.store.isVariable x = true)
    (stored : atom < goal.store.size)
    (nonVariable : goal.store.isVariable atom = false) :
    Prepares goal node after ∧ after.assignment.contains x atom = true := by
  have extended := wellFormed.extend success varying stored nonVariable
  cases known : node.assignment.contains x atom with
  | true =>
      rw [extend_of_contains known] at success
      cases success
      exact ⟨.refl wellFormed, known⟩
  | false =>
      obtain ⟨_, acquires⟩ := extend_eq_ok success known
      refine ⟨⟨extended, acquires.refined, ?_, acquires.getElem?, ?_⟩, ?_⟩
      · exact fun _ => acquires.weight_le extended.size_le
      · intro y other chosen
        rw [acquires.assignment, Assignment.contains_insert]
        exact .inr chosen
      · rw [acquires.assignment, Assignment.contains_insert]
        exact .inl ⟨rfl, rfl⟩

theorem Prepares.progress {between : SearchNode} {position : Nat}
    {obligation : Obligation} (prepares : Prepares goal node between)
    (found : node.obligations[position]? = some obligation)
    (pending : obligation.solved = false)
    (justified : Justified goal.store between obligation.subsumption) :
    Progress goal node (between.markSolved position) where
  wellFormed := prepares.wellFormed.markSolved (prepares.kept found) justified
  refined := prepares.refined
  lighter := fun candidates => Nat.lt_of_lt_of_le
    (weight_markSolved (prepares.kept found) pending)
    (prepares.weight_le candidates)
  within := prepares.within

section Apply

variable {position : Nat} {obligation : Obligation}
  {application : Application}

theorem progress_extend {x : AtomId} (wellFormed : node.WellFormed goal)
    (found : node.obligations[position]? = some obligation)
    (pending : obligation.solved = false)
    (member : x ∈ obligation.subsumption.body)
    (varying : goal.store.isVariable x = true)
    (nonVariable : goal.store.isVariable obligation.subsumption.head = false)
    (success : node.apply goal.store position
      (.extend x obligation.subsumption.head) = .ok after) :
    Progress goal node after := by
  have stored :=
    (wellFormed.arises _ (mem_known_of_mem (mem_of_getElem? found))).2
  simp only [apply, bind, Except.bind] at success
  cases extends_ : node.extend goal.store x obligation.subsumption.head with
  | error failure => simp [extends_] at success
  | ok extended =>
      simp only [extends_, pure, Except.pure, Except.ok.injEq] at success
      subst success
      obtain ⟨prepares, chosen⟩ :=
        Prepares.extend wellFormed extends_ varying stored nonVariable
      exact prepares.progress found pending
        (.subsumer member varying chosen)

/-- Dealing with a pending obligation as an eager rule proposes. -/
theorem progress_eager (wellFormed : node.WellFormed goal)
    (found : node.obligations[position]? = some obligation)
    (pending : obligation.solved = false)
    (proposal : EagerProposal goal.store node.assignment
      obligation.subsumption application)
    (success : node.apply goal.store position application = .ok after) :
    Progress goal node after := by
  have arises :=
    wellFormed.arises _ (mem_known_of_mem (mem_of_getElem? found))
  cases proposal with
  | conjunct member =>
      cases success
      exact (Prepares.refl wellFormed).progress found pending
        (.conjunct member)
  | failure => cases success
  | subsumer member varying chosen =>
      cases success
      exact (Prepares.refl wellFormed).progress found pending
        (.subsumer member varying chosen)
  | expansion varying =>
      cases success
      rw [expandHead_eq found]
      have acquires := acquires_foldl
        ((node.assignment.subsumers obligation.subsumption.head).toList.map
          fun atom => (⟨obligation.subsumption.body, atom⟩ :
            FlatSubsumption)) node
      refine (Prepares.acquire wellFormed acquires ?_).progress found pending
        (.expansion varying ?_)
      · intro s member
        obtain ⟨atom, inSubsumers, rfl⟩ := List.mem_map.mp member
        exact arises.withHead (wellFormed.proper.stored _ atom
          (Assignment.mem_subsumers.mp inSubsumers))
      · intro atom chosen
        rw [acquires.assignment] at chosen
        rw [acquires.known]
        exact .inr (List.mem_map_of_mem (Assignment.mem_subsumers.mpr chosen))
  | extension member varying nonVariable _ =>
      exact progress_extend wellFormed found pending member varying
        nonVariable success

/-- Dealing with a pending obligation as a branching rule proposes. -/
theorem progress_branch (stored : goal.store.WellFormed)
    (wellFormed : node.WellFormed goal)
    (found : node.obligations[position]? = some obligation)
    (pending : obligation.solved = false)
    (proposal : BranchProposal goal.store obligation.subsumption application)
    (success : node.apply goal.store position application = .ok after) :
    Progress goal node after := by
  cases proposal with
  | @decomposition role b filler filler' member lower upper =>
      cases success
      have acquires := acquires_add node ⟨{filler}, filler'⟩
      refine (Prepares.acquire wellFormed acquires ?_).progress found pending
        (.decomposition member lower upper
          ((acquires.known _).mpr (.inr List.mem_cons_self)))
      intro s single
      rw [List.mem_singleton] at single
      subst single
      obtain ⟨_, _, named⟩ := stored b role filler lower
      obtain ⟨_, _, named'⟩ := stored _ role filler' upper
      exact ⟨.inr ⟨filler, AtomStore.lt_size_of_atom? named, rfl⟩,
        AtomStore.lt_size_of_atom? named'⟩
  | extension member varying nonVariable =>
      exact progress_extend wellFormed found pending member varying
        nonVariable success

end Apply

end SearchNode

end ConceptUnification
