import Mathlib.Data.Nat.Find
import ConceptUnification.Proofs.ClosedSolution
import ConceptUnification.Proofs.Saturation

/-!
# Search guided by a solution

A node is compatible with a closed solution if the solution extends its
assignment, satisfies what it knows, and was not passed over by its
refinements.  Eager steps keep a node compatible and never fail on a compatible
node; a saturated compatible node has a compatible child, unless it is a leaf
whose assignment is the solution itself.
-/

namespace ConceptUnification

/-- Ground atoms are related only if they are the same. -/
theorem Evaluates.eq_of_ground {store : AtomStore}
    {conjunctionOf : AtomId → AtomSet} {value : AtomId → NormalConcept}
    (evaluates : Evaluates store conjunctionOf value)
    (wellFormed : store.WellFormed) {a b : AtomId}
    (storedLower : a < store.size) (storedUpper : b < store.size)
    (lower : store.isGround? a = some true)
    (upper : store.isGround? b = some true)
    (below : (value a).isBelow (value b) = true) : a = b := by
  have fillerConstant : ∀ {c role filler}, store.isGround? c = some true →
      store.atom? c = some (.restriction role filler) →
      ∃ symbol, store.atom? filler = some (.name symbol) ∧
        store.isVariable filler = false := by
    intro c role filler ground present
    obtain ⟨_, symbol, named⟩ := wellFormed c role filler present
    refine ⟨symbol, named, ?_⟩
    simpa [AtomStore.isGround?, present] using ground
  by_cases same : a = b
  · exact same
  · obtain ⟨role, filler, filler', present, present', below'⟩ :=
      (evaluates.interprets.nonVariable_isBelow_iff storedLower storedUpper
        (AtomStore.not_isVariable_of_isGround? lower)
        (AtomStore.not_isVariable_of_isGround? upper) same).mp below
    obtain ⟨symbol, named, constant⟩ := fillerConstant lower present
    obtain ⟨symbol', named', constant'⟩ := fillerConstant upper present'
    rw [evaluates.constant filler symbol named constant,
      evaluates.constant filler' symbol' named' constant',
      NormalConcept.name_isBelow_name] at below'
    subst below'
    exact AtomStore.atom?_injective present present'

namespace SearchNode

/-- The node chose nothing that the solution does not choose, and what it knows
holds under the solution. -/
structure Admits (solution : Assignment) (value : AtomId → NormalConcept)
    (node : SearchNode) : Prop where
  within : node.assignment.Within solution
  holds : ∀ s ∈ node.known, s.Holds value

/-- The solution can still be reached from the node. -/
structure Compatible (candidates : Array (AtomId × AtomId))
    (solution : Assignment) (value : AtomId → NormalConcept)
    (node : SearchNode) : Prop extends Admits solution value node where
  tried : ∀ (position : Nat) (x atom : AtomId),
    position < node.nextCandidate →
    candidates[position]? = some (x, atom) →
    solution.contains x atom = true →
      node.assignment.contains x atom = true

section Guided

variable {goal : Goal} {candidates : Array (AtomId × AtomId)}
  {solution : Assignment} {value : AtomId → NormalConcept}
  {node after : SearchNode}

theorem Admits.acquire {news : List FlatSubsumption}
    (admits : node.Admits solution value) (acquires : Acquires node after news)
    (hold : ∀ s ∈ news, s.Holds value) : after.Admits solution value where
  within := by
    rw [acquires.assignment]
    exact admits.within
  holds := by
    intro s member
    rcases (acquires.known s).mp member with old | new
    · exact admits.holds s old
    · exact hold s new

theorem Admits.markSolved (admits : node.Admits solution value)
    (position : Nat) : (node.markSolved position).Admits solution value where
  within := admits.within
  holds := by
    rw [known_markSolved]
    exact admits.holds

/-- A subsumer of the solution can be chosen. -/
theorem Admits.extend (closed : ClosedAssignment goal solution value)
    (admits : node.Admits solution value) {x atom : AtomId}
    (chosen : solution.contains x atom = true) :
    ∃ extended, node.extend goal.store x atom = .ok extended ∧
      extended.Admits solution value ∧
        extended.assignment.contains x atom = true ∧
          extended.refined = node.refined ∧
            node.assignment.Within extended.assignment := by
  cases known : node.assignment.contains x atom with
  | true =>
      exact ⟨node, extend_of_contains known, admits, known, rfl, fun _ _ => id⟩
  | false =>
      have safe := Assignment.createsCycle?_of_acyclic closed.acyclic
        admits.within closed.proper.stored chosen
      have success : ∃ extended, node.extend goal.store x atom =
          .ok extended := by
        unfold SearchNode.extend
        rw [known, safe]
        exact ⟨_, rfl⟩
      obtain ⟨extended, success⟩ := success
      obtain ⟨_, acquires⟩ := extend_eq_ok success known
      have assignments : ∀ {y other},
          extended.assignment.contains y other = true ↔
            y = x ∧ other = atom ∨
              node.assignment.contains y other = true := by
        intro y other
        rw [acquires.assignment, Assignment.contains_insert]
      refine ⟨extended, success, ⟨?_, ?_⟩, assignments.mpr (.inl ⟨rfl, rfl⟩),
        acquires.refined, fun _ _ old => assignments.mpr (.inr old)⟩
      · intro y other member
        rcases assignments.mp member with ⟨rfl, rfl⟩ | old
        · exact chosen
        · exact admits.within y other old
      · intro s member
        rcases (acquires.known s).mp member with old | new
        · exact admits.holds s old
        · obtain ⟨o, reopened, rfl⟩ := List.mem_map.mp new
          obtain ⟨old, solvedHead⟩ := List.mem_filter.mp reopened
          have sameHead : o.subsumption.head = x := by
            simp only [Bool.and_eq_true, beq_iff_eq] at solvedHead
            exact solvedHead.2
          have holds := admits.holds _ (mem_known_of_mem old)
          refine NormalConcept.isBelow_trans holds ?_
          rw [sameHead]
          exact closed.evaluates.variable_isBelow_of_mem
            (closed.proper.variable_ x atom chosen)
            (Assignment.mem_subsumers.mpr chosen)

/-- What is not passed over stays so while subsumers are added. -/
theorem Compatible.of_admits
    (compatible : node.Compatible candidates solution value)
    (admits : after.Admits solution value)
    (refined : after.refined = node.refined)
    (within : node.assignment.Within after.assignment) :
    after.Compatible candidates solution value where
  toAdmits := admits
  tried := by
    intro position x atom before candidate inSolution
    rw [nextCandidate, refined] at before
    exact within x atom
      (compatible.tried position x atom before candidate inSolution)

variable {position : Nat} {obligation : Obligation}
  {application : Application}

section Proposals

variable (storeWellFormed : goal.store.WellFormed)
  (closed : ClosedAssignment goal solution value)
  (stored : ∀ s ∈ node.known,
    goal.store.Stores s.body ∧ s.head < goal.store.size)
  (admits : node.Admits solution value)

include storeWellFormed closed stored admits

/-- What an eager rule proposes succeeds, and the solution stays admitted. -/
theorem Admits.eager
    (found : node.obligations[position]? = some obligation)
    (proposal : EagerProposal goal.store node.assignment
      obligation.subsumption application) :
    ∃ after, node.apply goal.store position application = .ok after ∧
      after.Admits solution value := by
  have inKnown := mem_known_of_mem (mem_of_getElem? found)
  have holds := admits.holds _ inKnown
  obtain ⟨body, head⟩ := stored _ inKnown
  cases proposal with
  | conjunct | subsumer => exact ⟨_, rfl, admits.markSolved position⟩
  | failure headGround bodyGround absent =>
      have nonVariable := AtomStore.not_isVariable_of_isGround? headGround
      obtain ⟨atom, member, below⟩ :=
        closed.evaluates.exists_conjunct head nonVariable holds
      have same := closed.evaluates.eq_of_ground storeWellFormed
        (body atom member) head (bodyGround atom member) headGround below
      rw [same] at member
      exact (absent member).elim
  | expansion varying =>
      refine ⟨_, rfl, ?_⟩
      rw [expandHead_eq found]
      refine (admits.acquire (acquires_foldl _ node) ?_).markSolved position
      intro s member
      obtain ⟨atom, inSubsumers, rfl⟩ := List.mem_map.mp member
      refine NormalConcept.isBelow_trans holds ?_
      exact closed.evaluates.variable_isBelow_of_mem varying
        (Assignment.mem_subsumers.mpr (admits.within _ atom
          (Assignment.mem_subsumers.mp inSubsumers)))
  | @extension x member varying nonVariable others =>
      -- Every conjunct lies above `x`, so `x` lies below the head.
      obtain ⟨atom, inBody, below⟩ :=
        closed.evaluates.exists_conjunct head nonVariable holds
      have above : (value x).isBelow (value atom) = true := by
        rcases others atom inBody with rfl | chosen
        · exact NormalConcept.isBelow_refl _
        · exact closed.evaluates.variable_isBelow_of_mem varying
            (Assignment.mem_subsumers.mpr (admits.within x atom chosen))
      obtain ⟨extended, success, admits', _⟩ := admits.extend closed
        (closed.closed x _ varying head nonVariable
          (NormalConcept.isBelow_trans above below))
      refine ⟨extended.markSolved position, ?_, admits'.markSolved position⟩
      rw [apply, success]
      rfl

theorem Admits.step (step : EagerStep goal.store node after) :
    after.Admits solution value := by
  obtain ⟨position, obligation, application, found, _, proposal, applied⟩ :=
    step.proposal stored
  obtain ⟨next, applied', admits'⟩ :=
    admits.eager storeWellFormed closed stored found proposal
  rw [applied] at applied'
  cases applied'
  exact admits'

theorem Admits.not_failure : ¬ EagerFailure goal.store node := by
  intro fails
  obtain ⟨position, obligation, application, failure, found, _, proposal,
    applied⟩ := fails.proposal stored
  obtain ⟨next, applied', _⟩ :=
    admits.eager storeWellFormed closed stored found proposal
  rw [applied] at applied'
  cases applied'

end Proposals

theorem Compatible.path (goalWellFormed : goal.WellFormed)
    (closed : ClosedSolution goal solution value)
    (wellFormed : node.WellFormed goal)
    (compatible : node.Compatible candidates solution value)
    (path : Relation.ReflTransGen (EagerStep goal.store) node after) :
    after.Compatible candidates solution value := by
  have advances := advances_of_path goalWellFormed wellFormed path
  refine compatible.of_admits ?_ advances.refined advances.within
  clear advances
  induction path with
  | refl => exact compatible.toAdmits
  | tail path step induction =>
      have between := advances_of_path goalWellFormed wellFormed path
      exact induction.step goalWellFormed.store closed.toClosedAssignment
        (between.wellFormed.stored goalWellFormed) step

theorem Compatible.not_failure (goalWellFormed : goal.WellFormed)
    (closed : ClosedSolution goal solution value)
    (wellFormed : node.WellFormed goal)
    (compatible : node.Compatible candidates solution value) :
    ¬ EagerFailure goal.store node :=
  compatible.toAdmits.not_failure goalWellFormed.store
    closed.toClosedAssignment (wellFormed.stored goalWellFormed)

/-- At a pending obligation of a saturated node the head is no variable and
no conjunct. -/
theorem Saturated.head {store : AtomStore} (saturated : node.Saturated store)
    (body : store.Stores obligation.subsumption.body)
    (head : obligation.subsumption.head < store.size)
    (found : node.obligations[position]? = some obligation)
    (pending : obligation.solved = false) :
    store.isVariable obligation.subsumption.head = false ∧
      obligation.subsumption.head ∉ obligation.subsumption.body := by
  have idle := idle_of_firstEager? body head
    (saturated position obligation found pending)
  exact ⟨idle.nonVariable, idle.absent⟩

section Branching

variable (saturated : node.Saturated goal.store)
  (stored : ∀ s ∈ node.known,
    goal.store.Stores s.body ∧ s.head < goal.store.size)
  (found : node.obligations[position]? = some obligation)
  (pending : obligation.solved = false)

include saturated stored found pending

/-- Branching at a pending obligation of a saturated node has an answer. -/
theorem Saturated.alternatives :
    ∃ proposals, alternatives obligation.subsumption goal.store
        Rule.branchingRules = .ok proposals ∧
      ∀ application, (∃ rule, (rule, application) ∈ proposals) ↔
        BranchProposal goal.store obligation.subsumption application := by
  obtain ⟨body, head⟩ := stored _ (mem_known_of_mem (mem_of_getElem? found))
  obtain ⟨nonVariable, _⟩ := saturated.head body head found pending
  exact alternatives_eq_ok body head nonVariable

/-- At a pending obligation of a saturated node, some alternative succeeds, and
the solution stays admitted. -/
theorem Admits.branch (closed : ClosedAssignment goal solution value)
    (admits : node.Admits solution value) :
    ∃ application, BranchProposal goal.store obligation.subsumption
        application ∧
      ∃ after, node.apply goal.store position application = .ok after ∧
        after.Admits solution value := by
  have inKnown := mem_known_of_mem (mem_of_getElem? found)
  have holds := admits.holds _ inKnown
  obtain ⟨body, head⟩ := stored _ inKnown
  obtain ⟨nonVariable, absent⟩ := saturated.head body head found pending
  obtain ⟨atom, member, below⟩ :=
    closed.evaluates.exists_conjunct head nonVariable holds
  by_cases varying : goal.store.isVariable atom = true
  · obtain ⟨extended, success, admits', _⟩ := admits.extend closed
      (closed.closed atom _ varying head nonVariable below)
    refine ⟨_, .extension member varying nonVariable,
      extended.markSolved position, ?_, admits'.markSolved position⟩
    rw [apply, success]
    rfl
  · rw [Bool.not_eq_true] at varying
    have different : atom ≠ obligation.subsumption.head := by
      rintro rfl
      exact absent member
    obtain ⟨role, filler, filler', lower, upper, below'⟩ :=
      (closed.evaluates.interprets.nonVariable_isBelow_iff (body atom member)
        head varying nonVariable different).mp below
    refine ⟨_, .decomposition member lower upper, _, rfl, ?_⟩
    refine (admits.acquire (acquires_add node _) ?_).markSolved position
    intro s single
    rw [List.mem_singleton] at single
    subst single
    exact conjoin_singleton_isBelow.mpr below'

end Branching

/-- At a pending obligation of a saturated node, some alternative keeps the
node compatible. -/
theorem Compatible.branch (goalWellFormed : goal.WellFormed)
    (closed : ClosedSolution goal solution value)
    (wellFormed : node.WellFormed goal)
    (compatible : node.Compatible candidates solution value)
    (saturated : node.Saturated goal.store)
    (found : node.obligations[position]? = some obligation)
    (pending : obligation.solved = false) :
    ∃ application, BranchProposal goal.store obligation.subsumption
        application ∧
      ∃ after, node.apply goal.store position application = .ok after ∧
        after.Compatible candidates solution value := by
  obtain ⟨application, proposal, after, success, admits⟩ :=
    compatible.toAdmits.branch saturated (wellFormed.stored goalWellFormed)
      found pending closed.toClosedAssignment
  have progress := progress_branch goalWellFormed.store wellFormed found
    pending proposal success
  exact ⟨application, proposal, after, success,
    compatible.of_admits admits progress.refined progress.within⟩

/-- A compatible node that lacks a subsumer of the solution has a compatible
refinement by the first one that it lacks. -/
theorem Compatible.refinement (closed : ClosedSolution goal solution value)
    (compatible : node.Compatible candidates solution value)
    (lacks : ∃ (position : Nat) (x atom : AtomId),
      candidates[position]? = some (x, atom) ∧
        solution.contains x atom = true ∧
          node.assignment.contains x atom = false) :
    ∃ position x atom extended, candidates[position]? = some (x, atom) ∧
      node.assignment.contains x atom = false ∧
      node.nextCandidate ≤ position ∧
      node.extend goal.store x atom = .ok extended ∧
      (extended.withRefined position).Compatible candidates solution value := by
  classical
  have first := Nat.find_spec lacks
  have least := fun {position} => Nat.find_min lacks (m := position)
  generalize Nat.find lacks = position at first least
  obtain ⟨x, atom, candidate, inSolution, absent⟩ := first
  obtain ⟨extended, success, admits, contained, _, within⟩ :=
    compatible.toAdmits.extend closed.toClosedAssignment inSolution
  refine ⟨position, x, atom, extended, candidate, absent, ?_, success,
    ⟨admits.within, admits.holds⟩, ?_⟩
  · rw [← Nat.not_lt]
    intro before
    have present :=
      compatible.tried position x atom before candidate inSolution
    rw [absent] at present
    cases present
  · intro earlier y other before candidate' inSolution'
    have upTo : earlier ≤ position := Nat.le_of_lt_succ before
    rcases Nat.eq_or_lt_of_le upTo with rfl | strictly
    · rw [candidate] at candidate'
      cases candidate'
      exact contained
    · cases present : node.assignment.contains y other with
      | true => exact within y other present
      | false =>
          exact (least strictly
            ⟨y, other, candidate', inSolution', present⟩).elim

end Guided

end SearchNode

end ConceptUnification
