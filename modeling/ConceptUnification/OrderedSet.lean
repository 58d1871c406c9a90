import Std.Data.HashMap

/-!
# Finite sets as increasing lists

A finite set over a comparison is kept as the one strictly increasing list of its members. Two sets
with the same members are therefore equal, so sets can be compared, hashed and used as keys.
-/

namespace ConceptUnification

variable {α : Type} {cmp : α → α → Ordering}

/-- Inserts an element into an increasing list. An element that is already there is not repeated. -/
def insertOrdered (cmp : α → α → Ordering) (a : α) : List α → List α
  | [] => [a]
  | b :: l =>
    match cmp a b with
    | .lt => a :: b :: l
    | .eq => b :: l
    | .gt => b :: insertOrdered cmp a l

theorem mem_insertOrdered [Std.LawfulEqCmp cmp] {a x : α} {l : List α} :
    x ∈ insertOrdered cmp a l ↔ x = a ∨ x ∈ l := by
  induction l with
  | nil => simp [insertOrdered]
  | cons b l ih =>
    simp only [insertOrdered]
    cases order : cmp a b with
    | lt => simp
    | eq =>
      have same : a = b := Std.LawfulEqCmp.eq_of_compare order
      subst same
      simp
    | gt =>
      simp only [List.mem_cons, ih]
      constructor
      · rintro (h | h | h) <;> simp [h]
      · rintro (h | h | h) <;> simp [h]

theorem pairwise_insertOrdered [Std.TransCmp cmp] [Std.LawfulEqCmp cmp] {a : α} {l : List α}
    (increasing : l.Pairwise (fun x y => cmp x y = .lt)) :
    (insertOrdered cmp a l).Pairwise (fun x y => cmp x y = .lt) := by
  induction l with
  | nil => simp [insertOrdered]
  | cons b l ih =>
    obtain ⟨below, tail⟩ := List.pairwise_cons.mp increasing
    simp only [insertOrdered]
    cases order : cmp a b with
    | lt =>
      refine List.pairwise_cons.mpr ⟨?_, increasing⟩
      intro x member
      rcases List.mem_cons.mp member with rfl | member
      · exact order
      · exact Std.TransCmp.lt_trans order (below x member)
    | eq => exact increasing
    | gt =>
      refine List.pairwise_cons.mpr ⟨?_, ih tail⟩
      intro x member
      rcases mem_insertOrdered.mp member with rfl | member
      · exact Std.OrientedCmp.gt_iff_lt.mp order
      · exact below x member

/-- Two strictly increasing lists with the same members are equal. -/
theorem eq_of_increasing_of_mem_iff [Std.TransCmp cmp] :
    ∀ {l m : List α}, l.Pairwise (fun x y => cmp x y = .lt) →
      m.Pairwise (fun x y => cmp x y = .lt) → (∀ x, x ∈ l ↔ x ∈ m) → l = m
  | [], [], _, _, _ => rfl
  | [], b :: _, _, _, same => absurd ((same b).mpr List.mem_cons_self) List.not_mem_nil
  | a :: _, [], _, _, same => absurd ((same a).mp List.mem_cons_self) List.not_mem_nil
  | a :: l, b :: m, left, right, same => by
    obtain ⟨belowLeft, tailLeft⟩ := List.pairwise_cons.mp left
    obtain ⟨belowRight, tailRight⟩ := List.pairwise_cons.mp right
    have irreflexive : ∀ x, cmp x x ≠ .lt := by simp [Std.ReflCmp.compare_self]
    have heads : a = b := by
      rcases List.mem_cons.mp ((same a).mp List.mem_cons_self) with h | inRight
      · exact h
      · rcases List.mem_cons.mp ((same b).mpr List.mem_cons_self) with h | inLeft
        · exact h.symm
        · exact absurd (Std.TransCmp.lt_trans (belowLeft b inLeft) (belowRight a inRight))
            (irreflexive a)
    subst heads
    congr 1
    refine eq_of_increasing_of_mem_iff tailLeft tailRight ?_
    intro x
    constructor
    · intro member
      rcases List.mem_cons.mp ((same x).mp (List.mem_cons_of_mem _ member)) with rfl | h
      · exact absurd (belowLeft x member) (irreflexive x)
      · exact h
    · intro member
      rcases List.mem_cons.mp ((same x).mpr (List.mem_cons_of_mem _ member)) with rfl | h
      · exact absurd (belowRight x member) (irreflexive x)
      · exact h

/-- A finite set, kept as its strictly increasing list of members. -/
structure OrderedSet (α : Type) (cmp : α → α → Ordering) where
  /-- The members in increasing order. -/
  toList : List α
  /-- Each member comes strictly before all later ones. -/
  increasing : toList.Pairwise (fun x y => cmp x y = .lt)
deriving DecidableEq, Hashable

namespace OrderedSet

instance : EmptyCollection (OrderedSet α cmp) where
  emptyCollection := ⟨[], .nil⟩

instance : Inhabited (OrderedSet α cmp) where
  default := ∅

instance : Membership α (OrderedSet α cmp) where
  mem s a := a ∈ s.toList

instance [DecidableEq α] (a : α) (s : OrderedSet α cmp) : Decidable (a ∈ s) :=
  inferInstanceAs (Decidable (a ∈ s.toList))

instance [Std.TransCmp cmp] [Std.LawfulEqCmp cmp] : Insert α (OrderedSet α cmp) where
  insert a s := ⟨insertOrdered cmp a s.toList, pairwise_insertOrdered s.increasing⟩

instance : Singleton α (OrderedSet α cmp) where
  singleton a := ⟨[a], List.pairwise_singleton _ _⟩

/-- The set of the members of a list. -/
def ofList [Std.TransCmp cmp] [Std.LawfulEqCmp cmp] (l : List α) : OrderedSet α cmp :=
  l.foldr insert ∅

instance [Std.TransCmp cmp] [Std.LawfulEqCmp cmp] : Union (OrderedSet α cmp) where
  union s t := t.toList.foldr insert s

/-- The only member of a set, if it has exactly one. -/
def single? (s : OrderedSet α cmp) : Option α :=
  match s.toList with
  | [a] => some a
  | _ => none

/-- The members that satisfy a test. -/
def filter (p : α → Bool) (s : OrderedSet α cmp) : OrderedSet α cmp :=
  ⟨s.toList.filter p, s.increasing.sublist List.filter_sublist⟩

variable {a x : α} {s t : OrderedSet α cmp}

theorem mem_iff : x ∈ s ↔ x ∈ s.toList := Iff.rfl

theorem eq_of_mem_iff [Std.TransCmp cmp] (same : ∀ x, x ∈ s ↔ x ∈ t) : s = t := by
  obtain ⟨l, left⟩ := s
  obtain ⟨m, right⟩ := t
  have equality : l = m := eq_of_increasing_of_mem_iff left right same
  subst equality
  rfl

@[simp] theorem not_mem_empty : x ∉ (∅ : OrderedSet α cmp) := List.not_mem_nil

@[simp] theorem mem_singleton : x ∈ ({a} : OrderedSet α cmp) ↔ x = a := List.mem_singleton

@[simp] theorem mem_filter {p : α → Bool} : x ∈ s.filter p ↔ x ∈ s ∧ p x = true := List.mem_filter

section Insert

variable [Std.TransCmp cmp] [Std.LawfulEqCmp cmp]

@[simp] theorem mem_insert : x ∈ insert a s ↔ x = a ∨ x ∈ s := mem_insertOrdered

@[simp] theorem mem_ofList {l : List α} : x ∈ (ofList l : OrderedSet α cmp) ↔ x ∈ l := by
  induction l with
  | nil => simp [ofList]
  | cons b l ih =>
    have unfolded : (ofList (b :: l) : OrderedSet α cmp) = insert b (ofList l) := rfl
    simp [unfolded, ih]

@[simp] theorem mem_union : x ∈ s ∪ t ↔ x ∈ s ∨ x ∈ t := by
  have general : ∀ l : List α, x ∈ l.foldr insert s ↔ x ∈ s ∨ x ∈ l := by
    intro l
    induction l with
    | nil => simp
    | cons b l ih =>
      simp only [List.foldr_cons, mem_insert, ih, List.mem_cons]
      constructor
      · rintro (h | h | h) <;> simp [h]
      · rintro (h | h | h) <;> simp [h]
  exact general t.toList

end Insert

end OrderedSet

end ConceptUnification
