import ConceptUnification.NormalForm

/-!
# The order of normal forms

Names come before restrictions, and lists of atoms are compared
lexicographically.  The comparison of atoms is a linear order, so a finite set
of atoms has exactly one increasing list.  Each law is proved for atoms and for
lists of atoms at once.
-/

namespace ConceptUnification

namespace NormalAtom

mutual

theorem order_self (a : NormalAtom) : a.order a = .eq := by
  cases a with
  | name id => simp [order]
  | restriction role filler =>
      simp [order, orderAll_self filler]

theorem orderAll_self (as : List NormalAtom) : orderAll as as = .eq := by
  cases as with
  | nil => rfl
  | cons a as => simp [orderAll, order_self a, orderAll_self as]

end

mutual

theorem eq_of_order_eq (a b : NormalAtom) (same : a.order b = .eq) : a = b := by
  cases a with
  | name a =>
      cases b with
      | name b => simpa [order] using same
      | restriction role filler => simp [order] at same
  | restriction role filler =>
      cases b with
      | name b => simp [order] at same
      | restriction role' filler' =>
          simp only [order, Ordering.then_eq_eq, Nat.compare_eq_eq] at same
          obtain ⟨sameRole, sameFiller⟩ := same
          rw [sameRole, eq_of_orderAll_eq filler filler' sameFiller]

theorem eq_of_orderAll_eq (as bs : List NormalAtom)
    (same : orderAll as bs = .eq) : as = bs := by
  cases as with
  | nil =>
      cases bs with
      | nil => rfl
      | cons b bs => simp [orderAll] at same
  | cons a as =>
      cases bs with
      | nil => simp [orderAll] at same
      | cons b bs =>
          simp only [orderAll, Ordering.then_eq_eq] at same
          rw [eq_of_order_eq a b same.1, eq_of_orderAll_eq as bs same.2]

end

mutual

theorem order_eq_swap (a b : NormalAtom) : a.order b = (b.order a).swap := by
  cases a with
  | name a =>
      cases b with
      | name b => simpa [order] using (Nat.compare_swap b a).symm
      | restriction role filler => rfl
  | restriction role filler =>
      cases b with
      | name b => rfl
      | restriction role' filler' =>
          simp only [order, Ordering.swap_then]
          rw [Nat.compare_swap, orderAll_eq_swap filler filler']

theorem orderAll_eq_swap (as bs : List NormalAtom) :
    orderAll as bs = (orderAll bs as).swap := by
  cases as with
  | nil => cases bs <;> rfl
  | cons a as =>
      cases bs with
      | nil => rfl
      | cons b bs =>
          simp only [orderAll, Ordering.swap_then]
          rw [order_eq_swap a b, orderAll_eq_swap as bs]

end

mutual

theorem order_lt_trans (a b c : NormalAtom) (left : a.order b = .lt)
    (right : b.order c = .lt) : a.order c = .lt := by
  cases b with
  | name b =>
      cases a with
      | restriction role filler => simp [order] at left
      | name a =>
          cases c with
          | restriction role filler => rfl
          | name c =>
              simp only [order, Nat.compare_eq_lt] at left right ⊢
              exact Nat.lt_trans left right
  | restriction role filler =>
      cases c with
      | name c => simp [order] at right
      | restriction role'' filler'' =>
          cases a with
          | name a => rfl
          | restriction role' filler' =>
              simp only [order, Ordering.then_eq_lt, Nat.compare_eq_lt,
                Nat.compare_eq_eq] at left right ⊢
              rcases left with below | ⟨rfl, below⟩
              · rcases right with above | ⟨rfl, _⟩
                · exact .inl (Nat.lt_trans below above)
                · exact .inl below
              · rcases right with above | ⟨rfl, above⟩
                · exact .inl above
                · exact .inr ⟨rfl,
                    orderAll_lt_trans filler' filler filler'' below above⟩

theorem orderAll_lt_trans (as bs cs : List NormalAtom)
    (left : orderAll as bs = .lt) (right : orderAll bs cs = .lt) :
    orderAll as cs = .lt := by
  cases bs with
  | nil => cases as <;> simp [orderAll] at left
  | cons b bs =>
      cases cs with
      | nil => simp [orderAll] at right
      | cons c cs =>
          cases as with
          | nil => rfl
          | cons a as =>
              simp only [orderAll, Ordering.then_eq_lt] at left right ⊢
              rcases left with below | ⟨same, below⟩
              · rcases right with above | ⟨same, _⟩
                · exact .inl (order_lt_trans a b c below above)
                · rw [← eq_of_order_eq b c same]
                  exact .inl below
              · rw [eq_of_order_eq a b same]
                rcases right with above | ⟨same', above⟩
                · exact .inl above
                · exact .inr ⟨same', orderAll_lt_trans as bs cs below above⟩

end

instance : Std.LawfulEqCmp order where
  compare_self := order_self _
  eq_of_compare := eq_of_order_eq _ _

/-- Where only equal values compare as equal, it suffices that strict steps can
be composed. -/
theorem transCmp_of_lt_trans {α : Type} {cmp : α → α → Ordering}
    [Std.LawfulEqCmp cmp] (swap : ∀ a b, cmp a b = (cmp b a).swap)
    (lt_trans : ∀ a b c, cmp a b = .lt → cmp b c = .lt → cmp a c = .lt) :
    Std.TransCmp cmp where
  eq_swap := swap _ _
  isLE_trans := by
    intro a b c left right
    cases leftOrder : cmp a b with
    | gt => simp [leftOrder] at left
    | eq => rwa [Std.LawfulEqCmp.eq_of_compare leftOrder]
    | lt =>
        cases rightOrder : cmp b c with
        | gt => simp [rightOrder] at right
        | eq => rwa [← Std.LawfulEqCmp.eq_of_compare rightOrder]
        | lt => simp [lt_trans a b c leftOrder rightOrder]

instance : Std.TransCmp order :=
  transCmp_of_lt_trans order_eq_swap order_lt_trans

/-- Lists are ordered lexicographically, and a proper beginning comes first. -/
theorem orderAll_eq_lt_iff {as bs : List NormalAtom} :
    orderAll as bs = .lt ↔ List.Lex (fun a b => a.order b = .lt) as bs := by
  induction as generalizing bs with
  | nil => cases bs <;> simp [orderAll]
  | cons a as induction =>
      cases bs with
      | nil => simp [orderAll]
      | cons b bs =>
          rw [orderAll, Ordering.then_eq_lt, induction, List.cons_lex_cons_iff]
          rw [Std.LawfulEqCmp.compare_eq_iff_eq]

theorem order_lt_irrefl (a : NormalAtom) : a.order a ≠ .lt := by
  simp [order_self]

/-- Of two different atoms one comes first. -/
theorem order_lt_or_gt {a b : NormalAtom} (different : a ≠ b) :
    a.order b = .lt ∨ b.order a = .lt := by
  cases compared : a.order b with
  | lt => exact .inl rfl
  | eq => exact (different (eq_of_order_eq a b compared)).elim
  | gt =>
      right
      rw [order_eq_swap, compared]
      rfl

end NormalAtom

end ConceptUnification
