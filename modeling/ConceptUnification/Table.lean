/-!
# Numbered tables

A table numbers distinct entries from zero in the order in which they were first inserted. Entries
are never removed, so a number keeps its meaning for ever.
-/

namespace ConceptUnification

/-- Distinct entries, numbered from zero in the order of their first insertion. -/
structure Table (α : Type) where
  /-- The entries by number. -/
  entries : Array α
  /-- No entry has two numbers. -/
  distinct : entries.toList.Nodup

namespace Table

variable {α : Type}

instance : EmptyCollection (Table α) where
  emptyCollection := ⟨#[], .nil⟩

instance : Inhabited (Table α) where
  default := ∅

/-- The number of entries, which is also the next number to be given. -/
def size (table : Table α) : Nat :=
  table.entries.size

/-- The entry with a given number. -/
def get? (table : Table α) (index : Nat) : Option α :=
  table.entries[index]?

variable [DecidableEq α]

/-- The number of an entry. -/
def find? (table : Table α) (entry : α) : Option Nat :=
  table.entries.idxOf? entry

theorem distinct_push {entries : Array α} {entry : α} (distinct : entries.toList.Nodup)
    (fresh : entries.idxOf? entry = none) : (entries.push entry).toList.Nodup := by
  have absent : entry ∉ entries := by simpa using fresh
  rw [Array.toList_push, List.nodup_append]
  refine ⟨distinct, by simp, ?_⟩
  intro a member b single equality
  rw [List.mem_singleton] at single
  subst single
  subst equality
  exact absent (Array.mem_toList_iff.mp member)

/-- Gives an entry its number: the one it has, or the next one if it is new. -/
def insert (table : Table α) (entry : α) : Nat × Table α :=
  match found : table.entries.idxOf? entry with
  | some index => (index, table)
  | none => (table.size, ⟨table.entries.push entry, distinct_push table.distinct found⟩)

theorem insert_of_find?_eq_some {table : Table α} {entry : α} {index : Nat}
    (found : table.find? entry = some index) : table.insert entry = (index, table) := by
  unfold insert
  split
  · next other h =>
    have same : some other = some index := h.symm.trans found
    simp_all
  · next h => exact absurd (h.symm.trans found) (by simp)

theorem entries_insert_of_find?_eq_none {table : Table α} {entry : α}
    (fresh : table.find? entry = none) :
    (table.insert entry).1 = table.size ∧
      (table.insert entry).2.entries = table.entries.push entry := by
  unfold insert
  split
  · next h => exact absurd (h.symm.trans fresh) (by simp)
  · simp

end Table

end ConceptUnification
