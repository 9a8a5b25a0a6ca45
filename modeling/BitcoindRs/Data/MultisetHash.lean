import Mathlib.Algebra.BigOperators.Group.Multiset.Basic
import Mathlib.Algebra.Field.Basic
import Mathlib.Tactic

/-! Histories of a multiset accumulator: elements come and go one by one, and accumulators filled apart are united. -/

namespace MultisetHash

inductive History (α : Type*) where
  | empty
  | insert (before : History α) (element : α)
  | remove (before : History α) (element : α)
  | combine (left right : History α)

namespace History

variable {α : Type*}

def inserted : History α → Multiset α
  | empty => 0
  | insert before element => element ::ₘ before.inserted
  | remove before _ => before.inserted
  | combine left right => left.inserted + right.inserted

def removed : History α → Multiset α
  | empty => 0
  | insert before _ => before.removed
  | remove before element => element ::ₘ before.removed
  | combine left right => left.removed + right.removed

def content [DecidableEq α] (history : History α) : Multiset α := history.inserted - history.removed

theorem balance_of_content [DecidableEq α] {history other : History α} (covered : history.removed ≤ history.inserted)
    (otherCovered : other.removed ≤ other.inserted) (same : history.content = other.content) :
    history.inserted + other.removed = other.inserted + history.removed := by
  calc history.inserted + other.removed
      = history.content + history.removed + other.removed := by rw [content, tsub_add_cancel_of_le covered]
    _ = other.content + other.removed + history.removed := by rw [same, add_right_comm]
    _ = other.inserted + history.removed := by rw [content, tsub_add_cancel_of_le otherCovered]

section Field

variable {K : Type*} [Field K] (image : α → K)

def quotient (history : History α) : K := (history.inserted.map image).prod / (history.removed.map image).prod

variable {image}

theorem prod_ne_zero (nonzero : ∀ element, image element ≠ 0) (elements : Multiset α) :
    (elements.map image).prod ≠ 0 := by
  apply Multiset.prod_ne_zero
  intro zero
  obtain ⟨element, _, vanishes⟩ := Multiset.mem_map.mp zero
  exact nonzero element vanishes

theorem quotient_eq (nonzero : ∀ element, image element ≠ 0) {history other : History α}
    (balance : history.inserted + other.removed = other.inserted + history.removed) :
    history.quotient image = other.quotient image := by
  rw [quotient, quotient, div_eq_div_iff (prod_ne_zero nonzero _) (prod_ne_zero nonzero _), ← Multiset.prod_add,
    ← Multiset.prod_add, ← Multiset.map_add, ← Multiset.map_add, balance]

end Field

end History

end MultisetHash
