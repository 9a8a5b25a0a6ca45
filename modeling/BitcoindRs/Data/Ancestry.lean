import Mathlib.Tactic

/-!
Forests given by a partial parent function, in which every node has a rank and a node of positive rank has a parent one
rank below.
-/

namespace Ancestry
variable {α : Type*} {parent parent' : α → Option α} {rank rank' : α → Option ℕ}

def climb (parent : α → Option α) : ℕ → α → Option α
  | 0, a => some a
  | n + 1, a => (parent a).bind (climb parent n)

@[simp] theorem climb_zero (a : α) : climb parent 0 a = some a := rfl

theorem climb_succ_of_parent {a p : α} (n : ℕ) (above : parent a = some p) :
    climb parent (n + 1) a = climb parent n p := by
  rw [climb, above, Option.bind_some]

theorem climb_add (m n : ℕ) (a : α) : climb parent (m + n) a = (climb parent m a).bind (climb parent n) := by
  induction m generalizing a with
  | zero => rw [Nat.zero_add, climb_zero, Option.bind_some]
  | succ m ih =>
    rw [Nat.succ_add, climb, climb]
    cases parent a with
    | none => rfl
    | some p => exact ih p

def Graded (rank : α → Option ℕ) (parent : α → Option α) : Prop :=
  ∀ a n, rank a = some (n + 1) → ∃ p, parent a = some p ∧ rank p = some n

theorem Graded.climb (graded : Graded rank parent) {a : α} {m n : ℕ} (ranked : rank a = some m) (below : n ≤ m) :
    ∃ b, climb parent n a = some b ∧ rank b = some (m - n) := by
  induction n generalizing a m with
  | zero => exact ⟨a, rfl, ranked⟩
  | succ n ih =>
    obtain ⟨k, rfl⟩ : ∃ k, m = k + 1 := ⟨m - 1, by omega⟩
    obtain ⟨p, above, rankedParent⟩ := graded a k ranked
    obtain ⟨b, found, rankedAncestor⟩ := ih rankedParent (by omega)
    refine ⟨b, (climb_succ_of_parent n above).trans found, ?_⟩
    rw [rankedAncestor]
    congr 1
    omega

theorem Graded.rank_lt_card (graded : Graded rank parent) {s : Finset α} (listed : ∀ a n, rank a = some n → a ∈ s) {a : α} {m : ℕ}
    (ranked : rank a = some m) : m < s.card := by
  have covered : Finset.range (m + 1) ⊆ s.image fun a => (rank a).getD 0 := by
    intro k inside
    obtain ⟨b, -, rankedAncestor⟩ := graded.climb ranked (Nat.sub_le m k)
    have here : m - (m - k) = k := Nat.sub_sub_self (Nat.lt_succ_iff.mp (Finset.mem_range.mp inside))
    refine Finset.mem_image.mpr ⟨b, listed b _ rankedAncestor, ?_⟩
    rw [rankedAncestor, here, Option.getD_some]
  have bound := (Finset.card_le_card covered).trans Finset.card_image_le
  rwa [Finset.card_range] at bound

/-- One forest extends another: what has a rank keeps its rank and its parent. -/
structure Extends (rank : α → Option ℕ) (parent : α → Option α) (rank' : α → Option ℕ) (parent' : α → Option α) :
    Prop where
  keepsRank : ∀ a n, rank a = some n → rank' a = some n
  keepsParent : ∀ a n, rank a = some n → parent' a = parent a

theorem Extends.climb (extension : Extends rank parent rank' parent') (graded : Graded rank parent) {a : α} {m n : ℕ}
    (ranked : rank a = some m) (below : n ≤ m) : climb parent' n a = climb parent n a := by
  induction n generalizing a m with
  | zero => rfl
  | succ n ih =>
    obtain ⟨k, rfl⟩ : ∃ k, m = k + 1 := ⟨m - 1, by omega⟩
    obtain ⟨p, above, rankedParent⟩ := graded a k ranked
    rw [climb_succ_of_parent n above, climb_succ_of_parent n ((extension.keepsParent a _ ranked).trans above)]
    exact ih rankedParent (by omega)

end Ancestry
