import Mathlib.Data.List.Basic
import Mathlib.Tactic

/-! Merkle trees over a pairing function, layer by layer, with the last element of an odd layer paired with itself. -/

namespace Merkle
open List
variable {α : Type} (pair : α → α → α)
variable {xs ys : List α} {k : ℕ}

def layer : List α → List α
  | [] => []
  | [x] => [pair x x]
  | x :: y :: rest => pair x y :: layer rest

def level : ℕ → List α → List α
  | 0, xs => xs
  | k + 1, xs => level k (layer pair xs)

def width (total height : ℕ) : ℕ := (total + 2 ^ height - 1) / 2 ^ height

def twins [DecidableEq α] : List α → Bool
  | x :: y :: rest => x = y ∨ twins rest
  | _ => false

def Inner (xs : List α) (a : α) : Prop := ∃ k, 1 < (level pair k xs).length ∧ a ∈ level pair (k + 1) xs

variable {pair}

theorem length_layer (xs : List α) : (layer pair xs).length = (xs.length + 1) / 2 := by
  induction xs using layer.induct with
  | case1 => simp [layer]
  | case2 x => simp [layer]
  | case3 x y rest ih =>
    rw [layer, length_cons, ih, length_cons, length_cons]
    omega

theorem level_succ (k : ℕ) (xs : List α) : level pair (k + 1) xs = layer pair (level pair k xs) := by
  induction k generalizing xs with
  | zero => rfl
  | succ k ih => exact ih (layer pair xs)

theorem level_add (j k : ℕ) (xs : List α) : level pair (j + k) xs = level pair j (level pair k xs) := by
  induction j with
  | zero => rw [Nat.zero_add, level]
  | succ j ih => rw [Nat.add_right_comm, level_succ, ih, level_succ]

theorem width_zero (total : ℕ) : width total 0 = total := by
  simp [width]

theorem width_succ (total height : ℕ) : width total (height + 1) = (width total height + 1) / 2 := by
  rcases Nat.eq_zero_or_pos total with rfl | some_
  · have smaller : ∀ h, width 0 h = 0 := fun h => by
      rw [width, Nat.zero_add]
      exact Nat.div_eq_of_lt (Nat.sub_one_lt (Nat.two_pow_pos h).ne')
    rw [smaller, smaller]
  · have up : ∀ h, width total h = (total - 1) / 2 ^ h + 1 := fun h => by
      rw [width, show total + 2 ^ h - 1 = (total - 1) + 2 ^ h by have := Nat.two_pow_pos h; omega,
        Nat.add_div_right _ (Nat.two_pow_pos h)]
    rw [up, up, pow_succ, ← Nat.div_div_eq_div_mul]
    omega

theorem width_le_one_iff {total height : ℕ} : width total height ≤ 1 ↔ total ≤ 2 ^ height := by
  have unit := Nat.two_pow_pos height
  rw [width, ← Nat.lt_succ_iff, Nat.div_lt_iff_lt_mul unit]
  omega

theorem length_level (k : ℕ) (xs : List α) : (level pair k xs).length = width xs.length k := by
  induction k with
  | zero => rw [level, width_zero]
  | succ k ih => rw [level_succ, length_layer, ih, width_succ]

theorem getElem?_layer (xs : List α) (i : ℕ) :
    (layer pair xs)[i]? = xs[2 * i]?.map fun left => pair left (xs[2 * i + 1]?.getD left) := by
  induction xs using layer.induct generalizing i with
  | case1 => rfl
  | case2 x =>
    cases i with
    | zero => rfl
    | succ i => simp [layer]
  | case3 x y rest ih =>
    cases i with
    | zero => rfl
    | succ i =>
      rw [layer, getElem?_cons_succ, ih, show 2 * (i + 1) = 2 * i + 1 + 1 by omega, getElem?_cons_succ,
        getElem?_cons_succ, getElem?_cons_succ, getElem?_cons_succ]

theorem mem_layer {a : α} (member : a ∈ layer pair xs) : ∃ left right, a = pair left right := by
  obtain ⟨i, listed⟩ := mem_iff_getElem?.mp member
  rw [getElem?_layer, Option.map_eq_some_iff] at listed
  obtain ⟨left, -, same⟩ := listed
  exact ⟨left, _, same.symm⟩

def padded (xs : List α) : List α := if xs.length % 2 = 1 then xs ++ xs.getLast?.toList else xs

def paired (pair : α → α → α) : List α → List α
  | x :: y :: rest => pair x y :: paired pair rest
  | _ => []

theorem paired_padded (pair : α → α → α) (xs : List α) : paired pair (padded xs) = layer pair xs := by
  induction xs using layer.induct with
  | case1 => rfl
  | case2 x => rfl
  | case3 x y rest ih =>
    have shape : padded (x :: y :: rest) = x :: y :: padded rest := by
      unfold padded
      rw [length_cons, length_cons, show (rest.length + 1 + 1) % 2 = rest.length % 2 by omega]
      split
      · rename_i odd
        cases rest with
        | nil => cases odd
        | cons z rest => simp [getLast?_cons]
      · rfl
    rw [shape, paired, layer, ih]

/-- The root: padded layers are paired until one element is left. -/
def recursiveRoot (pair : α → α → α) (xs : List α) : Option α :=
  if 1 < xs.length then recursiveRoot pair (paired pair (padded xs)) else xs.head?
termination_by xs.length
decreasing_by
  rw [paired_padded, length_layer]
  omega

theorem recursiveRoot_eq_level (top : width xs.length k ≤ 1) (below : ∀ j < k, 1 < width xs.length j) :
    recursiveRoot pair xs = (level pair k xs)[0]? := by
  induction k generalizing xs with
  | zero =>
    rw [width_zero] at top
    rw [recursiveRoot, if_neg (by omega), level, head?_eq_getElem?]
  | succ k ih =>
    have many := below 0 (Nat.succ_pos k)
    have shift : ∀ j, width (layer pair xs).length j = width xs.length (j + 1) := by
      intro j
      rw [← @length_level _ pair, ← @length_level _ pair]
      rfl
    rw [width_zero] at many
    rw [recursiveRoot, if_pos many, paired_padded, level]
    apply ih
    · rw [shift]
      exact top
    · intro j lower
      rw [shift]
      exact below (j + 1) (by omega)

theorem layer_eq_nil (none_ : layer pair xs = []) : xs = [] := by
  have short := @length_layer _ pair xs
  rw [none_, length_nil] at short
  exact length_eq_zero_iff.mp (by omega)

theorem nodup_layer (injective : Function.Injective2 pair) (distinct : xs.Nodup) : (layer pair xs).Nodup := by
  rw [nodup_iff_getElem?_ne_getElem?] at distinct ⊢
  intro i j before inside same
  have present := getElem?_eq_getElem inside
  rw [← same, getElem?_layer, Option.map_eq_some_iff] at present
  obtain ⟨left, first, paired⟩ := present
  have other := getElem?_eq_getElem inside
  rw [getElem?_layer, Option.map_eq_some_iff] at other
  obtain ⟨left', first', paired'⟩ := other
  obtain ⟨equal, -⟩ := injective (paired.trans paired'.symm)
  have bound := (List.getElem?_eq_some_iff.mp first').1
  exact distinct (2 * i) (2 * j) (by omega) bound (first.trans (equal ▸ first'.symm))

variable [DecidableEq α]

theorem twins_of_short (short : xs.length ≤ 1) : twins xs = false := by
  match xs with
  | [] => rfl
  | [x] => rfl
  | x :: y :: rest => simp at short

theorem twins_of_nodup (distinct : xs.Nodup) : twins xs = false := by
  induction xs using twins.induct with
  | case1 x y rest ih =>
    simp only [nodup_cons, mem_cons, not_or] at distinct
    simp [twins, distinct.1.1, ih distinct.2.2]
  | case2 xs short =>
    match xs with
    | [] => rfl
    | [x] => rfl
    | x :: y :: rest => exact absurd rfl (short x y rest)

theorem twins_level_of_nodup (injective : Function.Injective2 pair) (distinct : xs.Nodup) (k : ℕ) :
    twins (level pair k xs) = false := by
  induction k generalizing xs with
  | zero => exact twins_of_nodup distinct
  | succ k ih => exact ih (nodup_layer injective distinct)

theorem layer_injective (injective : Function.Injective2 pair) (left : twins xs = false) (right : twins ys = false)
    (same : layer pair xs = layer pair ys) : xs = ys := by
  induction xs using layer.induct generalizing ys with
  | case1 => exact (layer_eq_nil same.symm).symm
  | case2 x =>
    match ys with
    | [] => cases same
    | [y] =>
      rw [(injective (List.cons.inj same).1).1]
    | y :: z :: rest =>
      obtain ⟨top, rest_⟩ := List.cons.inj same
      obtain ⟨first, second⟩ := injective top
      simp [twins, ← first, ← second] at right
  | case3 x y rest ih =>
    match ys with
    | [] => cases same
    | [z] =>
      obtain ⟨top, rest_⟩ := List.cons.inj same
      obtain ⟨first, second⟩ := injective top
      simp [twins, first, second] at left
    | z :: w :: others =>
      obtain ⟨top, below⟩ := List.cons.inj same
      obtain ⟨rfl, rfl⟩ := injective top
      simp only [twins, decide_eq_false_iff_not, not_or, Bool.not_eq_true] at left right
      rw [ih left.2 right.2 below]

theorem level_injective (injective : Function.Injective2 pair) (k : ℕ)
    (left : ∀ j < k, twins (level pair j xs) = false) (right : ∀ j < k, twins (level pair j ys) = false)
    (same : level pair k xs = level pair k ys) : xs = ys := by
  induction k generalizing xs ys with
  | zero => exact same
  | succ k ih =>
    apply layer_injective injective (left 0 k.succ_pos) (right 0 k.succ_pos)
    exact ih (fun j small => left (j + 1) (by omega)) (fun j small => right (j + 1) (by omega)) same

theorem inner_of_lower (injective : Function.Injective2 pair) {j : ℕ} {root : α} (lower : j < k)
    (left : ∀ i < j, twins (level pair i xs) = false) (right : ∀ i < k, twins (level pair i ys) = false)
    (top : level pair j xs = [root]) (top' : level pair k ys = [root]) (tall : ∀ i < k, 1 < (level pair i ys).length) :
    ∀ a ∈ xs, Inner pair ys a := by
  have split : level pair j (level pair (k - j) ys) = level pair k ys := by
    rw [← level_add, Nat.add_sub_cancel' lower.le]
  have same : xs = level pair (k - j) ys := by
    apply level_injective injective j left
    · intro i small
      rw [← level_add]
      exact right _ (by omega)
    · rw [top, split, top']
  intro a member
  refine ⟨k - j - 1, tall _ (by omega), ?_⟩
  rw [show k - j - 1 + 1 = k - j by omega, ← same]
  exact member

end Merkle
