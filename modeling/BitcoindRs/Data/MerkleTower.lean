import BitcoindRs.Data.Merkle
import Mathlib.Data.Nat.Bitwise

/-!
All layers of a Merkle tree, from the leaves to the root: what one more leaf changes, and the branch of a leaf.
-/

namespace Merkle
open List
variable {α : Type} {pair : α → α → α}

/-- Layers, lowest first, each made of the one below, up to one of a single element. -/
def IsTower (pair : α → α → α) : List (List α) → Prop
  | [] => False
  | [top] => top.length = 1
  | lower :: upper :: rest => 1 < lower.length ∧ upper = layer pair lower ∧ IsTower pair (upper :: rest)

theorem IsTower.unique {lower : List α} {left right : List (List α)} (first : IsTower pair (lower :: left))
    (second : IsTower pair (lower :: right)) : left = right := by
  induction left generalizing lower right with
  | nil =>
    cases right with
    | nil => rfl
    | cons upper rest =>
      have single : lower.length = 1 := first
      have several := second.1
      omega
  | cons upper left ih =>
    obtain ⟨several, rfl, first⟩ := first
    cases right with
    | nil =>
      have single : lower.length = 1 := second
      omega
    | cons upper right =>
      obtain ⟨-, rfl, second⟩ := second
      rw [ih first second]

def lastParent (pair : α → α → α) (lower : List α) : Option α :=
  lower.getLast?.map fun last =>
    if lower.length % 2 = 0 then pair (lower[lower.length - 2]?.getD last) last else pair last last

/-- The layers above one that has changed in its last element, or has got one more. -/
def extendAbove (pair : α → α → α) : List α → List (List α) → List (List α)
  | lower, [] => [(lastParent pair lower).toList]
  | lower, current :: rest =>
    let current :=
      if current.length < (lower.length + 1) / 2 then current ++ (lastParent pair lower).toList
      else current.dropLast ++ (lastParent pair lower).toList
    if rest.isEmpty = true ∧ current.length = 1 then [current] else current :: extendAbove pair current rest

theorem lastParent_eq {lower : List α} (some_ : 0 < lower.length) :
    lastParent pair lower = (layer pair lower)[(lower.length - 1) / 2]? := by
  obtain ⟨last, listed⟩ : ∃ last, lower[lower.length - 1]? = some last := ⟨_, getElem?_eq_getElem (by omega)⟩
  rw [lastParent, getLast?_eq_getElem?, listed, getElem?_layer, Option.map_some]
  rcases Nat.mod_two_eq_zero_or_one lower.length with even | odd
  · obtain ⟨left, before⟩ : ∃ left, lower[lower.length - 2]? = some left := ⟨_, getElem?_eq_getElem (by omega)⟩
    rw [if_pos even, show 2 * ((lower.length - 1) / 2) = lower.length - 2 by omega,
      show lower.length - 2 + 1 = lower.length - 1 by omega, before, listed]
    rfl
  · have past : lower[lower.length - 1 + 1]? = none := getElem?_eq_none (by omega)
    rw [if_neg (by omega), show 2 * ((lower.length - 1) / 2) = lower.length - 1 by omega, listed, past]
    rfl

theorem layer_eq_take {lower : List α} (some_ : 0 < lower.length) :
    layer pair lower = (layer pair lower).take ((lower.length - 1) / 2) ++ (lastParent pair lower).toList := by
  have length := @length_layer _ pair lower
  rw [lastParent_eq some_, ← take_add_one, take_of_length_le (by omega)]

/-- Only the last element differs, or there is one more. -/
structure Grows (before after : List α) : Prop where
  same : after.take (after.length - 1) = before.take (after.length - 1)
  some_ : 0 < before.length
  long : before.length ≤ after.length
  short : after.length ≤ before.length + 1

theorem Grows.layer {before after : List α} (grows : Grows before after) :
    (if (layer pair before).length < (after.length + 1) / 2 then layer pair before ++ (lastParent pair after).toList
      else (layer pair before).dropLast ++ (lastParent pair after).toList) = layer pair after ∧
    Grows (layer pair before) (layer pair after) := by
  have := grows.some_
  have := grows.long
  have := grows.short
  have lengthBefore := @length_layer _ pair before
  have lengthAfter := @length_layer _ pair after
  have low : ∀ i, i < after.length - 1 → after[i]? = before[i]? := by
    intro i inside
    have both := congrArg (fun list : List α => list[i]?) grows.same
    simpa only [getElem?_take_of_lt inside] using both
  have front : (Merkle.layer pair after).take ((after.length - 1) / 2) = (Merkle.layer pair before).take ((after.length - 1) / 2) := by
    refine ext_getElem? fun i => ?_
    by_cases inside : i < (after.length - 1) / 2
    · rw [getElem?_take_of_lt inside, getElem?_take_of_lt inside, getElem?_layer, getElem?_layer,
        low (2 * i) (by omega), low (2 * i + 1) (by omega)]
    · rw [getElem?_take_eq_none (by omega), getElem?_take_eq_none (by omega)]
  refine ⟨?_, ⟨?_, by omega, by omega, by omega⟩⟩
  · rw [@layer_eq_take _ pair _ (show 0 < after.length by omega), front]
    split
    · rw [take_of_length_le (by omega)]
    · rw [dropLast_eq_take, show (Merkle.layer pair before).length - 1 = (after.length - 1) / 2 by omega]
  · rw [show (Merkle.layer pair after).length - 1 = (after.length - 1) / 2 by omega]
    exact front

theorem extendAbove_tower {before after : List α} {uppers : List (List α)} (tower : IsTower pair (before :: uppers))
    (grows : Grows before after) (several : 1 < after.length) : IsTower pair (after :: extendAbove pair after uppers) := by
  induction uppers generalizing before after with
  | nil =>
    have single : before.length = 1 := tower
    have two : after.length = 2 := by
      have := grows.short
      omega
    have top := @layer_eq_take _ pair _ (show 0 < after.length by omega)
    rw [two, show (2 - 1) / 2 = 0 by rfl, take_zero, nil_append] at top
    refine ⟨several, top.symm, ?_⟩
    show (lastParent pair after).toList.length = 1
    rw [← top, length_layer, two]
  | cons current rest ih =>
    obtain ⟨more, rfl, tower⟩ := tower
    obtain ⟨updated, next⟩ := @Grows.layer _ pair _ _ grows
    rw [extendAbove, updated]
    split
    · rename_i top
      exact ⟨several, rfl, top.2⟩
    · rename_i inner
      refine ⟨several, rfl, ih tower next ?_⟩
      cases rest with
      | nil =>
        have some_ := next.some_
        have long := next.long
        have differs : (layer pair after).length ≠ 1 := fun one => inner ⟨rfl, one⟩
        omega
      | cons upper rest => exact lt_of_lt_of_le tower.1 next.long

def branch : List (List α) → ℕ → List α
  | [], _ => []
  | lower :: rest, index =>
    if 1 < lower.length then
      lower[if index ^^^ 1 < lower.length then index ^^^ 1 else index]?.toList ++ branch rest (index / 2)
    else []

def ascend (pair : α → α → α) : α → ℕ → List α → α
  | a, _, [] => a
  | a, index, sibling :: rest => ascend pair (if index % 2 = 0 then pair a sibling else pair sibling a) (index / 2) rest

theorem exists_sibling {lower : List α} {index : ℕ} {a : α} (listed : lower[index]? = some a) :
    ∃ sibling, lower[if index ^^^ 1 < lower.length then index ^^^ 1 else index]? = some sibling ∧
      (layer pair lower)[index / 2]? = some (if index % 2 = 0 then pair a sibling else pair sibling a) := by
  have inside := (List.getElem?_eq_some_iff.mp listed).1
  rw [getElem?_layer]
  rcases Nat.mod_two_eq_zero_or_one index with even | odd
  · rw [Nat.xor_one_of_even (Nat.even_iff.mpr even), show 2 * (index / 2) = index by omega, listed]
    simp only [if_pos even]
    by_cases paired : index + 1 < lower.length
    · rw [if_pos paired]
      exact ⟨_, getElem?_eq_getElem paired, by rw [getElem?_eq_getElem paired]; rfl⟩
    · rw [if_neg paired, getElem?_eq_none (Nat.le_of_not_lt paired)]
      exact ⟨a, listed, rfl⟩
  · have before : index - 1 < lower.length := by omega
    rw [Nat.xor_one_of_odd (Nat.odd_iff.mpr odd), show 2 * (index / 2) = index - 1 by omega,
      show index - 1 + 1 = index by omega, if_pos before, listed]
    simp only [if_neg (show ¬ index % 2 = 0 by omega)]
    exact ⟨_, getElem?_eq_getElem before, by rw [getElem?_eq_getElem before]; rfl⟩

theorem ascend_branch {lower : List α} {rest : List (List α)} {index : ℕ} {a : α} (tower : IsTower pair (lower :: rest))
    (listed : lower[index]? = some a) :
    (lower :: rest).getLast?.bind List.head? = some (ascend pair a index (branch (lower :: rest) index)) := by
  induction rest generalizing lower index a with
  | nil =>
    have single : lower.length = 1 := tower
    have inside := (List.getElem?_eq_some_iff.mp listed).1
    obtain rfl : index = 0 := by omega
    rw [branch, if_neg (by omega), ascend, ← listed, getLast?_singleton, Option.bind_some, head?_eq_getElem?]
  | cons upper rest ih =>
    obtain ⟨several, rfl, tower⟩ := tower
    obtain ⟨sibling, there, above⟩ := @exists_sibling _ pair _ _ _ listed
    rw [branch, if_pos several, there, Option.toList_some, singleton_append, ascend, getLast?_cons_cons]
    exact ih tower above

end Merkle
