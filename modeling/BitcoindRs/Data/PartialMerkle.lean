import BitcoindRs.Data.Merkle
import BitcoindRs.Data.Bytes

/-!
Partial Merkle trees: the nodes needed to recompute the root together with chosen leaves, listed depth first with one
bit a node, and the traversal that reads such a listing back.
-/

namespace PartialMerkle
open Merkle List
variable {α : Type} (pair : α → α → α)
variable {height position bits hashes : ℕ} {wanted : List Bool}
variable {xs : List α}

def portion (xs : List α) (wanted : List Bool) (height position : ℕ) : List ((α × ℕ) × Bool) :=
  ((xs.zipIdx.zip wanted).drop (position * 2 ^ height)).take (2 ^ height)

def chosen (items : List ((α × ℕ) × Bool)) : List (α × ℕ) := (items.filter (·.2)).map (·.1)

theorem portion_succ (xs : List α) (wanted : List Bool) (height position : ℕ) :
    portion xs wanted (height + 1) position =
      portion xs wanted height (2 * position) ++ portion xs wanted height (2 * position + 1) := by
  have first : position * 2 ^ (height + 1) = 2 * position * 2 ^ height := by ring
  have second : (2 * position + 1) * 2 ^ height = 2 * position * 2 ^ height + 2 ^ height := by ring
  rw [portion, portion, portion, first, second, ← drop_drop, pow_succ, Nat.mul_two, take_add]

theorem width_le_iff {total : ℕ} : width total height ≤ position ↔ total ≤ position * 2 ^ height := by
  have unit := Nat.two_pow_pos height
  rw [width, ← Nat.lt_succ_iff, Nat.div_lt_iff_lt_mul unit, Nat.succ_mul]
  omega

theorem portion_eq_nil (outside : width xs.length height ≤ position) : portion xs wanted height position = [] := by
  have far := width_le_iff.mp outside
  rw [portion, drop_eq_nil_of_le, take_nil]
  rw [length_zip, length_zipIdx]
  omega

theorem length_portion_pos (same : wanted.length = xs.length)
    (inside : position < width xs.length height) : 0 < (portion xs wanted height position).length := by
  have near := mt width_le_iff.mpr (not_le.mpr inside)
  have unit := Nat.two_pow_pos height
  rw [portion, length_take, length_drop, length_zip, length_zipIdx]
  omega

theorem any_portion (same : wanted.length = xs.length) (height position : ℕ) :
    (portion xs wanted height position).any (·.2) =
      ((wanted.drop (position * 2 ^ height)).take (2 ^ height)).any id := by
  have flags : (xs.zipIdx.zip wanted).map Prod.snd = wanted := by
    apply map_snd_zip
    rw [length_zipIdx, same]
  have slice : (portion xs wanted height position).map Prod.snd =
      (wanted.drop (position * 2 ^ height)).take (2 ^ height) := by
    rw [portion, map_take, map_drop, flags]
  rw [← slice, any_map]
  rfl

def collect (xs : List α) (wanted : List Bool) : ℕ → ℕ → List Bool × List α
  | 0, position => ([(portion xs wanted 0 position).any (·.2)], xs[position]?.toList)
  | height + 1, position =>
    if (portion xs wanted (height + 1) position).any (·.2) then
      let left := collect xs wanted height (2 * position)
      let right := if 2 * position + 1 < width xs.length height then collect xs wanted height (2 * position + 1) else ([], [])
      (true :: (left.1 ++ right.1), left.2 ++ right.2)
    else ([false], (level pair (height + 1) xs)[position]?.toList)

variable {pair}

theorem length_collect_bits (xs : List α) (wanted : List Bool) (height position : ℕ) :
    0 < (collect pair xs wanted height position).1.length ∧
      (collect pair xs wanted height position).1.length < 2 ^ (height + 1) := by
  induction height generalizing position with
  | zero => simp [collect]
  | succ height ih =>
    have unit := Nat.two_pow_pos height
    have left := ih (2 * position)
    have right := ih (2 * position + 1)
    have double : 2 ^ (height + 1 + 1) = 2 ^ (height + 1) + 2 ^ (height + 1) := by ring
    rw [collect]
    split
    · dsimp only
      split
      · simp only [length_cons, length_append]
        omega
      · simp only [length_cons, append_nil]
        omega
    · simp only [length_singleton]
      omega

theorem length_collect_hashes {xs : List α} {wanted : List Bool} (same : wanted.length = xs.length) {height position : ℕ}
    (inside : position < width xs.length height) :
    0 < (collect pair xs wanted height position).2.length ∧
      (collect pair xs wanted height position).2.length ≤ (portion xs wanted height position).length := by
  induction height generalizing position with
  | zero =>
    have some_ := length_portion_pos same inside
    rw [width_zero] at inside
    simp only [collect, getElem?_eq_getElem inside, Option.toList_some, length_singleton]
    omega
  | succ height ih =>
    have some_ := length_portion_pos same inside
    rw [width_succ] at inside
    have left := ih (show 2 * position < width xs.length height by omega)
    rw [collect]
    split
    · dsimp only
      rw [portion_succ, length_append, length_append]
      split
      case isTrue both =>
        have right := ih both
        omega
      case isFalse =>
        rw [length_nil]
        omega
    · have node : position < (level pair (height + 1) xs).length := by
        rw [length_level, width_succ]
        omega
      simp only [getElem?_eq_getElem node, Option.toList_some, length_singleton]
      omega

theorem length_hashes_le_bits (xs : List α) (wanted : List Bool) (height position : ℕ) :
    (collect pair xs wanted height position).2.length ≤ (collect pair xs wanted height position).1.length := by
  have single : ∀ item : Option α, item.toList.length ≤ 1 := fun item => by cases item <;> simp
  induction height generalizing position with
  | zero => exact single _
  | succ height ih =>
    have left := ih (2 * position)
    have right := ih (2 * position + 1)
    rw [collect]
    split
    · dsimp only
      split
      · simp only [length_cons, length_append]
        omega
      · simp only [length_cons, append_nil]
        omega
    · exact single _

theorem mem_collect_hashes {xs : List α} {wanted : List Bool} {height position : ℕ} {hash : α}
    (listed : hash ∈ (collect pair xs wanted height position).2) : ∃ k ≤ height, hash ∈ level pair k xs := by
  induction height generalizing position with
  | zero =>
    simp only [collect, Option.mem_toList] at listed
    exact ⟨0, le_rfl, mem_of_getElem? listed⟩
  | succ height ih =>
    have lower : ∀ position, hash ∈ (collect pair xs wanted height position).2 →
        ∃ k ≤ height + 1, hash ∈ level pair k xs := by
      intro position member
      obtain ⟨k, below, inLevel⟩ := ih member
      exact ⟨k, below.trans (Nat.le_succ height), inLevel⟩
    rw [collect] at listed
    split at listed
    · simp only [mem_append] at listed
      rcases listed with left | right
      · exact lower _ left
      · split at right
        · exact lower _ right
        · cases right
    · simp only [Option.mem_toList] at listed
      exact ⟨height + 1, le_rfl, mem_of_getElem? listed⟩

structure Extracted (α : Type) where
  root : α
  matched : List (α × ℕ)
  bitsUsed : ℕ
  hashesUsed : ℕ
deriving DecidableEq

variable [DecidableEq α] {e : Extracted α}

/-- The traversal from a node at a height and position, reading bits and hashes from the given places on. -/
def extract (pair : α → α → α) (bit : ℕ → Option Bool) (hash : ℕ → Option α) (total : ℕ) :
    ℕ → ℕ → ℕ → ℕ → Option (Extracted α)
  | 0, position, bits, hashes => do
    let flag ← bit bits
    let value ← hash hashes
    some ⟨value, if flag then [(value, position)] else [], bits + 1, hashes + 1⟩
  | height + 1, position, bits, hashes => do
    let flag ← bit bits
    if flag then
      let left ← extract pair bit hash total height (2 * position) (bits + 1) hashes
      if 2 * position + 1 < width total height then
        let right ← extract pair bit hash total height (2 * position + 1) left.bitsUsed left.hashesUsed
        if right.root = left.root then none
        else some ⟨pair left.root right.root, left.matched ++ right.matched, right.bitsUsed, right.hashesUsed⟩
      else some ⟨pair left.root left.root, left.matched, left.bitsUsed, left.hashesUsed⟩
    else
      let value ← hash hashes
      some ⟨value, [], bits + 1, hashes + 1⟩

variable {bit : ℕ → Option Bool} {hash : ℕ → Option α} {total : ℕ}

theorem extract_succ_cases (run : extract pair bit hash total (height + 1) position bits hashes = some e) :
    e.matched = [] ∨
      (∃ left right, extract pair bit hash total height (2 * position) (bits + 1) hashes = some left ∧
        extract pair bit hash total height (2 * position + 1) left.bitsUsed left.hashesUsed = some right ∧
        right.root ≠ left.root ∧ e.root = pair left.root right.root ∧ e.matched = left.matched ++ right.matched) ∨
      ∃ left, extract pair bit hash total height (2 * position) (bits + 1) hashes = some left ∧
        e.root = pair left.root left.root ∧ e.matched = left.matched := by
  rw [extract] at run
  simp only [Option.bind_eq_bind, Option.bind_eq_some_iff] at run
  obtain ⟨flag, -, run⟩ := run
  split at run
  · rw [Option.bind_eq_some_iff] at run
    obtain ⟨left, first, run⟩ := run
    split at run
    · rw [Option.bind_eq_some_iff] at run
      obtain ⟨right, second, run⟩ := run
      split at run
      · cases run
      · rename_i different
        cases run
        exact .inr (.inl ⟨left, right, first, second, different, rfl, rfl⟩)
    · cases run
      exact .inr (.inr ⟨left, first, rfl, rfl⟩)
  · rw [Option.bind_eq_some_iff] at run
    obtain ⟨value, -, run⟩ := run
    cases run
    exact .inl rfl

omit [DecidableEq α] in
theorem children_of_root (injective : Function.Injective2 pair) {left right : α}
    (node : (level pair (height + 1) xs)[position]? = some (pair left right)) :
    (level pair height xs)[2 * position]? = some left ∧
      (right ≠ left → (level pair height xs)[2 * position + 1]? = some right) := by
  rw [level_succ, getElem?_layer, Option.map_eq_some_iff] at node
  obtain ⟨first, listed, paired⟩ := node
  obtain ⟨rfl, second⟩ := injective paired
  refine ⟨listed, fun different => ?_⟩
  cases other : (level pair height xs)[2 * position + 1]? with
  | none =>
    rw [other, Option.getD_none] at second
    exact absurd second.symm different
  | some value =>
    rw [other, Option.getD_some] at second
    rw [second]

theorem extract_sound (injective : Function.Injective2 pair)
    (run : extract pair bit hash total height position bits hashes = some e)
    (node : (level pair height xs)[position]? = some e.root) :
    ∀ entry ∈ e.matched, xs[entry.2]? = some entry.1 := by
  induction height generalizing position bits hashes e with
  | zero =>
    rw [extract] at run
    simp only [Option.bind_eq_bind, Option.bind_eq_some_iff] at run
    obtain ⟨flag, -, value, -, run⟩ := run
    cases run
    intro entry member
    cases flag with
    | false => cases member
    | true =>
      rw [if_pos rfl, mem_singleton] at member
      rw [member]
      exact node
  | succ height ih =>
    rcases extract_succ_cases run with none | ⟨left, right, first, second, different, root, matched⟩ | ⟨left, first, root, matched⟩
    · rw [none]
      exact fun entry member => absurd member not_mem_nil
    · rw [root] at node
      obtain ⟨onLeft, onRight⟩ := children_of_root injective node
      intro entry member
      rw [matched, mem_append] at member
      rcases member with inLeft | inRight
      · exact ih first onLeft entry inLeft
      · exact ih second (onRight different) entry inRight
    · rw [root] at node
      rw [matched]
      exact ih first (children_of_root injective node).1

theorem extract_too_deep (injective : Function.Injective2 pair) {extra : ℕ}
    (run : extract pair bit hash total (extra + 1 + height) position bits hashes = some e)
    (node : (level pair height xs)[position]? = some e.root) (some_ : e.matched ≠ []) :
    ∃ left right, pair left right ∈ xs := by
  induction height generalizing position bits hashes e with
  | zero =>
    rcases extract_succ_cases run with none | ⟨left, right, -, -, -, root, -⟩ | ⟨left, -, root, -⟩
    · exact absurd none some_
    · exact ⟨_, _, mem_of_getElem? (root ▸ node)⟩
    · exact ⟨_, _, mem_of_getElem? (root ▸ node)⟩
  | succ height ih =>
    rcases extract_succ_cases run with none | ⟨left, right, first, second, different, root, matched⟩ | ⟨left, first, root, matched⟩
    · exact absurd none some_
    · rw [root] at node
      obtain ⟨onLeft, onRight⟩ := children_of_root injective node
      by_cases empty : left.matched = []
      · rw [matched, empty, nil_append] at some_
        exact ih second (onRight different) some_
      · exact ih first onLeft empty
    · rw [root] at node
      exact ih first (children_of_root injective node).1 (matched ▸ some_)

theorem extract_positions (run : extract pair bit hash total height position bits hashes = some e) :
    (e.matched.map Prod.snd).Pairwise (· < ·) ∧
      ∀ entry ∈ e.matched, position * 2 ^ height ≤ entry.2 ∧ entry.2 < (position + 1) * 2 ^ height := by
  induction height generalizing position bits hashes e with
  | zero =>
    rw [extract] at run
    simp only [Option.bind_eq_bind, Option.bind_eq_some_iff] at run
    obtain ⟨flag, -, value, -, run⟩ := run
    cases run
    cases flag <;> simp
  | succ height ih =>
    have first : position * 2 ^ (height + 1) = 2 * position * 2 ^ height := by ring
    have middle : (2 * position + 1) * 2 ^ height = 2 * position * 2 ^ height + 2 ^ height := by ring
    have last : (position + 1) * 2 ^ (height + 1) = (2 * position + 1) * 2 ^ height + 2 ^ height := by ring
    have end_ : (2 * position + 1 + 1) * 2 ^ height = (2 * position + 1) * 2 ^ height + 2 ^ height := by ring
    rw [first, last]
    rcases extract_succ_cases run with none | ⟨left, right, runLeft, runRight, -, -, matched⟩ | ⟨left, runLeft, -, matched⟩
    · rw [none]
      exact ⟨List.Pairwise.nil, fun entry member => absurd member not_mem_nil⟩
    · obtain ⟨sortedLeft, inLeft⟩ := ih runLeft
      obtain ⟨sortedRight, inRight⟩ := ih runRight
      rw [matched, map_append, pairwise_append]
      refine ⟨⟨sortedLeft, sortedRight, ?_⟩, ?_⟩
      · intro i leftOf j rightOf
        obtain ⟨entry, member, rfl⟩ := mem_map.mp leftOf
        obtain ⟨entry', member', rfl⟩ := mem_map.mp rightOf
        exact (inLeft entry member).2.trans_le (inRight entry' member').1
      · intro entry member
        rcases mem_append.mp member with leftOf | rightOf
        · have := inLeft entry leftOf
          omega
        · have := inRight entry rightOf
          omega
    · obtain ⟨sorted, inside⟩ := ih runLeft
      rw [matched]
      refine ⟨sorted, fun entry member => ?_⟩
      have := inside entry member
      omega

def Reads {β : Type} (read : ℕ → Option β) (start : ℕ) (items : List β) : Prop :=
  ∀ i < items.length, read (start + i) = items[i]?

namespace Reads
variable {β : Type} {read : ℕ → Option β} {start : ℕ} {items rest : List β} {item : β}

theorem head (reads : Reads read start (item :: items)) : read start = some item :=
  reads 0 (Nat.succ_pos _)

theorem tail (reads : Reads read start (item :: items)) : Reads read (start + 1) items := by
  intro i inside
  have next := reads (i + 1) (Nat.succ_lt_succ inside)
  rwa [getElem?_cons_succ, Nat.add_comm i 1, ← Nat.add_assoc] at next

theorem left (reads : Reads read start (items ++ rest)) : Reads read start items := by
  intro i inside
  rw [reads i (by rw [length_append]; omega), getElem?_append_left inside]

theorem right (reads : Reads read start (items ++ rest)) : Reads read (start + items.length) rest := by
  intro i inside
  have next := reads (items.length + i) (by rw [length_append]; omega)
  rwa [getElem?_append_right (Nat.le_add_right _ _), Nat.add_sub_cancel_left, ← Nat.add_assoc] at next

end Reads

theorem ne_of_twins (distinct : twins xs = false) {i : ℕ} {a b : α} (first : xs[2 * i]? = some a)
    (second : xs[2 * i + 1]? = some b) : b ≠ a := by
  induction i generalizing xs with
  | zero =>
    rcases xs with _ | ⟨x, _ | ⟨y, rest⟩⟩
    · cases first
    · cases second
    · cases first
      cases second
      simp only [twins, decide_eq_false_iff_not, not_or] at distinct
      exact Ne.symm distinct.1
  | succ i ih =>
    rcases xs with _ | ⟨x, _ | ⟨y, rest⟩⟩
    · cases first
    · simp [Nat.mul_add] at first
    · simp only [twins, decide_eq_false_iff_not, not_or, Bool.not_eq_true] at distinct
      exact ih distinct.2 first second

section
omit [DecidableEq α]

theorem chosen_append (left right : List ((α × ℕ) × Bool)) : chosen (left ++ right) = chosen left ++ chosen right := by
  simp only [chosen, filter_append, map_append]

theorem chosen_eq_nil {items : List ((α × ℕ) × Bool)} (none : items.any (·.2) = false) : chosen items = [] := by
  rw [chosen, filter_eq_nil_iff.mpr, map_nil]
  intro item member
  simpa using any_eq_false.mp none item member

theorem chosen_zip_map {β : Type} (items : List β) (leaf : β → α × ℕ) (test : β → Bool) :
    chosen ((items.map leaf).zip (items.map test)) = (items.filter test).map leaf := by
  induction items with
  | nil => rfl
  | cons item items ih =>
    simp only [chosen] at ih ⊢
    simp only [map_cons, zip_cons_cons, filter_cons]
    split <;> simp [ih]

theorem portion_root {xs : List α} (top : xs.length ≤ 2 ^ height) :
    portion xs wanted height 0 = xs.zipIdx.zip wanted := by
  rw [portion, Nat.zero_mul, drop_zero, take_of_length_le]
  rw [length_zip, length_zipIdx]
  omega

end

theorem extract_collect {xs : List α} {wanted : List Bool} (same : wanted.length = xs.length)
    {height position bits hashes : ℕ} (distinct : ∀ k < height, twins (level pair k xs) = false)
    (inside : position < width xs.length height)
    (readsBits : Reads bit bits (collect pair xs wanted height position).1)
    (readsHashes : Reads hash hashes (collect pair xs wanted height position).2) :
    ∃ node, (level pair height xs)[position]? = some node ∧
      extract pair bit hash xs.length height position bits hashes = some
        ⟨node, chosen (portion xs wanted height position),
          bits + (collect pair xs wanted height position).1.length,
          hashes + (collect pair xs wanted height position).2.length⟩ := by
  induction height generalizing position bits hashes with
  | zero =>
    rw [width_zero] at inside
    have value := getElem?_eq_getElem inside
    have one : portion xs wanted 0 position = [((xs[position], position), wanted[position])] := by
      rw [portion, pow_zero, Nat.mul_one, take_one, head?_drop, getElem?_zip_eq_some.mpr]
      · rfl
      · exact ⟨by simp [inside], by simp [same, inside]⟩
    simp only [collect, value, one, any_cons, any_nil, Bool.or_false, Option.toList_some] at readsBits readsHashes ⊢
    refine ⟨xs[position], value, ?_⟩
    rw [extract, readsBits.head, readsHashes.head]
    cases wanted[position] <;> rfl
  | succ height ih =>
    rw [width_succ] at inside
    have node : position < (level pair (height + 1) xs).length := by
      rw [length_level, width_succ]
      exact inside
    have value := getElem?_eq_getElem node
    rw [collect] at readsBits readsHashes ⊢
    by_cases some_ : (portion xs wanted (height + 1) position).any (·.2) = true
    case neg =>
      simp only [if_neg some_, value, Option.toList_some] at readsBits readsHashes ⊢
      refine ⟨_, rfl, ?_⟩
      rw [extract, readsBits.head, readsHashes.head, chosen_eq_nil (Bool.not_eq_true _ ▸ some_)]
      rfl
    case pos =>
      simp only [if_pos some_] at readsBits readsHashes ⊢
      have lower : ∀ k < height, twins (level pair k xs) = false := fun k below => distinct k (by omega)
      obtain ⟨left, atLeft, runLeft⟩ := ih lower (show 2 * position < width xs.length height by omega)
        readsBits.tail.left readsHashes.left
      have paired := @getElem?_layer _ pair (level pair height xs) position
      rw [← level_succ, atLeft, Option.map_some] at paired
      rw [paired]
      refine ⟨_, rfl, ?_⟩
      rw [extract, readsBits.head]
      simp only [Option.bind_eq_bind, Option.bind_some, if_true, runLeft]
      by_cases both : 2 * position + 1 < width xs.length height
      · simp only [if_pos both] at readsBits readsHashes ⊢
        obtain ⟨right, atRight, runRight⟩ := ih lower both readsBits.tail.right readsHashes.right
        have different := ne_of_twins (distinct height (Nat.lt_succ_self _)) atLeft atRight
        simp only [runRight, Option.bind_some, if_neg different, atRight, Option.getD_some, portion_succ, chosen_append,
          length_cons, length_append, Option.some.injEq, Extracted.mk.injEq, true_and]
        omega
      · have absent : (level pair height xs)[2 * position + 1]? = none := by
          rw [getElem?_eq_none_iff, length_level]
          omega
        simp only [if_neg both, absent, Option.getD_none, portion_succ, portion_eq_nil (not_lt.mp both),
          append_nil, length_cons, Option.some.injEq, Extracted.mk.injEq, true_and, and_true]
        omega

end PartialMerkle

namespace Codec
open List

def packByte (bits : List Bool) : UInt8 :=
  UInt8.ofNat (bits.zipIdx.foldl (fun value (bit, index) => value ||| bit.toNat <<< index) 0)

def packBits (bits : List Bool) : Bytes :=
  (List.range ((bits.length + 7) / 8)).map fun i => packByte ((bits.drop (8 * i)).take 8)

def bitAt (bytes : Bytes) (i : ℕ) : Option Bool := bytes[i / 8]?.map fun byte => byte.toNat.testBit (i % 8)

theorem testBit_foldl_or (bits : List Bool) (start value i : ℕ) :
    ((bits.zipIdx start).foldl (fun value (bit, index) => value ||| bit.toNat <<< index) value).testBit i =
      (value.testBit i || (decide (start ≤ i) && bits.getD (i - start) false)) := by
  induction bits generalizing start value with
  | nil => simp
  | cons bit bits ih =>
    rw [zipIdx_cons, foldl_cons, ih, Nat.testBit_or, Nat.testBit_shiftLeft]
    rcases Nat.lt_trichotomy i start with below | rfl | above
    · simp [Nat.not_le.mpr below, Nat.not_le.mpr (Nat.lt_succ_of_lt below)]
    · cases bit <;> simp
    · obtain ⟨k, rfl⟩ := Nat.exists_eq_add_of_lt above
      have high : bit.toNat.testBit (k + 1) = false := by
        apply Nat.testBit_lt_two_pow
        exact (Bool.toNat_lt bit).trans_le (Nat.pow_le_pow_right two_pos (Nat.succ_pos k))
      simp only [high, Nat.add_assoc, Nat.add_sub_cancel_left, Bool.and_false, Bool.or_false,
        show start + (k + 1) - (start + 1) = k by omega, show start ≤ start + (k + 1) by omega,
        show start + 1 ≤ start + (k + 1) by omega, decide_true, Bool.true_and, getD_cons_succ]

@[simp] theorem length_packBits (bits : List Bool) : (packBits bits).length = (bits.length + 7) / 8 := by
  simp [packBits]

theorem bitAt_packBits {bits : List Bool} {i : ℕ} (inside : i < bits.length) : bitAt (packBits bits) i = bits[i]? := by
  have row : i / 8 < (bits.length + 7) / 8 := by omega
  have column : i % 8 < 8 := Nat.mod_lt _ (by decide)
  have place : 8 * (i / 8) + i % 8 = i := Nat.div_add_mod i 8
  rw [bitAt, packBits, getElem?_map, getElem?_range row, Option.map_some, Option.map_some, packByte,
    UInt8.toNat_ofNat', Nat.testBit_mod_two_pow, testBit_foldl_or, getD_eq_getElem?_getD, getElem?_take,
    getElem?_drop]
  simp only [Nat.zero_testBit, Nat.zero_le, decide_true, Bool.true_and, Bool.false_or, Nat.sub_zero, if_pos column,
    place, getElem?_eq_getElem inside, Option.getD_some, decide_eq_true column]

def unpackBits (bytes : Bytes) : List Bool := (List.range (8 * bytes.length)).map fun i => (bitAt bytes i).getD false

@[simp] theorem length_unpackBits (bytes : Bytes) : (unpackBits bytes).length = 8 * bytes.length := by
  simp [unpackBits]

theorem getElem?_unpackBits (bytes : Bytes) (i : ℕ) : (unpackBits bytes)[i]? = bitAt bytes i := by
  by_cases inside : i < 8 * bytes.length
  · have row : i / 8 < bytes.length := by omega
    rw [unpackBits, getElem?_map, getElem?_range inside, Option.map_some, bitAt,
      getElem?_eq_getElem row, Option.map_some, Option.getD_some]
  · have row : bytes.length ≤ i / 8 := by omega
    rw [getElem?_eq_none (by simpa using Nat.le_of_not_lt inside), bitAt, getElem?_eq_none row, Option.map_none]

end Codec
