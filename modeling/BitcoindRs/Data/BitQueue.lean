import Mathlib.Data.BitVec
import Mathlib.Tactic

/-! A queue of bits packed into words. -/

def BitVec.bitAt {w : ℕ} (words : List (BitVec w)) (p : ℕ) : Bool := (words.getD (p / w) 0).getLsbD (p % w)

/-- Bits from an offset in the first word on. No bit is set behind the last one, and an empty queue has no words. -/
structure BitQueue (w : ℕ) where
  words : List (BitVec w)
  frontOffset : ℕ
  len : ℕ
  offset_lt : frontOffset < w
  words_length : words.length = (frontOffset + len + (w - 1)) / w
  clean : ∀ p, frontOffset + len ≤ p → BitVec.bitAt words p = false

namespace BitQueue
open List
variable {w : ℕ}
variable {q : BitQueue w} {bits : List Bool} {bit : Bool}

def toList (q : BitQueue w) : List Bool := (List.range q.len).map fun i => BitVec.bitAt q.words (q.frontOffset + i)

theorem length_toList (q : BitQueue w) : q.toList.length = q.len := by
  rw [toList, length_map, length_range]

theorem toList_eq (length : bits.length = q.len)
    (bit : ∀ i (h : i < bits.length), BitVec.bitAt q.words (q.frontOffset + i) = bits[i]) : q.toList = bits := by
  refine ext_getElem (by rw [length_toList, length]) fun i _ inside => ?_
  simp only [toList, getElem_map, getElem_range]
  exact bit i inside

theorem bitAt_nil (p : ℕ) : BitVec.bitAt ([] : List (BitVec w)) p = false := by simp [BitVec.bitAt]

theorem bitAt_append_zero (words : List (BitVec w)) (p : ℕ) : BitVec.bitAt (words ++ [0]) p = BitVec.bitAt words p := by
  unfold BitVec.bitAt
  congr 1
  rcases Nat.lt_trichotomy (p / w) words.length with inside | last | outside
  · simp [getElem?_append_left inside]
  · simp [last]
  · obtain ⟨k, past⟩ : ∃ k, p / w - words.length = k + 1 := ⟨p / w - words.length - 1, by omega⟩
    simp [getElem?_append_right outside.le, getElem?_eq_none outside.le, past]

theorem bitAt_tail (words : List (BitVec w)) (p : ℕ) (positive : 0 < w) :
    BitVec.bitAt words.tail p = BitVec.bitAt words (p + w) := by
  unfold BitVec.bitAt
  rw [Nat.add_mod_right, Nat.add_div_right p positive]
  cases words <;> simp

theorem bitAt_modify (words : List (BitVec w)) (position p : ℕ) (inside : position / w < words.length) (positive : 0 < w) :
    BitVec.bitAt (words.modify (position / w) (· ||| 1#w <<< (position % w))) p =
      (BitVec.bitAt words p || decide (p = position)) := by
  unfold BitVec.bitAt
  have small := Nat.mod_lt p positive
  by_cases same : p / w = position / w
  · have here : p = position ↔ p % w = position % w := by
      constructor
      · rintro rfl
        rfl
      · intro rest
        rw [← Nat.div_add_mod p w, ← Nat.div_add_mod position w, same, rest]
    simp only [getD_eq_getElem?_getD, getElem?_modify, same, here]
    simp only [inside, small, getElem?_pos, Option.map_eq_map, Option.map_some, Option.getD_some, if_true, BitVec.getLsbD_or,
      BitVec.getLsbD_shiftLeft, BitVec.getLsbD_one]
    congr 1
    rw [Bool.eq_iff_iff]
    simp
    omega
  · have other : p ≠ position := fun h => same (by rw [h])
    simp [Ne.symm same, other]

def empty (positive : 0 < w) : BitQueue w where
  words := []
  frontOffset := 0
  len := 0
  offset_lt := positive
  words_length := by
    rw [length_nil, Nat.zero_add, Nat.div_eq_of_lt (by omega)]
  clean := fun p _ => bitAt_nil p

def grow (words : List (BitVec w)) (position : ℕ) : List (BitVec w) :=
  if position / w = words.length then words ++ [0] else words

def setBit (words : List (BitVec w)) (position : ℕ) (bit : Bool) : List (BitVec w) :=
  if bit then (grow words position).modify (position / w) (· ||| 1#w <<< (position % w)) else grow words position

theorem length_grow (q : BitQueue w) :
    (grow q.words (q.frontOffset + q.len)).length = (q.frontOffset + (q.len + 1) + (w - 1)) / w := by
  have positive : 0 < w := Nat.zero_lt_of_lt q.offset_lt
  have next : (q.frontOffset + (q.len + 1) + (w - 1)) / w = (q.frontOffset + q.len) / w + 1 := by
    rw [← Nat.add_div_right _ positive]
    congr 1
    omega
  have lower : (q.frontOffset + q.len) / w ≤ q.words.length := by
    rw [q.words_length]
    exact Nat.div_le_div_right (Nat.le_add_right _ _)
  have upper : q.words.length ≤ (q.frontOffset + q.len) / w + 1 := by
    rw [q.words_length, ← next]
    exact Nat.div_le_div_right (by omega)
  rw [next, grow]
  split
  · rename_i full
    rw [length_append, length_singleton, full]
  · omega

theorem bitAt_setBit (q : BitQueue w) (bit : Bool) (p : ℕ) :
    BitVec.bitAt (setBit q.words (q.frontOffset + q.len) bit) p =
      (BitVec.bitAt q.words p || (bit && decide (p = q.frontOffset + q.len))) := by
  have positive : 0 < w := Nat.zero_lt_of_lt q.offset_lt
  have room : (q.frontOffset + q.len) / w < (grow q.words (q.frontOffset + q.len)).length := by
    rw [length_grow, Nat.div_lt_iff_lt_mul positive]
    have := Nat.div_add_mod (q.frontOffset + (q.len + 1) + (w - 1)) w
    have := Nat.mod_lt (q.frontOffset + (q.len + 1) + (w - 1)) positive
    rw [Nat.mul_comm]
    omega
  have grown : BitVec.bitAt (grow q.words (q.frontOffset + q.len)) p = BitVec.bitAt q.words p := by
    rw [grow]
    split
    · exact bitAt_append_zero q.words p
    · rfl
  cases bit with
  | false => simp [setBit, grown]
  | true =>
    rw [setBit, if_pos rfl, bitAt_modify _ _ _ room positive, grown, Bool.true_and]

def pushBack (q : BitQueue w) (bit : Bool) : BitQueue w where
  words := setBit q.words (q.frontOffset + q.len) bit
  frontOffset := q.frontOffset
  len := q.len + 1
  offset_lt := q.offset_lt
  words_length := by
    rw [← length_grow, setBit]
    split
    · exact length_modify _ _ _
    · rfl
  clean := fun p behind => by
    rw [bitAt_setBit, q.clean p (by omega), decide_eq_false (by omega)]
    simp

theorem toList_pushBack (q : BitQueue w) (bit : Bool) : (q.pushBack bit).toList = q.toList ++ [bit] := by
  refine toList_eq (by simp [length_toList, pushBack]) fun i inside => ?_
  rw [show (q.pushBack bit).words = setBit q.words (q.frontOffset + q.len) bit from rfl, bitAt_setBit]
  rw [show (q.pushBack bit).frontOffset = q.frontOffset from rfl]
  rcases Nat.lt_or_ge i q.len with old | new
  · rw [getElem_append_left (by rwa [length_toList]), decide_eq_false (by omega)]
    simp [toList]
  · have last : i = q.len := by
      rw [length_append, length_toList, length_singleton] at inside
      omega
    subst last
    rw [q.clean _ (Nat.le_refl _), getElem_append_right (by rw [length_toList])]
    simp

/-- The queue without its front bit. A used word is dropped, and an emptied queue starts over. -/
def advance (q : BitQueue w) : BitQueue w :=
  if last : q.len ≤ 1 then empty (Nat.zero_lt_of_lt q.offset_lt)
  else if crossed : q.frontOffset + 1 = w then {
    words := q.words.tail
    frontOffset := 0
    len := q.len - 1
    offset_lt := Nat.zero_lt_of_lt q.offset_lt
    words_length := by
      have whole : q.frontOffset + q.len + (w - 1) = 0 + (q.len - 1) + (w - 1) + w := by omega
      rw [length_tail, q.words_length, whole, Nat.add_div_right _ (Nat.zero_lt_of_lt q.offset_lt), Nat.add_sub_cancel]
    clean := fun p behind => by
      rw [bitAt_tail _ _ (Nat.zero_lt_of_lt q.offset_lt)]
      exact q.clean (p + w) (by omega) }
  else {
    words := q.words
    frontOffset := q.frontOffset + 1
    len := q.len - 1
    offset_lt := by
      have := q.offset_lt
      omega
    words_length := by rw [q.words_length, show q.frontOffset + 1 + (q.len - 1) = q.frontOffset + q.len by omega]
    clean := fun p behind => q.clean p (by omega) }

def popFront (q : BitQueue w) : Option (Bool × BitQueue w) :=
  if q.len = 0 then none
  else some (decide (q.words.getD 0 0 &&& 1#w <<< q.frontOffset ≠ 0), q.advance)

theorem toList_advance (holds : q.toList = bit :: bits) : q.advance.toList = bits := by
  have length : q.len = bits.length + 1 := by rw [← length_toList, holds, length_cons]
  have later : ∀ i (h : i < bits.length), BitVec.bitAt q.words (q.frontOffset + (i + 1)) = bits[i] := by
    intro i inside
    have value : q.toList[i + 1]? = some bits[i] := by
      rw [holds, getElem?_cons_succ, getElem?_eq_getElem inside]
    rw [toList, getElem?_map, getElem?_range (by omega)] at value
    exact Option.some.inj value
  unfold advance
  split
  · have none_left : bits = [] := length_eq_zero_iff.mp (by omega)
    rw [none_left]
    rfl
  split
  · rename_i crossed
    refine toList_eq (by simp; omega) fun i inside => ?_
    rw [bitAt_tail _ _ (Nat.zero_lt_of_lt q.offset_lt), ← later i inside]
    congr 1
    show 0 + i + w = q.frontOffset + (i + 1)
    omega
  · refine toList_eq (by simp; omega) fun i inside => ?_
    rw [← later i inside]
    congr 1
    show q.frontOffset + 1 + i = q.frontOffset + (i + 1)
    omega

theorem and_one_shiftLeft_eq_zero (x : BitVec w) {k : ℕ} (inside : k < w) :
    x &&& 1#w <<< k = 0 ↔ x.getLsbD k = false := by
  constructor
  · intro zero
    have bit := congrArg (BitVec.getLsbD · k) zero
    simpa [inside] using bit
  · intro clear
    refine BitVec.eq_of_getLsbD_eq fun i small => ?_
    by_cases here : i = k
    · simp [here, clear]
    · simp [small]
      omega

theorem front_bit (q : BitQueue w) :
    decide (q.words.getD 0 0 &&& 1#w <<< q.frontOffset ≠ 0) = BitVec.bitAt q.words q.frontOffset := by
  unfold BitVec.bitAt
  rw [Nat.div_eq_of_lt q.offset_lt, Nat.mod_eq_of_lt q.offset_lt, Bool.eq_iff_iff, decide_eq_true_iff, ne_eq,
    and_one_shiftLeft_eq_zero _ q.offset_lt, Bool.not_eq_false]

theorem popFront_eq (q : BitQueue w) : match q.toList with
    | [] => q.popFront = none
    | bit :: bits => ∃ rest, q.popFront = some (bit, rest) ∧ rest.toList = bits := by
  unfold popFront
  rcases holds : q.toList with _ | ⟨bit, bits⟩
  · have length := length_toList q
    rw [holds] at length
    exact if_pos length.symm
  · have length : q.len = bits.length + 1 := by rw [← length_toList, holds, length_cons]
    refine ⟨q.advance, ?_, toList_advance holds⟩
    rw [if_neg (by omega), front_bit]
    have value : q.toList[0]? = some bit := by rw [holds]; rfl
    rw [toList, getElem?_map, getElem?_range (by omega)] at value
    rw [show BitVec.bitAt q.words q.frontOffset = bit from Option.some.inj value]

theorem toList_of_popFront {rest : BitQueue w} (popped : q.popFront = some (bit, rest)) :
    q.toList = bit :: rest.toList := by
  have spec := q.popFront_eq
  rcases holds : q.toList with _ | ⟨first, bits⟩ <;> rw [holds] at spec
  · rw [popped] at spec
    cases spec
  · obtain ⟨_, same, rfl⟩ := spec
    rw [popped] at same
    cases same
    rfl

end BitQueue
