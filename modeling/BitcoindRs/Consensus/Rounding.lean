import BitcoindRs.Consensus.Target
import Mathlib.Data.Nat.Bitwise
import Mathlib.Data.Nat.Size

/-! What a target loses in its compact form: all but the three first bytes, or the two first ones where the first bit is set. -/

namespace BitcoindRs.Target
variable {x y : ℕ}

theorem fromCompact_encode {mantissa exponent : ℕ} (small : mantissa < 2 ^ 23) (fits : exponent ≤ 34) :
    fromCompact (mantissa ||| exponent <<< 24) =
      if exponent ≤ 3 then mantissa / 2 ^ (8 * (3 - exponent)) else mantissa * 2 ^ (8 * (exponent - 3)) % 2 ^ 256 := by
  have joined : mantissa ||| exponent <<< 24 = 2 ^ 24 * exponent + mantissa := by
    rw [Nat.or_comm, ← Nat.shiftLeft_add_eq_or_of_lt (by omega), Nat.shiftLeft_eq, Nat.mul_comm]
  have high : (mantissa ||| exponent <<< 24) >>> 24 = exponent := by
    rw [joined, Nat.shiftRight_eq_div_pow]
    omega
  have low : (mantissa ||| exponent <<< 24) &&& 0xFFFFFF = mantissa := by
    rw [show 0xFFFFFF = 2 ^ 24 - 1 from rfl, Nat.and_two_pow_sub_one_eq_mod, joined]
    omega
  unfold fromCompact
  rw [high, low]
  dsimp only
  split
  · rw [Nat.shiftRight_eq_div_pow, if_neg, Nat.zero_mod, Nat.shiftLeft_zero, Nat.mod_eq_of_lt]
    · exact (Nat.div_le_self _ _).trans_lt (by omega)
    · exact Nat.not_lt.mpr ((Nat.div_le_self _ _).trans (by omega))
  · rw [if_neg (by omega), Nat.mod_eq_of_lt (a := 8 * (exponent - 3)) (by omega), Nat.shiftLeft_eq]

def scaled (x bytes : ℕ) : ℕ := if bytes ≤ 3 then x * 2 ^ (8 * (3 - bytes)) else x / 2 ^ (8 * (bytes - 3))

theorem scaled_succ (x bytes : ℕ) : scaled x (bytes + 1) = scaled x bytes / 2 ^ 8 := by
  unfold scaled
  rcases Nat.lt_trichotomy bytes 3 with few | rfl | many
  · rw [if_pos (by omega), if_pos (by omega), show 8 * (3 - bytes) = 8 * (3 - (bytes + 1)) + 8 by omega, pow_add,
      ← Nat.mul_assoc, Nat.mul_div_cancel _ (by norm_num)]
  · simp
  · rw [if_neg (by omega), if_neg (by omega), Nat.div_div_eq_div_mul, ← pow_add]
    congr 2
    omega

theorem scaled_lt {bits bytes : ℕ} (below : x < 2 ^ bits) (enough : 8 * bytes ≤ bits + 24) :
    scaled x bytes < 2 ^ (bits + 24 - 8 * bytes) := by
  unfold scaled
  split
  · rw [show bits + 24 - 8 * bytes = bits + 8 * (3 - bytes) by omega, pow_add]
    exact Nat.mul_lt_mul_of_pos_right below (Nat.two_pow_pos _)
  · apply Nat.div_lt_of_lt_mul
    rw [← pow_add, show 8 * (bytes - 3) + (bits + 24 - 8 * bytes) = bits by omega]
    exact below

theorem le_scaled {bits bytes : ℕ} (above : 2 ^ bits ≤ x) (enough : 8 * bytes ≤ bits + 24) :
    2 ^ (bits + 24 - 8 * bytes) ≤ scaled x bytes := by
  unfold scaled
  split
  · rw [show bits + 24 - 8 * bytes = bits + 8 * (3 - bytes) by omega, pow_add]
    exact Nat.mul_le_mul_right _ above
  · rw [Nat.le_div_iff_mul_le (Nat.two_pow_pos _), ← pow_add, show bits + 24 - 8 * bytes + 8 * (bytes - 3) = bits by omega]
    exact above

/-- The first bit of three bytes. -/
theorem and_signBit {compact : ℕ} (small : compact < 2 ^ 24) : compact &&& 0x800000 ≠ 0 ↔ 2 ^ 23 ≤ compact := by
  have bit : compact / 2 ^ 23 % 2 = 1 ↔ 2 ^ 23 ≤ compact := by omega
  rw [show 0x800000 = 2 ^ 23 from rfl, Nat.and_two_pow, Nat.testBit_eq_decide_div_mod_eq, ← bit]
  simp

theorem toCompactLossy_eq (positive : 0 < x) (fits : x < 2 ^ 256) :
    toCompactLossy x = scaled x (x.size / 8 + 1) ||| (x.size / 8 + 1) <<< 24 := by
  have size : x.size ≤ 256 := Nat.size_le.mpr fits
  have some_ : 0 < x.size := Nat.size_pos.mpr positive
  have below : x < 2 ^ x.size := Nat.lt_size_self x
  have above : 2 ^ (x.size - 1) ≤ x := Nat.lt_size.mp (by omega)
  have short : scaled x ((x.size + 7) / 8) < 2 ^ 24 :=
    (scaled_lt below (by omega)).trans_le (Nat.pow_le_pow_right (by norm_num) (by omega))
  -- The machine words of the code are wide enough.
  have compact : (if (x.size + 7) / 8 ≤ 3 then x % 2 ^ 64 * 2 ^ (8 * (3 - (x.size + 7) / 8)) % 2 ^ 32
      else (x >>> (8 * ((x.size + 7) / 8 - 3))) % 2 ^ 32) = scaled x ((x.size + 7) / 8) := by
    unfold scaled at short ⊢
    split at short
    · rename_i few
      have low : x < 2 ^ 24 := below.trans_le (Nat.pow_le_pow_right (by norm_num) (by omega))
      rw [if_pos few, if_pos few, Nat.mod_eq_of_lt (a := x) (by omega), Nat.mod_eq_of_lt (by omega)]
    · rename_i many
      rw [if_neg many, if_neg many, Nat.shiftRight_eq_div_pow, Nat.mod_eq_of_lt (by omega)]
  unfold toCompactLossy
  dsimp only
  rw [compact]
  by_cases whole : x.size % 8 = 0
  · have set : 2 ^ 23 ≤ scaled x ((x.size + 7) / 8) := by
      have least := @le_scaled x (x.size - 1) ((x.size + 7) / 8) above (by omega)
      rwa [show x.size - 1 + 24 - 8 * ((x.size + 7) / 8) = 23 by omega] at least
    rw [if_pos ((and_signBit short).mpr set), show (x.size + 7) / 8 = x.size / 8 by omega, scaled_succ,
      Nat.shiftRight_eq_div_pow]
  · have clear : scaled x ((x.size + 7) / 8) < 2 ^ 23 :=
      (scaled_lt below (by omega)).trans_le (Nat.pow_le_pow_right (by norm_num) (by omega))
    rw [if_neg ((and_signBit short).not.mpr (Nat.not_le.mpr clear)), show (x.size + 7) / 8 = x.size / 8 + 1 by omega]

def rounded (x : ℕ) : ℕ := x / 2 ^ (8 * (x.size / 8 - 2)) * 2 ^ (8 * (x.size / 8 - 2))

theorem rounded_le (x : ℕ) : rounded x ≤ x := Nat.div_mul_le_self _ _

theorem fromCompact_toCompactLossy (fits : x < 2 ^ 256) : fromCompact (toCompactLossy x) = rounded x := by
  rcases Nat.eq_zero_or_pos x with rfl | positive
  · decide +kernel
  · have size : x.size ≤ 256 := Nat.size_le.mpr fits
    have small : scaled x (x.size / 8 + 1) < 2 ^ 23 :=
      (scaled_lt (Nat.lt_size_self x) (by omega)).trans_le (Nat.pow_le_pow_right (by norm_num) (by omega))
    rw [toCompactLossy_eq positive fits, fromCompact_encode small (by omega)]
    unfold scaled rounded
    split
    · rw [Nat.mul_div_cancel _ (Nat.two_pow_pos _), show x.size / 8 - 2 = 0 by omega]
      simp
    · rw [show x.size / 8 + 1 - 3 = x.size / 8 - 2 by omega, Nat.mod_eq_of_lt]
      exact (Nat.div_mul_le_self _ _).trans_lt fits

theorem rounded_mono (le : x ≤ y) : rounded x ≤ rounded y := by
  have sizes := Nat.size_le_size le
  rcases sizes.eq_or_lt with same | shorter
  · unfold rounded
    rw [same]
    exact Nat.mul_le_mul_right _ (Nat.div_le_div_right le)
  · -- The first bit of the longer number survives and is worth more than all of the shorter one.
    have low : x < 2 ^ (y.size - 1) := (Nat.lt_size_self x).trans_le (Nat.pow_le_pow_right (by norm_num) (by omega))
    have high : 2 ^ (y.size - 1) ≤ y := Nat.lt_size.mp (by omega)
    have kept : 2 ^ (y.size - 1) ≤ rounded y := by
      unfold rounded
      by_cases long : 8 * (y.size / 8 - 2) ≤ y.size - 1
      · calc 2 ^ (y.size - 1) = 2 ^ (y.size - 1 - 8 * (y.size / 8 - 2)) * 2 ^ (8 * (y.size / 8 - 2)) := by
              rw [← pow_add, Nat.sub_add_cancel long]
          _ ≤ _ := by
              apply Nat.mul_le_mul_right
              rw [Nat.le_div_iff_mul_le (Nat.two_pow_pos _), ← pow_add, Nat.sub_add_cancel long]
              exact high
      · omega
    exact (rounded_le x).trans (low.le.trans kept)

end BitcoindRs.Target
