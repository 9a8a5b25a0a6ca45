import BitcoindRs.Consensus.Types

/-! Amounts in compressed form: trailing zeros become an exponent, and the last digit that is not zero is counted in nines. -/

namespace BitcoindRs
open Result Checked
variable {value exponent number : ℕ}

/-- Divide by ten while nothing is left over, at most `rounds` times; the quotient and the number of divisions. -/
def stripZeros : ℕ → ℕ → ℕ × ℕ
  | 0, value => (value, 0)
  | rounds + 1, value =>
    if value % 10 = 0 then
      let (value, exponent) := stripZeros rounds (value / 10)
      (value, exponent + 1)
    else (value, 0)

/-- `1 + (value * 9 + digit - 1) * 10 + exponent`. -/
def compressDigits (value digit exponent : ℕ) : Option ℕ := do
  let nines ← mulU64 value 9
  let counted ← addU64 nines digit
  let counted ← subU64 counted 1
  let shifted ← mulU64 counted 10
  let total ← addU64 1 shifted
  addU64 total exponent

/-- `compress_core_amount` and `compress_snapshot_amount`; `none` where the arithmetic of the source would overflow. -/
def compressAmount (value : ℕ) : Option ℕ :=
  if value = 0 then some 0
  else
    let (value, exponent) := stripZeros 9 value
    if exponent < 9 then compressDigits (value / 10) (value % 10) exponent
    else do
      let less ← subU64 value 1
      let shifted ← mulU64 less 10
      let total ← addU64 1 shifted
      addU64 total 9

def amountOverflows : Error := .message "compact UTXO amount overflows"

/-- The number before its zeros are put back, with checked arithmetic. -/
def decompressDigits (value exponent : ℕ) : Option ℕ :=
  if exponent < 9 then do
    let shifted ← mulU64 (value / 9) 10
    addU64 shifted (value % 9 + 1)
  else addU64 value 1

def appendZeros : ℕ → ℕ → Option ℕ
  | 0, number => some number
  | exponent + 1, number => do
    let number ← mulU64 number 10
    appendZeros exponent number

def decompressCoreAmount (value : ℕ) : Except Error ℕ :=
  if value = 0 then .ok 0
  else do
    let exponent := (value - 1) % 10
    let number ← okOr (decompressDigits ((value - 1) / 10) exponent) amountOverflows
    okOr (appendZeros exponent number) amountOverflows

def expandAmount (value : ℕ) : ℕ :=
  if value = 0 then 0
  else
    let exponent := (value - 1) % 10
    let value := (value - 1) / 10
    (if exponent < 9 then value / 9 * 10 + (value % 9 + 1) else value + 1) * 10 ^ exponent

theorem stripZeros_spec (rounds value : ℕ) :
    value = (stripZeros rounds value).1 * 10 ^ (stripZeros rounds value).2 ∧ (stripZeros rounds value).2 ≤ rounds ∧
      ((stripZeros rounds value).2 < rounds → (stripZeros rounds value).1 % 10 ≠ 0) := by
  induction rounds generalizing value with
  | zero => exact ⟨(Nat.mul_one value).symm, le_rfl, fun impossible => absurd impossible (Nat.lt_irrefl 0)⟩
  | succ rounds ih =>
    rw [stripZeros]
    split
    case isTrue whole =>
      obtain ⟨product, bound, last⟩ := ih (value / 10)
      refine ⟨?_, Nat.succ_le_succ bound, fun early => last (Nat.lt_of_succ_lt_succ early)⟩
      simp only [Nat.pow_succ, ← Nat.mul_assoc, ← product]
      exact (Nat.div_mul_cancel (Nat.dvd_of_mod_eq_zero whole)).symm
    case isFalse part => exact ⟨(Nat.mul_one value).symm, Nat.zero_le _, fun _ => part⟩

theorem compressDigits_eq {digit : ℕ} (positive : 0 < digit)
    (fits : 1 + (value * 9 + digit - 1) * 10 + exponent < u64Bound) :
    compressDigits value digit exponent = some (1 + (value * 9 + digit - 1) * 10 + exponent) := by
  have nines : mulU64 value 9 = some (value * 9) := mulU64_eq (by omega)
  have counted : addU64 (value * 9) digit = some (value * 9 + digit) := addU64_eq (by omega)
  have less : subU64 (value * 9 + digit) 1 = some (value * 9 + digit - 1) := subU64_eq (by omega)
  have shifted : mulU64 (value * 9 + digit - 1) 10 = some ((value * 9 + digit - 1) * 10) := mulU64_eq (by omega)
  have total : addU64 1 ((value * 9 + digit - 1) * 10) = some (1 + (value * 9 + digit - 1) * 10) := addU64_eq (by omega)
  simp only [compressDigits, nines, counted, less, shifted, total, addU64_eq fits, Option.bind_eq_bind, Option.bind_some]

theorem expandAmount_digits (early : exponent < 9) (digit : number % 10 ≠ 0) :
    expandAmount (1 + (number / 10 * 9 + number % 10 - 1) * 10 + exponent) = number * 10 ^ exponent := by
  have exponentOf : (1 + (number / 10 * 9 + number % 10 - 1) * 10 + exponent - 1) % 10 = exponent := by omega
  have numberOf : (1 + (number / 10 * 9 + number % 10 - 1) * 10 + exponent - 1) / 10 =
      number / 10 * 9 + (number % 10 - 1) := by omega
  have tens : (number / 10 * 9 + (number % 10 - 1)) / 9 = number / 10 := by omega
  have ones : (number / 10 * 9 + (number % 10 - 1)) % 9 + 1 = number % 10 := by omega
  rw [expandAmount, if_neg (by omega)]
  simp only [exponentOf, numberOf, if_pos early, tens, ones, Nat.div_add_mod' number 10]

theorem expandAmount_nine (positive : 0 < number) : expandAmount (1 + (number - 1) * 10 + 9) = number * 10 ^ 9 := by
  have exponentOf : (1 + (number - 1) * 10 + 9 - 1) % 10 = 9 := by omega
  have numberOf : (1 + (number - 1) * 10 + 9 - 1) / 10 = number - 1 := by omega
  rw [expandAmount, if_neg (by omega)]
  simp only [exponentOf, numberOf, Nat.lt_irrefl, if_false, Nat.sub_add_cancel positive]

theorem compressAmount_spec (inRange : value ≤ maxMoney) :
    ∃ compressed, compressAmount value = some compressed ∧ compressed < 2 ^ 60 ∧ expandAmount compressed = value := by
  by_cases zero : value = 0
  · exact ⟨0, by rw [compressAmount, if_pos zero], by decide, by rw [zero]; rfl⟩
  obtain ⟨product, bound, last⟩ := stripZeros_spec 9 value
  rw [compressAmount, if_neg zero]
  rcases parts : stripZeros 9 value with ⟨number, exponent⟩
  simp only [parts] at product bound last ⊢
  have positive : 0 < number := by
    rcases Nat.eq_zero_or_pos number with none | some
    · rw [none, Nat.zero_mul] at product
      exact absurd product zero
    · exact some
  have smaller : number ≤ value := by
    rw [product]
    exact Nat.le_mul_of_pos_right number (Nat.pow_pos (by decide))
  have limit : number ≤ 2100000000000000 := smaller.trans inRange
  by_cases early : exponent < 9
  · have digit : 0 < number % 10 := Nat.pos_of_ne_zero (last early)
    have small : 1 + (number / 10 * 9 + number % 10 - 1) * 10 + exponent < 2 ^ 60 := by omega
    rw [if_pos early, compressDigits_eq digit (small.trans (by decide))]
    exact ⟨_, rfl, small, (expandAmount_digits early (last early)).trans product.symm⟩
  · have nine : exponent = 9 := by omega
    have small : 1 + (number - 1) * 10 + 9 < 2 ^ 60 := by omega
    have less : subU64 number 1 = some (number - 1) := subU64_eq (by omega)
    have shifted : mulU64 (number - 1) 10 = some ((number - 1) * 10) := mulU64_eq (by unfold u64Bound; omega)
    have total : addU64 1 ((number - 1) * 10) = some (1 + (number - 1) * 10) := addU64_eq (by unfold u64Bound; omega)
    have all : addU64 (1 + (number - 1) * 10) 9 = some (1 + (number - 1) * 10 + 9) := addU64_eq (small.trans (by decide))
    simp only [if_neg early, less, shifted, total, all, Option.bind_eq_bind, Option.bind_some]
    rw [nine] at product
    exact ⟨_, rfl, small, (expandAmount_nine positive).trans product.symm⟩

theorem appendZeros_eq (fits : number * 10 ^ exponent < u64Bound) :
    appendZeros exponent number = some (number * 10 ^ exponent) := by
  induction exponent generalizing number with
  | zero => rw [appendZeros, Nat.pow_zero, Nat.mul_one]
  | succ exponent ih =>
    rw [Nat.pow_succ', ← Nat.mul_assoc] at fits ⊢
    have first : number * 10 < u64Bound := lt_of_le_of_lt (Nat.le_mul_of_pos_right _ (Nat.pow_pos (by decide))) fits
    rw [appendZeros, mulU64_eq first]
    exact ih fits

theorem decompressCoreAmount_eq (fits : expandAmount value < u64Bound) :
    decompressCoreAmount value = .ok (expandAmount value) := by
  unfold expandAmount at fits ⊢
  unfold decompressCoreAmount
  split
  case isTrue => rfl
  case isFalse nonzero =>
    rw [if_neg nonzero] at fits
    simp only at fits ⊢
    set exponent := (value - 1) % 10
    set quotient := (value - 1) / 10
    set number := if exponent < 9 then quotient / 9 * 10 + (quotient % 9 + 1) else quotient + 1 with numberDef
    have small : number < u64Bound := lt_of_le_of_lt (Nat.le_mul_of_pos_right _ (Nat.pow_pos (by decide))) fits
    have digits : decompressDigits quotient exponent = some number := by
      rw [decompressDigits]
      split
      case isTrue early =>
        rw [if_pos early] at numberDef
        rw [mulU64_eq (by omega)]
        exact (addU64_eq (by omega)).trans (by rw [numberDef])
      case isFalse late =>
        rw [if_neg late] at numberDef
        exact (addU64_eq (by omega)).trans (by rw [numberDef])
    refine bind_pass (okOr_ok.mpr digits) (okOr_ok.mpr (appendZeros_eq fits))

theorem compressAmount_injective {first second : ℕ} (firstRange : first ≤ maxMoney) (secondRange : second ≤ maxMoney)
    (same : compressAmount first = compressAmount second) : first = second := by
  obtain ⟨compressed, written, _, back⟩ := compressAmount_spec firstRange
  obtain ⟨other, otherWritten, _, otherBack⟩ := compressAmount_spec secondRange
  rw [written, otherWritten] at same
  cases same
  exact back.symm.trans otherBack

end BitcoindRs
