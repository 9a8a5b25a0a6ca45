import BitcoindRs.Data.Bytes

/-!
Numbers in base 128 with the highest digit first, where every digit but the last is marked and counts one more than it
shows.
-/

namespace Codec
open Result List

/-- The digits of a number from the lowest on; all digits after the first carry the mark. -/
def varintDigits (mark value : ℕ) : Bytes :=
  UInt8.ofNat (value % 128 + mark) :: if value ≤ 0x7f then [] else varintDigits 128 (value / 128 - 1)
termination_by value

def writeVarint (value : ℕ) : Bytes := (varintDigits 0 value).reverse

/-- The rest of a number of which `value` has been read. -/
def readVarintFrom {ε : Type} (truncated tooLarge : ε) (value : ℕ) : Parser ε ℕ
  | [] => .error truncated
  | digit :: rest => do
    bailIf ((2 ^ 64 - 1) / 128 < value) tooLarge
    let value := value * 128 + digit.toNat % 128
    if 128 ≤ digit.toNat then do
      bailIf (value = 2 ^ 64 - 1) tooLarge
      readVarintFrom truncated tooLarge (value + 1) rest
    else .ok (value, rest)

def readVarint {ε : Type} (truncated tooLarge : ε) : Parser ε ℕ := readVarintFrom truncated tooLarge 0

def markedDigits (value : ℕ) : Bytes := (varintDigits 128 value).reverse

theorem markedDigits_eq (value : ℕ) : markedDigits value =
    (if value < 128 then [] else markedDigits (value / 128 - 1)) ++ [UInt8.ofNat (value % 128 + 128)] := by
  rw [markedDigits, varintDigits, reverse_cons]
  congr 1
  split
  · rw [if_pos (by omega)]
    rfl
  · rw [if_neg (by omega), markedDigits]

theorem writeVarint_eq (value : ℕ) : writeVarint value =
    (if value < 128 then [] else markedDigits (value / 128 - 1)) ++ [UInt8.ofNat (value % 128)] := by
  rw [writeVarint, varintDigits, reverse_cons]
  congr 1
  split
  · rw [if_pos (by omega)]
    rfl
  · rw [if_neg (by omega), markedDigits]

theorem writeVarint_small {value : ℕ} (small : value < 128) : writeVarint value = [UInt8.ofNat value] := by
  rw [writeVarint_eq, if_pos small, Nat.mod_eq_of_lt small]
  rfl

theorem length_varintDigits_le {count value : ℕ} (small : value < 128 ^ (count + 1)) (mark : ℕ) :
    (varintDigits mark value).length ≤ count + 1 := by
  induction count generalizing value mark with
  | zero =>
    rw [varintDigits, if_pos (by omega)]
    rfl
  | succ count ih =>
    rw [varintDigits, length_cons]
    split
    · simp
    · rw [Nat.pow_succ] at small
      exact Nat.succ_le_succ (ih (by omega) 128)

theorem length_writeVarint_le {value : ℕ} (fits : value < 2 ^ 64) : (writeVarint value).length ≤ 10 := by
  rw [writeVarint, length_reverse]
  apply length_varintDigits_le
  omega

theorem toNat_digit {value : ℕ} (small : value < 256) : (UInt8.ofNat value).toNat = value := by
  rw [UInt8.toNat_ofNat']
  omega

section Reading

variable {ε : Type} (truncated tooLarge : ε)
variable {value result : ℕ} {digit : UInt8} {input rest : Bytes}

theorem readVarintFrom_marked (marked : 128 ≤ digit.toNat)
    (fits : value * 128 + digit.toNat % 128 < 2 ^ 64 - 1) (rest : Bytes) :
    readVarintFrom truncated tooLarge value (digit :: rest) =
      readVarintFrom truncated tooLarge (value * 128 + digit.toNat % 128 + 1) rest := by
  rw [readVarintFrom, bailIf_neg (by omega), ok_bind]
  simp only [if_pos marked, bailIf_neg (Nat.ne_of_lt fits), ok_bind]

theorem readVarintFrom_last (last : digit.toNat < 128) (fits : value * 128 + digit.toNat < 2 ^ 64) (rest : Bytes) :
    readVarintFrom truncated tooLarge value (digit :: rest) = .ok (value * 128 + digit.toNat, rest) := by
  rw [readVarintFrom, bailIf_neg (by omega), ok_bind]
  simp only [if_neg (Nat.not_le.mpr last), Nat.mod_eq_of_lt last]

theorem readVarint_markedDigits (fits : value < 2 ^ 64 - 1) (rest : Bytes) :
    readVarint truncated tooLarge (markedDigits value ++ rest) = readVarintFrom truncated tooLarge (value + 1) rest := by
  induction value using Nat.strongRecOn generalizing rest with
  | ind value ih =>
    have digit := toNat_digit (show value % 128 + 128 < 256 by omega)
    have marked : 128 ≤ (UInt8.ofNat (value % 128 + 128)).toNat := by omega
    rw [markedDigits_eq]
    by_cases small : value < 128
    · rw [if_pos small, nil_append, singleton_append, readVarint,
        readVarintFrom_marked truncated tooLarge marked (by omega), digit]
      congr 1
      omega
    · rw [if_neg small, append_assoc, ih _ (by omega) (by omega), singleton_append,
        readVarintFrom_marked truncated tooLarge marked (by omega), digit]
      congr 1
      omega

theorem readVarint_writeVarint (fits : value < 2 ^ 64) (rest : Bytes) :
    readVarint truncated tooLarge (writeVarint value ++ rest) = .ok (value, rest) := by
  have digit := toNat_digit (show value % 128 < 256 by omega)
  rw [writeVarint_eq]
  by_cases small : value < 128
  · rw [if_pos small, nil_append, singleton_append, readVarint,
      readVarintFrom_last truncated tooLarge (by omega) (by omega), digit]
    simp [Nat.mod_eq_of_lt small]
  · rw [if_neg small, append_assoc, readVarint_markedDigits truncated tooLarge (by omega), singleton_append,
      readVarintFrom_last truncated tooLarge (by omega) (by omega), digit]
    congr 2
    omega

variable {truncated tooLarge}

theorem readVarintFrom_ok (read : readVarintFrom truncated tooLarge (value + 1) input = .ok (result, rest)) :
    result < 2 ^ 64 ∧ ∃ used, input = used ++ rest ∧ writeVarint result = markedDigits value ++ used := by
  induction input generalizing value with
  | nil => cases read
  | cons digit input ih =>
    have byte := digit.toNat_lt
    rw [readVarintFrom] at read
    obtain ⟨fits, read⟩ := guard_ok read
    simp only at read
    split at read
    case isTrue marked =>
      obtain ⟨_, read⟩ := guard_ok read
      obtain ⟨bound, used, split, form⟩ := ih read
      refine ⟨bound, digit :: used, by rw [split]; rfl, ?_⟩
      have high : ¬(value + 1) * 128 + digit.toNat % 128 < 128 := by omega
      have quotient : ((value + 1) * 128 + digit.toNat % 128) / 128 - 1 = value := by omega
      have low : ((value + 1) * 128 + digit.toNat % 128) % 128 + 128 = digit.toNat := by omega
      rw [form, markedDigits_eq, if_neg high, quotient, low, UInt8.ofNat_toNat, append_assoc]
      rfl
    case isFalse last =>
      cases read
      have high : ¬(value + 1) * 128 + digit.toNat % 128 < 128 := by omega
      have quotient : ((value + 1) * 128 + digit.toNat % 128) / 128 - 1 = value := by omega
      have low : ((value + 1) * 128 + digit.toNat % 128) % 128 = digit.toNat := by omega
      refine ⟨by omega, [digit], rfl, ?_⟩
      rw [writeVarint_eq, if_neg high, quotient, low, UInt8.ofNat_toNat]

/-- The reader accepts exactly the forms of the numbers below `2 ^ 64`. -/
theorem readVarint_iff : readVarint truncated tooLarge input = .ok (result, rest) ↔
      result < 2 ^ 64 ∧ input = writeVarint result ++ rest := by
  constructor
  · intro read
    cases input with
    | nil => cases read
    | cons digit input =>
      have byte := digit.toNat_lt
      rw [readVarint, readVarintFrom] at read
      obtain ⟨_, read⟩ := guard_ok read
      simp only [Nat.zero_mul, Nat.zero_add] at read
      split at read
      case isTrue marked =>
        obtain ⟨_, read⟩ := guard_ok read
        obtain ⟨bound, used, split, form⟩ := readVarintFrom_ok read
        refine ⟨bound, ?_⟩
        have low : digit.toNat % 128 % 128 + 128 = digit.toNat := by omega
        rw [form, markedDigits_eq, if_pos (Nat.mod_lt _ (by decide)), low, UInt8.ofNat_toNat, split]
        rfl
      case isFalse last =>
        cases read
        refine ⟨by omega, ?_⟩
        have low : digit.toNat % 128 = digit.toNat := by omega
        rw [low, writeVarint_small (by omega), UInt8.ofNat_toNat]
        rfl
  · rintro ⟨fits, rfl⟩
    exact readVarint_writeVarint truncated tooLarge fits rest

end Reading

end Codec
