import Mathlib
import BitcoindRs.Data.Bytes
import BitcoindRs.Data.MultisetHash

/-! The set accumulator over the coins: a fraction modulo a prime, with one inversion when the hash is asked for. -/

namespace BitcoindRs
open MultisetHash Codec History

/-- The digest and the first 384 bytes of the stream cipher under a key and the zero nonce. -/
class MuHashLibrary extends Sha256 where
  keystream : Vector UInt8 32 → Vector UInt8 384

class MuHashModulus where
  modulus : ℕ

open MuHashLibrary MuHashModulus

structure MuHash3072 where
  numerator : ℕ
  denominator : ℕ
deriving DecidableEq, Repr

def fromBytesLe (bytes : List UInt8) : ℕ := Nat.ofDigits 256 (bytes.map UInt8.toNat)

/-- The bytes of a number from the lowest on, cut or padded with zeros to `size`. -/
def toBytesLe (size value : ℕ) : List UInt8 := ((Nat.digits 256 value).map UInt8.ofNat).takeD size 0

def hexDigit (value : ℕ) : Char := "0123456789abcdef".toList.getD value '0'

def hexString (bytes : List UInt8) : String :=
  String.ofList (bytes.flatMap fun byte => [hexDigit (byte.toNat / 16), hexDigit (byte.toNat % 16)])

def modpow (base exponent modulus : ℕ) : ℕ := base ^ exponent % modulus

namespace MuHash3072

variable [MuHashLibrary] [MuHashModulus]

def hashToNum (data : List UInt8) : ℕ := fromBytesLe (keystream (Sha256.digest data)).toList

def default : MuHash3072 := ⟨1, 1⟩

def insert (hash : MuHash3072) (data : List UInt8) : MuHash3072 :=
  { hash with numerator := hash.numerator * hashToNum data % modulus }

def remove (hash : MuHash3072) (data : List UInt8) : MuHash3072 :=
  { hash with denominator := hash.denominator * hashToNum data % modulus }

def combine (hash other : MuHash3072) : MuHash3072 :=
  ⟨hash.numerator * other.numerator % modulus, hash.denominator * other.denominator % modulus⟩

def value (hash : MuHash3072) : ℕ := hash.numerator * modpow hash.denominator (modulus - 2) modulus % modulus

def finalize (hash : MuHash3072) : String := hexString (Sha256.digest (toBytesLe 384 hash.value)).toList.reverse

def accumulate : History (List UInt8) → MuHash3072
  | .empty => default
  | .insert before data => (accumulate before).insert data
  | .remove before data => (accumulate before).remove data
  | .combine left right => (accumulate left).combine (accumulate right)

structure Reduced (hash : MuHash3072) : Prop where
  numerator_lt : hash.numerator < modulus
  denominator_lt : hash.denominator < modulus
  numerator_unit : hash.numerator.Coprime modulus
  denominator_unit : hash.denominator.Coprime modulus

omit [MuHashLibrary] in
theorem coprime_mul_mod {left right : ℕ} (leftUnit : left.Coprime modulus) (rightUnit : right.Coprime modulus) :
    (left * right % modulus).Coprime modulus := by
  rw [Nat.Coprime, ← Nat.gcd_rec, Nat.gcd_comm]
  exact leftUnit.mul_left rightUnit

theorem accumulate_reduced (prime : (modulus : ℕ).Prime) (nonzero : ∀ data, hashToNum data % modulus ≠ 0)
    (history : History (List UInt8)) : (accumulate history).Reduced := by
  have positive : 0 < (modulus : ℕ) := prime.pos
  have unit : ∀ data, (hashToNum data).Coprime modulus := by
    intro data
    rw [Nat.coprime_comm, prime.coprime_iff_not_dvd, Nat.dvd_iff_mod_eq_zero]
    exact nonzero data
  induction history with
  | empty => exact ⟨prime.one_lt, prime.one_lt, Nat.coprime_one_left _, Nat.coprime_one_left _⟩
  | insert before data ih =>
    exact ⟨Nat.mod_lt _ positive, ih.denominator_lt, coprime_mul_mod ih.numerator_unit (unit data), ih.denominator_unit⟩
  | remove before data ih =>
    exact ⟨ih.numerator_lt, Nat.mod_lt _ positive, ih.numerator_unit, coprime_mul_mod ih.denominator_unit (unit data)⟩
  | combine left right leftIh rightIh =>
    exact ⟨Nat.mod_lt _ positive, Nat.mod_lt _ positive, coprime_mul_mod leftIh.numerator_unit rightIh.numerator_unit,
      coprime_mul_mod leftIh.denominator_unit rightIh.denominator_unit⟩

def image (data : List UInt8) : ZMod modulus := hashToNum data

theorem accumulate_numerator (history : History (List UInt8)) :
    ((accumulate history).numerator : ZMod modulus) = (history.inserted.map image).prod := by
  induction history with
  | empty => simp [accumulate, default, inserted]
  | insert before data ih => simp [accumulate, insert, inserted, ih, image, mul_comm]
  | remove before data ih => simpa [accumulate, remove, inserted] using ih
  | combine left right leftIh rightIh => simp [accumulate, combine, inserted, leftIh, rightIh]

theorem accumulate_denominator (history : History (List UInt8)) :
    ((accumulate history).denominator : ZMod modulus) = (history.removed.map image).prod := by
  induction history with
  | empty => simp [accumulate, default, removed]
  | insert before data ih => simpa [accumulate, insert, removed] using ih
  | remove before data ih => simp [accumulate, remove, removed, ih, image, mul_comm]
  | combine left right leftIh rightIh => simp [accumulate, combine, removed, leftIh, rightIh]

theorem image_ne_zero {data : List UInt8} (nonzero : hashToNum data % modulus ≠ 0) : image data ≠ 0 := by
  intro zero
  rw [image, ZMod.natCast_eq_zero_iff] at zero
  exact nonzero (Nat.mod_eq_zero_of_dvd zero)

omit [MuHashLibrary] in
/-- Raising to the power `modulus - 2` inverts. -/
theorem modpow_inverse [Fact (modulus : ℕ).Prime] {base : ℕ} (nonzero : (base : ZMod modulus) ≠ 0) :
    (modpow base (modulus - 2) modulus : ZMod modulus) = (base : ZMod modulus)⁻¹ := by
  have two : 2 ≤ (modulus : ℕ) := (Fact.out : (modulus : ℕ).Prime).two_le
  rw [modpow, ZMod.natCast_mod, Nat.cast_pow]
  apply eq_inv_of_mul_eq_one_left
  rw [← pow_succ, show modulus - 2 + 1 = modulus - 1 by omega]
  exact ZMod.pow_card_sub_one_eq_one nonzero

theorem accumulate_value [Fact (modulus : ℕ).Prime] (nonzero : ∀ data, hashToNum data % modulus ≠ 0)
    (history : History (List UInt8)) : ((accumulate history).value : ZMod modulus) = history.quotient image := by
  have images : ∀ data, image data ≠ 0 := fun data => image_ne_zero (nonzero data)
  have unit : ((accumulate history).denominator : ZMod modulus) ≠ 0 := by
    rw [accumulate_denominator]
    exact prod_ne_zero images _
  rw [value, ZMod.natCast_mod, Nat.cast_mul, modpow_inverse unit, accumulate_numerator, accumulate_denominator,
    quotient, div_eq_mul_inv]

omit [MuHashLibrary] in
theorem value_lt (positive : 0 < (modulus : ℕ)) (hash : MuHash3072) : hash.value < modulus := Nat.mod_lt _ positive

end MuHash3072

/-- Modulo a prime that divides no image, both parts of every accumulator are reduced and invertible, and the hash
depends on what the operations leave behind, not on their order or on how they were split over accumulators. -/
theorem muhash_multiset [MuHashLibrary] [MuHashModulus] (prime : (modulus : ℕ).Prime)
    (nonzero : ∀ data, MuHash3072.hashToNum data % modulus ≠ 0) :
    (∀ history, (MuHash3072.accumulate history).Reduced) ∧
      ∀ history other : History (List UInt8), history.removed ≤ history.inserted → other.removed ≤ other.inserted →
        history.content = other.content →
        (MuHash3072.accumulate history).finalize = (MuHash3072.accumulate other).finalize := by
  refine ⟨MuHash3072.accumulate_reduced prime nonzero, fun history other covered otherCovered same => ?_⟩
  have : Fact (modulus : ℕ).Prime := ⟨prime⟩
  have images : ∀ data, MuHash3072.image data ≠ 0 := fun data => MuHash3072.image_ne_zero (nonzero data)
  have quotients := quotient_eq images (balance_of_content covered otherCovered same)
  rw [← MuHash3072.accumulate_value nonzero, ← MuHash3072.accumulate_value nonzero, ZMod.natCast_eq_natCast_iff',
    Nat.mod_eq_of_lt (MuHash3072.value_lt prime.pos _), Nat.mod_eq_of_lt (MuHash3072.value_lt prime.pos _)] at quotients
  rw [MuHash3072.finalize, MuHash3072.finalize, quotients]

@[reducible] def MuHashLibrary.sample : MuHashLibrary where
  toSha256 := Sha256.sample
  keystream key := ⟨((if key[0] = 0 then 2 else 3) :: List.replicate 383 0).toArray,
    by rw [List.size_toArray, List.length_cons, List.length_replicate]⟩

theorem MuHashLibrary.sample_hashToNum (data : List UInt8) : let _ := MuHashLibrary.sample
    MuHash3072.hashToNum data = if data.headD 0 = 0 then 2 else 3 := by
  have zeros : ∀ length, Nat.ofDigits 256 (List.replicate length 0) = 0 := by
    intro length
    induction length with
    | zero => rfl
    | succ length ih => rw [List.replicate_succ, Nat.ofDigits_cons, ih]
  have number : ∀ (byte : UInt8) length, fromBytesLe (byte :: List.replicate length 0) = byte.toNat := by
    intro byte length
    rw [fromBytesLe, List.map_cons, List.map_replicate, Nat.ofDigits_cons]
    exact (congrArg (byte.toNat + 256 * ·) (zeros length)).trans (by simp)
  intro _
  have image : (if (Vector.replicate 32 (data.headD 0))[0] = 0 then 2 else 3 : UInt8).toNat =
      if data.headD 0 = 0 then 2 else 3 := by
    rw [Vector.getElem_replicate]
    split <;> rfl
  exact (number _ 383).trans image

theorem muhash_multiset_sample : let _ := MuHashLibrary.sample
    let _ : MuHashModulus := ⟨11⟩
    let history : History (List UInt8) := .remove (.insert (.insert .empty [1]) [0]) [1]
    let other : History (List UInt8) := .combine (.remove .empty [2]) (.insert (.insert .empty [2]) [0])
    history.content = {[0]} ∧ (MuHash3072.accumulate history).finalize = (MuHash3072.accumulate other).finalize ∧
      (MuHash3072.accumulate other).Reduced := by
  intro _ _ history other
  have prime : Nat.Prime 11 := by decide
  have nonzero : ∀ data, MuHash3072.hashToNum data % 11 ≠ 0 := by
    intro data
    rw [MuHashLibrary.sample_hashToNum]
    split <;> decide
  obtain ⟨reduced, same⟩ := muhash_multiset prime nonzero
  exact ⟨by decide, same history other (by decide) (by decide) (by decide), reduced other⟩

end BitcoindRs
