import BitcoindRs.Consensus.Types
import BitcoindRs.Data.Varint

/-! Scripts in compressed form. -/

namespace BitcoindRs
open Result Codec List

/-- The curve library. A slice that is a valid public key is given in its uncompressed form; the compressed form of a
point, its first coordinate and the parity of the second, gives the point back. -/
class Secp256k1 where
  uncompressed : Bytes → Option Bytes
  decompress : ∀ key : Bytes, key.length = 65 → key.take 1 = [4] → uncompressed key = some key →
    uncompressed (UInt8.ofNat (2 + (key.getD 64 0).toNat % 2) :: (key.drop 1).take 32) = some key

section Writing

variable [Secp256k1]

def uncompressedKey (script : Script) : Bytes := (script.drop 1).take 65

def specialScript (script : Script) : Option Bytes :=
  if script.length = 25 ∧ script.take 3 = [0x76, 0xa9, 0x14] ∧ script.drop 23 = [0x88, 0xac] then
    some (0 :: (script.drop 3).take 20)
  else if script.length = 23 ∧ script.take 2 = [0xa9, 0x14] ∧ script.drop 22 = [0x87] then
    some (1 :: (script.drop 2).take 20)
  else if script.length = 35 ∧ (script.take 2 = [33, 2] ∨ script.take 2 = [33, 3]) ∧ script.drop 34 = [0xac] then
    some ((script.drop 1).take 33)
  else if script.length = 67 ∧ script.take 2 = [65, 4] ∧ script.drop 66 = [0xac] ∧
      Secp256k1.uncompressed (uncompressedKey script) = some (uncompressedKey script) then
    some (UInt8.ofNat (4 + ((uncompressedKey script).getD 64 0).toNat % 2) :: ((uncompressedKey script).drop 1).take 32)
  else none

def writeCompressedScript (script : Script) : Bytes :=
  (specialScript script).getD (writeVarint (script.length + 6) ++ script)

theorem length_writeCompressedScript_le {script : Script} (size : script.length < 2 ^ 32) :
    (writeCompressedScript script).length ≤ 43 + script.length := by
  rw [writeCompressedScript]
  cases special : specialScript script with
  | none =>
    have digits := length_writeVarint_le (show script.length + 6 < 2 ^ 64 by omega)
    rw [Option.getD_none, length_append]
    omega
  | some written =>
    have short : written.length ≤ 33 := by
      unfold specialScript at special
      repeat' split at special
      all_goals cases special
      all_goals simp only [length_cons, length_take]; omega
    exact short.trans (by omega)

end Writing

/-- The texts of the errors of one reader of coins, and the longest script it accepts. -/
structure CoinReader where
  varintTooLarge : String
  invalidKey : String
  scriptTooLarge : String
  maxScriptSize : ℕ

def unexpectedEof : Error := .message "failed to fill whole buffer"

namespace CoinReader

variable (reader : CoinReader)

def varint : Parser Error ℕ := readVarint unexpectedEof (.message reader.varintTooLarge)

def fixed (length : ℕ) : Parser Error Bytes := required (readBytes length) unexpectedEof

def expandScript [Secp256k1] (tag : ℕ) (data : Bytes) : Except Error Script :=
  match tag with
  | 0 => .ok ([0x76, 0xa9, 0x14] ++ data ++ [0x88, 0xac])
  | 1 => .ok ([0xa9, 0x14] ++ data ++ [0x87])
  | 2 | 3 => .ok ([33, UInt8.ofNat tag] ++ data ++ [0xac])
  | _ => do
    let key ← okOr (Secp256k1.uncompressed (UInt8.ofNat (tag - 2) :: data)) (.message reader.invalidKey)
    .ok ([65] ++ key ++ [0xac])

def script [Secp256k1] : Parser Error Script := fun input => do
  let (size, rest) ← reader.varint input
  if size < 6 then do
    let (data, rest) ← fixed (if size < 2 then 20 else 32) rest
    let script ← reader.expandScript size data
    .ok (script, rest)
  else do
    bailIf (reader.maxScriptSize < size - 6) (.message reader.scriptTooLarge)
    fixed (size - 6) rest

theorem varint_writeVarint {value : ℕ} (fits : value < 2 ^ 64) (rest : Bytes) :
    reader.varint (writeVarint value ++ rest) = .ok (value, rest) := readVarint_writeVarint _ _ fits rest

theorem fixed_append (data rest : Bytes) : fixed data.length (data ++ rest) = .ok (data, rest) :=
  required_of_read _ (readBytes_append data rest)

variable [Secp256k1]

theorem script_tagged {tag : ℕ} {data : Bytes} {script : Script} (small : tag < 6)
    (size : data.length = if tag < 2 then 20 else 32) (expands : reader.expandScript tag data = .ok script)
    (rest : Bytes) : reader.script (UInt8.ofNat tag :: (data ++ rest)) = .ok (script, rest) := by
  have read := reader.varint_writeVarint (show tag < 2 ^ 64 by omega) (data ++ rest)
  rw [writeVarint_small (by omega)] at read
  refine bind_pass read ?_
  simp only [if_pos small, ← size, fixed_append, ok_bind, expands]

omit [Secp256k1] in
theorem split_three (bytes : Bytes) (front middle : ℕ) :
    bytes = bytes.take front ++ ((bytes.drop front).take middle ++ bytes.drop (front + middle)) := by
  rw [← drop_drop, take_append_drop, take_append_drop]

theorem script_payToKeyHash {script : Script} (size : script.length = 25) (front : script.take 3 = [0x76, 0xa9, 0x14])
    (back : script.drop 23 = [0x88, 0xac]) (rest : Bytes) :
    reader.script (0 :: (script.drop 3).take 20 ++ rest) = .ok (script, rest) := by
  have parts := split_three script 3 20
  rw [front, back] at parts
  apply reader.script_tagged (show 0 < 6 by decide) (by simp [size])
  exact congrArg Except.ok ((append_assoc _ _ _).trans parts.symm)

theorem script_payToScriptHash {script : Script} (size : script.length = 23) (front : script.take 2 = [0xa9, 0x14])
    (back : script.drop 22 = [0x87]) (rest : Bytes) :
    reader.script (1 :: (script.drop 2).take 20 ++ rest) = .ok (script, rest) := by
  have parts := split_three script 2 20
  rw [front, back] at parts
  apply reader.script_tagged (show 1 < 6 by decide) (by simp [size])
  exact congrArg Except.ok ((append_assoc _ _ _).trans parts.symm)

theorem script_payToKey {script : Script} {tag : ℕ} (known : tag = 2 ∨ tag = 3) (size : script.length = 35)
    (front : script.take 2 = [33, UInt8.ofNat tag]) (back : script.drop 34 = [0xac]) (rest : Bytes) :
    reader.script ((script.drop 1).take 33 ++ rest) = .ok (script, rest) := by
  have parts := split_three script 2 32
  rw [front, back] at parts
  have length : ((script.drop 2).take 32).length = 32 := by simp [size]
  have written : (script.drop 1).take 33 = UInt8.ofNat tag :: (script.drop 2).take 32 := by
    generalize (script.drop 2).take 32 = data at parts length
    rw [parts]
    simp [← length]
  rw [written]
  refine reader.script_tagged (by omega) ?_ ?_ rest
  · rw [length, if_neg (by omega)]
  · rcases known with rfl | rfl <;> exact congrArg Except.ok ((append_assoc _ _ _).trans parts.symm)

theorem script_payToUncompressedKey {script : Script} (size : script.length = 67) (front : script.take 2 = [65, 4])
    (back : script.drop 66 = [0xac])
    (valid : Secp256k1.uncompressed (uncompressedKey script) = some (uncompressedKey script)) (rest : Bytes) :
    reader.script (UInt8.ofNat (4 + ((uncompressedKey script).getD 64 0).toNat % 2) ::
      ((uncompressedKey script).drop 1).take 32 ++ rest) = .ok (script, rest) := by
  have parts := split_three script 1 65
  have opcode : script.take 1 = [65] := by
    have := congrArg (List.take 1) front
    rwa [take_take] at this
  rw [opcode, back] at parts
  have length : (uncompressedKey script).length = 65 := by simp [uncompressedKey, size]
  have first : (uncompressedKey script).take 1 = [4] := by
    have := congrArg (List.drop 1) front
    rw [drop_take] at this
    rw [uncompressedKey, take_take]
    exact this
  have point := Secp256k1.decompress _ length first valid
  have bound := Nat.mod_lt ((uncompressedKey script).getD 64 0).toNat (show 0 < 2 by decide)
  generalize ((uncompressedKey script).getD 64 0).toNat % 2 = parity at point bound ⊢
  refine reader.script_tagged (by omega) ?_ ?_ rest
  · rw [if_neg (by omega), length_take, length_drop, length]
    rfl
  · have tag : parity = 0 ∨ parity = 1 := by omega
    rcases tag with rfl | rfl <;>
      exact bind_pass (okOr_ok.mpr point) (congrArg Except.ok ((append_assoc _ _ _).trans parts.symm))

theorem script_special {script : Script} {written : Bytes} (special : specialScript script = some written)
    (rest : Bytes) : reader.script (written ++ rest) = .ok (script, rest) := by
  unfold specialScript at special
  split at special
  case isTrue payToKeyHash =>
    obtain ⟨size, front, back⟩ := payToKeyHash
    cases special
    exact reader.script_payToKeyHash size front back rest
  case isFalse =>
    split at special
    case isTrue payToScriptHash =>
      obtain ⟨size, front, back⟩ := payToScriptHash
      cases special
      exact reader.script_payToScriptHash size front back rest
    case isFalse =>
      split at special
      case isTrue payToKey =>
        obtain ⟨size, front, back⟩ := payToKey
        cases special
        rcases front with even | odd
        · exact reader.script_payToKey (.inl rfl) size even back rest
        · exact reader.script_payToKey (.inr rfl) size odd back rest
      case isFalse =>
        split at special
        case isTrue payToUncompressedKey =>
          obtain ⟨size, front, back, valid⟩ := payToUncompressedKey
          cases special
          exact reader.script_payToUncompressedKey size front back valid rest
        case isFalse => cases special

theorem script_writeCompressedScript {script : Script} (size : script.length ≤ reader.maxScriptSize)
    (limit : reader.maxScriptSize < 2 ^ 32) (rest : Bytes) :
    reader.script (writeCompressedScript script ++ rest) = .ok (script, rest) := by
  rw [writeCompressedScript]
  cases special : specialScript script with
  | some written => exact reader.script_special special rest
  | none =>
    rw [Option.getD_none, append_assoc]
    refine bind_pass (reader.varint_writeVarint (by omega) _) ?_
    simp only [if_neg (show ¬script.length + 6 < 6 by omega), Nat.add_sub_cancel, bailIf_neg (Nat.not_lt.mpr size), ok_bind]
    exact fixed_append script rest

end CoinReader

end BitcoindRs
