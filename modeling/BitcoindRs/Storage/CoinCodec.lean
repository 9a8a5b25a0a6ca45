import BitcoindRs.Consensus.CompressedAmount
import BitcoindRs.Consensus.CompressedScript
import BitcoindRs.Storage.Undo

/-! The records of the coin store: compact ones, and the older ones with fixed fields that are still read. -/

namespace BitcoindRs
open Result Codec Checked

/-- `COMPACT_STORED_UTXO_MAGIC`, the text `bitcoind-rs-utxo-v2` with a final zero. -/
def compactStoredUtxoMagic : Bytes :=
  [98, 105, 116, 99, 111, 105, 110, 100, 45, 114, 115, 45, 117, 116, 120, 111, 45, 118, 50, 0]

def maxStoredUtxoSize : ℕ := 100 * 1024
def maxStoredUtxoScriptSize : ℕ := 10000

def storedCoins : CoinReader where
  varintTooLarge := "compact UTXO VARINT is too large"
  invalidKey := "invalid compressed public key in compact UTXO"
  scriptTooLarge := "compact UTXO script is too large"
  maxScriptSize := maxStoredUtxoScriptSize

def coinCode (coin : UtxoEntry) : Option ℕ := do
  let doubled ← mulU64 coin.height 2
  addU64 doubled (if coin.coinbase then 1 else 0)

def writeCoreScript [Secp256k1] (script : Script) : Except Error Bytes :=
  match specialScript script with
  | some written => .ok written
  | none => do
    bailIf (maxStoredUtxoScriptSize < script.length) (.message "UTXO script is too large")
    let size ← okOr (addU64 script.length 6) (.message "UTXO script size overflowed")
    .ok (writeVarint size ++ script)

def encodeStoredUtxo [Secp256k1] (coin : UtxoEntry) : Except Error Bytes := do
  let code ← okOr (coinCode coin) (.message "UTXO height is too large")
  let compressedAmount ← okOr (compressAmount coin.output.value) (.message "arithmetic overflow")
  let script ← writeCoreScript coin.output.scriptPubkey
  let bytes := compactStoredUtxoMagic ++ (writeVarint code ++ (writeVarint compressedAmount ++
    (script ++ leBytes 4 coin.medianTimePast)))
  bailIf (maxStoredUtxoSize < bytes.length) (.message ("UTXO value is too large: " ++ toString bytes.length ++ " bytes"))
  .ok bytes

def decodeCompactStoredUtxo [Secp256k1] (input : Bytes) : Except Error UtxoEntry := do
  let (code, rest) ← (storedCoins.varint input).mapError fun _ => .message "reading compact UTXO metadata"
  bailIf (2 ^ 32 ≤ code) (.message "compact UTXO metadata is too large")
  let (compressed, rest) ← (storedCoins.varint rest).mapError fun _ => .message "reading compact UTXO amount"
  let value ← decompressCoreAmount compressed
  bailIf (maxMoney < value) (.message "compact UTXO amount is out of range")
  let (scriptPubkey, rest) ← storedCoins.script rest
  let (medianTimePast, rest) ← required (readLe 4) (.message "reading UTXO median time") rest
  bailIf (rest ≠ []) (.message "compact UTXO value has trailing bytes")
  .ok ⟨⟨value, scriptPubkey⟩, code / 2, medianTimePast, code % 2 = 1⟩

def legacyCoinbaseFlag : Bytes → Except Error Bool
  | [0] => .ok false
  | [1] => .ok true
  | _ => .error (.message "stored UTXO coinbase flag is invalid")

def decodeLegacyStoredUtxo (bytes : Bytes) : Except Error UtxoEntry := do
  bailIf (bytes.length < 13) (.message "stored UTXO value is truncated")
  let coinbase ← legacyCoinbaseFlag ((bytes.drop 8).take 1)
  let outputLength := leNat ((bytes.drop 9).take 4)
  bailIf (13 + outputLength ≠ bytes.length) (.message "stored UTXO output length does not match record length")
  let (output, rest) ← required readTxOut (.message "decoding stored UTXO output") (bytes.drop 13)
  bailIf (rest ≠ []) (.message "decoding stored UTXO output")
  .ok ⟨output, leNat (bytes.take 4), leNat ((bytes.drop 4).take 4), coinbase⟩

def decodeStoredUtxo [Secp256k1] (bytes : Bytes) : Except Error UtxoEntry :=
  if compactStoredUtxoMagic.isPrefixOf bytes then decodeCompactStoredUtxo (bytes.drop compactStoredUtxoMagic.length)
  else decodeLegacyStoredUtxo bytes

structure UtxoEntry.Storable (coin : UtxoEntry) : Prop where
  height : coin.height < 2 ^ 31
  value : coin.output.value ≤ maxMoney
  medianTimePast : coin.medianTimePast < 2 ^ 32
  script : coin.output.scriptPubkey.length ≤ maxStoredUtxoScriptSize

section RoundTrip

variable [Secp256k1] {coin : UtxoEntry}

omit [Secp256k1] in
theorem coinCode_eq (small : coin.height < 2 ^ 31) :
    ∃ code, coinCode coin = some code ∧ code < 2 ^ 32 ∧ code / 2 = coin.height ∧
      decide (code % 2 = 1) = coin.coinbase := by
  have doubled : mulU64 coin.height 2 = some (coin.height * 2) := mulU64_eq (by unfold u64Bound; omega)
  cases flag : coin.coinbase with
  | true =>
    have whole : addU64 (coin.height * 2) 1 = some (coin.height * 2 + 1) := addU64_eq (by unfold u64Bound; omega)
    refine ⟨coin.height * 2 + 1, ?_, by omega, by omega, decide_eq_true (by omega)⟩
    simp only [coinCode, doubled, flag, if_true, Option.bind_eq_bind, Option.bind_some, whole]
  | false =>
    have whole : addU64 (coin.height * 2) 0 = some (coin.height * 2) := addU64_eq (by unfold u64Bound; omega)
    refine ⟨coin.height * 2, ?_, by omega, by omega, decide_eq_false (by omega)⟩
    simp only [coinCode, doubled, flag, Bool.false_eq_true, if_false, Option.bind_eq_bind, Option.bind_some, whole]

theorem writeCoreScript_eq {script : Script} (size : script.length ≤ maxStoredUtxoScriptSize) :
    writeCoreScript script = .ok (writeCompressedScript script) := by
  rw [writeCoreScript, writeCompressedScript]
  cases specialScript script with
  | some written => rfl
  | none =>
    have counted : addU64 script.length 6 = some (script.length + 6) := by
      apply addU64_eq
      unfold maxStoredUtxoScriptSize at size
      unfold u64Bound
      omega
    exact guard_pass (Nat.not_lt.mpr size) (bind_pass (okOr_ok.mpr counted) rfl)

theorem encodeStoredUtxo_eq (storable : coin.Storable) {code compressed : ℕ} (coded : coinCode coin = some code)
    (codeFits : code < 2 ^ 64) (amount : compressAmount coin.output.value = some compressed)
    (amountFits : compressed < 2 ^ 64) :
    encodeStoredUtxo coin = .ok (compactStoredUtxoMagic ++ (writeVarint code ++ (writeVarint compressed ++
      (writeCompressedScript coin.output.scriptPubkey ++ leBytes 4 coin.medianTimePast)))) := by
  have size := storable.script
  unfold maxStoredUtxoScriptSize at size
  have script := length_writeCompressedScript_le (show coin.output.scriptPubkey.length < 2 ^ 32 by omega)
  have codeSize := length_writeVarint_le codeFits
  have amountSize := length_writeVarint_le amountFits
  refine bind_pass (okOr_ok.mpr coded) (bind_pass (okOr_ok.mpr amount) (bind_pass (writeCoreScript_eq storable.script) ?_))
  refine guard_pass ?_ rfl
  have magic : compactStoredUtxoMagic.length = 20 := rfl
  simp only [List.length_append, length_leBytes, magic, maxStoredUtxoSize]
  omega

theorem decodeStoredUtxo_encode (storable : coin.Storable) :
    ∃ bytes, encodeStoredUtxo coin = .ok bytes ∧ decodeStoredUtxo bytes = .ok coin := by
  obtain ⟨code, coded, codeFits, height, coinbase⟩ := coinCode_eq storable.height
  obtain ⟨compressed, amount, amountFits, expands⟩ := compressAmount_spec storable.value
  have written := encodeStoredUtxo_eq storable coded (by omega) amount (by omega)
  refine ⟨_, written, ?_⟩
  rw [decodeStoredUtxo, if_pos (by simp), List.drop_left]
  have money : maxMoney < u64Bound := by decide
  have value : decompressCoreAmount compressed = .ok coin.output.value := by
    rw [← expands]
    apply decompressCoreAmount_eq
    rw [expands]
    exact lt_of_le_of_lt storable.value money
  have time := required_of_read (Error.message "reading UTXO median time")
    (readLe_leBytes (show coin.medianTimePast < 256 ^ 4 from storable.medianTimePast) [])
  rw [List.append_nil] at time
  refine bind_pass (mapError_ok.mpr (storedCoins.varint_writeVarint (by omega) _)) (guard_pass (by omega) ?_)
  refine bind_pass (mapError_ok.mpr (storedCoins.varint_writeVarint (by omega) _)) (bind_pass value ?_)
  refine guard_pass (Nat.not_lt.mpr storable.value) ?_
  refine bind_pass (storedCoins.script_writeCompressedScript storable.script (by decide) _) (bind_pass time ?_)
  refine guard_pass (not_not.mpr rfl) ?_
  rw [height, coinbase]

end RoundTrip

end BitcoindRs
