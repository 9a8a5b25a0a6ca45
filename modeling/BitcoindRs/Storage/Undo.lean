import BitcoindRs.Chain.Apply
import BitcoindRs.Storage.Log

/-! The format of undo records. -/

namespace BitcoindRs
open Result Codec List

def encodeUndoCoin (coin : StoredUndo) : Bytes :=
  leBytes 4 coin.height ++ leBytes 4 coin.medianTimePast ++ [if coin.coinbase then 1 else 0] ++ coin.output.serialize

def encodeUndoCoins (coins : List StoredUndo) : Bytes := compactSize coins.length ++ coins.flatMap encodeUndoCoin

def encodeUndoRecord (hash : BlockHash) (undo : List (List StoredUndo)) : Bytes :=
  leBytes 32 hash ++ compactSize undo.length ++ undo.flatMap encodeUndoCoins

def readTxOut : Reader TxOut := fun input => do
  let (value, rest) ← readLe 8 input
  let (length, rest) ← readCompactSize rest
  let (script, rest) ← readBytes length rest
  some (⟨value, script⟩, rest)

def decodeCoinbaseFlag : Bytes → Except Error Bool
  | [0] => .ok false
  | [1] => .ok true
  | _ => .error (.message "stored undo coin has an invalid coinbase flag")

def decodeUndoCoin : Parser Error StoredUndo := fun input => do
  let (metadata, rest) ← required (readBytes 9) (.message "stored undo coin metadata is truncated") input
  let coinbase ← decodeCoinbaseFlag (metadata.drop 8)
  let (output, rest) ← required readTxOut (.message "decoding stored block undo output") rest
  .ok (⟨output, leNat (metadata.take 4), leNat ((metadata.drop 4).take 4), coinbase⟩, rest)

def decodeUndoCoins : Parser Error (List StoredUndo) := fun input => do
  let (count, rest) ← required readCompactSize (.message "decoding stored block undo output count") input
  bailIf (maxStoredUndoSize < count) (.message "stored block undo output count is unreasonable")
  parseMany decodeUndoCoin count rest

def decodeUndoRecord (input : Bytes) : Except Error (BlockHash × List (List StoredUndo)) := do
  let (hash, rest) ← required (readLe 32) (.message "decoding stored block undo hash") input
  let (count, rest) ← required readCompactSize (.message "decoding stored block undo transaction count") rest
  bailIf (maxStoredUndoSize < count) (.message "stored block undo transaction count is unreasonable")
  let (undo, rest) ← parseMany decodeUndoCoins count rest
  bailIf (rest ≠ []) (.message "stored block undo contains trailing data")
  .ok (hash, undo)

/-- The numbers of a coin fit the machine integers of its fields. -/
structure UtxoEntry.Fits (coin : UtxoEntry) : Prop where
  height : coin.height < 256 ^ 4
  medianTimePast : coin.medianTimePast < 256 ^ 4
  value : coin.output.value < 256 ^ 8
  script : coin.output.scriptPubkey.length < 2 ^ 64

theorem readTxOut_serialize {out : TxOut} (value : out.value < 256 ^ 8) (script : out.scriptPubkey.length < 2 ^ 64)
    (rest : Bytes) : readTxOut (out.serialize ++ rest) = some (out, rest) := by
  simp only [readTxOut, TxOut.serialize, append_assoc, readLe_leBytes value, readCompactSize_compactSize script,
    readBytes_append, Option.bind_eq_bind, Option.bind_some]

theorem decodeUndoCoin_encode {coin : StoredUndo} (fits : coin.Fits) (rest : Bytes) :
    decodeUndoCoin (encodeUndoCoin coin ++ rest) = .ok (coin, rest) := by
  let metadata := leBytes 4 coin.height ++ leBytes 4 coin.medianTimePast ++ [if coin.coinbase then (1 : UInt8) else 0]
  have length : metadata.length = 9 := by simp [metadata]
  have front : readBytes 9 (encodeUndoCoin coin ++ rest) = some (metadata, coin.output.serialize ++ rest) := by
    have read := readBytes_append metadata (coin.output.serialize ++ rest)
    rwa [length, ← append_assoc] at read
  have flag : decodeCoinbaseFlag (metadata.drop 8) = .ok coin.coinbase := by
    rw [show metadata.drop 8 = [if coin.coinbase then (1 : UInt8) else 0] from drop_left' (by simp)]
    cases coin.coinbase <;> rfl
  have height : metadata.take 4 = leBytes 4 coin.height := by
    simp only [metadata, append_assoc]
    exact take_left' (by simp)
  have time : (metadata.drop 4).take 4 = leBytes 4 coin.medianTimePast := by
    simp only [metadata, append_assoc]
    rw [drop_left' (by simp)]
    exact take_left' (by simp)
  unfold decodeUndoCoin
  rw [required_of_read _ front, ok_bind]
  dsimp only
  rw [flag, ok_bind, required_of_read _ (readTxOut_serialize fits.value fits.script rest), ok_bind, height, time,
    leNat_leBytes fits.height, leNat_leBytes fits.medianTimePast]

theorem decodeUndoCoins_encode {coins : List StoredUndo} (fits : ∀ coin ∈ coins, coin.Fits)
    (count : coins.length ≤ maxStoredUndoSize) (rest : Bytes) :
    decodeUndoCoins (encodeUndoCoins coins ++ rest) = .ok (coins, rest) := by
  have bound : coins.length < 2 ^ 64 := by
    unfold maxStoredUndoSize at count
    omega
  unfold decodeUndoCoins encodeUndoCoins
  rw [append_assoc, required_of_read _ (readCompactSize_compactSize bound _), ok_bind]
  dsimp only
  rw [bailIf_neg (Nat.not_lt.mpr count), ok_bind]
  exact parseMany_flatMap coins (fun coin member rest => decodeUndoCoin_encode (fits coin member) rest) rest

theorem length_le_flatMap {γ : Type} {encode : γ → Bytes} (positive : ∀ x, 0 < (encode x).length) (xs : List γ) :
    xs.length ≤ (xs.flatMap encode).length := by
  induction xs with
  | nil => exact Nat.le_refl _
  | cons x xs ih =>
    have := positive x
    rw [flatMap_cons, length_append, length_cons]
    omega

theorem length_encodeUndoCoins_le (coins : List StoredUndo) : coins.length ≤ (encodeUndoCoins coins).length := by
  have least : coins.length ≤ (coins.flatMap encodeUndoCoin).length :=
    length_le_flatMap (fun coin => by simp [encodeUndoCoin]) coins
  rw [encodeUndoCoins, length_append]
  omega

theorem length_encodeUndoRecord (hash : BlockHash) (undo : List (List StoredUndo)) :
    (encodeUndoRecord hash undo).length =
      32 + (compactSize undo.length).length + (undo.flatMap encodeUndoCoins).length := by
  rw [encodeUndoRecord, length_append, length_append, length_leBytes]

theorem decodeUndoRecord_encode {hash : BlockHash} {undo : List (List StoredUndo)} (hashFits : hash < 256 ^ 32)
    (fits : ∀ coins ∈ undo, ∀ coin ∈ coins, coin.Fits) (limit : (encodeUndoRecord hash undo).length ≤ maxStoredUndoSize) :
    decodeUndoRecord (encodeUndoRecord hash undo) = .ok (hash, undo) := by
  have inside := length_encodeUndoRecord hash undo
  have count : undo.length ≤ maxStoredUndoSize := by
    have positive : ∀ coins, 0 < (encodeUndoCoins coins).length := by
      intro coins
      rw [encodeUndoCoins, length_append]
      exact Nat.add_pos_left (length_compactSize_pos _) _
    have least := length_le_flatMap positive undo
    omega
  have counts : ∀ coins ∈ undo, coins.length ≤ maxStoredUndoSize := by
    intro coins member
    have least := length_encodeUndoCoins_le coins
    have part : (encodeUndoCoins coins).length ≤ (undo.flatMap encodeUndoCoins).length := by
      obtain ⟨before, after, rfl⟩ := append_of_mem member
      simp only [flatMap_append, flatMap_cons, length_append]
      omega
    omega
  have bound : undo.length < 2 ^ 64 := by
    unfold maxStoredUndoSize at count
    omega
  have body := parseMany_flatMap undo
    (fun coins member rest => decodeUndoCoins_encode (fits coins member) (counts coins member) rest) []
  rw [append_nil] at body
  unfold decodeUndoRecord encodeUndoRecord
  rw [append_assoc, required_of_read _ (readLe_leBytes hashFits _), ok_bind]
  dsimp only
  rw [required_of_read _ (readCompactSize_compactSize bound _), ok_bind]
  dsimp only
  rw [bailIf_neg (Nat.not_lt.mpr count), ok_bind, body, ok_bind, bailIf_neg (by simp), ok_bind]

def undoFormat : Format (List (List StoredUndo)) where
  kind := "undo"
  maxSize := maxStoredUndoSize
  limit := Nat.le_refl _
  serialize := encodeUndoRecord
  deserialize := decodeUndoRecord
  scanError error := error
  mismatch := "stored block undo hash does not match undo index"
  disappeared hash := "undo for block " ++ toString hash ++ " disappeared during pruning"

end BitcoindRs
