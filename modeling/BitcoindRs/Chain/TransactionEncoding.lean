import BitcoindRs.Consensus.Structure

/-!
One traversal of a transaction for its serialisation and its identifier. An encoder of the library is the list of byte
strings that it writes, and a hash engine is what it has been fed.
-/

namespace BitcoindRs
open Codec

def TxIn.writes (input : TxIn) : List Bytes :=
  [leBytes 32 input.previousOutput.txid, leBytes 4 input.previousOutput.vout, compactSize input.scriptSig.length,
    input.scriptSig, leBytes 4 input.sequence]

def TxOut.writes (output : TxOut) : List Bytes :=
  [leBytes 8 output.value, compactSize output.scriptPubkey.length, output.scriptPubkey]

def witnessWrites (witness : List Bytes) : List Bytes :=
  compactSize witness.length :: witness.flatMap fun item => [compactSize item.length, item]

def vecWrites {α : Type} (writes : α → List Bytes) (items : List α) : List Bytes :=
  compactSize items.length :: items.flatMap writes

namespace Transaction

def versionWrites (tx : Transaction) : List Bytes := [leBytes 4 (tx.version % 2 ^ 32).toNat]

def lockTimeWrites (tx : Transaction) : List Bytes := [leBytes 4 tx.lockTime]

def inputWrites (tx : Transaction) : List Bytes := vecWrites TxIn.writes tx.input

def outputWrites (tx : Transaction) : List Bytes := vecWrites TxOut.writes tx.output

/-- `Transaction::consensus_encode`. -/
def consensusEncode (tx : Transaction) : List Bytes :=
  tx.versionWrites ++
    (if tx.usesSegwitSerialization then
      [[0], [1]] ++ tx.inputWrites ++ tx.outputWrites ++ tx.input.flatMap fun input => witnessWrites input.witness
    else tx.inputWrites ++ tx.outputWrites) ++ tx.lockTimeWrites

/-- `encode::serialize`. -/
def serialize (tx : Transaction) : Bytes := tx.consensusEncode.foldl (· ++ ·) []

/-- What `Transaction::compute_txid` feeds to the engine. -/
def txidPreimage (tx : Transaction) : Bytes :=
  (tx.versionWrites ++ tx.inputWrites ++ tx.outputWrites ++ tx.lockTimeWrites).foldl (· ++ ·) []

end Transaction

structure TransactionEncoding where
  serialized : Bytes
  txidEngine : Bytes

namespace TransactionEncoding

def write (encoding : TransactionEncoding) (bytes : Bytes) : TransactionEncoding :=
  ⟨encoding.serialized ++ bytes, encoding.txidEngine ++ bytes⟩

def writeAll (encoding : TransactionEncoding) (writes : List Bytes) : TransactionEncoding := writes.foldl write encoding

def writeWitness (encoding : TransactionEncoding) (input : TxIn) : TransactionEncoding :=
  { encoding with serialized := (witnessWrites input.witness).foldl (· ++ ·) encoding.serialized }

end TransactionEncoding

open TransactionEncoding

def serializeTransactionWithTxid (doubleHash : Bytes → Txid) (tx : Transaction) : Txid × Bytes :=
  let usesSegwit := tx.input.any (fun input => !input.witness.isEmpty) || tx.input.isEmpty
  let encoding := writeAll ⟨[], []⟩ tx.versionWrites
  -- The marker and the flag are no part of what the identifier is made of.
  let encoding := if usesSegwit then { encoding with serialized := encoding.serialized ++ [0, 1] } else encoding
  let encoding := (encoding.writeAll tx.inputWrites).writeAll tx.outputWrites
  let encoding := if usesSegwit then tx.input.foldl writeWitness encoding else encoding
  let encoding := encoding.writeAll tx.lockTimeWrites
  (doubleHash encoding.txidEngine, encoding.serialized)

theorem foldl_writes (start : Bytes) (writes : List Bytes) : writes.foldl (· ++ ·) start = start ++ writes.flatten := by
  induction writes generalizing start with
  | nil => simp
  | cons bytes writes ih => rw [List.foldl_cons, ih, List.flatten_cons, List.append_assoc]

theorem TransactionEncoding.writeAll_eq (encoding : TransactionEncoding) (writes : List Bytes) :
    encoding.writeAll writes = ⟨encoding.serialized ++ writes.flatten, encoding.txidEngine ++ writes.flatten⟩ := by
  unfold writeAll
  induction writes generalizing encoding with
  | nil => simp
  | cons bytes writes ih =>
    rw [List.foldl_cons, ih]
    simp [write]

theorem TransactionEncoding.foldl_writeWitness (encoding : TransactionEncoding) (inputs : List TxIn) :
    inputs.foldl writeWitness encoding = { encoding with
      serialized := encoding.serialized ++ (inputs.flatMap fun input => witnessWrites input.witness).flatten } := by
  induction inputs generalizing encoding with
  | nil => simp
  | cons input inputs ih =>
    rw [List.foldl_cons, ih]
    simp [writeWitness, foldl_writes]

/-- The combined encoder gives the serialisation and the identifier of the library for every transaction. -/
theorem combined_encoding_matches (doubleHash : Bytes → Txid) (tx : Transaction) :
    serializeTransactionWithTxid doubleHash tx = (doubleHash tx.txidPreimage, tx.serialize) := by
  unfold serializeTransactionWithTxid Transaction.txidPreimage Transaction.serialize Transaction.consensusEncode
    Transaction.usesSegwitSerialization
  rcases segwit : tx.input.any (fun input => !input.witness.isEmpty) || tx.input.isEmpty with _ | _
  · simp [writeAll_eq, foldl_writes]
  · simp [writeAll_eq, foldl_writes, foldl_writeWitness]

end BitcoindRs
