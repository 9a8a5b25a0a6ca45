import BitcoindRs.Mempool.Graph
import BitcoindRs.Data.Multimap

/-! Entering an entry into the indexes of the pool and taking it out of them. -/

namespace BitcoindRs
open Checked
variable [Library] [PolicyLibrary]

/-- Saturating sums and products of naturals are the exact value cut off at the largest one. -/
def usize (n : ℕ) : ℕ := min n usizeMax

def sizeOfUsize : ℕ := 8
def sizeOfTxid : ℕ := 32
def sizeOfOutPoint : ℕ := 36
def sizeOfTransaction : ℕ := 56
def sizeOfTxIn : ℕ := 104
def sizeOfTxOut : ℕ := 32
def sizeOfMempoolEntry : ℕ := 88
def sizeOfString : ℕ := 24
def sizeOfVec : ℕ := 24
def sizeOfHashSet : ℕ := 48
def sizeOfStringU64 : ℕ := 32
def indexNodeBytes : ℕ := sizeOfUsize * 3
def scriptHashCapacity : ℕ := 64

def transactionDynamicMemoryUsage (tx : Transaction) : ℕ :=
  let witness (input : TxIn) : ℕ := PolicyLibrary.collectedCapacity input.witness.length * (sizeOfUsize * 3) +
    (input.witness.map List.length).sum
  usize (sizeOfTransaction + tx.input.length * sizeOfTxIn + tx.output.length * sizeOfTxOut +
    (tx.input.map fun input => input.scriptSig.length + witness input).sum +
    (tx.output.map fun output => output.scriptPubkey.length).sum)

def mempoolEntryMemoryUsage (tx : Transaction) : ℕ :=
  usize (transactionDynamicMemoryUsage tx + sizeOfMempoolEntry + sizeOfUsize * 9 + indexNodeBytes * 4 +
    tx.input.length * (sizeOfOutPoint + sizeOfTxid + indexNodeBytes * 2))

def scriptHashesForTransaction (tx : Transaction) (previousOutputs : List TxOut) : List ScriptHash :=
  (((tx.output ++ previousOutputs).map fun output => PolicyLibrary.electrumScriptHash output.scriptPubkey).insertionSort
    (· ≤ ·)).dedup

def inputScriptValuesForTransaction (tx : Transaction) (previousOutputs : List TxOut) : List (ScriptHash × ℕ) :=
  (tx.input.zip previousOutputs).map fun (_, output) => (PolicyLibrary.electrumScriptHash output.scriptPubkey, output.value)

def scripthashIndexMemoryUsage (scripts : List ScriptHash) (inputScriptValues : List (ScriptHash × ℕ)) : ℕ :=
  usize (sizeOfTxid + sizeOfVec + indexNodeBytes + scripts.length * (sizeOfString + scriptHashCapacity) +
    sizeOfTxid + sizeOfVec + indexNodeBytes + inputScriptValues.length * (sizeOfStringU64 + scriptHashCapacity) +
    scripts.length * (sizeOfString + scriptHashCapacity + indexNodeBytes + sizeOfHashSet + indexNodeBytes + sizeOfTxid))

namespace Mempool

def scripthashIndexMemoryUsageFor (pool : Mempool) (txid : Txid) : ℕ :=
  if pool.electrumIndexEnabled = false then 0
  else match pool.scriptsByTransaction.lookup txid with
    | none => 0
    | some scripts => scripthashIndexMemoryUsage scripts ((pool.inputScriptValuesByTransaction.lookup txid).getD [])

def dynamicMemoryUsage (pool : Mempool) : ℕ :=
  usize (pool.memoryUsage + pool.priorities.keys.card * (sizeOfTxid + 8 + indexNodeBytes) +
    pool.unbroadcast.card * (sizeOfTxid + indexNodeBytes))

def adjustedWeight (pool : Mempool) (txid : Txid) : ℕ :=
  ((pool.adjustedWeights.lookup txid).or ((pool.entries.lookup txid).map (·.transaction.weight))).getD 0

def indexTransactionScripts (pool : Mempool) (txid : Txid) (scripts : List ScriptHash)
    (inputScriptValues : List (ScriptHash × ℕ)) : Mempool :=
  if pool.electrumIndexEnabled = false then pool
  else { pool with
    transactionsByScript := scripts.foldl (fun m script => m.record script txid) pool.transactionsByScript
    scriptsByTransaction := pool.scriptsByTransaction.insert txid scripts
    inputScriptValuesByTransaction := pool.inputScriptValuesByTransaction.insert txid inputScriptValues }

structure Candidate where
  entry : MempoolEntry
  adjustedWeight : ℕ
  affectedScripts : List ScriptHash
  inputScriptValues : List (ScriptHash × ℕ)
  memoryUsage : ℕ

def insertEntry (pool : Mempool) (candidate : Candidate) (recordSequence : Bool) : Mempool :=
  let tx := candidate.entry.transaction
  let txid := tx.computeTxid
  let linked := { pool with
    spent := tx.prevouts.foldl (fun m outpoint => m.insert outpoint txid) pool.spent
    childIndex := (tx.inputTxids.filter pool.contains).foldl (fun m parent => m.record parent txid) pool.childIndex
    memoryUsage := satAddU64 pool.memoryUsage candidate.memoryUsage
    bytes := pool.bytes + tx.totalSize
    vbytes := satAddU64 pool.vbytes candidate.entry.vsize
    entries := pool.entries.insert txid candidate.entry }
  let indexed := linked.indexTransactionScripts txid candidate.affectedScripts candidate.inputScriptValues
  let entered := { indexed with
    adjustedWeights := indexed.adjustedWeights.insert txid candidate.adjustedWeight
    wtxids := indexed.wtxids.insert tx.computeWtxid txid
    relaySequences := indexed.relaySequences.insert txid indexed.sequence }
  if recordSequence then { entered with
    sequence := satAddU64 entered.sequence 1
    changes := entered.changes ++ [⟨tx, entered.sequence, .added, some candidate.affectedScripts⟩] }
  else entered

section
omit [PolicyLibrary]

theorem insertEntry_eq (pool : Mempool) (candidate : Candidate) (recordSequence : Bool) :
    let tx := candidate.entry.transaction
    let txid := tx.computeTxid
    pool.insertEntry candidate recordSequence = { pool with
      spent := tx.prevouts.foldl (fun m outpoint => m.insert outpoint txid) pool.spent
      childIndex := (tx.inputTxids.filter pool.contains).foldl (fun m parent => m.record parent txid) pool.childIndex
      memoryUsage := satAddU64 pool.memoryUsage candidate.memoryUsage
      bytes := pool.bytes + tx.totalSize
      vbytes := satAddU64 pool.vbytes candidate.entry.vsize
      entries := pool.entries.insert txid candidate.entry
      transactionsByScript := (if pool.electrumIndexEnabled then candidate.affectedScripts else []).foldl
        (fun m script => m.record script txid) pool.transactionsByScript
      scriptsByTransaction := if pool.electrumIndexEnabled then pool.scriptsByTransaction.insert txid candidate.affectedScripts
        else pool.scriptsByTransaction
      inputScriptValuesByTransaction := if pool.electrumIndexEnabled
        then pool.inputScriptValuesByTransaction.insert txid candidate.inputScriptValues else pool.inputScriptValuesByTransaction
      adjustedWeights := pool.adjustedWeights.insert txid candidate.adjustedWeight
      wtxids := pool.wtxids.insert tx.computeWtxid txid
      relaySequences := pool.relaySequences.insert txid pool.sequence
      sequence := if recordSequence then satAddU64 pool.sequence 1 else pool.sequence
      changes := pool.changes ++ (if recordSequence then [⟨tx, pool.sequence, .added, some candidate.affectedScripts⟩] else []) } := by
  unfold insertEntry indexTransactionScripts
  cases pool.electrumIndexEnabled <;> cases recordSequence <;> simp

theorem entries_insertEntry (pool : Mempool) (candidate : Candidate) (recordSequence : Bool) :
    (pool.insertEntry candidate recordSequence).entries =
      pool.entries.insert candidate.entry.transaction.computeTxid candidate.entry := by
  rw [insertEntry_eq]

theorem contains_insertEntry (pool : Mempool) (candidate : Candidate) (recordSequence : Bool) (txid : Txid) :
    (pool.insertEntry candidate recordSequence).contains txid = true ↔
      txid = candidate.entry.transaction.computeTxid ∨ pool.contains txid = true := by
  rw [contains, contains, entries_insertEntry, FMap.lookup_insert_ite]
  by_cases same : txid = candidate.entry.transaction.computeTxid <;> simp [same]

end

def recordRemoval (pool : Mempool) (tx : Transaction) (notifyZmq : Bool) (affected : Option (List ScriptHash)) : Mempool :=
  { pool with
    sequence := satAddU64 pool.sequence 1
    changes := pool.changes ++ [⟨tx, pool.sequence, .removed notifyZmq, affected⟩] }

def removeTransactionScripts (pool : Mempool) (txid : Txid) : Mempool :=
  let pool := { pool with inputScriptValuesByTransaction := pool.inputScriptValuesByTransaction.erase txid }
  match pool.scriptsByTransaction.lookup txid with
  | none => pool
  | some scripts => { pool with
      scriptsByTransaction := pool.scriptsByTransaction.erase txid
      transactionsByScript := scripts.foldl (fun m script => m.discard script txid) pool.transactionsByScript }

def removeWithNotification (pool : Mempool) (txid : Txid) (notifyZmq : Bool) : Mempool :=
  match pool.entries.lookup txid with
  | none => pool
  | some entry =>
    let indexMemoryUsage := pool.scripthashIndexMemoryUsageFor txid
    let affected := pool.scriptsByTransaction.lookup txid
    let tx := entry.transaction
    let unindexed := { pool with entries := pool.entries.erase txid }.removeTransactionScripts txid
    recordRemoval { unindexed with
      adjustedWeights := unindexed.adjustedWeights.erase txid
      unbroadcast := unindexed.unbroadcast.erase txid
      wtxids := unindexed.wtxids.erase tx.computeWtxid
      relaySequences := unindexed.relaySequences.erase txid
      memoryUsage := unindexed.memoryUsage - usize (mempoolEntryMemoryUsage tx + indexMemoryUsage)
      bytes := unindexed.bytes - tx.totalSize
      vbytes := unindexed.vbytes - entry.vsize
      spent := unindexed.spent.eraseAll tx.prevouts
      childIndex := (tx.inputTxids.foldl (fun m parent => m.discard parent txid) unindexed.childIndex).erase txid }
      tx notifyZmq affected

def remove (pool : Mempool) (txid : Txid) : Mempool := pool.removeWithNotification txid true

def removeAll (pool : Mempool) (ids : List Txid) : Mempool := ids.foldl remove pool

variable [HashOrder ℕ]

def removeRecursive (pool : Mempool) (txid : Txid) : Mempool :=
  (pool.removeAll (pool.descendants txid).reverse).remove txid

def rebuildChildrenIndex (pool : Mempool) : Mempool :=
  { pool with childIndex := pool.entries.toList.foldl (fun m (txid, entry) =>
      (entry.transaction.inputTxids.filter pool.contains).foldl (fun m parent => m.record parent txid) m) ∅ }

def prioritise (pool : Mempool) (txid : Txid) (feeDelta : ℤ) : Mempool :=
  let delta := satI64 (pool.feeDelta txid + feeDelta)
  { pool with priorities := if delta = 0 then pool.priorities.erase txid else pool.priorities.insert txid delta }

def addUnbroadcast (pool : Mempool) (txid : Txid) : Mempool :=
  if pool.contains txid then { pool with unbroadcast := insert txid pool.unbroadcast } else pool

def removeUnbroadcast (pool : Mempool) (txid : Txid) : Mempool := { pool with unbroadcast := pool.unbroadcast.erase txid }

def setMaxBytes (pool : Mempool) (maxBytes : ℕ) : Mempool := { pool with maxBytes := max maxBytes 1 }

def takeChanges (pool : Mempool) : List MempoolChange × Mempool := (pool.changes, { pool with changes := [] })

def new (policy : MempoolPolicy) (maxBytes : ℕ) (electrumIndexEnabled : Bool) (now : ℕ) : Mempool where
  policy
  maxBytes := max maxBytes 1
  electrumIndexEnabled
  memoryUsage := 0
  bytes := 0
  vbytes := 0
  rollingMinFeeSatPerKvb := PolicyLibrary.ofU64 0
  rollingFeeLastUpdated := now
  blockSinceLastRollingFeeBump := false
  sequence := 1
  entries := ∅
  adjustedWeights := ∅
  spent := ∅
  childIndex := ∅
  transactionsByScript := ∅
  scriptsByTransaction := ∅
  inputScriptValuesByTransaction := ∅
  wtxids := ∅
  priorities := ∅
  unbroadcast := ∅
  relaySequences := ∅
  changes := []

end Mempool

def sampleView (coins : List (OutPoint × UtxoEntry)) : ChainView :=
  ⟨.regtest, 200, 0, FMap.insertAll ∅ coins, none, fun _ _ => .ok ()⟩

def sampleOldCoin (txid vout value : ℕ) : OutPoint × UtxoEntry := (⟨txid, vout⟩, ⟨⟨value, [0x51]⟩, 1, 0, false⟩)

def samplePool (policy : MempoolPolicy) (maxBytes : ℕ) : Mempool :=
  letI := PolicyLibrary.sample
  Mempool.new policy maxBytes false 0

end BitcoindRs
