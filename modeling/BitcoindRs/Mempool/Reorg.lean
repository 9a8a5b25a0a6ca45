import BitcoindRs.Mempool.Replace

/-! What the pool does when the chain changes, the other ways out of it, loading, and the check of its indexes. -/

namespace BitcoindRs
open Checked Result
variable [Library] [PolicyLibrary] [HashOrder ℕ]

namespace Mempool

def acceptAt (pool : Mempool) (view : ChainView) (now : ℕ) (tx : Transaction) (addedAt : ℕ) : Except MempoolError Txid × Mempool :=
  pool.acceptAtWithOptions view now tx addedAt true true

def acceptReorg (pool : Mempool) (view : ChainView) (now : ℕ) (tx : Transaction) (addedAt : ℕ) : Except MempoolError Txid × Mempool :=
  match pool.acceptAtWithSequence view now tx addedAt ⟨false, true, false, false, true, false, false, false⟩ with
  | (.error error, pool) => (.error error, pool)
  | (.ok txid, pool) => (.ok txid, { pool with relaySequences := pool.relaySequences.insert txid 0 })

def acceptAtWithoutSequence (pool : Mempool) (view : ChainView) (now : ℕ) (tx : Transaction) (addedAt : ℕ) :
    Except MempoolError Txid × Mempool :=
  pool.acceptAtWithSequence view now tx addedAt ⟨false, false, false, true, false, false, false, true⟩

def removeConfirmed (pool : Mempool) (now : ℕ) (block : Block) : Mempool :=
  let removed := block.txdata.foldl (fun pool tx =>
    let pool := pool.removeWithNotification tx.computeTxid false
    { pool with priorities := pool.priorities.erase tx.computeTxid }) pool
  { removed with rollingFeeLastUpdated := now, blockSinceLastRollingFeeBump := true }

def blockConflicts (pool : Mempool) (block : Block) : List Txid :=
  (block.txdata.flatMap fun tx =>
    (tx.prevouts.filterMap pool.spent.lookup).filter (· ≠ tx.computeTxid)).eraseDups

def removeConflicts (pool : Mempool) (block : Block) : Mempool := (pool.blockConflicts block).foldl removeRecursive pool

def minable (pool : Mempool) (view : ChainView) (tx : Transaction) : Bool :=
  match tx.prevouts.mapM (pool.previousEntry view) with
  | .error _ => false
  | .ok previousEntries =>
    (validateTransactionFinality tx (satAddU32 view.servingHeight 1) view.servingMedianTimePast true previousEntries).isOk

def removeForReorg (pool : Mempool) (view : ChainView) : Mempool :=
  let toRemove := (HashOrder.elements pool.entries.keys).filter fun txid =>
    (pool.entries.lookup txid).any fun entry => !pool.minable view entry.transaction
  toRemove.foldl (fun pool txid => if pool.contains txid then pool.removeRecursive txid else pool) pool

def clearExpired (pool : Mempool) (now age : ℕ) : Mempool :=
  ((HashOrder.elements pool.entries.keys).filter fun txid =>
    (pool.entries.lookup txid).any fun entry => entry.addedAt < now - age).foldl removeRecursive pool

def emptied (pool : Mempool) : Mempool :=
  { pool with
    entries := ∅, adjustedWeights := ∅, spent := ∅, childIndex := ∅, transactionsByScript := ∅, scriptsByTransaction := ∅
    inputScriptValuesByTransaction := ∅, wtxids := ∅, relaySequences := ∅, memoryUsage := 0, bytes := 0, vbytes := 0
    unbroadcast := ∅ }

def revalidateEntry (old : Mempool) (view : ChainView) (now : ℕ) (pool : Mempool) (entry : MempoolEntry) : Mempool :=
  let tx := entry.transaction
  match pool.acceptAtWithoutSequence view now tx entry.addedAt with
  | (.error _, pool) => pool.recordRemoval tx true none
  | (.ok txid, pool) =>
    { pool with
      relaySequences := match old.relaySequences.lookup txid with
        | some sequence => pool.relaySequences.insert txid sequence
        | none => pool.relaySequences
      unbroadcast := if txid ∈ old.unbroadcast then insert txid pool.unbroadcast else pool.unbroadcast }

def revalidate (pool : Mempool) (view : ChainView) (now : ℕ) : Mempool :=
  let order := Tour.order (fun txid => sortTxids (pool.entryInputs txid)) (sortTxids (HashOrder.elements pool.entries.keys))
  ((order.filterMap pool.entries.lookup).foldl (pool.revalidateEntry view now) pool.emptied).rebuildChildrenIndex

structure SavedEntry where
  transaction : Transaction
  addedAt : ℕ
  feeDelta : ℤ

structure MempoolLoadOptions where
  useCurrentTime : Bool := false
  applyFeeDeltaPriority : Bool := true
  applyUnbroadcastSet : Bool := true

/-- Priorities come back before the transaction does, so that they count for its fee rate. -/
def prioritiseSaved (options : MempoolLoadOptions) (pool : Mempool) (saved : SavedEntry) : Mempool :=
  if options.applyFeeDeltaPriority ∧ saved.feeDelta ≠ 0 then pool.prioritise saved.transaction.computeTxid saved.feeDelta else pool

def loadEntry (view : ChainView) (now expiry : ℕ) (options : MempoolLoadOptions) (pool : Mempool) (saved : SavedEntry) : Mempool :=
  let addedAt := if options.useCurrentTime then now else saved.addedAt
  if now - expiry < addedAt then ((prioritiseSaved options pool saved).acceptAt view now saved.transaction addedAt).2
  else prioritiseSaved options pool saved

def prioritiseAll (pool : Mempool) (deltas : List (Txid × ℤ)) : Mempool :=
  deltas.foldl (fun pool delta => pool.prioritise delta.1 delta.2) pool

/-- `load_from_file_with_expiry_and_options` once the file is decoded. -/
def load (pool : Mempool) (view : ChainView) (now expiry : ℕ) (options : MempoolLoadOptions) (saved : List SavedEntry)
    (deltas : List (Txid × ℤ)) (unbroadcast : List Txid) : Mempool :=
  let admitted := saved.foldl (loadEntry view now expiry options) pool
  let prioritised := admitted.prioritiseAll (if options.applyFeeDeltaPriority then deltas else [])
  ((if options.applyUnbroadcastSet then unbroadcast else []).foldl addUnbroadcast prioritised).rebuildChildrenIndex

end Mempool

def maxDisconnectedTxPoolBytes : ℕ := 20000000

def disconnectedTransactionMemoryUsage (tx : Transaction) : ℕ :=
  usize (transactionDynamicMemoryUsage tx + sizeOfTxid + sizeOfUsize * 4)

structure DisconnectedTransactionPool where
  transactions : List Transaction := []
  txids : Finset Txid := ∅
  memoryUsage : ℕ := 0

namespace DisconnectedTransactionPool

def queue (pool : DisconnectedTransactionPool) (tx : Transaction) : DisconnectedTransactionPool :=
  if tx.computeTxid ∈ pool.txids then pool
  else ⟨pool.transactions ++ [tx], insert tx.computeTxid pool.txids,
    usize (pool.memoryUsage + disconnectedTransactionMemoryUsage tx)⟩

def trim : List Transaction → Finset Txid → ℕ → List Transaction × DisconnectedTransactionPool
  | [], txids, memoryUsage => ([], ⟨[], txids, memoryUsage⟩)
  | tx :: rest, txids, memoryUsage =>
    if memoryUsage ≤ maxDisconnectedTxPoolBytes then ([], ⟨tx :: rest, txids, memoryUsage⟩)
    else
      let (evicted, pool) := trim rest (txids.erase tx.computeTxid) (memoryUsage - disconnectedTransactionMemoryUsage tx)
      (tx :: evicted, pool)

def addBlock (pool : DisconnectedTransactionPool) (block : Block) : List Transaction × DisconnectedTransactionPool :=
  let queued := block.txdata.reverse.foldl queue pool
  trim queued.transactions queued.txids queued.memoryUsage

def removeTransaction (pool : DisconnectedTransactionPool) (tx : Transaction) : DisconnectedTransactionPool :=
  if tx.computeTxid ∈ pool.txids then
    let txids := pool.txids.erase tx.computeTxid
    match pool.transactions.find? (·.computeTxid = tx.computeTxid) with
    | none => { pool with txids }
    | some removed => ⟨pool.transactions.eraseP (·.computeTxid = tx.computeTxid), txids,
        pool.memoryUsage - disconnectedTransactionMemoryUsage removed⟩
  else pool

def removeForBlock (pool : DisconnectedTransactionPool) (block : Block) : DisconnectedTransactionPool :=
  block.txdata.foldl removeTransaction pool

def takeOldestFirst (pool : DisconnectedTransactionPool) : List Transaction := pool.transactions.reverse

end DisconnectedTransactionPool

namespace Mempool

def removeTransactions (pool : Mempool) (transactions : List Transaction) : Mempool :=
  transactions.foldl (fun pool tx => pool.removeRecursive tx.computeTxid) pool

/-- What the queue of disconnected transactions drops is dropped from the pool as well. -/
def queueDisconnected (state : Mempool × DisconnectedTransactionPool) (block : Block) : Mempool × DisconnectedTransactionPool :=
  (state.1.removeTransactions (state.2.addBlock block).1, (state.2.addBlock block).2)

def connectBlock (now : ℕ) (state : Mempool × List MempoolChange) (block : Block) : Mempool × List MempoolChange :=
  let taken := ((state.1.removeConflicts block).removeConfirmed now block).takeChanges
  (taken.2, state.2 ++ taken.1)

/-- Blocks that are too deep for their transactions to come back. -/
def removeDisconnected (pool : Mempool) (blocks : List Block) : Mempool :=
  blocks.foldl (fun pool block => pool.removeTransactions block.txdata) pool

def restore (view : ChainView) (now : ℕ) (pool : Mempool) (queue : DisconnectedTransactionPool) : Mempool :=
  (queue.takeOldestFirst.filter fun tx => tx.isCoinbase = false).foldl (fun pool tx => (pool.acceptReorg view now tx now).2) pool

/-- The pool before the indexes are rebuilt, for a reorganisation. -/
def reconcileReorg (pool : Mempool) (view : ChainView) (now : ℕ) (activated disconnected : List Block) :
    Mempool × List MempoolChange :=
  let queued := disconnected.reverse.foldl queueDisconnected (pool, {})
  let connected := activated.foldl (connectBlock now) (queued.1, [])
  (restore view now connected.1 (activated.foldl DisconnectedTransactionPool.removeForBlock queued.2), connected.2)

/-- The pool before the indexes are rebuilt, for an invalidation by hand. -/
def reconcileInvalidation (pool : Mempool) (view : ChainView) (now : ℕ) (activated disconnected : List Block) :
    Mempool × List MempoolChange :=
  let connected := activated.foldl (connectBlock now) (pool, [])
  let queued := (disconnected.reverse.take 10).foldl queueDisconnected (connected.1, {})
  let cleared := queued.1.removeDisconnected (disconnected.reverse.drop 10)
  (restore view now cleared (activated.foldl DisconnectedTransactionPool.removeForBlock queued.2), connected.2)

def reconcileBlocks (pool : Mempool) (view : ChainView) (now : ℕ) (activated disconnected : List Block) (manualInvalidation : Bool) :
    Mempool × List MempoolChange :=
  if manualInvalidation then pool.reconcileInvalidation view now activated disconnected
  else pool.reconcileReorg view now activated disconnected

/-- `reconcile_mempool_after_chain_change`. The second part of the result is what `take_changes` handed over on the way. -/
def reconcile (pool : Mempool) (view : ChainView) (now : ℕ) (activated disconnected : List Block) (manualInvalidation : Bool) :
    Mempool × List MempoolChange :=
  let moved := pool.reconcileBlocks view now activated disconnected manualInvalidation
  let taken := ((moved.1.rebuildChildrenIndex.removeForReorg view).enforceSizeLimit).takeChanges
  (taken.2, moved.2 ++ taken.1)

end Mempool

end BitcoindRs
