import BitcoindRs.Mempool.ChangeLog

/-!
The transactions the fee estimator counts as pending. It hears of the pool through its changes, except that confirmations
come block by block. The statistics it keeps about them are left out.
-/

namespace BitcoindRs
open Checked Result FMap

structure TrackedTransaction where
  entryHeight : ℕ
  feeRateSatPerKvb : ℕ
deriving DecidableEq, Repr

structure FeeEstimator where
  bestHeight : ℕ
  firstRecordedHeight : ℕ
  tracked : FMap Txid TrackedTransaction

namespace FeeEstimator

def trackMempoolEntry (estimator : FeeEstimator) (txid : Txid) (transaction : Transaction) (feeSat vsize height : ℕ) :
    FeeEstimator :=
  if vsize = 0 ∨ height ≠ estimator.bestHeight ∨ (estimator.tracked.lookup txid).isSome then estimator
  else
    let feeRate := feeSat * 1000 / vsize
    if feeRate = 0 ∨ transaction.isCoinbase then estimator
    else { estimator with tracked := estimator.tracked.insert txid ⟨height, feeRate⟩ }

def removeFromMempool (estimator : FeeEstimator) (txid : Txid) : FeeEstimator :=
  { estimator with tracked := estimator.tracked.erase txid }

def confirm (state : FMap Txid TrackedTransaction × ℕ) (txid : Txid) : FMap Txid TrackedTransaction × ℕ :=
  match state.1.lookup txid with
  | none => state
  | some _ => (state.1.erase txid, satAddU32 state.2 1)

def processBlock (estimator : FeeEstimator) (height : ℕ) (confirmed : List Txid) : FeeEstimator :=
  if height ≤ estimator.bestHeight then estimator
  else
    let (tracked, counted) := confirmed.foldl confirm (estimator.tracked, 0)
    { bestHeight := height
      firstRecordedHeight := if estimator.firstRecordedHeight = 0 ∧ 0 < counted then height
        else estimator.firstRecordedHeight
      tracked }

def processBlocks (estimator : FeeEstimator) (blocks : List (ℕ × List Txid)) : FeeEstimator :=
  blocks.foldl (fun estimator block => estimator.processBlock block.1 block.2) estimator

/-- The transactions of the blocks that are above the best height when their turn comes. -/
def processed : ℕ → List (ℕ × List Txid) → List Txid
  | _, [] => []
  | best, (height, confirmed) :: rest =>
    if height ≤ best then processed best rest else confirmed ++ processed height rest

def tracks (estimator : FeeEstimator) (txid : Txid) : Prop := estimator.tracked.lookup txid ≠ none

theorem lookup_confirm (confirmed : List Txid) (state : FMap Txid TrackedTransaction × ℕ) (txid : Txid) :
    (confirmed.foldl confirm state).1.lookup txid = if txid ∈ confirmed then none else state.1.lookup txid := by
  induction confirmed generalizing state with
  | nil => simp
  | cons first rest ih =>
    rw [List.foldl_cons, ih]
    unfold confirm
    rcases found : state.1.lookup first with _ | tracked
    · by_cases same : txid = first
      · subst same
        simp [found]
      · simp [same]
    · dsimp only
      rw [lookup_erase_ite]
      by_cases same : txid = first <;> simp [same]

theorem tracks_processBlocks (blocks : List (ℕ × List Txid)) (estimator : FeeEstimator) (txid : Txid) :
    (estimator.processBlocks blocks).tracks txid ↔
      estimator.tracks txid ∧ txid ∉ processed estimator.bestHeight blocks := by
  induction blocks generalizing estimator with
  | nil => simp [processBlocks, processed]
  | cons block rest ih =>
    obtain ⟨height, confirmed⟩ := block
    show (processBlocks (estimator.processBlock height confirmed) rest).tracks txid ↔ _
    rw [ih, processed]
    by_cases early : height ≤ estimator.bestHeight
    · rw [if_pos early, processBlock, if_pos early]
    · rw [if_neg early, processBlock, if_neg early]
      dsimp only
      rw [tracks, tracks, lookup_confirm, List.mem_append, not_or]
      by_cases listed : txid ∈ confirmed <;> simp [listed]

end FeeEstimator

namespace Mempool
variable [Library]
variable {txid : Txid} {pool : Mempool} {excluded : Finset Txid}

def hasMempoolParent (pool : Mempool) (transaction : Transaction) : Bool :=
  transaction.input.any fun input => (pool.entries.lookup input.previousOutput.txid).isSome

/-- One change; removals by a block are left to `process_block`. -/
def tellEstimator (pool : Mempool) (excluded : Finset Txid) (estimator : FeeEstimator) (change : MempoolChange) :
    FeeEstimator :=
  let txid := change.transaction.computeTxid
  match change.kind with
  | .added =>
    if txid ∈ excluded then estimator
    else match pool.entries.lookup txid with
      | none => estimator
      | some entry =>
        if pool.hasMempoolParent entry.transaction then estimator
        else estimator.trackMempoolEntry txid entry.transaction entry.feeSat entry.vsize entry.height
  | .removed true => estimator.removeFromMempool txid
  | .removed false => estimator

def updateFeeEstimatorForChangesExcept (pool : Mempool) (estimator : FeeEstimator) (changes : List MempoolChange)
    (excluded : Finset Txid) : FeeEstimator :=
  changes.foldl (pool.tellEstimator excluded) estimator

/-- Whether the changes announce that a transaction has been removed. -/
def announcesRemoval (changes : List MempoolChange) (txid : Txid) : Prop :=
  ∃ change ∈ changes, change.transaction.computeTxid = txid ∧ change.kind = .removed true

omit [Library] in
theorem tracks_trackMempoolEntry {estimator : FeeEstimator} {key : Txid} {transaction : Transaction}
    {feeSat vsize height : ℕ} (other : txid ≠ key) :
    (estimator.trackMempoolEntry key transaction feeSat vsize height).tracks txid ↔ estimator.tracks txid := by
  unfold FeeEstimator.trackMempoolEntry
  split
  · rfl
  · dsimp only
    split
    · rfl
    · rw [FeeEstimator.tracks, lookup_insert_ite, if_neg other]
      rfl

theorem tracks_tellEstimator (absent : pool.entries.lookup txid = none)
    (estimator : FeeEstimator) (change : MempoolChange) :
    (pool.tellEstimator excluded estimator change).tracks txid ↔
      estimator.tracks txid ∧ ¬(change.transaction.computeTxid = txid ∧ change.kind = .removed true) := by
  unfold tellEstimator
  dsimp only
  rcases kind : change.kind with _ | notify
  · simp only [reduceCtorEq, and_false, not_false_eq_true, and_true]
    split
    · rfl
    · split
      · rfl
      · rename_i entry found
        have other : txid ≠ change.transaction.computeTxid := by
          intro same
          rw [← same, absent] at found
          cases found
        split
        · rfl
        · exact tracks_trackMempoolEntry other
  · cases notify with
    | false => simp
    | true =>
      dsimp only
      rw [FeeEstimator.removeFromMempool, FeeEstimator.tracks, lookup_erase_ite, FeeEstimator.tracks]
      by_cases same : txid = change.transaction.computeTxid
      · simp [same]
      · simp [same, Ne.symm same]

theorem tracks_updateFeeEstimator
    (absent : pool.entries.lookup txid = none) (changes : List MempoolChange) (estimator : FeeEstimator) :
    (pool.updateFeeEstimatorForChangesExcept estimator changes excluded).tracks txid ↔
      estimator.tracks txid ∧ ¬announcesRemoval changes txid := by
  induction changes generalizing estimator with
  | nil => simp [updateFeeEstimatorForChangesExcept, announcesRemoval]
  | cons change changes ih =>
    show (pool.updateFeeEstimatorForChangesExcept (pool.tellEstimator excluded estimator change) changes excluded).tracks txid ↔ _
    rw [ih, tracks_tellEstimator absent, and_assoc]
    simp only [announcesRemoval, List.mem_cons, exists_eq_or_imp, not_or]

variable [PolicyLibrary] [HashOrder ℕ]

def blockChanges (now : ℕ) : Mempool → List Block → List (Block × List MempoolChange)
  | _, [] => []
  | pool, block :: rest =>
    let taken := ((pool.removeConflicts block).removeConfirmed now block).takeChanges
    (block, taken.1) :: blockChanges now taken.2 rest

omit [PolicyLibrary] [HashOrder ℕ] in
def confirmedIn (changes : List MempoolChange) : List Txid :=
  (silentRemovals changes).map (·.transaction.computeTxid)

/-- What the estimator is told about the blocks that are in the index. -/
def feeBlockChanges (heightOf : BlockHash → Option ℕ) (now : ℕ) (pool : Mempool) (blocks : List Block) :
    List (ℕ × List Txid) :=
  (blockChanges now pool blocks).filterMap fun (block, changes) =>
    (heightOf block.blockHash).map fun height => (height, confirmedIn changes)

def beforeBlocks (pool : Mempool) (disconnected : List Block) (manualInvalidation : Bool) : Mempool :=
  if manualInvalidation then pool else (disconnected.reverse.foldl queueDisconnected (pool, {})).1

def beforeRestore (pool : Mempool) (now : ℕ) (activated disconnected : List Block) (manualInvalidation : Bool) :
    Mempool × DisconnectedTransactionPool :=
  if manualInvalidation then
    let queued := (disconnected.reverse.take 10).foldl queueDisconnected
      ((activated.foldl (connectBlock now) (pool, [])).1, {})
    (queued.1.removeDisconnected (disconnected.reverse.drop 10),
      activated.foldl DisconnectedTransactionPool.removeForBlock queued.2)
  else
    let queued := disconnected.reverse.foldl queueDisconnected (pool, {})
    ((activated.foldl (connectBlock now) (queued.1, [])).1,
      activated.foldl DisconnectedTransactionPool.removeForBlock queued.2)

def restoredTxids (view : ChainView) (now : ℕ) (pool : Mempool) (queue : DisconnectedTransactionPool) : Finset Txid :=
  ((queue.takeOldestFirst.filter fun tx => tx.isCoinbase = false).foldl (fun state tx =>
    match state.1.acceptReorg view now tx now with
    | (.ok txid, pool) => (pool, insert txid state.2)
    | (.error _, pool) => (pool, state.2)) (pool, (∅ : Finset Txid))).2

theorem connectBlocks_handed (now : ℕ) (blocks : List Block) (pool : Mempool) (earlier : List MempoolChange) :
    (blocks.foldl (connectBlock now) (pool, earlier)).2 = earlier ++ (blockChanges now pool blocks).flatMap Prod.snd := by
  induction blocks generalizing pool earlier with
  | nil => exact (List.append_nil _).symm
  | cons block rest ih =>
    rw [List.foldl_cons, blockChanges, List.flatMap_cons, ← List.append_assoc]
    exact ih _ _

theorem reconcileBlocks_eq (pool : Mempool) (view : ChainView) (now : ℕ) (activated disconnected : List Block)
    (manualInvalidation : Bool) :
    pool.reconcileBlocks view now activated disconnected manualInvalidation =
      (restore view now (pool.beforeRestore now activated disconnected manualInvalidation).1
          (pool.beforeRestore now activated disconnected manualInvalidation).2,
        (blockChanges now (pool.beforeBlocks disconnected manualInvalidation) activated).flatMap Prod.snd) := by
  unfold reconcileBlocks beforeRestore beforeBlocks
  cases manualInvalidation with
  | true => exact Prod.ext rfl (connectBlocks_handed now activated pool [])
  | false => exact Prod.ext rfl (connectBlocks_handed now activated _ [])

end Mempool

end BitcoindRs
