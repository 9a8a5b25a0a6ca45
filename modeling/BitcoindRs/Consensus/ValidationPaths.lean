import BitcoindRs.Consensus.Streaming

/-!
The paths on which the scripts of a block are checked: after the transaction loop on any number of threads, by workers
during the loop, or not at all below an assumed-valid block.
-/

namespace BitcoindRs
open Result Checked
variable [Library]

/-- The checks before the transaction loop, and the accumulators it starts with. -/
def beginBlock (rules : BlockRules) (block : Block) (transactionIds : List Txid) (height : ℕ) (utxos : UtxoMap)
    (medianTimePast : ℕ) : Except Error (Transaction × BlockProgress) := do
  let ctx := blockContext rules block height medianTimePast
  bailIf (transactionIds.length ≠ block.txdata.length) (.message "cached transaction ID count does not match block")
  checkShutdownInterrupt rules
  runIf rules.enforceBip30 (validation (validateBip30 block transactionIds utxos))
  let coinbase ← okOr block.txdata.head? (.message "index out of bounds")
  validation (validateTransactionAbsoluteFinality coinbase height ctx.lockTimeCutoff)
  runIf rules.reducedDataActivationHeight.isSome (validation (validateReducedDataOutputSizes coinbase))
  let sigopCost := transactionSigopCost coinbase [] ctx.sigopFlags
  bailIf (maxBlockSigopCost < sigopCost) (.validation .tooManySigopsInConnect)
  .ok (coinbase, ⟨[], ∅, ∅, ∅, 0, ⟨0, 0, 0, 0, 0, blockSubsidyForNetwork rules.params.network height⟩, sigopCost, []⟩)

def finishBlock (rules : BlockRules) (block : Block) (height : ℕ) (coinbase : Transaction) (done : BlockProgress) :
    Except Error BlockApplication := do
  checkShutdownInterrupt rules
  let subsidy := blockSubsidyForNetwork rules.params.network height
  let allowedCoinbase ← okOr (addU64 subsidy done.totalFees) (.message "subsidy plus bounded fees fits in u64")
  let actualCoinbase ← okOr (sumU64 (coinbase.output.map (·.value))) (.validation .outputTotalOverflow)
  bailIf (allowedCoinbase < actualCoinbase) (.validation (.coinbaseOverpay actualCoinbase allowedCoinbase))
  .ok ⟨done.spentEntries, done.spent, done.created, done.sameBlockSpent,
    coinbaseMetrics (isBip30Unspendable rules.params.network height block.blockHash) coinbase done.metrics⟩

theorem validateBlockTransactions_eq (rules : BlockRules) (block : Block) (transactionIds : List Txid) (height : ℕ)
    (utxos : UtxoMap) (medianTimePast : ℕ) :
    validateBlockTransactions rules block transactionIds height utxos medianTimePast =
      (beginBlock rules block transactionIds height utxos medianTimePast >>= fun (coinbase, initial) =>
        ((block.txdata.zip transactionIds).drop 1).foldlM
          (processTransaction (blockContext rules block height medianTimePast) utxos) initial >>= fun done =>
        runIf (!rules.skipScriptChecks)
          (validation (validateScriptChecks (blockContext rules block height medianTimePast) done.scriptJobs)) >>= fun _ =>
        finishBlock rules block height coinbase done) := by
  unfold validateBlockTransactions beginBlock finishBlock
  simp only [bind_assoc, ok_bind]

inductive ScriptPath where
  | skipped
  | collected (workers : ScriptWorkers)
  | streamed (events : List StreamEvent)

def ScriptPath.skips : ScriptPath → Bool
  | .skipped => true
  | _ => false

variable [ScriptEngine]

def ScriptPath.validateTransactions (path : ScriptPath) (cache : ScriptValidationCache) (ctx : BlockContext) (utxos : UtxoMap)
    (transactions : List (Transaction × Txid)) (initial : BlockProgress) : Except Error BlockProgress := match path with
  | .skipped => transactions.foldlM (processTransaction ctx utxos) initial
  | .collected workers => do
    let done ← transactions.foldlM (processTransaction ctx utxos) initial
    (validateScriptChecksCached workers ctx.sigopFlags (fun _ => ctx.rules.shutdownInterrupt) cache
      (done.scriptJobs.zipIdx 1)).1
    .ok done
  | .streamed events =>
    ((Stream.start transactions initial ctx.rules.shutdownInterrupt).run ctx utxos
      (fun tx => scriptCacheKey ctx.sigopFlags tx ∈ cache.entries) events).result

def validateBlockBy (path : ScriptPath) (cache : ScriptValidationCache) (rules : BlockRules) (block : Block)
    (transactionIds : List Txid) (height : ℕ) (utxos : UtxoMap) (medianTimePast : ℕ) :
    Except Error (BlockApplication × ℕ) := do
  let rules := { rules with skipScriptChecks := path.skips }
  let (coinbase, initial) ← beginBlock rules block transactionIds height utxos medianTimePast
  let done ← path.validateTransactions cache (blockContext rules block height medianTimePast) utxos
    ((block.txdata.zip transactionIds).drop 1) initial
  let application ← finishBlock rules block height coinbase done
  .ok (application, done.totalFees)

end BitcoindRs
