import BitcoindRs.Mempool.Index

/-! Admission of a single transaction: its checks, the eviction that makes room for it and its entry into the pool. -/

namespace BitcoindRs
open Checked Result PolicyLibrary
variable [Library] [PolicyLibrary] [HashOrder ℕ]

def feeRateMeets (feeSat : ℤ) (vsize feeRateSatPerKvb : ℕ) : Bool := feeRateSatPerKvb * vsize ≤ satI128 (feeSat * 1000)

def feeRateFromPackage (feeSat : ℤ) (vsize : ℕ) : ℕ :=
  if feeSat ≤ 0 ∨ vsize = 0 then 0 else min ((satI128 (feeSat * 1000) + vsize - 1) / vsize).toNat (u64Bound - 1)

def feeForRate (feeRateSatPerKvb vsize : ℕ) : ℕ := (feeRateSatPerKvb * vsize + 999) / 1000

namespace Mempool

def decayRollingMinFee (pool : Mempool) (now : ℕ) : Mempool :=
  if pool.blockSinceLastRollingFeeBump = false ∨ isZero pool.rollingMinFeeSatPerKvb = true ∨
      now ≤ satAddU64 pool.rollingFeeLastUpdated 10 then pool
  else
    let quarters := if pool.memoryUsage < pool.maxBytes / 4 then 1 else if pool.memoryUsage < pool.maxBytes / 2 then 2 else 4
    let decayed := decay pool.rollingMinFeeSatPerKvb (now - pool.rollingFeeLastUpdated) quarters
    { pool with
      rollingMinFeeSatPerKvb :=
        if belowHalf decayed pool.policy.incrementalRelayFeeSatPerKvb then ofU64 0 else decayed
      rollingFeeLastUpdated := now }

def getMinFeeSatPerKvb (pool : Mempool) : ℕ :=
  let rolling := roundToU64 pool.rollingMinFeeSatPerKvb
  if pool.blockSinceLastRollingFeeBump = true ∧ rolling ≠ 0 then max rolling pool.policy.incrementalRelayFeeSatPerKvb
  else rolling

def minFeeSatPerKvb (pool : Mempool) : ℕ := max pool.policy.minRelayFeeSatPerKvb pool.getMinFeeSatPerKvb

def feeRateError (pool : Mempool) (feeSat : ℤ) (vsize : ℕ) : MempoolError :=
  if pool.getMinFeeSatPerKvb ≠ 0 ∧ feeRateMeets feeSat vsize pool.getMinFeeSatPerKvb = false then .feeRate else .minRelayFee

def evictionPackage (pool : Mempool) (txid : Txid) : Finset Txid := insert txid (pool.descendants txid).toFinset

def packageVsize (pool : Mempool) (package : Finset Txid) : ℕ :=
  usize (∑ txid ∈ package, ((pool.entries.lookup txid).map (·.vsize)).getD 0)

/-- The terms are too small for the sum of any number of entries to leave the range of `i128`. -/
def packageFee (pool : Mempool) (package : Finset Txid) : ℤ :=
  ∑ txid ∈ package, ((pool.entries.lookup txid).map fun entry => pool.modifiedFeeSat txid entry.feeSat).getD 0

structure Eviction where
  package : Finset Txid
  txid : Txid
  vsize : ℕ
  fee : ℤ
deriving DecidableEq

def Eviction.below (new best : Eviction) : Bool :=
  let left := satI128 (new.fee * best.vsize)
  let right := satI128 (best.fee * new.vsize)
  left < right ∨ left = right ∧ Txid.rank new.txid < Txid.rank best.txid

def considerEviction (pool : Mempool) (guarded : Finset Txid) (best : Option Eviction) (txid : Txid) : Option Eviction :=
  let package := pool.evictionPackage txid
  let vsize := pool.packageVsize package
  if ¬ Disjoint package guarded ∨ vsize = 0 then best
  else
    let new : Eviction := ⟨package, txid, vsize, pool.packageFee package⟩
    match best with
    | none => some new
    | some best => if new.below best then some new else some best

def lowestEvictionPackage (pool : Mempool) (guarded : Finset Txid) : Option Eviction :=
  (HashOrder.elements pool.entries.keys).foldl (pool.considerEviction guarded) none

def evict (pool : Mempool) (eviction : Eviction) : Mempool :=
  { pool with
    rollingMinFeeSatPerKvb := max pool.rollingMinFeeSatPerKvb (ofU64
      (satAddU64 (feeRateFromPackage eviction.fee eviction.vsize) pool.policy.incrementalRelayFeeSatPerKvb))
    blockSinceLastRollingFeeBump := false }.removeAll (HashOrder.elements eviction.package)

/-- A round takes out at least one entry, so there are no more rounds than entries. -/
def ensureSpaceLoop (additionalMemory : ℕ) (guarded : Finset Txid) : ℕ → Mempool → Except MempoolError Unit × Mempool
  | 0, pool => (if usize (pool.dynamicMemoryUsage + additionalMemory) ≤ pool.maxBytes then .ok () else .error .full, pool)
  | rounds + 1, pool =>
    if usize (pool.dynamicMemoryUsage + additionalMemory) ≤ pool.maxBytes then (.ok (), pool)
    else match pool.lowestEvictionPackage guarded with
      | none => (.error .full, pool)
      | some eviction => ensureSpaceLoop additionalMemory guarded rounds (pool.evict eviction)

def ensureSpace (pool : Mempool) (additionalMemory : ℕ) (guarded : Finset Txid) : Except MempoolError Unit × Mempool :=
  if pool.maxBytes < additionalMemory then (.error .full, pool)
  else ensureSpaceLoop additionalMemory guarded pool.entries.keys.card pool

def enforceSizeLimit (pool : Mempool) : Mempool := (pool.ensureSpace 0 ∅).2

def parentIds (pool : Mempool) (tx : Transaction) : List Txid := (tx.inputTxids.filter pool.contains).eraseDups

def checkTrucParent (pool : Mempool) (tx : Transaction) (parent : Txid) : Except MempoolError Unit :=
  match pool.entries.lookup parent with
  | none => .ok ()
  | some entry =>
    if tx.version ≠ trucVersion ∧ entry.transaction.version = trucVersion then
      .error (.truc (.spentByNontruc tx.computeTxid parent))
    else if tx.version = trucVersion ∧ entry.transaction.version ≠ trucVersion then
      .error (.truc (.spendsNontruc tx.computeTxid parent))
    else .ok ()

def checkTrucChild (pool : Mempool) (tx : Transaction) (vsize : ℕ) (allowDescendantReplacement : Bool) (parent : Txid) :
    Except MempoolError Unit := do
  bailIf (trucAncestorLimit < (pool.ancestors parent).length + 1 + 1) (.truc (.ancestorsTooMany tx.computeTxid))
  bailIf (trucChildMaxVsize < vsize) (.truc (.childTooBig tx.computeTxid vsize))
  bailIf (allowDescendantReplacement = false ∧ trucDescendantLimit < (pool.descendants parent).length + 2)
    (.truc (.descendantsTooMany parent))

def checkTrucPolicyWithReplacement (pool : Mempool) (tx : Transaction) (vsize : ℕ) (allowDescendantReplacement : Bool) :
    Except MempoolError Unit := do
  (pool.parentIds tx).forM (pool.checkTrucParent tx)
  if tx.version ≠ trucVersion then .ok ()
  else do
    bailIf (trucMaxVsize < vsize) (.truc (.vsizeTooBig tx.computeTxid vsize))
    bailIf (trucAncestorLimit < (pool.parentIds tx).length + 1) (.truc (.ancestorsTooMany tx.computeTxid))
    match pool.parentIds tx with
    | [] => .ok ()
    | parent :: _ => pool.checkTrucChild tx vsize allowDescendantReplacement parent

def checkClusterLimitsWithWeight (pool : Mempool) (tx : Transaction) (weight : ℕ) : Except MempoolError Unit :=
  let connected := pool.connectedBy tx
  bailIf (pool.policy.clusterCountLimit < connected.card + 1 ∨
    satMulU64 pool.policy.clusterVsizeLimit 4 < usize (∑ txid ∈ connected, pool.adjustedWeight txid + weight)) .clusterLimit

def isDustOutputWithFee (output : TxOut) (dustRelayFeeSatPerKvb : ℕ) : Bool :=
  if Script.isOpReturn output.scriptPubkey ∨ 10000 < output.scriptPubkey.length then false
  else
    let inputSize := if Script.isWitnessProgram output.scriptPubkey then 67 else 148
    output.value < usize ((output.size + inputSize) * dustRelayFeeSatPerKvb + 999) / 1000

/-- The dust outputs of a transaction's parents that it leaves unspent. -/
def unspentDust (pool : Mempool) (package : List Transaction) (tx : Transaction) : List OutPoint :=
  let parent (txid : Txid) : Option Transaction :=
    (package.reverse.find? fun other => other.computeTxid = txid).or ((pool.entries.lookup txid).map (·.transaction))
  let dust (txid : Txid) : List OutPoint := match parent txid with
    | none => []
    | some parent => (parent.output.zipIdx.filter fun (output, _) =>
        isDustOutputWithFee output pool.policy.dustRelayFeeSatPerKvb).map fun (_, vout) => ⟨txid, vout⟩
  (tx.inputTxids.eraseDups.flatMap dust).filter (· ∉ tx.prevouts)

def validateEphemeralSpends (package : List Transaction) (pool : Mempool) : Except MempoolError Unit :=
  bailIf (package.any fun tx => !(pool.unspentDust package tx).isEmpty) (.nonStandard "missing-ephemeral-spends")

structure AcceptOptions where
  enforceFeeRate : Bool
  enforceMempoolPolicy : Bool
  enforceTrucPolicy : Bool
  checkEphemeralSpends : Bool
  recordSequence : Bool
  allowTrucDescendantReplacement : Bool
  enforceMinRelay : Bool
  forceTrucMinRelay : Bool
deriving DecidableEq, Repr

def duplicateError (pool : Mempool) (tx : Transaction) : Option MempoolError :=
  (pool.entries.lookup tx.computeTxid).map fun existing =>
    if existing.transaction.computeWtxid = tx.computeWtxid then .alreadyPresent
    else .sameNonWitnessData existing.transaction.computeWtxid

def checkShape (pool : Mempool) (view : ChainView) (tx : Transaction) (options : AcceptOptions) : Except MempoolError Unit := do
  match pool.duplicateError tx with
  | some error => .error error
  | none =>
    bailIf (tx.outpoints.any fun outpoint => (view.utxo.lookup outpoint).isSome) .alreadyInChain
    bailIf tx.isCoinbase .coinbase
    bailIf (tx.input.any fun input => input.previousOutput.isNull) .nullPrevout
    bailIf tx.input.isEmpty .emptyInputs
    bailIf tx.output.isEmpty .emptyOutputs
    bailIf (maxBlockWeight < tx.baseSize * 4) .oversized
    bailIf (options.enforceMempoolPolicy ∧ pool.policy.requireStandard ∧ maxStandardTxWeight < tx.weight) (.nonStandard "tx-size")

/-- The coin an input spends. An output of an entry counts as created by the next block. -/
def previousEntry (pool : Mempool) (view : ChainView) (outpoint : OutPoint) : Except MempoolError UtxoEntry :=
  match pool.entries.lookup outpoint.txid with
  | some entry => do
    let output ← okOr (entry.transaction.output[outpoint.vout]?) (.missingInput outpoint)
    .ok ⟨output, satAddU32 view.servingHeight 1, view.servingMedianTimePast, false⟩
  | none => do
    let entry ← okOr (view.utxo.lookup outpoint) (.missingInput outpoint)
    bailIf (entry.coinbase ∧ satAddU32 view.servingHeight 1 < satAddU32 entry.height coinbaseMaturity) .prematureCoinbase
    .ok entry

structure ResolvedInputs where
  seen : Finset OutPoint
  inputTotal : ℕ
  previousEntries : List UtxoEntry

def resolveInput (pool : Mempool) (view : ChainView) (st : ResolvedInputs) (outpoint : OutPoint) :
    Except MempoolError ResolvedInputs := do
  bailIf (outpoint ∈ st.seen) .duplicateInput
  match pool.spent.lookup outpoint with
  | some conflict => .error (.conflict conflict)
  | none =>
    let entry ← pool.previousEntry view outpoint
    let inputTotal ← okOr (addU64 st.inputTotal entry.output.value) .badOutput
    bailIf (maxMoney < inputTotal) .badOutput
    .ok ⟨insert outpoint st.seen, inputTotal, st.previousEntries ++ [entry]⟩

end Mempool

def validateTransactionFinality (tx : Transaction) (height lockTimeCutoff : ℕ) (csvActive : Bool)
    (previousEntries : List UtxoEntry) : Except ValidationError Unit := do
  validateTransactionAbsoluteFinality tx height lockTimeCutoff
  if csvActive = false ∨ tx.version < 2 ∨ previousEntries.length ≠ tx.input.length then .ok ()
  else (tx.input.zip previousEntries).forM fun (input, entry) =>
    validateTransactionSequenceLockInput input tx.version height lockTimeCutoff csvActive entry.height entry.medianTimePast

def outputTotal (tx : Transaction) : Except MempoolError ℕ :=
  tx.output.foldlM (fun total output => do
    bailIf (2 ^ 63 - 1 < output.value) .negativeOutput
    bailIf (maxMoney < output.value) .outputTooLarge
    let total ← okOr (addU64 total output.value) .outputTotalTooLarge
    bailIf (maxMoney < total) .outputTotalTooLarge
    .ok total) 0

def checkReducedData (view : ChainView) (tx : Transaction) (previousEntries : List UtxoEntry) : Except MempoolError Unit :=
  match view.reducedDataActivation with
  | none => .ok ()
  | some activationHeight => do
    (validateReducedDataOutputSizes tx).mapError fun _ => MempoolError.nonStandard "bad-txns-vout-script-toolarge"
    (validateReducedDataInputSizes tx (previousEntries.map (·.output)) (previousEntries.map (·.height))
      activationHeight).mapError fun error => match error with
        | .script _ _ reason => .script ("mempool-script-verify-flag-failed (" ++ reason ++ ")")
        | other => .script (display other)

namespace Mempool

structure Checked where
  previousOutputs : List TxOut
  feeSat : ℕ
  adjustedWeight : ℕ
  vsize : ℕ
  modifiedFeeSat : ℤ

def checkDatacarrier (policy : MempoolPolicy) (tx : Transaction) (previousOutputs : List TxOut) : Except MempoolError Unit := do
  let (standard, nonstandard) := datacarrierBytes tx previousOutputs
  bailIf (0 < nonstandard ∧ policy.acceptNonstdDatacarrier = false) (.nonStandard "txn-datacarrier-nonstandard")
  bailIf (policy.datacarrierFullcount = true ∧ (policy.maxDatacarrierBytes.all fun limit => limit < usize (standard + nonstandard)))
    (.nonStandard "txn-datacarrier-exceeded")

def trucMinRelayException (pool : Mempool) (tx : Transaction) (options : AcceptOptions) : Bool :=
  tx.version = trucVersion ∧ pool.policy.trucPolicy = .enforce ∧ options.forceTrucMinRelay = false

def checkTransaction (pool : Mempool) (view : ChainView) (tx : Transaction) (options : AcceptOptions) :
    Except MempoolError Checked := do
  pool.checkShape view tx options
  let inputs ← tx.prevouts.foldlM (pool.resolveInput view) ⟨∅, 0, []⟩
  let previousOutputs := inputs.previousEntries.map (·.output)
  checkReducedData view tx inputs.previousEntries
  (validateTransactionFinality tx (satAddU32 view.servingHeight 1) view.servingMedianTimePast true
    inputs.previousEntries).mapError fun error => MempoolError.script (display error)
  let outputTotal ← outputTotal tx
  bailIf (inputs.inputTotal < outputTotal) .negativeFee
  let feeSat := inputs.inputTotal - outputTotal
  let flags := scriptFlagsForBlockWithParams (.forNetwork view.network) (satAddU32 view.servingHeight 1) 0
  let sigopCost := transactionSigopCost tx previousOutputs flags
  bailIf (maxStandardTxSigopsCost < sigopCost) (.nonStandard "bad-txns-too-many-sigops")
  let adjustedWeight := max tx.weight (satMulU64 sigopCost pool.policy.bytesPerSigop)
  let vsize := satAddU64 adjustedWeight 3 / 4
  let modifiedFeeSat := satI64 (min feeSat (2 ^ 63 - 1) + pool.feeDelta tx.computeTxid)
  runIf pool.policy.requireStandard
    (validateStandardPolicy tx previousOutputs feeSat modifiedFeeSat pool.policy)
  checkDatacarrier pool.policy tx previousOutputs
  bailIf (futureWitnessVersionPolicyFailure tx previousOutputs)
    (.script "Witness version reserved for soft-fork upgrades")
  bailIf (uncompressedWitnessPubkeyPolicyFailure tx previousOutputs)
    (.script "mempool-script-verify-flag-failed (Using non-compressed keys in segwit)")
  bailIf (tx.baseSize < minStandardTxNonwitnessSize) (.nonStandard "tx-size-small")
  (view.validateMempoolTransactionScripts tx previousOutputs).mapError fun error =>
    MempoolError.script (mempoolScriptRejectReason tx previousOutputs error)
  bailIf (options.enforceMinRelay = true ∧ pool.policy.trucPolicy = .enforce ∧ pool.trucMinRelayException tx options = false ∧
      feeRateMeets modifiedFeeSat vsize pool.policy.minRelayFeeSatPerKvb = false)
    (.minRelayFeeWithContext modifiedFeeSat (feeForRate pool.policy.minRelayFeeSatPerKvb vsize))
  .ok ⟨previousOutputs, feeSat, adjustedWeight, vsize, modifiedFeeSat⟩

def checkTrucPolicy (pool : Mempool) (tx : Transaction) (vsize : ℕ) (options : AcceptOptions) : Except MempoolError Unit :=
  match pool.policy.trucPolicy with
  | .reject => bailIf (tx.version = trucVersion) (.nonStandard "version")
  | .enforce => pool.checkTrucPolicyWithReplacement tx vsize options.allowTrucDescendantReplacement
  | .accept => .ok ()

def checkTopology (pool : Mempool) (tx : Transaction) (checked : Checked) (options : AcceptOptions) : Except MempoolError Unit := do
  runIf (options.enforceMempoolPolicy && options.checkEphemeralSpends) (validateEphemeralSpends [tx] pool)
  runIf (options.enforceMempoolPolicy && options.enforceTrucPolicy) (pool.checkTrucPolicy tx checked.vsize options)
  runIf options.enforceMempoolPolicy (pool.checkClusterLimitsWithWeight tx checked.adjustedWeight)

def candidate (pool : Mempool) (view : ChainView) (tx : Transaction) (addedAt : ℕ) (checked : Checked) : Candidate :=
  let affectedScripts := if pool.electrumIndexEnabled then scriptHashesForTransaction tx checked.previousOutputs else []
  let inputScriptValues := if pool.electrumIndexEnabled then inputScriptValuesForTransaction tx checked.previousOutputs else []
  let indexMemoryUsage := if pool.electrumIndexEnabled then scripthashIndexMemoryUsage affectedScripts inputScriptValues else 0
  { entry := ⟨tx, checked.feeSat, checked.vsize, addedAt, view.servingHeight⟩
    adjustedWeight := checked.adjustedWeight
    affectedScripts, inputScriptValues
    memoryUsage := usize (mempoolEntryMemoryUsage tx + indexMemoryUsage) }

/-- Room is made only under the pool's policy. The ancestors of the transaction stay. -/
def makeRoom (pool : Mempool) (tx : Transaction) (memoryUsage : ℕ) (options : AcceptOptions) : Except MempoolError Unit × Mempool :=
  if options.enforceMempoolPolicy then pool.ensureSpace memoryUsage (pool.ancestorsForTransaction tx) else (.ok (), pool)

def acceptAtWithSequence (pool : Mempool) (view : ChainView) (now : ℕ) (tx : Transaction) (addedAt : ℕ)
    (options : AcceptOptions) : Except MempoolError Txid × Mempool :=
  match pool.checkTransaction view tx options with
  | .error error => (.error error, pool)
  | .ok checked =>
    -- Reading the minimum fee lets it decay, whatever becomes of the transaction.
    let pool := if options.enforceFeeRate then pool.decayRollingMinFee now else pool
    let floor := if pool.trucMinRelayException tx options then pool.getMinFeeSatPerKvb else pool.minFeeSatPerKvb
    if options.enforceFeeRate = true ∧ feeRateMeets checked.modifiedFeeSat checked.vsize floor = false then
      (.error (pool.feeRateError checked.modifiedFeeSat checked.vsize), pool)
    else match pool.checkTopology tx checked options with
      | .error error => (.error error, pool)
      | .ok () =>
        let candidate := pool.candidate view tx addedAt checked
        match pool.makeRoom tx candidate.memoryUsage options with
        | (.error error, pool) => (.error error, pool)
        | (.ok (), pool) => (.ok tx.computeTxid, pool.insertEntry candidate options.recordSequence)

end Mempool

end BitcoindRs
