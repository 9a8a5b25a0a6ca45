import BitcoindRs.Consensus.Structure
import BitcoindRs.Data.Ledger

/-! Validation of a block's transactions against a UTXO map. -/

namespace BitcoindRs
open Result Checked

def coinbaseMaturity : ℕ := 100

def blockSubsidyForNetwork (network : Network) (height : ℕ) : ℕ :=
  let halvingInterval := if network = .regtest then 150 else 210000
  let halvings := height / halvingInterval
  if 64 ≤ halvings then 0 else (50 * 100000000) >>> halvings

def lockTimeThreshold : ℕ := 500000000

def validateTransactionAbsoluteFinality (tx : Transaction) (height lockTimeCutoff : ℕ) : Except ValidationError Unit :=
  bailIf (tx.isLockTimeEnabled ∧ tx.lockTime ≠ 0 ∧
    (if tx.lockTime < lockTimeThreshold then height else lockTimeCutoff) ≤ tx.lockTime) .nonFinalTransaction

def validateTransactionSequenceLockInput (input : TxIn) (version : ℤ) (height lockTimeCutoff : ℕ) (csvActive : Bool)
    (entryHeight entryMedianTimePast : ℕ) : Except ValidationError Unit :=
  -- Bit 31 disables the relative lock, bit 22 selects time in units of 512 seconds.
  if !csvActive || version < 2 || input.sequence.testBit 31 then .ok ()
  else
    let relative := input.sequence % 2 ^ 16
    if input.sequence.testBit 22 = false then
      bailIf (height < satAddU32 entryHeight relative) .nonFinalSequence
    else bailIf (lockTimeCutoff < entryMedianTimePast + relative * 512) .nonFinalSequence

structure CoinStatsBlockMetrics where
  prevoutSpentSat : ℕ
  newOutputsExCoinbaseSat : ℕ
  coinbaseSat : ℕ
  unspendableScriptsSat : ℕ
  unspendableBip30Sat : ℕ
  subsidySat : ℕ
deriving DecidableEq, Repr

/-- What the validator reads from the chain state around the block. -/
structure BlockRules where
  params : DeploymentParameters
  enforceBip30 : Bool
  reducedDataActivationHeight : Option ℕ
  skipScriptChecks : Bool
  retainSpentEntries : Bool
  shutdownInterrupt : Bool
  /-- Transactions whose scripts the script cache already knows to be valid. -/
  scriptCacheHit : Transaction → Bool

structure BlockApplication where
  spentEntries : List (OutPoint × UtxoEntry)
  spentOutpoints : Finset OutPoint
  createdEntries : UtxoMap
  sameBlockSpent : Finset OutPoint
  metrics : CoinStatsBlockMetrics

structure ScriptCheckJob where
  transaction : Transaction
  previousOutputs : List TxOut

structure BlockProgress where
  spentEntries : List (OutPoint × UtxoEntry)
  spent : Finset OutPoint
  created : UtxoMap
  sameBlockSpent : Finset OutPoint
  totalFees : ℕ
  metrics : CoinStatsBlockMetrics
  sigopCost : ℕ
  scriptJobs : List ScriptCheckJob

/-- The accumulators of the input loop of one transaction. -/
structure InputProgress where
  transactionSpent : Finset OutPoint
  inputTotal : ℕ
  previousOutputs : List TxOut
  previousHeights : List ℕ
  txSigopCost : ℕ
  block : BlockProgress

def validation {α : Type} (x : Except ValidationError α) : Except Error α := x.mapError Error.validation

@[simp] theorem validation_ok {α : Type} {x : Except ValidationError α} {a : α} : validation x = .ok a ↔ x = .ok a := by
  cases x <;> simp [validation, Except.mapError]

def checkShutdownInterrupt (rules : BlockRules) : Except Error Unit :=
  bailIf rules.shutdownInterrupt (.message "block validation interrupted by shutdown")

def isBip30Repeat (network : Network) (height : ℕ) (hash : BlockHash) : Bool :=
  network == .bitcoin &&
    ((height == 91842 && hash == 0x00000000000a4d0a398161ffc163c503763b1f4360639393e0e4c8e300e0caec) ||
      (height == 91880 && hash == 0x00000000000743f190a18c5577a3c2d2a1f610ae9601ac046a38084ccb7cd721))

def isBip30Unspendable (network : Network) (height : ℕ) (hash : BlockHash) : Bool :=
  network == .bitcoin &&
    ((height == 91722 && hash == 0x00000000000271a2dc26e7667f8419f2e15416dc6955e5a6c6cdf3f2574dd08e) ||
      (height == 91812 && hash == 0x00000000000af0aed4792b1acee3d966af36cf5def14935db8de83d6f9306f2f))

structure BlockContext where
  rules : BlockRules
  height : ℕ
  medianTimePast : ℕ
  lockTimeCutoff : ℕ
  sigopFlags : ℕ

def BlockContext.csvActive (ctx : BlockContext) : Bool := ctx.rules.params.buried.csv ≤ ctx.height

/-- Script checks that are skipped together with the reduced-data checks need no copy of the spent outputs. -/
def BlockContext.borrowPrevouts (ctx : BlockContext) : Bool :=
  ctx.rules.skipScriptChecks && ctx.rules.reducedDataActivationHeight.isNone

def processEntry (ctx : BlockContext) (tx : Transaction) (input : TxIn) (st : InputProgress) (entry : UtxoEntry) :
    Except Error InputProgress := do
  bailIf (entry.coinbase ∧ ctx.height < satAddU32 entry.height coinbaseMaturity)
    (.validation (.immatureCoinbase input.previousOutput))
  validation (validateTransactionSequenceLockInput input tx.version ctx.height ctx.lockTimeCutoff ctx.csvActive
    entry.height entry.medianTimePast)
  let inputTotal ← okOr (addU64 st.inputTotal entry.value) (.validation .inputTotalOverflow)
  bailIf (maxMoney < inputTotal) (.validation .inputTotalOverflow)
  .ok { st with
    inputTotal
    txSigopCost := if ctx.borrowPrevouts
      then st.txSigopCost + transactionInputSigopCost input entry.output ctx.sigopFlags else st.txSigopCost
    previousOutputs := if ctx.borrowPrevouts then st.previousOutputs else st.previousOutputs ++ [entry.output]
    previousHeights := if ctx.rules.reducedDataActivationHeight.isSome
      then st.previousHeights ++ [entry.height] else st.previousHeights
    block := { st.block with
      metrics := { st.block.metrics with prevoutSpentSat := satAddU64 st.block.metrics.prevoutSpentSat entry.value }
      spentEntries := if ctx.rules.retainSpentEntries
        then st.block.spentEntries ++ [(input.previousOutput, entry)] else st.block.spentEntries } }

def processInput (ctx : BlockContext) (utxos : UtxoMap) (tx : Transaction) (txid : Txid) (st : InputProgress)
    (input : TxIn) : Except Error InputProgress := do
  let outpoint := input.previousOutput
  bailIf (outpoint ∈ st.transactionSpent) (.validation (.duplicateInput txid))
  bailIf (outpoint ∈ st.block.spent) (.validation (.missingInput outpoint))
  let marked := { st with
    transactionSpent := insert outpoint st.transactionSpent
    block := { st.block with spent := insert outpoint st.block.spent } }
  match marked.block.created.lookup outpoint with
  | some entry => processEntry ctx tx input { marked with block := { marked.block with
      created := marked.block.created.erase outpoint
      sameBlockSpent := insert outpoint marked.block.sameBlockSpent } } entry
  | none => do
    let entry ← okOr (utxos.lookup outpoint) (.validation (.missingInput outpoint))
    processEntry ctx tx input marked entry

def coinOf (output : TxOut) (height medianTimePast : ℕ) (coinbase : Bool) : UtxoEntry :=
  ⟨output, height, medianTimePast, coinbase⟩

def addOutput (ctx : BlockContext) (txid : Txid) (st : BlockProgress) (indexed : TxOut × ℕ) : BlockProgress :=
  let (output, index) := indexed
  if isUnspendableScript output.scriptPubkey then { st with
    metrics := { st.metrics with unspendableScriptsSat := satAddU64 st.metrics.unspendableScriptsSat output.value } }
  else { st with
    metrics := { st.metrics with newOutputsExCoinbaseSat := satAddU64 st.metrics.newOutputsExCoinbaseSat output.value }
    created := st.created.insert ⟨txid, index⟩ (coinOf output ctx.height ctx.medianTimePast false) }

variable [Library]

def validateReducedData (ctx : BlockContext) (tx : Transaction) (inputs : InputProgress) : Except ValidationError Unit :=
  match ctx.rules.reducedDataActivationHeight with
  | none => .ok ()
  | some activationHeight => do
    validateReducedDataOutputSizes tx
    runIf (!ctx.rules.skipScriptChecks)
      (validateReducedDataInputSizes tx inputs.previousOutputs inputs.previousHeights activationHeight)

def processTransaction (ctx : BlockContext) (utxos : UtxoMap) (st : BlockProgress) (identified : Transaction × Txid) :
    Except Error BlockProgress := do
  let (tx, txid) := identified
  checkShutdownInterrupt ctx.rules
  validation (validateTransactionAbsoluteFinality tx ctx.height ctx.lockTimeCutoff)
  let inputs ← tx.input.foldlM (processInput ctx utxos tx txid)
    ⟨∅, 0, [], [], transactionSigopCost tx [] ctx.sigopFlags, st⟩
  validation (validateReducedData ctx tx inputs)
  let txSigopCost := if ctx.borrowPrevouts then inputs.txSigopCost
    else transactionSigopCost tx inputs.previousOutputs ctx.sigopFlags
  bailIf (maxBlockSigopCost < inputs.block.sigopCost + txSigopCost) (.validation .tooManySigopsInConnect)
  let outputTotal ← okOr (sumU64 (tx.output.map (·.value))) (.validation .outputTotalOverflow)
  bailIf (inputs.inputTotal < outputTotal) (.validation (.negativeFee txid))
  let totalFees ← okOr (addU64 inputs.block.totalFees (inputs.inputTotal - outputTotal))
    (.validation .accumulatedFeeOverflow)
  bailIf (maxMoney < totalFees) (.validation .accumulatedFeeOverflow)
  .ok (tx.output.zipIdx.foldl (addOutput ctx txid) { inputs.block with
    totalFees
    sigopCost := inputs.block.sigopCost + txSigopCost
    scriptJobs := if ctx.rules.skipScriptChecks then inputs.block.scriptJobs
      else inputs.block.scriptJobs ++ [⟨tx, inputs.previousOutputs⟩] })

def validateBip30 (block : Block) (transactionIds : List Txid) (utxos : UtxoMap) : Except ValidationError Unit :=
  match (block.txdata.zip transactionIds).find? fun (tx, txid) =>
    (List.range tx.output.length).any fun vout => (utxos.lookup ⟨txid, vout⟩).isSome with
  | some (_, txid) => .error (.bip30 txid)
  | none => .ok ()

def validateScriptChecks (ctx : BlockContext) (jobs : List ScriptCheckJob) : Except ValidationError Unit :=
  jobs.forM fun job =>
    if ctx.rules.scriptCacheHit job.transaction then .ok ()
    else (Library.transactionScripts job.transaction job.previousOutputs ctx.sigopFlags).mapError
      fun (input, reason) => .script job.transaction.computeTxid input reason

omit [Library] in
def coinbaseMetrics (unspendable : Bool) (coinbase : Transaction) (metrics : CoinStatsBlockMetrics) : CoinStatsBlockMetrics :=
  if unspendable then { metrics with unspendableBip30Sat := satAddU64 metrics.unspendableBip30Sat metrics.subsidySat }
  else coinbase.output.foldl (fun metrics output =>
    if isUnspendableScript output.scriptPubkey then
      { metrics with unspendableScriptsSat := satAddU64 metrics.unspendableScriptsSat output.value }
    else { metrics with coinbaseSat := satAddU64 metrics.coinbaseSat output.value }) metrics

def blockContext (rules : BlockRules) (block : Block) (height medianTimePast : ℕ) : BlockContext where
  rules
  height
  medianTimePast
  lockTimeCutoff := if rules.params.buried.csv ≤ height then medianTimePast else block.header.time
  sigopFlags := scriptFlagsForBlockWithParams rules.params height block.blockHash

def validateBlockTransactions (rules : BlockRules) (block : Block) (transactionIds : List Txid) (height : ℕ)
    (utxos : UtxoMap) (medianTimePast : ℕ) : Except Error BlockApplication := do
  let ctx := blockContext rules block height medianTimePast
  let subsidy := blockSubsidyForNetwork rules.params.network height
  bailIf (transactionIds.length ≠ block.txdata.length) (.message "cached transaction ID count does not match block")
  checkShutdownInterrupt rules
  runIf rules.enforceBip30 (validation (validateBip30 block transactionIds utxos))
  -- An empty block is an out-of-bounds panic; the structure check refuses it first.
  let coinbase ← okOr block.txdata.head? (.message "index out of bounds")
  validation (validateTransactionAbsoluteFinality coinbase height ctx.lockTimeCutoff)
  runIf rules.reducedDataActivationHeight.isSome (validation (validateReducedDataOutputSizes coinbase))
  let sigopCost := transactionSigopCost coinbase [] ctx.sigopFlags
  bailIf (maxBlockSigopCost < sigopCost) (.validation .tooManySigopsInConnect)
  let done ← ((block.txdata.zip transactionIds).drop 1).foldlM (processTransaction ctx utxos)
    ⟨[], ∅, ∅, ∅, 0, ⟨0, 0, 0, 0, 0, subsidy⟩, sigopCost, []⟩
  runIf (!rules.skipScriptChecks) (validation (validateScriptChecks ctx done.scriptJobs))
  checkShutdownInterrupt rules
  let allowedCoinbase ← okOr (addU64 subsidy done.totalFees) (.message "subsidy plus bounded fees fits in u64")
  let actualCoinbase ← okOr (sumU64 (coinbase.output.map (·.value))) (.validation .outputTotalOverflow)
  bailIf (allowedCoinbase < actualCoinbase) (.validation (.coinbaseOverpay actualCoinbase allowedCoinbase))
  .ok ⟨done.spentEntries, done.spent, done.created, done.sameBlockSpent,
    coinbaseMetrics (isBip30Unspendable rules.params.network height block.blockHash) coinbase done.metrics⟩

omit [Library]

def sampleCoinbase (height value : ℕ) : Transaction :=
  ⟨2, height, [⟨.null, pushInt height ++ [0], 2 ^ 32 - 1, []⟩], [⟨value, [0x51]⟩]⟩

def sampleSpend (id : ℕ) (spends : List OutPoint) (values : List ℕ) : Transaction :=
  ⟨2, id, spends.map fun o => ⟨o, [], 2 ^ 32 - 1, []⟩, values.map fun value => ⟨value, [0x51]⟩⟩

def sampleBlock (height : ℕ) (txs : List Transaction) : Block :=
  letI := Library.sample
  ⟨⟨4, height - 1, (merkleRootAndMutatedTxid (txs.map Transaction.computeTxid)).1.getD 0, height, 0, height⟩, txs⟩

def sampleRules : BlockRules := ⟨.forNetwork .regtest, true, none, false, true, false, fun _ => false⟩

def sampleUtxos : UtxoMap := (∅ : UtxoMap).insert ⟨7, 0⟩ ⟨⟨1000, [0x51]⟩, 1, 0, false⟩

def sampleSpending : Block :=
  sampleBlock 2 [sampleCoinbase 2 5000000000, sampleSpend 20 [⟨7, 0⟩] [600, 300], sampleSpend 21 [⟨1020, 1⟩] [300]]

end BitcoindRs
