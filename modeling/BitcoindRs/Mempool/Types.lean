import BitcoindRs.Consensus.Transactions
import BitcoindRs.Data.Worklist

/-! The memory pool: its entries, indexes and totals, and what it reads from the chain. -/

namespace BitcoindRs
open Checked Codec

abbrev Wtxid := ℕ
abbrev ScriptHash := ℕ

/-- Identifiers are ordered by their bytes, the last printed one first. -/
def Txid.rank (txid : Txid) : ℕ := leNat (leBytes 32 txid).reverse

def sortTxids (ids : List Txid) : List Txid := ids.insertionSort fun a b => Txid.rank a ≤ Txid.rank b

def usizeMax : ℕ := u64Bound - 1

def satI128 (n : ℤ) : ℤ := max (-(2 ^ 127)) (min n (2 ^ 127 - 1))

def satI64 (n : ℤ) : ℤ := max (-(2 ^ 63)) (min n (2 ^ 63 - 1))

def satMulU64 (a b : ℕ) : ℕ := min (a * b) (u64Bound - 1)

inductive RbfPolicy where
  | never
  | optIn
  | always
deriving DecidableEq, Repr

inductive TrucPolicy where
  | reject
  | accept
  | enforce
deriving DecidableEq, Repr

structure MempoolPolicy where
  minRelayFeeSatPerKvb : ℕ := 100
  incrementalRelayFeeSatPerKvb : ℕ := 100
  dustRelayFeeSatPerKvb : ℕ := 3000
  bytesPerSigop : ℕ := 20
  maxScriptSize : ℕ := 3600
  maxTxLegacySigops : ℕ := 2500
  maxDatacarrierBytes : Option ℕ := some 100000
  datacarrierFullcount : Bool := true
  acceptNonstdDatacarrier : Bool := false
  permitBareDatacarrier : Bool := true
  permitBareMultisig : Bool := true
  requireStandard : Bool := true
  clusterCountLimit : ℕ := 64
  clusterVsizeLimit : ℕ := 101000
  rbfPolicy : RbfPolicy := .always
  trucPolicy : TrucPolicy := .accept
deriving DecidableEq, Repr

def maxStandardTxWeight : ℕ := 400000
def maxStandardTxSigopsCost : ℕ := maxBlockSigopCost / 5
def minStandardTxNonwitnessSize : ℕ := 65
def trucVersion : ℤ := 3
def trucAncestorLimit : ℕ := 2
def trucDescendantLimit : ℕ := 2
def trucMaxVsize : ℕ := 10000
def trucChildMaxVsize : ℕ := 1000
def maxReplacementCandidates : ℕ := 100

/-- The reasons of `truc_error`, with what their texts name. -/
inductive TrucViolation where
  | spentByNontruc (txid parent : Txid)
  | spendsNontruc (txid parent : Txid)
  | vsizeTooBig (txid : Txid) (vsize : ℕ)
  | ancestorsTooMany (txid : Txid)
  | childTooBig (txid : Txid) (vsize : ℕ)
  | descendantsTooMany (parent : Txid)
  | siblingKnown (parent : Txid)
  | parentAndChildBoth (txid : Txid)
deriving DecidableEq, Repr

/-- The texts of `ReplacementFeeWithContext`. -/
inductive ReplacementShortfall where
  | siblingCandidates (replacement : Txid) (count : ℕ)
  | siblingFeerate (replacement : Txid) (newFee : ℤ) (newVsize : ℕ) (oldFee : ℤ) (oldVsize : ℕ)
  | siblingLessFees (replacement : Txid)
  | siblingNotEnough (replacement : Txid)
  | lessFees (replacement : Txid) (fee conflictFees : ℤ)
  | notEnough (replacement : Txid) (additional incremental : ℤ)
deriving DecidableEq, Repr

inductive MempoolError where
  | emptyPackage
  | coinbase
  | alreadyPresent
  | sameNonWitnessData (wtxid : Wtxid)
  | alreadyInChain
  | conflict (txid : Txid)
  | replacementDisallowed
  | tooManyReplacementCandidates (txid : Txid) (count limit : ℕ)
  | tooManyConflictingClusters (txid : Txid) (count limit : ℕ)
  | replacementFee
  | replacementFeeWithContext (context : ReplacementShortfall)
  | spendsConflictingTx (txid conflict : Txid)
  | replacementUnconfirmedInput
  | packageRbfWrongSize
  | replacementFeerateDiagram
  | missingInput (outpoint : OutPoint)
  | prematureCoinbase
  | duplicateInput
  | nullPrevout
  | emptyInputs
  | emptyOutputs
  | oversized
  | negativeOutput
  | outputTooLarge
  | outputTotalTooLarge
  | badOutput
  | negativeFee
  | feeRate
  | minRelayFee
  | minRelayFeeWithContext (modifiedFee required : ℤ)
  | script (reason : String)
  | nonStandard (reason : String)
  | full
  | clusterLimit
  | truc (violation : TrucViolation)
deriving DecidableEq, Repr

structure Double where
  bits : ℕ
deriving DecidableEq, Repr

/-- Checks that look only at one transaction, its scripts and the outputs it spends, and the arithmetic of the rolling
minimum fee. -/
class PolicyLibrary where
  electrumScriptHash : Script → ScriptHash
  validateStandardPolicy : Transaction → List TxOut → ℕ → ℤ → MempoolPolicy → Except MempoolError Unit
  datacarrierBytes : Transaction → List TxOut → ℕ × ℕ
  futureWitnessVersionPolicyFailure : Transaction → List TxOut → Bool
  uncompressedWitnessPubkeyPolicyFailure : Transaction → List TxOut → Bool
  mempoolScriptRejectReason : Transaction → List TxOut → ValidationError → String
  display : ValidationError → String
  totalSigopCost : Transaction → (OutPoint → Option TxOut) → ℕ
  /-- The capacity of a vector collected from so many items. -/
  collectedCapacity : ℕ → ℕ
  ofU64 : ℕ → Double
  max : Double → Double → Double
  isZero : Double → Bool
  /-- Rounding, clamping to the range of `u64` and conversion. -/
  roundToU64 : Double → ℕ
  /-- The fee after so many seconds with a half-life of so many quarters of the full one. -/
  decay : Double → ℕ → ℕ → Double
  /-- Whether the fee is below half of a rate. -/
  belowHalf : Double → ℕ → Bool

@[reducible] def PolicyLibrary.sample : PolicyLibrary where
  electrumScriptHash script := leNat script
  validateStandardPolicy _ _ _ _ _ := .ok ()
  datacarrierBytes _ _ := (0, 0)
  futureWitnessVersionPolicyFailure _ _ := false
  uncompressedWitnessPubkeyPolicyFailure _ _ := false
  mempoolScriptRejectReason _ _ _ := ""
  display _ := ""
  totalSigopCost tx _ := legacySigopCostForTransaction tx
  collectedCapacity n := n
  ofU64 n := ⟨n⟩
  max a b := ⟨Nat.max a.bits b.bits⟩
  isZero a := a.bits = 0
  roundToU64 a := a.bits
  decay a _ _ := a
  belowHalf a n := 2 * a.bits < n

/-- What the pool reads from the chain: the tip whose coins are served, those coins and the rules for the next block. -/
structure ChainView where
  network : Network
  servingHeight : ℕ
  servingMedianTimePast : ℕ
  utxo : UtxoMap
  reducedDataActivation : Option ℕ
  validateMempoolTransactionScripts : Transaction → List TxOut → Except ValidationError Unit

structure MempoolEntry where
  transaction : Transaction
  feeSat : ℕ
  vsize : ℕ
  addedAt : ℕ
  height : ℕ
deriving DecidableEq, Repr

inductive MempoolChangeKind where
  | added
  | removed (notifyZmq : Bool)
deriving DecidableEq, Repr

structure MempoolChange where
  transaction : Transaction
  sequence : ℕ
  kind : MempoolChangeKind
  affectedScriptHashes : Option (List ScriptHash)
deriving DecidableEq, Repr

@[ext] structure Mempool where
  policy : MempoolPolicy
  maxBytes : ℕ
  electrumIndexEnabled : Bool
  memoryUsage : ℕ
  bytes : ℕ
  vbytes : ℕ
  rollingMinFeeSatPerKvb : Double
  rollingFeeLastUpdated : ℕ
  blockSinceLastRollingFeeBump : Bool
  sequence : ℕ
  entries : FMap Txid MempoolEntry
  adjustedWeights : FMap Txid ℕ
  spent : FMap OutPoint Txid
  childIndex : FMap Txid (Finset Txid)
  transactionsByScript : FMap ScriptHash (Finset Txid)
  scriptsByTransaction : FMap Txid (List ScriptHash)
  inputScriptValuesByTransaction : FMap Txid (List (ScriptHash × ℕ))
  wtxids : FMap Wtxid Txid
  priorities : FMap Txid ℤ
  unbroadcast : Finset Txid
  relaySequences : FMap Txid ℕ
  changes : List MempoolChange

variable [Library]

def Transaction.computeWtxid (tx : Transaction) : Wtxid := Library.wtxid tx

def Transaction.weight (tx : Transaction) : ℕ := 3 * tx.baseSize + tx.totalSize

def Transaction.vsize (tx : Transaction) : ℕ := (tx.weight + 3) / 4

def Transaction.inputTxids (tx : Transaction) : List Txid := tx.input.map (·.previousOutput.txid)

end BitcoindRs
