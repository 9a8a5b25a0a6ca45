import BitcoindRs.Data.Iteration
import BitcoindRs.Data.Result

/-! Transactions, blocks, coins and the errors of validation. -/

namespace BitcoindRs

/-- A script is its serialised bytes. -/
abbrev Script := List UInt8
/-- Hashes are read as numbers, in the byte order in which they are printed. -/
abbrev Txid := ℕ
abbrev BlockHash := ℕ

@[reducible] def BlockHash.sampleOrder : HashOrder BlockHash := HashOrder.ofKey id Function.injective_id

inductive Network where
  | bitcoin
  | testnet
  | testnet4
  | signet
  | regtest
deriving DecidableEq, Repr

structure OutPoint where
  txid : Txid
  vout : ℕ
deriving DecidableEq, Repr

def OutPoint.null : OutPoint := ⟨0, 2 ^ 32 - 1⟩
def OutPoint.isNull (o : OutPoint) : Bool := o == .null

structure TxIn where
  previousOutput : OutPoint
  scriptSig : Script
  sequence : ℕ
  witness : List (List UInt8)
deriving DecidableEq, Repr

structure TxOut where
  value : ℕ
  scriptPubkey : Script
deriving DecidableEq, Repr

structure Transaction where
  version : ℤ
  lockTime : ℕ
  input : List TxIn
  output : List TxOut
deriving DecidableEq, Repr

def Transaction.isCoinbase (tx : Transaction) : Bool := match tx.input with
  | [input] => input.previousOutput.isNull
  | _ => false

def Transaction.isLockTimeEnabled (tx : Transaction) : Bool := tx.input.any fun input => input.sequence != 2 ^ 32 - 1

def Transaction.prevouts (tx : Transaction) : List OutPoint := tx.input.map (·.previousOutput)

structure Header where
  version : ℤ
  prevBlockhash : BlockHash
  merkleRoot : ℕ
  time : ℕ
  bits : ℕ
  nonce : ℕ
deriving DecidableEq, Repr

structure Block where
  header : Header
  txdata : List Transaction
deriving DecidableEq, Repr

/-- An unspent output with the metadata consensus needs to spend it. -/
structure UtxoEntry where
  output : TxOut
  height : ℕ
  medianTimePast : ℕ
  coinbase : Bool
deriving DecidableEq, Repr

abbrev UtxoMap := FMap OutPoint UtxoEntry

def UtxoEntry.value (e : UtxoEntry) : ℕ := e.output.value

def maxMoney : ℕ := 21000000 * 100000000

structure BuriedDeploymentHeights where
  bip34 : ℕ
  bip65 : ℕ
  bip66 : ℕ
  csv : ℕ
  segwit : ℕ
deriving DecidableEq, Repr

structure DeploymentParameters where
  network : Network
  buried : BuriedDeploymentHeights
deriving DecidableEq, Repr

def buriedDeploymentHeights : Network → BuriedDeploymentHeights
  | .bitcoin => ⟨227931, 388381, 363725, 419328, 481824⟩
  | .testnet => ⟨21111, 581885, 330776, 770112, 834624⟩
  | .testnet4 | .signet => ⟨1, 1, 1, 1, 1⟩
  | .regtest => ⟨1, 1, 1, 1, 0⟩

def DeploymentParameters.forNetwork (network : Network) : DeploymentParameters :=
  ⟨network, buriedDeploymentHeights network⟩

inductive ValidationError where
  | wrongPreviousBlock
  | badTarget
  | badProofOfWork
  | targetAboveLimit
  | timeTooOld
  | timeTooNew
  | nodeExpired
  | bip94TimeWarp
  | emptyBlock
  | badMerkleRoot
  | badWitnessNonceSize
  | badWitnessMerkleMatch
  | unexpectedWitness
  | badSignetSolution
  | oversizedBlockBase
  | oversizedBlock
  | oversizedTransaction (txid : Txid)
  | tooManySigops
  | tooManySigopsInConnect
  | badBlockVersion (actual required : ℤ)
  | badVersionBits (deployment : String) (maxActivationHeight : ℕ)
  | badCoinbase
  | firstTransactionNotCoinbase
  | extraCoinbase (txid : Txid)
  | nullPrevout (txid : Txid)
  | emptyInputs (txid : Txid)
  | emptyOutputs (txid : Txid)
  | duplicateInput (txid : Txid)
  | duplicateTransaction (txid : Txid)
  | negativeOutputValue (txid : Txid)
  | badOutputValue (txid : Txid)
  | reducedDataOutputTooLarge (txid : Txid)
  | outputTotalOverflow
  | subsidyOverflow
  | coinbaseOverpay (actual allowed : ℕ)
  | missingInput (outpoint : OutPoint)
  | immatureCoinbase (outpoint : OutPoint)
  | inputTotalOverflow
  | accumulatedFeeOverflow
  | negativeFee (txid : Txid)
  | bip30 (txid : Txid)
  | badCoinbaseHeight
  | nonFinalTransaction
  | nonFinalSequence
  | script (txid : Txid) (input : ℕ) (reason : String)
deriving DecidableEq, Repr

/-- What a fallible function of the node returns on failure: a validation error or a message. -/
inductive Error where
  | validation (error : ValidationError)
  | message (text : String)
deriving DecidableEq, Repr

/-- Hashing and script execution, which the node takes from its libraries. -/
class Library where
  txid : Transaction → Txid
  wtxid : Transaction → Txid
  blockHash : Header → BlockHash
  /-- The double hash of two concatenated hashes. -/
  hashPair : ℕ → ℕ → ℕ
  /-- The double hash of a witness root and the reserved value. -/
  witnessCommitment : ℕ → List UInt8 → List UInt8
  /-- Script execution of all inputs of a transaction; the failing input and its reason. -/
  transactionScripts : Transaction → List TxOut → ℕ → Except (ℕ × String) Unit
  /-- Whether a block carries a solution of a signet challenge. -/
  signetSolution : Block → List UInt8 → Bool
  genesisBlock : Network → Block
  /-- The expected number of hashes that meet a header's target. -/
  work : Header → ℕ

export Library (blockHash hashPair)

/-- A library for evaluating small examples: a transaction is identified by its lock time, a header by its nonce, and
every script is valid. -/
@[reducible] def Library.sample : Library where
  txid tx := 1000 + tx.lockTime
  wtxid tx := 1000 + tx.lockTime
  blockHash header := header.nonce
  hashPair a b := a * 2 ^ 64 + b
  witnessCommitment _ nonce := nonce
  transactionScripts _ _ _ := .ok ()
  signetSolution _ _ := true
  genesisBlock _ := ⟨⟨1, 0, 0, 0, 0, 0⟩, [⟨1, 0, [⟨.null, [0, 0], 2 ^ 32 - 1, []⟩], [⟨5000000000, [0x51]⟩]⟩]⟩
  work header := header.bits + 1

variable [Library]

def Transaction.computeTxid (tx : Transaction) : Txid := Library.txid tx
def Block.blockHash (block : Block) : BlockHash := Library.blockHash block.header

def Block.txids (block : Block) : List Txid := block.txdata.map Transaction.computeTxid

def Transaction.outpoints (tx : Transaction) : List OutPoint :=
  (List.range tx.output.length).map fun vout => ⟨tx.computeTxid, vout⟩

end BitcoindRs
