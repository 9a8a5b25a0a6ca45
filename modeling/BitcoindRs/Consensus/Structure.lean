import BitcoindRs.Consensus.Script

/-! Context-free block validation: sizes, the Merkle root, the witness commitment and the shape of transactions. -/

namespace BitcoindRs
open Result Checked Codec List

def TxOut.serialize (out : TxOut) : Bytes :=
  leBytes 8 out.value ++ compactSize out.scriptPubkey.length ++ out.scriptPubkey

def TxOut.size (out : TxOut) : ℕ := 8 + (compactSize out.scriptPubkey.length).length + out.scriptPubkey.length

def TxIn.baseSize (input : TxIn) : ℕ :=
  36 + (compactSize input.scriptSig.length).length + input.scriptSig.length + 4

def witnessSize (witness : List (List UInt8)) : ℕ :=
  (compactSize witness.length).length + (witness.map fun item => (compactSize item.length).length + item.length).sum

def Transaction.usesSegwitSerialization (tx : Transaction) : Bool :=
  tx.input.any (fun input => !input.witness.isEmpty) || tx.input.isEmpty

def Transaction.baseSize (tx : Transaction) : ℕ :=
  4 + (compactSize tx.input.length).length + (tx.input.map TxIn.baseSize).sum +
    (compactSize tx.output.length).length + (tx.output.map TxOut.size).sum + 4

def Transaction.totalSize (tx : Transaction) : ℕ :=
  tx.baseSize + if tx.usesSegwitSerialization then 2 + (tx.input.map fun input => witnessSize input.witness).sum else 0

def Block.baseSize (block : Block) : ℕ :=
  80 + (compactSize block.txdata.length).length + (block.txdata.map Transaction.baseSize).sum

def Block.totalSize (block : Block) : ℕ :=
  80 + (compactSize block.txdata.length).length + (block.txdata.map Transaction.totalSize).sum

def Block.weight (block : Block) : ℕ := 3 * block.baseSize + block.totalSize

def maxBlockWeight : ℕ := 4000000
def maxBlockSigopCost : ℕ := 80000

variable [Library]

def merkleLayer : List ℕ → List ℕ
  | [] => []
  | [x] => [hashPair x x]
  | x :: y :: rest => hashPair x y :: merkleLayer rest

omit [Library] in
def layerMutated : List ℕ → Option ℕ
  | x :: y :: rest => if x = y then some x else layerMutated rest
  | _ => none

def merkleRootAndMutatedTxid (ids : List Txid) : Option ℕ × Option Txid :=
  let rec go : ℕ → List ℕ → Option Txid → Option ℕ × Option Txid
    | 0, layer, mutated => (layer.head?, mutated)
    | fuel + 1, layer, mutated =>
      if layer.length ≤ 1 then (layer.head?, mutated)
      else go fuel (merkleLayer layer) (mutated.or (layerMutated layer))
  go ids.length ids none

def Block.witnessRoot (block : Block) : Option ℕ :=
  (merkleRootAndMutatedTxid (block.txdata.zipIdx.map fun (tx, index) => if index = 0 then 0 else Library.wtxid tx)).1

def validateMerkleRoot (block : Block) (transactionIds : List Txid) : Except ValidationError Unit := do
  let (merkleRoot, mutatedTxid) := merkleRootAndMutatedTxid transactionIds
  bailIf (merkleRoot ≠ some block.header.merkleRoot) .badMerkleRoot
  match mutatedTxid with
  | some txid => .error (.duplicateTransaction txid)
  | none => .ok ()

omit [Library] in
/-- The last coinbase output that carries a witness commitment. -/
def commitmentOutput (coinbase : Transaction) : Option TxOut :=
  coinbase.output.reverse.find? fun output =>
    38 ≤ output.scriptPubkey.length && output.scriptPubkey.take 6 == [0x6a, 0x24, 0xaa, 0x21, 0xa9, 0xed]

omit [Library] in
def Block.hasWitness (block : Block) : Bool := block.txdata.any fun tx => tx.input.any fun input => !input.witness.isEmpty

def validateWitnessCommitment (block : Block) (expectWitnessCommitment : Bool) : Except ValidationError Unit :=
  match block.txdata.head?.bind commitmentOutput, expectWitnessCommitment with
  | some output, true =>
    match block.txdata.head?.bind (·.input.head?) with
    | some ⟨_, _, _, [nonce]⟩ => do
      bailIf (nonce.length ≠ 32) .badWitnessNonceSize
      let root ← okOr block.witnessRoot .badWitnessMerkleMatch
      bailIf ((output.scriptPubkey.drop 6).take 32 ≠ Library.witnessCommitment root nonce) .badWitnessMerkleMatch
    | _ => .error .badWitnessNonceSize
  | _, _ => bailIf block.hasWitness .unexpectedWitness

section
omit [Library]

def validateBlockVersionWithParams (params : DeploymentParameters) (height : ℕ) (actual : ℤ) : Except ValidationError Unit :=
  let required : ℤ :=
    if params.buried.bip65 ≤ height then 4
    else if params.buried.bip66 ≤ height then 3
    else if params.buried.bip34 ≤ height then 2
    else 1
  bailIf (actual < required) (.badBlockVersion actual required)

/-- A script number: little-endian without leading zero bytes, the top bit being the sign. -/
def scriptNum (n : ℕ) : Bytes :=
  let rec go : ℕ → ℕ → Bytes
    | 0, _ => []
    | fuel + 1, n =>
      if n = 0 then [] else if n < 128 then [UInt8.ofNat n]
      else if n < 256 then [UInt8.ofNat n, 0]
      else UInt8.ofNat n :: go fuel (n / 256)
  go 9 n

/-- `Builder::push_int` of a height. -/
def pushInt (n : ℕ) : Script :=
  if n = 0 then [0x00]
  else if n ≤ 16 then [UInt8.ofNat (0x50 + n)]
  else UInt8.ofNat (scriptNum n).length :: scriptNum n

end

structure BlockValidationStats where
  txCount : ℕ
  totalOutputSat : ℕ
deriving DecidableEq, Repr

structure StructureChecks where
  signetSolution : Bool
  merkleRoot : Bool
  witnessCommitment : Bool
deriving DecidableEq, Repr

omit [Library] in
def transactionOutputTotal (tx : Transaction) (txid : Txid) : Except ValidationError ℕ :=
  tx.output.foldlM (fun total output => do
    bailIf (2 ^ 63 - 1 < output.value) (.negativeOutputValue txid)
    bailIf (maxMoney < output.value) (.badOutputValue txid)
    okOr (addU64 total output.value) .outputTotalOverflow) 0

omit [Library] in
/-- One iteration of the transaction loop, on the output total and the sigop cost so far. -/
def validateTransactionStructure (acc : ℕ × ℕ) (indexed : (Transaction × Txid) × ℕ) : Except ValidationError (ℕ × ℕ) := do
  let ((tx, txid), position) := indexed
  bailIf (maxBlockWeight < 4 * tx.baseSize) (.oversizedTransaction txid)
  bailIf (0 < position ∧ tx.isCoinbase) (.extraCoinbase txid)
  bailIf (tx.input = []) (.emptyInputs txid)
  bailIf (tx.output = []) (.emptyOutputs txid)
  let txTotal ← transactionOutputTotal tx txid
  bailIf (maxMoney < txTotal) .outputTotalOverflow
  bailIf (¬tx.prevouts.Nodup) (.duplicateInput txid)
  bailIf (¬tx.isCoinbase ∧ tx.input.any fun input => input.previousOutput.isNull) (.nullPrevout txid)
  let scriptSigLength := (tx.input.head?.map (·.scriptSig.length)).getD 0
  bailIf (tx.isCoinbase ∧ (scriptSigLength < 2 ∨ 100 < scriptSigLength)) .badCoinbase
  let totalOutputSat ← okOr (addU64 acc.1 txTotal) .outputTotalOverflow
  let legacySigopCost := acc.2 + legacySigopCostForTransaction tx
  bailIf (maxBlockSigopCost < legacySigopCost) .tooManySigops
  .ok (totalOutputSat, legacySigopCost)

def validateBlockStructureWithOptionsInternal (block : Block) (transactionIds : List Txid)
    (params : DeploymentParameters) (height expectedCoinbaseValue : ℕ) (signetChallenge : Option Bytes)
    (checks : StructureChecks) : Except ValidationError BlockValidationStats := do
  let first ← okOr block.txdata.head? .emptyBlock
  validateBlockVersionWithParams params height block.header.version
  runIf checks.merkleRoot (validateMerkleRoot block transactionIds)
  runIf checks.witnessCommitment (validateWitnessCommitment block (params.buried.segwit ≤ height))
  bailIf (maxBlockWeight < 4 * block.baseSize) .oversizedBlockBase
  bailIf (maxBlockWeight < block.weight) .oversizedBlock
  bailIf (first.isCoinbase = false) .firstTransactionNotCoinbase
  let coinbaseTotal ← okOr (sumU64 (first.output.map (·.value))) .outputTotalOverflow
  let totals ← (block.txdata.zip transactionIds).zipIdx.foldlM validateTransactionStructure (0, 0)
  bailIf (params.buried.bip34 ≤ height ∧
    ((first.input.head?.map fun input => (pushInt height).isPrefixOf input.scriptSig).getD false) = false)
    .badCoinbaseHeight
  bailIf (expectedCoinbaseValue < coinbaseTotal) (.coinbaseOverpay coinbaseTotal expectedCoinbaseValue)
  runIf checks.signetSolution (bailIf (signetChallenge.any fun challenge => !Library.signetSolution block challenge)
    .badSignetSolution)
  .ok ⟨block.txdata.length, totals.1⟩

def validateBlockStructure (params : DeploymentParameters) (signetChallenge : Option Bytes) (block : Block)
    (height : ℕ) : Except ValidationError BlockValidationStats :=
  validateBlockStructureWithOptionsInternal block block.txids params height maxMoney signetChallenge ⟨true, true, true⟩

omit [Library] in
theorem transactionOutputTotal_ok {tx : Transaction} {txid : Txid} {total : ℕ}
    (h : transactionOutputTotal tx txid = .ok total) : total = (tx.output.map (·.value)).sum := by
  refine foldlM_invariant (fun passed total => total = (passed.map (·.value)).sum) ?_ h rfl
  intro passed s output t holds run
  obtain ⟨_, run⟩ := guard_ok run
  obtain ⟨_, run⟩ := guard_ok run
  rw [(addU64_some.mp (okOr_ok.mp run)).1, holds]
  simp

structure Transaction.WellFormed (tx : Transaction) : Prop where
  inputs : tx.input ≠ []
  outputs : tx.output ≠ []
  total : (tx.output.map (·.value)).sum ≤ maxMoney
  distinct : tx.prevouts.Nodup
  notNull : tx.isCoinbase = false → OutPoint.null ∉ tx.prevouts

omit [Library] in
theorem validateTransactionStructure_ok {acc acc' : ℕ × ℕ} {tx : Transaction} {txid : Txid} {position : ℕ}
    (h : validateTransactionStructure acc ((tx, txid), position) = .ok acc') :
    tx.WellFormed ∧ (0 < position → tx.isCoinbase = false) ∧
      acc'.1 = acc.1 + (tx.output.map (·.value)).sum ∧ acc'.1 < u64Bound := by
  unfold validateTransactionStructure at h
  obtain ⟨_, h⟩ := guard_ok h
  obtain ⟨notExtra, h⟩ := guard_ok h
  obtain ⟨inputs, h⟩ := guard_ok h
  obtain ⟨outputs, h⟩ := guard_ok h
  obtain ⟨total, totalled, h⟩ := bind_ok h
  have sum := transactionOutputTotal_ok totalled
  obtain ⟨inRange, h⟩ := guard_ok h
  obtain ⟨distinct, h⟩ := guard_ok h
  obtain ⟨notNull, h⟩ := guard_ok h
  obtain ⟨_, h⟩ := guard_ok h
  obtain ⟨sat, added, h⟩ := bind_ok h
  obtain ⟨_, h⟩ := guard_ok h
  obtain ⟨exact, fits⟩ := addU64_some.mp (okOr_ok.mp added)
  cases h
  subst sum
  refine ⟨⟨inputs, outputs, Nat.le_of_not_lt inRange, not_not.mp distinct, ?_⟩, ?_, exact, exact ▸ fits⟩
  · intro spends null
    obtain ⟨input, member, same⟩ := mem_map.mp null
    exact notNull ⟨by simp [spends], any_eq_true.mpr ⟨input, member, by simp [OutPoint.isNull, same]⟩⟩
  · intro later
    cases coinbase : tx.isCoinbase with
    | false => rfl
    | true => exact absurd ⟨later, coinbase⟩ notExtra

structure Block.WellFormed (block : Block) : Prop where
  coinbase : ∃ tx rest, block.txdata = tx :: rest ∧ tx.isCoinbase = true ∧ ∀ other ∈ rest, other.isCoinbase = false
  transactions : ∀ tx ∈ block.txdata, tx.WellFormed
  total : (block.txdata.map fun tx => (tx.output.map (·.value)).sum).sum < u64Bound
  weight : block.weight ≤ maxBlockWeight

theorem validateBlockStructure_ok {params : DeploymentParameters} {challenge : Option Bytes} {block : Block}
    {height : ℕ} {stats : BlockValidationStats} (h : validateBlockStructure params challenge block height = .ok stats) :
    block.WellFormed := by
  unfold validateBlockStructure validateBlockStructureWithOptionsInternal at h
  obtain ⟨first, head, h⟩ := bind_ok h
  obtain ⟨_, _, h⟩ := bind_ok h
  obtain ⟨_, _, h⟩ := bind_ok h
  obtain ⟨_, _, h⟩ := bind_ok h
  obtain ⟨_, h⟩ := guard_ok h
  obtain ⟨weight, h⟩ := guard_ok h
  obtain ⟨isCoinbase, h⟩ := guard_ok h
  obtain ⟨_, _, h⟩ := bind_ok h
  obtain ⟨totals, loop, -⟩ := bind_ok h
  have head := okOr_ok.mp head
  obtain ⟨rest, shape⟩ : ∃ rest, block.txdata = first :: rest := by
    cases same : block.txdata with
    | nil => simp [same] at head
    | cons tx rest =>
      simp only [same, head?_cons, Option.some.injEq] at head
      exact ⟨rest, by rw [head]⟩
  -- Every transaction occurs in the loop with its position.
  have visited : ∀ (i : ℕ) (tx : Transaction), block.txdata[i]? = some tx →
      ∃ txid, ((tx, txid), i) ∈ (block.txdata.zip block.txids).zipIdx := by
    intro i tx found
    refine ⟨tx.computeTxid, mem_zipIdx_iff_getElem?.mpr ?_⟩
    rw [getElem?_zip_eq_some]
    exact ⟨found, by simp [Block.txids, found]⟩
  have each := foldlM_forall (fun indexed => indexed.1.1.WellFormed ∧ (0 < indexed.2 → indexed.1.1.isCoinbase = false))
    (fun _ _ _ run => ⟨(validateTransactionStructure_ok run).1, (validateTransactionStructure_ok run).2.1⟩) loop
  have sums := foldlM_invariant
    (fun passed acc => acc.1 = (passed.map fun indexed => (indexed.1.1.output.map (·.value)).sum).sum ∧ acc.1 < u64Bound)
    (fun passed acc indexed acc' holds run => by
      obtain ⟨-, -, added, fits⟩ := validateTransactionStructure_ok run
      exact ⟨by simp [added, holds.1], fits⟩) loop ⟨rfl, by decide⟩
  refine ⟨⟨first, rest, shape, by simpa using isCoinbase, ?_⟩, ?_, ?_, Nat.le_of_not_lt weight⟩
  · intro other member
    obtain ⟨i, found⟩ := mem_iff_getElem?.mp member
    obtain ⟨txid, present⟩ := visited (i + 1) other (by simp [shape, found])
    exact (each _ present).2 (Nat.succ_pos i)
  · intro tx member
    obtain ⟨i, found⟩ := mem_iff_getElem?.mp member
    obtain ⟨txid, present⟩ := visited i tx found
    exact (each _ present).1
  · have same : ((block.txdata.zip block.txids).zipIdx.map fun indexed => (indexed.1.1.output.map (·.value)).sum) =
        block.txdata.map fun tx => (tx.output.map (·.value)).sum := by
      have unzipped : (block.txdata.zip block.txids).zipIdx.map (fun indexed => indexed.1.1) = block.txdata := by
        rw [← Function.comp_def Prod.fst Prod.fst, ← map_map, zipIdx_map_fst]
        exact map_fst_zip (by simp [Block.txids])
      conv_rhs => rw [← unzipped, map_map]
      rfl
    rw [← same, ← sums.1]
    exact sums.2

end BitcoindRs
