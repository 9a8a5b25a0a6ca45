import BitcoindRs.Consensus.Merkle
import BitcoindRs.Consensus.Transactions
import BitcoindRs.Data.MerkleTower
import Mathlib.Data.Nat.Log

/-! The Merkle branch of a transaction in its block. -/

namespace BitcoindRs
open Merkle
variable [Library]

/-- `none` where the code panics on an index behind the layer. A round halves the layer, so its length bounds the rounds. -/
def merkleBranchFrom : ℕ → List Txid → ℕ → Option (List Txid)
  | 0, _, _ => some []
  | fuel + 1, layer, index =>
    if layer.length ≤ 1 then some []
    else do
      let sibling ← layer[if index ^^^ 1 < layer.length then index ^^^ 1 else index]?
      let branch ← merkleBranchFrom fuel (merkleLayer layer) (index / 2)
      some (sibling :: branch)

def merkleBranchForBlock (block : Block) (transactionIndex : ℕ) : Option (List Txid) :=
  merkleBranchFrom block.txids.length block.txids transactionIndex

omit [Library] in
theorem single_layer {layer : List Txid} {index : ℕ} {txid : Txid} (single : layer.length ≤ 1)
    (listed : layer[index]? = some txid) : 0 = Nat.clog 2 layer.length ∧ layer.head? = some txid := by
  have inside := (List.getElem?_eq_some_iff.mp listed).1
  obtain rfl : index = 0 := by omega
  exact ⟨(Nat.clog_of_right_le_one single 2).symm, by rw [List.head?_eq_getElem?, listed]⟩

-- The loop of the branch and that of the root go through the same layers.
theorem merkleBranchFrom_ascends {fuel : ℕ} {layer : List Txid} {index : ℕ} {txid : Txid} (mutated : Option Txid)
    (enough : layer.length ≤ fuel + 1) (listed : layer[index]? = some txid) :
    ∃ branch, merkleBranchFrom fuel layer index = some branch ∧ branch.length = Nat.clog 2 layer.length ∧
      (merkleRootAndMutatedTxid.go fuel layer mutated).1 = some (ascend hashPair txid index branch) := by
  induction fuel generalizing layer index txid mutated with
  | zero =>
    obtain ⟨flat, root⟩ := single_layer enough listed
    exact ⟨[], rfl, flat, root⟩
  | succ fuel ih =>
    rw [merkleBranchFrom, merkleRootAndMutatedTxid.go]
    by_cases single : layer.length ≤ 1
    · obtain ⟨flat, root⟩ := single_layer single listed
      rw [if_pos single, if_pos single]
      exact ⟨[], rfl, flat, root⟩
    · obtain ⟨sibling, beside, above⟩ := @exists_sibling _ hashPair _ _ _ listed
      have shorter := @length_layer _ hashPair layer
      rw [if_neg single, if_neg single, beside, merkleLayer_eq]
      obtain ⟨branch, rest, height, root⟩ := ih (mutated.or (layerMutated layer)) (by omega) above
      refine ⟨sibling :: branch, by rw [rest]; rfl, ?_, root⟩
      rw [List.length_cons, height, shorter]
      exact (@Nat.clog_of_two_le 2 layer.length one_lt_two (by omega)).symm

/-- The branch of every transaction leads from its identifier to the root of the block, and is as long as the tree is high. -/
theorem merkle_branch_verifies {block : Block} {index : ℕ} {tx : Transaction} (listed : block.txdata[index]? = some tx) :
    ∃ branch, merkleBranchForBlock block index = some branch ∧ branch.length = Nat.clog 2 block.txdata.length ∧
      (merkleRootAndMutatedTxid block.txids).1 = some (ascend hashPair tx.computeTxid index branch) := by
  have named : block.txids[index]? = some tx.computeTxid := by
    rw [Block.txids, List.getElem?_map, listed, Option.map_some]
  rw [show block.txdata.length = block.txids.length from (List.length_map _).symm]
  exact merkleBranchFrom_ascends none (Nat.le_succ block.txids.length) named

omit [Library] in
/-- The last of three payments, paired with itself. -/
theorem merkle_branch_verifies_odd : let _ := Library.sample
    let block := sampleBlock 1 [sampleCoinbase 1 0, sampleSpend 1 [] [], sampleSpend 2 [] []]
    ∃ branch, merkleBranchForBlock block 2 = some branch ∧ branch.length = 2 := by
  intro _ block
  obtain ⟨branch, found, length, -⟩ := merkle_branch_verifies (show block.txdata[2]? = some (sampleSpend 2 [] []) from rfl)
  exact ⟨branch, found, length.trans (by decide)⟩

end BitcoindRs
