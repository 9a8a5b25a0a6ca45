import BitcoindRs.Mempool.Types
import BitcoindRs.Data.PostOrder

/-! The dependency graph of the pool: parents, children and the sets that are collected along them. -/

namespace BitcoindRs
open Relation Worklist
variable [HashOrder ℕ]

namespace Mempool
variable {txid parent : Txid} {pool : Mempool}

def contains (pool : Mempool) (txid : Txid) : Bool := (pool.entries.lookup txid).isSome

def feeDelta (pool : Mempool) (txid : Txid) : ℤ := (pool.priorities.lookup txid).getD 0

def modifiedFeeSat (pool : Mempool) (txid : Txid) (baseFeeSat : ℕ) : ℤ := baseFeeSat + pool.feeDelta txid

def entryInputs (pool : Mempool) (txid : Txid) : List Txid := match pool.entries.lookup txid with
  | none => []
  | some entry => entry.transaction.inputTxids.filter pool.contains

def parents (pool : Mempool) (txid : Txid) : List Txid := (sortTxids (pool.entryInputs txid)).dedup

def children (pool : Mempool) (txid : Txid) : List Txid := match pool.childIndex.lookup txid with
  | none => []
  | some children => sortTxids ((HashOrder.elements children).filter pool.contains)

/-- All entries, parents before children, in the order of priority and identifier where there is a choice. -/
def transactionOrder (pool : Mempool) : List Txid :=
  Tour.order (fun txid => sortTxids (pool.entryInputs txid))
    ((HashOrder.elements pool.entries.keys).insertionSort fun left right =>
      pool.feeDelta right < pool.feeDelta left ∨
        pool.feeDelta left = pool.feeDelta right ∧ Txid.rank left ≤ Txid.rank right)

def ancestors (pool : Mempool) (txid : Txid) : List Txid :=
  if pool.contains txid then
    let found := spread (fun t => (pool.parents t).filter (· ≠ txid)) (1 + pool.entries.keys.card) [txid] ∅
    pool.transactionOrder.filter (· ∈ found)
  else []

def descendants (pool : Mempool) (txid : Txid) : List Txid :=
  if pool.contains txid then
    let found := spread (fun t => (pool.children t).filter (· ≠ txid)) (1 + pool.entries.keys.card) [txid] ∅
    pool.transactionOrder.filter (· ∈ found)
  else []

def connectedComponent (pool : Mempool) (txid : Txid) : Finset Txid :=
  if pool.contains txid then
    spread (fun t => pool.parents t ++ pool.children t) (1 + pool.entries.keys.card) [txid] {txid}
  else ∅

/-- Inputs from outside the pool are skipped when they are taken from the stack. -/
def ancestorsForTransaction (pool : Mempool) (tx : Transaction) : Finset Txid :=
  reach pool.entries.keys pool.parents (tx.inputTxids.filter pool.contains)

def conflictsFor [Library] (pool : Mempool) (tx : Transaction) : List Txid :=
  (sortTxids ((tx.input.filterMap fun input => pool.spent.lookup input.previousOutput).filter
    (· ≠ tx.computeTxid))).dedup

def conflictsAndDescendants (pool : Mempool) (conflicts : List Txid) : Finset Txid :=
  reach (pool.entries.keys ∪ conflicts.toFinset) pool.children conflicts

def connectedBy (pool : Mempool) (tx : Transaction) : Finset Txid :=
  reach pool.entries.keys (fun t => pool.entryInputs t ++ pool.children t) (tx.inputTxids.filter pool.contains)

section
omit [HashOrder ℕ]

theorem contains_iff : pool.contains txid = true ↔ ∃ entry, pool.entries.lookup txid = some entry := by
  rw [contains, Option.isSome_iff_exists]

theorem contains_iff_mem : pool.contains txid = true ↔ txid ∈ pool.entries.keys := by
  rw [contains, Finmap.lookup_isSome, Finmap.mem_keys]

theorem mem_sortTxids {ids : List Txid} : txid ∈ sortTxids ids ↔ txid ∈ ids := List.mem_insertionSort _

theorem mem_entryInputs : parent ∈ pool.entryInputs txid ↔
    ∃ entry, pool.entries.lookup txid = some entry ∧ parent ∈ entry.transaction.inputTxids ∧ pool.contains parent = true := by
  unfold entryInputs
  cases pool.entries.lookup txid <;> simp

theorem mem_parents : parent ∈ pool.parents txid ↔
    ∃ entry, pool.entries.lookup txid = some entry ∧ parent ∈ entry.transaction.inputTxids ∧ pool.contains parent = true := by
  rw [parents, List.mem_dedup, mem_sortTxids, mem_entryInputs]

end

theorem mem_children {child : Txid} : child ∈ pool.children txid ↔
    ∃ children, pool.childIndex.lookup txid = some children ∧ child ∈ children ∧ pool.contains child = true := by
  unfold children
  cases pool.childIndex.lookup txid with
  | none => simp
  | some children => simp [mem_sortTxids, HashOrder.mem]

omit [HashOrder ℕ] in
theorem tour_spec {pool : Mempool} {starts : List Txid} (all : ∀ txid, txid ∈ starts ↔ pool.contains txid = true) :
    (Tour.order (fun txid => sortTxids (pool.entryInputs txid)) starts).Nodup ∧
      ∀ txid, txid ∈ Tour.order (fun txid => sortTxids (pool.entryInputs txid)) starts ↔ pool.contains txid = true := by
  have closed : ∀ txid, ∀ parent ∈ sortTxids (pool.entryInputs txid), parent ∈ starts := by
    intro txid parent depends
    obtain ⟨-, -, -, inside⟩ := mem_entryInputs.mp (mem_sortTxids.mp depends)
    exact (all parent).mpr inside
  obtain ⟨nodup, mem⟩ := Tour.order_spec closed
  exact ⟨nodup, fun txid => (mem txid).trans (all txid)⟩

theorem transactionOrder_spec (pool : Mempool) :
    pool.transactionOrder.Nodup ∧ ∀ txid, txid ∈ pool.transactionOrder ↔ pool.contains txid = true := by
  apply tour_spec
  intro txid
  rw [List.mem_insertionSort, HashOrder.mem, contains_iff_mem]

end Mempool

end BitcoindRs
