import BitcoindRs.Mempool.Admission

/-! Selection of transactions for a block by the fee rate of ancestor packages. -/

namespace BitcoindRs
open Checked
variable [Library] [PolicyLibrary] [HashOrder ℕ]

structure MiningPackageMetrics where
  fee : ℤ
  weight : ℕ
  version : ℕ
deriving DecidableEq, Repr

structure MiningCandidate where
  txid : Txid
  fee : ℤ
  weight : ℕ
  version : ℕ
deriving DecidableEq, Repr

/-- `Ord`: the fee rate, then the smaller identifier. -/
def MiningCandidate.cmp (left right : MiningCandidate) : Ordering :=
  (compare (satI128 (left.fee * right.weight)) (satI128 (right.fee * left.weight))).then <|
  (compare (Txid.rank right.txid) (Txid.rank left.txid)).then <|
  (compare left.version right.version).then <|
  (compare left.fee right.fee).then (compare left.weight right.weight)

def bestCandidate (heap : List MiningCandidate) : Option MiningCandidate :=
  heap.foldl (fun best candidate => match best with
    | none => some candidate
    | some best => if best.cmp candidate = .lt then some candidate else some best) none

namespace Mempool

/-- The entry with its ancestors that are not selected yet. Entries under way are distinct, which bounds the depth. -/
def collectMiningPackage (pool : Mempool) (selected : Finset Txid) :
    ℕ → Finset Txid → Finset Txid → Txid → Option (Finset Txid)
  | 0, _, _, _ => none
  | depth + 1, visiting, package, txid =>
    if txid ∈ selected ∨ txid ∈ package then some package
    else if pool.contains txid = false ∨ txid ∈ visiting then none
    else do
      let package ← (pool.parents txid).foldlM (pool.collectMiningPackage selected depth (insert txid visiting)) package
      some (insert txid package)

def miningPackage (pool : Mempool) (selected : Finset Txid) (txid : Txid) : Option (Finset Txid) :=
  pool.collectMiningPackage selected (pool.entries.keys.card + 1) ∅ ∅ txid

def appendMiningPackage (pool : Mempool) (package : Finset Txid) :
    ℕ → Finset Txid × List Txid → Txid → Finset Txid × List Txid
  | 0, state, _ => state
  | depth + 1, state, txid =>
    if txid ∈ state.1 ∨ txid ∉ package then state
    else
      let (selected, ordered) := (pool.parents txid).foldl (pool.appendMiningPackage package depth) state
      if txid ∈ selected then (selected, ordered) else (insert txid selected, ordered ++ [txid])

def packageWeight (pool : Mempool) (package : Finset Txid) : ℕ := usize (∑ txid ∈ package, pool.adjustedWeight txid)

structure MiningState where
  selected : Finset Txid
  ordered : List Txid
  selectedWeight : ℕ
  metrics : FMap Txid MiningPackageMetrics
  heap : List MiningCandidate

def enterCandidate (pool : Mempool) (st : MiningState) (txid : Txid) : MiningState :=
  match pool.miningPackage ∅ txid with
  | none => st
  | some package =>
    let fee := pool.packageFee package
    let weight := pool.packageWeight package
    { st with
      metrics := st.metrics.insert txid ⟨fee, weight, 0⟩
      heap := ⟨txid, fee, weight, 0⟩ :: st.heap }

def eligible (st : MiningState) (weightLimit minFeeSatPerKvb : ℕ) (enforceNonnegativeFee : Bool) (c : MiningCandidate) : Bool :=
  c.txid ∉ st.selected ∧ st.metrics.lookup c.txid = some ⟨c.fee, c.weight, c.version⟩ ∧
    satAddU64 st.selectedWeight c.weight ≤ weightLimit ∧ ¬ (enforceNonnegativeFee = true ∧ c.fee < 0) ∧
    (minFeeSatPerKvb = 0 ∨ minFeeSatPerKvb * (satAddU64 c.weight 3 / 4 : ℕ) ≤ satI128 (c.fee * 1000))

def nextMiningCandidate (weightLimit minFeeSatPerKvb : ℕ) (enforceNonnegativeFee : Bool) (st : MiningState) :
    ℕ → List MiningCandidate → Option (MiningCandidate × List MiningCandidate)
  | 0, _ => none
  | size + 1, heap => match bestCandidate heap with
    | none => none
    | some best =>
      if eligible st weightLimit minFeeSatPerKvb enforceNonnegativeFee best then some (best, heap.erase best)
      else nextMiningCandidate weightLimit minFeeSatPerKvb enforceNonnegativeFee st size (heap.erase best)

def discountDescendant (fee : ℤ) (weight : ℕ) (st : MiningState) (descendant : Txid) : MiningState :=
  if descendant ∈ st.selected then st
  else match st.metrics.lookup descendant with
    | none => st
    | some m =>
      let m : MiningPackageMetrics := ⟨satI128 (m.fee - fee), m.weight - weight, satAddU64 m.version 1⟩
      { st with
        metrics := st.metrics.insert descendant m
        heap := ⟨descendant, m.fee, m.weight, m.version⟩ :: st.heap }

def selfAndDescendants (pool : Mempool) (txid : Txid) : Finset Txid :=
  Worklist.spread pool.children (1 + pool.entries.keys.card) [txid] {txid}

def discountSelected (pool : Mempool) (st : MiningState) (txid : Txid) : MiningState :=
  let fee := ((pool.entries.lookup txid).map fun entry => pool.modifiedFeeSat txid entry.feeSat).getD 0
  (HashOrder.elements (pool.selfAndDescendants txid)).foldl (discountDescendant fee (pool.adjustedWeight txid))
    { st with metrics := st.metrics.erase txid }

def selectPackage (pool : Mempool) (st : MiningState) (txid : Txid) (package : Finset Txid) : MiningState :=
  let (selected, packageOrder) := pool.appendMiningPackage package (package.card + 1) (st.selected, []) txid
  (HashOrder.elements package).foldl pool.discountSelected { st with
    selected
    ordered := st.ordered ++ packageOrder
    selectedWeight := satAddU64 st.selectedWeight (pool.packageWeight package) }

/-- A round takes a candidate for good, and there are no more candidates than entries and pairs of entries. -/
def miningLoop (pool : Mempool) (weightLimit minFeeSatPerKvb : ℕ) (enforceNonnegativeFee : Bool) : ℕ → MiningState → MiningState
  | 0, st => st
  | rounds + 1, st =>
    if pool.entries.keys.card ≤ st.selected.card then st
    else match nextMiningCandidate weightLimit minFeeSatPerKvb enforceNonnegativeFee st st.heap.length st.heap with
      | none => st
      | some (candidate, heap) =>
        let st := { st with heap }
        match pool.miningPackage st.selected candidate.txid with
        | none => pool.miningLoop weightLimit minFeeSatPerKvb enforceNonnegativeFee rounds st
        | some package =>
          pool.miningLoop weightLimit minFeeSatPerKvb enforceNonnegativeFee rounds (pool.selectPackage st candidate.txid package)

def miningOrderInternalWithMinFee (pool : Mempool) (maxWeight reservedWeight minFeeSatPerKvb : ℕ)
    (enforceNonnegativeFee : Bool) : List Txid :=
  let entered := (HashOrder.elements pool.entries.keys).foldl pool.enterCandidate ⟨∅, [], 0, ∅, []⟩
  let n := pool.entries.keys.card
  (pool.miningLoop (maxWeight - reservedWeight) minFeeSatPerKvb enforceNonnegativeFee (n + n * n) entered).ordered

def miningOrder (pool : Mempool) (maxWeight reservedWeight : ℕ) : List Txid :=
  pool.miningOrderInternalWithMinFee maxWeight reservedWeight 0 true

def miningOrderWithMinFee (pool : Mempool) (maxWeight reservedWeight minFeeSatPerKvb : ℕ) : List Txid :=
  pool.miningOrderInternalWithMinFee maxWeight reservedWeight minFeeSatPerKvb true

end Mempool

end BitcoindRs
