import BitcoindRs.Chain.Disconnect

/-!
The state of the chain: the block index, the active chain, the UTXO map in memory and the one on disk, the caches and
the running coin statistics. The stores are the maps they implement; the service indexes are left out.
-/

namespace BitcoindRs
open Result Checked FMap

structure BlockNode where
  header : Header
  height : ℕ
  chainWork : ℕ
  skip : Option BlockHash
deriving DecidableEq, Repr

abbrev BlockIndex := FMap BlockHash BlockNode

structure MissingUtxoCache where
  entries : Finset OutPoint
  order : List OutPoint

namespace MissingUtxoCache
variable {cache : MissingUtxoCache} {o outpoint : OutPoint}

def maxEntries : ℕ := 8192

def insert (cache : MissingUtxoCache) (outpoint : OutPoint) : MissingUtxoCache :=
  if outpoint ∈ cache.entries then cache
  else
    let order := cache.order ++ [outpoint]
    let excess := order.length - maxEntries
    ⟨Insert.insert outpoint cache.entries \ (order.take excess).toFinset, order.drop excess⟩

def remove (cache : MissingUtxoCache) (outpoint : OutPoint) : MissingUtxoCache :=
  if outpoint ∈ cache.entries then ⟨cache.entries.erase outpoint, cache.order.filter (· ≠ outpoint)⟩ else cache

def removeAll (cache : MissingUtxoCache) (outpoints : List OutPoint) : MissingUtxoCache :=
  outpoints.foldl remove cache

theorem mem_insert (member : o ∈ (cache.insert outpoint).entries) : o = outpoint ∨ o ∈ cache.entries := by
  unfold insert at member
  split at member
  · exact .inr member
  · exact Finset.mem_insert.mp (Finset.mem_sdiff.mp member).1

@[simp] theorem mem_remove : o ∈ (cache.remove outpoint).entries ↔ o ≠ outpoint ∧ o ∈ cache.entries := by
  unfold remove
  split
  · exact Finset.mem_erase
  · rename_i absent
    constructor
    · exact fun member => ⟨fun same => absent (same ▸ member), member⟩
    · exact fun member => member.2

@[simp] theorem mem_removeAll {outpoints : List OutPoint} :
    o ∈ (cache.removeAll outpoints).entries ↔ o ∉ outpoints ∧ o ∈ cache.entries := by
  unfold removeAll
  induction outpoints generalizing cache with
  | nil => simp
  | cons outpoint outpoints ih =>
    rw [List.foldl_cons, ih, mem_remove, List.mem_cons, not_or]
    tauto

end MissingUtxoCache

structure CoinStatsState where
  transactionOutputs : FMap Txid ℕ
  outputs : ℕ
  totalAmountSat : ℕ
  bogoSize : ℕ
  totalSubsidySat : ℕ
  totalPrevoutSpentSat : ℕ
  totalNewOutputsExCoinbaseSat : ℕ
  totalCoinbaseSat : ℕ
  totalUnspendableGenesisSat : ℕ
  totalUnspendableBip30Sat : ℕ
  totalUnspendableScriptsSat : ℕ
  totalUnspendableUnclaimedRewardsSat : ℕ

structure CoinStatsRecord where
  blockHash : BlockHash
  height : ℕ
  transactions : ℕ
  state : CoinStatsState

def utxoBogoSize (entry : UtxoEntry) : ℕ := satAddU64 (32 + 4 + 4 + 8 + 2) entry.output.scriptPubkey.length

namespace CoinStatsState

def default : CoinStatsState := ⟨∅, 0, 0, 0, 0, 0, 0, 0, 0, 0, 0, 0⟩

def add (stats : CoinStatsState) (outpoint : OutPoint) (entry : UtxoEntry) : CoinStatsState := { stats with
  transactionOutputs := stats.transactionOutputs.insert outpoint.txid
    ((stats.transactionOutputs.lookup outpoint.txid).getD 0 + 1)
  outputs := satAddU64 stats.outputs 1
  totalAmountSat := satAddU64 stats.totalAmountSat entry.value
  bogoSize := satAddU64 stats.bogoSize (utxoBogoSize entry) }

def remove (stats : CoinStatsState) (outpoint : OutPoint) (entry : UtxoEntry) : CoinStatsState := { stats with
  transactionOutputs := match stats.transactionOutputs.lookup outpoint.txid with
    | none => stats.transactionOutputs
    | some count =>
      if count - 1 = 0 then stats.transactionOutputs.erase outpoint.txid
      else stats.transactionOutputs.insert outpoint.txid (count - 1)
  outputs := stats.outputs - 1
  totalAmountSat := stats.totalAmountSat - entry.value
  bogoSize := stats.bogoSize - utxoBogoSize entry }

def applyGenesis (stats : CoinStatsState) (network : Network) : CoinStatsState :=
  let subsidy := blockSubsidyForNetwork network 0
  { stats with
    totalSubsidySat := satAddU64 stats.totalSubsidySat subsidy
    totalUnspendableGenesisSat := satAddU64 stats.totalUnspendableGenesisSat subsidy }

def applyBlockMetrics (stats : CoinStatsState) (metrics : CoinStatsBlockMetrics) : CoinStatsState :=
  let next := { stats with
    totalSubsidySat := satAddU64 stats.totalSubsidySat metrics.subsidySat
    totalPrevoutSpentSat := satAddU64 stats.totalPrevoutSpentSat metrics.prevoutSpentSat
    totalNewOutputsExCoinbaseSat := satAddU64 stats.totalNewOutputsExCoinbaseSat metrics.newOutputsExCoinbaseSat
    totalCoinbaseSat := satAddU64 stats.totalCoinbaseSat metrics.coinbaseSat
    totalUnspendableBip30Sat := satAddU64 stats.totalUnspendableBip30Sat metrics.unspendableBip30Sat
    totalUnspendableScriptsSat := satAddU64 stats.totalUnspendableScriptsSat metrics.unspendableScriptsSat }
  let accounted := [next.totalCoinbaseSat, next.totalUnspendableGenesisSat, next.totalUnspendableBip30Sat,
    next.totalUnspendableScriptsSat, next.totalUnspendableUnclaimedRewardsSat].foldl satAddU64
      next.totalNewOutputsExCoinbaseSat
  let available := satAddU64 next.totalPrevoutSpentSat next.totalSubsidySat
  { next with
    totalUnspendableUnclaimedRewardsSat := satAddU64 next.totalUnspendableUnclaimedRewardsSat (available - accounted) }

def record (stats : CoinStatsState) (hash : BlockHash) (height : ℕ) : CoinStatsRecord :=
  ⟨hash, height, stats.transactionOutputs.keys.card, stats⟩

def loadCumulativeFromRecord (stats : CoinStatsState) (record : CoinStatsRecord) : CoinStatsState :=
  { record.state with
    transactionOutputs := stats.transactionOutputs
    outputs := stats.outputs
    totalAmountSat := stats.totalAmountSat
    bogoSize := stats.bogoSize }

variable [HashOrder OutPoint]

def fromUtxos (utxos : UtxoMap) : CoinStatsState :=
  utxos.toList.foldl (fun stats coin => stats.add coin.1 coin.2) default

end CoinStatsState

/-- `TxLocation`. -/
structure TxLocation where
  blockHash : BlockHash
  height : ℕ
  transactionIndex : ℕ
deriving DecidableEq, Repr

/-- The coins of the active tip: the resident map with the flag that says whether it is in use, the stored map, the
outpoints known to be missing and the running statistics. -/
structure CoinView where
  utxos : UtxoMap
  utxosMaterialized : Bool
  utxoStore : UtxoMap
  missingUtxoCache : MissingUtxoCache
  coinStats : Option CoinStatsState

namespace CoinView

def utxoChecked (view : CoinView) (outpoint : OutPoint) : Option UtxoEntry × CoinView :=
  if outpoint ∈ view.missingUtxoCache.entries then (none, view)
  else match (view.utxoStore.lookup outpoint).or (view.utxos.lookup outpoint) with
    | some entry => (some entry, view)
    | none => (none, { view with missingUtxoCache := view.missingUtxoCache.insert outpoint })

def removeUtxoEntry (view : CoinView) (outpoint : OutPoint) (entry : UtxoEntry) : CoinView :=
  { view with coinStats := view.coinStats.map fun stats => stats.remove outpoint entry }

def removeUtxo (view : CoinView) (outpoint : OutPoint) : Option (UtxoEntry × CoinView) :=
  if view.utxosMaterialized then
    (view.utxos.lookup outpoint).map fun entry =>
      (entry, removeUtxoEntry { view with utxos := view.utxos.erase outpoint } outpoint entry)
  else none

def replacedUtxo (view : CoinView) (outpoint : OutPoint) : Option UtxoEntry :=
  if view.utxosMaterialized then view.utxos.lookup outpoint else view.utxoStore.lookup outpoint

def insertUtxo (view : CoinView) (outpoint : OutPoint) (entry : UtxoEntry) : CoinView := { view with
  missingUtxoCache := view.missingUtxoCache.remove outpoint
  utxos := if view.utxosMaterialized then view.utxos.insert outpoint entry else view.utxos
  coinStats := view.coinStats.map fun stats => match view.replacedUtxo outpoint with
    | some previous => (stats.remove outpoint previous).add outpoint entry
    | none => stats.add outpoint entry }

def insertFreshUtxo (view : CoinView) (outpoint : OutPoint) (entry : UtxoEntry) : CoinView := { view with
  missingUtxoCache := view.missingUtxoCache.remove outpoint
  utxos := if view.utxosMaterialized then view.utxos.insert outpoint entry else view.utxos
  coinStats := view.coinStats.map fun stats => stats.add outpoint entry }

def materializeUtxos (view : CoinView) : CoinView :=
  if view.utxosMaterialized then view else { view with utxos := view.utxoStore, utxosMaterialized := true }

def releaseMaterializedUtxos (view : CoinView) : CoinView := { view with utxos := ∅, utxosMaterialized := false }

def syncUtxoStore (view : CoinView) : CoinView :=
  if view.utxosMaterialized then { view with utxoStore := view.utxos } else view

end CoinView

/-- The mutation of one block, as stored for a replay after a restart. -/
structure ChainstateDelta where
  blockHash : BlockHash
  parentHash : BlockHash
  height : ℕ
  spent : List (OutPoint × UtxoEntry)
  created : List (OutPoint × UtxoEntry)
  transactions : List (Txid × TxLocation)
  metrics : CoinStatsBlockMetrics

structure ActiveChain where
  hashes : List BlockHash
  headers : List Header
  txCounts : List ℕ
  txTotals : List ℕ

def ActiveChain.push (active : ActiveChain) (hash : BlockHash) (header : Header) (count : ℕ) : ActiveChain where
  hashes := active.hashes ++ [hash]
  headers := active.headers ++ [header]
  txCounts := active.txCounts ++ [count]
  txTotals := active.txTotals ++ [satAddU64 (active.txTotals.getLastD 0) count]

def ActiveChain.truncate (active : ActiveChain) (length : ℕ) : ActiveChain where
  hashes := active.hashes.take length
  headers := active.headers.take length
  txCounts := active.txCounts.take length
  txTotals := active.txTotals.take length

/-- The order in which blocks became fully available; it breaks ties between tips of equal work. -/
structure ArrivalOrder where
  blockSequenceIds : FMap BlockHash ℕ
  nextBlockSequenceId : ℕ

def ArrivalOrder.assignBlockSequenceId (order : ArrivalOrder) (hash : BlockHash) : ArrivalOrder :=
  if (order.blockSequenceIds.lookup hash).isSome then order
  else ⟨order.blockSequenceIds.insert hash order.nextBlockSequenceId, satAddU64 order.nextBlockSequenceId 1⟩

structure ChainSnapshot where
  tip : BlockHash
  headers : List Header
  utxos : UtxoMap

/-- What the chain state takes from its configuration and from the rest of the node. -/
structure NodeConfig where
  params : DeploymentParameters
  signetChallenge : Option Codec.Bytes
  coinstatsIndexEnabled : Bool
  blockfilterIndexEnabled : Bool
  historyIndexEnabled : Bool
  txIndexAllEnabled : Bool
  txospenderIndexEnabled : Bool
  /-- Proof of work, difficulty, clock and version bits of a header on top of an indexed parent. -/
  headerContext : BlockIndex → BlockHash → Header → Except ValidationError Unit
  reducedDataActivationHeight : BlockIndex → BlockHash → ℕ → Option ℕ
  skipScriptChecks : BlockIndex → BlockHash → ℕ → Bool
  scriptCacheHit : Transaction → Bool

structure ChainState where
  config : NodeConfig
  shutdownInterrupt : Bool
  startupReindex : Bool
  blockIndex : BlockIndex
  active : ActiveChain
  coins : CoinView
  bodies : FMap BlockHash Block
  undo : FMap BlockHash (List (List StoredUndo))
  chainstateStore : FMap BlockHash ChainstateDelta
  coinstatsStore : FMap BlockHash CoinStatsRecord
  invalidBlocks : Finset BlockHash
  preciousBlocks : FMap BlockHash ℤ
  arrival : ArrivalOrder
  snapshot : Option ChainSnapshot
  snapshotBase : Option BlockHash
  snapshotValidated : Bool
  pruneHeight : Option ℕ

namespace ChainState

def height (st : ChainState) : ℕ := st.active.hashes.length - 1

def bestHash (st : ChainState) : BlockHash := st.active.hashes.getLastD 0

def isActiveBlock (st : ChainState) (hash : BlockHash) : Bool :=
  match st.blockIndex.lookup hash with
  | none => false
  | some node => st.active.hashes[node.height]? == some hash

def medianOf (times : List ℕ) : ℕ := (times.insertionSort (· ≤ ·))[times.length / 2]?.getD 0

def medianTimePast (st : ChainState) : ℕ :=
  medianOf ((st.active.headers.drop (st.active.headers.length - 11)).map (·.time))

def ancestorTimes (index : BlockIndex) : ℕ → BlockHash → List ℕ
  | 0, _ => []
  | count + 1, cursor => match index.lookup cursor with
    | none => []
    | some node => node.header.time :: if node.height = 0 then [] else ancestorTimes index count node.header.prevBlockhash

def medianTimePastForParent (st : ChainState) (parentHash : BlockHash) : ℕ :=
  medianOf (ancestorTimes st.blockIndex 11 parentHash)

def invertLowestOne (value : ℕ) : ℕ := value &&& (value - 1)

def blockIndexSkipHeight (height : ℕ) : ℕ :=
  if height < 2 then 0
  else if height % 2 ≠ 0 then invertLowestOne (invertLowestOne (height - 1)) + 1
  else invertLowestOne height

/-- The loop of `ancestor_hash`; every iteration lowers the current height, which bounds their number. -/
def ancestorHashFrom (hashes : List BlockHash) (index : BlockIndex) (height : ℕ) : ℕ → BlockHash → ℕ → Option BlockHash
  | 0, hash, currentHeight => if currentHeight = height then some hash else none
  | fuel + 1, hash, currentHeight =>
    if currentHeight ≤ height then (if currentHeight = height then some hash else none)
    else if hashes[currentHeight]? = some hash then hashes[height]?
    else match index.lookup hash with
      | none => none
      | some node =>
        let skipHeight := blockIndexSkipHeight currentHeight
        let previousSkipHeight := blockIndexSkipHeight (currentHeight - 1)
        let useSkip := node.skip.isSome && (skipHeight == height ||
          (height < skipHeight && !(previousSkipHeight < skipHeight - 2 && height ≤ previousSkipHeight)))
        if useSkip then match node.skip with
          | none => none
          | some skip => ancestorHashFrom hashes index height fuel skip skipHeight
        else ancestorHashFrom hashes index height fuel node.header.prevBlockhash (currentHeight - 1)

def ancestorHash (st : ChainState) (hash : BlockHash) (height : ℕ) : Option BlockHash :=
  match st.blockIndex.lookup hash with
  | none => none
  | some node => if node.height < height then none else ancestorHashFrom st.active.hashes st.blockIndex height node.height hash node.height

def bip34ImpliesBip30Limit : ℕ := 1983702

def bip34ActivationHash : Network → Option BlockHash
  | .bitcoin => some 0x000000000000024b89b42a942fe0d9fea3bb44ab7bd1b19115dd6a759c0808b8
  | .testnet => some 0x0000000023b3a96d3484e5abb3755c413e7d41500f8e2a5c3f0dd01299cd8ef8
  | .testnet4 | .signet | .regtest => none

def enforceBip30 (st : ChainState) (height : ℕ) (blockHash parentHash : BlockHash) : Bool :=
  if bip34ImpliesBip30Limit ≤ height then true
  else if isBip30Repeat st.config.params.network height blockHash then false
  else match bip34ActivationHash st.config.params.network with
    | none => true
    | some expected =>
      if st.isActiveBlock parentHash ∧ st.active.hashes[st.config.params.buried.bip34]? = some expected then false
      else match st.ancestorHash parentHash st.config.params.buried.bip34 with
        | none => true
        | some hash => hash != expected

def blockRules (st : ChainState) (height : ℕ) (blockHash parentHash : BlockHash) (retainSpentEntries : Bool) :
    BlockRules where
  params := st.config.params
  enforceBip30 := st.enforceBip30 height blockHash parentHash
  reducedDataActivationHeight := st.config.reducedDataActivationHeight st.blockIndex parentHash height
  skipScriptChecks := st.config.skipScriptChecks st.blockIndex blockHash height
  retainSpentEntries
  shutdownInterrupt := st.shutdownInterrupt
  scriptCacheHit := st.config.scriptCacheHit

def sampleConfig : NodeConfig :=
  ⟨.forNetwork .regtest, none, false, false, false, false, false, fun _ _ _ => .ok (), fun _ _ _ => none,
    fun _ _ _ => false, fun _ => false⟩

def sample (utxos : UtxoMap) : ChainState :=
  let genesis := Library.sample.genesisBlock .regtest
  { config := sampleConfig
    shutdownInterrupt := false
    startupReindex := false
    blockIndex := (∅ : BlockIndex).insert 0 ⟨genesis.header, 0, 1, none⟩
    active := ⟨[0], [genesis.header], [1], [1]⟩
    coins := ⟨∅, false, utxos, ⟨∅, []⟩, none⟩
    bodies := (∅ : FMap BlockHash Block).insert 0 genesis
    undo := (∅ : FMap BlockHash (List (List StoredUndo))).insert 0 [[]]
    chainstateStore := ∅
    coinstatsStore := ∅
    invalidBlocks := ∅
    preciousBlocks := ∅
    arrival := ⟨∅, 1⟩
    snapshot := none
    snapshotBase := none
    snapshotValidated := true
    pruneHeight := none }

end ChainState

@[reducible] def OutPoint.sampleOrder : HashOrder OutPoint :=
  .ofKey (fun o => Nat.pair o.txid o.vout) fun a b same => by
    obtain ⟨txid, vout⟩ := Nat.pair_eq_pair.mp same
    cases a
    cases b
    simp_all

end BitcoindRs
