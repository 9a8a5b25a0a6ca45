import BitcoindRs.Chain.Connect

/-!
Activation of another branch: by disconnecting and connecting a suffix of the active chain, or by a replay of the
whole branch. A step that fails may have changed the state, so these functions return the state in either case.
-/

namespace BitcoindRs
open Result Checked FMap Ledger
variable [Library] [HashOrder OutPoint]

/-- The result of a function together with the state it leaves, on success and on failure. -/
abbrev Outcome (α : Type) := Except Error α × ChainState

namespace ChainState

/-- A block and its ancestors down to a block of height zero or to one whose parent is not indexed. -/
def ancestry (index : BlockIndex) : ℕ → BlockHash → List BlockHash
  | 0, cursor => [cursor]
  | fuel + 1, cursor => cursor :: match index.lookup cursor with
    | none => []
    | some node => if node.height = 0 then [] else ancestry index fuel node.header.prevBlockhash

def ancestors (st : ChainState) (hash : BlockHash) : List BlockHash :=
  ancestry st.blockIndex (st.blockIndex.keys.card + 1) hash

def hasInvalidAncestor (st : ChainState) (hash : BlockHash) : Bool :=
  (st.ancestors hash).any fun ancestor => ancestor ∈ st.invalidBlocks

def networkGenesisHash (st : ChainState) : BlockHash := (Library.genesisBlock st.config.params.network).blockHash

def branch (index : BlockIndex) (genesis : BlockHash) : ℕ → BlockHash → Except Error (List BlockHash)
  | 0, _ => .error (.message "candidate chain is missing a block index entry")
  | fuel + 1, cursor =>
    if cursor = genesis then .ok [cursor]
    else do
      let node ← okOr (index.lookup cursor) (.message "candidate chain is missing a block index entry")
      let rest ← branch index genesis fuel node.header.prevBlockhash
      .ok (cursor :: rest)

def pathTo (st : ChainState) (tipHash : BlockHash) : Except Error (List BlockHash) :=
  (branch st.blockIndex st.networkGenesisHash (st.blockIndex.keys.card + 1) tipHash).map List.reverse

omit [Library] [HashOrder OutPoint] in
/-- The greatest height at which a branch agrees with the active chain. -/
def commonHeight (st : ChainState) (path : List BlockHash) : Option ℕ :=
  (path.zipIdx.reverse.find? fun (hash, height) => st.active.hashes[height]? = some hash).map Prod.snd

structure Disconnected where
  height : ℕ
  block : Block
  undo : List (List StoredUndo)

/-- The transition between two tips, worked out on temporary maps before anything is changed. -/
structure SuffixPlan where
  disconnected : List Disconnected
  candidateBlocks : List Block
  disconnectedUtxos : UtxoMap
  candidateUtxos : UtxoMap

omit [Library] [HashOrder OutPoint] in
/-- The blocks of the active chain above a height, tip first; nothing if a body or undo record is missing. -/
def disconnectedBlocks (st : ChainState) (commonHeight : ℕ) : Option (List Disconnected) :=
  (List.range' (commonHeight + 1) (st.height - commonHeight)).reverse.mapM fun height => do
    let hash ← st.active.hashes[height]?
    let block ← st.bodies.lookup hash
    let undo ← st.undo.lookup hash
    some ⟨height, block, undo⟩

omit [Library] [HashOrder OutPoint] in
def candidateBlocks (st : ChainState) (path : List BlockHash) (commonHeight : ℕ) : Except Error (List Block) :=
  (path.drop (commonHeight + 1)).mapM fun hash =>
    okOr (st.bodies.lookup hash) (.message ("candidate block " ++ displayHash hash ++ " is missing"))

section
omit [HashOrder OutPoint]

def dryConnect (st : ChainState) (commonHeight : ℕ) (utxos : UtxoMap) (candidate : Block × ℕ) : Except Error UtxoMap := do
  let (block, offset) := candidate
  let height := commonHeight + 1 + offset
  let parentHash := block.header.prevBlockhash
  let medianTimePast := st.medianTimePastForParent parentHash
  let application ← validateBlockTransactions (st.blockRules height block.blockHash parentHash true) block block.txids
    height utxos medianTimePast
  .ok (applyBlockToUtxos utxos block height medianTimePast application.spentEntries)

def planSuffix (st : ChainState) (path : List BlockHash) (commonHeight : ℕ) : Except Error (Option SuffixPlan) :=
  if st.active.hashes.length ≤ commonHeight ∨ path[commonHeight]? ≠ st.active.hashes[commonHeight]? then .ok none
  else match st.disconnectedBlocks commonHeight with
    | none => .ok none
    | some disconnected => do
      let candidates ← st.candidateBlocks path commonHeight
      let disconnectedUtxos ← disconnected.foldlM (fun utxos d => disconnectBlockFromUtxos utxos d.block d.undo)
        st.coins.utxos
      let candidateUtxos ← candidates.zipIdx.foldlM (st.dryConnect commonHeight) disconnectedUtxos
      .ok (some ⟨disconnected, candidates, disconnectedUtxos, candidateUtxos⟩)

theorem planSuffix_ok {st : ChainState} {path : List BlockHash} {commonHeight : ℕ} {plan : SuffixPlan}
    (planned : st.planSuffix path commonHeight = .ok (some plan)) :
    (commonHeight < st.active.hashes.length ∧ path[commonHeight]? = st.active.hashes[commonHeight]?) ∧
      st.disconnectedBlocks commonHeight = some plan.disconnected ∧
      st.candidateBlocks path commonHeight = .ok plan.candidateBlocks ∧
      plan.disconnected.foldlM (fun utxos d => disconnectBlockFromUtxos utxos d.block d.undo) st.coins.utxos =
        .ok plan.disconnectedUtxos ∧
      plan.candidateBlocks.zipIdx.foldlM (st.dryConnect commonHeight) plan.disconnectedUtxos = .ok plan.candidateUtxos := by
  unfold planSuffix at planned
  split at planned
  · cases planned
  · rename_i agrees
    split at planned
    · cases planned
    · rename_i disconnected found
      obtain ⟨candidates, bodies, planned⟩ := bind_ok planned
      obtain ⟨disconnectedUtxos, back, planned⟩ := bind_ok planned
      obtain ⟨candidateUtxos, forth, planned⟩ := bind_ok planned
      cases planned
      rw [not_or, not_le, ne_eq, not_not] at agrees
      exact ⟨agrees, found, bodies, back, forth⟩

end

/-- Connect blocks one after the other to the resident map; the blocks before a failing one stay connected. -/
def connectAll : ChainState → List Block → Outcome Unit
  | st, [] => (.ok (), st)
  | st, block :: blocks => match st.connectBlockInternal block false true with
    | .ok next => connectAll next blocks
    | .error error => (.error error, st)

def ancestorStats (st : ChainState) (utxos : UtxoMap) (hash : Option BlockHash) : Option CoinStatsState :=
  if st.config.coinstatsIndexEnabled then
    match hash.bind fun hash => st.coinstatsStore.lookup hash with
    | some record => some ((CoinStatsState.fromUtxos utxos).loadCumulativeFromRecord record)
    | none => some (CoinStatsState.fromUtxos utxos)
  else none

def rewind (st : ChainState) (path : List BlockHash) (commonHeight : ℕ) (utxos : UtxoMap) : ChainState := { st with
  active := st.active.truncate (commonHeight + 1)
  coins := { st.coins with
    utxos
    utxosMaterialized := true
    coinStats := st.ancestorStats utxos path[commonHeight]? } }

omit [Library] in
/-- The stored map is brought from one map to the other by the coins in which they differ. -/
def netBatch (stored before after : UtxoMap) : UtxoMap :=
  applyBatch stored ((before.toList.filter fun coin => after.lookup coin.1 ≠ some coin.2).map Prod.fst)
    (after.toList.filter fun coin => before.lookup coin.1 ≠ some coin.2)

omit [Library] [HashOrder OutPoint] in
def snapshotInvalidated (st : ChainState) (path : List BlockHash) : Bool :=
  match st.snapshotBase with
  | none => false
  | some base => base ∉ path

omit [Library] [HashOrder OutPoint] in
def forgetSnapshotBase (st : ChainState) (path : List BlockHash) : ChainState :=
  if st.snapshotInvalidated path then { st with snapshotBase := none, snapshotValidated := true } else st

def activateChainFromPrunedSuffix (st : ChainState) (path : List BlockHash) (commonHeight : ℕ) : Outcome Bool :=
  match st.planSuffix path commonHeight with
  | .error error => (.error error, st)
  | .ok none => (.ok false, st)
  | .ok (some plan) =>
    match connectAll (st.rewind path commonHeight plan.disconnectedUtxos) plan.candidateBlocks with
    | (.error error, next) => (.error error, next)
    | (.ok (), next) =>
      (.ok true, forgetSnapshotBase { next with
        coins := CoinView.releaseMaterializedUtxos { next.coins with
          utxoStore := netBatch next.coins.utxoStore st.coins.utxos plan.candidateUtxos } } path)

def loadSnapshot (st : ChainState) (path : List BlockHash) : Option ChainSnapshot :=
  st.snapshot.filter fun snapshot =>
    snapshot.headers.length ≠ 0 ∧ snapshot.headers.length ≤ path.length ∧
      path[snapshot.headers.length - 1]? = some snapshot.tip ∧
      (snapshot.headers.zip path).all fun (header, hash) => blockHash header == hash

section
omit [Library] [HashOrder OutPoint]

def cumulativeTxCounts (counts : List ℕ) : List ℕ :=
  (counts.foldl (fun (acc : List ℕ × ℕ) count =>
    let total := satAddU64 acc.2 count
    (acc.1 ++ [total], total)) ([], 0)).1

/-- The counts for a chain whose counts are not all known: they are read from the bodies, or zero on a pruned node. -/
def rebuiltTxCounts (st : ChainState) : Except Error (List ℕ) :=
  if st.active.txCounts.length = st.active.hashes.length then .ok st.active.txCounts
  else match st.pruneHeight with
    | none => st.active.hashes.mapM fun hash => do
      let block ← okOr (st.bodies.lookup hash)
        (.message ("active block " ++ displayHash hash ++ " is missing from block store"))
      .ok block.txdata.length
    | some _ => .ok ((st.active.txCounts ++ List.replicate st.active.hashes.length 0).take st.active.hashes.length)

def repairActiveTxCountVectors (st : ChainState) : Except Error ChainState := do
  let counts ← st.rebuiltTxCounts
  .ok { st with active := { st.active with txCounts := counts, txTotals := cumulativeTxCounts counts } }

end

section
omit [HashOrder OutPoint]

def parentWork (st : ChainState) (header : Header) (height : ℕ) : Except Error ℕ :=
  if height = 0 then .ok 0
  else (okOr (st.blockIndex.lookup header.prevBlockhash) (.message "active block parent is not indexed")).map (·.chainWork)

def indexActiveHeader (st : ChainState) (indexed : Header × ℕ) : Except Error ChainState := do
  let (header, height) := indexed
  let work ← st.parentWork header height
  let skip := if height = 0 then none else st.ancestorHash header.prevBlockhash (blockIndexSkipHeight height)
  let node : BlockNode := ⟨header, height, work + Library.work header, skip⟩
  .ok { st with blockIndex := st.blockIndex.insert (blockHash header) node }

def indexActiveHeaders (st : ChainState) (headers : List Header) : Except Error ChainState := do
  bailIf (headers.length ≠ st.active.hashes.length) (.message "active block/header count mismatch")
  headers.zipIdx.foldlM indexActiveHeader st

def initializeGenesis (st : ChainState) (genesis : Block) : Except Error ChainState := do
  bailIf (genesis.blockHash ≠ st.networkGenesisHash) (.message "genesis block does not match network")
  .ok (persistCoinstatsRecord { st with
    active := st.active.push genesis.blockHash genesis.header genesis.txdata.length
    blockIndex := st.blockIndex.insert genesis.blockHash ⟨genesis.header, 0, Library.work genesis.header, none⟩
    undo := if st.needsUndo genesis.blockHash then st.undo.insert genesis.blockHash [[]] else st.undo
    coins := { st.coins with
      coinStats := st.coins.coinStats.map fun stats => stats.applyGenesis st.config.params.network } }
    genesis.blockHash 0)

end

/-- The replay loop: blocks are connected to the resident map, or to the stored one in a durable replay. -/
def connectPath (durableReplay : Bool) : ChainState → List BlockHash → Outcome Unit
  | st, [] => (.ok (), st)
  | st, hash :: path =>
    if st.shutdownInterrupt then (.error (.message "block validation interrupted by shutdown"), st)
    else match st.bodies.lookup hash with
      | none => (.error (.message ("candidate block " ++ displayHash hash ++ " is missing")), st)
      | some block => match st.connectBlockInternal block durableReplay (!durableReplay) with
        | .ok next => connectPath durableReplay next path
        | .error error => (.error error, st)

/-- The state at a persisted snapshot; the transaction counts are those of the old active chain. -/
def startFromSnapshot (st : ChainState) (path : List BlockHash) (oldTxCounts : List ℕ) (snapshot : ChainSnapshot) :
    Except Error ChainState :=
  let length := snapshot.headers.length
  let counts := if length ≤ oldTxCounts.length then oldTxCounts.take length else []
  let started := { st with
    active := ⟨path.take length, snapshot.headers, counts, cumulativeTxCounts counts⟩
    coins := { st.coins with utxos := snapshot.utxos } }
  do
    let indexed ← started.indexActiveHeaders snapshot.headers
    .ok { indexed with coins := { indexed.coins with
      coinStats := if indexed.coins.coinStats.isSome then indexed.ancestorStats snapshot.utxos path[length - 1]? else none } }

def startFromGenesis (st : ChainState) (path : List BlockHash) : Except Error ChainState := do
  let genesis ← okOr (path.head?.bind fun hash => st.bodies.lookup hash)
    (.message "candidate chain is missing the genesis block")
  st.initializeGenesis genesis

/-- A durable checkpoint; the first one after a reindex is the stored map itself. -/
def persistSnapshot (st : ChainState) : ChainState :=
  let synced := { st with coins := st.coins.syncUtxoStore }
  if synced.startupReindex && synced.snapshotBase.isNone then { synced with startupReindex := false }
  else { synced with
    snapshot := some ⟨synced.bestHash, synced.active.headers,
      if synced.coins.utxosMaterialized then synced.coins.utxos else synced.coins.utxoStore⟩
    chainstateStore := ∅ }

section
omit [Library] [HashOrder OutPoint]

theorem persistSnapshot_active (st : ChainState) : st.persistSnapshot.active = st.active := by
  unfold persistSnapshot
  dsimp only
  split <;> rfl

theorem persistSnapshot_blockIndex (st : ChainState) : st.persistSnapshot.blockIndex = st.blockIndex := by
  unfold persistSnapshot
  dsimp only
  split <;> rfl

theorem persistSnapshot_stored (st : ChainState) : st.persistSnapshot.bodies = st.bodies ∧
    st.persistSnapshot.undo = st.undo ∧ st.persistSnapshot.pruneHeight = st.pruneHeight := by
  unfold persistSnapshot
  dsimp only
  split <;> exact ⟨rfl, rfl, rfl⟩

end

def replayPath (st : ChainState) (path : List BlockHash) (oldTxCounts : List ℕ) (snapshot : Option ChainSnapshot)
    (durableReplay : Bool) : Outcome Unit :=
  let start := match snapshot with
    | some snapshot => st.startFromSnapshot path oldTxCounts snapshot
    | none => st.startFromGenesis path
  let done := match snapshot with
    | some snapshot => snapshot.headers.length
    | none => 1
  match start with
  | .error error => (.error error, st)
  | .ok started => match connectPath durableReplay started (path.drop done) with
    | (.error error, failed) => (.error error, failed)
    | (.ok (), connected) => match connected.repairActiveTxCountVectors with
      | .error error => (.error error, connected)
      | .ok repaired => (.ok (), repaired.persistSnapshot)

theorem replayPath_done_pos {snapshot : Option ChainSnapshot} (loaded : ∀ s, snapshot = some s → 0 < s.headers.length) :
    0 < (match snapshot with
      | some snapshot => snapshot.headers.length
      | none => 1) := by
  cases snapshot with
  | none => exact Nat.one_pos
  | some s => exact loaded s rfl

/-- The part of `activate_chain` after the suffix strategy: replay the branch, and put the old chain back on failure. -/
def activateByReplay (st : ChainState) (path : List BlockHash) (durableReplay : Bool) : Outcome Unit :=
  let snapshot := if st.snapshotInvalidated path then none else st.loadSnapshot path
  let start := match snapshot with
    | some snapshot => snapshot.headers.length
    | none => 0
  match (path.drop start).find? fun hash => (st.bodies.lookup hash).isNone with
  | some missing => (.error (.message ("candidate block " ++ displayHash missing ++ " is missing")), st)
  | none =>
    let cleared := forgetSnapshotBase { st with
      active := ⟨[], [], [], []⟩
      coins := { st.coins with
        utxos := ∅
        utxosMaterialized := !durableReplay
        coinStats := if st.config.coinstatsIndexEnabled then some .default else none } } path
    match cleared.replayPath path st.active.txCounts snapshot durableReplay with
    | (.error error, failed) => (.error error, { failed with
        active := st.active
        coins := { failed.coins with
          utxos := st.coins.utxos
          utxosMaterialized := st.coins.utxosMaterialized
          coinStats := st.coins.coinStats }
        snapshotBase := st.snapshotBase
        snapshotValidated := st.snapshotValidated })
    | (.ok (), done) => (.ok (), { done with coins := done.coins.releaseMaterializedUtxos })

section
omit [Library] [HashOrder OutPoint]

/-- A reindex with an empty store and no service index replays straight into the store. -/
def durableReplay (st : ChainState) : Bool :=
  st.startupReindex && decide (st.active.hashes.length ≤ 1) && decide (st.coins.utxoStore = ∅) &&
    !st.config.historyIndexEnabled && !st.config.txIndexAllEnabled && !st.config.txospenderIndexEnabled &&
    !st.config.coinstatsIndexEnabled

def pendingSnapshotReorg (st : ChainState) (path : List BlockHash) : Bool :=
  match st.snapshotBase with
  | none => false
  | some base => !st.snapshotValidated && !st.isActiveBlock base && decide (base ∈ path)

def prepareUtxos (st : ChainState) : ChainState :=
  if st.durableReplay then { st with coins := { st.coins with utxos := ∅, utxosMaterialized := false } }
  else { st with coins := st.coins.materializeUtxos }

end

def activateChain (st : ChainState) (tipHash : BlockHash) : Outcome Unit :=
  if st.hasInvalidAncestor tipHash then (.error (.message "cannot activate an invalidated chain"), st)
  else
    let prepared := st.prepareUtxos
    match prepared.pathTo tipHash with
    | .error error => (.error error, prepared)
    | .ok path =>
      match (prepared.commonHeight path).filter fun _ =>
        !prepared.pendingSnapshotReorg path && decide (1 < prepared.active.hashes.length) with
      | none => prepared.activateByReplay path st.durableReplay
      | some commonHeight => match prepared.activateChainFromPrunedSuffix path commonHeight with
        | (.error error, next) => (.error error, next)
        | (.ok true, next) => (.ok (), next)
        | (.ok false, next) => next.activateByReplay path st.durableReplay

end ChainState

end BitcoindRs
