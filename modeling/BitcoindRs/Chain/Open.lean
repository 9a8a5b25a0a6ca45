import BitcoindRs.Chain.Headers

/-!
The files of a node and its restart from them: the metadata checkpoint with the header journal and the tip sidecar
written since, and the four ways to restore the chain state.
-/

namespace BitcoindRs
open Result FMap BlockIndex
variable [Library] [HashOrder OutPoint]

/-- `chainstate.bin`. -/
structure ChainMetadata where
  activeChain : List BlockHash
  headers : List Header
  invalidBlocks : Finset BlockHash
  pruneHeight : Option ℕ

/-- The files from which a node restarts. The stores are the maps they implement. -/
structure DataDir where
  metadata : Option ChainMetadata
  headerJournal : List Header
  activeTip : Option (BlockHash × ℕ)
  bodies : FMap BlockHash Block
  undo : FMap BlockHash (List (List StoredUndo))
  chainstateStore : FMap BlockHash ChainstateDelta
  coinstatsStore : FMap BlockHash CoinStatsRecord
  utxoStore : UtxoMap
  utxoStoreTip : Option BlockHash
  historyStoreTip : Option BlockHash
  snapshot : Option ChainSnapshot
  /-- The base of a loaded UTXO snapshot, and whether it has been validated. -/
  provenance : Option (BlockHash × Bool)

namespace ChainState

def maxReplayBlocks : ℕ := 100000

omit [Library] [HashOrder OutPoint] in
def tipSuffix (bodies : FMap BlockHash Block) : ℕ → BlockHash → Option (List BlockHash × BlockHash)
  | 0, cursor => some ([], cursor)
  | count + 1, cursor => match bodies.lookup cursor with
    | none => none
    | some block => (tipSuffix bodies count block.header.prevBlockhash).map fun (suffix, base) => (cursor :: suffix, base)

omit [Library] [HashOrder OutPoint] in
/-- `load_active_chain_from_tip`: the checkpointed chain, extended by the stored blocks up to the tip in the sidecar. -/
def loadActiveChainFromTip (bodies : FMap BlockHash Block) (persisted : List BlockHash)
    (activeTip : Option (BlockHash × ℕ)) : List BlockHash :=
  match activeTip, persisted.getLast? with
  | some (tipHash, tipHeight), some checkpointHash =>
    let checkpointHeight := persisted.length - 1
    if tipHeight ≤ checkpointHeight then persisted
    else if maxReplayBlocks < tipHeight - checkpointHeight then persisted
    else match tipSuffix bodies (tipHeight - checkpointHeight) tipHash with
      | none => persisted
      | some (suffix, base) => if base = checkpointHash then persisted ++ suffix.reverse else persisted
  | _, _ => persisted

omit [HashOrder OutPoint] in
def loadHeaderJournal (persisted journal : List Header) : List Header :=
  journal.foldl (fun headers header =>
    if blockHash header ∈ headers.map blockHash then headers else headers ++ [header]) persisted

end ChainState

namespace DataDir
open ChainState

section
omit [HashOrder OutPoint]

def persistedHeaders (dir : DataDir) : List Header :=
  ChainState.loadHeaderJournal ((dir.metadata.map (·.headers)).getD []) dir.headerJournal

def checkpointChain (dir : DataDir) (config : NodeConfig) : List BlockHash :=
  (dir.metadata.map (·.activeChain)).getD [(Library.genesisBlock config.params.network).blockHash]

def activeChain (dir : DataDir) (config : NodeConfig) (rebuildChainstate : Bool) : List BlockHash :=
  if rebuildChainstate then dir.checkpointChain config
  else loadActiveChainFromTip dir.bodies (dir.checkpointChain config) dir.activeTip

end

omit [Library] [HashOrder OutPoint] in
/-- The state before anything is restored. A reindex forgets the snapshot, the deltas and the coins. -/
def emptyState (dir : DataDir) (config : NodeConfig) (rebuildChainstate : Bool) : ChainState where
  config
  shutdownInterrupt := false
  startupReindex := rebuildChainstate
  blockIndex := ∅
  active := ⟨[], [], [], []⟩
  coins := ⟨∅, true, if rebuildChainstate then ∅ else dir.utxoStore, ⟨∅, []⟩,
    if config.coinstatsIndexEnabled then some .default else none⟩
  bodies := dir.bodies
  undo := dir.undo
  chainstateStore := if rebuildChainstate then ∅ else dir.chainstateStore
  coinstatsStore := dir.coinstatsStore
  invalidBlocks := (dir.metadata.map (·.invalidBlocks)).getD ∅
  preciousBlocks := ∅
  arrival := ⟨∅, 1⟩
  snapshot := if rebuildChainstate then none else dir.snapshot
  snapshotBase := if rebuildChainstate then none else dir.provenance.map Prod.fst
  snapshotValidated := if rebuildChainstate then true else (dir.provenance.map Prod.snd).getD true
  pruneHeight := dir.metadata.bind (·.pruneHeight)

end DataDir

namespace ChainState

omit [Library] [HashOrder OutPoint] in
/-- A header comes from the persisted headers or from its body. -/
def storedHeader (st : ChainState) (persistedByHash : FMap BlockHash Header) (hash : BlockHash) : Except Error Header :=
  match persistedByHash.lookup hash with
  | some header => .ok header
  | none => (okOr (st.bodies.lookup hash) (.message ("active block " ++ displayHash hash ++
      " is missing from block store"))).map (·.header)

omit [HashOrder OutPoint] in
def restoreHeader (st : ChainState) (activeChain : List BlockHash) (acc : FMap BlockHash Header × List Header)
    (entry : BlockHash × ℕ) : Except Error (FMap BlockHash Header × List Header) := do
  let header ← st.storedHeader acc.1 entry.1
  bailIf (blockHash header ≠ entry.1) (.message ("persisted active header does not match block hash " ++
    displayHash entry.1))
  bailIf (0 < entry.2 ∧ activeChain[entry.2 - 1]? ≠ some header.prevBlockhash) (.message ("persisted active header " ++
    displayHash entry.1 ++ " does not connect to its parent"))
  .ok (acc.1.erase entry.1, acc.2 ++ [header])

omit [HashOrder OutPoint] in
def restoreActiveChainFromDurableIndexes (st : ChainState) (activeChain : List BlockHash) (persistedHeaders : List Header) :
    Except Error ChainState := do
  let persistedByHash := insertAll ∅ (persistedHeaders.map fun header => (blockHash header, header))
  let restored ← activeChain.zipIdx.foldlM (st.restoreHeader activeChain) (persistedByHash, [])
  let indexed ← indexActiveHeaders { st with active := ⟨activeChain, restored.2, [], []⟩ } restored.2
  .ok { indexed with coins := { indexed.coins with utxos := ∅, utxosMaterialized := false } }

def applyDeltas (st : ChainState) (hash : BlockHash) : Except Error ChainState := do
  let delta ← okOr (st.chainstateStore.lookup hash) (.message ("chainstate delta for " ++ displayHash hash ++ " disappeared"))
  st.applyChainstateDelta delta

def replayBlock (persist : Bool) (st : ChainState) (hash : BlockHash) : Except Error ChainState := do
  let block ← okOr (st.bodies.lookup hash)
    (.message ("active block " ++ displayHash hash ++ " is missing from block store"))
  st.connectBlockInternal block persist (!persist)

omit [HashOrder OutPoint] in
def indexSnapshotHeaders (st : ChainState) (activeChain : List BlockHash) (snapshot : ChainSnapshot) :
    Except Error ChainState :=
  indexActiveHeaders { st with
    active := ⟨activeChain.take snapshot.headers.length, snapshot.headers, [], []⟩
    coins := { st.coins with utxos := snapshot.utxos } } snapshot.headers

/-- Restore from the persisted snapshot; the blocks above it are replayed from their deltas when these are valid. -/
def restoreFromSnapshot (st : ChainState) (activeChain : List BlockHash) (persistedHeaders : List Header)
    (snapshot : ChainSnapshot) (deltasValid : Bool) : Except Error ChainState := do
  let indexed ← st.indexSnapshotHeaders activeChain snapshot
  let known ← indexed.indexPersistedHeaders persistedHeaders
  (activeChain.drop snapshot.headers.length).foldlM (if deltasValid then applyDeltas else replayBlock false) known

omit [Library] [HashOrder OutPoint] in
def durableRestore (st : ChainState) : Bool :=
  decide (st.coins.utxoStore = ∅) && !st.config.historyIndexEnabled && !st.config.txIndexAllEnabled &&
    !st.config.txospenderIndexEnabled && !st.config.coinstatsIndexEnabled

def restoreByReplay (st : ChainState) (activeChain : List BlockHash) : Except Error ChainState := do
  let durable := st.durableRestore
  let cleared := { st with
    coins := if durable then { st.coins with utxos := ∅, utxosMaterialized := false } else st.coins
    snapshotBase := none
    snapshotValidated := true }
  let genesis ← okOr (activeChain.head?.bind fun hash => st.bodies.lookup hash) (.message ("active genesis block " ++
    displayHash st.networkGenesisHash ++ " is missing from block store"))
  let started ← cleared.initializeGenesis genesis
  (activeChain.drop 1).foldlM (replayBlock durable) started

omit [HashOrder OutPoint] in
def startReindex (st : ChainState) (persistedHeaders : List Header) (orderedHeaders : List (BlockHash × Header)) :
    Except Error ChainState := do
  let started ← st.initializeGenesis (Library.genesisBlock st.config.params.network)
  let known ← started.indexPersistedHeaders persistedHeaders
  known.rebuildBlockIndex orderedHeaders

/-- The part of a restart in which the active chain is restored. `best` is the tip that a reindex selects. -/
def restoreChain (st : ChainState) (dir : DataDir) (rebuildChainstate deltasValid : Bool)
    (orderedHeaders : List (BlockHash × Header)) (best : BlockHash) : Except Error ChainState :=
  let activeChain := dir.activeChain st.config rebuildChainstate
  let persistedHeaders := dir.persistedHeaders
  let tipMatches := decide (dir.utxoStoreTip = activeChain.getLast?)
  if rebuildChainstate then do
    let known ← st.startReindex persistedHeaders orderedHeaders
    if best = st.networkGenesisHash then .ok known
    else match known.activateChain best with
      | (.ok (), activated) => .ok activated
      | (.error error, _) => .error error
  else match st.loadSnapshot activeChain with
    | some snapshot => st.restoreFromSnapshot activeChain persistedHeaders snapshot deltasValid
    -- The Electrum history alone is rebuilt when only its marker is stale.
    | none => if !st.config.txospenderIndexEnabled && tipMatches then
        st.restoreActiveChainFromDurableIndexes activeChain persistedHeaders
      else st.restoreByReplay activeChain

omit [Library] [HashOrder OutPoint] in
def restoreTxCounts (st : ChainState) : Except Error ChainState :=
  if st.active.txCounts.length = st.active.hashes.length then .ok st else st.repairActiveTxCountVectors

def restoredState (config : NodeConfig) (dir : DataDir) (rebuildChainstate deltasValid : Bool)
    (orderedHeaders : List (BlockHash × Header)) (best : BlockHash) : Except Error ChainState := do
  let activeChain := dir.activeChain config rebuildChainstate
  bailIf (activeChain.head? ≠ some (Library.genesisBlock config.params.network).blockHash)
    (.message "chainstate does not start at the configured network genesis block")
  let restored ← (dir.emptyState config rebuildChainstate).restoreChain dir rebuildChainstate deltasValid orderedHeaders best
  let counted ← restored.restoreTxCounts
  bailIf (!rebuildChainstate ∧ counted.active.hashes ≠ activeChain)
    (.message "chainstate metadata does not match replayed active chain")
  .ok (if !rebuildChainstate && ((dir.emptyState config rebuildChainstate).loadSnapshot activeChain).isSome then counted
    else { counted with snapshotBase := none, snapshotValidated := true })

/-- `open`: restore the active chain, then index the remaining persisted headers and stored bodies. -/
def openChain (config : NodeConfig) (dir : DataDir) (rebuildChainstate deltasValid : Bool)
    (orderedHeaders : List (BlockHash × Header)) (best : BlockHash) : Except Error ChainState := do
  let restored ← restoredState config dir rebuildChainstate deltasValid orderedHeaders best
  let known ← restored.indexPersistedHeaders dir.persistedHeaders
  known.rebuildBlockIndex orderedHeaders

/-- Extend the active chain by headers to the base of a snapshot whose validation is pending. -/
def promoteSnapshotChainToBase (st : ChainState) : ChainState :=
  match st.snapshotBase.filter fun _ => !st.snapshotValidated with
  | none => st
  | some base =>
    if st.isActiveBlock base then st
    else match st.blockIndex.lookup base with
      | none => st
      | some node =>
        if node.height ≤ st.height ∨ st.ancestorHash base st.height ≠ some st.bestHash then st
        else match st.pathTo base with
          | .error _ => st
          | .ok path =>
            if path.take st.active.hashes.length ≠ st.active.hashes then st
            else
              let headers := (path.drop st.active.hashes.length).filterMap fun hash =>
                (st.blockIndex.lookup hash).map (·.header)
              let counts := (st.active.txCounts ++ List.replicate path.length 0).take path.length
              persistSnapshot { st with
                active := ⟨path, st.active.headers ++ headers, counts, cumulativeTxCounts counts⟩ }

end ChainState

end BitcoindRs
