import BitcoindRs.Chain.State

/-! Connecting a block to the tip of the active chain, in all storage modes, and replaying the delta it leaves. -/

namespace BitcoindRs
open Result FMap Ledger
variable [Library] [HashOrder OutPoint]

def chainstateDeltaForBlock (block : Block) (transactionIds : List Txid) (height medianTimePast : ℕ)
    (spentEntries : UtxoMap) (spentOutpoints : Finset OutPoint) (createdEntries : UtxoMap)
    (metrics : CoinStatsBlockMetrics) (includeStorageDelta : Bool) : ChainstateDelta where
  blockHash := block.blockHash
  parentHash := block.header.prevBlockhash
  height
  spent := if includeStorageDelta then spentEntries.toList else []
  -- The validator keeps the coinbase outputs out of its map, so they are added here.
  created := (createdEntries.toList.filter fun coin => coin.1 ∉ spentOutpoints) ++
    match block.txdata, transactionIds with
    | coinbase :: _, txid :: _ => (spendableOutputs txid coinbase.output height medianTimePast true).filter
        fun coin => coin.1 ∉ spentOutpoints
    | _, _ => []
  transactions := if includeStorageDelta then
      (block.txdata.zip transactionIds).zipIdx.map fun ((_, txid), index) => (txid, ⟨block.blockHash, height, index⟩)
    else []
  metrics

theorem delta_transactions_mem {block : Block} {height medianTimePast : ℕ} {spentEntries createdEntries : UtxoMap}
    {spentOutpoints : Finset OutPoint} {metrics : CoinStatsBlockMetrics} {tx : Transaction} (member : tx ∈ block.txdata) :
    tx.computeTxid ∈ (chainstateDeltaForBlock block block.txids height medianTimePast spentEntries spentOutpoints
      createdEntries metrics true).transactions.map Prod.fst := by
  obtain ⟨i, found⟩ := List.mem_iff_getElem?.mp member
  have paired : ((tx, tx.computeTxid), i) ∈ (block.txdata.zip block.txids).zipIdx :=
    List.mem_zipIdx_iff_getElem?.mpr (by simp [List.getElem?_zip_eq_some, Block.txids, found])
  exact List.mem_map.mpr ⟨_, List.mem_map_of_mem paired, rfl⟩

omit [Library] in
/-- The outpoints to remove from the stored map: those of this block were never in it. -/
def persistentRemovals (application : BlockApplication) (height : ℕ) : List OutPoint :=
  if application.spentEntries = [] then
    (HashOrder.elements application.spentOutpoints).filter fun outpoint => outpoint ∉ application.sameBlockSpent
  else application.spentEntries.filterMap fun (outpoint, entry) => if entry.height ≠ height then some outpoint else none

def applyBatch (utxos : UtxoMap) (removals : List OutPoint) (additions : List (OutPoint × UtxoEntry)) : UtxoMap :=
  insertAll (eraseAll utxos removals) additions

namespace CoinView

def spendOutpoint (view : CoinView) (outpoint : OutPoint) : CoinView :=
  match view.utxos.lookup outpoint with
  | some entry => removeUtxoEntry { view with utxos := view.utxos.erase outpoint } outpoint entry
  | none => view

def spendEntry (height : ℕ) (view : CoinView) (spent : OutPoint × UtxoEntry) : CoinView :=
  let (outpoint, entry) := spent
  if view.utxosMaterialized then
    if (view.utxos.lookup outpoint).isSome then
      removeUtxoEntry { view with utxos := view.utxos.erase outpoint } outpoint entry
    else view
  else if entry.height ≠ height then removeUtxoEntry view outpoint entry else view

omit [Library] in
def spendBlock (view : CoinView) (application : BlockApplication) (height : ℕ) : CoinView :=
  if application.spentEntries = [] then (HashOrder.elements application.spentOutpoints).foldl spendOutpoint view
  else application.spentEntries.foldl (spendEntry height) view

/-- New coins enter the resident map and the statistics, if there are any. -/
def createCoins (view : CoinView) (created : List (OutPoint × UtxoEntry)) (mayOverwriteUtxo : Bool) : CoinView :=
  if view.utxosMaterialized || view.coinStats.isSome then
    created.foldl (fun view (outpoint, entry) =>
      if mayOverwriteUtxo then view.insertUtxo outpoint entry else view.insertFreshUtxo outpoint entry) view
  else view

omit [Library] in
def connectBlock (view : CoinView) (application : BlockApplication) (delta : ChainstateDelta)
    (height : ℕ) (mayOverwriteUtxo persist : Bool) : CoinView :=
  let invalidated := { view with
    missingUtxoCache := view.missingUtxoCache.removeAll (application.createdEntries.toList.map Prod.fst) }
  let connected := (invalidated.spendBlock application height).createCoins delta.created mayOverwriteUtxo
  { connected with
    utxoStore := if persist then applyBatch connected.utxoStore (persistentRemovals application height) delta.created
      else connected.utxoStore
    coinStats := connected.coinStats.map fun stats => stats.applyBlockMetrics application.metrics }

end CoinView

namespace ChainState

def validateHeaderContext (st : ChainState) (header : Header) (parentHash : BlockHash) (medianTimePast : ℕ) :
    Except ValidationError Unit := do
  bailIf (header.prevBlockhash ≠ parentHash) .wrongPreviousBlock
  bailIf (header.time ≤ medianTimePast) .timeTooOld
  st.config.headerContext st.blockIndex parentHash header

omit [HashOrder OutPoint] in
def cacheBlockUndo (st : ChainState) (block : Block) (spentEntries : List (OutPoint × UtxoEntry)) :
    Except Error ChainState := do
  let undo ← blockUndo block spentEntries
  .ok { st with undo := st.undo.insert block.blockHash undo }

def persistCoinstatsRecord (st : ChainState) (hash : BlockHash) (height : ℕ) : ChainState :=
  if st.config.coinstatsIndexEnabled then match st.coins.coinStats with
    | some stats => { st with coinstatsStore := st.coinstatsStore.insert hash (stats.record hash height) }
    | none => st
  else st

/-- The state after the block has been validated: nothing can fail any more. -/
def commitBlock (st : ChainState) (block : Block) (application : BlockApplication) (height medianTimePast parentWork : ℕ)
    (persist prepareDelta : Bool) : ChainState :=
  let hash := block.blockHash
  let spentEntries := if prepareDelta || st.config.historyIndexEnabled then insertAll ∅ application.spentEntries else ∅
  let delta := chainstateDeltaForBlock block block.txids height medianTimePast spentEntries application.spentOutpoints
    application.createdEntries application.metrics prepareDelta
  let skip := st.ancestorHash block.header.prevBlockhash (blockIndexSkipHeight height)
  persistCoinstatsRecord { st with
    bodies := if persist && (st.bodies.lookup hash).isNone then st.bodies.insert hash block else st.bodies
    chainstateStore := if prepareDelta then st.chainstateStore.insert hash delta else st.chainstateStore
    coins := st.coins.connectBlock application delta height
      (isBip30Repeat st.config.params.network height hash) persist
    active := st.active.push hash block.header block.txdata.length
    blockIndex := st.blockIndex.insert hash ⟨block.header, height, parentWork + Library.work block.header, skip⟩
    arrival := st.arrival.assignBlockSequenceId hash }
    hash height

def needsUndo (st : ChainState) (hash : BlockHash) : Bool := (st.undo.lookup hash).isNone

def prepareDelta (st : ChainState) (hash : BlockHash) (persist syncStorage : Bool) : Bool :=
  persist && syncStorage && (st.chainstateStore.lookup hash).isNone

def retainSpentEntries (st : ChainState) (hash : BlockHash) (persist syncStorage : Bool) : Bool :=
  if persist then st.needsUndo hash || st.config.blockfilterIndexEnabled || st.config.historyIndexEnabled ||
    st.prepareDelta hash persist syncStorage
  else true

/-- The coins a block is validated against: the stored map, or the resident one in a replay. -/
def validationView (st : ChainState) (persist : Bool) : UtxoMap :=
  if persist then st.coins.utxoStore else st.coins.utxos

def ensureBlockUndo (st : ChainState) (block : Block) (spentEntries : List (OutPoint × UtxoEntry)) :
    Except Error ChainState :=
  if st.needsUndo block.blockHash then st.cacheBlockUndo block spentEntries else .ok st

def nextRules (st : ChainState) (block : Block) (persist syncStorage : Bool) : BlockRules :=
  st.blockRules (st.height + 1) block.blockHash block.header.prevBlockhash
    (st.retainSpentEntries block.blockHash persist syncStorage)

def connectBlockInternal (st : ChainState) (block : Block) (persist syncStorage : Bool) : Except Error ChainState := do
  let height := st.height + 1
  let hash := block.blockHash
  let previous := st.bestHash
  let medianTimePast := st.medianTimePast
  let previousNode ← okOr (st.blockIndex.lookup previous) (.message "active tip is indexed")
  validation (st.validateHeaderContext block.header previous medianTimePast)
  let _ ← validation (validateBlockStructure st.config.params st.config.signetChallenge block height)
  let rules := st.nextRules block persist syncStorage
  let application ← validateBlockTransactions rules block block.txids height (st.validationView persist) medianTimePast
  checkShutdownInterrupt rules
  let undone ← st.ensureBlockUndo block application.spentEntries
  .ok (undone.commitBlock block application height medianTimePast previousNode.chainWork persist
    (st.prepareDelta hash persist syncStorage))

/-- What a successful connection has checked, and the state it leaves. -/
structure Connection (st : ChainState) (block : Block) (persist syncStorage : Bool) (previousNode : BlockNode)
    (stats : BlockValidationStats) (application : BlockApplication) (undone st' : ChainState) : Prop where
  previous : st.blockIndex.lookup st.bestHash = some previousNode
  header : st.validateHeaderContext block.header st.bestHash st.medianTimePast = .ok ()
  structured : validateBlockStructure st.config.params st.config.signetChallenge block (st.height + 1) = .ok stats
  valid : validateBlockTransactions (st.nextRules block persist syncStorage) block block.txids (st.height + 1)
    (st.validationView persist) st.medianTimePast = .ok application
  undo : st.ensureBlockUndo block application.spentEntries = .ok undone
  committed : st' = undone.commitBlock block application (st.height + 1) st.medianTimePast previousNode.chainWork persist
    (st.prepareDelta block.blockHash persist syncStorage)

theorem connectBlockInternal_ok {st st' : ChainState} {block : Block} {persist syncStorage : Bool}
    (h : st.connectBlockInternal block persist syncStorage = .ok st') :
    ∃ previousNode stats application undone,
      Connection st block persist syncStorage previousNode stats application undone st' := by
  unfold connectBlockInternal at h
  obtain ⟨previousNode, previous, h⟩ := bind_ok h
  obtain ⟨_, header, h⟩ := bind_ok h
  obtain ⟨stats, structured, h⟩ := bind_ok h
  obtain ⟨application, valid, h⟩ := bind_ok h
  obtain ⟨_, _, h⟩ := bind_ok h
  obtain ⟨undone, undo, h⟩ := bind_ok h
  cases h
  exact ⟨previousNode, stats, application, undone, okOr_ok.mp previous, validation_ok.mp header,
    validation_ok.mp structured, valid, undo, rfl⟩

def nextDelta (st : ChainState) (block : Block) (application : BlockApplication) (persist syncStorage : Bool) :
    ChainstateDelta :=
  chainstateDeltaForBlock block block.txids (st.height + 1) st.medianTimePast
    (if st.prepareDelta block.blockHash persist syncStorage || st.config.historyIndexEnabled
      then insertAll ∅ application.spentEntries else ∅)
    application.spentOutpoints application.createdEntries application.metrics
    (st.prepareDelta block.blockHash persist syncStorage)

section connection
variable {st st' undone : ChainState} {block : Block} {persist syncStorage : Bool}
  {previousNode : BlockNode} {stats : BlockValidationStats} {application : BlockApplication}

theorem Connection.parent
    (connection : Connection st block persist syncStorage previousNode stats application undone st') :
    block.header.prevBlockhash = st.bestHash := by
  have header := connection.header
  unfold validateHeaderContext at header
  exact not_not.mp (guard_ok header).1

omit [Library] [HashOrder OutPoint] in
theorem persistCoinstatsRecord_eq (st : ChainState) (hash : BlockHash) (height : ℕ) :
    ∃ records, st.persistCoinstatsRecord hash height = { st with coinstatsStore := records } := by
  unfold persistCoinstatsRecord
  split
  · split
    · exact ⟨_, rfl⟩
    · exact ⟨st.coinstatsStore, rfl⟩
  · exact ⟨st.coinstatsStore, rfl⟩

omit [HashOrder OutPoint] in
theorem ensureBlockUndo_ok {spentEntries : List (OutPoint × UtxoEntry)}
    (h : st.ensureBlockUndo block spentEntries = .ok undone) :
    ∃ undo, undone = { st with undo } ∧ (∀ hash, hash ≠ block.blockHash → undo.lookup hash = st.undo.lookup hash) ∧
      ((∃ record, st.undo.lookup block.blockHash = some record ∧ undo.lookup block.blockHash = some record) ∨
        ∃ record, st.undo.lookup block.blockHash = none ∧ blockUndo block spentEntries = .ok record ∧
          undo.lookup block.blockHash = some record) := by
  unfold ensureBlockUndo needsUndo at h
  split at h
  · rename_i missing
    unfold cacheBlockUndo at h
    obtain ⟨record, built, h⟩ := bind_ok h
    cases h
    refine ⟨_, rfl, fun hash other => ?_, .inr ⟨record, by simpa using missing, built, ?_⟩⟩
    · rw [lookup_insert_ite, if_neg other]
    · rw [lookup_insert_ite, if_pos rfl]
  · rename_i present
    cases h
    obtain ⟨record, found⟩ := Option.ne_none_iff_exists'.mp (by simpa using present)
    exact ⟨st.undo, rfl, fun _ _ => rfl, .inl ⟨record, found, found⟩⟩

theorem Connection.state
    (connection : Connection st block persist syncStorage previousNode stats application undone st') :
    ∃ records undo, st.ensureBlockUndo block application.spentEntries = .ok { st with undo } ∧ st' = { st with
      undo
      bodies := if persist && (st.bodies.lookup block.blockHash).isNone then st.bodies.insert block.blockHash block
        else st.bodies
      chainstateStore := if st.prepareDelta block.blockHash persist syncStorage
        then st.chainstateStore.insert block.blockHash (st.nextDelta block application persist syncStorage)
        else st.chainstateStore
      coins := st.coins.connectBlock application (st.nextDelta block application persist syncStorage) (st.height + 1)
        (isBip30Repeat st.config.params.network (st.height + 1) block.blockHash) persist
      active := st.active.push block.blockHash block.header block.txdata.length
      blockIndex := st.blockIndex.insert block.blockHash ⟨block.header, st.height + 1,
        previousNode.chainWork + Library.work block.header,
        st.ancestorHash block.header.prevBlockhash (blockIndexSkipHeight (st.height + 1))⟩
      arrival := st.arrival.assignBlockSequenceId block.blockHash
      coinstatsStore := records } := by
  have cached := connection.undo
  obtain ⟨undo, rfl, -⟩ := ensureBlockUndo_ok cached
  have committed := connection.committed
  unfold commitBlock at committed
  obtain ⟨records, recorded⟩ := persistCoinstatsRecord_eq _ _ _
  exact ⟨records, undo, cached, committed.trans recorded⟩

end connection

def replaySpent (delta : ChainstateDelta) (view : CoinView) (spent : OutPoint × UtxoEntry) : Except Error CoinView := do
  let (outpoint, entry) := spent
  bailIf (maxMoney < entry.value) (.message "chainstate delta contains an output above the money range")
  if entry.height = delta.height then do
    bailIf (!delta.transactions.any fun (txid, _) => txid == outpoint.txid) (.message
      "chainstate delta spends an output marked as created in the same block by an unknown transaction")
    .ok view
  else do
    let (removed, view) ← okOr (view.removeUtxo outpoint) (.message ("chainstate delta at height " ++
      toString delta.height ++ " tries to spend missing output " ++ displayOutPoint outpoint))
    bailIf (removed ≠ entry) (.message "chainstate delta spent output metadata does not match")
    .ok view

def replayCreated (delta : ChainstateDelta) (view : CoinView) (created : OutPoint × UtxoEntry) : Except Error CoinView := do
  bailIf (created.2.height ≠ delta.height ∨ maxMoney < created.2.value)
    (.message "chainstate delta contains invalid created output metadata")
  .ok (view.insertUtxo created.1 created.2)

def applyChainstateDelta (st : ChainState) (delta : ChainstateDelta) : Except Error ChainState := do
  bailIf (delta.height ≠ st.active.hashes.length ∨ delta.parentHash ≠ st.bestHash)
    (.message "chainstate delta does not extend the active chain")
  let node ← okOr (st.blockIndex.lookup delta.blockHash)
    (.message ("chainstate delta block " ++ displayHash delta.blockHash ++ " is not indexed"))
  bailIf (node.height ≠ delta.height ∨ node.header.prevBlockhash ≠ delta.parentHash)
    (.message "chainstate delta block index is inconsistent")
  let coins ← delta.spent.foldlM (replaySpent delta) st.coins
  let coins ← delta.created.foldlM (replayCreated delta) coins
  bailIf (delta.transactions.any fun (_, location) => location.blockHash ≠ delta.blockHash || location.height ≠ delta.height)
    (.message "chainstate delta contains invalid transaction metadata")
  .ok { st with
    coins := { coins with coinStats := coins.coinStats.map fun stats => stats.applyBlockMetrics delta.metrics }
    active := st.active.push delta.blockHash node.header delta.transactions.length }

end ChainState

end BitcoindRs
