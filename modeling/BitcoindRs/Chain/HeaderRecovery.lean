import BitcoindRs.Chain.DurableHeaders
import BitcoindRs.Chain.IndexRun

/-! The headers on disk over whole runs of a node, and what a restart makes of them. -/

namespace BitcoindRs
open Result FMap BlockIndex List DataDir
variable [Library] [HashOrder OutPoint] [HashOrder BlockHash]

namespace ChainState
variable {st st' : ChainState}

omit [Library] [HashOrder OutPoint] [HashOrder BlockHash] in
theorem restoreTxCounts_counted (h : st.restoreTxCounts = .ok st') :
    st'.active.txCounts.length = st'.active.hashes.length := by
  unfold restoreTxCounts at h
  split at h
  · rename_i counted
    cases h
    exact counted
  obtain ⟨counts, rebuilt, h⟩ := bind_ok h
  cases h
  unfold rebuiltTxCounts at rebuilt
  split at rebuilt
  · rename_i counted
    cases rebuilt
    exact counted
  split at rebuilt
  · exact (mapM_ok_iff.mp rebuilt).length_eq.symm
  · cases rebuilt
    show ((st.active.txCounts ++ List.replicate st.active.hashes.length 0).take st.active.hashes.length).length =
      st.active.hashes.length
    rw [length_take, length_append, length_replicate]
    omega

omit [HashOrder BlockHash] in
theorem openChain_counted {config : NodeConfig} {dir : DataDir} {rebuildChainstate deltasValid : Bool}
    {orderedHeaders : List (BlockHash × Header)} {best : BlockHash}
    (h : openChain config dir rebuildChainstate deltasValid orderedHeaders best = .ok st') :
    st'.active.txCounts.length = st'.active.hashes.length := by
  unfold openChain at h
  obtain ⟨restored, first, h⟩ := bind_ok h
  obtain ⟨known, second, third⟩ := bind_ok h
  rw [rebuildBlockIndex_active third, indexPersistedPasses_active _ second]
  unfold restoredState at first
  obtain ⟨-, first⟩ := guard_ok first
  obtain ⟨chain, -, first⟩ := bind_ok first
  obtain ⟨counted, counts, first⟩ := bind_ok first
  obtain ⟨-, first⟩ := guard_ok first
  have equal := restoreTxCounts_counted counts
  split at first <;> cases first <;> exact equal

end ChainState

open ChainState

/-- The parents of the headers that a batch adds are genesis, on disk already or new in the batch before them. -/
def ParentsOnDisk (config : NodeConfig) (node : Node) (headers : List Header) : Prop :=
  ∀ hashes inserted, (node.state.acceptHeadersInternal headers).1 = .ok (hashes, inserted) →
    ∀ i header, inserted[i]? = some header →
      header.prevBlockhash = (Library.genesisBlock config.params.network).blockHash ∨
        header.prevBlockhash ∈ (node.dir.persistedHeaders ++ inserted.take i).map blockHash

namespace Node
variable {world : Set Header} {config : NodeConfig} {node : Node}

/-- The index and the files of a node hold checked headers only, and those on disk follow their parents. -/
structure Durable (world : Set Header) (config : NodeConfig) (node : Node) : Prop where
  indexed : Indexed (Vetted world config) node.state
  started : node.state.active.hashes ≠ []
  counted : node.state.active.txCounts.length = node.state.active.hashes.length
  configured : node.state.config = config
  written : DataDir.Written (Vetted world config) config node.dir
  rooted : node.dir.checkpointChain config ≠ []
  ordered : ParentsFirst (Library.genesisBlock config.params.network).blockHash node.dir.persistedHeaders

omit [HashOrder OutPoint] in
theorem Durable.persistMetadata (indexed : Indexed (Vetted world config) node.state)
    (started : node.state.active.hashes ≠ [])
    (counted : node.state.active.txCounts.length = node.state.active.hashes.length)
    (sameConfig : node.state.config = config) (written : DataDir.Written (Vetted world config) config node.dir) :
    Durable world config node.persistMetadata.2 := by
  have genesis : node.state.networkGenesisHash = (Library.genesisBlock config.params.network).blockHash := by
    rw [networkGenesisHash, sameConfig]
  have linked := indexed.index
  have chain := indexed.active
  have ordered := knownHeaders_parentsFirst indexed
  rw [genesis] at linked chain ordered
  unfold Node.persistMetadata
  rw [if_neg (not_not.mpr counted)]
  refine ⟨indexed, started, counted, sameConfig, ⟨written.genesis, ?_, ?_, ?_, written.bodies, written.snapshot⟩,
    started, ordered⟩
  · exact ⟨node.state.active.headers, ⟨chain.hashed, chain.world, chain.root, chain.linked⟩⟩
  · intro hash height listed
    cases listed
    exact ⟨node.state.blockIndex, linked, (indexed.tip started).2⟩
  · exact knownHeaders_known indexed

omit [HashOrder OutPoint] in
theorem Durable.checkpoint (durable : Durable world config node) : Durable world config node.persistMetadata.2 :=
  .persistMetadata durable.indexed durable.started durable.counted durable.configured durable.written

omit [HashOrder OutPoint] [HashOrder BlockHash] in
theorem Durable.journal (collisionFree : Set.InjOn blockHash world) (durable : Durable world config node)
    {headers : List Header} {hashes : List BlockHash} {inserted : List Header} {st : ChainState}
    (known : ∀ header ∈ headers, header ∈ world) (parents : ParentsOnDisk config node headers)
    (accepted : node.state.acceptHeadersInternal headers = (.ok (hashes, inserted), st)) :
    Durable world config ⟨st, { node.dir with headerJournal := node.dir.headerJournal ++ inserted }⟩ := by
  have rooted := durable.indexed.rooted durable.started
  obtain ⟨kept, vetted⟩ := acceptHeadersInternal_vetted headers (vetted_free collisionFree) durable.indexed rooted durable.configured known
  have active : (node.state.acceptHeadersInternal headers).2.active = node.state.active :=
    acceptHeadersInternal_active headers
  rw [accepted] at kept vetted active
  have persisted : persistedHeaders { node.dir with headerJournal := node.dir.headerJournal ++ inserted } =
      ChainState.loadHeaderJournal node.dir.persistedHeaders inserted := List.foldl_append
  refine ⟨kept.indexed, kept.started durable.started, ?_, kept.config.trans durable.configured,
    ⟨durable.written.genesis, durable.written.chain, durable.written.tip, ?_, durable.written.bodies,
      durable.written.snapshot⟩, durable.rooted, ?_⟩
  · show st.active.txCounts.length = st.active.hashes.length
    rw [show st.active = node.state.active from active]
    exact durable.counted
  · intro header member
    rw [persisted] at member
    rcases mem_loadHeaderJournal inserted member with old | new
    · exact durable.written.headers header old
    · exact vetted hashes inserted rfl header new
  · rw [persisted]
    refine durable.ordered.load inserted fun i header listed => .inr ?_
    exact parents hashes inserted (by rw [accepted]) i header listed

omit [HashOrder OutPoint] in
theorem Durable.acceptHeaders (collisionFree : Set.InjOn blockHash world) (durable : Durable world config node)
    {headers : List Header} (known : ∀ header ∈ headers, header ∈ world) (parents : ParentsOnDisk config node headers) :
    Durable world config (node.acceptHeaders headers).2 := by
  have rooted := durable.indexed.rooted durable.started
  unfold Node.acceptHeaders
  split
  · -- A failing batch leaves the headers before the failure in memory only.
    rename_i error st failed
    obtain ⟨kept, -⟩ := acceptHeadersInternal_vetted headers (vetted_free collisionFree) durable.indexed rooted durable.configured known
    have active : (node.state.acceptHeadersInternal headers).2.active = node.state.active :=
      acceptHeadersInternal_active headers
    rw [failed] at kept active
    refine ⟨kept.indexed, kept.started durable.started, ?_, kept.config.trans durable.configured, durable.written,
      durable.rooted, durable.ordered⟩
    show st.active.txCounts.length = st.active.hashes.length
    rw [show st.active = node.state.active from active]
    exact durable.counted
  · rename_i hashes inserted st accepted
    have journaled := durable.journal collisionFree known parents accepted
    dsimp only
    split
    · rename_i none_
      rw [none_, append_nil] at journaled
      exact journaled
    split
    · have checkpointed := journaled.checkpoint
      split <;> rename_i done <;> rwa [done] at checkpointed
    · exact journaled

omit [HashOrder OutPoint] in
theorem Durable.snapshot (durable : Durable world config node) : Durable world config node.persistSnapshot.2 := by
  have checkpointed := durable.checkpoint
  unfold Node.persistSnapshot
  split
  · rename_i failed
    rwa [failed] at checkpointed
  rename_i next done
  rw [done] at checkpointed
  have saved := persistSnapshot_kept checkpointed.indexed
  refine ⟨saved.indexed, saved.started checkpointed.started, ?_, saved.config.trans checkpointed.configured,
    ⟨checkpointed.written.genesis, checkpointed.written.chain, checkpointed.written.tip, checkpointed.written.headers,
      checkpointed.written.bodies, saved.indexed.snapshot⟩, checkpointed.rooted, checkpointed.ordered⟩
  show next.state.persistSnapshot.active.txCounts.length = next.state.persistSnapshot.active.hashes.length
  rw [persistSnapshot_active]
  exact checkpointed.counted

omit [HashOrder BlockHash] in
theorem Durable.connect (collisionFree : Set.InjOn blockHash world) (durable : Durable world config node)
    {block : Block} {syncStorage : Bool} {st : ChainState} {dir : DataDir} (known : block.header ∈ world)
    (inactive : node.state.isActiveBlock block.blockHash = false)
    (h : node.state.connectBlockInternal block true syncStorage = .ok st)
    (metadata : dir.metadata = node.dir.metadata) (journal : dir.headerJournal = node.dir.headerJournal)
    (tip : dir.activeTip = if syncStorage then some (st.bestHash, st.height) else node.dir.activeTip)
    (snapshot : dir.snapshot = node.dir.snapshot)
    (bodies : ∀ hash block, dir.bodies.lookup hash = some block → st.bodies.lookup hash = some block) :
    Durable world config ⟨st, dir⟩ := by
  obtain ⟨kept, counted⟩ := connectBlockInternal_vetted (vetted_free collisionFree) durable.indexed durable.started durable.configured known
    (durable.indexed.ne_genesis durable.started inactive) h
  have persisted : dir.persistedHeaders = node.dir.persistedHeaders := by
    rw [persistedHeaders, metadata, journal, persistedHeaders]
  have started := kept.started durable.started
  refine ⟨kept.indexed, started, counted durable.counted, kept.config.trans durable.configured,
    ⟨durable.written.genesis, ?_, ?_, ?_, ?_, ?_⟩, ?_, ?_⟩
  · rw [checkpointChain, metadata]
    exact durable.written.chain
  · intro hash height listed
    rw [tip] at listed
    split at listed
    · cases listed
      have linked := kept.indexed.index
      rw [networkGenesisHash, kept.config, durable.configured] at linked
      exact ⟨st.blockIndex, linked, (kept.indexed.tip started).2⟩
    · exact durable.written.tip hash height listed
  · rw [persisted]
    exact durable.written.headers
  · exact fun hash body stored => kept.indexed.bodies hash body (bodies hash body stored)
  · rw [snapshot]
    exact durable.written.snapshot
  · rw [checkpointChain, metadata]
    exact durable.rooted
  · rw [persisted]
    exact durable.ordered

theorem Durable.reopen (collisionFree : Set.InjOn blockHash world) {dir : DataDir} {st : ChainState}
    {rebuildChainstate deltasValid : Bool} {orderedHeaders : List (BlockHash × Header)} {best : BlockHash}
    (written : DataDir.Written (Vetted world config) config dir)
    (stored : ∀ entry ∈ orderedHeaders, ∃ block, dir.bodies.lookup entry.1 = some block ∧ block.header = entry.2)
    (h : openChain config dir rebuildChainstate deltasValid orderedHeaders best = .ok st) :
    Durable world config (Node.persistMetadata ⟨st, dir⟩).2 := by
  have filed : Stored (Vetted world config) orderedHeaders := by
    intro entry member
    obtain ⟨block, found, same⟩ := stored entry member
    rw [← same]
    exact written.bodies _ block found
  obtain ⟨indexed, started, sameConfig⟩ := openChain_indexed (vetted_free collisionFree) written filed h
  exact .persistMetadata indexed started (openChain_counted h) sameConfig written

theorem NodeRun.durable (collisionFree : Set.InjOn blockHash world)
    (genesis : (Library.genesisBlock config.params.network).header ∈ world)
    (run : NodeRun world config (ParentsOnDisk config) node) : Durable world config node := by
  have vettedGenesis : (Library.genesisBlock config.params.network).header ∈ Vetted world config := ⟨genesis, .inl rfl⟩
  induction run with
  | start fresh bodies stored h =>
    obtain ⟨metadata, journal, tip, snapshot⟩ := fresh
    have nobody : ∀ earlier, (none : Option ChainState) = some earlier → Indexed (Vetted world config) earlier ∧
        earlier.active.hashes ≠ [] ∧ earlier.config.params.network = config.params.network := fun _ absent => by cases absent
    refine .reopen collisionFree (written_of_earlier vettedGenesis nobody nobody ?_ ?_ ?_ ?_ ?_) stored h
    · rw [metadata]
      rfl
    · rw [tip]
      rfl
    · intro header member
      rw [persistedHeaders, metadata, journal] at member
      cases member
    · intro hash block found
      obtain ⟨isGenesis, filed⟩ := bodies hash block found
      exact ⟨filed, isGenesis ▸ vettedGenesis⟩
    · intro saved some_
      rw [snapshot] at some_
      cases some_
  | accept run known fine ih => exact ih.acceptHeaders collisionFree known fine
  | connect run known inactive h metadata journal tip snapshot bodies ih =>
    exact ih.connect collisionFree known inactive h metadata journal tip snapshot bodies
  | checkpoint run ih => exact ih.checkpoint
  | snapshot run ih => exact ih.snapshot
  | restart run stored h ih => exact .reopen collisionFree ih.written stored h

end Node

omit [HashOrder BlockHash] in
/-- The states in which a restart indexes the headers on disk: at the start of a reindex, after the headers of a
snapshot, and after the active chain has been restored. -/
inductive IndexesPersisted (config : NodeConfig) (dir : DataDir) : ChainState → Prop
  | reindex {st : ChainState}
      (h : (dir.emptyState config true).initializeGenesis (Library.genesisBlock config.params.network) = .ok st) :
      IndexesPersisted config dir st
  | snapshot {snapshot : ChainSnapshot} {st : ChainState}
      (loaded : (dir.emptyState config false).loadSnapshot (dir.activeChain config false) = some snapshot)
      (h : (dir.emptyState config false).indexSnapshotHeaders (dir.activeChain config false) snapshot = .ok st) :
      IndexesPersisted config dir st
  | restored {rebuildChainstate deltasValid : Bool} {orderedHeaders : List (BlockHash × Header)} {best : BlockHash}
      {st : ChainState}
      (stored : ∀ entry ∈ orderedHeaders, ∃ block, dir.bodies.lookup entry.1 = some block ∧ block.header = entry.2)
      (h : restoredState config dir rebuildChainstate deltasValid orderedHeaders best = .ok st) :
      IndexesPersisted config dir st

section recovery
variable {world : Set Header} {config : NodeConfig}

omit [HashOrder BlockHash] in
theorem IndexesPersisted.indexed {dir : DataDir} {st : ChainState} (collisionFree : Set.InjOn blockHash world)
    (written : DataDir.Written world config dir) (indexes : IndexesPersisted config dir st) :
    Indexed world st ∧ st.active.hashes ≠ [] ∧ st.config = config := by
  cases indexes with
  | reindex h =>
    obtain ⟨kept, started⟩ := initializeGenesis_kept collisionFree (written.emptyState_indexed true) rfl written.genesis h
    exact ⟨kept.indexed, started, kept.config⟩
  | snapshot loaded h =>
    obtain ⟨headers, linked⟩ := written.activeChain collisionFree false
    exact indexSnapshotHeaders_kept collisionFree (written.emptyState_indexed false) linked loaded h
  | restored stored h =>
    refine restoredState_indexed collisionFree written (fun entry member => ?_) h
    obtain ⟨block, found, same⟩ := stored entry member
    rw [← same]
    exact written.bodies _ block found

omit [HashOrder OutPoint] [HashOrder BlockHash] in
theorem genesis_mem_activeChain {dir : DataDir} (written : DataDir.Written world config dir)
    (rooted : dir.checkpointChain config ≠ []) :
    (Library.genesisBlock config.params.network).blockHash ∈ dir.activeChain config false := by
  obtain ⟨headers, linked⟩ := written.chain
  obtain ⟨first, rest, listed⟩ := exists_cons_of_ne_nil rooted
  have isGenesis : first = (Library.genesisBlock config.params.network).blockHash := by
    refine (linked.root 0 first ?_).mp rfl
    show (dir.checkpointChain config)[0]? = some first
    rw [listed]
    rfl
  have member : first ∈ dir.checkpointChain config := by
    rw [listed]
    exact mem_cons_self
  rw [← isGenesis]
  show first ∈ loadActiveChainFromTip dir.bodies (dir.checkpointChain config) dir.activeTip
  unfold loadActiveChainFromTip
  dsimp only
  repeat' split
  all_goals first
    | exact member
    | exact mem_append_left _ member

/-- In a run in which every journaled header has its parent on disk, the recovered headers and the recovered chain
contain the parent of every recovered header in every state, and every restart can index them. -/
theorem persistedHeaders_parentClosed (collisionFree : Set.InjOn blockHash world)
    (genesis : (Library.genesisBlock config.params.network).header ∈ world) (reads : ReadsAncestors config) {node : Node}
    (run : NodeRun world config (ParentsOnDisk config) node) :
    (∀ header ∈ node.dir.persistedHeaders,
      blockHash header = (Library.genesisBlock config.params.network).blockHash ∨
      header.prevBlockhash ∈ node.dir.persistedHeaders.map blockHash ∨
      header.prevBlockhash ∈ node.dir.activeChain config false) ∧
    ∀ st, IndexesPersisted config node.dir st → ∃ st', st.indexPersistedHeaders node.dir.persistedHeaders = .ok st' := by
  have durable := Node.NodeRun.durable collisionFree genesis run
  constructor
  · intro header member
    obtain ⟨i, listed⟩ := mem_iff_getElem?.mp member
    rcases durable.ordered i header listed with isGenesis | onGenesis | before
    · exact .inl isGenesis
    · refine .inr (.inr ?_)
      rw [onGenesis]
      exact genesis_mem_activeChain durable.written durable.rooted
    · obtain ⟨parent, earlier, same⟩ := mem_map.mp before
      exact .inr (.inl (mem_map.mpr ⟨parent, mem_of_mem_take earlier, same⟩))
  · intro st indexes
    obtain ⟨indexed, started, sameConfig⟩ := indexes.indexed (vetted_free collisionFree) durable.written
    have ordered := durable.ordered
    rw [← sameConfig] at ordered
    exact indexPersistedHeaders_succeeds collisionFree reads indexed (indexed.rooted started) sameConfig
      durable.written.headers ordered

omit [Library] [HashOrder OutPoint] [HashOrder BlockHash] in
theorem sampleRun_start {condition : Node → List Header → Prop} {st : ChainState} : let _ := Library.sample
    let _ := OutPoint.sampleOrder
    let _ := BlockHash.sampleOrder
    openChain sampleConfig DataDir.sample false false [] 0 = .ok st →
      NodeRun world sampleConfig condition (Node.persistMetadata ⟨st, DataDir.sample⟩).2 := by
  intro _ _ _ opened
  refine .start ⟨rfl, rfl, rfl, rfl⟩ (fun hash block stored => ?_) (fun _ member => absurd member not_mem_nil) opened
  rw [DataDir.sample, lookup_insert_ite] at stored
  split at stored
  · rename_i zero
    cases stored
    exact ⟨rfl, zero.symm⟩
  · simp at stored

def sampleFailingBatch : List Header := [⟨1, 0, 0, 1, 0, 1⟩, ⟨1, 9, 0, 1, 0, 3⟩]

omit [Library] [HashOrder OutPoint] [HashOrder BlockHash] in
/-- A batch that fails leaves its first header in memory only; a batch on top of that header is journaled without it,
and the node does not start any more. -/
theorem persistedHeaders_orphaned : let _ := Library.sample
    let _ := OutPoint.sampleOrder
    let _ := BlockHash.sampleOrder
    ∃ node, NodeRun {header | header ∈ sampleHeaders ++ sampleFailingBatch} sampleConfig (fun _ _ => True) node ∧
      node.dir.persistedHeaders = [⟨1, 0, 0, 0, 0, 0⟩, ⟨1, 1, 0, 2, 0, 2⟩] ∧ node.dir.activeChain sampleConfig false = [0] ∧
      openChain sampleConfig node.dir false false [] 0 = .error (.message ("persisted header " ++ displayHash 2 ++
        " has an unknown parent " ++ displayHash 1)) := by
  let _ := Library.sample
  let _ := OutPoint.sampleOrder
  let _ := BlockHash.sampleOrder
  obtain ⟨st, opened, test⟩ := exists_okAnd
    (show okAnd (openChain sampleConfig DataDir.sample false false [] 0) (fun st =>
      let node := (((Node.persistMetadata ⟨st, DataDir.sample⟩).2.acceptHeaders sampleFailingBatch).2.acceptHeaders
        (sampleHeaders.drop 2)).2
      decide (node.dir.persistedHeaders = [⟨1, 0, 0, 0, 0, 0⟩, ⟨1, 1, 0, 2, 0, 2⟩] ∧
        node.dir.activeChain sampleConfig false = [0]) &&
        errorIs (openChain sampleConfig node.dir false false [] 0) (.message ("persisted header " ++ displayHash 2 ++
          " has an unknown parent " ++ displayHash 1))) = true by decide +kernel)
  obtain ⟨onDisk, fails⟩ := (Bool.and_eq_true _ _).mp test
  obtain ⟨persisted, active⟩ := of_decide_eq_true onDisk
  have start : NodeRun {header | header ∈ sampleHeaders ++ sampleFailingBatch} sampleConfig (fun _ _ => True) _ :=
    sampleRun_start opened
  have failed := start.accept (fun header (member : header ∈ sampleFailingBatch) => mem_append_right _ member) trivial
  have journaled := failed.accept (fun header (member : header ∈ sampleHeaders.drop 2) =>
    mem_append_left _ (mem_of_mem_drop member)) trivial
  exact ⟨_, journaled, persisted, active, eq_error fails⟩

omit [Library] [HashOrder OutPoint] [HashOrder BlockHash] in
theorem persistedHeaders_parentClosed_sample : let _ := Library.sample
    let _ := OutPoint.sampleOrder
    let _ := BlockHash.sampleOrder
    ∃ node, NodeRun {header | header ∈ sampleHeaders} sampleConfig (ParentsOnDisk sampleConfig) node ∧
      node.dir.persistedHeaders = sampleHeaders ∧
      ∀ st, IndexesPersisted sampleConfig node.dir st → ∃ st', st.indexPersistedHeaders sampleHeaders = .ok st' := by
  let _ := Library.sample
  let _ := OutPoint.sampleOrder
  let _ := BlockHash.sampleOrder
  have distinct : ∀ a ∈ sampleHeaders, ∀ b ∈ sampleHeaders, a.nonce = b.nonce → a = b := by decide
  obtain ⟨st, opened, test⟩ := exists_okAnd
    (show okAnd (openChain sampleConfig DataDir.sample false false [] 0) (fun st =>
      let node := (Node.persistMetadata ⟨st, DataDir.sample⟩).2
      okAnd (node.state.acceptHeadersInternal (sampleHeaders.drop 1)).1 (fun accepted =>
        decide (accepted.2 = sampleHeaders.drop 1)) &&
      decide (node.dir.persistedHeaders = sampleHeaders.take 1 ∧
        (node.acceptHeaders (sampleHeaders.drop 1)).2.dir.persistedHeaders = sampleHeaders)) = true by decide +kernel)
  obtain ⟨accepts, onDisk⟩ := (Bool.and_eq_true _ _).mp test
  obtain ⟨accepted, evaluated, all⟩ := exists_okAnd accepts
  obtain ⟨before, persisted⟩ := of_decide_eq_true onDisk
  have start : NodeRun {header | header ∈ sampleHeaders} sampleConfig (ParentsOnDisk sampleConfig) _ :=
    sampleRun_start opened
  have parents : ParentsOnDisk sampleConfig (Node.persistMetadata ⟨st, DataDir.sample⟩).2 (sampleHeaders.drop 1) := by
    intro hashes inserted same i header listed
    rw [evaluated] at same
    cases same
    have chained : ∀ i header, (sampleHeaders.drop 1)[i]? = some header →
        header.prevBlockhash ∈ (sampleHeaders.take 1 ++ (sampleHeaders.drop 1).take i).map (·.nonce) := by
      intro i header listed
      match i with
      | 0 | 1 =>
        cases listed
        decide
      | i + 2 => cases listed
    refine .inr ?_
    rw [before]
    have inserted : inserted = sampleHeaders.drop 1 := of_decide_eq_true all
    rw [inserted] at listed ⊢
    exact chained i header listed
  have run := start.accept (fun header (member : header ∈ sampleHeaders.drop 1) => mem_of_mem_drop member) parents
  obtain ⟨-, indexes⟩ := persistedHeaders_parentClosed (fun a left b right same => distinct a left b right same)
    mem_cons_self (fun _ _ _ _ _ => rfl) run
  rw [persisted] at indexes
  exact ⟨_, run, persisted, indexes⟩

end recovery

end BitcoindRs
