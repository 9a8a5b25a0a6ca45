import BitcoindRs.Chain.Reload

/-!
The block index over whole runs of a node: opened from its files, fed with headers and blocks, reorganised and
restarted, it stays linked, and the ancestor lookup is exact in every state.
-/

namespace BitcoindRs
open Result FMap Ancestry BlockIndex List
variable [Library]

namespace ChainState
variable {world : Set Header} {st st' : ChainState} {path : List BlockHash}
variable {hash : BlockHash} {i : ℕ} {index : BlockIndex} {hashes : List BlockHash}

theorem IsBranch.indexed (branch : st.IsBranch path) (rooted : st.Rooted)
    (listed : path[i]? = some hash) : ∃ node, st.blockIndex.lookup hash = some node := by
  rcases i with _ | i
  · rw [branch.first] at listed
    cases listed
    obtain ⟨node, found, -⟩ := heightOf_some rooted
    exact ⟨node, found⟩
  · obtain ⟨-, node, found, -⟩ := branch.linked i hash listed
    exact ⟨node, found⟩

theorem IsBranch.placed (branch : st.IsBranch path) (rooted : st.Rooted)
    (linked : Linked world st.networkGenesisHash st.blockIndex)
    (listed : path[i]? = some hash) : heightOf st.blockIndex hash = some i := by
  induction i generalizing hash with
  | zero =>
    rw [branch.first] at listed
    cases listed
    exact rooted
  | succ i ih =>
    obtain ⟨notGenesis, node, found, before⟩ := branch.linked i hash listed
    have positive : node.height ≠ 0 := fun zero => notGenesis ((linked.root hash node found).mp zero)
    obtain ⟨k, height⟩ : ∃ k, node.height = k + 1 := ⟨node.height - 1, by omega⟩
    obtain ⟨p, above, rankedParent⟩ := linked.graded hash k (by rw [heightOf_eq found, height])
    rw [parentOf_eq found, Option.some.injEq] at above
    rw [← above, ih before, Option.some.injEq] at rankedParent
    rw [heightOf_eq found, height, rankedParent]

def headerOf (index : BlockIndex) (hash : BlockHash) : Option Header := (index.lookup hash).map (·.header)

omit [Library] in
theorem filterMap_headerOf (indexed : ∀ hash ∈ hashes, ∃ node, index.lookup hash = some node) (i : ℕ) :
    (hashes.filterMap (headerOf index))[i]? = hashes[i]?.bind (headerOf index) := by
  induction hashes generalizing i with
  | nil => rfl
  | cons hash hashes ih =>
    obtain ⟨node, found⟩ := indexed hash mem_cons_self
    have header : headerOf index hash = some node.header := by rw [headerOf, found, Option.map_some]
    rw [filterMap_cons_some header]
    rcases i with _ | i
    · exact header.symm
    · exact ih (fun other member => indexed other (mem_cons_of_mem _ member)) i

theorem map_headerOf {genesis : BlockHash}
    (linked : Linked world genesis index) (indexed : ∀ hash ∈ hashes, ∃ node, index.lookup hash = some node) :
    (hashes.filterMap (headerOf index)).map blockHash = hashes := by
  induction hashes with
  | nil => rfl
  | cons hash hashes ih =>
    obtain ⟨node, found⟩ := indexed hash mem_cons_self
    have header : headerOf index hash = some node.header := by rw [headerOf, found, Option.map_some]
    rw [filterMap_cons_some header, map_cons, (linked.keyed hash node found).1,
      ih fun other member => indexed other (mem_cons_of_mem _ member)]

theorem IsBranch.chain (branch : st.IsBranch path) (rooted : st.Rooted)
    (linked : Linked world st.networkGenesisHash st.blockIndex) (counts totals : List ℕ) :
    (ActiveChain.mk path (path.filterMap (headerOf st.blockIndex)) counts totals).Linked world st.networkGenesisHash := by
  have present : ∀ hash ∈ path, ∃ node, st.blockIndex.lookup hash = some node := fun hash member => by
    obtain ⟨i, listed⟩ := mem_iff_getElem?.mp member
    exact branch.indexed rooted listed
  refine ⟨(map_headerOf linked present).symm, ?_, ?_, ?_⟩
  · intro header member
    obtain ⟨hash, -, read⟩ := mem_filterMap.mp member
    obtain ⟨node, found, rfl⟩ := Option.map_eq_some_iff.mp read
    exact (linked.keyed hash node found).2
  · intro i hash listed
    rcases i with _ | i
    · rw [show path[0]? = some st.networkGenesisHash from branch.first] at listed
      cases listed
      exact iff_of_true rfl rfl
    · exact iff_of_false (Nat.succ_ne_zero i) (branch.linked i hash listed).1
  · intro i header listed
    change (path.filterMap (headerOf st.blockIndex))[i + 1]? = some header at listed
    rw [filterMap_headerOf present, Option.bind_eq_some_iff] at listed
    obtain ⟨hash, here, read⟩ := listed
    obtain ⟨-, node, found, before⟩ := branch.linked i hash here
    rw [headerOf, found, Option.map_some, Option.some.injEq] at read
    rw [← read]
    exact before

theorem promoteSnapshotChainToBase_kept [HashOrder OutPoint] (collisionFree : Set.InjOn blockHash world)
    (indexed : Indexed world st) (started : st.active.hashes ≠ []) : Kept world st st.promoteSnapshotChainToBase := by
  have rooted := indexed.rooted started
  unfold promoteSnapshotChainToBase
  split
  · exact .refl indexed
  split
  · exact .refl indexed
  split
  · exact .refl indexed
  split
  · exact .refl indexed
  split
  · exact .refl indexed
  rename_i path walked
  split
  · exact .refl indexed
  rename_i extension
  have shared : path.take st.active.hashes.length = st.active.hashes := not_not.mp extension
  have branch := pathTo_spec walked
  have present : ∀ hash ∈ path.drop st.active.hashes.length, ∃ node, st.blockIndex.lookup hash = some node :=
    fun hash member => by
      obtain ⟨i, listed⟩ := mem_iff_getElem?.mp (mem_of_mem_drop member)
      exact branch.indexed rooted listed
  have hashes : path = (st.active.headers ++
      (path.drop st.active.hashes.length).filterMap (headerOf st.blockIndex)).map blockHash := by
    rw [map_append, ← indexed.active.hashed, map_headerOf indexed.index present]
    conv_lhs => rw [← take_append_drop st.active.hashes.length path, shared]
  have known : ∀ header ∈ st.active.headers ++ (path.drop st.active.hashes.length).filterMap (headerOf st.blockIndex),
      header ∈ world := by
    intro header member
    rcases mem_append.mp member with old | new
    · exact indexed.active.world header old
    · obtain ⟨hash, -, read⟩ := mem_filterMap.mp new
      obtain ⟨node, found, rfl⟩ := Option.map_eq_some_iff.mp read
      exact (indexed.index.keyed hash node found).2
  have promoted : Kept world st { st with active := ⟨path, st.active.headers ++
      (path.drop st.active.hashes.length).filterMap (headerOf st.blockIndex),
      (st.active.txCounts ++ List.replicate path.length 0).take path.length,
      cumulativeTxCounts ((st.active.txCounts ++ List.replicate path.length 0).take path.length)⟩ } := by
    refine ⟨⟨⟨indexed.index, (branch.chain rooted indexed.index [] []).of_hashes collisionFree known hashes _ _,
      indexed.bodies, indexed.snapshot⟩, fun i hash listed => branch.placed rooted indexed.index listed⟩,
      fun _ _ same => same, rfl, fun _ empty => ?_⟩
    have first := branch.first
    rw [show path = [] from empty] at first
    cases first
  exact promoted.trans (persistSnapshot_kept promoted.indexed)

variable [HashOrder OutPoint]

/-- The states a node can reach, for the headers it may see. It is opened from files that earlier states have written,
or from none; a chain and a tip on disk may come from different states. -/
inductive IndexRun (world : Set Header) (network : Network) : ChainState → Prop
  | opened {config : NodeConfig} {dir : DataDir} {rebuildChainstate deltasValid : Bool}
      {orderedHeaders : List (BlockHash × Header)} {best : BlockHash} {st : ChainState}
      (checkpoint tip : Option ChainState)
      (ranCheckpoint : ∀ earlier, checkpoint = some earlier → IndexRun world network earlier)
      (ranTip : ∀ earlier, tip = some earlier → IndexRun world network earlier)
      (sameNetwork : config.params.network = network)
      (metadata : dir.metadata.map (·.activeChain) = checkpoint.map (·.active.hashes))
      (sidecar : dir.activeTip = tip.map fun earlier => (earlier.bestHash, earlier.height))
      (headers : ∀ header ∈ dir.persistedHeaders, header ∈ world)
      (bodies : ∀ hash block, dir.bodies.lookup hash = some block → block.blockHash = hash ∧ block.header ∈ world)
      (snapshot : ∀ snapshot, dir.snapshot = some snapshot → ∀ header ∈ snapshot.headers, header ∈ world)
      (stored : Stored world orderedHeaders)
      (h : openChain config dir rebuildChainstate deltasValid orderedHeaders best = .ok st) : IndexRun world network st
  | headers {st : ChainState} {headers : List Header} (run : IndexRun world network st)
      (known : ∀ header ∈ headers, header ∈ world) : IndexRun world network (st.acceptHeadersInternal headers).2
  | connect {st st' : ChainState} {block : Block} {persist syncStorage : Bool} (run : IndexRun world network st)
      (known : block.header ∈ world) (inactive : st.isActiveBlock block.blockHash = false)
      (h : st.connectBlockInternal block persist syncStorage = .ok st') : IndexRun world network st'
  | sideChain {st st' : ChainState} {block : Block} {candidate : Bool} (run : IndexRun world network st)
      (known : block.header ∈ world) (inactive : st.isActiveBlock block.blockHash = false)
      (h : st.acceptSideChainBlock block candidate = .ok st') : IndexRun world network st'
  | activate {st : ChainState} (tip : BlockHash) (run : IndexRun world network st) :
      IndexRun world network (st.activateChain tip).2
  | promote {st : ChainState} (run : IndexRun world network st) : IndexRun world network st.promoteSnapshotChainToBase
  | elsewhere {st st' : ChainState} (run : IndexRun world network st) (config : st'.config = st.config)
      (index : st'.blockIndex = st.blockIndex) (hashes : st'.active.hashes = st.active.hashes)
      (headers : st'.active.headers = st.active.headers)
      (bodies : ∀ hash block, st'.bodies.lookup hash = some block → block.blockHash = hash ∧ block.header ∈ world)
      (snapshot : ∀ snapshot, st'.snapshot = some snapshot → ∀ header ∈ snapshot.headers, header ∈ world) :
      IndexRun world network st'

omit [HashOrder OutPoint] in
theorem Indexed.ne_genesis (indexed : Indexed world st) (started : st.active.hashes ≠ [])
    (inactive : st.isActiveBlock hash = false) : hash ≠ st.networkGenesisHash := by
  rintro rfl
  obtain ⟨node, found, height⟩ := heightOf_some (indexed.rooted started)
  obtain ⟨first, rest, listed⟩ := exists_cons_of_ne_nil started
  have zero : st.active.hashes[0]? = some first := by rw [listed]; rfl
  have isGenesis := (indexed.active.root 0 first zero).mp rfl
  rw [isActiveBlock, found] at inactive
  dsimp only at inactive
  rw [height, zero, isGenesis] at inactive
  simp at inactive

omit [HashOrder OutPoint] in
theorem written_of_earlier {config : NodeConfig} {dir : DataDir} {checkpoint tip : Option ChainState}
    (genesis : (Library.genesisBlock config.params.network).header ∈ world)
    (ranCheckpoint : ∀ earlier, checkpoint = some earlier → Indexed world earlier ∧ earlier.active.hashes ≠ [] ∧
      earlier.config.params.network = config.params.network)
    (ranTip : ∀ earlier, tip = some earlier → Indexed world earlier ∧ earlier.active.hashes ≠ [] ∧
      earlier.config.params.network = config.params.network)
    (metadata : dir.metadata.map (·.activeChain) = checkpoint.map (·.active.hashes))
    (sidecar : dir.activeTip = tip.map fun earlier => (earlier.bestHash, earlier.height))
    (headers : ∀ header ∈ dir.persistedHeaders, header ∈ world)
    (bodies : ∀ hash block, dir.bodies.lookup hash = some block → block.blockHash = hash ∧ block.header ∈ world)
    (snapshot : ∀ snapshot, dir.snapshot = some snapshot → ∀ header ∈ snapshot.headers, header ∈ world) :
    DataDir.Written world config dir := by
  refine ⟨genesis, ?_, ?_, headers, bodies, snapshot⟩
  · rw [DataDir.checkpointChain, metadata]
    rcases checkpoint with _ | earlier
    · have alone : ((ActiveChain.mk [] [] [] []).push (blockHash (Library.genesisBlock _).header)
          (Library.genesisBlock config.params.network).header 0).Linked world
          (Library.genesisBlock config.params.network).blockHash :=
        (ActiveChain.linked_empty world _).push genesis (iff_of_true rfl rfl) fun i length => by cases length
      exact ⟨_, ⟨alone.hashed, alone.world, alone.root, alone.linked⟩⟩
    · obtain ⟨indexed, -, sameNetwork⟩ := ranCheckpoint earlier rfl
      have chain := indexed.active
      rw [networkGenesisHash, sameNetwork] at chain
      exact ⟨_, ⟨chain.hashed, chain.world, chain.root, chain.linked⟩⟩
  · intro hash height listed
    rcases tip with _ | earlier
    · rw [sidecar] at listed
      cases listed
    · rw [sidecar] at listed
      cases listed
      obtain ⟨indexed, started, sameNetwork⟩ := ranTip earlier rfl
      have linked := indexed.index
      rw [networkGenesisHash, sameNetwork] at linked
      exact ⟨earlier.blockIndex, linked, (indexed.tip started).2⟩

theorem IndexRun.indexed {network : Network} (collisionFree : Set.InjOn blockHash world)
    (genesis : (Library.genesisBlock network).header ∈ world) (run : IndexRun world network st) :
    Indexed world st ∧ st.active.hashes ≠ [] ∧ st.config.params.network = network := by
  induction run with
  | @opened config dir _ _ _ _ st checkpoint tip _ _ sameNetwork metadata sidecar headers bodies snapshot stored h ih ih' =>
    subst sameNetwork
    have written := written_of_earlier genesis ih ih' metadata sidecar headers bodies snapshot
    obtain ⟨indexed, started, sameConfig⟩ := openChain_indexed collisionFree written stored h
    exact ⟨indexed, started, by rw [sameConfig]⟩
  | headers run known ih =>
    obtain ⟨indexed, started, sameNetwork⟩ := ih
    have kept := acceptHeadersInternal_kept collisionFree _ indexed (indexed.rooted started) known
    exact ⟨kept.indexed, kept.started started, by rw [kept.config, sameNetwork]⟩
  | connect run known inactive h ih =>
    obtain ⟨indexed, started, sameNetwork⟩ := ih
    have kept := connectBlockInternal_kept collisionFree indexed started known (indexed.ne_genesis started inactive) h
    exact ⟨kept.indexed, kept.started started, by rw [kept.config, sameNetwork]⟩
  | sideChain run known inactive h ih =>
    obtain ⟨indexed, started, sameNetwork⟩ := ih
    have kept := acceptSideChainBlock_kept collisionFree indexed known (indexed.ne_genesis started inactive) h
    exact ⟨kept.indexed, kept.started started, by rw [kept.config, sameNetwork]⟩
  | activate tip run ih =>
    obtain ⟨indexed, started, sameNetwork⟩ := ih
    have kept := activateChain_kept collisionFree indexed tip
    exact ⟨kept.indexed, kept.started started, by rw [kept.config, sameNetwork]⟩
  | promote run ih =>
    obtain ⟨indexed, started, sameNetwork⟩ := ih
    have kept := promoteSnapshotChainToBase_kept collisionFree indexed started
    exact ⟨kept.indexed, kept.started started, by rw [kept.config, sameNetwork]⟩
  | elsewhere run config index hashes headers bodies snapshot ih =>
    obtain ⟨indexed, started, sameNetwork⟩ := ih
    have kept := indexed.frame config index hashes headers bodies snapshot
    exact ⟨kept.indexed, kept.started started, by rw [kept.config, sameNetwork]⟩

/-- In every state the ancestor lookup finds nothing above a block and, below it, the block that following
`prev_blockhash` reaches, however many iterations beyond the distance it is given; and every block but genesis stores
its ancestor at the skip height. -/
theorem ancestorHash_exact {network : Network} (collisionFree : Set.InjOn blockHash world)
    (genesis : (Library.genesisBlock network).header ∈ world) (run : IndexRun world network st) {hash : BlockHash}
    {node : BlockNode} (found : st.blockIndex.lookup hash = some node) :
    (∀ height, node.height < height → st.ancestorHash hash height = none) ∧
    (∀ height ≤ node.height, ∃ ancestor, back st.blockIndex (node.height - height) hash = some ancestor ∧
      heightOf st.blockIndex ancestor = some height ∧ st.ancestorHash hash height = some ancestor ∧
      ∀ fuel, node.height - height ≤ fuel →
        ancestorHashFrom st.active.hashes st.blockIndex height fuel hash node.height = some ancestor) ∧
    (node.height = 0 ∧ node.skip = none ∨ node.height ≠ 0 ∧ ∃ skip, node.skip = some skip ∧
      back st.blockIndex (node.height - blockIndexSkipHeight node.height) hash = some skip ∧
      heightOf st.blockIndex skip = some (blockIndexSkipHeight node.height)) := by
  obtain ⟨indexed, -, -⟩ := run.indexed collisionFree genesis
  refine ⟨fun height above => ?_, fun height below => ?_, ?_⟩
  · rw [ancestorHash_eq collisionFree indexed.index indexed.active found, if_pos above]
  · obtain ⟨ancestor, reached, ranked⟩ := indexed.index.graded.climb (heightOf_eq found) (Nat.sub_le node.height height)
    refine ⟨ancestor, reached, ?_, ?_, fun fuel enough => ?_⟩
    · rw [ranked]
      congr 1
      omega
    · rw [ancestorHash_eq collisionFree indexed.index indexed.active found, if_neg (by omega)]
      exact reached
    · rw [ancestorHashFrom_eq collisionFree indexed.index indexed.active found below enough]
      exact reached
  · have stored := indexed.index.skip hash node found
    by_cases root : node.height = 0
    · exact .inl ⟨root, by rw [stored, if_pos root]⟩
    · have lower := blockIndexSkipHeight_lt (Nat.pos_of_ne_zero root)
      obtain ⟨skip, reached, ranked⟩ := indexed.index.graded.climb (heightOf_eq found)
        (Nat.sub_le node.height (blockIndexSkipHeight node.height))
      refine .inr ⟨root, skip, ?_, reached, ?_⟩
      · rw [stored, if_neg root]
        exact reached
      · rw [ranked]
        congr 1
        omega

def DataDir.sample : DataDir where
  metadata := none
  headerJournal := []
  activeTip := none
  bodies := (∅ : FMap BlockHash Block).insert 0 (Library.sample.genesisBlock .regtest)
  undo := ∅
  chainstateStore := ∅
  coinstatsStore := ∅
  utxoStore := ∅
  utxoStoreTip := none
  historyStoreTip := none
  snapshot := none
  provenance := none

def sampleHeaders : List Header := [⟨1, 0, 0, 0, 0, 0⟩, ⟨1, 0, 0, 1, 0, 1⟩, ⟨1, 1, 0, 2, 0, 2⟩]

omit [Library] [HashOrder OutPoint] in
theorem ancestorHash_exact_sample : let _ := Library.sample
    let _ := OutPoint.sampleOrder
    ∃ st node, IndexRun {header | header ∈ sampleHeaders} .regtest st ∧ st.blockIndex.lookup 2 = some node ∧
      ∀ height ≤ node.height, ∃ ancestor, back st.blockIndex (node.height - height) 2 = some ancestor ∧
        st.ancestorHash 2 height = some ancestor := by
  let _ := Library.sample
  let _ := OutPoint.sampleOrder
  have distinct : ∀ a ∈ sampleHeaders, ∀ b ∈ sampleHeaders, a.nonce = b.nonce → a = b := by decide
  obtain ⟨st, opened, test⟩ := exists_okAnd
    (show okAnd (openChain sampleConfig DataDir.sample false false [] 0)
      (fun st => ((st.acceptHeadersInternal (sampleHeaders.drop 1)).2.blockIndex.lookup 2).isSome) = true by decide +kernel)
  obtain ⟨node, found⟩ := Option.isSome_iff_exists.mp test
  have start : IndexRun {header | header ∈ sampleHeaders} .regtest st :=
    .opened none none (fun _ none => by cases none) (fun _ none => by cases none) rfl rfl rfl
      (fun header member => by simp [DataDir.persistedHeaders, DataDir.sample, ChainState.loadHeaderJournal] at member)
      (fun hash block stored => by
        rw [DataDir.sample, lookup_insert_ite] at stored
        split at stored
        · rename_i zero
          cases stored
          exact ⟨zero.symm, mem_cons_self⟩
        · simp at stored)
      (fun _ none => by cases none) (fun _ member => absurd member not_mem_nil) opened
  have run := start.headers (fun header (member : header ∈ sampleHeaders.drop 1) => mem_of_mem_drop member)
  obtain ⟨-, lookups, -⟩ := ancestorHash_exact (fun a left b right same => distinct a left b right same)
    mem_cons_self run found
  refine ⟨_, node, run, found, fun height below => ?_⟩
  obtain ⟨ancestor, reached, -, looked, -⟩ := lookups height below
  exact ⟨ancestor, reached, looked⟩

end ChainState

end BitcoindRs
