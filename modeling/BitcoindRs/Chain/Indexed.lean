import BitcoindRs.Chain.Headers

/-!
The node keeps its block index linked, and its active chain a path in it, through header batches, connections,
reorganisations and a restart.
-/

namespace BitcoindRs
open Result FMap Ancestry BlockIndex List
variable [Library]

namespace ChainState

/-- The index and the active chain are linked, and what is stored is filed under its hash. -/
structure Consistent (world : Set Header) (st : ChainState) : Prop where
  index : Linked world st.networkGenesisHash st.blockIndex
  active : st.active.Linked world st.networkGenesisHash
  bodies : ∀ hash block, st.bodies.lookup hash = some block → block.blockHash = hash ∧ block.header ∈ world
  snapshot : ∀ snapshot, st.snapshot = some snapshot → ∀ header ∈ snapshot.headers, header ∈ world

/-- Moreover the active chain is indexed, each block at its height. -/
structure Indexed (world : Set Header) (st : ChainState) : Prop extends Consistent world st where
  placed : ∀ i hash, st.active.hashes[i]? = some hash → heightOf st.blockIndex hash = some i

/-- A step that keeps the index linked and moves no block in it. -/
structure Kept (world : Set Header) (st st' : ChainState) : Prop where
  indexed : Indexed world st'
  heights : ∀ hash n, heightOf st.blockIndex hash = some n → heightOf st'.blockIndex hash = some n
  config : st'.config = st.config
  started : st.active.hashes ≠ [] → st'.active.hashes ≠ []

variable {world : Set Header} {st st' st'' : ChainState}

theorem Kept.refl (indexed : Indexed world st) : Kept world st st := ⟨indexed, fun _ _ same => same, rfl, id⟩

theorem Kept.trans (first : Kept world st st') (second : Kept world st' st'') : Kept world st st'' :=
  ⟨second.indexed, fun hash n ranked => second.heights hash n (first.heights hash n ranked),
    second.config.trans first.config, second.started ∘ first.started⟩

theorem Kept.genesis (kept : Kept world st st') : st'.networkGenesisHash = st.networkGenesisHash := by
  rw [networkGenesisHash, kept.config, networkGenesisHash]

def Rooted (st : ChainState) : Prop := heightOf st.blockIndex st.networkGenesisHash = some 0

theorem Kept.rooted (kept : Kept world st st') (rooted : st.Rooted) : st'.Rooted := by
  rw [Rooted, kept.genesis]
  exact kept.heights _ 0 rooted

theorem Rooted.ne_genesis (rooted : st.Rooted) {hash : BlockHash} (fresh : st.blockIndex.lookup hash = none) :
    hash ≠ st.networkGenesisHash := by
  rintro rfl
  rw [Rooted, heightOf, fresh] at rooted
  cases rooted

theorem Indexed.rooted (indexed : Indexed world st) (started : st.active.hashes ≠ []) : st.Rooted := by
  obtain ⟨hash, hashes, listed⟩ := exists_cons_of_ne_nil started
  have first : st.active.hashes[0]? = some hash := by rw [listed]; rfl
  rw [Rooted, ← (indexed.active.root 0 hash first).mp rfl]
  exact indexed.placed 0 hash first

theorem Indexed.tip (indexed : Indexed world st) (started : st.active.hashes ≠ []) :
    st.active.hashes[st.height]? = some st.bestHash ∧ heightOf st.blockIndex st.bestHash = some st.height := by
  have last : st.active.hashes[st.height]? = some st.bestHash := by
    rw [height, bestHash, ← getLast?_eq_getElem?, getLastD_eq_getLast?, getLast?_eq_some_getLast started]
    rfl
  exact ⟨last, indexed.placed _ _ last⟩

theorem Indexed.frame (indexed : Indexed world st) (config : st'.config = st.config)
    (index : st'.blockIndex = st.blockIndex) (hashes : st'.active.hashes = st.active.hashes)
    (headers : st'.active.headers = st.active.headers)
    (bodies : ∀ hash block, st'.bodies.lookup hash = some block → block.blockHash = hash ∧ block.header ∈ world)
    (snapshot : ∀ snapshot, st'.snapshot = some snapshot → ∀ header ∈ snapshot.headers, header ∈ world) :
    Kept world st st' := by
  have genesis : st'.networkGenesisHash = st.networkGenesisHash := by rw [networkGenesisHash, config, networkGenesisHash]
  refine ⟨⟨⟨?_, ⟨?_, ?_, ?_, ?_⟩, bodies, snapshot⟩, ?_⟩, ?_, config, ?_⟩
  · rw [index, genesis]
    exact indexed.index
  · rw [hashes, headers]
    exact indexed.active.hashed
  · rw [headers]
    exact indexed.active.world
  · rw [hashes, genesis]
    exact indexed.active.root
  · rw [hashes, headers]
    exact indexed.active.linked
  · rw [hashes, index]
    exact indexed.placed
  · rw [index]
    exact fun _ _ same => same
  · rw [hashes]
    exact id

omit [Library] in
theorem placed_push {index : BlockIndex} {hashes : List BlockHash} {tip : BlockHash}
    (placed : ∀ i hash, hashes[i]? = some hash → heightOf index hash = some i)
    (last : heightOf index tip = some hashes.length) (i : ℕ) (hash : BlockHash)
    (listed : (hashes ++ [tip])[i]? = some hash) : heightOf index hash = some i := by
  by_cases inside : i < hashes.length
  · rw [getElem?_append_left inside] at listed
    exact placed i hash listed
  · rw [getElem?_append_right (by omega), getElem?_singleton] at listed
    split at listed
    · cases listed
      rw [last]
      congr 1
      omega
    · cases listed

theorem bodies_insert {bodies : FMap BlockHash Block} {block : Block}
    (filed : ∀ hash body, bodies.lookup hash = some body → body.blockHash = hash ∧ body.header ∈ world)
    (known : block.header ∈ world) (hash : BlockHash) (body : Block)
    (stored : (bodies.insert block.blockHash block).lookup hash = some body) : body.blockHash = hash ∧ body.header ∈ world := by
  rw [lookup_insert_ite] at stored
  split at stored
  · rename_i same
    cases stored
    exact ⟨same.symm, known⟩
  · exact filed hash body stored

theorem linked_empty (world : Set Header) (genesis : BlockHash) : Linked world genesis ∅ := by
  constructor
  · intro hash node found
    simp at found
  · intro hash node found
    simp at found
  · intro hash n ranked
    simp [heightOf] at ranked
  · intro hash node found
    simp at found

theorem indexed_genesis (collisionFree : Set.InjOn blockHash world) {genesis : Header} (known : genesis ∈ world)
    (isGenesis : blockHash genesis = st.networkGenesisHash) {work : ℕ}
    (index : st.blockIndex = (∅ : BlockIndex).insert (blockHash genesis) ⟨genesis, 0, work, none⟩)
    (hashes : st.active.hashes = [blockHash genesis]) (headers : st.active.headers = [genesis])
    (bodies : ∀ hash block, st.bodies.lookup hash = some block → block.blockHash = hash ∧ block.header ∈ world)
    (snapshot : st.snapshot = none) : Indexed world st := by
  have only : ∀ i hash, st.active.hashes[i]? = some hash → i = 0 ∧ hash = blockHash genesis := by
    intro i hash listed
    rw [hashes, getElem?_singleton] at listed
    split at listed
    · exact ⟨‹_›, (Option.some.inj listed).symm⟩
    · cases listed
  refine ⟨⟨?_, ⟨?_, ?_, ?_, ?_⟩, bodies, ?_⟩, ?_⟩
  · rw [index]
    exact (linked_empty _ _).insertGenesis collisionFree known isGenesis work
  · rw [hashes, headers]
    rfl
  · intro header member
    rw [headers] at member
    exact mem_singleton.mp member ▸ known
  · intro i hash listed
    obtain ⟨zero, same⟩ := only i hash listed
    exact iff_of_true zero (same.trans isGenesis)
  · intro i header listed
    rw [headers] at listed
    cases listed
  · intro stored present
    rw [snapshot] at present
    cases present
  · intro i hash listed
    obtain ⟨rfl, rfl⟩ := only i hash listed
    rw [index, heightOf, Finmap.lookup_insert]
    rfl

section insertion
variable {header : Header} {parent : BlockNode}

theorem Indexed.insertChild (collisionFree : Set.InjOn blockHash world) (indexed : Indexed world st)
    (known : header ∈ world) (found : st.blockIndex.lookup header.prevBlockhash = some parent)
    (notGenesis : blockHash header ≠ st.networkGenesisHash) : Kept world st (st.indexChild header parent) := by
  have extension := indexed.index.extends_child collisionFree known found notGenesis
    (parent.chainWork + Library.work header)
  rw [indexChild, childNode_eq collisionFree indexed.index indexed.active found]
  refine ⟨⟨⟨?_, indexed.active, indexed.bodies, indexed.snapshot⟩, ?_⟩, extension.keepsRank, rfl, id⟩
  · exact indexed.index.insertChild collisionFree known found notGenesis _
  · exact fun i hash listed => extension.keepsRank hash i (indexed.placed i hash listed)

end insertion

section batches
variable {header : Header}

theorem acceptHeader_kept (collisionFree : Set.InjOn blockHash world) (indexed : Indexed world st)
    (rooted : st.Rooted) (known : header ∈ world) {inserted : Bool}
    (h : st.acceptHeader header = .ok (st', inserted)) : Kept world st st' := by
  unfold acceptHeader at h
  dsimp only at h
  split at h
  · obtain ⟨-, h⟩ := guard_ok h
    obtain ⟨-, h⟩ := guard_ok h
    cases h
    exact .refl indexed
  · rename_i fresh
    obtain ⟨parent, found, h⟩ := bind_ok h
    obtain ⟨-, h⟩ := guard_ok h
    obtain ⟨_, -, h⟩ := bind_ok h
    cases h
    exact indexed.insertChild collisionFree known (okOr_ok.mp found) (rooted.ne_genesis fresh)

theorem acceptHeadersInternal_kept (collisionFree : Set.InjOn blockHash world) (headers : List Header)
    (indexed : Indexed world st) (rooted : st.Rooted) (known : ∀ header ∈ headers, header ∈ world) :
    Kept world st (st.acceptHeadersInternal headers).2 := by
  induction headers generalizing st with
  | nil => exact .refl indexed
  | cons header headers ih =>
    rw [acceptHeadersInternal]
    split
    · exact .refl indexed
    · rename_i next inserted accepted
      have first := acceptHeader_kept collisionFree indexed rooted (known header mem_cons_self) accepted
      have rest := first.trans (ih first.indexed (first.rooted rooted) fun h member =>
        known h (mem_cons_of_mem _ member))
      split
      · rename_i ended
        rwa [ended] at rest
      · rename_i ended
        rwa [ended] at rest

theorem insertSideChainBody_kept (indexed : Indexed world st) {block : Block} (known : block.header ∈ world) :
    Kept world st (st.insertSideChainBody block) := by
  refine indexed.frame rfl rfl rfl rfl ?_ indexed.snapshot
  intro hash body stored
  unfold insertSideChainBody at stored
  dsimp only at stored
  split at stored
  · exact bodies_insert indexed.bodies known hash body stored
  · exact indexed.bodies hash body stored

theorem acceptSideChainBlock_kept (collisionFree : Set.InjOn blockHash world) (indexed : Indexed world st)
    {block : Block} {candidate : Bool} (known : block.header ∈ world)
    (notGenesis : block.blockHash ≠ st.networkGenesisHash) (h : st.acceptSideChainBlock block candidate = .ok st') :
    Kept world st st' := by
  unfold acceptSideChainBlock at h
  obtain ⟨parent, found, h⟩ := bind_ok h
  obtain ⟨-, h⟩ := guard_ok h
  obtain ⟨_, -, h⟩ := bind_ok h
  obtain ⟨_, -, h⟩ := bind_ok h
  cases h
  have stored := insertSideChainBody_kept indexed known
  have filed := stored.trans (stored.indexed.insertChild collisionFree known (okOr_ok.mp found) notGenesis)
  exact filed.trans (filed.indexed.frame rfl rfl rfl rfl filed.indexed.bodies filed.indexed.snapshot)

end batches

section connections
variable [HashOrder OutPoint]

section
variable (collisionFree : Set.InjOn blockHash world)
include collisionFree

theorem connectBlockInternal_kept (indexed : Indexed world st)
    (started : st.active.hashes ≠ []) {block : Block} {persist syncStorage : Bool} (known : block.header ∈ world)
    (notGenesis : block.blockHash ≠ st.networkGenesisHash)
    (h : st.connectBlockInternal block persist syncStorage = .ok st') : Kept world st st' := by
  obtain ⟨previousNode, stats, application, undone, connection⟩ := connectBlockInternal_ok h
  obtain ⟨tip, ranked⟩ := indexed.tip started
  have previous := connection.previous
  rw [heightOf_eq previous, Option.some.injEq] at ranked
  have parent := connection.parent
  rw [← parent] at previous tip
  obtain ⟨records, undo, -, rfl⟩ := connection.state
  have filed := indexed.insertChild collisionFree known previous notGenesis
  rw [indexChild, ranked] at filed
  refine ⟨⟨⟨filed.indexed.index, ?_, ?_, indexed.snapshot⟩, ?_⟩, filed.heights, rfl, fun _ => ?_⟩
  · refine indexed.active.push known (iff_of_false started notGenesis) fun i length => ?_
    rw [← tip, height, length, Nat.add_sub_cancel]
  · intro hash body stored
    dsimp only at stored
    split at stored
    · exact bodies_insert indexed.bodies known hash body stored
    · exact indexed.bodies hash body stored
  · apply placed_push filed.indexed.placed
    have positive := length_pos_of_ne_nil started
    rw [heightOf, Block.blockHash, Finmap.lookup_insert]
    show some (st.active.hashes.length - 1 + 1) = some st.active.hashes.length
    congr 1
    omega
  · exact append_ne_nil_of_right_ne_nil _ (cons_ne_nil _ _)

theorem connectAll_kept (blocks : List Block) (indexed : Indexed world st) (started : st.active.hashes ≠ [])
    (known : ∀ block ∈ blocks, block.header ∈ world ∧ block.blockHash ≠ st.networkGenesisHash) :
    Kept world st (st.connectAll blocks).2 := by
  induction blocks generalizing st with
  | nil => exact .refl indexed
  | cons block blocks ih =>
    rw [connectAll]
    split
    · rename_i next connected
      obtain ⟨knownBlock, notGenesis⟩ := known block mem_cons_self
      have first := connectBlockInternal_kept collisionFree indexed started knownBlock notGenesis connected
      refine first.trans (ih first.indexed (first.started started) fun b member => ?_)
      rw [first.genesis]
      exact known b (mem_cons_of_mem _ member)
    · exact .refl indexed

theorem connectPath_kept (durableReplay : Bool)
    (path : List BlockHash) (indexed : Indexed world st) (started : st.active.hashes ≠ [])
    (notGenesis : ∀ hash ∈ path, hash ≠ st.networkGenesisHash) : Kept world st (connectPath durableReplay st path).2 := by
  induction path generalizing st with
  | nil => exact .refl indexed
  | cons hash path ih =>
    rw [connectPath]
    split
    · exact .refl indexed
    split
    · exact .refl indexed
    rename_i block stored
    split
    · rename_i next connected
      obtain ⟨filed, knownBlock⟩ := indexed.bodies hash block stored
      have first := connectBlockInternal_kept collisionFree indexed started knownBlock
        (filed ▸ notGenesis hash mem_cons_self) connected
      refine first.trans (ih first.indexed (first.started started) fun other member => ?_)
      rw [first.genesis]
      exact notGenesis other (mem_cons_of_mem _ member)
    · exact .refl indexed

end

end connections

omit [Library] in
theorem branch_spec {index : BlockIndex} {genesis : BlockHash} {fuel : ℕ} {cursor : BlockHash} {hashes : List BlockHash}
    (h : branch index genesis fuel cursor = .ok hashes) :
    hashes.head? = some cursor ∧ hashes.getLast? = some genesis ∧
      ∀ i hash, hashes[i]? = some hash → i + 1 < hashes.length →
        hash ≠ genesis ∧ ∃ node, index.lookup hash = some node ∧ hashes[i + 1]? = some node.header.prevBlockhash := by
  induction fuel generalizing cursor hashes with
  | zero => cases h
  | succ fuel ih =>
    rw [branch] at h
    split at h
    · rename_i arrived
      cases h
      subst arrived
      refine ⟨rfl, rfl, fun i hash _ inside => ?_⟩
      rw [length_singleton] at inside
      omega
    · rename_i other
      obtain ⟨node, found, h⟩ := bind_ok h
      obtain ⟨rest, walked, h⟩ := bind_ok h
      cases h
      obtain ⟨first, last, links⟩ := ih walked
      refine ⟨rfl, ?_, ?_⟩
      · rw [getLast?_cons, last]
        rfl
      · intro i hash listed inside
        cases i with
        | zero =>
          cases listed
          refine ⟨other, node, okOr_ok.mp found, ?_⟩
          rw [getElem?_cons_succ, ← head?_eq_getElem?]
          exact first
        | succ i =>
          rw [getElem?_cons_succ] at listed
          rw [length_cons] at inside
          rw [getElem?_cons_succ]
          exact links i hash listed (by omega)

/-- A list of indexed blocks that starts at genesis and goes from parent to child. -/
structure IsBranch (st : ChainState) (path : List BlockHash) : Prop where
  first : path[0]? = some st.networkGenesisHash
  linked : ∀ i hash, path[i + 1]? = some hash → hash ≠ st.networkGenesisHash ∧
    ∃ node, st.blockIndex.lookup hash = some node ∧ path[i]? = some node.header.prevBlockhash

theorem pathTo_spec {tip : BlockHash} {path : List BlockHash} (h : st.pathTo tip = .ok path) : st.IsBranch path := by
  unfold pathTo at h
  rcases walked : branch st.blockIndex st.networkGenesisHash (st.blockIndex.keys.card + 1) tip with error | hashes
  · rw [walked] at h
    cases h
  rw [walked] at h
  cases h
  obtain ⟨-, last, links⟩ := branch_spec walked
  constructor
  · rw [← head?_eq_getElem?, head?_reverse]
    exact last
  · intro i hash listed
    obtain ⟨inside, _⟩ := List.getElem?_eq_some_iff.mp listed
    rw [length_reverse] at inside
    rw [getElem?_reverse inside] at listed
    obtain ⟨notGenesis, node, found, next⟩ := links _ hash listed (by omega)
    refine ⟨notGenesis, node, found, ?_⟩
    rw [getElem?_reverse (by omega), ← next]
    congr 1
    omega

/-- The loop of `index_active_headers` after `k` headers of the active chain of `st`. -/
structure Filed (world : Set Header) (st : ChainState) (k : ℕ) (s : ChainState) : Prop where
  frame : s = { st with blockIndex := s.blockIndex }
  index : Linked world st.networkGenesisHash s.blockIndex
  heights : ∀ hash n, heightOf st.blockIndex hash = some n → heightOf s.blockIndex hash = some n
  filed : ∀ i hash, i < k → st.active.hashes[i]? = some hash → heightOf s.blockIndex hash = some i

theorem Filed.insert {s : ChainState} {k work : ℕ} {header : Header} {skip : Option BlockHash}
    (chain : st.active.Linked world st.networkGenesisHash) (filed : Filed world st k s)
    (listed : st.active.headers[k]? = some header)
    (linked : Linked world st.networkGenesisHash
      (s.blockIndex.insert (blockHash header) ⟨header, k, work, skip⟩))
    (extension : Extends (heightOf s.blockIndex) (parentOf s.blockIndex)
      (heightOf (s.blockIndex.insert (blockHash header) ⟨header, k, work, skip⟩))
      (parentOf (s.blockIndex.insert (blockHash header) ⟨header, k, work, skip⟩))) :
    Filed world st (k + 1)
      { s with blockIndex := s.blockIndex.insert (blockHash header) ⟨header, k, work, skip⟩ } := by
  refine ⟨?_, linked, fun hash n ranked => extension.keepsRank hash n (filed.heights hash n ranked), ?_⟩
  · rw [filed.frame]
  · intro i hash bound here
    rcases Nat.lt_succ_iff_lt_or_eq.mp bound with earlier | rfl
    · exact extension.keepsRank hash i (filed.filed i hash earlier here)
    · rw [chain.hashed, getElem?_map, listed, Option.map_some, Option.some.injEq] at here
      rw [← here]
      exact heightOf_eq (Finmap.lookup_insert _)

section
variable (collisionFree : Set.InjOn blockHash world)
include collisionFree

theorem indexActiveHeader_filed
    (chain : st.active.Linked world st.networkGenesisHash) {s s' : ChainState} {k : ℕ} {header : Header}
    (filed : Filed world st k s) (listed : st.active.headers[k]? = some header)
    (h : s.indexActiveHeader (header, k) = .ok s') : Filed world st (k + 1) s' := by
  unfold indexActiveHeader at h
  obtain ⟨work, -, h⟩ := bind_ok h
  cases h
  have known := chain.world header (mem_of_getElem? listed)
  have sameActive : s.active = st.active := by rw [filed.frame]
  have hashed : st.active.hashes[k]? = some (blockHash header) := by
    rw [chain.hashed, getElem?_map, listed, Option.map_some]
  rcases k with _ | k
  · have isGenesis := (chain.root 0 _ hashed).mp rfl
    exact filed.insert chain listed (filed.index.insertGenesis collisionFree known isGenesis _)
      (filed.index.extends_genesis collisionFree known isGenesis _)
  · have before := chain.linked k header listed
    obtain ⟨parent, found, rfl⟩ := heightOf_some (filed.filed k _ (Nat.lt_succ_self k) before)
    have notGenesis : blockHash header ≠ st.networkGenesisHash := fun same =>
      absurd ((chain.root _ _ hashed).mpr same) (Nat.succ_ne_zero _)
    rw [if_neg (Nat.succ_ne_zero _), childNode_eq collisionFree filed.index (sameActive ▸ chain) found]
    exact filed.insert chain listed (filed.index.insertChild collisionFree known found notGenesis _)
      (filed.index.extends_child collisionFree known found notGenesis _)

theorem indexActiveHeaders_loop
    (chain : st.active.Linked world st.networkGenesisHash) (rest : List Header) {k : ℕ} {s s' : ChainState}
    (suffix : st.active.headers.drop k = rest) (filed : Filed world st k s)
    (h : (rest.zipIdx k).foldlM indexActiveHeader s = .ok s') : Filed world st st.active.headers.length s' := by
  induction rest generalizing k s with
  | nil =>
    cases h
    have all := drop_eq_nil_iff.mp suffix
    exact ⟨filed.frame, filed.index, filed.heights, fun i hash bound => filed.filed i hash (by omega)⟩
  | cons header rest ih =>
    rw [zipIdx_cons] at h
    obtain ⟨next, first, later⟩ := foldlM_cons_ok h
    have listed : st.active.headers[k]? = some header := by
      rw [← head?_drop, suffix]
      rfl
    refine ih ?_ (indexActiveHeader_filed collisionFree chain filed listed first) later
    rw [← drop_drop, suffix]
    rfl

theorem Consistent.indexActiveHeaders (loaded : Consistent world st)
    (h : st.indexActiveHeaders st.active.headers = .ok st') : Kept world st st' ∧ st'.active = st.active := by
  unfold ChainState.indexActiveHeaders at h
  obtain ⟨-, h⟩ := guard_ok h
  have start : Filed world st 0 st := ⟨rfl, loaded.index, fun _ _ same => same, fun _ _ bound => absurd bound (by omega)⟩
  have done := indexActiveHeaders_loop collisionFree loaded.active st.active.headers drop_zero start h
  rw [done.frame]
  refine ⟨⟨⟨⟨done.index, loaded.active, loaded.bodies, loaded.snapshot⟩, ?_⟩, done.heights, rfl, id⟩, rfl⟩
  intro i hash listed
  obtain ⟨inside, _⟩ := List.getElem?_eq_some_iff.mp listed
  refine done.filed i hash ?_ listed
  rwa [loaded.active.hashed, length_map] at inside

theorem initializeGenesis_kept (indexed : Indexed world st)
    (empty : st.active.hashes = []) {genesis : Block} (known : genesis.header ∈ world)
    (h : st.initializeGenesis genesis = .ok st') : Kept world st st' ∧ st'.active.hashes ≠ [] := by
  unfold initializeGenesis at h
  obtain ⟨isGenesis, h⟩ := guard_ok h
  have isGenesis := not_not.mp isGenesis
  cases h
  have extension := indexed.index.extends_genesis collisionFree known isGenesis (Library.work genesis.header)
  obtain ⟨records, recorded⟩ := persistCoinstatsRecord_eq _ _ _
  rw [recorded]
  have nonempty : st.active.hashes ++ [genesis.blockHash] ≠ [] :=
    append_ne_nil_of_right_ne_nil _ (cons_ne_nil _ _)
  refine ⟨⟨⟨⟨indexed.index.insertGenesis collisionFree known isGenesis _, ?_, indexed.bodies, indexed.snapshot⟩, ?_⟩,
    extension.keepsRank, rfl, fun _ => nonempty⟩, nonempty⟩
  · refine indexed.active.push known (iff_of_true empty isGenesis) fun i length => ?_
    rw [empty] at length
    cases length
  · refine placed_push (fun i hash listed => extension.keepsRank hash i (indexed.placed i hash listed)) ?_
    rw [empty]
    exact heightOf_eq (Finmap.lookup_insert _)

end

end ChainState

end BitcoindRs
