import BitcoindRs.Chain.IndexedActivation
import BitcoindRs.Chain.Open

/-! A restart from the files of the node restores a linked block index. -/

namespace BitcoindRs
open Result FMap BlockIndex List
variable [Library]

namespace ChainState
variable {world : Set Header} {st st' : ChainState}
variable {headers remaining remaining' : List Header} {pending : Pending} {index : BlockIndex}

/-! ### Persisted headers and stored bodies -/

section
variable (collisionFree : Set.InjOn blockHash world)
include collisionFree

theorem indexPersistedHeader_kept (indexed : Indexed world st)
    (rooted : st.Rooted) {header : Header} (known : header ∈ world)
    (h : indexPersistedHeader (st, remaining) header = .ok (st', remaining')) :
    Kept world st st' ∧ (remaining' = remaining ∨ remaining' = remaining ++ [header]) := by
  unfold indexPersistedHeader at h
  dsimp only at h
  split at h
  · obtain ⟨-, h⟩ := guard_ok h
    cases h
    exact ⟨.refl indexed, .inl rfl⟩
  rename_i fresh
  split at h
  · cases h
    exact ⟨.refl indexed, .inr rfl⟩
  rename_i parent found
  split at h
  · cases h
    exact ⟨indexed.insertChild collisionFree known found (rooted.ne_genesis fresh), .inl rfl⟩
  · have accepted := acceptHeadersInternal_kept collisionFree [header] indexed rooted (by simpa using known)
    split at h
    · cases h
    · rename_i ended
      cases h
      rw [ended] at accepted
      exact ⟨accepted, .inl rfl⟩

theorem indexPersistedPass_kept (headers : List Header) (indexed : Indexed world st) (rooted : st.Rooted)
    (known : ∀ header ∈ headers, header ∈ world) (knownRemaining : ∀ header ∈ remaining, header ∈ world)
    (h : headers.foldlM indexPersistedHeader (st, remaining) = .ok (st', remaining')) :
    Kept world st st' ∧ ∀ header ∈ remaining', header ∈ world := by
  refine foldlM_preserves (P := fun s => Kept world st s.1 ∧ ∀ header ∈ s.2, header ∈ world) ?_ h ⟨.refl indexed, knownRemaining⟩
  rintro ⟨s, rest⟩ header ⟨next, rest'⟩ member ⟨kept, knownRest⟩ run
  obtain ⟨kept', left⟩ := indexPersistedHeader_kept collisionFree kept.indexed (kept.rooted rooted) (known header member) run
  refine ⟨kept.trans kept', ?_⟩
  rcases left with rfl | rfl
  · exact knownRest
  · rw [forall_mem_append, forall_mem_singleton]
    exact ⟨knownRest, known header member⟩

theorem indexPersistedPasses_kept (fuel : ℕ)
    (indexed : Indexed world st) (rooted : st.Rooted) (known : ∀ header ∈ headers, header ∈ world)
    (h : indexPersistedPasses fuel st headers = .ok st') : Kept world st st' := by
  induction fuel generalizing st headers with
  | zero =>
    cases h
    exact .refl indexed
  | succ fuel ih =>
    rcases headers with _ | ⟨header, pending⟩
    · cases h
      exact .refl indexed
    rw [indexPersistedPasses] at h
    obtain ⟨⟨next, remaining⟩, pass, h⟩ := bind_ok h
    obtain ⟨kept, knownLeft⟩ := indexPersistedPass_kept collisionFree _ indexed rooted known
      (fun _ member => absurd member not_mem_nil) pass
    rcases remaining with _ | ⟨first, rest⟩
    · cases h
      exact kept
    · obtain ⟨-, h⟩ := guard_ok h
      exact kept.trans (ih kept.indexed (kept.rooted rooted) knownLeft h)

theorem indexPersistedHeaders_kept
    (indexed : Indexed world st) (rooted : st.Rooted) (known : ∀ header ∈ headers, header ∈ world)
    (h : st.indexPersistedHeaders headers = .ok st') : Kept world st st' :=
  indexPersistedPasses_kept collisionFree headers.length indexed rooted known h

end

def Stored (world : Set Header) (entries : List (BlockHash × Header)) : Prop :=
  ∀ entry ∈ entries, blockHash entry.2 = entry.1 ∧ entry.2 ∈ world

theorem Pending.stored_push {entry : BlockHash × Header}
    (stored : ∀ hash entries, pending.lookup hash = some entries → Stored world entries) (fine : Stored world [entry]) :
    ∀ hash entries, (pending.push entry).lookup hash = some entries → Stored world entries := by
  intro hash entries found
  rw [Pending.push, lookup_insert_ite] at found
  split at found
  · cases found
    intro other member
    rcases mem_append.mp member with old | new
    · rcases earlier : pending.lookup entry.2.prevBlockhash with _ | list
      · rw [earlier] at old
        cases old
      · rw [earlier] at old
        exact stored _ list earlier other old
    · exact fine other new
  · exact stored hash entries found

theorem drainReady_kept (collisionFree : Set.InjOn blockHash world) (fuel : ℕ)
    {ready : List (BlockHash × Header)} (indexed : Indexed world st) (rooted : st.Rooted)
    (storedReady : Stored world ready)
    (storedPending : ∀ hash entries, pending.lookup hash = some entries → Stored world entries) :
    Kept world st (drainReady fuel st ready pending) := by
  induction fuel generalizing st ready pending with
  | zero => exact .refl indexed
  | succ fuel ih =>
    rcases ready with _ | ⟨⟨hash, header⟩, ready⟩
    · exact .refl indexed
    obtain ⟨filed, known⟩ := storedReady _ mem_cons_self
    have storedRest : Stored world ready := fun entry member => storedReady entry (mem_cons_of_mem _ member)
    rw [drainReady]
    split
    · exact ih indexed rooted storedRest storedPending
    rename_i fresh
    split
    · refine ih indexed rooted storedRest (Pending.stored_push storedPending fun entry member => ?_)
      rw [mem_singleton.mp member]
      exact ⟨filed, known⟩
    · rename_i parent found
      have absent : st.blockIndex.lookup (blockHash header) = none := by
        rw [show blockHash header = hash from filed]
        simpa using fresh
      have kept := indexed.insertChild collisionFree known found (rooted.ne_genesis absent)
      refine kept.trans (ih kept.indexed (kept.rooted rooted) ?_ ?_)
      · intro entry member
        rcases mem_append.mp member with old | new
        · exact storedRest entry old
        · rcases waiting : pending.lookup hash with _ | list
          · rw [waiting] at new
            cases new
          · rw [waiting] at new
            exact storedPending hash list waiting entry new
      · intro other entries found'
        rw [lookup_erase_ite] at found'
        split at found'
        · cases found'
        · exact storedPending other entries found'

theorem sortStoredHeader_stored (entries : List (BlockHash × Header))
    {acc : List (BlockHash × Header) × Pending} (fine : Stored world entries) (ready : Stored world acc.1)
    (pending : ∀ hash list, acc.2.lookup hash = some list → Stored world list) :
    Stored world (entries.foldl (sortStoredHeader index) acc).1 ∧
      ∀ hash list, (entries.foldl (sortStoredHeader index) acc).2.lookup hash = some list → Stored world list := by
  induction entries generalizing acc with
  | nil => exact ⟨ready, pending⟩
  | cons entry entries ih =>
    have here : Stored world [entry] := fun other member =>
      fine other (mem_singleton.mp member ▸ mem_cons_self)
    have rest : Stored world entries := fun other member => fine other (mem_cons_of_mem _ member)
    rw [foldl_cons, sortStoredHeader]
    split
    · exact ih rest ready pending
    split
    · refine ih rest (fun other member => ?_) pending
      rcases mem_append.mp member with old | new
      · exact ready other old
      · exact here other new
    · exact ih rest ready (Pending.stored_push pending here)

theorem rebuildBlockIndex_kept (collisionFree : Set.InjOn blockHash world)
    {orderedHeaders : List (BlockHash × Header)} (indexed : Indexed world st) (rooted : st.Rooted)
    (stored : Stored world orderedHeaders) (h : st.rebuildBlockIndex orderedHeaders = .ok st') : Kept world st st' := by
  unfold rebuildBlockIndex at h
  split at h
  · cases h
    exact .refl indexed
  split at h
  · cases h
  cases h
  obtain ⟨ready, pending⟩ := sortStoredHeader_stored orderedHeaders stored
    (show Stored world ([], (∅ : Pending)).1 from fun _ member => absurd member not_mem_nil)
    (fun hash list found => by simp at found)
  exact drainReady_kept collisionFree _ indexed rooted ready pending

/-! ### The recovered chain -/

theorem tipSuffix_linked (collisionFree : Set.InjOn blockHash world) {genesis : BlockHash}
    {bodies : FMap BlockHash Block} {chain : List BlockHash}
    (linked : (ActiveChain.mk chain headers [] []).Linked world genesis)
    (filed : ∀ hash block, bodies.lookup hash = some block → block.blockHash = hash ∧ block.header ∈ world)
    (known : Linked world genesis index) (count : ℕ) {cursor base : BlockHash} {suffix : List BlockHash} {height : ℕ}
    (walked : tipSuffix bodies count cursor = some (suffix, base)) (ranked : heightOf index cursor = some height)
    (bound : count ≤ height) (last : chain.getLast? = some base) :
    (chain ++ suffix.reverse).getLast? = some cursor ∧
      ∃ headers', (ActiveChain.mk (chain ++ suffix.reverse) headers' [] []).Linked world genesis := by
  induction count generalizing cursor suffix height with
  | zero =>
    cases walked
    exact ⟨by simpa using last, headers, by simpa using linked⟩
  | succ count ih =>
    rw [tipSuffix] at walked
    split at walked
    · cases walked
    rename_i block stored
    obtain ⟨⟨rest, base'⟩, walkedRest, same⟩ := Option.map_eq_some_iff.mp walked
    cases same
    obtain ⟨hashed, knownBlock⟩ := filed cursor block stored
    obtain ⟨node, found, heightNode⟩ := heightOf_some ranked
    obtain ⟨hashedNode, knownNode⟩ := known.keyed cursor node found
    have sameHeader : node.header = block.header := collisionFree knownNode knownBlock (hashedNode.trans hashed.symm)
    obtain ⟨k, rfl⟩ : ∃ k, height = k + 1 := ⟨height - 1, by omega⟩
    obtain ⟨p, above, rankedParent⟩ := known.graded cursor k ranked
    rw [parentOf_eq found, Option.some.injEq, sameHeader] at above
    obtain ⟨lastRest, headers', linkedRest⟩ := ih walkedRest (above ▸ rankedParent) (by omega)
    have notGenesis : blockHash block.header ≠ genesis := fun isGenesis => by
      have zero := (known.root cursor node found).mpr (hashed.symm.trans isGenesis)
      omega
    have nonempty : chain ++ rest.reverse ≠ [] := fun empty => by
      rw [empty] at lastRest
      cases lastRest
    have pushed : ((ActiveChain.mk (chain ++ rest.reverse) headers' [] []).push (blockHash block.header)
        block.header 0).Linked world genesis := by
      refine linkedRest.push knownBlock (iff_of_false nonempty notGenesis) fun i length => ?_
      have length' : (chain ++ rest.reverse).length = i + 1 := length
      rw [getLast?_eq_getElem?, length', Nat.add_sub_cancel] at lastRest
      exact lastRest
    have grown : chain ++ (cursor :: rest).reverse = chain ++ rest.reverse ++ [blockHash block.header] := by
      rw [reverse_cons, append_assoc, show blockHash block.header = cursor from hashed]
    rw [grown]
    refine ⟨?_, headers' ++ [block.header], ⟨pushed.hashed, pushed.world, pushed.root, pushed.linked⟩⟩
    rw [getLast?_append, getLast?_singleton, Option.some_or]
    exact congrArg some hashed

/-- The files hold what nodes on this network have written: a linked chain, a tip that was indexed at its height, and
headers and bodies under their hashes. -/
structure DataDir.Written (world : Set Header) (config : NodeConfig) (dir : DataDir) : Prop where
  genesis : (Library.genesisBlock config.params.network).header ∈ world
  chain : ∃ headers, (ActiveChain.mk (dir.checkpointChain config) headers [] []).Linked world
    (Library.genesisBlock config.params.network).blockHash
  tip : ∀ hash height, dir.activeTip = some (hash, height) → ∃ index,
    Linked world (Library.genesisBlock config.params.network).blockHash index ∧ heightOf index hash = some height
  headers : ∀ header ∈ dir.persistedHeaders, header ∈ world
  bodies : ∀ hash block, dir.bodies.lookup hash = some block → block.blockHash = hash ∧ block.header ∈ world
  snapshot : ∀ snapshot, dir.snapshot = some snapshot → ∀ header ∈ snapshot.headers, header ∈ world

section restart
variable {config : NodeConfig} {dir : DataDir}
variable {hash genesis : BlockHash} {chain : List BlockHash}

theorem DataDir.Written.activeChain (collisionFree : Set.InjOn blockHash world)
    (written : DataDir.Written world config dir) (rebuildChainstate : Bool) :
    ∃ headers, (ActiveChain.mk (dir.activeChain config rebuildChainstate) headers [] []).Linked world
      (Library.genesisBlock config.params.network).blockHash := by
  obtain ⟨headers, linked⟩ := written.chain
  unfold DataDir.activeChain
  split
  · exact ⟨headers, linked⟩
  unfold loadActiveChainFromTip
  split
  · rename_i tipHash tipHeight checkpointHash tip last
    dsimp only
    split
    · exact ⟨headers, linked⟩
    split
    · exact ⟨headers, linked⟩
    split
    · exact ⟨headers, linked⟩
    rename_i suffix base walked
    split
    · rename_i same
      obtain ⟨index, known, ranked⟩ := written.tip tipHash tipHeight tip
      exact (tipSuffix_linked collisionFree linked written.bodies known _ walked ranked (Nat.sub_le _ _) (same ▸ last)).2
    · exact ⟨headers, linked⟩
  · exact ⟨headers, linked⟩

theorem DataDir.Written.emptyState_indexed (written : DataDir.Written world config dir) (rebuildChainstate : Bool) :
    Indexed world (dir.emptyState config rebuildChainstate) := by
  refine ⟨⟨linked_empty _ _, ActiveChain.linked_empty _ _, written.bodies, fun snapshot saved => ?_⟩,
    fun i _ listed => by simp [DataDir.emptyState] at listed⟩
  change (if rebuildChainstate then none else dir.snapshot) = some snapshot at saved
  split at saved
  · cases saved
  · exact written.snapshot snapshot saved

theorem foldlM_kept {f : ChainState → BlockHash → Except Error ChainState} (path : List BlockHash)
    (step : ∀ s s' hash, Indexed world s → s.active.hashes ≠ [] → s.networkGenesisHash = st.networkGenesisHash →
      hash ∈ path → f s hash = .ok s' → Kept world s s')
    (indexed : Indexed world st) (started : st.active.hashes ≠ []) (h : path.foldlM f st = .ok st') :
    Kept world st st' := by
  refine foldlM_preserves (P := Kept world st) (fun s hash next member kept run => ?_) h (.refl indexed)
  exact kept.trans (step s next hash kept.indexed (kept.started started) kept.genesis member run)

theorem replayBlock_kept [HashOrder OutPoint] (collisionFree : Set.InjOn blockHash world) {persist : Bool}
    (indexed : Indexed world st) (started : st.active.hashes ≠ [])
    (notGenesis : hash ≠ st.networkGenesisHash) (h : replayBlock persist st hash = .ok st') : Kept world st st' := by
  obtain ⟨block, stored, h⟩ := bind_ok h
  obtain ⟨filed, known⟩ := indexed.bodies hash block (okOr_ok.mp stored)
  exact connectBlockInternal_kept collisionFree indexed started known (filed ▸ notGenesis) h

theorem applyChainstateDelta_kept (indexed : Indexed world st) (started : st.active.hashes ≠ [])
    {delta : ChainstateDelta} (h : st.applyChainstateDelta delta = .ok st') : Kept world st st' := by
  unfold applyChainstateDelta at h
  obtain ⟨extends_, h⟩ := guard_ok h
  obtain ⟨node, found, h⟩ := bind_ok h
  obtain ⟨agrees, h⟩ := guard_ok h
  obtain ⟨spent, -, h⟩ := bind_ok h
  obtain ⟨created, -, h⟩ := bind_ok h
  obtain ⟨-, h⟩ := guard_ok h
  cases h
  rw [not_or, not_not, not_not] at extends_ agrees
  replace found := okOr_ok.mp found
  obtain ⟨hashed, known⟩ := indexed.index.keyed _ node found
  have positive := length_pos_of_ne_nil started
  have height : node.height = st.active.hashes.length := agrees.1.trans extends_.1
  have notGenesis : blockHash node.header ≠ st.networkGenesisHash := fun isGenesis => by
    have zero := (indexed.index.root _ node found).mpr (hashed.symm.trans isGenesis)
    omega
  have grown : (st.active.push delta.blockHash node.header delta.transactions.length).Linked world
      st.networkGenesisHash := by
    rw [← hashed]
    refine indexed.active.push known (iff_of_false started notGenesis) fun i length => ?_
    have tip := (indexed.tip started).1
    rw [ChainState.height, length, Nat.add_sub_cancel] at tip
    rw [tip, agrees.2, extends_.2]
  refine ⟨⟨⟨indexed.index, grown, indexed.bodies, indexed.snapshot⟩, ?_⟩, fun _ _ same => same, rfl,
    fun _ => append_ne_nil_of_right_ne_nil _ (cons_ne_nil _ _)⟩
  exact placed_push indexed.placed ((heightOf_eq found).trans (congrArg some height))

theorem Linked.take_headers (collisionFree : Set.InjOn blockHash world) {headers' : List Header}
    (linked : (ActiveChain.mk chain headers [] []).Linked world genesis) (known : ∀ header ∈ headers', header ∈ world)
    (same : chain.take headers'.length = headers'.map blockHash) :
    (ActiveChain.mk (chain.take headers'.length) headers' [] []).Linked world genesis :=
  (linked.truncate headers'.length).of_hashes collisionFree known same [] []

theorem Linked.ne_genesis {count : ℕ}
    (linked : (ActiveChain.mk chain headers [] []).Linked world genesis) (positive : 0 < count) (member : hash ∈ chain.drop count) :
    hash ≠ genesis := by
  intro isGenesis
  obtain ⟨i, listed⟩ := mem_iff_getElem?.mp member
  rw [getElem?_drop] at listed
  have root := (linked.root _ hash listed).mpr isGenesis
  omega

section
variable [HashOrder OutPoint]
variable {chain : List BlockHash} {headers persistedHeaders : List Header} {deltasValid rebuildChainstate : Bool}
variable {orderedHeaders : List (BlockHash × Header)} {best : BlockHash} {snapshot : ChainSnapshot}
variable {acc acc' : FMap BlockHash Header × List Header}

variable (collisionFree : Set.InjOn blockHash world)

include collisionFree in
omit [HashOrder OutPoint] in
theorem indexSnapshotHeaders_kept (indexed : Indexed world st)
    (linked : (ActiveChain.mk chain headers [] []).Linked world st.networkGenesisHash)
    (loaded : st.loadSnapshot chain = some snapshot) (h : st.indexSnapshotHeaders chain snapshot = .ok st') :
    Indexed world st' ∧ st'.active.hashes ≠ [] ∧ st'.config = st.config := by
  obtain ⟨saved, -, -, hashed⟩ := loadSnapshot_hashed loaded
  have start : Consistent world { st with
      active := ⟨chain.take snapshot.headers.length, snapshot.headers, [], []⟩
      coins := { st.coins with utxos := snapshot.utxos } } :=
    ⟨indexed.index, Linked.take_headers collisionFree linked (indexed.snapshot snapshot saved) hashed, indexed.bodies,
      indexed.snapshot⟩
  obtain ⟨kept, active⟩ := start.indexActiveHeaders collisionFree h
  refine ⟨kept.indexed, ?_, kept.config⟩
  rw [active]
  exact loadSnapshot_ne_nil loaded

include collisionFree in
theorem restoreFromSnapshot_kept (indexed : Indexed world st)
    (linked : (ActiveChain.mk chain headers [] []).Linked world st.networkGenesisHash)
    (known : ∀ header ∈ persistedHeaders, header ∈ world) (loaded : st.loadSnapshot chain = some snapshot)
    (h : st.restoreFromSnapshot chain persistedHeaders snapshot deltasValid = .ok st') :
    Indexed world st' ∧ st'.active.hashes ≠ [] ∧ st'.config = st.config := by
  have positive := (loadSnapshot_hashed loaded).2.1
  unfold restoreFromSnapshot at h
  obtain ⟨filed, first, h⟩ := bind_ok h
  obtain ⟨next, second, h⟩ := bind_ok h
  obtain ⟨indexedFiled, nonempty, sameConfig⟩ := indexSnapshotHeaders_kept collisionFree indexed linked loaded first
  have persisted := indexPersistedHeaders_kept collisionFree indexedFiled (indexedFiled.rooted nonempty) known second
  have sameGenesis : next.networkGenesisHash = st.networkGenesisHash := by
    rw [persisted.genesis, networkGenesisHash, sameConfig, networkGenesisHash]
  have replayed : Kept world next st' := by
    refine foldlM_kept _ (fun s s' hash indexed' started' genesis member step => ?_) persisted.indexed
      (persisted.started nonempty) h
    cases deltasValid with
    | true =>
      obtain ⟨delta, -, step⟩ := bind_ok step
      exact applyChainstateDelta_kept indexed' started' step
    | false =>
      have notGenesis := Linked.ne_genesis linked positive member
      rw [← sameGenesis, ← genesis] at notGenesis
      exact replayBlock_kept collisionFree indexed' started' notGenesis step
  exact ⟨replayed.indexed, replayed.started (persisted.started nonempty),
    replayed.config.trans (persisted.config.trans sameConfig)⟩

section
omit [HashOrder OutPoint]

theorem restoreHeader_ok
    {entry : BlockHash × ℕ} (bodies : ∀ hash block, st.bodies.lookup hash = some block → block.header ∈ world)
    (persisted : ∀ hash header, acc.1.lookup hash = some header → header ∈ world)
    (h : st.restoreHeader chain acc entry = .ok acc') :
    (∀ hash header, acc'.1.lookup hash = some header → header ∈ world) ∧
      ∃ header ∈ world, acc'.2 = acc.2 ++ [header] ∧ blockHash header = entry.1 := by
  unfold restoreHeader at h
  obtain ⟨header, read, h⟩ := bind_ok h
  obtain ⟨hashed, h⟩ := guard_ok h
  obtain ⟨-, h⟩ := guard_ok h
  cases h
  refine ⟨fun hash other found => ?_, header, ?_, rfl, not_not.mp hashed⟩
  · rw [lookup_erase_ite] at found
    split at found
    · cases found
    · exact persisted hash other found
  · unfold storedHeader at read
    split at read
    · rename_i found
      cases read
      exact persisted _ _ found
    · rcases stored : st.bodies.lookup entry.1 with _ | block
      · rw [stored] at read
        cases read
      · rw [stored] at read
        cases read
        exact bodies _ block stored

theorem restoreHeaders_ok (entries : List (BlockHash × ℕ))
    (bodies : ∀ hash block, st.bodies.lookup hash = some block → block.header ∈ world)
    (persisted : ∀ hash header, acc.1.lookup hash = some header → header ∈ world)
    (h : entries.foldlM (st.restoreHeader chain) acc = .ok acc') :
    ∃ headers, acc'.2 = acc.2 ++ headers ∧ headers.map blockHash = entries.map Prod.fst ∧
      ∀ header ∈ headers, header ∈ world := by
  induction entries generalizing acc with
  | nil =>
    cases h
    exact ⟨[], (append_nil _).symm, rfl, fun _ member => absurd member not_mem_nil⟩
  | cons entry entries ih =>
    obtain ⟨next, first, later⟩ := foldlM_cons_ok h
    obtain ⟨persisted', header, known, grown, hashed⟩ := restoreHeader_ok bodies persisted first
    obtain ⟨headers, grown', hashes, knownRest⟩ := ih persisted' later
    refine ⟨header :: headers, ?_, ?_, ?_⟩
    · rw [grown', grown, append_assoc]
      rfl
    · rw [map_cons, map_cons, hashed, hashes]
    · intro other member
      rcases mem_cons.mp member with rfl | rest
      · exact known
      · exact knownRest other rest

theorem restoreActiveChainFromDurableIndexes_kept (collisionFree : Set.InjOn blockHash world)
    (indexed : Indexed world st)
    (linked : (ActiveChain.mk chain headers [] []).Linked world st.networkGenesisHash)
    (known : ∀ header ∈ persistedHeaders, header ∈ world)
    (h : st.restoreActiveChainFromDurableIndexes chain persistedHeaders = .ok st') :
    Indexed world st' ∧ st'.active.hashes = chain ∧ st'.config = st.config := by
  unfold restoreActiveChainFromDurableIndexes at h
  obtain ⟨⟨rest, read⟩, first, h⟩ := bind_ok h
  obtain ⟨next, second, h⟩ := bind_ok h
  cases h
  obtain ⟨restored, same, hashes, knownRestored⟩ := restoreHeaders_ok _
    (fun hash block stored => (indexed.bodies hash block stored).2) (fun hash header found => by
      rw [lookup_insertAll, lookup_empty', Option.or_none] at found
      obtain ⟨other, member, same⟩ := mem_map.mp (lastWrite_mem found)
      cases same
      exact known _ member) first
  obtain rfl : read = restored := same.trans (nil_append _)
  have sameHashes : chain = read.map blockHash := by rw [hashes, zipIdx_map_fst]
  have start : Consistent world { st with active := ⟨chain, read, [], []⟩ } :=
    ⟨indexed.index, linked.of_hashes collisionFree knownRestored sameHashes [] [], indexed.bodies, indexed.snapshot⟩
  obtain ⟨kept, active⟩ := start.indexActiveHeaders collisionFree second
  refine ⟨⟨⟨kept.indexed.index, kept.indexed.active, kept.indexed.bodies, kept.indexed.snapshot⟩, kept.indexed.placed⟩,
    ?_, kept.config⟩
  show next.active.hashes = chain
  rw [active]

end

include collisionFree

theorem restoreByReplay_kept (indexed : Indexed world st) (empty : st.active.hashes = [])
    (linked : (ActiveChain.mk chain headers [] []).Linked world st.networkGenesisHash)
    (h : st.restoreByReplay chain = .ok st') :
    Indexed world st' ∧ st'.active.hashes ≠ [] ∧ st'.config = st.config := by
  unfold restoreByReplay at h
  obtain ⟨genesis, stored, h⟩ := bind_ok h
  obtain ⟨started, first, h⟩ := bind_ok h
  obtain ⟨hash, -, stored⟩ := Option.bind_eq_some_iff.mp (okOr_ok.mp stored)
  have cleared : Indexed world { st with
      coins := if st.durableRestore then { st.coins with utxos := ∅, utxosMaterialized := false } else st.coins
      snapshotBase := none
      snapshotValidated := true } :=
    ⟨⟨indexed.index, indexed.active, indexed.bodies, indexed.snapshot⟩, indexed.placed⟩
  obtain ⟨kept, nonempty⟩ := initializeGenesis_kept collisionFree cleared empty (indexed.bodies hash genesis stored).2 first
  have sameGenesis : started.networkGenesisHash = st.networkGenesisHash := kept.genesis
  have replayed : Kept world started st' := by
    refine foldlM_kept _ (fun s s' hash indexed' started' same member step => ?_) kept.indexed nonempty h
    have notGenesis := Linked.ne_genesis linked Nat.one_pos member
    rw [← sameGenesis, ← same] at notGenesis
    exact replayBlock_kept collisionFree indexed' started' notGenesis step
  exact ⟨replayed.indexed, replayed.started nonempty, replayed.config.trans kept.config⟩

omit [HashOrder OutPoint] in
theorem startReindex_kept (indexed : Indexed world st) (empty : st.active.hashes = [])
    (genesis : (Library.genesisBlock st.config.params.network).header ∈ world)
    (known : ∀ header ∈ persistedHeaders, header ∈ world) (stored : Stored world orderedHeaders)
    (h : st.startReindex persistedHeaders orderedHeaders = .ok st') :
    Indexed world st' ∧ st'.active.hashes ≠ [] ∧ st'.config = st.config := by
  unfold startReindex at h
  obtain ⟨started, first, h⟩ := bind_ok h
  obtain ⟨next, second, third⟩ := bind_ok h
  obtain ⟨kept, nonempty⟩ := initializeGenesis_kept collisionFree indexed empty genesis first
  have rooted := kept.indexed.rooted nonempty
  have persisted := indexPersistedHeaders_kept collisionFree kept.indexed rooted known second
  have rebuilt := rebuildBlockIndex_kept collisionFree persisted.indexed (persisted.rooted rooted) stored third
  have all := kept.trans (persisted.trans rebuilt)
  exact ⟨all.indexed, rebuilt.started (persisted.started nonempty), all.config⟩

theorem restoreChain_indexed (written : DataDir.Written world config dir) (stored : Stored world orderedHeaders)
    (nonempty : dir.activeChain config rebuildChainstate ≠ [])
    (h : (dir.emptyState config rebuildChainstate).restoreChain dir rebuildChainstate deltasValid orderedHeaders best =
      .ok st') : Indexed world st' ∧ st'.active.hashes ≠ [] ∧ st'.config = config := by
  obtain ⟨headers, linked⟩ := written.activeChain collisionFree rebuildChainstate
  have start := written.emptyState_indexed rebuildChainstate
  unfold restoreChain at h
  dsimp only at h
  split at h
  · obtain ⟨next, reindexed, h⟩ := bind_ok h
    obtain ⟨indexed, started, sameConfig⟩ := startReindex_kept collisionFree start rfl written.genesis written.headers
      stored reindexed
    split at h
    · cases h
      exact ⟨indexed, started, sameConfig⟩
    have activated := activateChain_kept collisionFree indexed best
    split at h
    · rename_i done
      cases h
      rw [done] at activated
      exact ⟨activated.indexed, activated.started started, activated.config.trans sameConfig⟩
    · cases h
  split at h
  · rename_i snapshot loaded
    exact restoreFromSnapshot_kept collisionFree start linked written.headers loaded h
  split at h
  · obtain ⟨indexed, active, sameConfig⟩ := restoreActiveChainFromDurableIndexes_kept collisionFree start linked
      written.headers h
    exact ⟨indexed, fun empty => nonempty (active.symm.trans empty), sameConfig⟩
  · exact restoreByReplay_kept collisionFree start rfl linked h

omit collisionFree

omit [Library] [HashOrder OutPoint] in
theorem restoreTxCounts_ok (h : st.restoreTxCounts = .ok st') :
    ∃ counts totals, st' = { st with active := ⟨st.active.hashes, st.active.headers, counts, totals⟩ } := by
  unfold restoreTxCounts at h
  split at h
  · cases h
    exact ⟨st.active.txCounts, st.active.txTotals, rfl⟩
  · exact repairActiveTxCountVectors_ok h

include collisionFree in
theorem restoredState_indexed (written : DataDir.Written world config dir) (stored : Stored world orderedHeaders)
    (h : restoredState config dir rebuildChainstate deltasValid orderedHeaders best = .ok st') :
    Indexed world st' ∧ st'.active.hashes ≠ [] ∧ st'.config = config := by
  unfold restoredState at h
  obtain ⟨startsAtGenesis, h⟩ := guard_ok h
  obtain ⟨restored, first, h⟩ := bind_ok h
  obtain ⟨counted, second, h⟩ := bind_ok h
  obtain ⟨-, h⟩ := guard_ok h
  have nonempty : dir.activeChain config rebuildChainstate ≠ [] := fun empty => by
    rw [empty] at startsAtGenesis
    exact startsAtGenesis (by simp)
  obtain ⟨indexed, started, sameConfig⟩ := restoreChain_indexed collisionFree written stored nonempty first
  obtain ⟨counts, totals, rfl⟩ := restoreTxCounts_ok second
  have kept : Kept world restored st' := by
    split at h <;> cases h <;> exact indexed.frame rfl rfl rfl rfl indexed.bodies indexed.snapshot
  exact ⟨kept.indexed, kept.started started, kept.config.trans sameConfig⟩

include collisionFree in
theorem openChain_indexed (written : DataDir.Written world config dir) (stored : Stored world orderedHeaders)
    (h : openChain config dir rebuildChainstate deltasValid orderedHeaders best = .ok st') :
    Indexed world st' ∧ st'.active.hashes ≠ [] ∧ st'.config = config := by
  unfold openChain at h
  obtain ⟨restored, first, h⟩ := bind_ok h
  obtain ⟨known, second, third⟩ := bind_ok h
  obtain ⟨indexed, started, sameConfig⟩ := restoredState_indexed collisionFree written stored first
  have rooted := indexed.rooted started
  have persisted := indexPersistedHeaders_kept collisionFree indexed rooted written.headers second
  have rebuilt := rebuildBlockIndex_kept collisionFree persisted.indexed (persisted.rooted rooted) stored third
  have all := persisted.trans rebuilt
  exact ⟨all.indexed, all.started started, all.config.trans sameConfig⟩

end

end restart

end ChainState

end BitcoindRs
