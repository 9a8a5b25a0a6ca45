import BitcoindRs.Chain.HeaderJournal

/-!
If every journaled header has its parent on disk, the headers on disk are closed under parents in every state of a
run, and a restart can index them all.
-/

namespace BitcoindRs
open Result FMap BlockIndex List
variable [Library]

namespace ChainState
variable {genesis : BlockHash} {header : Header} {persisted : List Header}

/-- Every header is genesis, stands on genesis or comes after its parent. -/
def ParentsFirst (genesis : BlockHash) (headers : List Header) : Prop :=
  ∀ i header, headers[i]? = some header → blockHash header = genesis ∨ header.prevBlockhash = genesis ∨
    header.prevBlockhash ∈ (headers.take i).map blockHash

theorem ParentsFirst.concat {headers : List Header}
    (ordered : ParentsFirst genesis headers) (last : blockHash header = genesis ∨
      header.prevBlockhash = genesis ∨ header.prevBlockhash ∈ headers.map blockHash) :
    ParentsFirst genesis (headers ++ [header]) := by
  intro i other listed
  by_cases inside : i < headers.length
  · rw [getElem?_append_left inside] at listed
    rw [take_append_of_le_length (by omega)]
    exact ordered i other listed
  · rw [getElem?_append_right (by omega), getElem?_singleton] at listed
    split at listed
    · cases listed
      rw [show i = headers.length by omega, take_left]
      exact last
    · cases listed

theorem mem_loadHeaderJournal (journal : List Header) :
    header ∈ ChainState.loadHeaderJournal persisted journal → header ∈ persisted ∨ header ∈ journal := by
  induction journal generalizing persisted with
  | nil => exact Or.inl
  | cons first journal ih =>
    intro member
    rw [ChainState.loadHeaderJournal, foldl_cons] at member
    rcases ih member with old | new
    · split at old
      · exact .inl old
      · rcases mem_append.mp old with older | here
        · exact .inl older
        · exact .inr (mem_singleton.mp here ▸ mem_cons_self)
    · exact .inr (mem_cons_of_mem _ new)

theorem ParentsFirst.load (journal : List Header) (ordered : ParentsFirst genesis persisted)
    (follows : ∀ i header, journal[i]? = some header → blockHash header = genesis ∨
      header.prevBlockhash = genesis ∨ header.prevBlockhash ∈ (persisted ++ journal.take i).map blockHash) :
    ParentsFirst genesis (ChainState.loadHeaderJournal persisted journal) := by
  induction journal generalizing persisted with
  | nil => exact ordered
  | cons first journal ih =>
    rw [ChainState.loadHeaderJournal, foldl_cons]
    have here := follows 0 first rfl
    rw [take_zero, append_nil] at here
    split
    · rename_i known
      refine ih ordered fun i header listed => ?_
      -- The skipped record is known under the same hash.
      rcases follows (i + 1) header listed with isGenesis | onGenesis | parent
      · exact .inl isGenesis
      · exact .inr (.inl onGenesis)
      · refine .inr (.inr ?_)
        rw [take_succ_cons, map_append, map_cons, mem_append, mem_cons] at parent
        rw [map_append, mem_append]
        rcases parent with old | same | new
        · exact .inl old
        · exact .inl (same ▸ known)
        · exact .inr new
    · refine ih (ordered.concat here) fun i header listed => ?_
      have later := follows (i + 1) header listed
      rwa [take_succ_cons, ← singleton_append, ← append_assoc] at later

section known
variable [HashOrder BlockHash] {world : Set Header} {st : ChainState}

omit [Library] [HashOrder BlockHash] in
theorem precedes_total (a b : BlockHash × BlockNode) : Precedes a b ∨ Precedes b a := by
  rcases Nat.lt_trichotomy a.2.height b.2.height with lower | same | higher
  · exact .inl (.inl lower)
  · rcases Nat.le_total a.1 b.1 with below | above
    · exact .inl (.inr ⟨same, below⟩)
    · exact .inr (.inr ⟨same.symm, above⟩)
  · exact .inr (.inl higher)

omit [Library] [HashOrder BlockHash] in
theorem precedes_trans {a b c : BlockHash × BlockNode} (first : Precedes a b) (second : Precedes b c) : Precedes a c := by
  rcases first with lower | ⟨same, below⟩
  · rcases second with lower' | ⟨same', -⟩
    · exact .inl (lower.trans lower')
    · exact .inl (same' ▸ lower)
  · rcases second with lower' | ⟨same', below'⟩
    · exact .inl (same ▸ lower')
    · exact .inr ⟨same.trans same', Nat.le_trans below below'⟩

omit [Library] in
theorem sorted_entries (st : ChainState) : (st.blockIndex.toList.insertionSort Precedes).Pairwise Precedes :=
  have : Std.Total Precedes := ⟨precedes_total⟩
  have : IsTrans _ Precedes := ⟨fun _ _ _ => precedes_trans⟩
  pairwise_insertionSort _ _

omit [Library] in
theorem mem_entries {entry : BlockHash × BlockNode} :
    entry ∈ st.blockIndex.toList.insertionSort Precedes ↔ st.blockIndex.lookup entry.1 = some entry.2 := by
  rw [mem_insertionSort, mem_toList]

theorem knownHeaders_known (indexed : Indexed world st) : ∀ header ∈ st.knownHeaders, header ∈ world := by
  intro header member
  obtain ⟨entry, listed, rfl⟩ := mem_map.mp member
  exact (indexed.index.keyed _ _ (mem_entries.mp listed)).2

theorem knownHeaders_parentsFirst (indexed : Indexed world st) : ParentsFirst st.networkGenesisHash st.knownHeaders := by
  intro i header listed
  rw [knownHeaders, List.getElem?_map, Option.map_eq_some_iff] at listed
  obtain ⟨⟨hash, node⟩, here, rfl⟩ := listed
  have found : st.blockIndex.lookup hash = some node := mem_entries.mp (List.mem_of_getElem? here)
  obtain ⟨hashed, -⟩ := indexed.index.keyed hash node found
  by_cases root : node.height = 0
  · exact .inl (hashed.trans ((indexed.index.root hash node found).mp root))
  obtain ⟨k, height⟩ : ∃ k, node.height = k + 1 := ⟨node.height - 1, by omega⟩
  obtain ⟨p, above, ranked⟩ := indexed.index.graded hash k (by rw [heightOf_eq found, height])
  rw [parentOf_eq found, Option.some.injEq] at above
  obtain ⟨parent, foundParent, heightParent⟩ := heightOf_some ranked
  obtain ⟨hashedParent, -⟩ := indexed.index.keyed p parent foundParent
  have listedParent : (p, parent) ∈ st.blockIndex.toList.insertionSort Precedes := mem_entries.mpr foundParent
  obtain ⟨j, there⟩ := List.mem_iff_getElem?.mp listedParent
  -- The parent has a smaller height, so it cannot stand at or after its child.
  have before : j < i := by
    by_contra late
    obtain ⟨insideI, atI⟩ := List.getElem?_eq_some_iff.mp here
    obtain ⟨insideJ, atJ⟩ := List.getElem?_eq_some_iff.mp there
    rcases Nat.lt_or_eq_of_le (Nat.le_of_not_lt late) with after | same
    · have ordered := List.pairwise_iff_getElem.mp st.sorted_entries i j insideI insideJ after
      rw [atI, atJ] at ordered
      unfold Precedes at ordered
      dsimp only at ordered
      omega
    · subst same
      rw [here] at there
      cases there
      omega
  refine .inr (.inr ?_)
  show node.header.prevBlockhash ∈ (st.knownHeaders.take i).map blockHash
  rw [above, ← hashedParent]
  refine List.mem_map_of_mem (List.mem_iff_getElem?.mpr ⟨j, ?_⟩)
  rw [List.getElem?_take, if_pos before, knownHeaders, List.getElem?_map, there]
  rfl

end known

section vetted
variable {world : Set Header} {config : NodeConfig} {st st' : ChainState}
variable {header : Header}

def Vetted (world : Set Header) (config : NodeConfig) : Set Header := {header | header ∈ world ∧
  (blockHash header = (Library.genesisBlock config.params.network).blockHash ∨ Checked world config header)}

theorem vetted_known (vetted : header ∈ Vetted world config) : header ∈ world := vetted.1

theorem vetted_free (collisionFree : Set.InjOn blockHash world) : Set.InjOn blockHash (Vetted world config) :=
  collisionFree.mono fun _ => vetted_known

theorem Indexed.mono {small : Set Header} (sub : small ⊆ world) (indexed : Indexed small st) : Indexed world st := by
  refine ⟨⟨⟨?_, indexed.index.root, indexed.index.graded, indexed.index.skip⟩,
    ⟨indexed.active.hashed, ?_, indexed.active.root, indexed.active.linked⟩, ?_, ?_⟩, indexed.placed⟩
  · exact fun hash node found => ⟨(indexed.index.keyed hash node found).1, sub (indexed.index.keyed hash node found).2⟩
  · exact fun header member => sub (indexed.active.world header member)
  · exact fun hash block stored => ⟨(indexed.bodies hash block stored).1, sub (indexed.bodies hash block stored).2⟩
  · exact fun snapshot saved header member => sub (indexed.snapshot snapshot saved header member)

theorem acceptHeader_vetted {inserted : Bool}
    (collisionFree : Set.InjOn blockHash (Vetted world config)) (indexed : Indexed (Vetted world config) st)
    (rooted : st.Rooted) (sameConfig : st.config = config) (known : header ∈ world)
    (h : st.acceptHeader header = .ok (st', inserted)) :
    Kept (Vetted world config) st st' ∧ (inserted → header ∈ Vetted world config) := by
  unfold acceptHeader at h
  dsimp only at h
  split at h
  · obtain ⟨-, h⟩ := guard_ok h
    obtain ⟨-, h⟩ := guard_ok h
    cases h
    exact ⟨.refl indexed, fun new => absurd new Bool.false_ne_true⟩
  · rename_i fresh
    obtain ⟨parent, found, h⟩ := bind_ok h
    obtain ⟨-, h⟩ := guard_ok h
    obtain ⟨_, passed, h⟩ := bind_ok h
    cases h
    have vetted : header ∈ Vetted world config := ⟨known, .inr ⟨st, indexed.mono fun _ => vetted_known, sameConfig,
      ⟨parent, okOr_ok.mp found⟩, validation_ok.mp passed⟩⟩
    exact ⟨indexed.insertChild collisionFree vetted (okOr_ok.mp found) (rooted.ne_genesis fresh), fun _ => vetted⟩

theorem acceptHeadersInternal_vetted (headers : List Header)
    (collisionFree : Set.InjOn blockHash (Vetted world config)) (indexed : Indexed (Vetted world config) st)
    (rooted : st.Rooted) (sameConfig : st.config = config) (known : ∀ header ∈ headers, header ∈ world) :
    Kept (Vetted world config) st (st.acceptHeadersInternal headers).2 ∧
      ∀ hashes inserted, (st.acceptHeadersInternal headers).1 = .ok (hashes, inserted) →
        ∀ header ∈ inserted, header ∈ Vetted world config := by
  induction headers generalizing st with
  | nil =>
    refine ⟨.refl indexed, fun hashes inserted ok header member => ?_⟩
    cases ok
    cases member
  | cons header headers ih =>
    rw [acceptHeadersInternal]
    split
    · exact ⟨.refl indexed, fun hashes inserted ok => by cases ok⟩
    rename_i next new accepted
    obtain ⟨kept, vetted⟩ := acceptHeader_vetted collisionFree indexed rooted sameConfig
      (known header mem_cons_self) accepted
    obtain ⟨keptRest, vettedRest⟩ := ih kept.indexed (kept.rooted rooted) (kept.config.trans sameConfig)
      fun other member => known other (mem_cons_of_mem _ member)
    split
    · rename_i ended
      rw [ended] at keptRest
      exact ⟨kept.trans keptRest, fun hashes inserted ok => by cases ok⟩
    · rename_i hashes inserted last ended
      rw [ended] at keptRest vettedRest
      refine ⟨kept.trans keptRest, fun hashes' inserted' ok other member => ?_⟩
      cases ok
      split at member
      · rename_i isNew
        rcases mem_cons.mp member with rfl | later
        · exact vetted isNew
        · exact vettedRest _ _ rfl other later
      · exact vettedRest _ _ rfl other member

theorem connectBlockInternal_vetted [HashOrder OutPoint] {block : Block} {persist syncStorage : Bool}
    (collisionFree : Set.InjOn blockHash (Vetted world config)) (indexed : Indexed (Vetted world config) st)
    (started : st.active.hashes ≠ []) (sameConfig : st.config = config) (known : block.header ∈ world)
    (notGenesis : block.blockHash ≠ st.networkGenesisHash)
    (h : st.connectBlockInternal block persist syncStorage = .ok st') :
    Kept (Vetted world config) st st' ∧
      (st.active.txCounts.length = st.active.hashes.length → st'.active.txCounts.length = st'.active.hashes.length) := by
  obtain ⟨previousNode, stats, application, undone, connection⟩ := connectBlockInternal_ok h
  have passed := connection.header
  rw [medianTimePast_eq collisionFree indexed started, ← connection.parent] at passed
  have vetted : block.header ∈ Vetted world config := ⟨known, .inr ⟨st, indexed.mono fun _ => vetted_known, sameConfig,
    ⟨previousNode, connection.parent ▸ connection.previous⟩, passed⟩⟩
  refine ⟨connectBlockInternal_kept collisionFree indexed started vetted notGenesis h, fun counted => ?_⟩
  obtain ⟨records, undo, -, rfl⟩ := connection.state
  show (st.active.txCounts ++ [_]).length = (st.active.hashes ++ [_]).length
  rw [length_append, length_append, counted, length_singleton, length_singleton]

theorem acceptHeader_accepts {parent : BlockNode} (fresh : st.blockIndex.lookup (blockHash header) = none)
    (found : st.blockIndex.lookup header.prevBlockhash = some parent)
    (valid : st.hasInvalidAncestor header.prevBlockhash = false)
    (passed : st.validateHeaderContext header header.prevBlockhash (st.medianTimePastForParent header.prevBlockhash) =
      .ok ()) : st.acceptHeader header = .ok (st.indexChild header parent, true) := by
  unfold acceptHeader
  dsimp only
  rw [fresh]
  dsimp only
  refine bind_pass (okOr_ok.mpr found) (guard_pass (by rw [valid]; exact Bool.false_ne_true) ?_)
  exact bind_pass (a := ()) (validation_ok.mpr passed) rfl

theorem indexPersistedHeader_succeeds (collisionFree : Set.InjOn blockHash world)
    (reads : ReadsAncestors config) (indexed : Indexed (Vetted world config) st) (rooted : st.Rooted)
    (sameConfig : st.config = config) (vetted : header ∈ Vetted world config)
    (parent : blockHash header = st.networkGenesisHash ∨ ∃ parent,
      st.blockIndex.lookup header.prevBlockhash = some parent) :
    ∃ st', indexPersistedHeader (st, []) header = .ok (st', []) ∧ Kept (Vetted world config) st st' ∧
      ∃ node, st'.blockIndex.lookup (blockHash header) = some node := by
  unfold indexPersistedHeader
  dsimp only
  rcases present : st.blockIndex.lookup (blockHash header) with _ | existing
  · have notGenesis := rooted.ne_genesis present
    obtain isGenesis | ⟨node, found⟩ := parent
    · exact absurd isGenesis notGenesis
    have kept := indexed.insertChild (vetted_free collisionFree) vetted found notGenesis
    have filed : ∃ entry, (st.indexChild header node).blockIndex.lookup (blockHash header) = some entry :=
      ⟨_, Finmap.lookup_insert _⟩
    rw [found]
    dsimp only
    split
    · exact ⟨_, rfl, kept, filed⟩
    · rename_i valid
      obtain isGenesis | checked := vetted.2
      · refine absurd isGenesis ?_
        rw [← sameConfig]
        exact notGenesis
      have passed := checked.again collisionFree reads (indexed.mono fun _ => vetted_known) sameConfig found
      rw [acceptHeadersInternal, acceptHeader_accepts present found (by simpa using valid) passed]
      exact ⟨_, rfl, kept, filed⟩
  · obtain ⟨hashed, known⟩ := indexed.index.keyed _ existing present
    have same : existing.header = header := collisionFree (vetted_known known) (vetted_known vetted) hashed
    exact ⟨st, guard_pass (not_not.mpr same) rfl, .refl indexed, existing, present⟩

theorem indexPersistedHeaders_succeeds {headers : List Header} (collisionFree : Set.InjOn blockHash world)
    (reads : ReadsAncestors config) (indexed : Indexed (Vetted world config) st) (rooted : st.Rooted)
    (sameConfig : st.config = config) (known : ∀ header ∈ headers, header ∈ Vetted world config)
    (ordered : ParentsFirst st.networkGenesisHash headers) : ∃ st', st.indexPersistedHeaders headers = .ok st' := by
  have pass : ∃ last, headers.foldlM indexPersistedHeader (st, []) = .ok last ∧ last.2 = [] ∧
      Kept (Vetted world config) st last.1 ∧
      ∀ header ∈ headers, ∃ node, last.1.blockIndex.lookup (blockHash header) = some node := by
    refine foldlM_succeeds (fun passed (now : ChainState × List Header) => now.2 = [] ∧ Kept (Vetted world config) st now.1 ∧
      ∀ header ∈ passed, ∃ node, now.1.blockIndex.lookup (blockHash header) = some node) ?_
      ⟨rfl, .refl indexed, by simp⟩
    rintro passed header ⟨s, _⟩ ⟨rest, split⟩ ⟨rfl, kept, earlier⟩
    rw [append_assoc] at split
    have parent : blockHash header = s.networkGenesisHash ∨ ∃ parent,
        s.blockIndex.lookup header.prevBlockhash = some parent := by
      rw [kept.genesis]
      rcases ordered passed.length header (by simp [← split]) with isGenesis | onGenesis | before
      · exact .inl isGenesis
      · obtain ⟨node, found, -⟩ := heightOf_some (kept.rooted rooted)
        exact .inr ⟨node, by rw [onGenesis, ← kept.genesis]; exact found⟩
      · rw [← split, take_left] at before
        obtain ⟨other, member, same⟩ := mem_map.mp before
        exact .inr (same ▸ earlier other member)
    obtain ⟨next, first, step, filed⟩ := indexPersistedHeader_succeeds collisionFree reads kept.indexed
      (kept.rooted rooted) (kept.config.trans sameConfig) (known header (by simp [← split])) parent
    refine ⟨_, first, rfl, kept.trans step, ?_⟩
    intro other member
    rcases mem_append.mp member with old | new
    · obtain ⟨node, found⟩ := earlier other old
      obtain ⟨node', found', -⟩ := heightOf_some (step.heights _ _ (heightOf_eq found))
      exact ⟨node', found'⟩
    · rw [mem_singleton.mp new]
      exact filed
  obtain ⟨⟨last, _⟩, done, rfl, -⟩ := pass
  unfold indexPersistedHeaders
  rcases headers with _ | ⟨header, pending⟩
  · exact ⟨st, rfl⟩
  · refine ⟨last, ?_⟩
    rw [length_cons, indexPersistedPasses, done]
    rfl

end vetted

end ChainState

end BitcoindRs
