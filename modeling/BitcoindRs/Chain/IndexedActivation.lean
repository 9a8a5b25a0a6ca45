import BitcoindRs.Chain.Indexed

/-! A reorganisation keeps the block index linked, whether it succeeds or fails. -/

namespace BitcoindRs
open Result FMap BlockIndex List
variable [Library]

namespace ChainState
variable {world : Set Header} {st st' : ChainState} {path : List BlockHash}
variable {snapshot : ChainSnapshot}

theorem IsBranch.notGenesis (branch : st.IsBranch path) {done : ℕ} (positive : 0 < done) :
    ∀ hash ∈ path.drop done, hash ≠ st.networkGenesisHash := by
  intro hash member
  obtain ⟨i, listed⟩ := mem_iff_getElem?.mp member
  rw [getElem?_drop, show done + i = (done - 1 + i) + 1 by omega] at listed
  exact (branch.linked _ hash listed).1

theorem loadSnapshot_hashed (loaded : st.loadSnapshot path = some snapshot) :
    st.snapshot = some snapshot ∧ 0 < snapshot.headers.length ∧ snapshot.headers.length ≤ path.length ∧
      path.take snapshot.headers.length = snapshot.headers.map blockHash := by
  obtain ⟨stored, checks⟩ := Option.filter_eq_some_iff.mp loaded
  obtain ⟨nonempty, fits, -, hashes⟩ := of_decide_eq_true checks
  refine ⟨stored, Nat.pos_of_ne_zero nonempty, fits, ext_getElem? fun i => ?_⟩
  rw [getElem?_take, getElem?_map]
  split
  · rename_i inside
    rw [getElem?_eq_getElem inside, getElem?_eq_getElem (by omega), Option.map_some]
    have pair : (snapshot.headers[i], path[i]) ∈ snapshot.headers.zip path := by
      refine mem_iff_getElem?.mpr ⟨i, ?_⟩
      rw [getElem?_zip_eq_some]
      exact ⟨getElem?_eq_getElem inside, getElem?_eq_getElem (by omega)⟩
    have same := all_eq_true.mp hashes _ pair
    rw [← beq_iff_eq.mp same]
  · rename_i outside
    rw [getElem?_eq_none (by omega)]
    rfl

theorem loadSnapshot_ne_nil (loaded : st.loadSnapshot path = some snapshot) :
    path.take snapshot.headers.length ≠ [] := by
  obtain ⟨-, positive, fits, -⟩ := loadSnapshot_hashed loaded
  refine ne_nil_of_length_pos ?_
  rw [length_take]
  omega

variable (collisionFree : Set.InjOn blockHash world)

include collisionFree in
theorem loadSnapshot_linked (consistent : Consistent world st)
    (branch : st.IsBranch path) (loaded : st.loadSnapshot path = some snapshot)
    (counts totals : List ℕ) : (ActiveChain.mk (path.take snapshot.headers.length) snapshot.headers counts totals).Linked
      world st.networkGenesisHash := by
  obtain ⟨stored, -, fits, hashed⟩ := loadSnapshot_hashed loaded
  have known := consistent.snapshot snapshot stored
  refine ⟨hashed, known, ?_, ?_⟩
  · intro i hash listed
    change (path.take snapshot.headers.length)[i]? = some hash at listed
    rw [getElem?_take] at listed
    split at listed
    · rcases i with _ | i
      · rw [branch.first] at listed
        cases listed
        exact iff_of_true rfl rfl
      · exact iff_of_false (Nat.succ_ne_zero i) (branch.linked i hash listed).1
    · cases listed
  · intro i header listed
    change snapshot.headers[i + 1]? = some header at listed
    show (path.take snapshot.headers.length)[i]? = some header.prevBlockhash
    obtain ⟨inside, _⟩ := List.getElem?_eq_some_iff.mp listed
    have here : path[i + 1]? = some (blockHash header) := by
      have taken : (path.take snapshot.headers.length)[i + 1]? = some (blockHash header) := by
        rw [hashed, getElem?_map, listed, Option.map_some]
      rwa [getElem?_take, if_pos inside] at taken
    obtain ⟨-, node, found, before⟩ := branch.linked i _ here
    obtain ⟨hashedNode, knownNode⟩ := consistent.index.keyed _ node found
    have same : node.header = header := collisionFree knownNode (known header (mem_of_getElem? listed)) hashedNode
    rw [getElem?_take, if_pos (by omega), before, same]

variable [HashOrder OutPoint]

include collisionFree in
theorem startFromSnapshot_kept (indexed : Indexed world st) (branch : st.IsBranch path) {counts : List ℕ}
    (loaded : st.loadSnapshot path = some snapshot) (h : st.startFromSnapshot path counts snapshot = .ok st') :
    Kept world st st' ∧ st'.active.hashes ≠ [] := by
  unfold startFromSnapshot at h
  obtain ⟨next, filed, h⟩ := bind_ok h
  cases h
  have chain := loadSnapshot_linked collisionFree indexed.toConsistent branch loaded
    (if snapshot.headers.length ≤ counts.length then counts.take snapshot.headers.length else [])
    (cumulativeTxCounts (if snapshot.headers.length ≤ counts.length then counts.take snapshot.headers.length else []))
  have started : Consistent world { st with
      active := ⟨path.take snapshot.headers.length, snapshot.headers, _, _⟩
      coins := { st.coins with utxos := snapshot.utxos } } :=
    ⟨indexed.index, chain, indexed.bodies, indexed.snapshot⟩
  obtain ⟨kept, active⟩ := started.indexActiveHeaders collisionFree filed
  suffices nonempty : next.active.hashes ≠ [] from
    ⟨⟨⟨⟨kept.indexed.index, kept.indexed.active, kept.indexed.bodies, kept.indexed.snapshot⟩, kept.indexed.placed⟩,
      kept.heights, kept.config, fun _ => nonempty⟩, nonempty⟩
  rw [active]
  exact loadSnapshot_ne_nil loaded

include collisionFree in
omit [HashOrder OutPoint] in
theorem startFromGenesis_kept (indexed : Indexed world st)
    (empty : st.active.hashes = []) (h : st.startFromGenesis path = .ok st') :
    Kept world st st' ∧ st'.active.hashes ≠ [] := by
  unfold startFromGenesis at h
  obtain ⟨genesis, stored, h⟩ := bind_ok h
  obtain ⟨hash, -, stored⟩ := Option.bind_eq_some_iff.mp (okOr_ok.mp stored)
  exact initializeGenesis_kept collisionFree indexed empty (indexed.bodies hash genesis stored).2 h

omit [Library] [HashOrder OutPoint] in
theorem repairActiveTxCountVectors_ok (h : st.repairActiveTxCountVectors = .ok st') :
    ∃ counts totals, st' = { st with active := ⟨st.active.hashes, st.active.headers, counts, totals⟩ } := by
  obtain ⟨counts, -, h⟩ := bind_ok h
  cases h
  exact ⟨_, _, rfl⟩

omit [Library] [HashOrder OutPoint] in
theorem forgetSnapshotBase_eq (st : ChainState) (path : List BlockHash) :
    ∃ base validated, st.forgetSnapshotBase path = { st with snapshotBase := base, snapshotValidated := validated } := by
  unfold forgetSnapshotBase
  split
  · exact ⟨none, true, rfl⟩
  · exact ⟨_, _, rfl⟩

omit [HashOrder OutPoint] in
theorem persistSnapshot_kept (indexed : Indexed world st) : Kept world st st.persistSnapshot := by
  unfold persistSnapshot
  dsimp only
  split
  · exact indexed.frame rfl rfl rfl rfl indexed.bodies indexed.snapshot
  · refine indexed.frame rfl rfl rfl rfl indexed.bodies ?_
    intro snapshot saved
    cases saved
    exact indexed.active.world

include collisionFree in
theorem replayPath_kept (indexed : Indexed world st)
    (empty : st.active.hashes = []) (branch : st.IsBranch path) {snapshot : Option ChainSnapshot} (counts : List ℕ)
    (durableReplay : Bool) (loaded : ∀ s, snapshot = some s → st.loadSnapshot path = some s) :
    Kept world st (st.replayPath path counts snapshot durableReplay).2 ∧
      ((st.replayPath path counts snapshot durableReplay).1 = .ok () →
        (st.replayPath path counts snapshot durableReplay).2.active.hashes ≠ []) := by
  unfold replayPath
  dsimp only
  split
  · exact ⟨.refl indexed, fun ok => by cases ok⟩
  rename_i started begun
  obtain ⟨kept, nonempty⟩ : Kept world st started ∧ started.active.hashes ≠ [] := by
    cases snapshot with
    | none => exact startFromGenesis_kept collisionFree indexed empty begun
    | some s => exact startFromSnapshot_kept collisionFree indexed branch (loaded s rfl) begun
  have notGenesis := branch.notGenesis (replayPath_done_pos fun s found => (loadSnapshot_hashed (loaded s found)).2.1)
  rw [← kept.genesis] at notGenesis
  have connected := connectPath_kept collisionFree durableReplay _ kept.indexed nonempty notGenesis
  split
  · rename_i failed ended
    have last := congrArg Prod.snd ended
    exact ⟨kept.trans ((show _ = failed from last) ▸ connected), fun ok => by cases ok⟩
  rename_i done ended
  have last := congrArg Prod.snd ended
  replace connected : Kept world started done := (show _ = done from last) ▸ connected
  split
  · exact ⟨kept.trans connected, fun ok => by cases ok⟩
  rename_i repaired repair
  obtain ⟨counts', totals', rfl⟩ := repairActiveTxCountVectors_ok repair
  have counted : Kept world done { done with active := ⟨done.active.hashes, done.active.headers, counts', totals'⟩ } :=
    connected.indexed.frame rfl rfl rfl rfl connected.indexed.bodies connected.indexed.snapshot
  have saved := connected.trans (counted.trans (persistSnapshot_kept counted.indexed))
  exact ⟨kept.trans saved, fun _ => saved.started nonempty⟩

omit [HashOrder OutPoint] in
theorem ActiveChain.linked_empty (world : Set Header) (genesis : BlockHash) :
    (ActiveChain.mk [] [] [] []).Linked world genesis :=
  ⟨rfl, fun _ member => absurd member not_mem_nil, fun i _ listed => by simp at listed,
    fun i _ listed => by simp at listed⟩

include collisionFree in
theorem activateByReplay_kept (indexed : Indexed world st)
    (branch : st.IsBranch path) (durableReplay : Bool) : Kept world st (st.activateByReplay path durableReplay).2 := by
  unfold activateByReplay
  dsimp only
  split
  · exact .refl indexed
  have loaded : ∀ s, (if st.snapshotInvalidated path then none else st.loadSnapshot path) = some s →
      st.loadSnapshot path = some s := by
    intro s h
    split at h
    · cases h
    · exact h
  obtain ⟨base, validated, cleared⟩ := forgetSnapshotBase_eq _ path
  rw [cleared]
  have emptied : Indexed world { st with
      active := ⟨[], [], [], []⟩
      coins := { st.coins with
        utxos := ∅
        utxosMaterialized := !durableReplay
        coinStats := if st.config.coinstatsIndexEnabled then some .default else none }
      snapshotBase := base
      snapshotValidated := validated } :=
    ⟨⟨indexed.index, ActiveChain.linked_empty _ _, indexed.bodies, indexed.snapshot⟩, fun i _ listed => by simp at listed⟩
  obtain ⟨replayed, nonempty⟩ := replayPath_kept collisionFree emptied rfl ⟨branch.first, branch.linked⟩
    st.active.txCounts durableReplay loaded
  split
  · rename_i error failed ended
    rw [ended] at replayed
    have genesis : failed.networkGenesisHash = st.networkGenesisHash := replayed.genesis
    refine ⟨⟨⟨replayed.indexed.index, ?_, replayed.indexed.bodies, replayed.indexed.snapshot⟩, ?_⟩, replayed.heights,
      replayed.config, id⟩
    · show st.active.Linked world failed.networkGenesisHash
      rw [genesis]
      exact indexed.active
    · exact fun i hash listed => replayed.heights hash i (indexed.placed i hash listed)
  · rename_i done ended
    rw [ended] at replayed nonempty
    exact ⟨⟨⟨replayed.indexed.index, replayed.indexed.active, replayed.indexed.bodies, replayed.indexed.snapshot⟩,
      replayed.indexed.placed⟩, replayed.heights, replayed.config, fun _ => nonempty rfl⟩

include collisionFree in
theorem activateChainFromPrunedSuffix_kept (indexed : Indexed world st) (branch : st.IsBranch path) (commonHeight : ℕ) :
    Kept world st (st.activateChainFromPrunedSuffix path commonHeight).2 := by
  unfold activateChainFromPrunedSuffix
  split
  · exact .refl indexed
  · exact .refl indexed
  rename_i plan planned
  obtain ⟨⟨shared, -⟩, -, read, -, -⟩ := planSuffix_ok planned
  have rewound : Indexed world (st.rewind path commonHeight plan.disconnectedUtxos) := by
    refine ⟨⟨indexed.index, indexed.active.truncate _, indexed.bodies, indexed.snapshot⟩, fun i hash listed => ?_⟩
    change (st.active.hashes.take (commonHeight + 1))[i]? = some hash at listed
    rw [getElem?_take] at listed
    split at listed
    · exact indexed.placed i hash listed
    · cases listed
  have nonempty : (st.rewind path commonHeight plan.disconnectedUtxos).active.hashes ≠ [] := by
    refine ne_nil_of_length_pos ?_
    show 0 < (st.active.hashes.take (commonHeight + 1)).length
    rw [length_take]
    omega
  have connected := connectAll_kept collisionFree plan.candidateBlocks rewound nonempty (by
    intro block member
    obtain ⟨hash, inside, stored⟩ := forall₂_mem_right (mapM_ok_iff.mp read) member
    obtain ⟨filed, known⟩ := indexed.bodies hash block (okOr_ok.mp stored)
    exact ⟨known, filed ▸ branch.notGenesis (Nat.succ_pos commonHeight) hash inside⟩)
  have kept : Kept world st ((st.rewind path commonHeight plan.disconnectedUtxos).connectAll plan.candidateBlocks).2 :=
    ⟨connected.indexed, connected.heights, connected.config, fun _ => connected.started nonempty⟩
  split
  · rename_i ended
    rwa [ended] at kept
  · rename_i next ended
    rw [ended] at kept
    obtain ⟨base, validated, forgotten⟩ := forgetSnapshotBase_eq _ path
    rw [forgotten]
    exact kept.trans (kept.indexed.frame rfl rfl rfl rfl kept.indexed.bodies kept.indexed.snapshot)

theorem activateChainFromPrunedSuffix_false {commonHeight : ℕ}
    (h : st.activateChainFromPrunedSuffix path commonHeight = (.ok false, st')) : st' = st := by
  unfold activateChainFromPrunedSuffix at h
  split at h
  · cases h
  · cases h
    rfl
  · split at h <;> cases h

include collisionFree in
theorem activateChain_kept (indexed : Indexed world st) (tip : BlockHash) : Kept world st (st.activateChain tip).2 := by
  have prepared : Kept world st st.prepareUtxos := by
    unfold prepareUtxos
    split
    · exact indexed.frame rfl rfl rfl rfl indexed.bodies indexed.snapshot
    · refine indexed.frame rfl rfl rfl rfl indexed.bodies indexed.snapshot
  unfold activateChain
  split
  · exact .refl indexed
  dsimp only
  split
  · exact prepared
  rename_i path walked
  have branch := pathTo_spec walked
  split
  · exact prepared.trans (activateByReplay_kept collisionFree prepared.indexed branch _)
  rename_i commonHeight _
  have suffix := prepared.trans (activateChainFromPrunedSuffix_kept collisionFree prepared.indexed branch commonHeight)
  split
  · rename_i ended
    rwa [ended] at suffix
  · rename_i ended
    rwa [ended] at suffix
  · rename_i next ended
    obtain rfl := activateChainFromPrunedSuffix_false ended
    exact prepared.trans (activateByReplay_kept collisionFree prepared.indexed branch _)

end ChainState

end BitcoindRs
