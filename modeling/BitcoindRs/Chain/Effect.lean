import BitcoindRs.Chain.Connect

/-!
The three encodings of a block's effect agree: the update of the resident map, the batch sent to the store and the
delta replayed after a restart all give the map that `apply_block_to_utxos` gives.
-/

namespace BitcoindRs
open Result FMap Ledger ChainState CoinView
open List hiding keys
variable [Library]

/-- The delta of a validated block. -/
abbrev BlockApplication.delta [HashOrder OutPoint] (application : BlockApplication) (block : Block) (height medianTimePast : ℕ) (spentEntries : UtxoMap)
    (includeStorageDelta : Bool) : ChainstateDelta :=
  chainstateDeltaForBlock block block.txids height medianTimePast spentEntries application.spentOutpoints
    application.createdEntries application.metrics includeStorageDelta

section resolved
variable {rules : BlockRules} {block : Block} {height medianTimePast : ℕ} {utxos : UtxoMap}
  {coinbase : Transaction} {rest : List Transaction} {ledger : List (Entry OutPoint UtxoEntry)}
  {application : BlockApplication}
variable {coin : OutPoint × UtxoEntry}

omit [Library] in
theorem spendableOutputs_mem {txid : Txid} {outputs : List TxOut} {coinbase : Bool}
    (member : coin ∈ spendableOutputs txid outputs height medianTimePast coinbase) :
    coin.1.txid = txid ∧ coin.2.height = height ∧ coin.2.output ∈ outputs := by
  rw [spendableOutputs, mem_filterMap] at member
  obtain ⟨⟨output, index⟩, inside, found⟩ := member
  dsimp only at found
  split at found
  · cases found
  · cases found
    exact ⟨rfl, rfl, (mem_zipIdx inside).2.2 ▸ getElem_mem _⟩

variable (resolved : BlockResolved rules block height utxos medianTimePast coinbase rest ledger application)

include resolved in
theorem BlockResolved.created_by
    (member : coin ∈ creates ledger) :
    ∃ tx ∈ rest, coin ∈ spendableOutputs tx.computeTxid tx.output height medianTimePast false := by
  obtain ⟨e, inside, here⟩ := mem_flatMap.mp member
  obtain ⟨tx, present, entry⟩ := forall₂_mem_right resolved.shape inside
  exact ⟨tx, present, entry.creates ▸ here⟩

include resolved in
theorem BlockResolved.spent_cases (older : ∀ o entry, utxos.lookup o = some entry → entry.height < height)
    (spent : coin ∈ spends ledger) :
    (coin.2.height = height ∧ coin.1 ∈ application.sameBlockSpent ∧ coin ∈ creates ledger) ∨
      (coin.2.height ≠ height ∧ coin.1 ∉ application.sameBlockSpent ∧ utxos.lookup coin.1 = some coin.2) := by
  obtain ⟨e, member, consumed⟩ := mem_spends.mp spent
  obtain ⟨before, after, shape⟩ := append_of_mem member
  have seen := resolved.valid.resolved before e after shape coin consumed
  rw [visible, Option.or_eq_some_iff] at seen
  rcases seen with created | ⟨uncreated, stored⟩
  · have inside : coin ∈ creates ledger := by
      rw [shape, creates_append]
      exact mem_append_left _ (lastWrite_mem created)
    obtain ⟨tx, -, output⟩ := resolved.created_by inside
    refine .inl ⟨(spendableOutputs_mem output).2.1, ?_, inside⟩
    exact (resolved.sameBlock _).mpr ⟨before, e, after, shape, mem_map_of_mem consumed, by simp [created]⟩
  · refine .inr ⟨(older _ _ stored).ne, ?_, stored⟩
    intro same
    obtain ⟨before', e', after', shape', member', written⟩ := (resolved.sameBlock _).mp same
    -- The outpoint is spent once, so both splits are the same.
    obtain ⟨coin', consumed', key⟩ := mem_map.mp member'
    have equal : coin' = coin :=
      inj_on_of_nodup_map resolved.valid.distinct (mem_spends.mpr ⟨e', by simp [shape'], consumed'⟩) spent key
    have seen' := resolved.valid.resolved before' e' after' shape' coin' consumed'
    obtain ⟨value, found⟩ := Option.ne_none_iff_exists'.mp written
    rw [equal, visible, found, Option.some_or] at seen'
    have inside : coin ∈ creates ledger := by
      rw [shape', creates_append]
      refine mem_append_left _ (lastWrite_mem ?_)
      rw [found, seen']
    obtain ⟨tx, -, output⟩ := resolved.created_by inside
    exact (older _ _ stored).ne (spendableOutputs_mem output).2.1

include resolved

theorem BlockResolved.spent_older (older : ∀ o entry, utxos.lookup o = some entry → entry.height < height) (o : OutPoint) :
    (∃ coin ∈ spends ledger, coin.2.height ≠ height ∧ coin.1 = o) ↔
      o ∈ keys (spends ledger) ∧ o ∉ application.sameBlockSpent := by
  constructor
  · rintro ⟨coin, spent, different, rfl⟩
    rcases resolved.spent_cases older spent with ⟨same, -, -⟩ | ⟨-, other, -⟩
    · exact absurd same different
    · exact ⟨mem_map_of_mem spent, other⟩
  · rintro ⟨spent, other⟩
    obtain ⟨coin, member, rfl⟩ := mem_map.mp spent
    rcases resolved.spent_cases older member with ⟨-, same, -⟩ | ⟨different, -, -⟩
    · exact absurd same other
    · exact ⟨coin, member, different, rfl⟩

variable [HashOrder OutPoint]

theorem BlockResolved.mem_persistentRemovals
    (older : ∀ o entry, utxos.lookup o = some entry → entry.height < height) (o : OutPoint) :
    o ∈ persistentRemovals application height ↔ o ∈ keys (spends ledger) ∧ o ∉ application.sameBlockSpent := by
  unfold persistentRemovals
  split
  · rw [mem_filter, HashOrder.mem, resolved.spent]
    simp
  · rename_i retained
    have entries := resolved.entries
    split at entries
    · rw [entries, mem_filterMap, ← resolved.spent_older older]
      refine exists_congr fun coin => and_congr_right fun _ => ?_
      rw [Option.ite_none_right_eq_some, Option.some_inj]
    · exact absurd entries retained

omit [HashOrder OutPoint] in
theorem BlockResolved.sameBlock_absent (absent : ∀ tx ∈ rest, ∀ o ∈ tx.outpoints, utxos.lookup o = none)
    {o : OutPoint} (same : o ∈ application.sameBlockSpent) : utxos.lookup o = none := by
  obtain ⟨before, e, after, shape, -, written⟩ := (resolved.sameBlock o).mp same
  obtain ⟨value, found⟩ := Option.ne_none_iff_exists'.mp written
  have inside : (o, value) ∈ creates ledger := by
    rw [shape, creates_append]
    exact mem_append_left _ (lastWrite_mem found)
  obtain ⟨tx, member, output⟩ := resolved.created_by inside
  exact absent tx member o ((spendableOutputs_keys _ _ _ _ _).subset (mem_map_of_mem output))

omit [HashOrder OutPoint] in
theorem BlockResolved.eraseAll_older
    (absent : ∀ tx ∈ rest, ∀ o ∈ tx.outpoints, utxos.lookup o = none) {removed : List OutPoint}
    (older : ∀ o, o ∈ removed ↔ o ∈ keys (spends ledger) ∧ o ∉ application.sameBlockSpent) :
    eraseAll utxos removed = eraseAll utxos (keys (spends ledger)) := by
  refine (eraseAll_superset utxos (fun o member => ((older o).mp member).1) ?_).symm
  intro o spent kept
  exact resolved.sameBlock_absent absent (not_not.mp fun other => kept ((older o).mpr ⟨spent, other⟩))

theorem BlockResolved.lastWrite_created
    (distinct : block.txids.Nodup) (spentEntries : UtxoMap) (includeStorageDelta : Bool) (o : OutPoint) :
    lastWrite (application.delta block height medianTimePast spentEntries includeStorageDelta).created o =
      if o ∈ keys (spends ledger) then none
      else lastWrite (spendableOutputs coinbase.computeTxid coinbase.output height medianTimePast true ++ creates ledger) o := by
  have unspent : ∀ coins : List (OutPoint × UtxoEntry),
      lastWrite (coins.filter fun coin => coin.1 ∉ application.spentOutpoints) o =
        if o ∈ keys (spends ledger) then none else lastWrite coins o := by
    intro coins
    rw [lastWrite_filter fun o => decide (o ∉ application.spentOutpoints)]
    by_cases spent : o ∈ keys (spends ledger) <;> simp [spent, resolved.spent o]
  unfold BlockApplication.delta chainstateDeltaForBlock
  simp only [Block.txids, resolved.txdata, map_cons]
  rw [lastWrite_append, unspent, unspent, lastWrite_toList]
  by_cases spent : o ∈ keys (spends ledger)
  · simp [spent]
  · rw [if_neg spent, if_neg spent, if_neg spent, lastWrite_append, resolved.created o spent]
    -- The coinbase and the other transactions have different identifiers, so the order of writing is immaterial.
    rw [Block.txids, resolved.txdata, map_cons, nodup_cons] at distinct
    rcases minted : lastWrite (spendableOutputs coinbase.computeTxid coinbase.output height medianTimePast true) o with _ | value
    · rw [Option.none_or, Option.or_none]
    · rcases created : lastWrite (creates ledger) o with _ | value'
      · rfl
      · obtain ⟨tx, member, output⟩ := resolved.created_by (lastWrite_mem created)
        refine absurd ?_ distinct.1
        rw [← (spendableOutputs_mem (lastWrite_mem minted)).1, (spendableOutputs_mem output).1]
        exact mem_map_of_mem member

theorem BlockResolved.write_created
    (distinct : block.txids.Nodup) (spentEntries : UtxoMap) (includeStorageDelta : Bool) :
    insertAll (eraseAll utxos (keys (spends ledger))) (application.delta block height medianTimePast spentEntries includeStorageDelta).created =
      connectedUtxos utxos block height medianTimePast := by
  rw [connectedUtxos, resolved.spends_eq, resolved.apply]
  apply Finmap.ext_lookup
  intro o
  rw [lookup_insertAll, lookup_eraseAll, resolved.lastWrite_created distinct, lookup_net]
  by_cases spent : o ∈ keys (spends ledger) <;> simp [spent]

end resolved

/-! ### The resident map -/

namespace CoinView
omit [Library]

/-- Whether the resident map is in use, the stored map, the missing outpoints and whether statistics are kept: what
spending leaves alone. -/
def residence (view : CoinView) : Bool × UtxoMap × MissingUtxoCache × Bool :=
  (view.utxosMaterialized, view.utxoStore, view.missingUtxoCache, view.coinStats.isSome)

@[simp] theorem residence_removeUtxoEntry (view : CoinView) (outpoint : OutPoint) (entry : UtxoEntry) :
    (view.removeUtxoEntry outpoint entry).residence = view.residence := by
  simp [residence, removeUtxoEntry]

theorem spendOutpoint_utxos (view : CoinView) (outpoint : OutPoint) :
    (view.spendOutpoint outpoint).residence = view.residence ∧
      (view.spendOutpoint outpoint).utxos = view.utxos.erase outpoint := by
  unfold spendOutpoint
  split
  · exact ⟨residence_removeUtxoEntry _ _ _, rfl⟩
  · rename_i absent
    exact ⟨rfl, (erase_absent _ _ absent).symm⟩

theorem spendEntry_utxos (height : ℕ) (view : CoinView) (spent : OutPoint × UtxoEntry) :
    (view.spendEntry height spent).residence = view.residence ∧
      (view.spendEntry height spent).utxos =
        if view.utxosMaterialized then view.utxos.erase spent.1 else view.utxos := by
  unfold spendEntry
  dsimp only
  split
  · split
    · exact ⟨residence_removeUtxoEntry _ _ _, rfl⟩
    · rename_i absent
      refine ⟨rfl, (erase_absent _ _ ?_).symm⟩
      simpa using absent
  · split
    · exact ⟨residence_removeUtxoEntry _ _ _, rfl⟩
    · exact ⟨rfl, rfl⟩

variable [HashOrder OutPoint]

theorem spendBlock_residence (view : CoinView) (application : BlockApplication) (height : ℕ) :
    (view.spendBlock application height).residence = view.residence := by
  unfold spendBlock
  split
  · exact foldl_frame (fun view o => (spendOutpoint_utxos view o).1) _ view
  · exact foldl_frame (fun view coin => (spendEntry_utxos height view coin).1) _ view

theorem spendBlock_utxos {view : CoinView} (materialized : view.utxosMaterialized) (application : BlockApplication)
    (height : ℕ) : (view.spendBlock application height).utxos = eraseAll view.utxos
      (if application.spentEntries = [] then HashOrder.elements application.spentOutpoints
        else keys application.spentEntries) := by
  unfold spendBlock
  split
  · exact (foldl_project (P := fun _ => True) (fun view o _ => ⟨trivial, (spendOutpoint_utxos view o).2⟩) _ view trivial).2
  · rw [eraseAll, keys, foldl_map]
    refine (foldl_project (P := fun view => view.utxosMaterialized = true) ?_ _ view materialized).2
    intro view coin resident
    obtain ⟨frame, erased⟩ := spendEntry_utxos height view coin
    rw [if_pos resident] at erased
    exact ⟨(congrArg Prod.fst frame).trans resident, erased⟩

omit [HashOrder OutPoint] in
theorem createCoins_utxos (view : CoinView) (created : List (OutPoint × UtxoEntry)) (mayOverwriteUtxo : Bool) :
    (view.createCoins created mayOverwriteUtxo).utxosMaterialized = view.utxosMaterialized ∧
      (view.createCoins created mayOverwriteUtxo).utxoStore = view.utxoStore ∧
      (view.createCoins created mayOverwriteUtxo).utxos =
        if view.utxosMaterialized then insertAll view.utxos created else view.utxos := by
  have loop := foldl_project
    (P := fun next : CoinView => next.utxosMaterialized = view.utxosMaterialized ∧ next.utxoStore = view.utxoStore)
    (f := fun view coin => if mayOverwriteUtxo then view.insertUtxo coin.1 coin.2 else view.insertFreshUtxo coin.1 coin.2)
    (g := utxos)
    (h := fun utxos coin => if view.utxosMaterialized then utxos.insert coin.1 coin.2 else utxos)
    (fun next coin kept => by
      split
      · exact ⟨kept, by simp only [insertUtxo, kept.1]⟩
      · exact ⟨kept, by simp only [insertFreshUtxo, kept.1]⟩)
    created view ⟨rfl, rfl⟩
  unfold createCoins
  split
  · refine ⟨loop.1.1, loop.1.2, loop.2.trans ?_⟩
    split
    · rfl
    · exact foldl_fixed created
  · rename_i unused
    rw [if_neg (by simp_all)]
    exact ⟨rfl, rfl, rfl⟩

end CoinView

/-! ### Replay of the delta -/

section replay
omit [Library]
variable {delta : ChainstateDelta}

theorem replaySpent_all {coins : List (OutPoint × UtxoEntry)} {view : CoinView} (resident : view.utxosMaterialized = true)
    (distinct : (keys coins).Nodup) (inRange : ∀ coin ∈ coins, coin.2.value ≤ maxMoney)
    (known : ∀ coin ∈ coins, coin.2.height = delta.height → coin.1.txid ∈ delta.transactions.map Prod.fst)
    (stored : ∀ coin ∈ coins, coin.2.height ≠ delta.height → view.utxos.lookup coin.1 = some coin.2) :
    ∃ view', coins.foldlM (replaySpent delta) view = .ok view' ∧ view'.utxosMaterialized = true ∧
      view'.utxos = eraseAll view.utxos (keys (coins.filter fun coin => coin.2.height ≠ delta.height)) := by
  refine foldlM_succeeds (fun passed (now : CoinView) => now.utxosMaterialized = true ∧ now.utxos =
    eraseAll view.utxos (keys (passed.filter fun (coin : OutPoint × UtxoEntry) => coin.2.height ≠ delta.height))) ?_ ⟨resident, rfl⟩
  rintro passed coin now part ⟨held, erased⟩
  have member : coin ∈ coins := part.subset (by simp)
  have inside := inRange coin member
  by_cases same : coin.2.height = delta.height
  · have present : (delta.transactions.any fun entry => entry.1 == coin.1.txid) = true := by
      obtain ⟨entry, member, id⟩ := mem_map.mp (known coin member same)
      exact any_eq_true.mpr ⟨entry, member, by simp [id]⟩
    refine ⟨now, by simp [replaySpent, bailIf, same, present, Nat.not_lt.mpr inside], held, ?_⟩
    rw [erased, filter_append, filter_singleton]
    simp [same]
  · have apart := distinct.sublist (part.sublist.map _)
    rw [map_append, nodup_append] at apart
    have present : now.utxos.lookup coin.1 = some coin.2 := by
      rw [erased, lookup_eraseAll, if_neg]
      · exact stored coin member same
      · intro earlier
        obtain ⟨other, kept, equal⟩ := mem_map.mp earlier
        exact apart.2.2 _ (mem_map_of_mem (mem_of_mem_filter kept)) _ mem_cons_self equal
    refine ⟨removeUtxoEntry { now with utxos := now.utxos.erase coin.1 } coin.1 coin.2, ?_, held, ?_⟩
    · simp [replaySpent, bailIf, same, Nat.not_lt.mpr inside, removeUtxo, held, present, okOr]
    · show now.utxos.erase coin.1 = _
      rw [erased, filter_append, filter_singleton]
      simp [same, keys, eraseAll]

theorem replayCreated_all {coins : List (OutPoint × UtxoEntry)} {view : CoinView} (resident : view.utxosMaterialized = true)
    (fits : ∀ coin ∈ coins, coin.2.height = delta.height ∧ coin.2.value ≤ maxMoney) :
    ∃ view', coins.foldlM (replayCreated delta) view = .ok view' ∧ view'.utxosMaterialized = true ∧
      view'.utxos = insertAll view.utxos coins := by
  refine foldlM_succeeds (fun passed (now : CoinView) => now.utxosMaterialized = true ∧
    now.utxos = insertAll view.utxos passed) ?_ ⟨resident, rfl⟩
  rintro passed coin now part ⟨held, inserted⟩
  obtain ⟨same, inRange⟩ := fits coin (part.subset (by simp))
  refine ⟨now.insertUtxo coin.1 coin.2, ?_, held, ?_⟩
  · simp [replayCreated, bailIf, same, Nat.not_lt.mpr inRange]
  · simp [insertUtxo, held, inserted, insertAll]

end replay

/-! ### A connected block -/

section connected
variable {rules : BlockRules} {block : Block} {height medianTimePast : ℕ} {utxos : UtxoMap}
  {coinbase : Transaction} {rest : List Transaction} {ledger : List (Entry OutPoint UtxoEntry)}
  {application : BlockApplication}

theorem BlockResolved.values
    (resolved : BlockResolved rules block height utxos medianTimePast coinbase rest ledger application)
    (wellFormed : block.WellFormed) :
    (∀ coin ∈ spends ledger, coin.2.value ≤ maxMoney) ∧
      ∀ tx ∈ block.txdata, ∀ cb, ∀ coin ∈ spendableOutputs tx.computeTxid tx.output height medianTimePast cb,
        coin.2.value ≤ maxMoney := by
  constructor
  · intro coin member
    obtain ⟨e, inside, here⟩ := mem_spends.mp member
    obtain ⟨tx, -, entry⟩ := forall₂_mem_right resolved.shape inside
    refine le_trans ?_ entry.bound
    exact le_sum_of_mem (mem_map.mpr ⟨coin, here, rfl⟩)
  · intro tx member cb coin output
    refine le_trans ?_ (wellFormed.transactions tx member).total
    exact le_sum_of_mem (mem_map.mpr ⟨coin.2.output, (spendableOutputs_mem output).2.2, rfl⟩)

variable [HashOrder OutPoint]

section
variable (resolved : BlockResolved rules block height utxos medianTimePast coinbase rest ledger application)
include resolved

theorem BlockResolved.connect_resident
    (distinct : block.txids.Nodup) {view : CoinView} (resident : view.utxosMaterialized = true) (same : view.utxos = utxos)
    (spentEntries : UtxoMap) (includeStorageDelta mayOverwriteUtxo persist : Bool) :
    (view.connectBlock application (application.delta block height medianTimePast spentEntries includeStorageDelta) height
      mayOverwriteUtxo persist).utxos = connectedUtxos utxos block height medianTimePast := by
  unfold connectBlock
  dsimp only
  let invalidated := { view with
    missingUtxoCache := view.missingUtxoCache.removeAll (application.createdEntries.toList.map Prod.fst) }
  have kept : (invalidated.spendBlock application height).utxosMaterialized = true :=
    (congrArg Prod.fst (invalidated.spendBlock_residence application height)).trans resident
  have removed : ∀ o, (o ∈ if application.spentEntries = [] then HashOrder.elements application.spentOutpoints
      else keys application.spentEntries) ↔ o ∈ keys (spends ledger) := by
    intro o
    split
    · rw [HashOrder.mem, resolved.spent]
    · rename_i retained
      have entries := resolved.entries
      split at entries
      · rw [entries]
      · exact absurd entries retained
  rw [(createCoins_utxos _ _ _).2.2, if_pos kept, @spendBlock_utxos _ invalidated resident]
  rw [show invalidated.utxos = utxos from same, eraseAll_congr utxos removed]
  exact resolved.write_created distinct spentEntries includeStorageDelta

theorem BlockResolved.connect_stored
    (distinct : block.txids.Nodup) (older : ∀ o entry, utxos.lookup o = some entry → entry.height < height)
    (absent : ∀ tx ∈ rest, ∀ o ∈ tx.outpoints, utxos.lookup o = none)
    {view : CoinView} (same : view.utxoStore = utxos)
    (spentEntries : UtxoMap) (includeStorageDelta mayOverwriteUtxo : Bool) :
    (view.connectBlock application (application.delta block height medianTimePast spentEntries includeStorageDelta) height
      mayOverwriteUtxo true).utxoStore = connectedUtxos utxos block height medianTimePast := by
  unfold connectBlock
  dsimp only
  rw [if_pos rfl, (createCoins_utxos _ _ _).2.1]
  have store := congrArg (fun r => r.2.1) (spendBlock_residence { view with
    missingUtxoCache := view.missingUtxoCache.removeAll (application.createdEntries.toList.map Prod.fst) } application height)
  simp only [residence] at store
  rw [store, same, applyBatch, resolved.eraseAll_older absent (resolved.mem_persistentRemovals older)]
  exact resolved.write_created distinct spentEntries includeStorageDelta

theorem BlockResolved.delta_created_by
    {spentEntries : UtxoMap} {includeStorageDelta : Bool} {coin : OutPoint × UtxoEntry}
    (member : coin ∈ (application.delta block height medianTimePast spentEntries includeStorageDelta).created) :
    ∃ tx cb, tx ∈ block.txdata ∧ coin ∈ spendableOutputs tx.computeTxid tx.output height medianTimePast cb := by
  unfold BlockApplication.delta chainstateDeltaForBlock at member
  simp only [Block.txids, resolved.txdata, map_cons, mem_append, mem_filter] at member
  rw [resolved.txdata]
  rcases member with ⟨created, unspent⟩ | ⟨minted, -⟩
  · rw [mem_toList, resolved.created coin.1 (by simpa [resolved.spent] using unspent)] at created
    obtain ⟨tx, inside, output⟩ := resolved.created_by (lastWrite_mem created)
    exact ⟨tx, false, mem_cons_of_mem _ inside, output⟩
  · exact ⟨coinbase, true, mem_cons_self, minted⟩

theorem BlockResolved.replay
    (wellFormed : block.WellFormed) (distinct : block.txids.Nodup) (retained : rules.retainSpentEntries = true)
    (older : ∀ o entry, utxos.lookup o = some entry → entry.height < height)
    (absent : ∀ tx ∈ rest, ∀ o ∈ tx.outpoints, utxos.lookup o = none)
    {restart : ChainState} {node : BlockNode} (length : restart.active.hashes.length = height)
    (parent : block.header.prevBlockhash = restart.bestHash)
    (indexed : restart.blockIndex.lookup block.blockHash = some node) (placed : node.height = height)
    (header : node.header = block.header) (resident : restart.coins.utxosMaterialized = true)
    (same : restart.coins.utxos = utxos) :
    ∃ after, restart.applyChainstateDelta (application.delta block height medianTimePast (insertAll ∅ application.spentEntries) true) = .ok after ∧
      after.coins.utxos = connectedUtxos utxos block height medianTimePast := by
  let delta := application.delta block height medianTimePast (insertAll ∅ application.spentEntries) true
  have entries : application.spentEntries = spends ledger := by rw [resolved.entries, if_pos retained]
  have spent : ∀ coin, coin ∈ delta.spent ↔ coin ∈ spends ledger := by
    intro coin
    rw [show delta.spent = (insertAll ∅ application.spentEntries).toList from rfl, mem_toList, lookup_insertAll, entries,
      lookup_empty', Option.or_none]
    exact ⟨fun found => lastWrite_mem found, fun member => lastWrite_of_mem resolved.valid.distinct member⟩
  obtain ⟨inRange, outputs⟩ := resolved.values wellFormed
  have known : ∀ tx ∈ rest, tx.computeTxid ∈ delta.transactions.map Prod.fst := by
    intro tx member
    exact delta_transactions_mem (by rw [resolved.txdata]; exact mem_cons_of_mem _ member)
  obtain ⟨spentView, spentRun, kept, erased⟩ := @replaySpent_all delta delta.spent restart.coins resident
    (toList_keys_nodup _) (fun coin member => inRange coin ((spent coin).mp member))
    (fun coin member same => by
      rcases resolved.spent_cases older ((spent coin).mp member) with ⟨-, -, created⟩ | ⟨different, -, -⟩
      · obtain ⟨tx, inside, output⟩ := resolved.created_by created
        rw [(spendableOutputs_mem output).1]
        exact known tx inside
      · exact absurd same different)
    (fun coin member different => by
      rcases resolved.spent_cases older ((spent coin).mp member) with ⟨same, -, -⟩ | ⟨-, -, stored⟩
      · exact absurd same different
      · rw [same, stored])
  obtain ⟨after, createdRun, -, inserted⟩ := @replayCreated_all delta delta.created spentView kept (by
    intro coin member
    obtain ⟨tx, cb, inside, output⟩ := resolved.delta_created_by member
    exact ⟨(spendableOutputs_mem output).2.1, outputs tx inside cb coin output⟩)
  have removed : ∀ o, o ∈ keys (delta.spent.filter fun coin => coin.2.height ≠ delta.height) ↔
      o ∈ keys (spends ledger) ∧ o ∉ application.sameBlockSpent := by
    intro o
    rw [← resolved.spent_older older, keys, mem_map]
    refine exists_congr fun coin => ?_
    rw [mem_filter, spent, decide_eq_true_iff, and_assoc]
    rfl
  have tip : ¬(delta.height ≠ restart.active.hashes.length ∨ delta.parentHash ≠ restart.bestHash) :=
    not_or.mpr ⟨not_not.mpr length.symm, not_not.mpr parent⟩
  have consistent : ¬(node.height ≠ delta.height ∨ node.header.prevBlockhash ≠ delta.parentHash) :=
    not_or.mpr ⟨not_not.mpr placed, not_not.mpr (congrArg Header.prevBlockhash header)⟩
  have run : restart.applyChainstateDelta delta = .ok { restart with
      coins := { after with coinStats := after.coinStats.map fun stats => stats.applyBlockMetrics delta.metrics }
      active := restart.active.push delta.blockHash node.header delta.transactions.length } := by
    unfold applyChainstateDelta
    rw [bailIf_neg tip, ok_bind, show restart.blockIndex.lookup delta.blockHash = some node from indexed]
    simp only [okOr, ok_bind]
    rw [bailIf_neg consistent, ok_bind, spentRun, ok_bind, createdRun, ok_bind, bailIf_neg, ok_bind]
    simp [delta, BlockApplication.delta, chainstateDeltaForBlock]
  refine ⟨_, run, ?_⟩
  rw [inserted, erased, same, resolved.eraseAll_older absent removed]
  exact resolved.write_created distinct _ _

end

end connected

variable [HashOrder OutPoint]

open ChainState in
/-- In every connect mode the stored map, the resident map and the replay of the delta end at the map that
`apply_block_to_utxos` gives. -/
theorem connectBlockInternal_effect {st st' : ChainState} {block : Block} {persist syncStorage : Bool}
    (connected : st.connectBlockInternal block persist syncStorage = .ok st') (genesis : st.active.hashes ≠ [])
    (older : ∀ o entry, (st.validationView persist).lookup o = some entry → entry.height ≤ st.height)
    (commit : TxidsCommit block.txdata)
    (exempt : st.enforceBip30 (st.height + 1) block.blockHash block.header.prevBlockhash = false →
      ∀ tx ∈ block.txdata.drop 1, ∀ o ∈ tx.outpoints, (st.validationView persist).lookup o = none) :
    (∀ rules application, rules.retainSpentEntries = true →
      validateBlockTransactions rules block block.txids (st.height + 1) (st.validationView persist) st.medianTimePast =
        .ok application →
      applyBlockToUtxos (st.validationView persist) block (st.height + 1) st.medianTimePast application.spentEntries =
        connectedUtxos (st.validationView persist) block (st.height + 1) st.medianTimePast) ∧
    (persist = true →
      st'.coins.utxoStore = connectedUtxos st.coins.utxoStore block (st.height + 1) st.medianTimePast) ∧
    (st.coins.utxosMaterialized = true → st.coins.utxos = st.validationView persist →
      st'.coins.utxos = connectedUtxos st.coins.utxos block (st.height + 1) st.medianTimePast) ∧
    (∀ delta, st.chainstateStore.lookup block.blockHash = none → st'.chainstateStore.lookup block.blockHash = some delta →
      ∀ (restart : ChainState) (node : BlockNode), restart.active = st.active →
        restart.blockIndex.lookup block.blockHash = some node → node.header = block.header → node.height = st.height + 1 →
        restart.coins.utxosMaterialized = true → restart.coins.utxos = st.coins.utxoStore →
        ∃ after, restart.applyChainstateDelta delta = .ok after ∧
          after.coins.utxos = connectedUtxos st.coins.utxoStore block (st.height + 1) st.medianTimePast) := by
  obtain ⟨previousNode, stats, application, undone, connection⟩ := connectBlockInternal_ok connected
  obtain ⟨coinbase, rest, ledger, resolved⟩ := validateBlockTransactions_ok connection.valid
  have wellFormed := validateBlockStructure_ok connection.structured
  have distinct := resolved.txids_nodup wellFormed commit
  have below : ∀ o entry, (st.validationView persist).lookup o = some entry → entry.height < st.height + 1 :=
    fun o entry found => Nat.lt_succ_of_le (older o entry found)
  have absent : ∀ tx ∈ rest, ∀ o ∈ tx.outpoints, (st.validationView persist).lookup o = none := by
    intro tx member
    rcases enforced : st.enforceBip30 (st.height + 1) block.blockHash block.header.prevBlockhash with _ | _
    · exact exempt enforced tx (by rw [resolved.txdata]; exact member)
    · exact resolved.bip30 enforced tx (by rw [resolved.txdata]; exact mem_cons_of_mem _ member)
  obtain ⟨records, undo, -, rfl⟩ := connection.state
  refine ⟨?_, ?_, ?_, ?_⟩
  · intro rules application' retained valid
    obtain ⟨_, _, ledger', resolved'⟩ := validateBlockTransactions_ok valid
    rw [connectedUtxos, resolved'.spends_eq, resolved'.entries, if_pos retained]
  · rintro rfl
    exact resolved.connect_stored distinct below absent rfl _ _ _
  · intro resident same
    rw [same]
    exact resolved.connect_resident distinct resident same _ _ _ _
  · intro delta missing stored restart node active indexed header placed resident same
    -- Only a persisted, synced connection stores a delta, and it retains the spent coins.
    have prepared : st.prepareDelta block.blockHash persist syncStorage = true := by
      by_contra unprepared
      rw [if_neg unprepared, missing] at stored
      cases stored
    rw [if_pos prepared, lookup_insert_ite, if_pos rfl] at stored
    cases stored
    have persisted : persist = true := by
      rw [prepareDelta, Bool.and_eq_true, Bool.and_eq_true] at prepared
      exact prepared.1.1
    subst persisted
    have retained : (st.nextRules block true syncStorage).retainSpentEntries = true := by
      show st.retainSpentEntries block.blockHash true syncStorage = true
      rw [retainSpentEntries, if_pos rfl, prepared, Bool.or_true]
    have length : restart.active.hashes.length = st.height + 1 := by
      have := length_pos_of_ne_nil genesis
      rw [active, height]
      omega
    rw [nextDelta, prepared, Bool.true_or, if_pos rfl]
    exact resolved.replay wellFormed distinct retained below absent length
      (by rw [connection.parent, bestHash, bestHash, active]) indexed placed header resident same

/-! ### Samples -/

omit [Library] [HashOrder OutPoint]

def sampleFirst : Block :=
  sampleBlock 1 [sampleCoinbase 1 5000000000, sampleSpend 21 [⟨7, 0⟩] [400, 500], sampleSpend 22 [⟨1021, 0⟩] [300]]

def sampleCoin (height : ℕ) : UtxoMap := (∅ : UtxoMap).insert ⟨7, 0⟩ ⟨⟨1000, [0x51]⟩, height, 0, false⟩

theorem connectBlockInternal_effect_sample : let _ := Library.sample
    let _ := OutPoint.sampleOrder
    ∃ st', (sample (sampleCoin 0)).connectBlockInternal sampleFirst true true = .ok st' ∧
      st'.coins.utxoStore = connectedUtxos (sampleCoin 0) sampleFirst 1 0 := by
  intro _ _
  obtain ⟨st', connected⟩ : ∃ st', (sample (sampleCoin 0)).connectBlockInternal sampleFirst true true = .ok st' :=
    exists_ok (by decide +kernel)
  refine ⟨st', connected, ?_⟩
  have effect := connectBlockInternal_effect connected (by simp [sample])
    (fun o entry found => by
      replace found : (sampleCoin 0).lookup o = some entry := found
      rw [sampleCoin, lookup_insert_ite, lookup_empty'] at found
      split at found
      · cases found
        exact Nat.zero_le _
      · cases found)
    (by unfold TxidsCommit; decide +kernel)
    (fun exempt => absurd exempt (by decide +kernel))
  exact effect.2.1 rfl

/-- A stored coin whose recorded height is that of the block that spends it stays in the store. -/
theorem connectBlockInternal_sameHeight : let _ := Library.sample
    let _ := OutPoint.sampleOrder
    ∃ st', (sample (sampleCoin 1)).connectBlockInternal sampleFirst true true = .ok st' ∧
      st'.coins.utxoStore ≠ connectedUtxos (sampleCoin 1) sampleFirst 1 0 := by
  intro _ _
  obtain ⟨st', connected, kept⟩ := exists_okAnd (show
    okAnd ((sample (sampleCoin 1)).connectBlockInternal sampleFirst true true)
      (fun st' => (st'.coins.utxoStore.lookup ⟨7, 0⟩).isSome) = true by decide +kernel)
  refine ⟨st', connected, fun same => ?_⟩
  rw [same] at kept
  exact absurd kept (by decide +kernel)

end BitcoindRs
