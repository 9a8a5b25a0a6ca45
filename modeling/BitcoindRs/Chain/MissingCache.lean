import BitcoindRs.Chain.Activate
import BitcoindRs.Chain.Effect

/-! The negative lookup cache over runs of lookups, connections and reorganisations. -/

namespace BitcoindRs
open Result FMap Ledger ChainState MissingUtxoCache
open List hiding keys
variable [Library]

def Transaction.spendableOutpoints (tx : Transaction) : List OutPoint :=
  keys (spendableOutputs tx.computeTxid tx.output 0 0 false)

def Block.newOutpoints (block : Block) : List OutPoint :=
  (block.txdata.flatMap Transaction.spendableOutpoints).filter
    fun o => o ∉ (block.txdata.drop 1).flatMap Transaction.prevouts

theorem keys_spendableOutputs (tx : Transaction) (height medianTimePast : ℕ) (coinbase : Bool) :
    keys (spendableOutputs tx.computeTxid tx.output height medianTimePast coinbase) = tx.spendableOutpoints := by
  unfold Transaction.spendableOutpoints spendableOutputs
  induction tx.output.zipIdx with
  | nil => rfl
  | cons head indexed ih =>
    rw [filterMap_cons, filterMap_cons]
    by_cases unspendable : isUnspendableScript head.1.scriptPubkey
    · simpa [unspendable] using ih
    · simpa [unspendable] using ih

theorem keys_blockCoins (block : Block) (height medianTimePast : ℕ) :
    keys (blockCoins block height medianTimePast) = block.txdata.flatMap Transaction.spendableOutpoints := by
  unfold blockCoins
  generalize block.txdata = txs
  suffices general : ∀ start, keys ((txs.zipIdx start).flatMap fun indexed =>
      spendableOutputs indexed.1.computeTxid indexed.1.output height medianTimePast (indexed.2 == 0)) =
      txs.flatMap Transaction.spendableOutpoints from general 0
  induction txs with
  | nil => exact fun _ => rfl
  | cons tx txs ih =>
    intro start
    rw [zipIdx_cons, flatMap_cons, flatMap_cons, keys, map_append, ← ih (start + 1)]
    congr 1
    exact keys_spendableOutputs tx height medianTimePast (start == 0)

section resolved
variable {rules : BlockRules} {block : Block} {height medianTimePast : ℕ} {utxos : UtxoMap}
  {coinbase : Transaction} {rest : List Transaction} {ledger : List (Entry OutPoint UtxoEntry)}
  {application : BlockApplication}

section
variable (resolved : BlockResolved rules block height utxos medianTimePast coinbase rest ledger application)
include resolved

theorem BlockResolved.mem_newOutpoints (o : OutPoint) :
    o ∈ block.newOutpoints ↔ o ∈ keys (blockCoins block height medianTimePast) ∧ o ∉ keys (spends ledger) := by
  rw [Block.newOutpoints, mem_filter, keys_blockCoins, resolved.prevouts, resolved.txdata, drop_one,
    tail_cons]
  simp

theorem BlockResolved.lookup_apply {o : OutPoint}
    (present : (applyBlockToUtxos utxos block height medianTimePast (spends ledger)).lookup o ≠ none) :
    utxos.lookup o ≠ none ∨ o ∈ block.newOutpoints := by
  rw [resolved.apply, lookup_net] at present
  by_cases spent : o ∈ keys (spends ledger)
  · rw [if_pos spent] at present
    exact absurd rfl present
  · rw [if_neg spent, ← resolved.coins] at present
    rcases written : lastWrite (blockCoins block height medianTimePast) o with _ | entry
    · rw [written, Option.none_or] at present
      exact .inl present
    · exact .inr ((resolved.mem_newOutpoints o).mpr ⟨mem_map_of_mem (lastWrite_mem written), spent⟩)

theorem BlockResolved.new_cases {o : OutPoint}
    (new : o ∈ block.newOutpoints) : application.createdEntries.lookup o ≠ none ∨ o ∈ coinbase.spendableOutpoints := by
  obtain ⟨coin, unspent⟩ := (resolved.mem_newOutpoints o).mp new
  rw [resolved.coins, keys, map_append, mem_append] at coin
  rcases coin with minted | created
  · exact .inr (keys_spendableOutputs coinbase height medianTimePast true ▸ minted)
  · refine .inl ?_
    rw [resolved.created o unspent, ne_eq, lastWrite_eq_none, not_not]
    exact created

end

variable [HashOrder OutPoint]

theorem BlockResolved.delta_keys
    (resolved : BlockResolved rules block height utxos medianTimePast coinbase rest ledger application)
    {spentEntries : UtxoMap} {includeStorageDelta : Bool} {o : OutPoint} :
    o ∈ keys (chainstateDeltaForBlock block block.txids height medianTimePast spentEntries application.spentOutpoints
      application.createdEntries application.metrics includeStorageDelta).created ↔ o ∈ block.newOutpoints := by
  have unspent := fun coins : List (OutPoint × UtxoEntry) =>
    @mem_keys_filter OutPoint UtxoEntry (fun o => decide (o ∉ application.spentOutpoints)) coins o
  simp only [decide_eq_true_eq, resolved.spent o] at unspent
  rw [resolved.mem_newOutpoints, resolved.coins, keys, keys, map_append, mem_append]
  unfold chainstateDeltaForBlock
  simp only [Block.txids, resolved.txdata, map_cons, map_append, mem_append]
  rw [unspent, unspent, mem_toList_keys]
  by_cases spent : o ∈ keys (spends ledger)
  · simp [spent]
  · rw [resolved.created o spent, ne_eq, lastWrite_eq_none, not_not]
    tauto

end resolved

/-! ### One step -/

namespace CoinView

section sound
omit [Library]

def CacheSound (view : CoinView) : Prop :=
  ∀ o ∈ view.missingUtxoCache.entries, view.utxoStore.lookup o = none ∧ view.utxos.lookup o = none

theorem CacheSound.utxoChecked {view : CoinView} (sound : view.CacheSound) (outpoint : OutPoint) :
    (view.utxoChecked outpoint).2.CacheSound ∧
      (view.utxoChecked outpoint).1 = (view.utxoStore.lookup outpoint).or (view.utxos.lookup outpoint) := by
  unfold CoinView.utxoChecked
  split
  · rename_i cached
    obtain ⟨stored, resident⟩ := sound outpoint cached
    exact ⟨sound, by rw [stored, resident]; rfl⟩
  · split
    · rename_i entry found
      exact ⟨sound, found.symm⟩
    · rename_i missing
      refine ⟨?_, missing.symm⟩
      intro o member
      rcases mem_insert member with rfl | old
      · exact Option.or_eq_none_iff.mp missing
      · exact sound o old

theorem createCoins_missing (view : CoinView) (created : List (OutPoint × UtxoEntry)) (mayOverwriteUtxo : Bool) :
    (view.createCoins created mayOverwriteUtxo).missingUtxoCache =
      if view.utxosMaterialized || view.coinStats.isSome then view.missingUtxoCache.removeAll (keys created)
      else view.missingUtxoCache := by
  unfold createCoins
  split
  · rw [MissingUtxoCache.removeAll, keys, foldl_map]
    refine (foldl_project (P := fun _ => True) (g := CoinView.missingUtxoCache) (fun view coin _ => ⟨trivial, ?_⟩) created view
      trivial).2
    dsimp only
    split <;> rfl
  · rfl

variable [HashOrder OutPoint]

theorem spendBlock_lookup (view : CoinView) (application : BlockApplication) (height : ℕ) {o : OutPoint}
    (present : (view.spendBlock application height).utxos.lookup o ≠ none) : view.utxos.lookup o ≠ none := by
  have shrinks : ∀ {γ : Type} (f : CoinView → γ → CoinView) (xs : List γ) (view : CoinView),
      (∀ view x, (f view x).utxos.lookup o ≠ none → view.utxos.lookup o ≠ none) →
      (xs.foldl f view).utxos.lookup o ≠ none → view.utxos.lookup o ≠ none := by
    intro γ f xs
    induction xs with
    | nil => exact fun _ _ present => present
    | cons x xs ih => exact fun view step present => step view x (ih (f view x) step present)
  have erased : ∀ (utxos : UtxoMap) (k : OutPoint), (utxos.erase k).lookup o ≠ none → utxos.lookup o ≠ none := by
    intro utxos k kept
    rw [lookup_erase_ite] at kept
    split at kept
    · exact absurd rfl kept
    · exact kept
  unfold spendBlock at present
  split at present
  · refine shrinks _ _ view (fun view x kept => ?_) present
    rw [(spendOutpoint_utxos view x).2] at kept
    exact erased _ _ kept
  · refine shrinks _ _ view (fun view x kept => ?_) present
    rw [(spendEntry_utxos height view x).2] at kept
    split at kept
    · exact erased _ _ kept
    · exact kept

theorem connectBlock_cases (view : CoinView) (application : BlockApplication) (delta : ChainstateDelta) (height : ℕ)
    (mayOverwriteUtxo persist : Bool) (o : OutPoint) :
    (o ∈ (view.connectBlock application delta height mayOverwriteUtxo persist).missingUtxoCache.entries →
      o ∈ view.missingUtxoCache.entries ∧ application.createdEntries.lookup o = none ∧
        (view.utxosMaterialized = true ∨ view.coinStats.isSome = true → o ∉ keys delta.created)) ∧
    ((view.connectBlock application delta height mayOverwriteUtxo persist).utxos.lookup o ≠ none →
      view.utxos.lookup o ≠ none ∨ (view.utxosMaterialized = true ∧ o ∈ keys delta.created)) ∧
    ((view.connectBlock application delta height mayOverwriteUtxo persist).utxoStore.lookup o ≠ none →
      view.utxoStore.lookup o ≠ none ∨ (persist = true ∧ o ∈ keys delta.created)) := by
  let invalidated := { view with
    missingUtxoCache := view.missingUtxoCache.removeAll (application.createdEntries.toList.map Prod.fst) }
  have residence := invalidated.spendBlock_residence application height
  have materialized : (invalidated.spendBlock application height).utxosMaterialized = view.utxosMaterialized :=
    congrArg Prod.fst residence
  have store : (invalidated.spendBlock application height).utxoStore = view.utxoStore := congrArg (·.2.1) residence
  have missing : (invalidated.spendBlock application height).missingUtxoCache = invalidated.missingUtxoCache :=
    congrArg (·.2.2.1) residence
  have stats : (invalidated.spendBlock application height).coinStats.isSome = view.coinStats.isSome :=
    congrArg (·.2.2.2) residence
  obtain ⟨-, createdStore, createdUtxos⟩ :=
    createCoins_utxos (invalidated.spendBlock application height) delta.created mayOverwriteUtxo
  refine ⟨?_, ?_, ?_⟩
  · intro member
    replace member : o ∈ ((invalidated.spendBlock application height).createCoins delta.created
      mayOverwriteUtxo).missingUtxoCache.entries := member
    rw [createCoins_missing, materialized, stats, missing] at member
    split at member
    · rw [mem_removeAll] at member
      obtain ⟨uncreated, old⟩ := member
      rw [mem_removeAll, mem_toList_keys, not_not] at old
      exact ⟨old.2, old.1, fun _ => uncreated⟩
    · rename_i off
      rw [mem_removeAll, mem_toList_keys, not_not] at member
      exact ⟨member.2, member.1, fun on => absurd (by simpa using on) off⟩
  · intro present
    replace present : ((invalidated.spendBlock application height).createCoins delta.created
      mayOverwriteUtxo).utxos.lookup o ≠ none := present
    rw [createdUtxos, materialized] at present
    split at present
    · rename_i resident
      rw [lookup_insertAll] at present
      by_cases created : o ∈ keys delta.created
      · exact .inr ⟨resident, created⟩
      · rw [lastWrite_eq_none.mpr created, Option.none_or] at present
        exact .inl (spendBlock_lookup invalidated application height present)
    · exact .inl (spendBlock_lookup invalidated application height present)
  · intro present
    replace present : (if persist then applyBatch ((invalidated.spendBlock application height).createCoins delta.created
      mayOverwriteUtxo).utxoStore (persistentRemovals application height) delta.created
      else ((invalidated.spendBlock application height).createCoins delta.created mayOverwriteUtxo).utxoStore).lookup o ≠
        none := present
    rw [createdStore, store] at present
    split at present
    · rename_i persisted
      rw [applyBatch, lookup_insertAll] at present
      by_cases created : o ∈ keys delta.created
      · exact .inr ⟨persisted, created⟩
      · rw [lastWrite_eq_none.mpr created, Option.none_or, lookup_eraseAll] at present
        split at present
        · exact absurd rfl present
        · exact .inl present
    · exact .inl present

theorem connectBlock_frame (view : CoinView) (application : BlockApplication) (delta : ChainstateDelta) (height : ℕ)
    (mayOverwriteUtxo : Bool) :
    (view.connectBlock application delta height mayOverwriteUtxo false).utxosMaterialized = view.utxosMaterialized ∧
      (view.connectBlock application delta height mayOverwriteUtxo false).utxoStore = view.utxoStore := by
  let invalidated := { view with
    missingUtxoCache := view.missingUtxoCache.removeAll (application.createdEntries.toList.map Prod.fst) }
  have residence := invalidated.spendBlock_residence application height
  obtain ⟨materialized, store, -⟩ :=
    createCoins_utxos (invalidated.spendBlock application height) delta.created mayOverwriteUtxo
  exact ⟨materialized.trans (congrArg Prod.fst residence), store.trans (congrArg (·.2.1) residence)⟩

end sound

end CoinView

namespace ChainState
variable [HashOrder OutPoint]
variable {st : ChainState} {commonHeight : ℕ} {o : OutPoint}

theorem connect_cacheSound {st' : ChainState} {block : Block} {syncStorage : Bool} (sound : st.coins.CacheSound)
    (connected : st.connectBlockInternal block true syncStorage = .ok st')
    (invalidates : st.coins.utxosMaterialized = true ∨ st.coins.coinStats.isSome = true ∨
      ∀ coinbase ∈ block.txdata.head?, ∀ o ∈ coinbase.spendableOutpoints, o ∉ st.coins.missingUtxoCache.entries) :
    st'.coins.CacheSound := by
  obtain ⟨previousNode, stats, application, undone, connection⟩ := connectBlockInternal_ok connected
  obtain ⟨coinbase, rest, ledger, resolved⟩ := validateBlockTransactions_ok connection.valid
  obtain ⟨records, undo, -, rfl⟩ := connection.state
  intro o member
  obtain ⟨cached, resident, stored⟩ := st.coins.connectBlock_cases application
    (st.nextDelta block application true syncStorage) (st.height + 1)
    (isBip30Repeat st.config.params.network (st.height + 1) block.blockHash) true o
  obtain ⟨old, uncreated, on⟩ := cached member
  have uncreated : o ∉ keys (st.nextDelta block application true syncStorage).created := by
    rcases invalidates with resident | counted | absent
    · exact on (.inl resident)
    · exact on (.inr counted)
    · intro created
      rcases resolved.new_cases (resolved.delta_keys.mp created) with other | minted
      · exact other uncreated
      · exact absent coinbase (by rw [resolved.txdata]; rfl) o minted old
  constructor
  · by_contra present
    rcases stored present with before | ⟨-, created⟩
    · exact before (sound o old).1
    · exact uncreated created
  · by_contra present
    rcases resident present with before | ⟨-, created⟩
    · exact before (sound o old).2
    · exact uncreated created

/-- What a replay on top of a rewound state keeps: the resident map is in use, the stored map is untouched, and what is
still cached was cached before and is not in the resident map. -/
structure Replaying (origin st : ChainState) : Prop where
  resident : st.coins.utxosMaterialized = true
  stored : st.coins.utxoStore = origin.coins.utxoStore
  cached : ∀ o ∈ st.coins.missingUtxoCache.entries,
    o ∈ origin.coins.missingUtxoCache.entries ∧ st.coins.utxos.lookup o = none

theorem Replaying.connect {origin st st' : ChainState} {block : Block} (replaying : Replaying origin st)
    (connected : st.connectBlockInternal block false true = .ok st') :
    Replaying origin st' ∧ (∀ o ∈ st'.coins.missingUtxoCache.entries, o ∈ st.coins.missingUtxoCache.entries) ∧
      ∀ o ∈ block.newOutpoints, o ∉ st'.coins.missingUtxoCache.entries := by
  obtain ⟨previousNode, stats, application, undone, connection⟩ := connectBlockInternal_ok connected
  obtain ⟨coinbase, rest, ledger, resolved⟩ := validateBlockTransactions_ok connection.valid
  obtain ⟨records, undo, -, rfl⟩ := connection.state
  have cases := st.coins.connectBlock_cases application (st.nextDelta block application false true) (st.height + 1)
    (isBip30Repeat st.config.params.network (st.height + 1) block.blockHash) false
  obtain ⟨resident, stored⟩ := st.coins.connectBlock_frame application (st.nextDelta block application false true)
    (st.height + 1) (isBip30Repeat st.config.params.network (st.height + 1) block.blockHash)
  refine ⟨⟨resident.trans replaying.resident, stored.trans replaying.stored, ?_⟩, ?_, ?_⟩
  · intro o member
    obtain ⟨old, -, on⟩ := (cases o).1 member
    refine ⟨(replaying.cached o old).1, ?_⟩
    by_contra present
    rcases (cases o).2.1 present with before | ⟨-, created⟩
    · exact before (replaying.cached o old).2
    · exact on (.inl replaying.resident) created
  · exact fun o member => ((cases o).1 member).1
  · intro o new member
    exact ((cases o).1 member).2.2 (.inl replaying.resident) (resolved.delta_keys.mpr new)

theorem Replaying.connectAll {origin st : ChainState} {blocks : List Block} (replaying : Replaying origin st) :
    Replaying origin (connectAll st blocks).2 ∧
      (∀ o ∈ (connectAll st blocks).2.coins.missingUtxoCache.entries, o ∈ st.coins.missingUtxoCache.entries) ∧
      ((connectAll st blocks).1 = .ok () → ∀ block ∈ blocks, ∀ o ∈ block.newOutpoints,
        o ∉ (connectAll st blocks).2.coins.missingUtxoCache.entries) := by
  induction blocks generalizing st with
  | nil => exact ⟨replaying, fun _ member => member, fun _ _ none => by cases none⟩
  | cons block blocks ih =>
    unfold ChainState.connectAll
    split
    · rename_i next connected
      obtain ⟨kept, shrinks, new⟩ := replaying.connect connected
      obtain ⟨kept', shrinks', new'⟩ := ih kept
      refine ⟨kept', fun o member => shrinks o (shrinks' o member), ?_⟩
      intro done b member o fresh cached
      rcases mem_cons.mp member with rfl | later
      · exact new o fresh (shrinks' o cached)
      · exact new' done b later o fresh cached
    · exact ⟨replaying, fun _ member => member, fun done => by cases done⟩

omit [HashOrder OutPoint] in
theorem dryConnect_new {candidates : List (Block × ℕ)} {utxos utxos' : UtxoMap}
    (run : candidates.foldlM (st.dryConnect commonHeight) utxos = .ok utxos')
    (present : utxos'.lookup o ≠ none) : utxos.lookup o ≠ none ∨ ∃ candidate ∈ candidates, o ∈ candidate.1.newOutpoints := by
  refine foldlM_invariant (fun passed reached => reached.lookup o ≠ none →
    utxos.lookup o ≠ none ∨ ∃ candidate ∈ passed, o ∈ candidate.1.newOutpoints) ?_ run .inl present
  intro passed reached candidate next known connected there
  unfold dryConnect at connected
  obtain ⟨application, valid, connected⟩ := bind_ok connected
  cases connected
  obtain ⟨coinbase, rest, ledger, resolved⟩ := validateBlockTransactions_ok valid
  rw [resolved.entries, if_pos (by rfl)] at there
  rcases resolved.lookup_apply there with before | new
  · rcases known before with start | ⟨earlier, member, here⟩
    · exact .inl start
    · exact .inr ⟨earlier, mem_append_left _ member, here⟩
  · exact .inr ⟨candidate, by simp, new⟩

omit [Library] in
theorem lookup_netBatch {stored before after : UtxoMap}
    (present : (netBatch stored before after).lookup o ≠ none) : stored.lookup o ≠ none ∨ after.lookup o ≠ none := by
  rw [netBatch, applyBatch, lookup_insertAll] at present
  rcases written : lastWrite (after.toList.filter fun coin => before.lookup coin.1 ≠ some coin.2) o with _ | entry
  · rw [written, Option.none_or, lookup_eraseAll] at present
    split at present
    · exact absurd rfl present
    · exact .inl present
  · refine .inr ?_
    have member := mem_toList.mp (mem_of_mem_filter (lastWrite_mem written))
    rw [member]
    exact Option.some_ne_none _

omit [Library] [HashOrder OutPoint] in
@[simp] theorem forgetSnapshotBase_coins (st : ChainState) (path : List BlockHash) :
    (st.forgetSnapshotBase path).coins = st.coins := by
  unfold forgetSnapshotBase
  split <;> rfl

theorem reorganise_cacheSound {path : List BlockHash} (sound : st.coins.CacheSound)
    (invalidates : ∀ plan, st.planSuffix path commonHeight = .ok (some plan) →
      ∀ o ∈ st.coins.missingUtxoCache.entries, plan.disconnectedUtxos.lookup o = none) :
    (st.activateChainFromPrunedSuffix path commonHeight).2.coins.CacheSound := by
  unfold activateChainFromPrunedSuffix
  split
  · exact sound
  · exact sound
  · rename_i plan planned
    obtain ⟨-, -, -, -, forth⟩ := planSuffix_ok planned
    have rewound : Replaying st (st.rewind path commonHeight plan.disconnectedUtxos) :=
      ⟨rfl, rfl, fun o member => ⟨member, invalidates plan planned o member⟩⟩
    obtain ⟨replayed, -, new⟩ := @Replaying.connectAll _ _ st _ plan.candidateBlocks rewound
    split
    · rename_i error next run
      rw [run] at replayed
      intro o member
      obtain ⟨old, resident⟩ := replayed.cached o member
      exact ⟨replayed.stored ▸ (sound o old).1, resident⟩
    · rename_i next run
      rw [run] at replayed new
      rw [forgetSnapshotBase_coins]
      intro o member
      replace member : o ∈ next.coins.missingUtxoCache.entries := member
      obtain ⟨old, -⟩ := replayed.cached o member
      refine ⟨?_, lookup_empty' o⟩
      by_contra present
      rcases lookup_netBatch present with stored | candidate
      · exact stored (replayed.stored ▸ (sound o old).1)
      · rcases dryConnect_new forth candidate with start | ⟨indexed, inside, fresh⟩
        · exact start (invalidates plan planned o old)
        · exact new rfl indexed.1 (fst_mem_of_mem_zipIdx inside) o fresh member

end ChainState

/-! ### Runs -/

variable [HashOrder OutPoint]

/-- The operations that read or change the coins. -/
inductive CacheAction where
  | lookup (outpoint : OutPoint)
  | connect (block : Block) (syncStorage : Bool)
  | reorganise (path : List BlockHash) (commonHeight : ℕ)

def ChainState.materialized (st : ChainState) : ChainState := { st with coins := st.coins.materializeUtxos }

def CacheAction.run (st : ChainState) : CacheAction → ChainState
  | lookup outpoint => { st with coins := (st.coins.utxoChecked outpoint).2 }
  | connect block syncStorage => match st.connectBlockInternal block true syncStorage with
    | .ok next => next
    | .error _ => st
  | reorganise path commonHeight => (st.materialized.activateChainFromPrunedSuffix path commonHeight).2

/-- No coin appears behind the back of the cache: a coinbase output of a block connected with neither a resident map nor
statistics is not cached, nor is a coin of the map a reorganisation goes back to. -/
def CacheAction.Invalidates (st : ChainState) : CacheAction → Prop
  | lookup _ => True
  | connect block _ => st.coins.utxosMaterialized = true ∨ st.coins.coinStats.isSome = true ∨
      ∀ coinbase ∈ block.txdata.head?, ∀ o ∈ coinbase.spendableOutpoints, o ∉ st.coins.missingUtxoCache.entries
  | reorganise path commonHeight => ∀ plan, st.materialized.planSuffix path commonHeight = .ok (some plan) →
      ∀ o ∈ st.coins.missingUtxoCache.entries, plan.disconnectedUtxos.lookup o = none

inductive CacheRun (start : ChainState) : ChainState → Prop where
  | start : CacheRun start start
  | step {st : ChainState} (action : CacheAction) : CacheRun start st → action.Invalidates st →
      CacheRun start (action.run st)

omit [Library] [HashOrder OutPoint] in
theorem materialized_cacheSound {st : ChainState} (sound : st.coins.CacheSound) : st.materialized.coins.CacheSound := by
  unfold materialized CoinView.materializeUtxos
  split
  · exact sound
  · exact fun o member => ⟨(sound o member).1, (sound o member).1⟩

theorem CacheAction.cacheSound {st : ChainState} {action : CacheAction} (sound : st.coins.CacheSound)
    (invalidates : action.Invalidates st) : (action.run st).coins.CacheSound := by
  cases action with
  | lookup outpoint => exact (sound.utxoChecked outpoint).1
  | connect block syncStorage =>
    simp only [CacheAction.run]
    split
    · rename_i next connected
      exact connect_cacheSound sound connected invalidates
    · exact sound
  | reorganise path commonHeight =>
    refine reorganise_cacheSound (materialized_cacheSound sound) fun plan planned o member => ?_
    refine invalidates plan planned o ?_
    unfold materialized CoinView.materializeUtxos at member
    split at member <;> exact member

/-- Along a run in which no coin appears behind the back of the cache, a cached outpoint is no coin, and a lookup
returns the coin. -/
theorem missingUtxoCache_sound {start st : ChainState} (run : CacheRun start st)
    (empty : start.coins.missingUtxoCache.entries = ∅) :
    (∀ o ∈ st.coins.missingUtxoCache.entries, st.coins.utxoStore.lookup o = none ∧ st.coins.utxos.lookup o = none) ∧
    (∀ o, (st.coins.utxoChecked o).1 = (st.coins.utxoStore.lookup o).or (st.coins.utxos.lookup o)) ∧
    (st.coins.utxos = ∅ ∨ st.coins.utxos = st.coins.utxoStore →
      ∀ o, (st.coins.utxoChecked o).1 = st.coins.utxoStore.lookup o) := by
  have sound : st.coins.CacheSound := by
    induction run with
    | start => exact fun o member => absurd (empty ▸ member) (Finset.notMem_empty o)
    | step action _ invalidates ih => exact CacheAction.cacheSound ih invalidates
  refine ⟨sound, fun o => (sound.utxoChecked o).2, ?_⟩
  intro consistent o
  rw [(sound.utxoChecked o).2]
  rcases consistent with released | resident
  · rw [released, lookup_empty', Option.or_none]
  · rw [resident, Option.or_self]

omit [Library] [HashOrder OutPoint]

def sampleEmpty : Block := sampleBlock 1 [sampleCoinbase 1 5000000000]

/-- The lookup of an unrelated outpoint, followed by a block. -/
theorem missingUtxoCache_sound_sample : let _ := Library.sample
    let _ := OutPoint.sampleOrder
    let st := (CacheAction.connect sampleEmpty true).run ((CacheAction.lookup ⟨5, 0⟩).run (sample ∅))
    (st.coins.utxoChecked ⟨1001, 0⟩).1 = st.coins.utxoStore.lookup ⟨1001, 0⟩ := by
  intro _ _ st
  have run : CacheRun (sample ∅) st := by
    refine CacheRun.step _ (CacheRun.step _ CacheRun.start trivial) (.inr (.inr ?_))
    intro coinbase head
    cases head
    decide +kernel
  exact (missingUtxoCache_sound run rfl).2.2 (.inl (by decide +kernel)) ⟨1001, 0⟩

/-- A coinbase output that was looked up before its block is connected stays cached as missing. -/
theorem missingUtxoCache_stale : let _ := Library.sample
    let _ := OutPoint.sampleOrder
    let st := (CacheAction.connect sampleEmpty true).run ((CacheAction.lookup ⟨1001, 0⟩).run (sample ∅))
    ⟨1001, 0⟩ ∈ st.coins.missingUtxoCache.entries ∧ (st.coins.utxoStore.lookup ⟨1001, 0⟩).isSome ∧
      (st.coins.utxoChecked ⟨1001, 0⟩).1 = none := by
  decide +kernel

end BitcoindRs
