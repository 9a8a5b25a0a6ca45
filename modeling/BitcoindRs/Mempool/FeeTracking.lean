import BitcoindRs.Mempool.Confirmed

/-! The fee estimator against the pool. -/

namespace BitcoindRs
open Relation Checked Result FMap List
variable [Library] [PolicyLibrary] [HashOrder ℕ]

namespace Mempool
variable {view : ChainView}
variable {pool : Mempool} {txid : Txid}

omit [HashOrder ℕ] in
theorem removeConfirmed_silent (keyed : pool.Keyed) (now : ℕ) (block : Block) :
    ∀ change ∈ silentRemovals (pool.removeConfirmed now block).changes,
      change ∈ silentRemovals pool.changes ∨ change.transaction.computeTxid ∈ block.txids := by
  have loop : ∀ (txs : List Transaction) (pool : Mempool), pool.Keyed → ∀ change ∈ silentRemovals (txs.foldl (fun pool tx =>
      let pool := pool.removeWithNotification tx.computeTxid false
      { pool with priorities := pool.priorities.erase tx.computeTxid }) pool).changes,
      change ∈ silentRemovals pool.changes ∨ change.transaction.computeTxid ∈ txs.map Transaction.computeTxid := by
    intro txs
    induction txs with
    | nil => exact fun _ _ change listed => .inl listed
    | cons tx txs ih =>
      intro pool keyed change listed
      have keyed' : ({ pool.removeWithNotification tx.computeTxid false with
          priorities := (pool.removeWithNotification tx.computeTxid false).priorities.erase tx.computeTxid } : Mempool).Keyed :=
        fun key entry found => keyed key entry (Leave.entries (.remove tx.computeTxid false) found)
      rcases ih _ keyed' change listed with early | late
      · change change ∈ silentRemovals (pool.removeWithNotification tx.computeTxid false).changes at early
        rcases found : pool.entries.lookup tx.computeTxid with _ | entry
        · rw [removeWithNotification_absent found] at early
          exact .inl early
        · rw [removeWithNotification_present found, silentRemovals, filter_append, mem_append] at early
          rcases early with old | new
          · exact .inl old
          · rw [mem_singleton.mp (mem_filter.mp new).1]
            exact .inr (mem_cons.mpr (.inl (keyed _ entry found)))
      · exact .inr (mem_cons_of_mem _ late)
  exact loop block.txdata pool keyed

theorem blockChanges_confirmed (now : ℕ) (blocks : List Block) (keyed : pool.Keyed)
    (start : silentRemovals pool.changes = [])
    (confirmed : txid ∈ confirmedIn ((blockChanges now pool blocks).flatMap Prod.snd)) : ∃ block ∈ blocks, txid ∈ block.txids := by
  induction blocks generalizing pool with
  | nil => cases confirmed
  | cons block rest ih =>
    have out := withdraws_removeConflicts pool block
    have conflictsKeyed : (pool.removeConflicts block).Keyed := fun key entry found => keyed key entry (out.leaves.entries found)
    rw [blockChanges, flatMap_cons, confirmedIn, silentRemovals, filter_append, map_append, mem_append] at confirmed
    rcases confirmed with here | later
    · obtain ⟨change, listed, rfl⟩ := mem_map.mp here
      rcases removeConfirmed_silent conflictsKeyed now block change listed with old | new
      · rw [out.announced, start] at old
        cases old
      · exact ⟨block, mem_cons_self, new⟩
    · have next : (((pool.removeConflicts block).removeConfirmed now block).takeChanges.2).Keyed := fun key entry found =>
        conflictsKeyed key entry ((leaves_removeConfirmed (pool.removeConflicts block) now block).entries found)
      obtain ⟨b, listed, member⟩ := ih next rfl later
      exact ⟨b, mem_cons_of_mem _ listed, member⟩

theorem exact_queued (blocks : List Block) (state : Mempool × DisconnectedTransactionPool) (start : state.2.Exact) :
    (blocks.foldl queueDisconnected state).2.Exact := by
  induction blocks generalizing state with
  | nil => exact start
  | cons block blocks ih => exact ih _ (start.addBlock block)

theorem beforeRestore_once (view : ChainView) (keyed : pool.Keyed) (taken : pool.changes = []) (now : ℕ)
    (activated disconnected : List Block) (manualInvalidation : Bool) (txid : Txid) :
    Once txid ((pool.beforeRestore now activated disconnected manualInvalidation).1,
        (blockChanges now (pool.beforeBlocks disconnected manualInvalidation) activated).flatMap Prod.snd) ∧
      ∀ tx ∈ (pool.beforeRestore now activated disconnected manualInvalidation).2.transactions, ∀ block ∈ activated,
        tx.computeTxid ∉ block.txids := by
  have start : Once txid (pool, []) := by
    have nothing : about txid ([] ++ pool.changes) = [] := by rw [taken]; rfl
    exact ⟨keyed, fun _ => nothing, by dsimp only; rw [nothing]; exact Nat.zero_le _⟩
  have empty : DisconnectedTransactionPool.Exact {} := ⟨nodup_nil, fun _ => by simp⟩
  unfold beforeRestore beforeBlocks
  cases manualInvalidation with
  | true =>
    have connected : Delivers (fun _ => False) view pool _ := connectBlocks_delivers now activated (Edits.delivers .refl)
    have queued := queueAllDisconnected_withdraws (disconnected.reverse.take 10)
      ((activated.foldl (connectBlock now) (pool, [])).1, {})
    have cleared := queued.trans (removeDisconnected_withdraws _ (disconnected.reverse.drop 10))
    have once := Once.feeds (connected.edits cleared.edits []) start
    rw [nil_append, connectBlocks_handed] at once
    refine ⟨once, ?_⟩
    intro tx member
    exact ((exact_queued _ _ empty).removeForBlocks activated tx member).2
  | false =>
    have queued := queueAllDisconnected_withdraws disconnected.reverse (pool, {})
    have connected : Delivers (fun _ => False) view pool _ := connectBlocks_delivers now activated queued.edits.delivers
    have once := Once.feeds (connected []) start
    rw [nil_append, connectBlocks_handed] at once
    refine ⟨once, ?_⟩
    intro tx member
    exact ((exact_queued _ _ empty).removeForBlocks activated tx member).2

theorem confirmed_gone (keyed : pool.Keyed) (taken : pool.changes = []) (now : ℕ)
    (activated disconnected : List Block) (manualInvalidation : Bool)
    (confirmed : txid ∈ confirmedIn
      ((blockChanges now (pool.beforeBlocks disconnected manualInvalidation) activated).flatMap Prod.snd)) :
    (pool.reconcile view now activated disconnected manualInvalidation).1.entries.lookup txid = none ∧
      ¬announcesRemoval (pool.reconcile view now activated disconnected manualInvalidation).2 txid := by
  obtain ⟨once, unqueued⟩ := beforeRestore_once view keyed taken now activated disconnected manualInvalidation txid
  have beforeKeyed : (pool.beforeBlocks disconnected manualInvalidation).Keyed ∧
      silentRemovals (pool.beforeBlocks disconnected manualInvalidation).changes = [] := by
    unfold beforeBlocks
    cases manualInvalidation with
    | true => exact ⟨keyed, by rw [if_pos rfl, taken]; rfl⟩
    | false =>
      have out := queueAllDisconnected_withdraws disconnected.reverse (pool, {})
      refine ⟨fun key entry found => keyed key entry (out.leaves.entries found), out.announced.trans ?_⟩
      rw [taken]
      rfl
  obtain ⟨block, activated', mined⟩ := blockChanges_confirmed now activated beforeKeyed.1 beforeKeyed.2 confirmed
  rw [reconcile, reconcileBlocks_eq]
  generalize (blockChanges now (pool.beforeBlocks disconnected manualInvalidation) activated).flatMap Prod.snd = log at once confirmed
  generalize pool.beforeRestore now activated disconnected manualInvalidation = state at once unqueued
  obtain ⟨change, silent, named⟩ := mem_map.mp confirmed
  obtain ⟨inLog, kind⟩ := mem_filter.mp silent
  have recorded : change ∈ about txid log := mem_filter.mpr ⟨inLog, decide_eq_true named⟩
  -- The silent record is the only one, so the transaction is not in the pool.
  have count := once.absent
  dsimp only at count
  rw [about_append, length_append] at count
  have positive : 0 < (about txid log).length := length_pos_of_mem recorded
  have single : about txid log = [change] := by
    obtain ⟨only, same⟩ := length_eq_one_iff.mp (show (about txid log).length = 1 by omega)
    rw [same, mem_singleton] at recorded
    rw [same, recorded]
  have absent : state.1.entries.lookup txid = none := by
    by_contra present
    have none_ := once.present present
    dsimp only at none_
    rw [about_append, single] at none_
    cases none_
  have gone : Gone txid [] state.1 :=
    ⟨once.keyed, absent, length_eq_zero_iff.mp (by omega)⟩
  have restored : Edits (fun tx => tx.computeTxid ≠ txid) view state.1 (restore view now state.1 state.2) := by
    refine (restore_offers state.1 now state.2).edits Restoring.records fun tx listed same => ?_
    have queued : tx ∈ state.2.transactions := mem_reverse.mp (mem_filter.mp listed).1
    exact unqueued tx queued block activated' (same ▸ mined)
  have final := Gone.edits (((restored.tail .rebuild).trans (withdraws_removeForReorg _ view).edits).trans
    (withdraws_enforceSizeLimit _).edits) gone
  refine ⟨final.absent, ?_⟩
  rintro ⟨record, listed, about_, announced⟩
  have member : record ∈ about txid (log ++
      ((restore view now state.1 state.2).rebuildChildrenIndex.removeForReorg view).enforceSizeLimit.changes) :=
    mem_filter.mpr ⟨listed, decide_eq_true about_⟩
  rw [about_append, single, final.records, append_nil, mem_singleton] at member
  rw [member, of_decide_eq_true kind] at announced
  cases announced

omit [PolicyLibrary] [HashOrder ℕ] in
/-- A transaction that has left between two calls of `take_changes` has the record of a removal. -/
theorem removal_recorded {handed changes : List MempoolChange} {pool' : Mempool} (before : Recorded handed [] pool)
    (taken : pool.changes = []) (after : Recorded (handed ++ changes) [] pool') (taken' : pool'.changes = [])
    (inside : pool.entries.lookup txid ≠ none) (outside : pool'.entries.lookup txid = none) :
    ∃ change ∈ changes, change.transaction.computeTxid = txid ∧ change.kind ≠ .added := by
  have keeps : ∀ (changes : List MempoolChange) (held : FMap Txid Transaction), held.lookup txid ≠ none →
      (∀ change ∈ changes, change.transaction.computeTxid = txid → change.kind = .added) →
      (replay held changes).lookup txid ≠ none := by
    intro changes
    induction changes with
    | nil => exact fun held present _ => present
    | cons change changes ih =>
      intro held present additions
      refine ih _ ?_ fun other listed => additions other (mem_cons_of_mem _ listed)
      unfold MempoolChange.apply
      rcases kind : change.kind with _ | notify
      · dsimp only
        rw [lookup_insert_ite]
        split
        · exact Option.some_ne_none _
        · exact present
      · dsimp only
        rw [lookup_erase_ite]
        split
        · rename_i same
          rw [additions change mem_cons_self same.symm] at kind
          cases kind
        · exact present
  by_contra none_
  have first := before.replayed txid
  have last := after.replayed txid
  rw [taken, append_nil, find?_nil, Option.or_none] at first
  rw [taken', append_nil, find?_nil, Option.or_none, outside, replay_append] at last
  refine keeps changes (replay ∅ handed) ?_ ?_ last
  · rw [first]
    simpa using inside
  · intro change listed same
    by_contra other
    exact none_ ⟨change, listed, same, other⟩

end Mempool

structure FeeNode where
  pool : Mempool
  estimator : FeeEstimator

namespace FeeNode
open Mempool
variable {node : FeeNode} {handed : List MempoolChange} {pool : Mempool}

inductive Event where
  /-- A call that changes the pool; its changes are taken and passed on. -/
  | change (event : Mempool.Event) (outside : event.operation.outsideBlocks)
  /-- `reconcile_mempool_after_chain_change`, with the heights of the indexed blocks. -/
  | reconcile (view : ChainView) (now : ℕ) (activated disconnected : List Block) (manualInvalidation : Bool)
      (heightOf : BlockHash → Option ℕ)

def step (node : FeeNode) : Event → FeeNode
  | .change event _ =>
    let done := node.pool.perform event
    let taken := done.1.takeChanges
    ⟨taken.2, taken.2.updateFeeEstimatorForChangesExcept node.estimator (done.2 ++ taken.1) ∅⟩
  | .reconcile view now activated disconnected manualInvalidation heightOf =>
    let done := node.pool.reconcile view now activated disconnected manualInvalidation
    let restoring := node.pool.beforeRestore now activated disconnected manualInvalidation
    let blocks := feeBlockChanges heightOf now (node.pool.beforeBlocks disconnected manualInvalidation) activated
    ⟨done.1, done.1.updateFeeEstimatorForChangesExcept (node.estimator.processBlocks blocks) done.2
      (restoredTxids view now restoring.1 restoring.2)⟩

def Follows (node : FeeNode) : Prop := ∀ txid, node.estimator.tracks txid → node.pool.entries.lookup txid ≠ none

/-- Every tracked transaction that an activated block confirms is confirmed above the best height of the estimator, at the
turn of that block. -/
def ConfirmedAbove (node : FeeNode) : Event → Prop
  | .change _ _ => True
  | .reconcile _ now activated disconnected manualInvalidation heightOf =>
    let before := node.pool.beforeBlocks disconnected manualInvalidation
    ∀ txid, node.estimator.tracks txid → txid ∈ confirmedIn ((blockChanges now before activated).flatMap Prod.snd) →
      txid ∈ FeeEstimator.processed node.estimator.bestHeight (feeBlockChanges heightOf now before activated)

structure Tidy (node : FeeNode) : Prop where
  recorded : ∃ handed, Recorded handed [] node.pool
  taken : node.pool.changes = []

omit [PolicyLibrary] [HashOrder ℕ] in
theorem recorded_take (recorded : Recorded handed [] pool) :
    Recorded (handed ++ pool.changes) [] pool.takeChanges.2 := by
  have whole : (handed ++ pool.changes) ++ [] = handed ++ pool.changes := append_nil _
  exact ⟨recorded.keyed, by rw [show pool.takeChanges.2.changes = [] from rfl, whole]; exact recorded.replayed,
    by rw [show pool.takeChanges.2.changes = [] from rfl, whole]; exact recorded.numbered,
    by rw [show pool.takeChanges.2.changes = [] from rfl, whole]; exact recorded.counter⟩

theorem Tidy.step (tidy : Tidy node) (event : Event) : Tidy (node.step event) := by
  obtain ⟨⟨handed, recorded⟩, taken⟩ := tidy
  cases event with
  | change event outside => exact ⟨⟨_, recorded_take (recorded.perform event)⟩, rfl⟩
  | reconcile view now activated disconnected manualInvalidation heightOf =>
    exact ⟨⟨_, recorded.perform ⟨view, .reconcile now activated disconnected manualInvalidation⟩⟩, rfl⟩

omit [PolicyLibrary] [HashOrder ℕ] in
theorem follows_iff {changes : List MempoolChange} {estimator : FeeEstimator}
    (excluded : Finset Txid) {processed : List Txid} (recorded : Recorded handed [] node.pool) (taken : node.pool.changes = [])
    (after : Recorded (handed ++ changes) [] pool) (taken' : pool.changes = []) (follows : node.Follows)
    (counted : ∀ txid, estimator.tracks txid ↔ node.estimator.tracks txid ∧ txid ∉ processed)
    (gone : ∀ txid ∈ confirmedIn changes, pool.entries.lookup txid = none ∧ ¬announcesRemoval changes txid) :
    Follows ⟨pool, pool.updateFeeEstimatorForChangesExcept estimator changes excluded⟩ ↔
      ∀ txid, node.estimator.tracks txid → txid ∈ confirmedIn changes → txid ∈ processed := by
  constructor
  · intro follows' txid tracked confirmed
    obtain ⟨absent, unannounced⟩ := gone txid confirmed
    by_contra unprocessed
    refine follows' txid ?_ absent
    exact (tracks_updateFeeEstimator absent changes estimator).mpr
      ⟨(counted txid).mpr ⟨tracked, unprocessed⟩, unannounced⟩
  · intro met txid tracked absent
    obtain ⟨before, unannounced⟩ := (tracks_updateFeeEstimator absent changes estimator).mp tracked
    obtain ⟨tracked, unprocessed⟩ := (counted txid).mp before
    obtain ⟨change, listed, named, kind⟩ := removal_recorded recorded taken after taken' (follows txid tracked) absent
    refine unprocessed (met txid tracked ?_)
    refine mem_map.mpr ⟨change, mem_filter.mpr ⟨listed, ?_⟩, named⟩
    rcases notified : change.kind with _ | notify
    · exact absurd notified kind
    · cases notify with
      | true => exact absurd ⟨change, listed, named, notified⟩ unannounced
      | false => rfl

theorem step_follows_iff (tidy : Tidy node) (follows : node.Follows) (event : Event) :
    (node.step event).Follows ↔ node.ConfirmedAbove event := by
  obtain ⟨⟨handed, recorded⟩, taken⟩ := tidy
  cases event with
  | change event outside =>
    have silent := perform_announced outside taken
    have after := recorded_take (recorded.perform event)
    rw [append_assoc] at after
    have nothing : ∀ txid, txid ∉ confirmedIn ((node.pool.perform event).2 ++ (node.pool.perform event).1.changes) := by
      intro txid confirmed
      unfold confirmedIn at confirmed
      rw [silent] at confirmed
      cases confirmed
    have counted : ∀ txid, node.estimator.tracks txid ↔ node.estimator.tracks txid ∧ txid ∉ ([] : List Txid) := by simp
    have exactly := follows_iff ∅ recorded taken after rfl follows counted fun txid confirmed => absurd confirmed (nothing txid)
    exact exactly.trans ⟨fun _ => trivial, fun _ txid _ confirmed => absurd confirmed (nothing txid)⟩
  | reconcile view now activated disconnected manualInvalidation heightOf =>
    have same : confirmedIn (node.pool.reconcile view now activated disconnected manualInvalidation).2 =
        confirmedIn ((blockChanges now (node.pool.beforeBlocks disconnected manualInvalidation) activated).flatMap Prod.snd) :=
      congrArg (List.map _) (reconcile_announced taken now activated disconnected manualInvalidation)
    have exactly := follows_iff (restoredTxids view now
        (node.pool.beforeRestore now activated disconnected manualInvalidation).1
        (node.pool.beforeRestore now activated disconnected manualInvalidation).2) recorded taken
      (recorded.perform ⟨view, .reconcile now activated disconnected manualInvalidation⟩) rfl follows
      (fun txid => FeeEstimator.tracks_processBlocks
        (feeBlockChanges heightOf now (node.pool.beforeBlocks disconnected manualInvalidation) activated) node.estimator txid)
      (by
        intro txid confirmed
        exact confirmed_gone recorded.keyed taken now activated disconnected manualInvalidation (same ▸ confirmed))
    refine exactly.trans ?_
    show (∀ txid, node.estimator.tracks txid → txid ∈ confirmedIn (node.pool.reconcile view now activated disconnected
      manualInvalidation).2 → _) ↔ _
    rw [same]
    rfl

def Throughout (property : FeeNode → Prop) : FeeNode → List Event → Prop
  | _, [] => True
  | node, event :: rest => property (node.step event) ∧ Throughout property (node.step event) rest

def Along (condition : FeeNode → Event → Prop) : FeeNode → List Event → Prop
  | _, [] => True
  | node, event :: rest => condition node event ∧ Along condition (node.step event) rest

theorem throughout_iff (events : List Event) (tidy : Tidy node) (follows : node.Follows) :
    Throughout Follows node events ↔ Along ConfirmedAbove node events := by
  induction events generalizing node with
  | nil => exact Iff.rfl
  | cons event rest ih =>
    have one := step_follows_iff tidy follows event
    constructor
    · rintro ⟨here, later⟩
      exact ⟨one.mp here, (ih (tidy.step event) here).mp later⟩
    · rintro ⟨here, later⟩
      have next := one.mpr here
      exact ⟨next, (ih (tidy.step event) next).mpr later⟩

def trackLoaded (pool : Mempool) (estimator : FeeEstimator) (loaded : Txid × MempoolEntry) : FeeEstimator :=
  let (txid, entry) := loaded
  if pool.hasMempoolParent entry.transaction then estimator
  else estimator.trackMempoolEntry txid entry.transaction entry.feeSat entry.vsize entry.height

/-- The node when it starts with a loaded pool: what the pool has recorded is dropped and its entries are tracked. -/
def start (pool : Mempool) (bestHeight : ℕ) : FeeNode :=
  ⟨pool.takeChanges.2, pool.entries.toList.foldl (trackLoaded pool) ⟨bestHeight, 0, ∅⟩⟩

omit [Library] [PolicyLibrary] in
theorem start_follows (pool : Mempool) (bestHeight : ℕ) : (start pool bestHeight).Follows := by
  have loop : ∀ (loaded : List (Txid × MempoolEntry)) (estimator : FeeEstimator),
      (∀ item ∈ loaded, pool.entries.lookup item.1 ≠ none) →
      (∀ txid, estimator.tracks txid → pool.entries.lookup txid ≠ none) →
      ∀ txid, (loaded.foldl (trackLoaded pool) estimator).tracks txid → pool.entries.lookup txid ≠ none := by
    intro loaded
    induction loaded with
    | nil => exact fun _ _ holds => holds
    | cons item loaded ih =>
      intro estimator listed holds
      refine ih _ (fun other member => listed other (mem_cons_of_mem _ member)) ?_
      intro txid tracked
      unfold trackLoaded at tracked
      dsimp only at tracked
      split at tracked
      · exact holds txid tracked
      · by_cases same : txid = item.1
        · rw [same]
          exact listed item mem_cons_self
        · exact holds txid ((tracks_trackMempoolEntry same).mp tracked)
  refine loop _ _ ?_ ?_
  · intro item member
    rw [mem_toList.mp member]
    exact Option.some_ne_none _
  · intro txid tracked
    exact absurd rfl tracked

/-- After a start with any pool, the estimator follows the pool after every call if and only if every activated block that
confirms a tracked transaction is above the best height of the estimator at its turn. -/
theorem feeEstimator_follows_iff (policy : MempoolPolicy) (maxBytes : ℕ) (electrumIndexEnabled : Bool) (now : ℕ)
    (loading : List Mempool.Event) (bestHeight : ℕ) (events : List Event) :
    let node := start ((Mempool.new policy maxBytes electrumIndexEnabled now).run loading).1 bestHeight
    Throughout Follows node events ↔ Along ConfirmedAbove node events := by
  intro node
  have recorded := (recorded_new policy maxBytes electrumIndexEnabled now).run loading
  exact throughout_iff events ⟨⟨_, recorded_take recorded⟩, rfl⟩ (start_follows _ bestHeight)

omit [Library] [PolicyLibrary] [HashOrder ℕ] in
/-- A payment is accepted at height 200 and confirmed by the block that replaces the tip at that height. -/
theorem feeEstimator_stale : let _ := Library.sample
    let _ := PolicyLibrary.sample
    let _ := BlockHash.sampleOrder
    let node := start (samplePool {} 1000000) 200
    let accepted := node.step (.change ⟨sampleView [sampleOldCoin 7 0 100000], .accept 0 samplePayment⟩ trivial)
    let reorganised := accepted.step (.reconcile (sampleView []) 0
      [sampleBlock 200 [sampleCoinbase 200 5000000000, samplePayment], sampleBlock 201 [sampleCoinbase 201 5000000000]]
      [sampleBlock 200 [sampleCoinbase 200 4000000000]] false some)
    accepted.estimator.tracked.lookup 1001 ≠ none ∧ accepted.pool.entries.lookup 1001 ≠ none ∧
      reorganised.estimator.tracked.lookup 1001 ≠ none ∧ reorganised.pool.entries.lookup 1001 = none := by
  intro _ _ _ node accepted reorganised
  refine ⟨?_, ?_, ?_, ?_⟩
  · decide +kernel
  · decide +kernel
  · decide +kernel
  · decide +kernel

end FeeNode

end BitcoindRs
