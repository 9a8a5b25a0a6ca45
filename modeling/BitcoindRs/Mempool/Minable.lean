import BitcoindRs.Mempool.Coherent

/-! Every entry can go into the next block of the chain the pool has been reconciled with. -/

namespace BitcoindRs
open Relation Worklist Checked Result
variable [Library] [PolicyLibrary]

namespace Mempool

variable {pool : Mempool} {view : ChainView}
variable {q p : Mempool} {depth : Txid → ℕ} {tx : Transaction} {options : AcceptOptions} {txid : Txid}
variable {outpoint : OutPoint} {entry : MempoolEntry}

def Supported (view : ChainView) (pool : Mempool) : Prop :=
  ∀ txid entry, pool.entries.lookup txid = some entry → pool.minable view entry.transaction = true

omit [Library] [PolicyLibrary] in
theorem minable_congr (same : ∀ parent ∈ tx.inputTxids, q.entries.lookup parent = p.entries.lookup parent) :
    q.minable view tx = p.minable view tx := by
  have previous : tx.prevouts.mapM (q.previousEntry view) = tx.prevouts.mapM (p.previousEntry view) := by
    apply mapM_congr
    intro outpoint spends
    rw [previousEntry, previousEntry, same outpoint.txid (Transaction.mem_inputTxids.mpr ⟨outpoint, spends, rfl⟩)]
  rw [minable, minable, previous]

omit [Library] [PolicyLibrary] in
theorem minable_ok (ready : pool.minable view tx = true) :
    ∃ previousEntries, tx.prevouts.mapM (pool.previousEntry view) = .ok previousEntries ∧
      validateTransactionFinality tx (satAddU32 view.servingHeight 1) view.servingMedianTimePast true previousEntries = .ok () := by
  rw [minable] at ready
  rcases previous : tx.prevouts.mapM (pool.previousEntry view) with error | previousEntries
  · rw [previous] at ready
    cases ready
  · rw [previous] at ready
    obtain ⟨⟨⟩, final⟩ := exists_ok ready
    exact ⟨previousEntries, rfl, final⟩

/-- The input spends an output of an entry, or a coin of the chain that is not an immature coinbase. -/
def Covered (view : ChainView) (pool : Mempool) (outpoint : OutPoint) : Prop := match pool.entries.lookup outpoint.txid with
  | some parent => outpoint.vout < parent.transaction.output.length
  | none => ∃ coin, view.utxo.lookup outpoint = some coin ∧
      (coin.coinbase = true → satAddU32 coin.height coinbaseMaturity ≤ satAddU32 view.servingHeight 1)

omit [Library] [PolicyLibrary] in
theorem previousEntry_covered {entry : UtxoEntry} (found : pool.previousEntry view outpoint = .ok entry) :
    Covered view pool outpoint := by
  unfold previousEntry at found
  unfold Covered
  rcases parent : pool.entries.lookup outpoint.txid with _ | inside
  · rw [parent] at found
    obtain ⟨coin, there, found⟩ := bind_ok found
    obtain ⟨mature, -⟩ := guard_ok found
    exact ⟨coin, okOr_ok.mp there, fun coinbase => not_lt.mp fun early => mature ⟨coinbase, early⟩⟩
  · rw [parent] at found
    obtain ⟨output, there, -⟩ := bind_ok found
    exact (List.getElem?_eq_some_iff.mp (okOr_ok.mp there)).1

omit [Library] [PolicyLibrary] in
theorem minable_covered (ready : pool.minable view tx = true)
    (spends : outpoint ∈ tx.prevouts) : Covered view pool outpoint := by
  obtain ⟨previousEntries, previous, -⟩ := minable_ok ready
  obtain ⟨entry, -, found⟩ := forall₂_mem_right (mapM_ok_iff.mp previous).flip spends
  exact previousEntry_covered found

variable [HashOrder ℕ]

theorem Withdraws.lookup_parent (linked : Linked p) (out : Withdraws p q) {parent : Txid}
    (found : q.entries.lookup txid = some entry) (spends : parent ∈ entry.transaction.inputTxids) :
    q.entries.lookup parent = p.entries.lookup parent := by
  have before := out.leaves.entries found
  rcases there : p.entries.lookup parent with _ | other
  · rcases after : q.entries.lookup parent with _ | other
    · rfl
    · rw [out.leaves.entries after] at there
      cases there
  · have inside : p.contains parent = true := contains_iff.mpr ⟨other, there⟩
    have child : txid ∈ p.children parent := linked.mem_children.mpr (mem_parents.mpr ⟨entry, before, spends, inside⟩)
    have stays : q.contains parent = true := by
      by_contra gone
      have lost := out.closed parent inside (Bool.not_eq_true _ ▸ gone) txid child
      rw [contains_iff.mpr ⟨entry, found⟩] at lost
      cases lost
    obtain ⟨same, after⟩ := contains_iff.mp stays
    rw [after, ← there, out.leaves.entries after]

theorem minable_withdraws (linked : Linked p) (out : Withdraws p q)
    (found : q.entries.lookup txid = some entry) : q.minable view entry.transaction = p.minable view entry.transaction :=
  minable_congr fun _ spends => out.lookup_parent linked found spends

theorem Supported.withdraws (supported : Supported view pool) (linked : Linked pool) (out : Withdraws pool q) :
    Supported view q := by
  intro txid entry found
  rw [minable_withdraws linked out found]
  exact supported txid entry (out.leaves.entries found)

/-- The coins of the chain that carry a transaction's identifier are outputs of it, and it is younger than what it spends. -/
structure Genuine (depth : Txid → ℕ) (view : ChainView) (tx : Transaction) : Prop where
  outputs : ∀ outpoint coin, view.utxo.lookup outpoint = some coin → outpoint.txid = tx.computeTxid → outpoint ∈ tx.outpoints
  younger : ∀ parent ∈ tx.inputTxids, depth parent < depth tx.computeTxid

theorem Entering.unclaimed {roomy : Mempool} (entering : Entering view tx pool roomy)
    (supported : Supported view pool) (genuine : Genuine depth view tx) : Unclaimed pool tx := by
  have unspent : ∀ other : Transaction, pool.minable view other = true → tx.computeTxid ∉ other.inputTxids := by
    intro other ready claims
    obtain ⟨outpoint, spends, same⟩ := Transaction.mem_inputTxids.mp claims
    have covered := minable_covered ready spends
    unfold Covered at covered
    rw [same, entering.fresh] at covered
    obtain ⟨coin, found, -⟩ := covered
    rw [entering.notInChain outpoint (genuine.outputs outpoint coin found same)] at found
    cases found
  exact ⟨unspent tx entering.minable, fun txid entry found => unspent entry.transaction (supported txid entry found)⟩

theorem Supported.admits (supported : Supported view pool)
    (linked : Linked pool) (unclaimed : Unclaimed pool tx) (admits : Admits view tx options pool q) : Supported view q := by
  obtain ⟨roomy, candidate, entering, rfl, rfl⟩ := admits.entering
  have fresh := entering.freshRoomy
  have others : ∀ parent, parent ≠ candidate.entry.transaction.computeTxid →
      (roomy.insertEntry candidate options.recordSequence).entries.lookup parent = roomy.entries.lookup parent := by
    intro parent different
    rw [entries_insertEntry, FMap.lookup_insert_ite, if_neg different]
  intro txid entry found
  rcases (lookup_insertEntry fresh).mp found with ⟨rfl, rfl⟩ | before
  · rw [← entering.minable]
    apply minable_congr
    intro parent spends
    rw [others parent fun same => unclaimed.1 (same ▸ spends)]
    -- What the transaction spends has been spared.
    rcases there : pool.entries.lookup parent with _ | other
    · rcases after : roomy.entries.lookup parent with _ | other
      · rfl
      · rw [entering.out.leaves.entries after] at there
        cases there
    · obtain ⟨same, after⟩ := contains_iff.mp (entering.spared parent spends (contains_iff.mpr ⟨other, there⟩))
      rw [after, ← there, entering.out.leaves.entries after]
  · have ready := supported.withdraws linked entering.out txid entry before
    rw [← ready]
    apply minable_congr
    intro parent spends
    exact others parent fun same => unclaimed.2 txid entry (entering.out.leaves.entries before) (same ▸ spends)

theorem contains_foldl_removeRecursive (ids : List Txid) (pool : Mempool) (listed : txid ∈ ids) :
    (ids.foldl (fun pool txid => if pool.contains txid then pool.removeRecursive txid else pool) pool).contains txid = false := by
  have step : ∀ (pool : Mempool) (txid : Txid), Withdraws pool (if pool.contains txid then pool.removeRecursive txid else pool) := by
    intro pool txid
    split
    · exact withdraws_removeRecursive pool txid
    · exact .refl pool
  induction ids generalizing pool with
  | nil => cases listed
  | cons id ids ih =>
    rcases List.mem_cons.mp listed with rfl | later
    · have gone : (if pool.contains txid then pool.removeRecursive txid else pool).contains txid = false := by
        split
        · rw [removeRecursive, remove, contains_removeWithNotification]
          simp
        · rename_i absent
          exact Bool.not_eq_true _ ▸ absent
      by_contra stays
      rw [(withdraws_foldl step ids _).leaves.contains (Bool.not_eq_false _ ▸ stays)] at gone
      cases gone
    · exact ih _ later

theorem supported_removeForReorg (linked : Linked pool) (view : ChainView) : Supported view (pool.removeForReorg view) := by
  have out := withdraws_removeForReorg pool view
  intro txid entry found
  rw [minable_withdraws linked out found]
  by_contra unfit
  have before := out.leaves.entries found
  have listed : txid ∈ (HashOrder.elements pool.entries.keys).filter fun txid =>
      (pool.entries.lookup txid).any fun entry => !pool.minable view entry.transaction := by
    rw [List.mem_filter, HashOrder.mem, ← contains_iff_mem, before]
    exact ⟨contains_iff.mpr ⟨entry, before⟩, by simpa using unfit⟩
  have gone : (pool.removeForReorg view).contains txid = false := contains_foldl_removeRecursive _ pool listed
  rw [contains_iff.mpr ⟨entry, found⟩] at gone
  cases gone

def Grounded (depth : Txid → ℕ) (pool : Mempool) : Prop :=
  ∀ txid entry, pool.entries.lookup txid = some entry → ∀ parent ∈ entry.transaction.inputTxids, depth parent < depth txid

omit [HashOrder ℕ] in
theorem Grounded.leaves (grounded : Grounded depth pool) (leaves : Leaves pool q) :
    Grounded depth q := fun txid entry found => grounded txid entry (leaves.entries found)

theorem Grounded.admits
    (grounded : Grounded depth pool) (younger : ∀ parent ∈ tx.inputTxids, depth parent < depth tx.computeTxid)
    (admits : Admits view tx options pool q) : Grounded depth q := by
  obtain ⟨roomy, candidate, entering, rfl, rfl⟩ := admits.entering
  intro txid entry found
  rcases (lookup_insertEntry entering.freshRoomy).mp found with ⟨rfl, rfl⟩ | before
  · exact younger
  · exact grounded txid entry (entering.out.leaves.entries before)

theorem Grounded.feeds {offered : Transaction → Prop} {state state' : Mempool × List MempoolChange}
    (grounded : Grounded depth state.1) (younger : ∀ tx, offered tx → ∀ parent ∈ tx.inputTxids, depth parent < depth tx.computeTxid)
    (feeds : Feeds offered view state state') : Grounded depth state'.1 := by
  induction feeds with
  | refl => exact grounded
  | tail _ step ih =>
    cases step with
    | edit edit =>
      cases edit with
      | leave leave => exact ih.leaves (.single leave)
      | enter one _ admits => exact ih.admits (younger _ one) admits
      | rebuild => exact ih
    | take p handed => exact ih

/-- The pool with the chain it has last been reconciled with. Transactions are offered against that chain, and every change
of the chain is followed by a reconciliation. -/
inductive Kept (depth : Txid → ℕ) : ChainView → Mempool → Prop
  | new (view : ChainView) (policy : MempoolPolicy) (maxBytes : ℕ) (electrumIndexEnabled : Bool) (now : ℕ) :
      Kept depth view (Mempool.new policy maxBytes electrumIndexEnabled now)
  | maintain {view : ChainView} {pool : Mempool} (kept : Kept depth view pool) (operation : Operation)
      (upkeep : operation.maintains = true) (genuine : ∀ tx ∈ operation.offered, Genuine depth view tx) :
      Kept depth view (pool.perform ⟨view, operation⟩).1
  | reconcile {view : ChainView} {pool : Mempool} (kept : Kept depth view pool) (next : ChainView) (now : ℕ)
      (activated disconnected : List Block) (manualInvalidation : Bool)
      (younger : ∀ block ∈ disconnected, ∀ tx ∈ block.txdata, ∀ parent ∈ tx.inputTxids, depth parent < depth tx.computeTxid) :
      Kept depth next (pool.reconcile next now activated disconnected manualInvalidation).1

structure Sound (depth : Txid → ℕ) (view : ChainView) (pool : Mempool) : Prop where
  coherent : Coherent pool
  linked : Linked pool
  supported : Supported view pool
  grounded : Grounded depth pool

theorem Sound.withdraws (sound : Sound depth view pool) (out : Withdraws pool q) : Sound depth view q where
  coherent := sound.coherent.leaves out.leaves
  linked := sound.linked.leaves out.leaves
  supported := sound.supported.withdraws sound.linked out
  grounded := sound.grounded.leaves out.leaves

theorem Sound.rebuild (sound : Sound depth view pool) : Sound depth view pool.rebuildChildrenIndex :=
  ⟨sound.coherent.rebuild, linked_rebuild pool, sound.supported, sound.grounded⟩

theorem Sound.taken (sound : Sound depth view pool) : Sound depth view { pool with changes := [] } :=
  ⟨⟨sound.coherent.keyed, sound.coherent.spent, sound.coherent.distinct⟩, sound.linked, sound.supported, sound.grounded⟩

theorem Sound.unclaimed (sound : Sound depth view pool)
    (genuine : Genuine depth view tx) (admits : Admits view tx options pool q) : Unclaimed pool tx := by
  obtain ⟨roomy, -, entering, -⟩ := admits.entering
  exact entering.unclaimed sound.supported genuine

theorem Sound.admits (sound : Sound depth view pool)
    (genuine : Genuine depth view tx) (admits : Admits view tx options pool q) : Sound depth view q := by
  have unclaimed := sound.unclaimed genuine admits
  exact ⟨sound.coherent.admits admits, sound.linked.admits admits unclaimed, sound.supported.admits sound.linked unclaimed admits,
    sound.grounded.admits genuine.younger admits⟩

theorem Sound.offer {standing : AcceptOptions → Prop}
    (sound : Sound depth view pool) (genuine : Genuine depth view tx) (offer : Offer standing view tx pool q) : Sound depth view q := by
  cases offer with
  | declined out => exact sound.withdraws out
  | taken out _ admits tuned _ => exact ((sound.withdraws out).admits genuine admits).withdraws (.tuned tuned)

theorem sound_reconcile (coherent : Coherent pool) (grounded : Grounded depth pool) (next : ChainView) (now : ℕ)
    (activated disconnected : List Block) (manualInvalidation : Bool)
    (younger : ∀ block ∈ disconnected, ∀ tx ∈ block.txdata, ∀ parent ∈ tx.inputTxids, depth parent < depth tx.computeTxid) :
    Sound depth next (pool.reconcile next now activated disconnected manualInvalidation).1 := by
  have moves : Feeds (· ∈ disconnected.flatMap (·.txdata)) next (pool, []) _ :=
    reconcileBlocks_delivers pool now activated disconnected manualInvalidation []
  rw [reconcile]
  generalize pool.reconcileBlocks next now activated disconnected manualInvalidation = moved at moves
  have coherent : Coherent moved.1 := by
    refine Coherent.feeds ?_ moves
    exact coherent
  have grounded : Grounded depth moved.1 := by
    refine Grounded.feeds ?_ ?_ moves
    · exact grounded
    · intro tx listed
      obtain ⟨block, member, inside⟩ := List.mem_flatMap.mp listed
      exact younger block member tx inside
  have rebuilt : Grounded depth moved.1.rebuildChildrenIndex := grounded
  have linked := linked_rebuild moved.1
  have out := withdraws_removeForReorg moved.1.rebuildChildrenIndex next
  have cleared : Sound depth next (moved.1.rebuildChildrenIndex.removeForReorg next) :=
    ⟨coherent.rebuild.leaves out.leaves, linked.leaves out.leaves, supported_removeForReorg linked next,
      rebuilt.leaves out.leaves⟩
  exact (cleared.withdraws (withdraws_enforceSizeLimit _)).taken

theorem Kept.sound (kept : Kept depth view pool) : Sound depth view pool := by
  induction kept with
  | new view policy maxBytes electrumIndexEnabled now =>
    exact ⟨coherent_new policy maxBytes electrumIndexEnabled now, linked_new policy maxBytes electrumIndexEnabled now, nofun, nofun⟩
  | maintain _ operation upkeep genuine ih =>
    exact perform_maintains upkeep (fun p q sound out => sound.withdraws out) (fun p sound => sound.rebuild)
      (fun p sound => sound.taken) ih (fun tx listed p q sound offer => sound.offer (genuine tx listed) offer)
  | reconcile _ next now activated disconnected manualInvalidation younger ih =>
    exact sound_reconcile ih.coherent ih.grounded next now activated disconnected manualInvalidation younger

/-- In every pool that is kept up with the chain, each input of an entry spends another entry or a mature coin of the chain, no
output is spent twice, the entries do not depend on themselves, and every entry is final in the next block. -/
theorem kept_minable {depth : Txid → ℕ} (kept : Kept depth view pool) :
    (∀ txid entry, pool.entries.lookup txid = some entry → ∀ outpoint ∈ entry.transaction.prevouts, Covered view pool outpoint) ∧
    (∀ a b first second outpoint, pool.entries.lookup a = some first → pool.entries.lookup b = some second →
      outpoint ∈ first.transaction.prevouts → outpoint ∈ second.transaction.prevouts → a = b) ∧
    (∀ txid, ¬ TransGen (fun child parent => parent ∈ pool.parents child) txid txid) ∧
    ∀ txid entry, pool.entries.lookup txid = some entry → ∃ previousEntries,
      entry.transaction.prevouts.mapM (pool.previousEntry view) = .ok previousEntries ∧
      validateTransactionFinality entry.transaction (satAddU32 view.servingHeight 1) view.servingMedianTimePast true
        previousEntries = .ok () := by
  have sound := kept.sound
  refine ⟨?covered, ?once, ?acyclic, ?final⟩
  case covered => exact fun txid entry found outpoint spends => minable_covered (sound.supported txid entry found) spends
  case once => exact fun a b first second outpoint one other left right => sound.coherent.once one other left right
  case acyclic =>
    have older : ∀ {child ancestor}, TransGen (fun child parent => parent ∈ pool.parents child) child ancestor →
        depth ancestor < depth child := by
      intro child ancestor path
      have each : ∀ child parent, parent ∈ pool.parents child → depth parent < depth child := by
        intro child parent linked
        obtain ⟨entry, found, spends, -⟩ := mem_parents.mp linked
        exact sound.grounded child entry found parent spends
      induction path with
      | single linked => exact each _ _ linked
      | tail _ linked ih => exact (each _ _ linked).trans ih
    exact fun txid cycle => lt_irrefl _ (older cycle)
  case final => exact fun txid entry found => minable_ok (sound.supported txid entry found)

omit [Library] [PolicyLibrary] [HashOrder ℕ] in
theorem genuine_sample (younger : ∀ parent ∈ tx.inputTxids, parent < 1000 + tx.lockTime) : let _ := Library.sample
    Genuine id (sampleView [sampleOldCoin 7 0 100000]) tx := by
  let _ := Library.sample
  refine ⟨fun outpoint coin found same => ?_, younger⟩
  have only : outpoint = ⟨7, 0⟩ := by
    by_contra other
    rw [show (sampleView [sampleOldCoin 7 0 100000]).utxo.lookup outpoint = none from ?_] at found
    · cases found
    · exact (FMap.lookup_insert_ite ∅ ⟨7, 0⟩ outpoint _).trans ((if_neg other).trans (FMap.lookup_empty' outpoint))
  rw [only] at same
  have same : 7 = 1000 + tx.lockTime := same
  omega

omit [Library] [PolicyLibrary] [HashOrder ℕ] in
theorem kept_minable_sample : let _ := Library.sample
    let _ := PolicyLibrary.sample
    let _ := BlockHash.sampleOrder
    let view := sampleView [sampleOldCoin 7 0 100000]
    let tx := sampleSpend 1 [⟨7, 0⟩] [50000, 40000]
    let pool := ((samplePool {} 5000).perform ⟨view, .accept 0 tx⟩).1
    pool.contains 1001 = true ∧ ∀ outpoint ∈ tx.prevouts, Covered view pool outpoint := by
  intro _ _ _ view tx pool
  have kept : Kept id view pool := by
    refine .maintain (.new view {} 5000 false 0) (.accept 0 tx) rfl fun other listed => ?_
    rw [List.mem_singleton.mp listed]
    exact genuine_sample (by decide +kernel)
  have present : (pool.entries.lookup 1001).map (·.transaction) = some tx := by decide +kernel
  obtain ⟨entry, found, same⟩ := Option.map_eq_some_iff.mp present
  refine ⟨contains_iff.mpr ⟨entry, found⟩, ?_⟩
  rw [← same]
  exact (kept_minable kept).1 1001 entry found

end Mempool

end BitcoindRs
