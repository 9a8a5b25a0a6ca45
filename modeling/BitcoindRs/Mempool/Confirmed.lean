import BitcoindRs.Mempool.FeeEstimator

/-! The records that a reconciliation leaves. -/

namespace BitcoindRs
open Relation Checked Result FMap List DisconnectedTransactionPool
variable [Library] [PolicyLibrary] [HashOrder ℕ]

namespace Mempool
variable {view : ChainView} {standing : AcceptOptions → Prop}
variable {p q pool : Mempool} {txid : Txid} {tx : Transaction} {known : List MempoolChange}

omit [HashOrder ℕ] [PolicyLibrary] in
theorem silentRemovals_insertEntry (pool : Mempool) (candidate : Candidate) (recordSequence : Bool) :
    silentRemovals (pool.insertEntry candidate recordSequence).changes = silentRemovals pool.changes := by
  rw [(changes_insertEntry pool candidate recordSequence).1, silentRemovals, filter_append]
  cases recordSequence <;> exact append_nil _

theorem Admits.announced {options : AcceptOptions} (admits : Admits view tx options p q) :
    silentRemovals q.changes = silentRemovals p.changes := by
  cases admits with
  | @enter decayed roomy checked addedAt tuned _ _ _ room =>
    have out := (withdraws_makeRoom decayed tx (decayed.candidate view tx addedAt checked).memoryUsage options).1
    rw [room] at out
    rw [silentRemovals_insertEntry]
    exact out.announced.trans (Withdraws.tuned tuned).announced

theorem Offer.announced (offer : Offer standing view tx p q) : silentRemovals q.changes = silentRemovals p.changes := by
  cases offer with
  | declined out => exact out.announced
  | taken out _ admits tuned _ =>
    exact (Withdraws.tuned tuned).announced.trans (admits.announced.trans out.announced)

theorem Offers.announced {txs : List Transaction} (offers : Offers standing view txs p q) :
    silentRemovals q.changes = silentRemovals p.changes := by
  induction offers with
  | done out => exact out.announced
  | next offer _ ih => exact ih.trans offer.announced

theorem revalidate_announced (pool : Mempool) (now : ℕ) :
    silentRemovals (pool.revalidate view now).changes = silentRemovals pool.changes := by
  have step : ∀ (p : Mempool) (entry : MempoolEntry),
      silentRemovals (pool.revalidateEntry view now p entry).changes = silentRemovals p.changes := by
    intro p entry
    unfold revalidateEntry
    dsimp only
    rcases acceptAtWithoutSequence_cases p view now entry.transaction entry.addedAt with ⟨error, same⟩ | ⟨checked, -, same⟩
    · rw [same]
      show silentRemovals (p.changes ++ [_]) = _
      rw [silentRemovals, filter_append]
      exact append_nil _
    · rw [same]
      exact silentRemovals_insertEntry p _ false
  exact foldl_frame (g := fun p : Mempool => silentRemovals p.changes) step _ _

def Operation.outsideBlocks : Operation → Prop
  | .removeConfirmed _ _ | .reconcile _ _ _ _ => False
  | _ => True

theorem perform_announced {event : Event} (outside : event.operation.outsideBlocks) (taken : pool.changes = []) :
    silentRemovals ((pool.perform event).2 ++ (pool.perform event).1.changes) = [] := by
  obtain ⟨view, operation⟩ := event
  have start : silentRemovals pool.changes = [] := by rw [taken]; rfl
  have handed : (pool.perform ⟨view, operation⟩).2 = [] := by
    cases operation with
    | takeChanges => exact taken
    | reconcile => exact outside.elim
    | _ => rfl
  rw [handed, nil_append]
  by_cases upkeep : operation.maintains = true
  · refine perform_maintains (P := fun p => silentRemovals p.changes = []) upkeep ?_ (fun _ holds => holds) (fun _ _ => rfl) start ?_
    · intro p q holds out
      exact out.announced.trans holds
    · intro tx _ p q holds offer
      exact offer.announced.trans holds
  · cases operation with
    | restore now queue =>
      have offers : Offers Restoring view _ pool (restore view now pool queue) := restore_offers pool now queue
      exact offers.announced.trans start
    | remove txid => exact (silentRemovals_remove pool txid).trans start
    | revalidate now => exact (revalidate_announced pool now).trans start
    | removeConfirmed => exact outside.elim
    | reconcile => exact outside.elim
    | _ => exact absurd rfl upkeep

theorem reconcile_announced (taken : pool.changes = []) (now : ℕ) (activated disconnected : List Block)
    (manualInvalidation : Bool) :
    silentRemovals (pool.reconcile view now activated disconnected manualInvalidation).2 =
      silentRemovals ((blockChanges now (pool.beforeBlocks disconnected manualInvalidation) activated).flatMap Prod.snd) := by
  have emptied : ∀ (blocks : List Block) (p : Mempool) (earlier : List MempoolChange), silentRemovals p.changes = [] →
      silentRemovals (blocks.foldl (connectBlock now) (p, earlier)).1.changes = [] := by
    intro blocks
    induction blocks with
    | nil => exact fun p _ holds => holds
    | cons block rest ih => exact fun p _ _ => ih _ _ rfl
  have start : silentRemovals pool.changes = [] := by rw [taken]; rfl
  have before : silentRemovals (pool.beforeRestore now activated disconnected manualInvalidation).1.changes = [] := by
    unfold beforeRestore
    cases manualInvalidation with
    | true =>
      have connected := emptied activated pool [] start
      have queued := queueAllDisconnected_withdraws (disconnected.reverse.take 10)
        ((activated.foldl (connectBlock now) (pool, [])).1, {})
      exact ((removeDisconnected_withdraws _ _).announced.trans queued.announced).trans connected
    | false =>
      refine emptied activated _ [] ?_
      exact (queueAllDisconnected_withdraws disconnected.reverse (pool, {})).announced.trans start
  rw [reconcile, reconcileBlocks_eq]
  dsimp only
  rw [silentRemovals, filter_append]
  generalize pool.beforeRestore now activated disconnected manualInvalidation = state at before
  have offers : Offers Restoring view _ state.1 (restore view now state.1 state.2) := restore_offers state.1 now state.2
  have late := (withdraws_enforceSizeLimit ((restore view now state.1 state.2).rebuildChildrenIndex.removeForReorg view)).announced
  have early := (withdraws_removeForReorg (restore view now state.1 state.2).rebuildChildrenIndex view).announced
  have nothing : silentRemovals (((restore view now state.1 state.2).rebuildChildrenIndex.removeForReorg view).enforceSizeLimit).changes =
      [] := late.trans (early.trans (offers.announced.trans before))
  rw [takeChanges]
  dsimp only
  rw [← silentRemovals, ← silentRemovals, nothing, append_nil]

def Keyed (pool : Mempool) : Prop := ∀ txid entry, pool.entries.lookup txid = some entry → entry.transaction.computeTxid = txid

def about (txid : Txid) (changes : List MempoolChange) : List MempoolChange :=
  changes.filter fun change => change.transaction.computeTxid = txid

omit [PolicyLibrary] [HashOrder ℕ] in
theorem about_append (txid : Txid) (first second : List MempoolChange) :
    about txid (first ++ second) = about txid first ++ about txid second := filter_append ..

/-- While entries only leave, a transaction that is there has no record and one that has left has at most one. -/
structure Once (txid : Txid) (state : Mempool × List MempoolChange) : Prop where
  keyed : state.1.Keyed
  present : state.1.entries.lookup txid ≠ none → about txid (state.2 ++ state.1.changes) = []
  absent : (about txid (state.2 ++ state.1.changes)).length ≤ 1

omit [HashOrder ℕ] in
theorem Once.leave {handed : List MempoolChange} (once : Once txid (p, handed))
    (leave : Leave p q) : Once txid (q, handed) := by
  have keyed : q.Keyed := fun key entry found => once.keyed key entry (leave.entries found)
  cases leave with
  | remove removed notify =>
    rcases found : p.entries.lookup removed with _ | entry
    · rw [removeWithNotification_absent found]
      exact once
    · have key := once.keyed removed entry found
      have changes : (p.removeWithNotification removed notify).changes =
          p.changes ++ [⟨entry.transaction, p.sequence, .removed notify, p.scriptsByTransaction.lookup removed⟩] := by
        rw [removeWithNotification_present found]
      refine ⟨keyed, ?_, ?_⟩
      · intro present
        dsimp only at present ⊢
        rw [entries_removeWithNotification, lookup_erase_ite] at present
        split at present
        · exact absurd rfl present
        · rename_i other
          rw [changes, ← append_assoc, about_append, once.present present]
          exact filter_eq_nil_iff.mpr fun change listed same => other (by
            rw [mem_singleton.mp listed] at same
            exact (of_decide_eq_true same).symm.trans key)
      · dsimp only
        rw [changes, ← append_assoc, about_append, length_append]
        by_cases same : txid = removed
        · subst same
          have none_ : about txid (handed ++ p.changes) = [] := once.present (by
            show p.entries.lookup txid ≠ none
            rw [found]
            exact Option.some_ne_none _)
          rw [none_]
          exact (Nat.zero_add _).trans_le (length_filter_le _ _)
        · have other : about txid [⟨entry.transaction, p.sequence, .removed notify, p.scriptsByTransaction.lookup removed⟩] = [] :=
            filter_eq_nil_iff.mpr fun change listed equal => same (by
              rw [mem_singleton.mp listed] at equal
              exact (of_decide_eq_true equal).symm.trans key)
          rw [other]
          exact once.absent
  | tune tuned =>
    have changes := tuned.field Mempool.changes fun _ => rfl
    refine ⟨keyed, ?_, ?_⟩
    · dsimp only
      rw [tuned.entries, changes]
      exact once.present
    · dsimp only
      rw [changes]
      exact once.absent

theorem Once.feeds {state state' : Mempool × List MempoolChange}
    (feeds : Feeds (fun _ => False) view state state') (once : Once txid state) : Once txid state' := by
  induction feeds with
  | refl => exact once
  | tail _ step ih =>
    cases step with
    | edit edit =>
      cases edit with
      | leave leave => exact ih.leave leave
      | enter never _ _ => exact never.elim
      | rebuild => exact ⟨ih.keyed, ih.present, ih.absent⟩
    | take p handed =>
      have whole : (handed ++ p.changes) ++ [] = handed ++ p.changes := append_nil _
      exact ⟨ih.keyed, by dsimp only; rw [whole]; exact ih.present, by dsimp only; rw [whole]; exact ih.absent⟩

/-- A transaction that is absent and not offered stays absent and gets no record. -/
structure Gone (txid : Txid) (known : List MempoolChange) (pool : Mempool) : Prop where
  keyed : pool.Keyed
  absent : pool.entries.lookup txid = none
  records : about txid pool.changes = known

omit [HashOrder ℕ] in
theorem Gone.leaves (gone : Gone txid known p) (leaves : Leaves p q) : Gone txid known q := by
  induction leaves with
  | refl => exact gone
  | tail _ leave ih =>
    rename_i m r _
    have keyed : r.Keyed := fun key entry found => ih.keyed key entry (leave.entries found)
    have absent : r.entries.lookup txid = none := by
      rcases found : r.entries.lookup txid with _ | entry
      · rfl
      · have earlier := leave.entries found
        rw [ih.absent] at earlier
        cases earlier
    refine ⟨keyed, absent, ?_⟩
    cases leave with
    | remove removed notify =>
      rcases found : m.entries.lookup removed with _ | entry
      · rw [removeWithNotification_absent found]
        exact ih.records
      · rw [removeWithNotification_present found]
        dsimp only
        rw [about_append, ih.records]
        have other : about txid [⟨entry.transaction, m.sequence, .removed notify, m.scriptsByTransaction.lookup removed⟩] = [] :=
          filter_eq_nil_iff.mpr fun change listed equal => by
            rw [mem_singleton.mp listed] at equal
            have key := ih.keyed removed entry found
            have same : removed = txid := key.symm.trans (of_decide_eq_true equal)
            rw [same, ih.absent] at found
            cases found
        rw [other, append_nil]
    | tune tuned =>
      rw [tuned.field Mempool.changes fun _ => rfl]
      exact ih.records

theorem Gone.edits
    (edits : Edits (fun tx => tx.computeTxid ≠ txid) view p q) (gone : Gone txid known p) : Gone txid known q := by
  induction edits with
  | refl => exact gone
  | tail _ edit ih =>
    cases edit with
    | leave leave => exact ih.leaves (.single leave)
    | rebuild => exact ⟨ih.keyed, ih.absent, ih.records⟩
    | @enter _ tx options other always admits =>
      cases admits with
      | @enter decayed roomy checked addedAt tuned _ _ _ room =>
        have out := (withdraws_makeRoom decayed tx (decayed.candidate view tx addedAt checked).memoryUsage options).1
        rw [room] at out
        have roomy := (ih.leaves (.single (.tune tuned))).leaves out.leaves
        refine ⟨keyed_insertEntry roomy.keyed _ _, ?_, ?_⟩
        · rw [entries_insertEntry, lookup_insert_ite]
          show (if txid = tx.computeTxid then _ else _) = none
          rw [if_neg (Ne.symm other)]
          exact roomy.absent
        · rw [(changes_insertEntry _ _ _).1, about_append, roomy.records]
          have unrelated : ∀ record : List MempoolChange, (∀ change ∈ record, change.transaction = tx) →
              about txid record = [] := fun record about_ =>
            filter_eq_nil_iff.mpr fun change listed equal => other (by
              rw [← about_ change listed]
              exact of_decide_eq_true equal)
          rw [unrelated, append_nil]
          intro change listed
          rw [always, if_pos rfl] at listed
          rw [mem_singleton.mp listed]
          rfl

end Mempool

namespace DisconnectedTransactionPool

/-- The identifiers are those of the queued transactions, each once. -/
structure Exact (queue : DisconnectedTransactionPool) : Prop where
  distinct : (queue.transactions.map Transaction.computeTxid).Nodup
  txids : ∀ txid, txid ∈ queue.txids ↔ txid ∈ queue.transactions.map Transaction.computeTxid

section
omit [HashOrder ℕ]

theorem Exact.queue {queue : DisconnectedTransactionPool} (exact_ : Exact queue) (tx : Transaction) :
    Exact (queue.queue tx) := by
  unfold DisconnectedTransactionPool.queue
  split
  · exact exact_
  · rename_i fresh
    rw [exact_.txids] at fresh
    constructor
    · dsimp only
      rw [map_append, nodup_append]
      refine ⟨exact_.distinct, nodup_singleton _, ?_⟩
      intro a listed b last same
      rw [map_singleton, mem_singleton] at last
      exact fresh (last ▸ same ▸ listed)
    · intro txid
      dsimp only
      rw [Finset.mem_insert, exact_.txids, map_append, mem_append, map_singleton, mem_singleton, or_comm]

theorem exact_trim (transactions : List Transaction) (txids : Finset Txid) (memoryUsage : ℕ)
    (exact_ : Exact ⟨transactions, txids, memoryUsage⟩) : Exact (trim transactions txids memoryUsage).2 := by
  induction transactions generalizing txids memoryUsage with
  | nil => exact exact_
  | cons tx rest ih =>
    rw [trim]
    split
    · exact exact_
    · have distinct := exact_.distinct
      dsimp only at distinct
      rw [map_cons, nodup_cons] at distinct
      refine ih _ _ ⟨distinct.2, fun txid => ?_⟩
      have known := exact_.txids txid
      dsimp only at known ⊢
      rw [map_cons, mem_cons] at known
      rw [Finset.mem_erase, known]
      constructor
      · rintro ⟨other, first | later⟩
        · exact absurd first other
        · exact later
      · intro later
        exact ⟨fun same => distinct.1 (same ▸ later), .inr later⟩

theorem Exact.addBlock {queue : DisconnectedTransactionPool} (exact_ : Exact queue) (block : Block) :
    Exact (queue.addBlock block).2 := by
  unfold DisconnectedTransactionPool.addBlock
  refine exact_trim _ _ _ ?_
  exact List.foldlRecOn block.txdata.reverse DisconnectedTransactionPool.queue (motive := Exact) exact_
    fun queue exact_ tx _ => exact_.queue tx

theorem Exact.removeTransaction {queue : DisconnectedTransactionPool} (exact_ : Exact queue) (tx : Transaction) :
    Exact (queue.removeTransaction tx) ∧
      ∀ other ∈ (queue.removeTransaction tx).transactions, other ∈ queue.transactions ∧ other.computeTxid ≠ tx.computeTxid := by
  unfold DisconnectedTransactionPool.removeTransaction
  by_cases queued : tx.computeTxid ∈ queue.txids
  · rw [if_pos queued]
    obtain ⟨found, listed, same⟩ := mem_map.mp ((exact_.txids _).mp queued)
    dsimp only
    split
    · rename_i search
      exact absurd (decide_eq_true same) (find?_eq_none.mp search found listed)
    · have erased : (queue.transactions.eraseP (·.computeTxid = tx.computeTxid)).map Transaction.computeTxid =
          (queue.transactions.map Transaction.computeTxid).erase tx.computeTxid := by
        generalize queue.transactions = transactions
        induction transactions with
        | nil => rfl
        | cons first rest ih =>
          rw [map_cons]
          by_cases equal : first.computeTxid = tx.computeTxid
          · rw [eraseP_cons_of_pos (by simpa using equal), equal, erase_cons_head]
          · rw [eraseP_cons_of_neg (by simpa using equal), erase_cons_tail (by simpa using equal), map_cons, ih]
      constructor
      · constructor
        · dsimp only
          rw [erased]
          exact exact_.distinct.erase _
        · intro txid
          dsimp only
          rw [erased, Finset.mem_erase, exact_.distinct.mem_erase_iff, exact_.txids]
      · intro other member
        refine ⟨mem_of_mem_eraseP member, ?_⟩
        have listed := mem_map_of_mem (f := Transaction.computeTxid) member
        rw [erased, exact_.distinct.mem_erase_iff] at listed
        exact listed.1
  · rw [if_neg queued]
    refine ⟨exact_, fun other member => ⟨member, fun same => queued ?_⟩⟩
    rw [exact_.txids, ← same]
    exact mem_map_of_mem member

theorem Exact.removeForBlocks (blocks : List Block) {queue : DisconnectedTransactionPool} (exact_ : Exact queue) :
    ∀ other ∈ (blocks.foldl removeForBlock queue).transactions,
      other ∈ queue.transactions ∧ ∀ block ∈ blocks, other.computeTxid ∉ block.txids := by
  have inner : ∀ (txs : List Transaction) (queue : DisconnectedTransactionPool), Exact queue →
      Exact (txs.foldl DisconnectedTransactionPool.removeTransaction queue) ∧
        ∀ other ∈ (txs.foldl DisconnectedTransactionPool.removeTransaction queue).transactions,
          other ∈ queue.transactions ∧ other.computeTxid ∉ txs.map Transaction.computeTxid := by
    intro txs
    induction txs with
    | nil => exact fun queue exact_ => ⟨exact_, fun other member => ⟨member, not_mem_nil⟩⟩
    | cons tx txs ih =>
      intro queue exact_
      obtain ⟨after, without⟩ := exact_.removeTransaction tx
      obtain ⟨final, rest⟩ := ih _ after
      refine ⟨final, fun other member => ?_⟩
      obtain ⟨between, unlisted⟩ := rest other member
      obtain ⟨before, different⟩ := without other between
      refine ⟨before, ?_⟩
      rw [map_cons, mem_cons, not_or]
      exact ⟨different, unlisted⟩
  induction blocks generalizing queue with
  | nil => exact fun other member => ⟨member, fun _ none_ => absurd none_ not_mem_nil⟩
  | cons block blocks ih =>
    intro other member
    obtain ⟨after, without⟩ := inner block.txdata queue exact_
    obtain ⟨between, later⟩ := ih after other member
    obtain ⟨before, unlisted⟩ := without other between
    refine ⟨before, fun b listed => ?_⟩
    rcases mem_cons.mp listed with rfl | listed
    · exact unlisted
    · exact later b listed

end

end DisconnectedTransactionPool

end BitcoindRs
