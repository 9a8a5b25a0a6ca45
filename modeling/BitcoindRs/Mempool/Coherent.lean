import BitcoindRs.Mempool.Operations

/-! The indexes of the pool against its entries. -/

namespace BitcoindRs
open Relation Worklist Checked Result

theorem Transaction.mem_inputTxids {tx : Transaction} {txid : Txid} :
    txid ∈ tx.inputTxids ↔ ∃ outpoint ∈ tx.prevouts, outpoint.txid = txid := by
  simp [Transaction.inputTxids, Transaction.prevouts]

variable [Library] [PolicyLibrary]

namespace Mempool
variable {q p : Mempool} {tx : Transaction} {candidate : Candidate} {txid parent child : Txid}
variable {options : AcceptOptions} {recordSequence : Bool} {offered : Transaction → Prop}

structure Coherent (pool : Mempool) : Prop where
  keyed : ∀ txid entry, pool.entries.lookup txid = some entry → entry.transaction.computeTxid = txid
  spent : ∀ outpoint txid, pool.spent.lookup outpoint = some txid ↔
    ∃ entry, pool.entries.lookup txid = some entry ∧ outpoint ∈ entry.transaction.prevouts
  distinct : ∀ txid entry, pool.entries.lookup txid = some entry → entry.transaction.prevouts.Nodup

theorem coherent_new (policy : MempoolPolicy) (maxBytes : ℕ) (electrumIndexEnabled : Bool) (now : ℕ) :
    Coherent (Mempool.new policy maxBytes electrumIndexEnabled now) :=
  ⟨nofun, fun _ _ => ⟨nofun, fun ⟨_, found, _⟩ => nomatch found⟩, nofun⟩

variable {pool : Mempool}

omit [PolicyLibrary] in
theorem Coherent.once (coherent : Coherent pool) {a b : Txid} {first second : MempoolEntry} {outpoint : OutPoint}
    (one : pool.entries.lookup a = some first) (other : pool.entries.lookup b = some second)
    (left : outpoint ∈ first.transaction.prevouts) (right : outpoint ∈ second.transaction.prevouts) : a = b := by
  have here := (coherent.spent outpoint a).mpr ⟨first, one, left⟩
  rw [(coherent.spent outpoint b).mpr ⟨second, other, right⟩] at here
  cases here
  rfl

omit [PolicyLibrary] in
theorem Coherent.tuned (coherent : Coherent pool) (tuned : Tuned pool q) : Coherent q := by
  have entries := tuned.entries
  have spent := tuned.field Mempool.spent fun _ => rfl
  constructor
  · rw [entries]
    exact coherent.keyed
  · rw [entries, spent]
    exact coherent.spent
  · rw [entries]
    exact coherent.distinct

theorem Coherent.remove (coherent : Coherent pool) (txid : Txid) (notifyZmq : Bool) :
    Coherent (pool.removeWithNotification txid notifyZmq) := by
  rcases present : pool.entries.lookup txid with _ | entry
  · rwa [removeWithNotification_absent present]
  have kept : ∀ {other found}, (pool.removeWithNotification txid notifyZmq).entries.lookup other = some found ↔
      other ≠ txid ∧ pool.entries.lookup other = some found := by
    intro other found
    rw [entries_removeWithNotification, FMap.lookup_erase_ite]
    split <;> simp_all
  have spent : (pool.removeWithNotification txid notifyZmq).spent = pool.spent.eraseAll entry.transaction.prevouts := by
    rw [removeWithNotification_present present]
  constructor
  · exact fun other found inside => coherent.keyed other found (kept.mp inside).2
  · intro outpoint other
    rw [spent, FMap.lookup_eraseAll]
    constructor
    · intro found
      split at found
      · cases found
      · rename_i outside
        obtain ⟨spender, inside, spends⟩ := (coherent.spent outpoint other).mp found
        refine ⟨spender, kept.mpr ⟨fun same => ?_, inside⟩, spends⟩
        rw [same, present] at inside
        cases inside
        exact outside spends
    · rintro ⟨spender, inside, spends⟩
      obtain ⟨different, inside⟩ := kept.mp inside
      rw [if_neg fun also => different (coherent.once inside present spends also)]
      exact (coherent.spent outpoint other).mpr ⟨spender, inside, spends⟩
  · exact fun other found inside => coherent.distinct other found (kept.mp inside).2

theorem Coherent.leave (coherent : Coherent pool) (leave : Leave pool q) : Coherent q := by
  cases leave with
  | remove txid notifyZmq => exact coherent.remove txid notifyZmq
  | tune tuned => exact coherent.tuned tuned

theorem Coherent.leaves (coherent : Coherent pool) (leaves : Leaves pool q) : Coherent q := by
  induction leaves with
  | refl => exact coherent
  | tail _ leave ih => exact ih.leave leave

omit [PolicyLibrary] in
theorem lookup_insertEntry {entry : MempoolEntry}
    (fresh : pool.entries.lookup candidate.entry.transaction.computeTxid = none) :
    (pool.insertEntry candidate recordSequence).entries.lookup txid = some entry ↔
      txid = candidate.entry.transaction.computeTxid ∧ entry = candidate.entry ∨ pool.entries.lookup txid = some entry := by
  rw [entries_insertEntry, FMap.lookup_insert_ite]
  split
  · rename_i same
    rw [same, fresh]
    simp [eq_comm]
  · rename_i other
    simp [other]

omit [PolicyLibrary] in
theorem Coherent.insertEntry (coherent : Coherent pool) (recordSequence : Bool)
    (fresh : pool.entries.lookup candidate.entry.transaction.computeTxid = none)
    (distinct : candidate.entry.transaction.prevouts.Nodup)
    (unspent : ∀ outpoint ∈ candidate.entry.transaction.prevouts, pool.spent.lookup outpoint = none) :
    Coherent (pool.insertEntry candidate recordSequence) := by
  have spent : (pool.insertEntry candidate recordSequence).spent = candidate.entry.transaction.prevouts.foldl
      (fun m outpoint => m.insert outpoint candidate.entry.transaction.computeTxid) pool.spent := by
    rw [insertEntry_eq]
  constructor
  · intro txid entry found
    rcases (lookup_insertEntry fresh).mp found with ⟨rfl, rfl⟩ | before
    · rfl
    · exact coherent.keyed txid entry before
  · intro outpoint txid
    rw [spent, FMap.lookup_foldl_insert]
    simp only [lookup_insertEntry fresh]
    split
    · rename_i spends
      constructor
      · intro same
        cases same
        exact ⟨candidate.entry, .inl ⟨rfl, rfl⟩, spends⟩
      · rintro ⟨entry, ⟨rfl, rfl⟩ | before, also⟩
        · rfl
        · have taken := (coherent.spent outpoint txid).mpr ⟨entry, before, also⟩
          rw [unspent outpoint spends] at taken
          cases taken
    · rename_i other
      rw [coherent.spent]
      constructor
      · rintro ⟨entry, before, also⟩
        exact ⟨entry, .inr before, also⟩
      · rintro ⟨entry, ⟨-, rfl⟩ | before, also⟩
        · exact absurd also other
        · exact ⟨entry, before, also⟩
  · intro txid entry found
    rcases (lookup_insertEntry fresh).mp found with ⟨rfl, rfl⟩ | before
    · exact distinct
    · exact coherent.distinct txid entry before

variable [HashOrder ℕ] {view : ChainView}

section
omit [Library] [PolicyLibrary] [HashOrder ℕ]

theorem Tuned.parents (tuned : Tuned p q) (txid : Txid) : q.parents txid = p.parents txid := by
  have same : q.contains = p.contains := funext tuned.contains
  rw [Mempool.parents, Mempool.parents, entryInputs, entryInputs, tuned.entries, same]

theorem parents_subset (linked : parent ∈ pool.parents txid) : parent ∈ pool.entries.keys := by
  obtain ⟨-, -, -, inside⟩ := mem_parents.mp linked
  exact contains_iff_mem.mp inside

theorem mem_ancestorsForTransaction : txid ∈ pool.ancestorsForTransaction tx ↔
    ∃ parent, (parent ∈ tx.inputTxids ∧ pool.contains parent = true) ∧ Reaches pool.parents parent txid := by
  rw [Mempool.ancestorsForTransaction, mem_reach fun a b linked => parents_subset linked]
  · simp only [List.mem_filter]
  · intro parent member
    exact contains_iff_mem.mp (List.mem_filter.mp member).2

end

/-- What is known when a transaction enters a pool in which room has been made for it. -/
structure Entering (view : ChainView) (tx : Transaction) (p roomy : Mempool) : Prop where
  out : Withdraws p roomy
  fresh : p.entries.lookup tx.computeTxid = none
  distinct : tx.prevouts.Nodup
  unspent : ∀ outpoint ∈ tx.prevouts, p.spent.lookup outpoint = none
  notInChain : ∀ outpoint ∈ tx.outpoints, view.utxo.lookup outpoint = none
  minable : p.minable view tx = true
  spared : ∀ parent ∈ tx.inputTxids, p.contains parent = true → roomy.contains parent = true

theorem Admits.entering (admits : Admits view tx options p q) :
    ∃ roomy candidate, Entering view tx p roomy ∧ candidate.entry.transaction = tx ∧
      q = roomy.insertEntry candidate options.recordSequence := by
  cases admits with
  | @enter decayed roomy checked addedAt tuned _ passed _ room =>
    have passed := checkTransaction_ok passed
    obtain ⟨out, spared⟩ := withdraws_makeRoom decayed tx (decayed.candidate view tx addedAt checked).memoryUsage options
    rw [room] at out spared
    refine ⟨roomy, _, ⟨(Withdraws.tuned tuned).trans out, passed.fresh, passed.distinct, passed.unspent, passed.notInChain,
      passed.minable, fun parent spends inside => ?_⟩, rfl, rfl⟩
    rw [spared parent (mem_ancestorsForTransaction.mpr ⟨parent, ⟨spends, ?_⟩, .refl⟩), tuned.contains]
    · exact inside
    · rwa [tuned.contains]

theorem Entering.freshRoomy {roomy : Mempool} (entering : Entering view tx p roomy) :
    roomy.entries.lookup tx.computeTxid = none := by
  rcases found : roomy.entries.lookup tx.computeTxid with _ | entry
  · rfl
  · have before := entering.out.leaves.entries found
    rw [entering.fresh] at before
    cases before

theorem Coherent.admits (coherent : Coherent pool) (admits : Admits view tx options pool q) : Coherent q := by
  obtain ⟨roomy, candidate, entering, rfl, rfl⟩ := admits.entering
  apply (coherent.leaves entering.out.leaves).insertEntry
  · exact entering.freshRoomy
  · exact entering.distinct
  · exact fun outpoint spends => entering.out.leaves.spent (entering.unspent outpoint spends)

omit [PolicyLibrary] in
theorem Coherent.rebuild (coherent : Coherent pool) : Coherent pool.rebuildChildrenIndex :=
  ⟨coherent.keyed, coherent.spent, coherent.distinct⟩

theorem Coherent.edit (coherent : Coherent pool) (edit : Edit offered view pool q) : Coherent q := by
  cases edit with
  | leave leave => exact coherent.leave leave
  | enter _ _ admits => exact coherent.admits admits
  | rebuild => exact coherent.rebuild

theorem Coherent.feeds {state state' : Mempool × List MempoolChange} (coherent : Coherent state.1)
    (feeds : Feeds offered view state state') : Coherent state'.1 := by
  induction feeds with
  | refl => exact coherent
  | tail _ step ih =>
    cases step with
    | edit edit => exact ih.edit edit
    | take p handed => exact ⟨ih.keyed, ih.spent, ih.distinct⟩

/-- The child index has an edge for each entry that spends another one. -/
def Linked (pool : Mempool) : Prop := FMap.Represents pool.childIndex fun parent child => parent ∈ pool.parents child

omit [Library] [PolicyLibrary] in
theorem Linked.mem_children (linked : Linked pool) : child ∈ pool.children parent ↔ parent ∈ pool.parents child := by
  rw [Mempool.mem_children, ← linked.related parent child]
  constructor
  · rintro ⟨values, found, member, -⟩
    exact ⟨values, found, member⟩
  · rintro ⟨values, found, member⟩
    have spends : parent ∈ pool.parents child := (linked.related parent child).mp ⟨values, found, member⟩
    obtain ⟨entry, inside, -⟩ := mem_parents.mp spends
    exact ⟨values, found, member, contains_iff.mpr ⟨entry, inside⟩⟩

omit [Library] [HashOrder ℕ] in
theorem linked_new (policy : MempoolPolicy) (maxBytes : ℕ) (electrumIndexEnabled : Bool) (now : ℕ) :
    Linked (Mempool.new policy maxBytes electrumIndexEnabled now) := by
  refine FMap.represents_empty.congr fun parent child => ⟨nofun, fun spends => ?_⟩
  obtain ⟨_, found, -⟩ := mem_parents.mp spends
  cases found

omit [Library] [PolicyLibrary] [HashOrder ℕ] in
theorem Linked.tuned (linked : Linked pool) (tuned : Tuned pool q) : Linked q := by
  have index := tuned.field Mempool.childIndex fun _ => rfl
  rw [Linked, index]
  refine linked.congr fun parent child => ?_
  rw [tuned.parents]

section
omit [HashOrder ℕ]

theorem mem_parents_remove {notifyZmq : Bool} : parent ∈ (pool.removeWithNotification txid notifyZmq).parents child ↔
      parent ∈ pool.parents child ∧ parent ≠ txid ∧ child ≠ txid := by
  rw [mem_parents, mem_parents, contains_removeWithNotification, entries_removeWithNotification, FMap.lookup_erase_ite]
  split <;> simp_all
  tauto

theorem Linked.remove (linked : Linked pool) (txid : Txid) (notifyZmq : Bool) :
    Linked (pool.removeWithNotification txid notifyZmq) := by
  rcases present : pool.entries.lookup txid with _ | entry
  · rwa [removeWithNotification_absent present]
  have index : (pool.removeWithNotification txid notifyZmq).childIndex =
      (entry.transaction.inputTxids.foldl (fun m parent => m.discard parent txid) pool.childIndex).erase txid := by
    rw [removeWithNotification_present present]
  rw [Linked, index]
  refine ((FMap.Represents.discardAll linked _ txid).erase txid).congr fun parent child => ?_
  rw [mem_parents_remove]
  constructor
  · rintro ⟨⟨spends, kept⟩, different⟩
    refine ⟨spends, different, fun same => kept ⟨?_, same⟩⟩
    obtain ⟨found, inside, member, -⟩ := mem_parents.mp spends
    rw [same, present] at inside
    cases inside
    exact member
  · rintro ⟨spends, parentStays, childStays⟩
    exact ⟨⟨spends, fun gone => childStays gone.2⟩, parentStays⟩

theorem Linked.leaves (linked : Linked pool) (leaves : Leaves pool q) : Linked q := by
  induction leaves with
  | refl => exact linked
  | tail _ leave ih =>
    cases leave with
    | remove txid notifyZmq => exact ih.remove txid notifyZmq
    | tune tuned => exact ih.tuned tuned

end

def Unclaimed (pool : Mempool) (tx : Transaction) : Prop :=
  tx.computeTxid ∉ tx.inputTxids ∧
    ∀ txid entry, pool.entries.lookup txid = some entry → tx.computeTxid ∉ entry.transaction.inputTxids

omit [HashOrder ℕ] in
theorem Unclaimed.leaves (unclaimed : Unclaimed pool tx) (leaves : Leaves pool q) :
    Unclaimed q tx := ⟨unclaimed.1, fun txid entry found => unclaimed.2 txid entry (leaves.entries found)⟩

omit [PolicyLibrary] [HashOrder ℕ] in
theorem mem_parents_insertEntry (fresh : pool.entries.lookup candidate.entry.transaction.computeTxid = none)
    (unclaimed : Unclaimed pool candidate.entry.transaction) :
    parent ∈ (pool.insertEntry candidate recordSequence).parents child ↔ parent ∈ pool.parents child ∨
      child = candidate.entry.transaction.computeTxid ∧ parent ∈ candidate.entry.transaction.inputTxids ∧ pool.contains parent = true := by
  rw [mem_parents, mem_parents, contains_insertEntry]
  simp only [lookup_insertEntry fresh]
  constructor
  · rintro ⟨entry, ⟨rfl, rfl⟩ | before, spends, inside⟩
    · rcases inside with rfl | inside
      · exact absurd spends unclaimed.1
      · exact .inr ⟨rfl, spends, inside⟩
    · rcases inside with rfl | inside
      · exact absurd spends (unclaimed.2 child entry before)
      · exact .inl ⟨entry, before, spends, inside⟩
  · rintro (⟨entry, before, spends, inside⟩ | ⟨rfl, spends, inside⟩)
    · exact ⟨entry, .inr before, spends, .inr inside⟩
    · exact ⟨candidate.entry, .inl ⟨rfl, rfl⟩, spends, .inr inside⟩

omit [PolicyLibrary] [HashOrder ℕ] in
theorem Linked.insertEntry (linked : Linked pool) (recordSequence : Bool)
    (fresh : pool.entries.lookup candidate.entry.transaction.computeTxid = none)
    (unclaimed : Unclaimed pool candidate.entry.transaction) : Linked (pool.insertEntry candidate recordSequence) := by
  have index : (pool.insertEntry candidate recordSequence).childIndex =
      (candidate.entry.transaction.inputTxids.filter pool.contains).foldl
        (fun m parent => m.record parent candidate.entry.transaction.computeTxid) pool.childIndex := by
    rw [insertEntry_eq]
  rw [Linked, index]
  refine (FMap.Represents.recordAll linked _ _).congr fun parent child => ?_
  rw [mem_parents_insertEntry fresh unclaimed, List.mem_filter]
  tauto

theorem Linked.admits (linked : Linked pool)
    (admits : Admits view tx options pool q) (unclaimed : Unclaimed pool tx) : Linked q := by
  obtain ⟨roomy, candidate, entering, rfl, rfl⟩ := admits.entering
  exact (linked.leaves entering.out.leaves).insertEntry _ entering.freshRoomy (unclaimed.leaves entering.out.leaves)

omit [Library] [PolicyLibrary] in
theorem linked_rebuild (pool : Mempool) : Linked pool.rebuildChildrenIndex := by
  have loop : ∀ (items : List (Txid × MempoolEntry)) (m : FMap Txid (Finset Txid)) (R : Txid → Txid → Prop), FMap.Represents m R →
      FMap.Represents (items.foldl (fun m item =>
        (item.2.transaction.inputTxids.filter pool.contains).foldl (fun m parent => m.record parent item.1) m) m)
        fun parent child => R parent child ∨ ∃ entry, (child, entry) ∈ items ∧ parent ∈ entry.transaction.inputTxids ∧
          pool.contains parent = true := by
    intro items
    induction items with
    | nil => exact fun m R represents => represents.congr fun _ _ => by simp
    | cons item items ih =>
      intro m R represents
      refine (ih _ _ (represents.recordAll (item.2.transaction.inputTxids.filter pool.contains) item.1)).congr fun parent child => ?_
      obtain ⟨txid, entry⟩ := item
      simp only [List.mem_filter, List.mem_cons, Prod.mk.injEq]
      constructor
      · rintro ((before | ⟨spends, rfl⟩) | ⟨other, later, spends⟩)
        · exact .inl before
        · exact .inr ⟨entry, .inl ⟨rfl, rfl⟩, spends⟩
        · exact .inr ⟨other, .inr later, spends⟩
      · rintro (before | ⟨other, ⟨rfl, rfl⟩ | later, spends⟩)
        · exact .inl (.inl before)
        · exact .inl (.inr ⟨spends, rfl⟩)
        · exact .inr ⟨other, later, spends⟩
  refine (loop pool.entries.toList ∅ _ FMap.represents_empty).congr fun parent child => ?_
  show _ ↔ parent ∈ pool.parents child
  rw [mem_parents]
  simp only [FMap.mem_toList, false_or]

end Mempool

end BitcoindRs
