import BitcoindRs.Mempool.Operations

/-! The log of changes. -/

namespace BitcoindRs
open Relation Checked Result List FMap

section log
variable [Library]

def MempoolChange.apply (held : FMap Txid Transaction) (change : MempoolChange) : FMap Txid Transaction :=
  match change.kind with
  | .added => held.insert change.transaction.computeTxid change.transaction
  | .removed _ => held.erase change.transaction.computeTxid

def replay (held : FMap Txid Transaction) (changes : List MempoolChange) : FMap Txid Transaction :=
  changes.foldl MempoolChange.apply held

/-- The number of a record by its position in the log. The counter stops at the largest `u64`. -/
def recordNumber (position : ℕ) : ℕ := min (position + 1) (u64Bound - 1)

namespace Mempool

omit [Library] in
def Holds (pool : Mempool) (held : FMap Txid Transaction) : Prop :=
  ∀ txid, held.lookup txid = (pool.entries.lookup txid).map (·.transaction)

/-- The log so far, its handed out part first, explains the entries that are in the pool or waiting to come back to it. -/
structure Recorded (handed : List MempoolChange) (waiting : List MempoolEntry) (pool : Mempool) : Prop where
  keyed : ∀ txid entry, pool.entries.lookup txid = some entry → entry.transaction.computeTxid = txid
  replayed : ∀ txid, (replay ∅ (handed ++ pool.changes)).lookup txid =
    ((pool.entries.lookup txid).or (waiting.find? (·.transaction.computeTxid = txid))).map (·.transaction)
  numbered : (handed ++ pool.changes).map (·.sequence) = (List.range (handed ++ pool.changes).length).map recordNumber
  counter : pool.sequence = recordNumber (handed ++ pool.changes).length

variable {handed : List MempoolChange} {waiting : List MempoolEntry} {pool : Mempool}

theorem replay_append (held : FMap Txid Transaction) (first second : List MempoolChange) :
    replay held (first ++ second) = replay (replay held first) second := List.foldl_append

omit [Library] in
theorem satAddU64_recordNumber (position : ℕ) : satAddU64 (recordNumber position) 1 = recordNumber (position + 1) := by
  rw [satAddU64, recordNumber, recordNumber]
  omega

omit [Library] in
theorem length_snoc {α : Type} (xs : List α) (x : α) : (xs ++ [x]).length = xs.length + 1 := length_append

theorem Recorded.append {q : Mempool} {still : List MempoolEntry} (recorded : Recorded handed waiting pool)
    (change : MempoolChange) (changes : q.changes = pool.changes ++ [change])
    (number : change.sequence = pool.sequence) (sequence : q.sequence = satAddU64 pool.sequence 1)
    (keyed : ∀ txid entry, q.entries.lookup txid = some entry → entry.transaction.computeTxid = txid)
    (accounted : ∀ txid, (change.apply (replay ∅ (handed ++ pool.changes))).lookup txid =
      ((q.entries.lookup txid).or (still.find? (·.transaction.computeTxid = txid))).map (·.transaction)) :
    Recorded handed still q where
  keyed := keyed
  replayed := by
    intro txid
    rw [changes, ← append_assoc, replay_append]
    exact accounted txid
  numbered := by
    rw [changes, ← append_assoc, map_append, recorded.numbered, length_snoc, range_succ, map_append,
      map_singleton, map_singleton, number, recorded.counter]
  counter := by
    rw [sequence, recorded.counter, satAddU64_recordNumber, changes, ← append_assoc, length_snoc]

variable [PolicyLibrary]

variable (recorded : Recorded handed [] pool)

include recorded in
theorem Recorded.remove (txid : Txid) (notifyZmq : Bool) :
    Recorded handed [] (pool.removeWithNotification txid notifyZmq) := by
  rcases present : pool.entries.lookup txid with _ | entry
  · rwa [removeWithNotification_absent present]
  have key := recorded.keyed txid entry present
  have gone : ∀ other, (pool.removeWithNotification txid notifyZmq).entries.lookup other =
      if other = txid then none else pool.entries.lookup other := by
    intro other
    rw [entries_removeWithNotification, lookup_erase_ite]
  refine recorded.append ⟨entry.transaction, pool.sequence, .removed notifyZmq, pool.scriptsByTransaction.lookup txid⟩
    ?_ rfl ?_ ?_ ?_
  · rw [removeWithNotification_present present]
  · rw [removeWithNotification_present present]
  · intro other other' found
    rw [gone] at found
    split at found
    · cases found
    · exact recorded.keyed other other' found
  · intro other
    rw [gone, MempoolChange.apply]
    dsimp only
    rw [lookup_erase_ite, key, recorded.replayed]
    split
    · simp
    · rfl

omit [PolicyLibrary] in
theorem Recorded.tuned {q : Mempool} (recorded : Recorded handed waiting pool) (tuned : Tuned pool q) :
    Recorded handed waiting q := by
  have changes := tuned.field Mempool.changes fun _ => rfl
  have sequence := tuned.field Mempool.sequence fun _ => rfl
  exact ⟨by rw [tuned.entries]; exact recorded.keyed, by rw [tuned.entries, changes]; exact recorded.replayed,
    by rw [changes]; exact recorded.numbered, by rw [changes, sequence]; exact recorded.counter⟩

include recorded in
theorem Recorded.leaves {q : Mempool} (leaves : Leaves pool q) : Recorded handed [] q := by
  induction leaves with
  | refl => exact recorded
  | tail _ leave ih =>
    cases leave with
    | remove txid notifyZmq => exact ih.remove txid notifyZmq
    | tune tuned => exact ih.tuned tuned

/-! ### Entering -/

section
omit [PolicyLibrary]

theorem changes_insertEntry (pool : Mempool) (candidate : Candidate) (recordSequence : Bool) :
    (pool.insertEntry candidate recordSequence).changes = pool.changes ++
        (if recordSequence then [⟨candidate.entry.transaction, pool.sequence, .added, some candidate.affectedScripts⟩] else []) ∧
      (pool.insertEntry candidate recordSequence).sequence = if recordSequence then satAddU64 pool.sequence 1 else pool.sequence := by
  rw [insertEntry_eq]
  exact ⟨rfl, rfl⟩

theorem keyed_insertEntry (keyed : ∀ txid entry, pool.entries.lookup txid = some entry → entry.transaction.computeTxid = txid)
    (candidate : Candidate) (recordSequence : Bool) (txid : Txid) (entry : MempoolEntry)
    (found : (pool.insertEntry candidate recordSequence).entries.lookup txid = some entry) :
    entry.transaction.computeTxid = txid := by
  rw [entries_insertEntry, lookup_insert_ite] at found
  split at found
  · rename_i same
    cases found
    exact same.symm
  · exact keyed txid entry found

theorem Recorded.insertEntry (recorded : Recorded handed [] pool) (candidate : Candidate) :
    Recorded handed [] (pool.insertEntry candidate true) := by
  obtain ⟨changes, sequence⟩ := changes_insertEntry pool candidate true
  refine recorded.append _ changes rfl sequence (keyed_insertEntry recorded.keyed candidate true) fun txid => ?_
  rw [entries_insertEntry, MempoolChange.apply]
  dsimp only
  rw [lookup_insert_ite, lookup_insert_ite, recorded.replayed]
  split
  · simp
  · rfl

end

variable [HashOrder ℕ] {view : ChainView}

include recorded in
theorem Recorded.admits {q : Mempool} {tx : Transaction} {options : AcceptOptions}
    (always : options.recordSequence = true) (admits : Admits view tx options pool q) : Recorded handed [] q := by
  cases admits with
  | @enter decayed roomy checked addedAt tuned _ _ _ room =>
    have out := (withdraws_makeRoom decayed tx (decayed.candidate view tx addedAt checked).memoryUsage options).1
    rw [room] at out
    rw [always]
    exact ((recorded.tuned tuned).leaves out.leaves).insertEntry _

theorem Recorded.feeds {offered : Transaction → Prop} {state state' : Mempool × List MempoolChange}
    (recorded : Recorded state.2 [] state.1) (feeds : Feeds offered view state state') : Recorded state'.2 [] state'.1 := by
  induction feeds with
  | refl => exact recorded
  | tail _ step ih =>
    cases step with
    | edit edit =>
      cases edit with
      | leave leave => exact ih.leaves (.single leave)
      | enter _ always admits => exact ih.admits always admits
      | rebuild => exact ⟨ih.keyed, ih.replayed, ih.numbered, ih.counter⟩
    | take p handed =>
      have whole : (handed ++ p.changes) ++ [] = handed ++ p.changes := append_nil _
      exact ⟨ih.keyed, by rw [whole]; exact ih.replayed, by rw [whole]; exact ih.numbered, by rw [whole]; exact ih.counter⟩

/-! ### Admitting everything again -/

theorem acceptAtWithoutSequence_cases (pool : Mempool) (view : ChainView) (now : ℕ) (tx : Transaction) (addedAt : ℕ) :
    (∃ error, pool.acceptAtWithoutSequence view now tx addedAt = (.error error, pool)) ∨
      ∃ checked, Passed pool view tx checked ∧ pool.acceptAtWithoutSequence view now tx addedAt =
        (.ok tx.computeTxid, pool.insertEntry (pool.candidate view tx addedAt checked) false) := by
  unfold acceptAtWithoutSequence acceptAtWithSequence
  rcases passed : pool.checkTransaction view tx ⟨false, false, false, true, false, false, false, true⟩ with error | checked
  · exact .inl ⟨error, rfl⟩
  · exact .inr ⟨checked, checkTransaction_ok passed, by simp [checkTopology, runIf, makeRoom]⟩

/-- The entries that are still to be admitted again are different ones, and none of them is in the pool. -/
structure Waiting (pool : Mempool) (waiting : List MempoolEntry) : Prop where
  distinct : (waiting.map (·.transaction.computeTxid)).Nodup
  outside : ∀ entry ∈ waiting, pool.entries.lookup entry.transaction.computeTxid = none

theorem revalidateEntry_recorded (old : Mempool) (view : ChainView) (now : ℕ) {entry : MempoolEntry} {rest : List MempoolEntry}
    (recorded : Recorded handed (entry :: rest) pool) (state : Waiting pool (entry :: rest)) :
    Recorded handed rest (old.revalidateEntry view now pool entry) ∧ Waiting (old.revalidateEntry view now pool entry) rest := by
  obtain ⟨new, distinct⟩ := nodup_cons.mp state.distinct
  have absent := state.outside entry mem_cons_self
  have other : ∀ e ∈ rest, e.transaction.computeTxid ≠ entry.transaction.computeTxid :=
    fun e member same => new (mem_map.mpr ⟨e, member, same⟩)
  have before : ∀ txid, (replay ∅ (handed ++ pool.changes)).lookup txid = if txid = entry.transaction.computeTxid
      then some entry.transaction
      else ((pool.entries.lookup txid).or (rest.find? (·.transaction.computeTxid = txid))).map (·.transaction) := by
    intro txid
    rw [recorded.replayed, find?_cons]
    by_cases same : txid = entry.transaction.computeTxid
    · rw [if_pos same, decide_eq_true same.symm, same, absent]
      rfl
    · rw [decide_eq_false (Ne.symm same), if_neg same]
  unfold revalidateEntry
  rcases acceptAtWithoutSequence_cases pool view now entry.transaction entry.addedAt with
    ⟨error, failed⟩ | ⟨checked, -, admitted⟩
  · dsimp only
    rw [failed]
    dsimp only
    refine ⟨recorded.append _ rfl rfl rfl recorded.keyed fun txid => ?_, distinct, fun e member =>
      state.outside e (mem_cons_of_mem _ member)⟩
    rw [MempoolChange.apply]
    dsimp only
    rw [lookup_erase_ite, before]
    split
    · rename_i same
      have none_ : rest.find? (·.transaction.computeTxid = txid) = none :=
        find?_eq_none.mpr fun e member => by simpa [same] using other e member
      rw [show (pool.recordRemoval entry.transaction true none).entries = pool.entries from rfl, same, absent, ← same, none_]
      rfl
    · rfl
  · dsimp only
    rw [admitted]
    dsimp only
    have entries := entries_insertEntry pool (pool.candidate view entry.transaction entry.addedAt checked) false
    obtain ⟨changes, sequence⟩ := changes_insertEntry pool (pool.candidate view entry.transaction entry.addedAt checked) false
    have keyed := keyed_insertEntry recorded.keyed (pool.candidate view entry.transaction entry.addedAt checked) false
    generalize pool.insertEntry (pool.candidate view entry.transaction entry.addedAt checked) false = after at *
    rw [if_neg Bool.false_ne_true, append_nil] at changes
    rw [if_neg Bool.false_ne_true] at sequence
    refine ⟨⟨keyed, fun txid => ?_, ?_, ?_⟩, distinct, fun e member => ?_⟩
    · show (replay ∅ (handed ++ after.changes)).lookup txid = ((after.entries.lookup txid).or _).map _
      rw [changes, entries, lookup_insert_ite, before]
      show _ = ((if txid = entry.transaction.computeTxid then _ else _ : Option MempoolEntry).or _).map _
      split
      · simp [candidate]
      · rfl
    · show (handed ++ after.changes).map _ = _
      rw [changes]
      exact recorded.numbered
    · show after.sequence = recordNumber (handed ++ after.changes).length
      rw [changes, sequence]
      exact recorded.counter
    · show after.entries.lookup e.transaction.computeTxid = none
      rw [entries, lookup_insert_ite]
      show (if e.transaction.computeTxid = entry.transaction.computeTxid then _ else _) = none
      rw [if_neg (other e member)]
      exact state.outside e (mem_cons_of_mem _ member)

include recorded in
theorem Recorded.revalidate (now : ℕ) : Recorded handed [] (pool.revalidate view now) := by
  have loop : ∀ (waiting : List MempoolEntry) (p : Mempool), Recorded handed waiting p → Waiting p waiting →
      Recorded handed [] (waiting.foldl (pool.revalidateEntry view now) p) := by
    intro waiting
    induction waiting with
    | nil => exact fun p recorded _ => recorded
    | cons entry rest ih =>
      intro p recorded state
      obtain ⟨recorded, state⟩ := revalidateEntry_recorded pool view now recorded state
      exact ih _ recorded state
  unfold Mempool.revalidate
  obtain ⟨nodup, mem⟩ := @tour_spec pool (sortTxids (HashOrder.elements pool.entries.keys)) fun txid => by
    rw [mem_sortTxids, HashOrder.mem, contains_iff_mem]
  generalize Tour.order (fun txid => sortTxids (pool.entryInputs txid)) (sortTxids (HashOrder.elements pool.entries.keys)) =
    order at nodup mem
  have found : ∀ txid, (order.filterMap pool.entries.lookup).find? (·.transaction.computeTxid = txid) = pool.entries.lookup txid := by
    intro txid
    have only : ∀ entry ∈ order.filterMap pool.entries.lookup, pool.entries.lookup entry.transaction.computeTxid = some entry := by
      intro entry member
      obtain ⟨key, -, present⟩ := mem_filterMap.mp member
      rwa [recorded.keyed key entry present]
    rcases present : pool.entries.lookup txid with _ | entry
    · refine find?_eq_none.mpr fun entry member same => ?_
      rw [← of_decide_eq_true same, only entry member] at present
      cases present
    · have listed : entry ∈ order.filterMap pool.entries.lookup :=
        mem_filterMap.mpr ⟨txid, (mem txid).mpr (contains_iff.mpr ⟨entry, present⟩), present⟩
      rcases search : (order.filterMap pool.entries.lookup).find? (·.transaction.computeTxid = txid) with _ | other
      · exact absurd (decide_eq_true (recorded.keyed txid entry present)) (find?_eq_none.mp search entry listed)
      · have there := only other (mem_of_find?_eq_some search)
        have same : other.transaction.computeTxid = txid := by simpa using find?_some search
        rw [same, present] at there
        exact search.trans there.symm
  have start : Recorded handed (order.filterMap pool.entries.lookup) pool.emptied := by
    refine ⟨fun txid entry absent => ?_, fun txid => ?_, recorded.numbered, recorded.counter⟩
    · cases (lookup_empty' txid).symm.trans absent
    · rw [found, show pool.emptied.entries.lookup txid = none from lookup_empty' txid, Option.none_or]
      exact (recorded.replayed txid).trans (by rw [find?_nil, Option.or_none])
  have apart : Waiting pool.emptied (order.filterMap pool.entries.lookup) := by
    refine ⟨?_, fun entry _ => lookup_empty' _⟩
    rw [map_filterMap]
    refine nodup.filterMap fun key key' txid first second => ?_
    obtain ⟨entry, present, rfl⟩ := Option.map_eq_some_iff.mp first
    obtain ⟨entry', present', same⟩ := Option.map_eq_some_iff.mp second
    rw [← recorded.keyed key entry present, ← recorded.keyed key' entry' present', same]
  have done := loop _ _ start apart
  exact ⟨done.keyed, done.replayed, done.numbered, done.counter⟩

/-! ### Runs -/

include recorded in
theorem Recorded.perform (event : Event) : Recorded (handed ++ (pool.perform event).2) [] (pool.perform event).1 := by
  by_cases again : ∃ now, event.operation = .revalidate now
  · obtain ⟨now, same⟩ := again
    obtain ⟨view, operation⟩ := event
    subst same
    show Recorded (handed ++ []) [] (pool.revalidate view now)
    rw [append_nil]
    exact recorded.revalidate now
  · exact (show Recorded (pool, handed).2 [] (pool, handed).1 from recorded).feeds
      (perform_delivers pool event (fun now same => again ⟨now, same⟩) handed)

include recorded in
theorem Recorded.run (events : List Event) :
    Recorded (events.foldl feed (pool, handed)).2 [] (events.foldl feed (pool, handed)).1 := by
  induction events generalizing pool handed with
  | nil => exact recorded
  | cons event events ih => exact ih (recorded.perform event)

omit [HashOrder ℕ] in
theorem recorded_new (policy : MempoolPolicy) (maxBytes : ℕ) (electrumIndexEnabled : Bool) (now : ℕ) :
    Recorded [] [] (new policy maxBytes electrumIndexEnabled now) :=
  ⟨fun txid _ absent => (by rw [show (new policy maxBytes electrumIndexEnabled now).entries.lookup txid = none from
    lookup_empty' txid] at absent; cases absent), fun _ => rfl, rfl, rfl⟩

theorem foldl_feed (events : List Event) (pool : Mempool) (handed : List MempoolChange) :
    events.foldl feed (pool, handed) = ((pool.run events).1, handed ++ (pool.run events).2) := by
  induction events generalizing pool handed with
  | nil => rw [run, foldl_nil, foldl_nil, append_nil]
  | cons event events ih =>
    show events.foldl feed ((pool.perform event).1, handed ++ (pool.perform event).2) =
      ((events.foldl feed ((pool.perform event).1, [] ++ (pool.perform event).2)).1,
        handed ++ (events.foldl feed ((pool.perform event).1, [] ++ (pool.perform event).2)).2)
    rw [ih, ih, nil_append, append_assoc]

theorem changes_run_take (pool : Mempool) (events : List Event) (view : ChainView) :
    (pool.run (events ++ [⟨view, .takeChanges⟩])).1.changes = [] := by
  rw [run, List.foldl_append]
  rfl

/-- Between two calls of `take_changes` the records handed over turn the transactions held at the first call into those held
at the second one. All records together are numbered by their positions, so that each is handed over once. -/
theorem changeLog_faithful (policy : MempoolPolicy) (maxBytes : ℕ) (electrumIndexEnabled : Bool) (now : ℕ)
    (first second : List Event) (view view' : ChainView) :
    let early := (new policy maxBytes electrumIndexEnabled now).run (first ++ [⟨view, .takeChanges⟩])
    let late := (new policy maxBytes electrumIndexEnabled now).run
      ((first ++ [⟨view, .takeChanges⟩]) ++ (second ++ [⟨view', .takeChanges⟩]))
    ∃ batch, late.2 = early.2 ++ batch ∧ (∀ held, early.1.Holds held → late.1.Holds (replay held batch)) ∧
      late.2.map (·.sequence) = (List.range late.2.length).map recordNumber ∧
      late.1.sequence = recordNumber late.2.length := by
  intro early late
  have split : late = ((early.1.run (second ++ [⟨view', .takeChanges⟩])).1,
      early.2 ++ (early.1.run (second ++ [⟨view', .takeChanges⟩])).2) := by
    show List.foldl feed _ (_ ++ _) = _
    rw [List.foldl_append]
    exact foldl_feed _ _ _
  have recorded : ∀ events : List Event, Recorded ((new policy maxBytes electrumIndexEnabled now).run events).2 []
      ((new policy maxBytes electrumIndexEnabled now).run events).1 :=
    fun events => (recorded_new policy maxBytes electrumIndexEnabled now).run events
  have taken : late.1.changes = [] := by
    show (run _ _).1.changes = []
    rw [← append_assoc]
    exact changes_run_take _ _ view'
  have before : early.1.changes = [] := changes_run_take _ first view
  refine ⟨(early.1.run (second ++ [⟨view', .takeChanges⟩])).2, by rw [split], fun held holds => ?_, ?_, ?_⟩
  · have start : held = replay ∅ early.2 := by
      refine Finmap.ext_lookup fun txid => ?_
      have explained := (recorded (first ++ [⟨view, .takeChanges⟩])).replayed txid
      rw [before, append_nil, find?_nil, Option.or_none] at explained
      exact (holds txid).trans explained.symm
    intro txid
    have explained := (recorded ((first ++ [⟨view, .takeChanges⟩]) ++ (second ++ [⟨view', .takeChanges⟩]))).replayed txid
    rw [taken, append_nil, find?_nil, Option.or_none] at explained
    rw [start, ← replay_append]
    exact (congrArg (fun log => (replay ∅ log).lookup txid) (congrArg Prod.snd split).symm).trans explained
  · have numbered := (recorded ((first ++ [⟨view, .takeChanges⟩]) ++ (second ++ [⟨view', .takeChanges⟩]))).numbered
    rwa [taken, append_nil] at numbered
  · have counter := (recorded ((first ++ [⟨view, .takeChanges⟩]) ++ (second ++ [⟨view', .takeChanges⟩]))).counter
    rwa [taken, append_nil] at counter

/-! ### The end of the numbers -/

omit [Library] [PolicyLibrary] [HashOrder ℕ] in
def stamped (pool : Mempool) (sequence : ℕ) (changes : List MempoolChange) : Mempool := { pool with sequence, changes }

theorem ensureSpace_fits {additionalMemory : ℕ} {guarded : Finset Txid} (small : additionalMemory ≤ pool.maxBytes)
    (fits : usize (pool.dynamicMemoryUsage + additionalMemory) ≤ pool.maxBytes) :
    pool.ensureSpace additionalMemory guarded = (.ok (), pool) := by
  rw [ensureSpace, if_neg (not_lt.mpr small)]
  cases pool.entries.keys.card with
  | zero => rw [ensureSpaceLoop, if_pos fits]
  | succ rounds => rw [ensureSpaceLoop, if_pos fits]

end Mempool

end log

def samplePayment : Transaction := sampleSpend 1 [⟨7, 0⟩] [50000, 40000]

namespace Mempool
local instance logLibrary : Library := Library.sample
local instance logPolicy : PolicyLibrary := PolicyLibrary.sample
local instance logOrder : HashOrder ℕ := BlockHash.sampleOrder

/-- The empty pool with a log. -/
abbrev logged (sequence : ℕ) (changes : List MempoolChange) : Mempool := (samplePool {} 1000000).stamped sequence changes

theorem satAddU64_zero_sub (n : ℕ) : satAddU64 0 n - n = 0 := by
  rw [satAddU64, Nat.zero_add]
  exact Nat.sub_eq_zero_of_le (min_le_left _ _)

theorem remove_insertEntry (sequence : ℕ) (changes : List MempoolChange) {candidate : Candidate}
    (tx : candidate.entry.transaction = samplePayment) (memory : candidate.memoryUsage = usize (mempoolEntryMemoryUsage samplePayment + 0)) :
    ((logged sequence changes).insertEntry candidate true).remove 1001 = logged (satAddU64 (satAddU64 sequence 1) 1) (changes ++
      [⟨samplePayment, sequence, .added, some candidate.affectedScripts⟩, ⟨samplePayment, satAddU64 sequence 1, .removed true, none⟩]) := by
  have present : ((logged sequence changes).insertEntry candidate true).entries.lookup 1001 = some candidate.entry := by
    rw [entries_insertEntry, tx]
    exact Finmap.lookup_insert _
  show removeWithNotification _ _ true = _
  rw [removeWithNotification_present present, insertEntry_eq, tx, memory]
  refine Mempool.ext rfl rfl rfl ?memoryUsage ?bytes ?vbytes rfl rfl rfl rfl ?entries ?adjustedWeights ?spent ?childIndex
    rfl rfl rfl ?wtxids rfl ?unbroadcast ?relaySequences ?changes
  case memoryUsage => exact satAddU64_zero_sub _
  case bytes => exact Nat.add_sub_cancel 0 _
  case vbytes => exact satAddU64_zero_sub _
  case entries => exact erase_insert_self _ _ _ (lookup_empty' _)
  case adjustedWeights => exact erase_insert_self _ _ _ (lookup_empty' _)
  case spent => exact erase_insert_self _ _ _ (lookup_empty' _)
  case childIndex =>
    exact (by decide +kernel : ((samplePayment.inputTxids.foldl (fun m parent => m.discard parent 1001) (∅ : FMap Txid (Finset Txid))).erase 1001) = ∅)
  case wtxids => exact erase_insert_self _ _ _ (lookup_empty' _)
  case unbroadcast => exact Finset.erase_empty _
  case relaySequences => exact erase_insert_self _ _ _ (lookup_empty' _)
  case changes => exact append_assoc _ _ _

theorem sampleRound (sequence : ℕ) (changes : List MempoolChange) : ∃ more,
    ((logged sequence changes).accept (sampleView [sampleOldCoin 7 0 100000]) 0 samplePayment).2.remove 1001 =
      logged (satAddU64 (satAddU64 sequence 1) 1) (changes ++ more) ∧ more.length = 2 := by
  let options : AcceptOptions := ⟨true, true, true, true, true, false, true, true⟩
  obtain ⟨checked, passed, rest⟩ : ∃ checked,
      (samplePool {} 1000000).checkTransaction (sampleView [sampleOldCoin 7 0 100000]) samplePayment options = .ok checked ∧
      (feeRateMeets checked.modifiedFeeSat checked.vsize (samplePool {} 1000000).minFeeSatPerKvb &&
        ((samplePool {} 1000000).checkTopology samplePayment checked options).isOk) = true :=
    exists_okAnd (by decide +kernel)
  obtain ⟨meets, ok⟩ := (Bool.and_eq_true _ _).mp rest
  obtain ⟨⟨⟩, topology⟩ := exists_ok ok
  generalize made : (samplePool {} 1000000).candidate (sampleView [sampleOldCoin 7 0 100000]) samplePayment 0 checked = candidate
  have memory : candidate.memoryUsage = usize (mempoolEntryMemoryUsage samplePayment + 0) := by
    rw [← made, Mempool.candidate]
    exact congrArg (fun scripts => usize (mempoolEntryMemoryUsage samplePayment + scripts)) (if_neg Bool.false_ne_true)
  have room : (logged sequence changes).makeRoom samplePayment candidate.memoryUsage options = (.ok (), logged sequence changes) := by
    rw [memory, makeRoom, if_pos rfl]
    exact ensureSpace_fits (by decide +kernel : _ ≤ (samplePool {} 1000000).maxBytes) (by decide +kernel : usize
      ((samplePool {} 1000000).dynamicMemoryUsage + usize (mempoolEntryMemoryUsage samplePayment + 0)) ≤ (samplePool {} 1000000).maxBytes)
  rw [accept, acceptWithSibling, acceptAtWithOptions, acceptAtWithSequence,
    show (logged sequence changes).checkTransaction _ _ _ = .ok checked from passed]
  dsimp only
  rw [if_pos rfl, show (logged sequence changes).decayRollingMinFee 0 = logged sequence changes from if_pos (.inl rfl),
    if_neg fun low => Bool.false_ne_true (low.2.symm.trans meets),
    show (logged sequence changes).checkTopology _ _ _ = .ok () from topology]
  dsimp only
  rw [show (logged sequence changes).candidate _ _ _ _ = candidate from made, show (logged sequence changes).makeRoom _ _ _ = _ from room]
  exact ⟨_, remove_insertEntry sequence changes (made ▸ rfl) memory, rfl⟩

def sampleRounds (rounds : ℕ) : List Event :=
  (List.replicate rounds [⟨sampleView [sampleOldCoin 7 0 100000], .accept 0 samplePayment⟩, ⟨sampleView [], .remove 1001⟩]).flatten

theorem sampleRounds_succ (rounds : ℕ) : sampleRounds (rounds + 1) =
    ⟨sampleView [sampleOldCoin 7 0 100000], .accept 0 samplePayment⟩ :: ⟨sampleView [], .remove 1001⟩ :: sampleRounds rounds := by
  rw [sampleRounds, replicate_succ, flatten_cons]
  rfl

theorem run_sampleRounds (rounds sequence : ℕ) (changes : List MempoolChange) :
    ((logged sequence changes).run (sampleRounds rounds)).2 = [] ∧
      ((logged sequence changes).run (sampleRounds rounds)).1.changes.length = changes.length + 2 * rounds := by
  induction rounds generalizing sequence changes with
  | zero => exact ⟨rfl, rfl⟩
  | succ rounds ih =>
    obtain ⟨more, round, two⟩ := sampleRound sequence changes
    have unfolded : (logged sequence changes).run (sampleRounds (rounds + 1)) =
        (logged (satAddU64 (satAddU64 sequence 1) 1) (changes ++ more)).run (sampleRounds rounds) := by
      rw [sampleRounds_succ, run, foldl_cons, foldl_cons, feed, feed]
      dsimp only [perform]
      rw [round, run, append_nil, append_nil]
    obtain ⟨none_, length⟩ := ih (satAddU64 (satAddU64 sequence 1) 1) (changes ++ more)
    rw [unfolded]
    refine ⟨none_, length.trans ?_⟩
    rw [length_append, two]
    omega

theorem recordNumber_repeats {count : ℕ} (many : u64Bound ≤ count) :
    ¬ ((List.range count).map recordNumber).Pairwise (· < ·) := by
  intro increasing
  have large : u64Bound = 2 ^ 64 := rfl
  have last := pairwise_iff_getElem.mp increasing (u64Bound - 2) (u64Bound - 1) (by simp; omega) (by simp; omega) (by omega)
  rw [getElem_map, getElem_map, getElem_range, getElem_range, recordNumber, recordNumber] at last
  omega

theorem sampleRounds_repeat {rounds : ℕ} (many : u64Bound ≤ 2 * rounds) :
    let state := (samplePool {} 1000000).run (sampleRounds rounds)
    ¬ (state.2 ++ state.1.changes).Pairwise fun earlier later => earlier.sequence < later.sequence := by
  intro state increasing
  obtain ⟨none_, length⟩ : state.2 = [] ∧ state.1.changes.length = ([] : List MempoolChange).length + 2 * rounds :=
    run_sampleRounds rounds 1 []
  have recorded : Recorded state.2 [] state.1 := (recorded_new {} 1000000 false 0).run (sampleRounds rounds)
  have numbers := recorded.numbered
  rw [none_, nil_append] at numbers increasing
  have sorted := pairwise_map.mpr increasing
  rw [numbers, length, length_nil, Nat.zero_add] at sorted
  exact recordNumber_repeats many sorted

/-- With its last number used up the counter stands still. -/
theorem sequence_repeats : let _ := Library.sample
    let _ := PolicyLibrary.sample
    let _ := BlockHash.sampleOrder
    ∃ events, let state := (samplePool {} 1000000).run events
      ¬ (state.2 ++ state.1.changes).Pairwise fun earlier later => earlier.sequence < later.sequence := by
  intro _ _ _
  obtain ⟨rounds, many⟩ : ∃ rounds, u64Bound ≤ 2 * rounds := ⟨u64Bound, Nat.le_mul_of_pos_left _ Nat.zero_lt_two⟩
  exact ⟨sampleRounds rounds, sampleRounds_repeat many⟩

end Mempool

end BitcoindRs
