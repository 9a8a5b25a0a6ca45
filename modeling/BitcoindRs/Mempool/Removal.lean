import BitcoindRs.Mempool.Reorg

/-! Ways out of the pool. -/

namespace BitcoindRs
open Relation Worklist Checked List

namespace Mempool
variable {p q pool r : Mempool} {txid child other removed : Txid} {entry : MempoolEntry} {guarded : Finset Txid}
variable {eviction : Eviction} {outpoint : OutPoint}

theorem removeTransactionScripts_eq (pool : Mempool) (txid : Txid) : pool.removeTransactionScripts txid = { pool with
      inputScriptValuesByTransaction := pool.inputScriptValuesByTransaction.erase txid
      scriptsByTransaction := pool.scriptsByTransaction.erase txid
      transactionsByScript := ((pool.scriptsByTransaction.lookup txid).getD []).foldl
        (fun m script => m.discard script txid) pool.transactionsByScript } := by
  unfold removeTransactionScripts
  rcases found : pool.scriptsByTransaction.lookup txid with _ | scripts
  · simp [found, FMap.erase_absent _ _ found]
  · simp [found]

variable [Library] [PolicyLibrary]

theorem removeWithNotification_absent (absent : pool.entries.lookup txid = none)
    (notifyZmq : Bool) : pool.removeWithNotification txid notifyZmq = pool := by
  rw [removeWithNotification, absent]

theorem removeWithNotification_present (present : pool.entries.lookup txid = some entry) (notifyZmq : Bool) :
    pool.removeWithNotification txid notifyZmq = { pool with
      entries := pool.entries.erase txid
      inputScriptValuesByTransaction := pool.inputScriptValuesByTransaction.erase txid
      scriptsByTransaction := pool.scriptsByTransaction.erase txid
      transactionsByScript := ((pool.scriptsByTransaction.lookup txid).getD []).foldl
        (fun m script => m.discard script txid) pool.transactionsByScript
      adjustedWeights := pool.adjustedWeights.erase txid
      unbroadcast := pool.unbroadcast.erase txid
      wtxids := pool.wtxids.erase entry.transaction.computeWtxid
      relaySequences := pool.relaySequences.erase txid
      memoryUsage := pool.memoryUsage -
        usize (mempoolEntryMemoryUsage entry.transaction + pool.scripthashIndexMemoryUsageFor txid)
      bytes := pool.bytes - entry.transaction.totalSize
      vbytes := pool.vbytes - entry.vsize
      spent := pool.spent.eraseAll entry.transaction.prevouts
      childIndex := (entry.transaction.inputTxids.foldl (fun m parent => m.discard parent txid) pool.childIndex).erase txid
      sequence := satAddU64 pool.sequence 1
      changes := pool.changes ++ [⟨entry.transaction, pool.sequence, .removed notifyZmq, pool.scriptsByTransaction.lookup txid⟩] } := by
  unfold removeWithNotification
  rw [present]
  dsimp only
  rw [removeTransactionScripts_eq]
  rfl

@[simp] theorem entries_removeWithNotification (pool : Mempool) (txid : Txid) (notifyZmq : Bool) :
    (pool.removeWithNotification txid notifyZmq).entries = pool.entries.erase txid := by
  rcases present : pool.entries.lookup txid with _ | entry
  · rw [removeWithNotification_absent present, FMap.erase_absent _ _ present]
  · rw [removeWithNotification_present present]

@[simp] theorem policy_removeWithNotification (pool : Mempool) (txid : Txid) (notifyZmq : Bool) :
    (pool.removeWithNotification txid notifyZmq).policy = pool.policy := by
  rcases present : pool.entries.lookup txid with _ | entry
  · rw [removeWithNotification_absent present]
  · rw [removeWithNotification_present present]

@[simp] theorem contains_removeWithNotification (pool : Mempool) (txid other : Txid) (notifyZmq : Bool) :
    (pool.removeWithNotification txid notifyZmq).contains other = (decide (other ≠ txid) && pool.contains other) := by
  rw [contains, contains, entries_removeWithNotification, FMap.lookup_erase_ite]
  by_cases same : other = txid <;> simp [same]

def indexed (pool : Mempool) : Mempool :=
  { pool with
    policy := {}, maxBytes := 0, rollingMinFeeSatPerKvb := ⟨0⟩, rollingFeeLastUpdated := 0, blockSinceLastRollingFeeBump := false
    priorities := ∅, unbroadcast := ∅, relaySequences := ∅ }

/-- Changes elsewhere. Of the policy only one switch ever moves. -/
structure Tuned (p q : Mempool) : Prop where
  same : q.indexed = p.indexed
  policy : q.policy = { p.policy with requireStandard := q.policy.requireStandard }
  unbroadcast : ∀ txid ∈ q.unbroadcast, txid ∈ p.unbroadcast ∨ p.contains txid = true
  relaySequences : ∀ txid, (q.relaySequences.lookup txid).isSome = (p.relaySequences.lookup txid).isSome

section
omit [Library] [PolicyLibrary]

theorem Tuned.refl (p : Mempool) : Tuned p p := ⟨rfl, rfl, fun _ listed => .inl listed, fun _ => rfl⟩

theorem Tuned.field {α : Type} (tuned : Tuned p q) (f : Mempool → α) (frame : ∀ pool, f (indexed pool) = f pool) :
    f q = f p := by
  rw [← frame q, tuned.same, frame]

theorem Tuned.entries (tuned : Tuned p q) : q.entries = p.entries := tuned.field Mempool.entries fun _ => rfl

theorem Tuned.contains (tuned : Tuned p q) (txid : Txid) : q.contains txid = p.contains txid := by
  rw [Mempool.contains, Mempool.contains, tuned.entries]

theorem Tuned.trans (first : Tuned p q) (second : Tuned q r) : Tuned p r where
  same := second.same.trans first.same
  policy := by rw [second.policy, first.policy]
  unbroadcast := by
    intro txid listed
    rcases second.unbroadcast txid listed with early | inside
    · exact first.unbroadcast txid early
    · exact .inr (by rwa [← first.contains txid])
  relaySequences := fun txid => (second.relaySequences txid).trans (first.relaySequences txid)

end

/-- One removal, or a change elsewhere. -/
inductive Leave (p : Mempool) : Mempool → Prop
  | remove (txid : Txid) (notifyZmq : Bool) : Leave p (p.removeWithNotification txid notifyZmq)
  | tune {q : Mempool} (tuned : Tuned p q) : Leave p q

abbrev Leaves : Mempool → Mempool → Prop := ReflTransGen Leave

theorem Leave.entries (leave : Leave p q)
    (inside : q.entries.lookup txid = some entry) : p.entries.lookup txid = some entry := by
  cases leave with
  | remove removed _ =>
    rw [entries_removeWithNotification, FMap.lookup_erase_ite] at inside
    split at inside
    · cases inside
    · exact inside
  | tune tuned => rwa [tuned.entries] at inside

theorem Leaves.entries (leaves : Leaves p q)
    (inside : q.entries.lookup txid = some entry) : p.entries.lookup txid = some entry := by
  induction leaves with
  | refl => exact inside
  | tail _ leave ih => exact ih (leave.entries inside)

theorem Leaves.contains (leaves : Leaves p q) (inside : q.contains txid = true) : p.contains txid = true := by
  obtain ⟨entry, found⟩ := contains_iff.mp inside
  exact contains_iff.mpr ⟨entry, leaves.entries found⟩

theorem Leave.spent (leave : Leave p q) (free : p.spent.lookup outpoint = none) : q.spent.lookup outpoint = none := by
  cases leave with
  | remove removed _ =>
    rcases present : p.entries.lookup removed with _ | entry
    · rwa [removeWithNotification_absent present]
    · rw [removeWithNotification_present present]
      show (p.spent.eraseAll entry.transaction.prevouts).lookup outpoint = none
      rw [FMap.lookup_eraseAll]
      split
      · rfl
      · exact free
  | tune tuned => rwa [tuned.field Mempool.spent fun _ => rfl]

theorem Leaves.spent (leaves : Leaves p q) (free : p.spent.lookup outpoint = none) :
    q.spent.lookup outpoint = none := by
  induction leaves with
  | refl => exact free
  | tail _ leave ih => exact leave.spent ih

theorem Leaves.policy (leaves : Leaves p q) :
    q.policy = { p.policy with requireStandard := q.policy.requireStandard } := by
  induction leaves with
  | refl => rfl
  | @tail m q _ leave ih =>
    cases leave with
    | remove removed notifyZmq => rw [policy_removeWithNotification]; exact ih
    | tune tuned => rw [tuned.policy, ih]

theorem leaves_foldl {α : Type} {f : Mempool → α → Mempool} (step : ∀ pool a, Leaves pool (f pool a)) (xs : List α)
    (pool : Mempool) : Leaves pool (xs.foldl f pool) := by
  induction xs generalizing pool with
  | nil => exact .refl
  | cons x xs ih => exact (step pool x).trans (ih (f pool x))

theorem leaves_removeAll (pool : Mempool) (ids : List Txid) : Leaves pool (pool.removeAll ids) :=
  leaves_foldl (fun _ txid => .single (.remove txid true)) ids pool

theorem contains_removeAll (pool : Mempool) (ids : List Txid) (txid : Txid) :
    (pool.removeAll ids).contains txid = (decide (txid ∉ ids) && pool.contains txid) := by
  induction ids generalizing pool with
  | nil => simp [removeAll]
  | cons id ids ih =>
    show ((pool.remove id).removeAll ids).contains txid = _
    rw [ih, remove, contains_removeWithNotification]
    by_cases same : txid = id <;> by_cases later : txid ∈ ids <;> simp [same, later]

variable [HashOrder ℕ]

theorem mem_children_remove (notifyZmq : Bool)
    (linked : child ∈ pool.children txid) (parentStays : txid ≠ removed) (childStays : child ≠ removed) :
    child ∈ (pool.removeWithNotification removed notifyZmq).children txid := by
  rcases present : pool.entries.lookup removed with _ | entry
  · rwa [removeWithNotification_absent present]
  obtain ⟨children, found, member, inside⟩ := mem_children.mp linked
  obtain ⟨values, there, member⟩ := FMap.discardAll_keeps entry.transaction.inputTxids childStays ⟨children, found, member⟩
  refine mem_children.mpr ⟨values, ?_, member, ?_⟩
  · rw [removeWithNotification_present present]
    exact (FMap.lookup_erase_ite _ removed txid).trans ((if_neg parentStays).trans there)
  · rw [contains_removeWithNotification, inside]
    simp [childStays]

theorem mem_children_of_remove {notifyZmq : Bool}
    (linked : child ∈ (pool.removeWithNotification removed notifyZmq).children txid) : child ∈ pool.children txid := by
  rcases present : pool.entries.lookup removed with _ | entry
  · rwa [removeWithNotification_absent present] at linked
  obtain ⟨children, found, member, inside⟩ := mem_children.mp linked
  rw [contains_removeWithNotification, Bool.and_eq_true] at inside
  rw [removeWithNotification_present present] at found
  have before := (FMap.lookup_erase_ite _ removed txid).symm.trans found
  split at before
  · cases before
  · obtain ⟨values, there, member⟩ := FMap.discardAll_only _ ⟨children, before, member⟩
    exact mem_children.mpr ⟨values, there, member, inside.2⟩

omit [Library] [PolicyLibrary] in
theorem Tuned.children (tuned : Tuned p q) (txid : Txid) : q.children txid = p.children txid := by
  have same : q.contains = p.contains := funext tuned.contains
  rw [Mempool.children, Mempool.children, tuned.field Mempool.childIndex fun _ => rfl, same]

theorem Leaves.mem_children (leaves : Leaves p q) (linked : child ∈ p.children txid)
    (parentStays : q.contains txid = true) (childStays : q.contains child = true) : child ∈ q.children txid := by
  induction leaves with
  | refl => exact linked
  | tail _ leave ih =>
    cases leave with
    | remove removed notifyZmq =>
      rw [contains_removeWithNotification, Bool.and_eq_true, decide_eq_true_eq] at parentStays childStays
      exact mem_children_remove notifyZmq (ih parentStays.2 childStays.2) parentStays.1 childStays.1
    | tune tuned =>
      rw [tuned.children]
      exact ih (by rwa [← tuned.contains txid]) (by rwa [← tuned.contains child])

theorem Leaves.mem_children_of (leaves : Leaves p q) (linked : child ∈ q.children txid) : child ∈ p.children txid := by
  induction leaves with
  | refl => exact linked
  | tail _ leave ih =>
    cases leave with
    | remove removed notifyZmq => exact ih (mem_children_of_remove linked)
    | tune tuned => exact ih (by rwa [← tuned.children])

def silentRemovals (changes : List MempoolChange) : List MempoolChange := changes.filter fun change => change.kind = .removed false

omit [HashOrder ℕ] in
theorem silentRemovals_remove (pool : Mempool) (txid : Txid) :
    silentRemovals (pool.removeWithNotification txid true).changes = silentRemovals pool.changes := by
  rcases present : pool.entries.lookup txid with _ | entry
  · rw [removeWithNotification_absent present]
  · rw [removeWithNotification_present present, silentRemovals, filter_append]
    exact append_nil _

/-- Announced removals after which no listed child of a removed entry is left. -/
structure Withdraws (p q : Mempool) : Prop where
  leaves : Leaves p q
  closed : ∀ txid, p.contains txid = true → q.contains txid = false → ∀ child ∈ p.children txid, q.contains child = false
  announced : silentRemovals q.changes = silentRemovals p.changes

theorem Withdraws.tuned (tuned : Tuned p q) : Withdraws p q :=
  ⟨.single (.tune tuned), fun txid inside outside => (by rw [tuned.contains, inside] at outside; cases outside),
    congrArg silentRemovals (tuned.field Mempool.changes fun _ => rfl)⟩

theorem Withdraws.refl (p : Mempool) : Withdraws p p := .tuned (.refl p)

theorem Withdraws.trans (first : Withdraws p q) (second : Withdraws q r) : Withdraws p r where
  leaves := first.leaves.trans second.leaves
  closed := by
    intro txid inside outside child linked
    by_contra stays
    have childEnd : r.contains child = true := by simpa using stays
    have childMid : q.contains child = true := second.leaves.contains childEnd
    have parentMid : q.contains txid = true := by
      by_contra gone
      rw [first.closed txid inside (by simpa using gone) child linked] at childMid
      cases childMid
    rw [second.closed txid parentMid outside child (first.leaves.mem_children linked parentMid childMid)] at childEnd
    cases childEnd
  announced := second.announced.trans first.announced

theorem withdraws_foldl {α : Type} {f : Mempool → α → Mempool} (step : ∀ pool a, Withdraws pool (f pool a)) (xs : List α)
    (pool : Mempool) : Withdraws pool (xs.foldl f pool) := by
  induction xs generalizing pool with
  | nil => exact .refl pool
  | cons x xs ih => exact (step pool x).trans (ih (f pool x))

theorem withdraws_removeAll {ids : List Txid}
    (closed : ∀ txid ∈ ids, ∀ child ∈ pool.children txid, child ∈ ids) : Withdraws pool (pool.removeAll ids) where
  leaves := leaves_removeAll pool ids
  closed := by
    intro txid inside outside child linked
    rw [contains_removeAll, inside, Bool.and_true, decide_eq_false_iff_not, not_not] at outside
    rw [contains_removeAll, decide_eq_false (not_not.mpr (closed txid outside child linked)), Bool.false_and]
  announced := Result.foldl_frame (g := fun pool => silentRemovals pool.changes) silentRemovals_remove ids pool

omit [Library] [PolicyLibrary] in
theorem children_subset (linked : child ∈ pool.children txid) : child ∈ pool.entries.keys := by
  obtain ⟨-, -, -, inside⟩ := mem_children.mp linked
  exact contains_iff_mem.mp inside

omit [Library] [PolicyLibrary] in
theorem mem_others {next : Txid → List Txid} (inner : ∀ a, ∀ b ∈ next a, b ∈ pool.entries.keys) :
    (other ∈ if pool.contains txid then
        let found := spread (fun t => (next t).filter (· ≠ txid)) (1 + pool.entries.keys.card) [txid] ∅
        pool.transactionOrder.filter (· ∈ found)
      else []) ↔ pool.contains txid = true ∧ other ≠ txid ∧ Reaches next txid other := by
  by_cases inside : pool.contains txid = true
  · rw [if_pos inside, mem_filter, decide_eq_true_iff, (transactionOrder_spec pool).2, mem_spread_others inner]
    constructor
    · exact fun ⟨_, different, path⟩ => ⟨inside, different, path⟩
    · rintro ⟨-, different, path⟩
      refine ⟨?_, different, path⟩
      rcases path.cases_tail with rfl | ⟨_, -, last⟩
      · exact inside
      · exact contains_iff_mem.mpr (inner _ _ last)
  · rw [if_neg inside]
    simp [inside]

omit [Library] [PolicyLibrary] in
theorem mem_descendants : other ∈ pool.descendants txid ↔
    pool.contains txid = true ∧ other ≠ txid ∧ Reaches pool.children txid other :=
  mem_others fun _ _ member => children_subset member

theorem Leaves.mem_descendants_of (leaves : Leaves p q) (below : other ∈ q.descendants txid) :
    other ∈ p.descendants txid := by
  obtain ⟨inside, different, path⟩ := mem_descendants.mp below
  exact mem_descendants.mpr ⟨leaves.contains inside, different, path.lift id fun _ _ => leaves.mem_children_of⟩

theorem withdraws_removeRecursive (pool : Mempool) (txid : Txid) : Withdraws pool (pool.removeRecursive txid) := by
  have same : pool.removeRecursive txid = pool.removeAll ((pool.descendants txid).reverse ++ [txid]) := by
    rw [removeRecursive, removeAll, removeAll, List.foldl_append]
    rfl
  rw [same]
  by_cases inside : pool.contains txid = true
  · refine withdraws_removeAll fun t member child linked => ?_
    rw [mem_append, mem_reverse, mem_singleton] at member ⊢
    have path : Reaches pool.children txid t := by
      rcases member with below | rfl
      · exact (mem_descendants.mp below).2.2
      · exact .refl
    by_cases start : child = txid
    · exact .inr start
    · exact .inl (mem_descendants.mpr ⟨inside, start, path.tail linked⟩)
  · have absent : pool.entries.lookup txid = none := by
      rwa [contains, Bool.not_eq_true, Option.isSome_eq_false_iff, Option.isNone_iff_eq_none] at inside
    have none_ : pool.descendants txid = [] := by
      rw [descendants, if_neg inside]
    rw [none_]
    show Withdraws pool (pool.removeWithNotification txid true)
    rw [removeWithNotification_absent absent]
    exact .refl pool

omit [Library] [PolicyLibrary] in
theorem mem_conflictsAndDescendants {conflicts : List Txid} :
    txid ∈ pool.conflictsAndDescendants conflicts ↔ ∃ conflict ∈ conflicts, Reaches pool.children conflict txid := by
  rw [conflictsAndDescendants]
  exact mem_reach (fun a b linked => Finset.mem_union_left _ (children_subset linked))
    fun a member => Finset.mem_union_right _ (mem_toFinset.mpr member)

theorem withdraws_conflicts (pool : Mempool) (conflicts : List Txid) :
    Withdraws pool (pool.removeAll (HashOrder.elements (pool.conflictsAndDescendants conflicts))) := by
  refine withdraws_removeAll fun txid member child linked => ?_
  rw [HashOrder.mem, mem_conflictsAndDescendants] at member ⊢
  obtain ⟨conflict, direct, path⟩ := member
  exact ⟨conflict, direct, path.tail linked⟩

omit [Library] [PolicyLibrary] in
theorem mem_evictionPackage (inside : pool.contains txid = true) :
    other ∈ pool.evictionPackage txid ↔ Reaches pool.children txid other := by
  rw [evictionPackage, Finset.mem_insert, mem_toFinset, mem_descendants]
  by_cases same : other = txid
  · subst same
    exact ⟨fun _ => .refl, fun _ => .inl rfl⟩
  · simp [same, inside]

/-- What the search for a package to evict returns is the package of an entry that leaves the guarded entries alone. -/
structure Evictable (pool : Mempool) (guarded : Finset Txid) (eviction : Eviction) : Prop where
  inside : pool.contains eviction.txid = true
  package : eviction.package = pool.evictionPackage eviction.txid
  spared : Disjoint eviction.package guarded
  vsize : eviction.vsize = pool.packageVsize eviction.package
  fee : eviction.fee = pool.packageFee eviction.package
  positive : eviction.vsize ≠ 0

omit [Library] [PolicyLibrary] in
theorem lowestEvictionPackage_evictable
    (lowest : pool.lowestEvictionPackage guarded = some eviction) : Evictable pool guarded eviction := by
  have loop : ∀ (ids : List Txid) (best : Option Eviction), (∀ txid ∈ ids, pool.contains txid = true) →
      (∀ found, best = some found → Evictable pool guarded found) →
      ∀ found, ids.foldl (pool.considerEviction guarded) best = some found → Evictable pool guarded found := by
    intro ids
    induction ids with
    | nil => exact fun best _ good => good
    | cons txid ids ih =>
      intro best inside good
      refine ih _ (fun t later => inside t (mem_cons_of_mem _ later)) ?_
      intro found considered
      rw [considerEviction] at considered
      dsimp only at considered
      split at considered
      · exact good found considered
      · rename_i eligible
        rw [not_or, not_not] at eligible
        have new : Evictable pool guarded ⟨pool.evictionPackage txid, txid,
            pool.packageVsize (pool.evictionPackage txid), pool.packageFee (pool.evictionPackage txid)⟩ :=
          ⟨inside txid mem_cons_self, rfl, eligible.1, rfl, rfl, eligible.2⟩
        split at considered
        · cases considered
          exact new
        · split at considered
          · cases considered
            exact new
          · cases considered
            exact good _ rfl
  refine loop _ none (fun txid member => ?_) (fun found impossible => nomatch impossible) eviction lowest
  exact contains_iff_mem.mpr ((HashOrder.mem _ _).mp member)

omit [Library] [PolicyLibrary] [HashOrder ℕ] in
theorem Tuned.of_rolling (pool : Mempool) (fee : Double) (since : Bool) :
    Tuned pool { pool with rollingMinFeeSatPerKvb := fee, blockSinceLastRollingFeeBump := since } :=
  ⟨rfl, rfl, fun _ listed => .inl listed, fun _ => rfl⟩

theorem withdraws_evict (evictable : Evictable pool guarded eviction) : Withdraws pool (pool.evict eviction) := by
  refine (Withdraws.tuned (Tuned.of_rolling pool _ false)).trans (withdraws_removeAll fun txid member child linked => ?_)
  rw [HashOrder.mem, evictable.package, mem_evictionPackage evictable.inside] at member ⊢
  exact member.tail linked

theorem contains_evict (evictable : Evictable pool guarded eviction) (spared : txid ∈ guarded) :
    (pool.evict eviction).contains txid = pool.contains txid := by
  have outside : txid ∉ HashOrder.elements eviction.package := fun member =>
    Finset.disjoint_left.mp evictable.spared ((HashOrder.mem _ _).mp member) spared
  rw [evict, contains_removeAll, decide_eq_true outside, Bool.true_and]
  rfl

theorem withdraws_ensureSpaceLoop (additionalMemory : ℕ) (guarded : Finset Txid) (rounds : ℕ) (pool : Mempool) :
    Withdraws pool (ensureSpaceLoop additionalMemory guarded rounds pool).2 ∧
      ∀ txid ∈ guarded, (ensureSpaceLoop additionalMemory guarded rounds pool).2.contains txid = pool.contains txid := by
  induction rounds generalizing pool with
  | zero => exact ⟨.refl pool, fun _ _ => rfl⟩
  | succ rounds ih =>
    rw [ensureSpaceLoop]
    split
    · exact ⟨.refl pool, fun _ _ => rfl⟩
    · split
      · exact ⟨.refl pool, fun _ _ => rfl⟩
      · rename_i eviction lowest
        have evictable := lowestEvictionPackage_evictable lowest
        obtain ⟨rest, spared⟩ := ih (pool.evict eviction)
        exact ⟨(withdraws_evict evictable).trans rest, fun txid member =>
          (spared txid member).trans (contains_evict evictable member)⟩

theorem withdraws_ensureSpace (pool : Mempool) (additionalMemory : ℕ) (guarded : Finset Txid) :
    Withdraws pool (pool.ensureSpace additionalMemory guarded).2 ∧
      ∀ txid ∈ guarded, (pool.ensureSpace additionalMemory guarded).2.contains txid = pool.contains txid := by
  rw [ensureSpace]
  split
  · exact ⟨.refl pool, fun _ _ => rfl⟩
  · exact withdraws_ensureSpaceLoop _ _ _ _

theorem withdraws_enforceSizeLimit (pool : Mempool) : Withdraws pool pool.enforceSizeLimit := (withdraws_ensureSpace pool 0 ∅).1

theorem withdraws_removeConflicts (pool : Mempool) (block : Block) : Withdraws pool (pool.removeConflicts block) :=
  withdraws_foldl withdraws_removeRecursive _ pool

theorem withdraws_removeForReorg (pool : Mempool) (view : ChainView) : Withdraws pool (pool.removeForReorg view) := by
  refine withdraws_foldl (fun pool txid => ?_) _ pool
  split
  · exact withdraws_removeRecursive pool txid
  · exact .refl pool

theorem withdraws_clearExpired (pool : Mempool) (now age : ℕ) : Withdraws pool (pool.clearExpired now age) :=
  withdraws_foldl withdraws_removeRecursive _ pool

omit [HashOrder ℕ] in
theorem leaves_removeConfirmed (pool : Mempool) (now : ℕ) (block : Block) : Leaves pool (pool.removeConfirmed now block) := by
  have each : ∀ (pool : Mempool) (tx : Transaction), Leaves pool (let pool := pool.removeWithNotification tx.computeTxid false
      { pool with priorities := pool.priorities.erase tx.computeTxid }) := fun pool tx =>
    have out : Leaves pool (pool.removeWithNotification tx.computeTxid false) := .single (.remove _ _)
    out.tail (.tune ⟨rfl, rfl, fun _ listed => .inl listed, fun _ => rfl⟩)
  exact (leaves_foldl each block.txdata pool).tail (.tune ⟨rfl, rfl, fun _ listed => .inl listed, fun _ => rfl⟩)

end Mempool

end BitcoindRs
