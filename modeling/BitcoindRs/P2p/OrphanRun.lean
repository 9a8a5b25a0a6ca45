import BitcoindRs.P2p.OrphanChanges

/-! Runs of the orphan pool. -/

namespace BitcoindRs
open Result Checked FMap Relation List OrphanPool

namespace OrphanPool

section expiry
variable {pool pool' : OrphanPool} {clock : ℕ}
variable {entry : OrphanEntry} {wtxid : Wtxid}

/-- The queue is ordered by age, and no orphan is from the future. -/
structure Aged (clock : ℕ) (pool : OrphanPool) : Prop where
  ordered : pool.insertionOrder.Pairwise fun v w => ∀ e f, pool.entries.lookup v = some e →
    pool.entries.lookup w = some f → e.addedAt ≤ f.addedAt
  past : ∀ wtxid entry, pool.entries.lookup wtxid = some entry → entry.addedAt ≤ clock

def Latest (clock : ℕ) (pool : OrphanPool) (entry : OrphanEntry) : Prop :=
  entry.addedAt ≤ clock ∧ ∀ wtxid stored, pool.entries.lookup wtxid = some stored → stored.addedAt ≤ entry.addedAt

theorem Aged.remove (aged : Aged clock pool) (wtxid : Wtxid) : Aged clock (pool.remove wtxid).2 := by
  have kept : ∀ v e, (pool.remove wtxid).2.entries.lookup v = some e → pool.entries.lookup v = some e := by
    intro v e found
    rw [lookup_remove] at found
    split at found
    · cases found
    · exact found
  have shorter : (pool.remove wtxid).2.insertionOrder.Sublist pool.insertionOrder := by
    unfold OrphanPool.remove
    split
    · exact List.Sublist.refl _
    · exact filter_sublist
  constructor
  · refine (aged.ordered.sublist shorter).imp ?_
    intro v w older e f first second
    exact older e f (kept v e first) (kept w f second)
  · intro v e found
    exact aged.past v e (kept v e found)

theorem Aged.setAnnouncers (aged : Aged clock pool)
    (found : pool.entries.lookup wtxid = some entry) (announcers : Finset ℕ) :
    Aged clock (pool.setAnnouncers wtxid entry announcers) := by
  have kept : ∀ v e, (pool.setAnnouncers wtxid entry announcers).entries.lookup v = some e →
      ∃ e', pool.entries.lookup v = some e' ∧ e'.addedAt = e.addedAt := by
    intro v e there
    rw [lookup_setAnnouncers] at there
    split at there
    · rename_i same
      cases there
      exact ⟨entry, same ▸ found, rfl⟩
    · exact ⟨e, there, rfl⟩
  constructor
  · refine aged.ordered.imp ?_
    intro v w older e f first second
    obtain ⟨e', first', sameE⟩ := kept v e first
    obtain ⟨f', second', sameF⟩ := kept w f second
    rw [← sameE, ← sameF]
    exact older e' f' first' second'
  · intro v e there
    obtain ⟨e', there', same⟩ := kept v e there
    rw [← same]
    exact aged.past v e' there'

variable [Library]

theorem Aged.store (aged : Aged clock pool) (consistent : Consistent pool)
    (fresh : pool.entries.lookup entry.transaction.computeWtxid = none) (latest : Latest clock pool entry) :
    Aged clock (pool.store entry) := by
  have queuedOther : ∀ v ∈ pool.insertionOrder, v ≠ entry.transaction.computeWtxid := by
    intro v queued same
    exact (consistent.queued v).mp queued (same ▸ fresh)
  constructor
  · refine pairwise_append.mpr ⟨?_, pairwise_singleton _ _, ?_⟩
    · refine aged.ordered.imp_of_mem ?_
      intro v w queuedV queuedW older e f first second
      rw [lookup_store, if_neg (queuedOther v queuedV)] at first
      rw [lookup_store, if_neg (queuedOther w queuedW)] at second
      exact older e f first second
    · intro v queued w last e f first second
      rw [mem_singleton.mp last, lookup_store, if_pos rfl] at second
      rw [lookup_store, if_neg (queuedOther v queued)] at first
      cases second
      exact latest.2 v e first
  · intro v e found
    rw [lookup_store] at found
    split at found
    · cases found
      exact latest.1
    · exact aged.past v e found

theorem Changes.aged (changes : Changes (Latest clock) pool pool') (consistent : Consistent pool)
    (aged : Aged clock pool) : Aged clock pool' := by
  have both : Consistent pool' ∧ Aged clock pool' := by
    refine changes.keep (P := fun p => Consistent p ∧ Aged clock p) ?_ ⟨consistent, aged⟩
    intro before after holds change
    refine ⟨change.consistent holds.1, ?_⟩
    cases change with
    | remove wtxid => exact holds.2.remove wtxid
    | announcers found announcers _ => exact holds.2.setAnnouncers found announcers
    | store fresh latest => exact holds.2.store holds.1 fresh latest
  exact both.2

theorem pruneExpired_unexpired (consistent : Consistent pool) (aged : Aged clock pool)
    (found : (pool.pruneExpired clock).entries.lookup wtxid = some entry) :
    entry.expired clock = false := by
  have changes : Changes (Latest clock) pool (pool.pruneExpired clock) := changes_pruneExpired consistent clock
  have consistent' := changes.consistent consistent
  have aged' := changes.aged consistent aged
  have stopped : pruneStep clock (pool.pruneExpired clock) = none :=
    Loop.run_stopped (fun _ _ pruned => pruneStep_shortens pruned) pool
  have queued := (consistent'.queued wtxid).mpr (by rw [found]; exact Option.some_ne_none _)
  unfold pruneStep at stopped
  rcases queue : (pool.pruneExpired clock).insertionOrder with _ | ⟨front, rest⟩
  · rw [queue] at queued
    cases queued
  · rw [queue] at stopped queued
    dsimp only at stopped
    split at stopped
    · cases stopped
    · rename_i fresh
      rcases first : (pool.pruneExpired clock).entries.lookup front with _ | oldest
      · rw [first] at fresh
        exact absurd rfl fresh
      · rw [first] at fresh
        have unexpired : clock < satAddU64 oldest.addedAt orphanTransactionExpiry := by
          simpa [OrphanEntry.expired] using fresh
        have older : oldest.addedAt ≤ entry.addedAt := by
          rcases mem_cons.mp queued with same | later
          · rw [same, first] at found
            cases found
            exact le_rfl
          · have ordered := aged'.ordered
            rw [queue, pairwise_cons] at ordered
            exact ordered.1 wtxid later oldest entry first found
        have monotone : satAddU64 oldest.addedAt orphanTransactionExpiry ≤ satAddU64 entry.addedAt orphanTransactionExpiry :=
          min_le_min (by omega) le_rfl
        exact decide_eq_false (by omega)

end expiry

end OrphanPool

structure Orphanage where
  pool : OrphanPool
  clock : ℕ

namespace Orphanage
variable {node : Orphanage} {operation : Operation} {pool : OrphanPool} {entry : OrphanEntry}

inductive Operation where
  | add (transaction : Transaction) (peer : Option ℕ)
  | addEntry (entry : OrphanEntry)
  | addAnnouncers (transaction : Transaction) (peers : List ℕ)
  | addInventoryAnnouncer (hash : ℕ) (witness : Bool) (peer : ℕ)
  | eraseForPeer (peer : ℕ)
  | eraseForBlock (block : Block)
  | takeChildren (parent : Transaction)
  | remove (wtxid : Wtxid)
  | pruneExpired
  | advance (seconds : ℕ)

variable [Library] [HashOrder ℕ]

def perform (node : Orphanage) : Operation → Orphanage
  | .add transaction peer => { node with pool := (node.pool.add node.clock transaction peer).2 }
  | .addEntry entry => { node with pool := (node.pool.addEntry node.clock entry).2 }
  | .addAnnouncers transaction peers => { node with pool := (node.pool.addAnnouncers node.clock transaction peers).2 }
  | .addInventoryAnnouncer hash witness peer =>
    { node with pool := node.pool.addInventoryAnnouncer node.clock hash witness peer }
  | .eraseForPeer peer => { node with pool := node.pool.eraseForPeer peer }
  | .eraseForBlock block => { node with pool := node.pool.eraseForBlock block }
  | .takeChildren parent => { node with pool := (node.pool.takeChildren node.clock parent).2 }
  | .remove wtxid => { node with pool := (node.pool.remove wtxid).2 }
  | .pruneExpired => { node with pool := node.pool.pruneExpired node.clock }
  | .advance seconds => { node with clock := node.clock + seconds }

def run (start : ℕ) (operations : List Operation) : Orphanage := operations.foldl perform ⟨.new, start⟩

omit [Library] [HashOrder ℕ] in
def Operation.offers (clock : ℕ) : Operation → Option OrphanEntry
  | .add transaction peer => some ⟨transaction, clock, peer.toFinset⟩
  | .addEntry entry => some entry
  | _ => none

def Operation.settles (node : Orphanage) : Operation → Prop
  | .add transaction peer => (node.pool.add node.clock transaction peer).1 = true
  | .addEntry entry => (node.pool.addEntry node.clock entry).1 = true
  | .eraseForPeer _ | .eraseForBlock _ => True
  | _ => False

omit [Library] [HashOrder ℕ] in
def Operation.namesPeer : Operation → Prop
  | .add _ peer => peer ≠ none
  | .addEntry entry => entry.announcers ≠ ∅
  | _ => True

omit [Library] [HashOrder ℕ] in
/-- An orphan that is added again is at least as new as the stored ones. -/
def Operation.inOrder (node : Orphanage) : Operation → Prop
  | .addEntry entry => node.pool.Latest node.clock entry
  | _ => True

/-- Every operation of a run meets a condition in the state it starts from. -/
def Along (condition : Orphanage → Operation → Prop) : Orphanage → List Operation → Prop
  | _, [] => True
  | node, operation :: rest => condition node operation ∧ Along condition (node.perform operation) rest

theorem Along.induction {condition : Orphanage → Operation → Prop} {P : Orphanage → Prop}
    (keeps : ∀ node operation, P node → condition node operation → P (node.perform operation))
    {operations : List Operation} (along : Along condition node operations) (start : P node) :
    P (operations.foldl perform node) := by
  induction operations generalizing node with
  | nil => exact start
  | cons operation rest ih => exact ih along.2 (keeps node operation start along.1)

theorem perform_changes {allow : OrphanPool → OrphanEntry → Prop}
    (consistent : node.pool.Consistent) (operation : Operation)
    (allowed : ∀ entry, operation.offers node.clock = some entry → allow (node.pool.pruneExpired node.clock) entry) :
    OrphanPool.Changes allow node.pool (node.perform operation).pool := by
  have pruned : OrphanPool.Changes allow node.pool (node.pool.pruneExpired node.clock) :=
    changes_pruneExpired consistent node.clock
  cases operation with
  | add transaction peer => exact changes_addEntry consistent (allowed _ rfl)
  | addEntry entry => exact changes_addEntry consistent (allowed _ rfl)
  | addAnnouncers transaction peers =>
    show OrphanPool.Changes allow node.pool (node.pool.addAnnouncers node.clock transaction peers).2
    unfold addAnnouncers
    dsimp only
    split
    · exact pruned
    · rename_i entry found
      refine pruned.tail (.announcers found _ fun some_ none_ => some_ ?_)
      exact (Finset.union_eq_empty.mp none_).1
  | addInventoryAnnouncer hash witness peer =>
    exact pruned.trans (OrphanPool.Changes.fold (fun pool wtxid => changes_addAnnouncer pool peer wtxid) _ _)
  | eraseForPeer peer =>
    refine (OrphanPool.Changes.fold (fun pool wtxid => ?_) _ _).trans (changes_limitOrphans _)
    exact changes_removeAnnouncement pool wtxid peer
  | eraseForBlock block =>
    exact (changes_removeAll _ _).trans (changes_limitOrphans _)
  | takeChildren parent => exact pruned.trans (changes_removeAll _ _)
  | remove wtxid => exact .single (.remove _ wtxid)
  | pruneExpired => exact pruned
  | advance seconds => exact .refl

theorem perform_consistent (operation : Operation) (consistent : node.pool.Consistent) :
    (node.perform operation).pool.Consistent := by
  have changes : OrphanPool.Changes (fun _ _ => True) node.pool (node.perform operation).pool :=
    perform_changes consistent operation fun _ _ => trivial
  exact changes.consistent consistent

theorem perform_announced (consistent : node.pool.Consistent)
    (announced : node.pool.Announced) (names : operation.namesPeer) : (node.perform operation).pool.Announced := by
  refine (perform_changes consistent operation ?_).announced announced
  intro entry offered
  cases operation with
  | add transaction peer =>
    cases offered
    obtain ⟨peer, rfl⟩ := Option.ne_none_iff_exists'.mp names
    exact Finset.singleton_ne_empty peer
  | addEntry entry =>
    cases offered
    exact names
  | _ => cases offered

theorem perform_aged (consistent : node.pool.Consistent)
    (aged : node.pool.Aged node.clock) (inOrder : operation.inOrder node) :
    (node.perform operation).pool.Aged (node.perform operation).clock := by
  have changed : (node.perform operation).pool.Aged node.clock := by
    refine (perform_changes consistent operation ?_).aged consistent aged
    intro entry offered
    cases operation with
    | add transaction peer =>
      cases offered
      refine ⟨le_rfl, fun wtxid stored found => ?_⟩
      exact aged.past wtxid stored (lookup_pruneExpired consistent found)
    | addEntry entry =>
      cases offered
      refine ⟨inOrder.1, fun wtxid stored found => ?_⟩
      exact inOrder.2 wtxid stored (lookup_pruneExpired consistent found)
    | _ => cases offered
  refine ⟨changed.ordered, fun wtxid entry found => (changed.past wtxid entry found).trans ?_⟩
  cases operation <;> simp [perform]

theorem settles_stopped (settles : operation.settles node) : (node.perform operation).pool.limitStep = none := by
  have added : ∀ entry, (node.pool.addEntry node.clock entry).1 = true →
      (node.pool.addEntry node.clock entry).2.limitStep = none := by
    intro entry stored
    unfold addEntry at stored ⊢
    dsimp only at stored ⊢
    split at stored
    · cases stored
    · split at stored
      · cases stored
      · rename_i stores
        rw [if_neg stores]
        exact limitOrphans_stopped _
  cases operation with
  | add transaction peer => exact added _ settles
  | addEntry entry => exact added _ settles
  | eraseForPeer peer => exact limitOrphans_stopped _
  | eraseForBlock block => exact limitOrphans_stopped _
  | _ => exact settles.elim

omit [Library] [HashOrder ℕ] in
theorem consistent_new : new.Consistent := by
  refine ⟨represents_empty.congr fun _ _ => ?_, nodup_nil, fun wtxid => ?_⟩
  · simp [new]
  · simp [new]

theorem run_consistent (start : ℕ) (operations : List Operation) : (run start operations).pool.Consistent := by
  unfold run
  refine List.foldlRecOn operations perform (motive := fun node => node.pool.Consistent) (b := ⟨.new, start⟩)
    consistent_new ?_
  intro node consistent operation _
  exact perform_consistent operation consistent

omit [Library] in
theorem limitOrphans_unannounced (nobody : pool.announcementCount = 0) : pool.limitOrphans = pool := by
  unfold limitOrphans Loop.run
  rw [nobody, Loop.rounds]

theorem addEntry_unannounced {now : ℕ}
    (kept : pruneStep now pool = none) (fresh : pool.entries.lookup entry.transaction.computeWtxid = none)
    (fits : ¬(maxOrphanTransactionWeight < entry.transaction.weight ∨ entry.expired now = true))
    (nobody : (pool.store entry).announcementCount = 0) : pool.addEntry now entry = (true, pool.store entry) := by
  unfold addEntry
  have pruned : pool.pruneExpired now = pool := Loop.run_of_stopped kept
  dsimp only
  rw [pruned, fresh]
  dsimp only
  rw [if_neg fits, limitOrphans_unannounced nobody]

omit [HashOrder ℕ] in
theorem total_store (f : OrphanEntry → ℕ) (fresh : pool.entries.lookup entry.transaction.computeWtxid = none) :
    total f (pool.store entry).entries = total f pool.entries + f entry := total_insert_fresh f _ _ _ fresh

theorem run_unannounced {a b : Transaction} (different : b.computeWtxid ≠ a.computeWtxid)
    (fitsA : a.weight ≤ maxOrphanTransactionWeight) (fitsB : b.weight ≤ maxOrphanTransactionWeight) :
    ((run 0 [.add a none]).pool.add 0 b none).1 = true ∧
      (run 0 [.add a none, .add b none]).pool.totalWeight = a.weight + b.weight ∧
      (run 0 [.add a none, .add b none]).pool.peers = ∅ := by
  let first : OrphanEntry := ⟨a, 0, ∅⟩
  let second : OrphanEntry := ⟨b, 0, ∅⟩
  have young : ∀ tx : Transaction, (⟨tx, 0, ∅⟩ : OrphanEntry).expired 0 ≠ true := by
    intro tx expired
    have due : satAddU64 0 orphanTransactionExpiry ≤ 0 := of_decide_eq_true expired
    exact absurd due (by decide)
  have freshB : (new.store first).entries.lookup b.computeWtxid = none := by
    rw [lookup_store, if_neg different]
    rfl
  have addA : new.addEntry 0 first = (true, new.store first) := by
    refine addEntry_unannounced rfl rfl ?_ (total_store _ rfl)
    rintro (heavy | expired)
    · exact absurd fitsA (Nat.not_le.mpr heavy)
    · exact young a expired
  have addB : (new.store first).addEntry 0 second = (true, (new.store first).store second) := by
    refine addEntry_unannounced ?_ freshB ?_ ((total_store _ freshB).trans ?_)
    · have kept : (new.store first).entries.lookup a.computeWtxid = some first := by
        rw [lookup_store, if_pos rfl]
      show (if ((new.store first).entries.lookup a.computeWtxid).all (·.expired 0) then _ else none) = none
      rw [kept, Option.all_some, if_neg (young a)]
    · rintro (heavy | expired)
      · exact absurd fitsB (Nat.not_le.mpr heavy)
      · exact young b expired
    · exact congrArg (· + 0) (total_store _ rfl)
  have after : (run 0 [.add a none]).pool.add 0 b none = (true, (new.store first).store second) := by
    have one : (run 0 [.add a none]).pool = new.store first := congrArg Prod.snd addA
    rw [one]
    exact addB
  have final : (run 0 [.add a none, .add b none]).pool = (new.store first).store second :=
    congrArg Prod.snd after
  refine ⟨congrArg Prod.fst after, ?_, ?_⟩
  · rw [final]
    exact (total_store _ freshB).trans (congrArg (· + b.weight) ((total_store _ rfl).trans (Nat.zero_add _)))
  · rw [final]
    refine Finset.eq_empty_of_forall_notMem fun peer member => ?_
    obtain ⟨wtxid, entry, found, announced⟩ := mem_peers.mp member
    rw [lookup_store, lookup_store] at found
    split at found
    · cases found
      cases announced
    · split at found
      · cases found
        cases announced
      · cases found

def samplePaying (id : ℕ) (script : Script) : Transaction := ⟨2, id, [⟨⟨7, id⟩, [], 0, []⟩], [⟨0, script⟩]⟩

omit [Library] [HashOrder ℕ] in
theorem samplePaying_weight (id : ℕ) {script : Script} (long : script.length = 75000) :
    (samplePaying id script).weight = 300256 := by
  unfold samplePaying Transaction.weight Transaction.totalSize Transaction.baseSize Transaction.usesSegwitSerialization
  have sizes : (Codec.compactSize 0).length = 1 ∧ (Codec.compactSize 1).length = 1 ∧
      (Codec.compactSize 75000).length = 5 := by decide
  simp [TxOut.size, TxIn.baseSize, long, sizes]

def sampleHeavy (id : ℕ) : Transaction := samplePaying id (List.replicate 75000 0)

omit [Library] [HashOrder ℕ] in
theorem sampleHeavy_weight (id : ℕ) : (sampleHeavy id).weight = 300256 := samplePaying_weight id length_replicate

def samplePutBack : List Operation :=
  [.add (sampleSpend 1 [⟨1005, 0⟩, ⟨1006, 0⟩] [100]) (some 1), .advance 100, .add (sampleSpend 2 [⟨1007, 0⟩] [100]) (some 1),
    .takeChildren (sampleSpend 5 [⟨7, 0⟩] [200]), .addEntry ⟨sampleSpend 1 [⟨1005, 0⟩, ⟨1006, 0⟩] [100], 0, {1}⟩, .advance 1150]

end Orphanage

end BitcoindRs
