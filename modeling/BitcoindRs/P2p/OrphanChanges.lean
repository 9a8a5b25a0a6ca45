import BitcoindRs.P2p.OrphanPool

/-!
Every call to the orphan pool is made of three kinds of change: an orphan goes, its announcers change, or a new one is
stored.
-/

namespace BitcoindRs
open Result Checked FMap Relation List

namespace OrphanPool

structure Consistent (pool : OrphanPool) : Prop where
  inverse : Represents pool.byPrevout fun outpoint wtxid =>
    ∃ entry, pool.entries.lookup wtxid = some entry ∧ outpoint ∈ entry.transaction.prevouts
  distinct : pool.insertionOrder.Nodup
  queued : ∀ wtxid, wtxid ∈ pool.insertionOrder ↔ pool.entries.lookup wtxid ≠ none

/-- One change of the pool; a new entry must be allowed in the pool it is stored to. -/
inductive Change [Library] (allow : OrphanPool → OrphanEntry → Prop) : OrphanPool → OrphanPool → Prop
  | remove (pool : OrphanPool) (wtxid : Wtxid) : Change allow pool (pool.remove wtxid).2
  | announcers {pool : OrphanPool} {wtxid : Wtxid} {entry : OrphanEntry} (found : pool.entries.lookup wtxid = some entry)
      (announcers : Finset ℕ) (some_ : entry.announcers ≠ ∅ → announcers ≠ ∅) :
      Change allow pool (pool.setAnnouncers wtxid entry announcers)
  | store {pool : OrphanPool} {entry : OrphanEntry} (fresh : pool.entries.lookup entry.transaction.computeWtxid = none)
      (allowed : allow pool entry) : Change allow pool (pool.store entry)

abbrev Changes [Library] (allow : OrphanPool → OrphanEntry → Prop) : OrphanPool → OrphanPool → Prop :=
  ReflTransGen (Change allow)

theorem lookup_remove (pool : OrphanPool) (wtxid v : Wtxid) :
    (pool.remove wtxid).2.entries.lookup v = if v = wtxid then none else pool.entries.lookup v := by
  unfold remove
  rcases found : pool.entries.lookup wtxid with _ | entry
  · dsimp only
    by_cases same : v = wtxid
    · rw [if_pos same, same]
      exact found
    · rw [if_neg same]
  · exact lookup_erase_ite _ _ _

theorem lookup_setAnnouncers (pool : OrphanPool) (wtxid v : Wtxid) (entry : OrphanEntry) (announcers : Finset ℕ) :
    (pool.setAnnouncers wtxid entry announcers).entries.lookup v =
      if v = wtxid then some { entry with announcers } else pool.entries.lookup v := lookup_insert_ite _ _ _ _

theorem Consistent.remove {pool : OrphanPool} (consistent : Consistent pool) (wtxid : Wtxid) :
    Consistent (pool.remove wtxid).2 := by
  unfold OrphanPool.remove
  rcases found : pool.entries.lookup wtxid with _ | entry
  · exact consistent
  · constructor
    · refine (consistent.inverse.discardAll entry.transaction.prevouts wtxid).congr fun outpoint v => ?_
      rw [lookup_erase_ite]
      by_cases same : v = wtxid
      · subst same
        rw [if_pos rfl]
        constructor
        · rintro ⟨⟨other, there, spends⟩, kept⟩
          rw [found] at there
          cases there
          exact absurd ⟨spends, rfl⟩ kept
        · rintro ⟨_, absent, -⟩
          cases absent
      · rw [if_neg same]
        exact ⟨fun both => both.1, fun spends => ⟨spends, fun both => same both.2⟩⟩
    · exact consistent.distinct.filter _
    · intro v
      rw [lookup_erase_ite, mem_filter, consistent.queued v]
      by_cases same : v = wtxid <;> simp [same]

theorem Consistent.setAnnouncers {pool : OrphanPool} (consistent : Consistent pool) {wtxid : Wtxid} {entry : OrphanEntry}
    (found : pool.entries.lookup wtxid = some entry) (announcers : Finset ℕ) :
    Consistent (pool.setAnnouncers wtxid entry announcers) := by
  constructor
  · refine consistent.inverse.congr fun outpoint v => ?_
    rw [lookup_setAnnouncers]
    by_cases same : v = wtxid
    · subst same
      rw [if_pos rfl, found]
      simp
    · rw [if_neg same]
  · exact consistent.distinct
  · intro v
    rw [lookup_setAnnouncers]
    show v ∈ pool.insertionOrder ↔ _
    rw [consistent.queued v]
    by_cases same : v = wtxid
    · subst same
      simp [found]
    · rw [if_neg same]

section changes
variable [Library] {allow : OrphanPool → OrphanEntry → Prop} {pool pool' : OrphanPool}
variable {now : ℕ} {entry : OrphanEntry}

theorem lookup_store (pool : OrphanPool) (entry : OrphanEntry) (v : Wtxid) : (pool.store entry).entries.lookup v =
      if v = entry.transaction.computeWtxid then some entry else pool.entries.lookup v := lookup_insert_ite _ _ _ _

theorem Consistent.store (consistent : Consistent pool)
    (fresh : pool.entries.lookup entry.transaction.computeWtxid = none) : Consistent (pool.store entry) := by
  constructor
  · refine (consistent.inverse.recordAll entry.transaction.prevouts entry.transaction.computeWtxid).congr
      fun outpoint v => ?_
    rw [lookup_store]
    by_cases same : v = entry.transaction.computeWtxid
    · subst same
      rw [if_pos rfl, fresh]
      simp
    · rw [if_neg same]
      simp [same]
  · refine nodup_append.mpr ⟨consistent.distinct, nodup_singleton _, ?_⟩
    intro v queued w last same
    rw [mem_singleton.mp last] at same
    subst same
    exact (consistent.queued _).mp queued fresh
  · intro v
    rw [lookup_store]
    show v ∈ pool.insertionOrder ++ [entry.transaction.computeWtxid] ↔ _
    rw [mem_append, mem_singleton, consistent.queued v]
    by_cases same : v = entry.transaction.computeWtxid
    · simp [same]
    · simp [same]

theorem Change.consistent (change : Change allow pool pool') (consistent : Consistent pool) : Consistent pool' := by
  cases change with
  | remove wtxid => exact consistent.remove wtxid
  | announcers found announcers _ => exact consistent.setAnnouncers found announcers
  | store fresh _ => exact consistent.store fresh

theorem Changes.keep {P : OrphanPool → Prop} (keeps : ∀ pool pool', P pool → Change allow pool pool' → P pool')
    (changes : Changes allow pool pool') (holds : P pool) : P pool' := by
  induction changes with
  | refl => exact holds
  | tail _ change ih => exact keeps _ _ ih change

theorem Changes.consistent (changes : Changes allow pool pool') : Consistent pool → Consistent pool' :=
  changes.keep fun _ _ holds change => change.consistent holds

theorem Changes.fold {α : Type} {f : OrphanPool → α → OrphanPool} (step : ∀ pool a, Changes allow pool (f pool a))
    (l : List α) (pool : OrphanPool) : Changes allow pool (l.foldl f pool) := by
  induction l generalizing pool with
  | nil => exact .refl
  | cons a l ih => exact (step pool a).trans (ih (f pool a))

theorem changes_removeAnnouncement (pool : OrphanPool) (wtxid : Wtxid) (peer : ℕ) :
    Changes allow pool (pool.removeAnnouncement wtxid peer).2 := by
  unfold removeAnnouncement
  rcases found : pool.entries.lookup wtxid with _ | entry
  · exact .refl
  · dsimp only
    by_cases last : entry.announcers.erase peer = ∅
    · -- The withdrawn entry and the entry itself leave the same pool behind.
      have same : ((pool.setAnnouncers wtxid entry (entry.announcers.erase peer)).remove wtxid).2 =
          (pool.remove wtxid).2 := by
        unfold OrphanPool.remove
        rw [lookup_setAnnouncers, if_pos rfl, found]
        unfold setAnnouncers
        dsimp only
        congr 1
        refine Finmap.ext_lookup fun v => ?_
        rw [lookup_erase_ite, lookup_erase_ite, lookup_insert_ite]
        split <;> rfl
      rw [if_pos last, same]
      exact .single (.remove pool wtxid)
    · rw [if_neg last]
      exact .single (.announcers found _ fun _ => last)

omit [Library] in
theorem pruneStep_eq (consistent : Consistent pool) (pruned : pruneStep now pool = some pool') :
    ∃ wtxid rest, pool.insertionOrder = wtxid :: rest ∧ pool' = (pool.remove wtxid).2 := by
  unfold pruneStep at pruned
  rcases queue : pool.insertionOrder with _ | ⟨wtxid, rest⟩
  · rw [queue] at pruned
    cases pruned
  · rw [queue] at pruned
    dsimp only at pruned
    split at pruned
    · cases pruned
      refine ⟨wtxid, rest, rfl, ?_⟩
      have stored : pool.entries.lookup wtxid ≠ none := by
        rw [← consistent.queued wtxid, queue]
        exact mem_cons_self
      obtain ⟨entry, found⟩ := Option.ne_none_iff_exists'.mp stored
      unfold OrphanPool.remove
      rw [found, queue, filter_cons_of_neg (by simp)]
    · cases pruned

omit [Library] in
theorem pruneStep_shortens (pruned : pruneStep now pool = some pool') :
    pool'.insertionOrder.length < pool.insertionOrder.length := by
  unfold pruneStep at pruned
  rcases queue : pool.insertionOrder with _ | ⟨wtxid, rest⟩
  · rw [queue] at pruned
    cases pruned
  · rw [queue] at pruned
    dsimp only at pruned
    split at pruned
    · cases pruned
      have shorter : ({ pool with insertionOrder := rest }.remove wtxid).2.insertionOrder.length ≤ rest.length := by
        unfold OrphanPool.remove
        split
        · exact le_rfl
        · exact length_filter_le _ _
      rw [length_cons]
      omega
    · cases pruned

theorem changes_pruneExpired (consistent : Consistent pool) (now : ℕ) : Changes allow pool (pool.pruneExpired now) := by
  have both : Consistent (pool.pruneExpired now) ∧ Changes allow pool (pool.pruneExpired now) := by
    apply Loop.run_induction (P := fun p => Consistent p ∧ Changes allow pool p)
    · intro s t holds pruned
      obtain ⟨wtxid, _, _, rfl⟩ := pruneStep_eq holds.1 pruned
      exact ⟨holds.1.remove wtxid, holds.2.tail (.remove s wtxid)⟩
    · exact ⟨consistent, .refl⟩
  exact both.2

omit [Library] in
theorem lookup_pruneExpired (consistent : Consistent pool) {wtxid : Wtxid}
    (found : (pool.pruneExpired now).entries.lookup wtxid = some entry) : pool.entries.lookup wtxid = some entry := by
  have both : Consistent (pool.pruneExpired now) ∧ ∀ v e, (pool.pruneExpired now).entries.lookup v = some e →
      pool.entries.lookup v = some e := by
    apply Loop.run_induction (P := fun p => Consistent p ∧ ∀ v e, p.entries.lookup v = some e →
      pool.entries.lookup v = some e)
    · intro s t holds pruned
      obtain ⟨w, _, _, rfl⟩ := pruneStep_eq holds.1 pruned
      refine ⟨holds.1.remove w, fun v e there => ?_⟩
      rw [lookup_remove] at there
      split at there
      · cases there
      · exact holds.2 v e there
    · exact ⟨consistent, fun _ _ there => there⟩
  exact both.2 wtxid entry found

theorem changes_removeAll (pool : OrphanPool) (wtxids : List Wtxid) : Changes allow pool (pool.removeAll wtxids) :=
  Changes.fold (fun pool wtxid => .single (.remove pool wtxid)) wtxids pool

theorem changes_addAnnouncer (pool : OrphanPool) (peer : ℕ) (wtxid : Wtxid) :
    Changes allow pool (pool.addAnnouncer peer wtxid) := by
  unfold addAnnouncer
  rcases found : pool.entries.lookup wtxid with _ | entry
  · exact .refl
  · exact .single (.announcers found _ fun _ => Finset.insert_ne_empty _ _)

variable [HashOrder ℕ]

omit [Library] in
theorem limitStep_eq (taken : pool.limitStep = some pool') :
    ∃ peer wtxid entry, pool.entries.lookup wtxid = some entry ∧ peer ∈ entry.announcers ∧
      pool' = (pool.removeAnnouncement wtxid peer).2 := by
  unfold limitStep at taken
  dsimp only at taken
  split at taken
  · cases taken
  · split at taken
    · cases taken
    · rename_i peer _
      split at taken
      · cases taken
      · rename_i wtxid first
        cases taken
        have announced := find?_some first
        rw [Option.any_eq_true] at announced
        obtain ⟨entry, found, member⟩ := announced
        exact ⟨peer, wtxid, entry, found, of_decide_eq_true member, rfl⟩

theorem changes_limitOrphans (pool : OrphanPool) : Changes allow pool pool.limitOrphans := by
  apply Loop.run_induction (P := Changes allow pool)
  · intro s t changes taken
    obtain ⟨peer, wtxid, _, _, _, rfl⟩ := limitStep_eq taken
    exact changes.trans (changes_removeAnnouncement s wtxid peer)
  · exact .refl

theorem changes_addEntry (consistent : Consistent pool)
    (allowed : allow (pool.pruneExpired now) entry) : Changes allow pool (pool.addEntry now entry).2 := by
  have pruned : Changes allow pool (pool.pruneExpired now) := changes_pruneExpired consistent now
  unfold addEntry
  dsimp only
  rcases found : (pool.pruneExpired now).entries.lookup entry.transaction.computeWtxid with _ | existing
  · dsimp only
    split
    · exact pruned
    · exact (pruned.tail (.store found allowed)).trans (changes_limitOrphans _)
  · refine pruned.tail (.announcers found _ fun some_ none_ => some_ ?_)
    exact (Finset.union_eq_empty.mp none_).1

end changes

section limits
variable [Library] {pool pool' : OrphanPool} {allow : OrphanPool → OrphanEntry → Prop}

def peers (pool : OrphanPool) : Finset ℕ :=
  pool.entries.keys.biUnion fun wtxid => ((pool.entries.lookup wtxid).map (·.announcers)).getD ∅

omit [Library] in
theorem mem_peers {peer : ℕ} : peer ∈ pool.peers ↔
    ∃ wtxid entry, pool.entries.lookup wtxid = some entry ∧ peer ∈ entry.announcers := by
  unfold peers
  rw [Finset.mem_biUnion]
  constructor
  · rintro ⟨wtxid, -, announced⟩
    rcases found : pool.entries.lookup wtxid with _ | entry
    · simp [found] at announced
    · rw [found] at announced
      exact ⟨wtxid, entry, found, announced⟩
  · rintro ⟨wtxid, entry, found, announced⟩
    refine ⟨wtxid, ?_, by rw [found]; exact announced⟩
    exact Finmap.mem_keys.mpr ((mem_iff_lookup _ _).mpr (by rw [found]; exact Option.some_ne_none _))

variable [HashOrder ℕ]

omit [Library] in
theorem peerStats_keys (pool : OrphanPool) : pool.peerStats.keys = pool.peers := by
  have inner : ∀ (entry : OrphanEntry) (l : List ℕ) (stats : FMap ℕ (ℕ × ℕ)) (peer : ℕ),
      (l.foldl (fun stats peer => stats.insert peer (satAddU64 ((stats.lookup peer).getD (0, 0)).1
        entry.transaction.weight, satAddU64 ((stats.lookup peer).getD (0, 0)).2 entry.latency)) stats).lookup peer ≠ none ↔
      stats.lookup peer ≠ none ∨ peer ∈ l := by
    intro entry l
    induction l with
    | nil => simp
    | cons a l ih =>
      intro stats peer
      rw [foldl_cons, ih, lookup_insert_ite, mem_cons]
      by_cases same : peer = a <;> simp [same]
  have outer : ∀ (l : List (Wtxid × OrphanEntry)) (stats : FMap ℕ (ℕ × ℕ)) (peer : ℕ),
      (l.foldl (fun stats kv => (HashOrder.elements kv.2.announcers).foldl (fun stats peer =>
        stats.insert peer (satAddU64 ((stats.lookup peer).getD (0, 0)).1 kv.2.transaction.weight,
          satAddU64 ((stats.lookup peer).getD (0, 0)).2 kv.2.latency)) stats) stats).lookup peer ≠ none ↔
      stats.lookup peer ≠ none ∨ ∃ kv ∈ l, peer ∈ kv.2.announcers := by
    intro l
    induction l with
    | nil => simp
    | cons kv l ih =>
      intro stats peer
      rw [foldl_cons, ih, inner, HashOrder.mem, or_assoc]
      simp
  ext peer
  rw [Finmap.mem_keys, mem_iff_lookup, mem_peers]
  unfold peerStats
  dsimp only
  rw [outer]
  constructor
  · rintro (absent | ⟨kv, member, announced⟩)
    · exact absurd (Finmap.lookup_empty peer) absent
    · exact ⟨kv.1, kv.2, mem_toList.mp member, announced⟩
  · rintro ⟨wtxid, entry, found, announced⟩
    exact .inr ⟨(wtxid, entry), mem_toList.mpr found, announced⟩

omit [Library] [HashOrder ℕ] in
theorem removeAnnouncement_lowers {peer : ℕ} {wtxid : Wtxid} {entry : OrphanEntry}
    (found : pool.entries.lookup wtxid = some entry) (announced : peer ∈ entry.announcers) :
    (pool.removeAnnouncement wtxid peer).2.announcementCount < pool.announcementCount := by
  have before := total_erase (f := fun entry : OrphanEntry => entry.announcers.card) pool.entries wtxid entry found
  have positive : 0 < entry.announcers.card := Finset.card_pos.mpr ⟨peer, announced⟩
  unfold removeAnnouncement
  rw [found]
  dsimp only
  split
  · have gone : ((pool.setAnnouncers wtxid entry (entry.announcers.erase peer)).remove wtxid).2.entries =
        pool.entries.erase wtxid := by
      refine Finmap.ext_lookup fun v => ?_
      rw [lookup_remove, lookup_setAnnouncers, lookup_erase_ite]
      split <;> rfl
    unfold announcementCount
    rw [gone]
    omega
  · have fewer := Finset.card_erase_lt_of_mem announced
    have after := total_insert_fresh (f := fun entry : OrphanEntry => entry.announcers.card) (pool.entries.erase wtxid)
      wtxid { entry with announcers := entry.announcers.erase peer } (by rw [lookup_erase_ite, if_pos rfl])
    rw [insert_erase] at after
    show total _ (pool.entries.insert wtxid { entry with announcers := entry.announcers.erase peer }) < total _ pool.entries
    rw [after]
    dsimp only at before fewer ⊢
    omega

omit [Library] in
theorem limitStep_lowers (pool pool' : OrphanPool) (taken : pool.limitStep = some pool') :
    pool'.announcementCount < pool.announcementCount := by
  obtain ⟨peer, wtxid, entry, found, announced, rfl⟩ := limitStep_eq taken
  exact removeAnnouncement_lowers found announced

omit [Library] in
theorem limitOrphans_stopped (pool : OrphanPool) : pool.limitOrphans.limitStep = none :=
  Loop.run_stopped limitStep_lowers pool

def Announced (pool : OrphanPool) : Prop := ∀ wtxid entry, pool.entries.lookup wtxid = some entry → entry.announcers ≠ ∅

omit [HashOrder ℕ] in
theorem Changes.announced (changes : Changes (fun _ entry => entry.announcers ≠ ∅) pool pool') :
    Announced pool → Announced pool' := by
  refine changes.keep ?_
  intro before after announced change wtxid entry found
  cases change with
  | remove removed =>
    rw [lookup_remove] at found
    split at found
    · cases found
    · exact announced wtxid entry found
  | @announcers changed old there peers some_ =>
    rw [lookup_setAnnouncers] at found
    split at found
    · cases found
      exact some_ (announced changed old there)
    · exact announced wtxid entry found
  | store fresh allowed =>
    rw [lookup_store] at found
    split at found
    · cases found
      exact allowed
    · exact announced wtxid entry found

/-- The total latency score and the total weight are within the limits for the announcing peers. -/
def Bounded (pool : OrphanPool) : Prop :=
  pool.totalLatencyScore ≤ maxOrphanageLatencyScore ∧
    pool.totalWeight ≤ reservedOrphanWeightPerPeer * max 1 pool.peers.card

omit [Library] in
/-- Where the loop stops, the limits are kept: without announcing peers there is no orphan left, and the oldest
announcement of a peer is always found. -/
theorem bounded_of_stopped (stopped : pool.limitStep = none) (consistent : Consistent pool) (announced : Announced pool) :
    Bounded pool := by
  suffices within : pool.withinLimits pool.peerStats.keys.card by
    obtain ⟨latency, weight⟩ := within
    rw [peerStats_keys] at weight
    rw [Bounded, max_comm]
    exact ⟨latency, weight.trans (min_le_left _ _)⟩
  by_contra above
  unfold limitStep at stopped
  dsimp only at stopped
  rw [if_neg above] at stopped
  rcases worst : worstPeer pool.peerStats with _ | peer
  · have nobody : pool.peerStats.toList = [] := maxBy_eq_none.mp (Option.map_eq_none_iff.mp worst)
    have empty : pool.entries = ∅ := by
      refine Finmap.ext_lookup fun wtxid => ?_
      rcases found : pool.entries.lookup wtxid with _ | entry
      · rfl
      · obtain ⟨peer, member⟩ := Finset.nonempty_iff_ne_empty.mpr (announced wtxid entry found)
        have counted : peer ∈ pool.peerStats.keys := by
          rw [peerStats_keys, mem_peers]
          exact ⟨wtxid, entry, found, member⟩
        have listed := mem_toList_keys.mpr ((mem_iff_lookup _ _).mp (Finmap.mem_keys.mp counted))
        rw [nobody] at listed
        cases listed
    apply above
    unfold withinLimits totalLatencyScore totalWeight
    rw [empty]
    exact ⟨Nat.zero_le _, Nat.zero_le _⟩
  · rw [worst] at stopped
    dsimp only at stopped
    have counted : peer ∈ pool.peers := by
      obtain ⟨best, first, rfl⟩ := Option.map_eq_some_iff.mp worst
      rw [← peerStats_keys, Finmap.mem_keys, mem_iff_lookup, mem_toList.mp (maxBy_mem first)]
      exact Option.some_ne_none _
    obtain ⟨wtxid, entry, found, member⟩ := mem_peers.mp counted
    rcases first : pool.firstAnnouncedBy peer with _ | w
    · have unannounced := find?_eq_none.mp first wtxid ((consistent.queued wtxid).mpr (by
        rw [found]
        exact Option.some_ne_none _))
      rw [found] at unannounced
      exact unannounced (by simpa using member)
    · rw [first] at stopped
      cases stopped

end limits

end OrphanPool

end BitcoindRs
