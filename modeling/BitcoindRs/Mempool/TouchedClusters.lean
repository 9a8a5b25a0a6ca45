import BitcoindRs.Mempool.Truc

/-! The two sides of the diagram check of a replacement. -/

namespace BitcoindRs
open Relation Worklist Checked Result
variable [Library] [PolicyLibrary] [HashOrder ℕ]

namespace Mempool
variable {pool candidate : Mempool} {view : ChainView} {tx : Transaction} {txid other : Txid} {conflicts : List Txid}

def Neighbour (pool : Mempool) (a b : Txid) : Prop := b ∈ pool.parents a ∨ b ∈ pool.children a

omit [Library] [PolicyLibrary] in
theorem mem_connectedComponent : other ∈ pool.connectedComponent txid ↔
    pool.contains txid = true ∧ ReflTransGen pool.Neighbour txid other := by
  have closed : ∀ a, ∀ b ∈ pool.parents a ++ pool.children a, b ∈ pool.entries.keys := by
    intro a b member
    rcases List.mem_append.mp member with above | below
    · exact parents_subset above
    · exact children_subset below
  have paths : Reaches (fun t => pool.parents t ++ pool.children t) txid other ↔ ReflTransGen pool.Neighbour txid other := by
    simp only [Reaches, List.mem_append]
    rfl
  unfold connectedComponent
  by_cases inside : pool.contains txid = true
  · rw [if_pos inside, mem_spread_self closed, paths]
    exact (and_iff_right inside).symm
  · simp [inside]

def touched (pool candidate : Mempool) (replacement : Txid) (conflicts : List Txid) : Finset Txid :=
  (conflicts ++ candidate.ancestors replacement).foldl (fun members txid => members ∪ pool.connectedComponent txid) ∅

def touchedAfter (pool candidate : Mempool) (replacement : Txid) (conflicts : List Txid) : Finset Txid :=
  insert replacement ((pool.touched candidate replacement conflicts).filter (candidate.contains ·))

def chunkDiagram (pool : Mempool) (members : Finset Txid) : List FeeChunk := sortFeeRateChunks (pool.feerateChunks (· ∈ members))

omit [Library] [PolicyLibrary] in
theorem mem_touched : other ∈ pool.touched candidate txid conflicts ↔
    ∃ start ∈ conflicts ++ candidate.ancestors txid, other ∈ pool.connectedComponent start := by
  have general : ∀ (starts : List Txid) (members : Finset Txid),
      other ∈ starts.foldl (fun members txid => members ∪ pool.connectedComponent txid) members ↔
        other ∈ members ∨ ∃ start ∈ starts, other ∈ pool.connectedComponent start := by
    intro starts
    induction starts with
    | nil => simp
    | cons start starts ih =>
      intro members
      rw [List.foldl_cons, ih, Finset.mem_union]
      simp [or_assoc]
  rw [touched, general]
  simp

/-- The replacement has no children, and between the other entries there are only the links of before. -/
theorem neighbour_cases {options : AcceptOptions} (linked : Linked pool) (unclaimed : Unclaimed pool tx)
    {left : Mempool} (leaves : Leaves pool left) (admits : Admits view tx options left candidate) {a b : Txid}
    (near : candidate.Neighbour a b) :
    a = tx.computeTxid ∧ b ∈ candidate.parents a ∧ pool.contains b = true ∨ b = tx.computeTxid ∨
      a ≠ tx.computeTxid ∧ pool.Neighbour a b := by
  have linkedAfter := (linked.leaves leaves).admits admits (unclaimed.leaves leaves)
  obtain ⟨roomy, entered, entering, rfl, rfl⟩ := admits.entering
  have gone : Leaves pool roomy := leaves.trans entering.out.leaves
  have parents_iff : ∀ {parent child : Txid}, parent ∈ (roomy.insertEntry entered options.recordSequence).parents child →
      parent ∈ pool.parents child ∨ child = entered.entry.transaction.computeTxid ∧ pool.contains parent = true := by
    intro parent child above
    rcases (mem_parents_insertEntry entering.freshRoomy (unclaimed.leaves gone)).mp above with old | ⟨same, _, inside⟩
    · exact .inl (gone.within.parents old)
    · exact .inr ⟨same, gone.contains inside⟩
  by_cases ending : b = entered.entry.transaction.computeTxid
  · exact .inr (.inl ending)
  rcases near with above | below
  · rcases parents_iff above with old | ⟨same, inside⟩
    · by_cases start : a = entered.entry.transaction.computeTxid
      · obtain ⟨entry, _, _, inside⟩ := mem_parents.mp old
        exact .inl ⟨start, above, inside⟩
      · exact .inr (.inr ⟨start, .inl old⟩)
    · exact .inl ⟨same, above, inside⟩
  · rcases parents_iff (linkedAfter.mem_children.mp below) with old | ⟨same, _⟩
    · refine .inr (.inr ⟨?_, .inr (linked.mem_children.mpr old)⟩)
      -- an entry that spends the replacement would have claimed it before
      rintro rfl
      obtain ⟨entry, found, spends, _⟩ := mem_parents.mp old
      exact unclaimed.2 b entry found spends
    · exact absurd same ending

theorem connectedComponent_subset {options : AcceptOptions} (linked : Linked pool) (unclaimed : Unclaimed pool tx)
    {left : Mempool} (leaves : Leaves pool left) (admits : Admits view tx options left candidate) (conflicts : List Txid) :
    candidate.connectedComponent tx.computeTxid ⊆ pool.touchedAfter candidate tx.computeTxid conflicts := by
  intro member inside
  obtain ⟨present, path⟩ := mem_connectedComponent.mp inside
  have general : member = tx.computeTxid ∨
      member ∈ pool.touched candidate tx.computeTxid conflicts ∧ candidate.contains member = true := by
    induction path with
    | refl => exact .inl rfl
    | @tail a b path near ih =>
      have earlier := ih (mem_connectedComponent.mpr ⟨present, path⟩)
      have there : candidate.contains b = true := by
        rcases near with above | below
        · exact contains_iff_mem.mpr (parents_subset above)
        · exact contains_iff_mem.mpr (children_subset below)
      rcases neighbour_cases linked unclaimed leaves admits near with ⟨rfl, above, old⟩ | same | ⟨differ, near⟩
      · by_cases self : b = tx.computeTxid
        · exact .inl self
        · have ancestor : b ∈ candidate.ancestors tx.computeTxid := mem_ancestors.mpr ⟨present, self, .single above⟩
          refine .inr ⟨mem_touched.mpr ⟨b, List.mem_append_right _ ancestor, ?_⟩, there⟩
          exact mem_connectedComponent.mpr ⟨old, .refl⟩
      · exact .inl same
      · rcases earlier with same | ⟨counted, _⟩
        · exact absurd same differ
        · obtain ⟨start, listed, cluster⟩ := mem_touched.mp counted
          obtain ⟨begins, way⟩ := mem_connectedComponent.mp cluster
          exact .inr ⟨mem_touched.mpr ⟨start, listed, mem_connectedComponent.mpr ⟨begins, way.tail near⟩⟩, there⟩
  rw [touchedAfter, Finset.mem_insert, Finset.mem_filter]
  exact general

omit [Library] [PolicyLibrary] in
theorem connectedComponent_eq_touchedAfter_iff : candidate.connectedComponent txid = pool.touchedAfter candidate txid conflicts ↔
    candidate.contains txid = true ∧ ∀ member, member ≠ txid →
      (ReflTransGen candidate.Neighbour txid member ↔
        member ∈ pool.touched candidate txid conflicts ∧ candidate.contains member = true) := by
  simp only [Finset.ext_iff, mem_connectedComponent, touchedAfter, Finset.mem_insert, Finset.mem_filter]
  constructor
  · intro same
    have inside := ((same txid).mpr (.inl rfl)).1
    refine ⟨inside, ?_⟩
    intro member differ
    rw [← and_iff_right (a := candidate.contains txid = true) (b := ReflTransGen _ _ _) inside, same member]
    exact or_iff_right differ
  · rintro ⟨inside, same⟩ member
    by_cases self : member = txid
    · subst self
      exact ⟨fun _ => .inl rfl, fun _ => ⟨inside, .refl⟩⟩
    · rw [and_iff_right inside, same member self]
      exact (or_iff_right self).symm

/-- The check compares the touched clusters with themselves after the change exactly if the cluster of the replacement is
made of the survivors. For a transaction that nothing in a pool with an exact index spends, every member of its cluster is
one of them, and what is left to ask is that every survivor is connected to it. -/
theorem replacement_universe_iff (pool candidate : Mempool) (txid : Txid) (conflicts : List Txid) :
    (pool.improvesFeerateDiagramForReplacement candidate txid conflicts = true ↔
      compareFeeRateDiagrams (candidate.chunkDiagram (candidate.connectedComponent txid))
        (pool.chunkDiagram (pool.touched candidate txid conflicts)) = some .gt) ∧
    (candidate.connectedComponent txid = pool.touchedAfter candidate txid conflicts ↔
      candidate.contains txid = true ∧ ∀ member, member ≠ txid →
        (ReflTransGen candidate.Neighbour txid member ↔
          member ∈ pool.touched candidate txid conflicts ∧ candidate.contains member = true)) ∧
    ∀ (view : ChainView) (tx : Transaction) (now addedAt : ℕ) (allow : Bool), Linked pool → Unclaimed pool tx →
      (pool.removeAll (HashOrder.elements (pool.conflictsAndDescendants conflicts))).acceptAtForReplacement view now tx addedAt
        allow = (.ok txid, candidate) →
      (candidate.connectedComponent txid = pool.touchedAfter candidate txid conflicts ↔
        ∀ member ∈ pool.touched candidate txid conflicts, candidate.contains member = true →
          ReflTransGen candidate.Neighbour txid member) := by
  refine ⟨by rw [improvesFeerateDiagramForReplacement, decide_eq_true_eq]; rfl, connectedComponent_eq_touchedAfter_iff, ?_⟩
  intro view tx now addedAt allow linked unclaimed admitted
  rcases acceptAtWithSequence_cases admitted with ⟨_, refused, _⟩ | ⟨accepted, admits⟩
  · cases refused
  obtain rfl := Except.ok.inj accepted
  have inside : candidate.contains tx.computeTxid = true := by
    obtain ⟨roomy, entered, _, rfl, rfl⟩ := admits.entering
    exact (contains_insertEntry _ _ _ _).mpr (.inl rfl)
  have fewer := connectedComponent_subset linked unclaimed (leaves_removeAll pool _) admits conflicts
  constructor
  · intro same member counted there
    have listed : member ∈ pool.touchedAfter candidate tx.computeTxid conflicts :=
      Finset.mem_insert_of_mem (Finset.mem_filter.mpr ⟨counted, there⟩)
    rw [← same] at listed
    exact (mem_connectedComponent.mp listed).2
  · intro connected
    refine Finset.Subset.antisymm fewer ?_
    intro member listed
    rcases Finset.mem_insert.mp listed with rfl | survivor
    · exact mem_connectedComponent.mpr ⟨inside, .refl⟩
    · obtain ⟨counted, there⟩ := Finset.mem_filter.mp survivor
      exact mem_connectedComponent.mpr ⟨inside, connected member counted there⟩

omit [Library] [PolicyLibrary] [HashOrder ℕ] in
theorem replacement_universe_alone : let _ := Library.sample
    let _ := PolicyLibrary.sample
    let _ := BlockHash.sampleOrder
    let view := sampleView [sampleOldCoin 7 0 100000]
    let pool := ((samplePool {} 1000000).accept view 0 (sampleSpend 1 [⟨7, 0⟩] [50000, 40000])).2.rebuildChildrenIndex
    let left := pool.removeAll (HashOrder.elements (pool.conflictsAndDescendants [1001]))
    let outcome := left.acceptAtForReplacement view 0 (sampleSpend 2 [⟨7, 0⟩] [30000, 30000]) 0 false
    outcome.1 = .ok 1002 ∧ outcome.2.connectedComponent 1002 = pool.touchedAfter outcome.2 1002 [1001] := by
  intro _ _ _ view pool left outcome
  have accepted : outcome.1 = .ok 1002 := by decide +kernel
  have keys : pool.entries.keys = {1001} := by decide +kernel
  have inputs : (pool.entries.lookup 1001).all (fun entry => decide (1002 ∉ entry.transaction.inputTxids)) = true := by
    decide +kernel
  have unclaimed : Unclaimed pool (sampleSpend 2 [⟨7, 0⟩] [30000, 30000]) := by
    refine ⟨by decide +kernel, ?_⟩
    intro txid entry found
    have listed := contains_iff_mem.mp (contains_iff.mpr ⟨entry, found⟩)
    rw [keys, Finset.mem_singleton] at listed
    rw [← listed, found] at inputs
    exact of_decide_eq_true inputs
  have gone : ∀ member ∈ pool.touched outcome.2 1002 [1001], outcome.2.contains member = false := by decide +kernel
  have admitted : outcome = (.ok 1002, outcome.2) := Prod.ext accepted rfl
  have iff := (replacement_universe_iff pool outcome.2 1002 [1001]).2.2 view _ 0 0 false (linked_rebuild _) unclaimed admitted
  refine ⟨accepted, iff.mpr ?_⟩
  intro member counted there
  rw [gone member counted] at there
  cases there

omit [Library] [PolicyLibrary] [HashOrder ℕ] in
/-- The replacement takes the place of one of two children. The parent and the other child stay, count before the change
only, and the replacement is refused although it improves the diagram. -/
theorem replacement_survivors_left_out : let _ := Library.sample
    let _ := PolicyLibrary.sample
    let _ := BlockHash.sampleOrder
    let view := sampleView [sampleOldCoin 7 0 100000, sampleOldCoin 8 0 100000]
    let accept := fun (pool : Mempool) tx => (pool.accept view 0 tx).2
    let pool := accept (accept (accept (samplePool {} 1000000) (sampleSpend 1 [⟨7, 0⟩] [50000, 40000]))
      (sampleSpend 2 [⟨1001, 0⟩, ⟨8, 0⟩] [140000])) (sampleSpend 3 [⟨1001, 1⟩] [20000, 10000])
    let replacement := sampleSpend 4 [⟨8, 0⟩] [60000, 25000]
    let left := pool.removeAll (HashOrder.elements (pool.conflictsAndDescendants [1002]))
    let outcome := left.acceptAtForReplacement view 0 replacement 0 false
    outcome.1 = .ok 1004 ∧ pool.touched outcome.2 1004 [1002] = {1001, 1002, 1003} ∧
      pool.touchedAfter outcome.2 1004 [1002] = {1001, 1003, 1004} ∧ outcome.2.connectedComponent 1004 = {1004} ∧
      compareFeeRateDiagrams (outcome.2.chunkDiagram {1001, 1003, 1004}) (pool.chunkDiagram {1001, 1002, 1003}) = some .gt ∧
      pool.improvesFeerateDiagramForReplacement outcome.2 1004 [1002] = false ∧
      (pool.replace view 0 replacement 0).1 = .error .replacementFeerateDiagram := by
  decide +kernel

end Mempool

end BitcoindRs
