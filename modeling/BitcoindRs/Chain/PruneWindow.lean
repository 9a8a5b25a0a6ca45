import BitcoindRs.Chain.Prune

/-! What pruning keeps, and the arithmetic of its boundary. -/

namespace BitcoindRs
open Result Checked FMap ChainState List PruningNode
variable {requestedHeight : ℕ} {file : BlockFile} {recordSize : BlockHash → Option ℕ}

def BlockFile.Below (requestedHeight : ℕ) (file : BlockFile) : Prop :=
  ∀ height, file.firstRetained = some height → height ≤ requestedHeight

theorem BlockFile.Below.append (below : file.Below requestedHeight)
    (boundary size : ℕ) : (file.append requestedHeight boundary size).Below requestedHeight := by
  intro height
  unfold BlockFile.append
  dsimp only
  split
  · dsimp only
    split
    · rename_i within
      rintro ⟨⟩
      exact within
    · exact below height
  · exact below height

theorem BlockFile.Below.refetched {height : ℕ} (refetched : List (ℕ × BlockHash)) (below : file.Below requestedHeight) :
    (appendRefetched recordSize refetched requestedHeight height file).Below requestedHeight := by
  unfold appendRefetched
  refine List.foldlRecOn _ _ below fun file below entry _ => ?_
  split
  · exact below
  · exact below.append _ _

theorem BlockFile.Below.layout {refetched : List (ℕ × BlockHash)}
    (records : List (BlockHash × ℕ)) {done : BlockFile} (below : file.Below requestedHeight)
    (h : layoutFiles recordSize refetched requestedHeight records file = .ok done) : done.Below requestedHeight := by
  induction records generalizing file with
  | nil =>
    cases h
    exact below
  | cons record rest ih =>
    obtain ⟨hash, height⟩ := record
    unfold layoutFiles at h
    obtain ⟨-, h⟩ := guard_ok h
    split at h
    · cases h
      exact below
    · exact ih ((below.append _ _).refetched refetched) h

namespace PruningNode
variable [HashOrder BlockHash] {node : PruningNode}
variable {hash : BlockHash} {targetHeight requestedHeight requested : ℕ} {retained : Finset BlockHash}

/-- The stored blocks of the window below the tip and of the locks stay stored with their undo data, and the boundary
does not move back. -/
structure KeepsPromise (node pruned : PruningNode) : Prop where
  window : ∀ hash indexed block, node.chain.blockIndex.lookup hash = some indexed →
    node.chain.bodies.lookup hash = some block → node.chain.height < indexed.height + minBlocksToKeep →
    pruned.chain.bodies.lookup hash = some block ∧ pruned.chain.undo.lookup hash = node.chain.undo.lookup hash
  locked : ∀ lock ∈ node.pruneLocks, ∀ hash indexed block, node.chain.blockIndex.lookup hash = some indexed →
    node.chain.bodies.lookup hash = some block → lock.heightFirst ≤ indexed.height →
    pruned.chain.bodies.lookup hash = some block ∧ pruned.chain.undo.lookup hash = node.chain.undo.lookup hash
  monotone : ∀ previous, node.chain.pruneHeight = some previous →
    ∃ next, pruned.chain.pruneHeight = some next ∧ previous ≤ next

omit [HashOrder BlockHash] in
theorem KeepsPromise.refl (node : PruningNode) : KeepsPromise node node :=
  ⟨fun _ _ _ _ stored _ => ⟨stored, rfl⟩, fun _ _ _ _ _ _ stored _ => ⟨stored, rfl⟩, fun previous some_ => ⟨previous, some_, le_rfl⟩⟩

theorem lookup_retain {α : Type} (m : FMap BlockHash α)
    (kept : hash ∈ retained) : (retain m retained).lookup hash = m.lookup hash := by
  rw [retain, lookup_eraseAll, if_neg]
  intro removed
  exact (Finset.mem_sdiff.mp ((HashOrder.mem _ _).mp removed)).2 kept

theorem lookup_retain_none {α : Type} (m : FMap BlockHash α)
    (dropped : hash ∉ retained) : (retain m retained).lookup hash = none := by
  rw [retain, lookup_eraseAll]
  split
  · rfl
  · rename_i stays
    by_contra present
    refine stays ((HashOrder.mem _ _).mpr (Finset.mem_sdiff.mpr ⟨?_, dropped⟩))
    exact Finmap.mem_keys.mpr ((mem_iff_lookup m hash).mpr present)

theorem pruneBelow_kept {indexed : BlockNode} {block : Block}
    (found : node.chain.blockIndex.lookup hash = some indexed) (stored : node.chain.bodies.lookup hash = some block)
    (above : targetHeight ≤ indexed.height) :
    (node.pruneBelow targetHeight).chain.bodies.lookup hash = some block ∧
      (node.pruneBelow targetHeight).chain.undo.lookup hash = node.chain.undo.lookup hash := by
  have kept : hash ∈ node.retainedBlocks targetHeight := by
    refine Finset.mem_filter.mpr ⟨?_, ?_, ?_⟩
    · exact Finmap.mem_keys.mpr ((mem_iff_lookup _ _).mpr (by rw [found]; exact Option.some_ne_none _))
    · rw [stored]
      rfl
    · rw [found]
      exact decide_eq_true (.inr (.inl above))
  obtain ⟨bodies, undo, -⟩ := persistSnapshot_stored (node.prunedChain targetHeight)
  constructor
  · show (node.prunedChain targetHeight).persistSnapshot.bodies.lookup hash = some block
    rw [bodies]
    exact (lookup_retain _ kept).trans stored
  · show (node.prunedChain targetHeight).persistSnapshot.undo.lookup hash = _
    rw [undo]
    exact lookup_retain _ kept

omit [HashOrder BlockHash] in
theorem limitByLocks (tipHeight : ℕ) (locks : List PruneLock) (target : ℕ) :
    locks.foldl (limitByLock tipHeight) target ≤ target ∧ ∀ lock ∈ locks, lock.heightFirst ≠ 2 ^ 64 - 1 →
      lock.limit < tipHeight → locks.foldl (limitByLock tipHeight) target ≤ lock.limit := by
  induction locks generalizing target with
  | nil => exact ⟨le_rfl, fun _ member => absurd member not_mem_nil⟩
  | cons first locks ih =>
    obtain ⟨lower, limited⟩ := ih (limitByLock tipHeight target first)
    have smaller : limitByLock tipHeight target first ≤ target := by
      unfold limitByLock
      split
      · exact le_rfl
      split
      · exact min_le_left _ _
      · exact le_rfl
    refine ⟨lower.trans smaller, fun lock member finite short => ?_⟩
    rcases mem_cons.mp member with rfl | later
    · refine lower.trans ?_
      rw [limitByLock, if_neg finite, if_pos short]
      exact min_le_right _ _
    · exact limited lock later finite short

theorem fastPruneBoundary_le {height : ℕ} (h : node.fastPruneBoundary requestedHeight = .ok (some height)) :
    height ≤ requestedHeight := by
  unfold fastPruneBoundary at h
  split at h
  · cases h
  rename_i started
  obtain ⟨file, laidOut, h⟩ := bind_ok h
  have below := BlockFile.Below.layout _ (fun _ absent => by cases absent) laidOut
  have boundary := Except.ok.inj h
  rcases first : file.firstRetained with _ | retained
  · rw [first, Option.none_or] at boundary
    split at boundary <;> cases boundary
    omega
  · rw [first, Option.some_or] at boundary
    cases boundary
    exact below _ first

def ReachesWindow (node : PruningNode) (requested : ℕ) : Prop :=
  node.snapshotPending = false ∧ node.pruneAfterHeight ≤ node.chain.height ∧
    ∃ height, node.requestedHeight requested = .ok height ∧ height ≤ node.chain.height

theorem pruneTarget_some {sub : ℕ → ℕ → Except Error ℕ} (h : node.pruneTarget sub requested = .ok (some targetHeight)) :
    node.ReachesWindow requested ∧ (∃ window, sub node.chain.height minBlocksToKeep = .ok window ∧ targetHeight ≤ window) ∧
      targetHeight ≤ node.chain.height ∧
      (∀ lock ∈ node.pruneLocks, lock.heightFirst ≠ 2 ^ 64 - 1 → lock.limit < node.chain.height → targetHeight ≤ lock.limit) ∧
      (∀ previous, node.chain.pruneHeight = some previous → previous < targetHeight) ∧ 1 < targetHeight := by
  unfold pruneTarget at h
  split at h
  · cases h
  rename_i settled
  obtain ⟨long, h⟩ := guard_ok h
  obtain ⟨requestedHeight, resolved, h⟩ := bind_ok h
  obtain ⟨within, h⟩ := guard_ok h
  obtain ⟨window, subtracted, h⟩ := bind_ok h
  obtain ⟨boundary, filed, h⟩ := bind_ok h
  obtain ⟨rfl, chosen⟩ := Option.filter_eq_some_iff.mp (Except.ok.inj h)
  obtain ⟨lower, limited⟩ := limitByLocks node.chain.height node.pruneLocks (min requestedHeight window)
  have atFile : targetHeight ≤ node.pruneLocks.foldl (limitByLock node.chain.height) (min requestedHeight window) := by
    unfold fileBoundary at filed
    split at filed
    · exact fastPruneBoundary_le filed
    · cases filed
      exact le_rfl
  obtain ⟨forward, positive⟩ := (Bool.and_eq_true _ _).mp chosen
  refine ⟨⟨by simpa using settled, by omega, requestedHeight, resolved, by omega⟩, ⟨window, subtracted, by omega⟩, by omega,
    fun lock member finite short => atFile.trans (limited lock member finite short), ?_, of_decide_eq_true positive⟩
  intro previous pruned
  rw [pruned] at forward
  simpa using forward

theorem pruneBelow_keepsPromise (window : targetHeight + minBlocksToKeep ≤ node.chain.height)
    (locked : ∀ lock ∈ node.pruneLocks, lock.heightFirst ≠ 2 ^ 64 - 1 → lock.limit < node.chain.height →
      targetHeight ≤ lock.limit)
    (forward : ∀ previous, node.chain.pruneHeight = some previous → previous < targetHeight) (positive : 1 < targetHeight) :
    KeepsPromise node (node.pruneBelow targetHeight) where
  window hash indexed block found stored recent := pruneBelow_kept found stored (by omega)
  locked lock member hash indexed block found stored above := by
    have fits := node.heightsFit hash indexed found
    refine pruneBelow_kept found stored ?_
    by_cases short : lock.limit < node.chain.height
    · have limited := locked lock member (by omega) short
      have first : lock.limit ≤ max lock.heightFirst 1 := by
        unfold PruneLock.limit
        omega
      omega
    · have first : lock.limit ≤ max lock.heightFirst 1 := by
        unfold PruneLock.limit
        omega
      unfold minBlocksToKeep at window
      omega
  monotone previous pruned := by
    obtain ⟨-, -, kept⟩ := persistSnapshot_stored (node.prunedChain targetHeight)
    exact ⟨targetHeight, kept, (forward previous pruned).le⟩

omit [HashOrder BlockHash] in
theorem layoutFiles_noOverflow {refetched : List (ℕ × BlockHash)} (records : List (BlockHash × ℕ)) (file : BlockFile) :
    layoutFiles recordSize refetched requestedHeight records file ≠ .error overflow := by
  induction records generalizing file with
  | nil => exact fun failed => by cases failed
  | cons record rest ih =>
    intro failed
    unfold layoutFiles at failed
    rcases bind_error failed with tooHigh | ⟨-, -, failed⟩
    · exact absurd (bailIf_error.mp tooHigh).2 (by decide)
    · split at failed
      · cases failed
      · exact ih _ failed

theorem fileBoundary_noOverflow (targetHeight : ℕ) : node.fileBoundary targetHeight ≠ .error overflow := by
  intro failed
  unfold fileBoundary fastPruneBoundary at failed
  split at failed
  · split at failed
    · cases failed
    rcases bind_error failed with laidOut | ⟨file, -, failed⟩
    · exact layoutFiles_noOverflow _ _ laidOut
    · cases failed
  · cases failed

omit [HashOrder BlockHash] in
theorem requestedHeight_noOverflow (requested : ℕ) : node.requestedHeight requested ≠ .error overflow := by
  unfold requestedHeight
  dsimp only
  repeat' split
  all_goals simp [overflow]

theorem pruneTarget_overflow (requested : ℕ) : node.pruneTarget checkedSub requested = .error overflow ↔
      node.ReachesWindow requested ∧ node.chain.height < minBlocksToKeep := by
  constructor
  · intro failed
    unfold pruneTarget at failed
    split at failed
    · cases failed
    rename_i settled
    rcases bind_error failed with tooShort | ⟨_, long, failed⟩
    · exact absurd (bailIf_error.mp tooShort).2 (by decide)
    rcases bind_error failed with unresolved | ⟨height, resolved, failed⟩
    · exact absurd unresolved (requestedHeight_noOverflow requested)
    rcases bind_error failed with beyond | ⟨_, within, failed⟩
    · exact absurd (bailIf_error.mp beyond).2 (by decide)
    rcases bind_error failed with wrapped | ⟨window, -, failed⟩
    · refine ⟨⟨by simpa using settled, ?_, height, resolved, ?_⟩, ?_⟩
      · exact Nat.le_of_not_lt (bailIf_ok.mp long)
      · exact Nat.le_of_not_lt (bailIf_ok.mp within)
      · unfold checkedSub at wrapped
        split at wrapped
        · cases wrapped
        · omega
    rcases bind_error failed with unfiled | ⟨boundary, -, failed⟩
    · exact absurd unfiled (fileBoundary_noOverflow _)
    · cases failed
  · rintro ⟨⟨settled, long, height, resolved, within⟩, short⟩
    unfold pruneTarget
    rw [settled, if_neg (by decide), bailIf_neg (by omega), ok_bind, resolved, ok_bind, bailIf_neg (by omega), ok_bind,
      checkedSub, if_neg (by omega)]
    rfl

/-- Neither the subtraction nor any other step of the boundary computation overflows. -/
def NoWrap (node : PruningNode) (requested : ℕ) : Prop := (node.prune checkedSub requested).1 ≠ .error overflow

theorem noWrap_iff (requested : ℕ) :
    node.NoWrap requested ↔ ¬(node.ReachesWindow requested ∧ node.chain.height < minBlocksToKeep) := by
  rw [← pruneTarget_overflow, NoWrap, prune]
  split <;> rename_i result <;> rw [result] <;> simp

theorem prune_keepsPromise (window : node.ReachesWindow requested → minBlocksToKeep ≤ node.chain.height) :
    KeepsPromise node (node.prune wrappingSub requested).2 := by
  unfold prune
  split
  · exact .refl node
  · exact .refl node
  · rename_i targetHeight chosen
    obtain ⟨reaches, ⟨limit, subtracted, below⟩, -, locked, forward, positive⟩ := pruneTarget_some chosen
    have long := window reaches
    refine pruneBelow_keepsPromise ?_ locked forward positive
    have fits := node.tipFits
    have tip : node.chain.height < 2 ^ 32 := by
      unfold ChainState.height
      omega
    have wrapped := Except.ok.inj subtracted
    unfold minBlocksToKeep at long wrapped ⊢
    omega

omit [HashOrder BlockHash] in
theorem maybeAutoPrune_window {diskUsage : Except Error ℕ} (wants : node.wantsAutoPrune diskUsage = .ok true) :
    minBlocksToKeep < node.chain.height := by
  unfold wantsAutoPrune at wants
  repeat' split at wants
  · cases wants
  · cases wants
  · cases wants
  · obtain ⟨usage, -, wants⟩ := bind_ok wants
    simp only [Except.ok.injEq, Bool.and_eq_true, decide_eq_true_eq] at wants
    omega

/-- An explicit prune keeps its promise exactly when it does not compute the window of a chain shorter than the window,
which no configuration but the fast-prune mode of regtest can; an automatic prune always keeps it. -/
theorem prune_keepsPromise_iff (node : PruningNode) (requested : ℕ) (diskUsage : Except Error ℕ) :
    (node.NoWrap requested ∧ KeepsPromise node (node.prune wrappingSub requested).2 ↔
      (node.ReachesWindow requested → minBlocksToKeep ≤ node.chain.height)) ∧
    (node.wantsAutoPrune diskUsage = .ok true → node.NoWrap (node.chain.height - minBlocksToKeep)) ∧
    KeepsPromise node (node.maybeAutoPrune wrappingSub diskUsage).2 ∧
    ∀ network fastPrune, (node.configurePruneAfterHeight network fastPrune).pruneAfterHeight < minBlocksToKeep ↔
      network = .regtest ∧ fastPrune = true := by
  refine ⟨⟨fun keeps reaches => ?_, fun window => ⟨noWrap_iff requested |>.mpr ?_, prune_keepsPromise window⟩⟩, ?_, ?_, ?_⟩
  · by_contra short
    exact (noWrap_iff requested).mp keeps.1 ⟨reaches, Nat.lt_of_not_le short⟩
  · rintro ⟨reaches, short⟩
    exact absurd (window reaches) (Nat.not_le_of_lt short)
  · intro wants
    rw [noWrap_iff]
    rintro ⟨-, short⟩
    exact absurd (maybeAutoPrune_window wants) (Nat.not_lt_of_lt short)
  · unfold maybeAutoPrune
    split
    · exact .refl node
    · exact .refl node
    · rename_i wants
      have kept : KeepsPromise node (node.prune wrappingSub (node.chain.height - minBlocksToKeep)).2 :=
        prune_keepsPromise fun _ => (maybeAutoPrune_window wants).le
      split <;> rename_i done <;> rwa [done] at kept
  · intro network fastPrune
    cases network <;> cases fastPrune <;> simp [configurePruneAfterHeight, minBlocksToKeep]

end PruningNode

@[irreducible] def largeScript : Script := List.replicate 33000 0

theorem largeScript_length : largeScript.length = 33000 := by
  unfold largeScript
  exact length_replicate

def sampleChainBlock (height : ℕ) : Block :=
  ⟨⟨1, height - 1, 0, height, 0, height⟩, if height < 98 then [] else [⟨1, 0, [⟨.null, [0, 0], 0, []⟩], [⟨0, largeScript⟩]⟩]⟩

@[irreducible] def entriesBelow {α : Type} (count : ℕ) (f : ℕ → α) : FMap BlockHash α :=
  insertAll ∅ ((List.range count).map fun height => (height, f height))

theorem lookup_entriesBelow {α : Type} (count : ℕ) (f : ℕ → α) (hash : BlockHash) :
    (entriesBelow count f).lookup hash = if hash < count then some (f hash) else none := by
  rw [entriesBelow, lookup_insertAll_empty]
  split
  · rename_i below
    refine lastWrite_of_mem ?_ (mem_map.mpr ⟨hash, mem_range.mpr below, rfl⟩)
    rw [map_map]
    exact nodup_range.map fun _ _ same => same
  · rename_i above
    rw [lastWrite_eq_none]
    intro listed
    obtain ⟨entry, member, rfl⟩ := mem_map.mp listed
    obtain ⟨height, within, rfl⟩ := mem_map.mp member
    exact above (mem_range.mp within)

def sampleShortChain : PruningNode := configurePruneAfterHeight {
  chain := { ChainState.sample ∅ with
    blockIndex := entriesBelow 101 fun height => ⟨(sampleChainBlock height).header, height, height + 1, none⟩
    active := ⟨List.range 101, (List.range 101).map fun height => (sampleChainBlock height).header, [], []⟩
    bodies := entriesBelow 101 sampleChainBlock
    undo := entriesBelow 101 fun _ => [] }
  pruneLocks := []
  pruneProtectedBlocks := ∅
  pruneTargetSize := none
  pruneAfterHeight := minBlocksToKeep
  fastPrune := false
  electrumStore := none
  tipFits := by decide
  heightsFit := fun hash node found => by
    rw [lookup_entriesBelow] at found
    split at found
    · rename_i below
      cases found
      exact below.trans (by decide)
    · cases found } .regtest true

theorem sampleShortChain_recordSize :
    sampleShortChain.recordSize = fun hash => if hash < 98 then some 89 else if hash < 101 then some 33153 else none := by
  funext hash
  show ((entriesBelow 101 sampleChainBlock).lookup hash).map (fun block => satAddU64 block.totalSize 8) = _
  rw [lookup_entriesBelow]
  by_cases small : hash < 98
  · have listed : hash < 101 := Nat.lt_trans small (by decide)
    rw [if_pos listed, if_pos small, sampleChainBlock, if_pos small]
    rfl
  rw [if_neg small]
  split
  · have output : TxOut.size ⟨0, largeScript⟩ = 33011 := by
      rw [TxOut.size, largeScript_length]
      decide
    rw [sampleChainBlock, if_neg small]
    simp only [Option.map_some, Block.totalSize, Transaction.totalSize, Transaction.baseSize, map_cons, map_nil, output]
    rfl
  · rfl

/-- On a chain of height 100 the window wraps around, so that a prune up to the tip removes every block below the tip. -/
theorem prune_wraps : let _ := BlockHash.sampleOrder
    (sampleShortChain.prune checkedSub 100).1 = .error overflow ∧ (sampleShortChain.prune wrappingSub 100).1 = .ok 100 ∧
      (sampleShortChain.chain.bodies.lookup 99).isSome ∧
      (sampleShortChain.prune wrappingSub 100).2.chain.bodies.lookup 99 = none := by
  intro _
  have stopped : sampleShortChain.pruneTarget checkedSub 100 = .error overflow :=
    (pruneTarget_overflow 100).mpr ⟨⟨rfl, by decide +kernel, 100, rfl, by decide +kernel⟩, by decide +kernel⟩
  have boundary : sampleShortChain.pruneTarget wrappingSub 100 = .ok (some 100) := by
    unfold pruneTarget fileBoundary fastPruneBoundary
    rw [sampleShortChain_recordSize]
    decide +kernel
  have dropped : (99 : BlockHash) ∉ sampleShortChain.retainedBlocks 100 := by
    intro kept
    obtain ⟨-, -, height⟩ := Finset.mem_filter.mp kept
    have found : sampleShortChain.chain.blockIndex.lookup 99 = some ⟨(sampleChainBlock 99).header, 99, 100, none⟩ :=
      (lookup_entriesBelow 101 _ 99).trans rfl
    rw [found] at height
    exact absurd height (by decide)
  unfold prune
  rw [stopped, boundary]
  refine ⟨rfl, rfl, ?_, ?_⟩
  · show ((entriesBelow 101 sampleChainBlock).lookup 99).isSome = true
    rw [lookup_entriesBelow]
    rfl
  · obtain ⟨bodies, -⟩ := persistSnapshot_stored (sampleShortChain.prunedChain 100)
    show (sampleShortChain.prunedChain 100).persistSnapshot.bodies.lookup 99 = none
    rw [bodies]
    exact lookup_retain_none _ dropped

end BitcoindRs
