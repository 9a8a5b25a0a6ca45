import BitcoindRs.Chain.Activate

/-! Pruning of old blocks. -/

namespace BitcoindRs
open Result Checked FMap ChainState

structure PruneLock where
  heightFirst : ℕ

/-- A chain with its pruning settings. Heights are 32-bit numbers. -/
structure PruningNode where
  chain : ChainState
  /-- The locks, in the iteration order of their map. -/
  pruneLocks : List PruneLock
  /-- Blocks fetched again after they were pruned, with the height of the tip at that time. -/
  pruneProtectedBlocks : FMap BlockHash ℕ
  pruneTargetSize : Option ℕ
  pruneAfterHeight : ℕ
  fastPrune : Bool
  electrumStore : Option (FMap BlockHash Block)
  tipFits : chain.active.hashes.length ≤ 2 ^ 32
  heightsFit : ∀ hash node, chain.blockIndex.lookup hash = some node → node.height < 2 ^ 32

def minBlocksToKeep : ℕ := 288
def fastPruneBlockfileSize : ℕ := 0x10000

def PruningNode.configurePruneAfterHeight (node : PruningNode) (network : Network) (fastPrune : Bool) : PruningNode :=
  { node with
    fastPrune
    pruneAfterHeight := match network, fastPrune with
      | .bitcoin, _ => 100000
      | .regtest, true => 100
      | .regtest, false | .testnet, _ | .testnet4, _ | .signet, _ => 1000 }

/-- Unsigned 32-bit subtraction as an unchecked build performs it. -/
def wrappingSub (a b : ℕ) : Except Error ℕ := .ok ((a + 2 ^ 32 - b) % 2 ^ 32)

def overflow : Error := .message "attempt to subtract with overflow"

/-- Unsigned 32-bit subtraction as a checked build performs it: it stops the program when the result is negative. -/
def checkedSub (a b : ℕ) : Except Error ℕ := if b ≤ a then .ok (a - b) else .error overflow

def PruneLock.limit (lock : PruneLock) : ℕ := max (min (lock.heightFirst - 11) (2 ^ 32 - 1)) 1

def limitByLock (tipHeight target : ℕ) (lock : PruneLock) : ℕ :=
  if lock.heightFirst = 2 ^ 64 - 1 then target
  else if lock.limit < tipHeight then min target (lock.limit)
  else target

/-- The current file and the first block of the last file that starts at or below the requested height. -/
structure BlockFile where
  fileSize : ℕ
  firstRetained : Option ℕ

/-- A record that does not fit starts a file, whose first block is at `boundary`. -/
def BlockFile.append (requestedHeight boundary size : ℕ) (file : BlockFile) : BlockFile :=
  let file := if file.fileSize ≠ 0 ∧ fastPruneBlockfileSize ≤ satAddU64 file.fileSize size then
    ⟨0, if boundary ≤ requestedHeight then some boundary else file.firstRetained⟩ else file
  ⟨satAddU64 file.fileSize size, file.firstRetained⟩

section files
variable (recordSize : BlockHash → Option ℕ) (refetched : List (ℕ × BlockHash)) (requestedHeight : ℕ)

/-- The blocks fetched again while the tip was at a height follow the block at that height. -/
def appendRefetched (height : ℕ) (file : BlockFile) : BlockFile :=
  (refetched.filter (·.1 = height)).foldl (fun file entry => match recordSize entry.2 with
    | none => file
    | some size => file.append requestedHeight (satAddU32 height 1) size) file

/-- The records of the active chain, up to the first block that is not stored. -/
def layoutFiles : List (BlockHash × ℕ) → BlockFile → Except Error BlockFile
  | [], file => .ok file
  | (hash, height) :: rest, file => do
    bailIf (2 ^ 32 ≤ height) (.message "active chain height does not fit u32")
    match recordSize hash with
    | none => .ok file
    | some size => layoutFiles rest (appendRefetched recordSize refetched requestedHeight height
        (file.append requestedHeight height size))

end files

namespace PruningNode
variable (node : PruningNode)

def recordSize (hash : BlockHash) : Option ℕ := (node.chain.bodies.lookup hash).map fun block => satAddU64 block.totalSize 8

def startHeight : ℕ := node.chain.pruneHeight.getD 0

variable [HashOrder BlockHash]

def fastPruneBoundary (requestedHeight : ℕ) : Except Error (Option ℕ) := do
  if requestedHeight < node.startHeight then .ok none
  else
    let refetched := (node.pruneProtectedBlocks.toList.map fun entry => (entry.2, entry.1)).insertionSort (·.1 ≤ ·.1)
    let records := (node.chain.active.hashes.zipIdx.drop node.startHeight).take (requestedHeight - node.startHeight + 1)
    let file ← layoutFiles node.recordSize refetched requestedHeight records ⟨0, none⟩
    .ok (file.firstRetained.or (if 0 < node.startHeight then some node.startHeight else none))

omit [HashOrder BlockHash] in
def requestedHeight (requested : ℕ) : Except Error ℕ :=
  if 1000000000 < requested then
    let targetTime := min (requested - 2 * 60 * 60) (2 ^ 32 - 1)
    match node.chain.active.headers.findIdx? fun header => targetTime ≤ header.time with
    | none => .error (.message "Could not find block with at least the specified timestamp.")
    | some height => .ok (height % 2 ^ 32)
  else if requested < 2 ^ 32 then .ok requested
  else .error (.message "block height is too large")

def snapshotPending : Bool := node.chain.snapshotBase.isSome && !node.chain.snapshotValidated

def fileBoundary (targetHeight : ℕ) : Except Error (Option ℕ) :=
  if node.fastPrune then node.fastPruneBoundary targetHeight else .ok (some targetHeight)

def pruneTarget (sub : ℕ → ℕ → Except Error ℕ) (requested : ℕ) : Except Error (Option ℕ) :=
  if node.snapshotPending then .ok none
  else do
    bailIf (node.chain.height < node.pruneAfterHeight) (.message "Blockchain is too short for pruning.")
    let requestedHeight ← node.requestedHeight requested
    bailIf (node.chain.height < requestedHeight) (.message "Blockchain is shorter than the attempted prune height.")
    let window ← sub node.chain.height minBlocksToKeep
    let targetHeight := node.pruneLocks.foldl (limitByLock node.chain.height) (min requestedHeight window)
    let boundary ← node.fileBoundary targetHeight
    .ok (boundary.filter fun targetHeight => !(node.chain.pruneHeight.any (targetHeight ≤ ·)) && 1 < targetHeight)

/-- Genesis, the blocks from the boundary on and the protected blocks. -/
def retainedBlocks (targetHeight : ℕ) : Finset BlockHash :=
  node.chain.blockIndex.keys.filter fun hash =>
    (node.chain.bodies.lookup hash).isSome ∧ ((node.chain.blockIndex.lookup hash).any fun indexed =>
      indexed.height = 0 ∨ targetHeight ≤ indexed.height ∨ (node.pruneProtectedBlocks.lookup hash).any (targetHeight ≤ ·))

def retain {α : Type} (m : FMap BlockHash α) (retained : Finset BlockHash) : FMap BlockHash α :=
  eraseAll m (HashOrder.elements (m.keys \ retained))

/-- The bodies that are about to be removed from the active chain, copied to the fallback store. -/
def sidecarBlocks (targetHeight : ℕ) : List (BlockHash × Block) :=
  (node.chain.active.hashes.take targetHeight).filterMap fun hash =>
    if hash ∈ node.retainedBlocks targetHeight then none else (node.chain.bodies.lookup hash).map (hash, ·)

def prunedChain (targetHeight : ℕ) : ChainState := { node.chain with
  bodies := retain node.chain.bodies (node.retainedBlocks targetHeight)
  undo := retain node.chain.undo (node.retainedBlocks targetHeight)
  pruneHeight := some targetHeight }

def pruneBelow (targetHeight : ℕ) : PruningNode :=
  let retained := node.retainedBlocks targetHeight
  { node with
    chain := (node.prunedChain targetHeight).persistSnapshot
    pruneProtectedBlocks := retain node.pruneProtectedBlocks (node.pruneProtectedBlocks.keys.filter fun hash =>
      (node.pruneProtectedBlocks.lookup hash).any (targetHeight ≤ ·) ∧ hash ∈ retained)
    electrumStore := node.electrumStore.map fun store => insertAll store (node.sidecarBlocks targetHeight)
    tipFits := by
      rw [persistSnapshot_active]
      exact node.tipFits
    heightsFit := by
      rw [persistSnapshot_blockIndex]
      exact node.heightsFit }

def prune (sub : ℕ → ℕ → Except Error ℕ) (requested : ℕ) : Except Error ℕ × PruningNode :=
  match node.pruneTarget sub requested with
  | .error error => (.error error, node)
  | .ok none => (.ok (node.chain.pruneHeight.getD 0), node)
  | .ok (some targetHeight) => (.ok targetHeight, node.pruneBelow targetHeight)

def wantsAutoPrune (diskUsage : Except Error ℕ) : Except Error Bool :=
  match node.pruneTargetSize with
  | none => .ok false
  | some targetSize =>
    if node.snapshotPending then .ok false
    else if node.chain.height ≤ node.pruneAfterHeight then .ok false
    else do
      let usage ← diskUsage
      let maximumHeight := node.chain.height - minBlocksToKeep
      .ok (targetSize < usage && maximumHeight ≠ 0 && !(node.chain.pruneHeight.any (maximumHeight ≤ ·)))

def maybeAutoPrune (sub : ℕ → ℕ → Except Error ℕ) (diskUsage : Except Error ℕ) : Except Error Bool × PruningNode :=
  match node.wantsAutoPrune diskUsage with
  | .error error => (.error error, node)
  | .ok false => (.ok false, node)
  | .ok true => match node.prune sub (node.chain.height - minBlocksToKeep) with
    | (.error error, pruned) => (.error error, pruned)
    | (.ok _, pruned) => (.ok true, pruned)

end PruningNode

end BitcoindRs
