import BitcoindRs.Chain.HeaderChecks

/-!
What a node leaves on disk about the headers it knows: a checkpoint of all of them, and a journal of the batches
accepted since.
-/

namespace BitcoindRs
open Result FMap BlockIndex
variable [Library] [HashOrder OutPoint] [HashOrder BlockHash]

structure Node where
  state : ChainState
  dir : DataDir

namespace ChainState

omit [Library] [HashOrder OutPoint] [HashOrder BlockHash] in
/-- The order of the checkpointed headers: by height, then by hash. -/
def Precedes (a b : BlockHash × BlockNode) : Prop := a.2.height < b.2.height ∨ a.2.height = b.2.height ∧ a.1 ≤ b.1

omit [Library] [HashOrder OutPoint] [HashOrder BlockHash] in
instance : DecidableRel Precedes := fun a b =>
  inferInstanceAs (Decidable (a.2.height < b.2.height ∨ a.2.height = b.2.height ∧ a.1 ≤ b.1))

omit [Library] [HashOrder OutPoint] in
def knownHeaders (st : ChainState) : List Header := (st.blockIndex.toList.insertionSort Precedes).map (·.2.header)

end ChainState

namespace Node
open ChainState

omit [Library] [HashOrder OutPoint] in
/-- The metadata is replaced before the counters and the tip are written; the journal is cleared last. -/
def persistMetadata (node : Node) : Except Error Unit × Node :=
  let st := node.state
  let written := { node.dir with
    metadata := some ⟨st.active.hashes, st.knownHeaders, st.invalidBlocks, st.pruneHeight⟩ }
  if st.active.txCounts.length ≠ st.active.hashes.length then
    (.error (.message "active transaction count vector does not match the active chain"), ⟨st, written⟩)
  else (.ok (), ⟨st, { written with activeTip := some (st.bestHash, st.height), headerJournal := [] }⟩)

def journalMagicSize : ℕ := 31

def headerRecordSize : ℕ := 80 + 4

def headerJournalCheckpointBytes : ℕ := 8 * 1024 * 1024

omit [HashOrder OutPoint] in
/-- New headers are journaled when the whole batch is accepted; a large journal is replaced by a checkpoint. -/
def acceptHeaders (node : Node) (headers : List Header) : Except Error (List BlockHash) × Node :=
  match node.state.acceptHeadersInternal headers with
  | (.error error, st) => (.error error, { node with state := st })
  | (.ok (hashes, inserted), st) =>
    let journaled : Node := ⟨st, { node.dir with headerJournal := node.dir.headerJournal ++ inserted }⟩
    if inserted = [] then (.ok hashes, { node with state := st })
    else if headerJournalCheckpointBytes ≤ journalMagicSize + headerRecordSize * journaled.dir.headerJournal.length then
      match journaled.persistMetadata with
      | (.ok (), checkpointed) => (.ok hashes, checkpointed)
      | (.error error, failed) => (.error error, failed)
    else (.ok hashes, journaled)

omit [Library] [HashOrder OutPoint] in
def persistSnapshot (node : Node) : Except Error Unit × Node :=
  match node.persistMetadata with
  | (.error error, failed) => (.error error, failed)
  | (.ok (), checkpointed) =>
    let st := checkpointed.state.persistSnapshot
    (.ok (), ⟨st, { checkpointed.dir with
      snapshot := st.snapshot
      chainstateStore := st.chainstateStore
      utxoStore := st.coins.utxoStore }⟩)

end Node

open ChainState in
/-- The nodes reached from an empty directory by header batches that meet a condition, connections to the tip,
checkpoints and restarts. A connection may or may not reach the disk before the next crash; its tip is published only
when it is synced. -/
inductive NodeRun (world : Set Header) (config : NodeConfig) (condition : Node → List Header → Prop) : Node → Prop
  | start {dir : DataDir} {rebuildChainstate deltasValid : Bool} {orderedHeaders : List (BlockHash × Header)}
      {best : BlockHash} {st : ChainState} (fresh : dir.metadata = none ∧ dir.headerJournal = [] ∧ dir.activeTip = none ∧
        dir.snapshot = none)
      (bodies : ∀ hash block, dir.bodies.lookup hash = some block →
        block = Library.genesisBlock config.params.network ∧ block.blockHash = hash)
      (stored : ∀ entry ∈ orderedHeaders, ∃ block, dir.bodies.lookup entry.1 = some block ∧ block.header = entry.2)
      (h : openChain config dir rebuildChainstate deltasValid orderedHeaders best = .ok st) :
      NodeRun world config condition (Node.persistMetadata ⟨st, dir⟩).2
  | accept {node : Node} {headers : List Header} (run : NodeRun world config condition node)
      (known : ∀ header ∈ headers, header ∈ world) (fine : condition node headers) :
      NodeRun world config condition (node.acceptHeaders headers).2
  | connect {node : Node} {block : Block} {syncStorage : Bool} {st : ChainState} {dir : DataDir}
      (run : NodeRun world config condition node) (known : block.header ∈ world)
      (inactive : node.state.isActiveBlock block.blockHash = false)
      (h : node.state.connectBlockInternal block true syncStorage = .ok st)
      (metadata : dir.metadata = node.dir.metadata) (journal : dir.headerJournal = node.dir.headerJournal)
      (tip : dir.activeTip = if syncStorage then some (st.bestHash, st.height) else node.dir.activeTip)
      (snapshot : dir.snapshot = node.dir.snapshot)
      (bodies : ∀ hash block, dir.bodies.lookup hash = some block → st.bodies.lookup hash = some block) :
      NodeRun world config condition ⟨st, dir⟩
  | checkpoint {node : Node} (run : NodeRun world config condition node) :
      NodeRun world config condition node.persistMetadata.2
  | snapshot {node : Node} (run : NodeRun world config condition node) :
      NodeRun world config condition node.persistSnapshot.2
  | restart {node : Node} {rebuildChainstate deltasValid : Bool} {orderedHeaders : List (BlockHash × Header)}
      {best : BlockHash} {st : ChainState} (run : NodeRun world config condition node)
      (stored : ∀ entry ∈ orderedHeaders, ∃ block, node.dir.bodies.lookup entry.1 = some block ∧ block.header = entry.2)
      (h : openChain config node.dir rebuildChainstate deltasValid orderedHeaders best = .ok st) :
      NodeRun world config condition (Node.persistMetadata ⟨st, node.dir⟩).2

end BitcoindRs
