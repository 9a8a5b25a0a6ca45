import BitcoindRs.Chain.Activate
import BitcoindRs.Data.Resume

/-!
Background validation of a loaded UTXO snapshot: the historical blocks are replayed from genesis, and the result at the
base of the snapshot is compared with it.
-/

namespace BitcoindRs
open Result FMap ChainState

structure BackgroundValidationJob where
  config : NodeConfig
  /-- The blocks of the read-only store. -/
  bodies : FMap BlockHash Block
  activeChain : List BlockHash
  blockIndex : BlockIndex
  baseHash : BlockHash
  baseHeight : ℕ
  targetTip : BlockHash
  /-- The file of the loaded snapshot, with the hash of its base. -/
  baseSnapshot : Option (BlockHash × UtxoMap)
  /-- The durable snapshot of the serving chain. -/
  chainSnapshot : Option ChainSnapshot

structure AssumeUtxoCheckpoint where
  baseHash : BlockHash
  height : ℕ
  blockHash : BlockHash
  baseMatches : Option Bool
  utxos : UtxoMap

inductive BackgroundValidationOutcome where
  | complete (targetTip : BlockHash) (utxos : UtxoMap) (baseMatches : Bool)
  | failed (targetTip : BlockHash) (error : Error)

def assumeutxoCheckpointInterval : ℕ := 256

/-- The coins after a number of blocks, and the comparison at the base once it has been made. -/
structure Replay where
  utxos : UtxoMap
  baseMatches : Option Bool

/-- A checkpoint of another base or of a block that is not active is ignored. -/
def loadAssumeutxoCheckpoint (file : Option AssumeUtxoCheckpoint) (baseHash : BlockHash) (activeChain : List BlockHash) :
    Option AssumeUtxoCheckpoint :=
  file.filter fun checkpoint => checkpoint.baseHash = baseHash ∧ activeChain[checkpoint.height]? = some checkpoint.blockHash

namespace BackgroundValidationJob

/-- When the base is the tip, its snapshot may be the one of the serving chain. -/
def loadAssumeutxoExpectedSnapshot (job : BackgroundValidationJob) : Except Error UtxoMap :=
  match job.baseSnapshot with
  | some (storedBase, utxos) =>
    if storedBase ≠ job.baseHash then .error (.message "AssumeUTXO base snapshot does not match its provenance")
    else .ok utxos
  | none =>
    if job.targetTip ≠ job.baseHash then .error (.message "AssumeUTXO base snapshot is missing")
    else match job.chainSnapshot with
      | none => .error (.message "reading chainstate snapshot")
      | some snapshot =>
        if snapshot.tip ≠ job.baseHash then .error (.message "chainstate snapshot does not contain the AssumeUTXO base")
        else .ok snapshot.utxos

def openBackgroundReplayState (job : BackgroundValidationJob) : Except Error ChainState := do
  let headers ← job.activeChain.mapM fun hash =>
    okOr ((job.blockIndex.lookup hash).map (·.header)) (.message "background validator is missing an active header")
  .ok {
    config := job.config
    shutdownInterrupt := false
    startupReindex := false
    blockIndex := job.blockIndex
    active := ⟨job.activeChain, headers, [], []⟩
    coins := ⟨∅, true, ∅, ⟨∅, []⟩, none⟩
    bodies := job.bodies
    undo := ∅
    chainstateStore := ∅
    coinstatsStore := ∅
    invalidBlocks := ∅
    preciousBlocks := ∅
    arrival := ⟨∅, 1⟩
    snapshot := none
    snapshotBase := none
    snapshotValidated := true
    pruneHeight := none }

def resumeAt (job : BackgroundValidationJob) (file : Option AssumeUtxoCheckpoint) (targetHeight : ℕ) : ℕ × Replay :=
  match loadAssumeutxoCheckpoint file job.baseHash job.activeChain with
  | none => (0, ⟨∅, none⟩)
  | some checkpoint =>
    if targetHeight < checkpoint.height then (0, ⟨∅, none⟩)
    else (checkpoint.height, ⟨checkpoint.utxos, checkpoint.baseMatches⟩)

variable [Library]

def validateBlock (job : BackgroundValidationJob) (st : ChainState) (height : ℕ) (utxos : UtxoMap) : Except Error UtxoMap := do
  let blockHash ← okOr job.activeChain[height]? (.message "index out of bounds")
  let block ← okOr (st.bodies.lookup blockHash) (.message ("background validator is missing block " ++ displayHash blockHash))
  let node ← okOr (st.blockIndex.lookup blockHash) (.message "background validator block index entry is missing")
  let parentHash := block.header.prevBlockhash
  let _ ← okOr (st.blockIndex.lookup parentHash) (.message "background validator parent index entry is missing")
  let medianTimePast := st.medianTimePastForParent parentHash
  validation (st.validateHeaderContext block.header parentHash medianTimePast)
  let _ ← validation (validateBlockStructure st.config.params st.config.signetChallenge block node.height)
  let rules := { st.blockRules node.height block.blockHash parentHash true with skipScriptChecks := false }
  let application ← validateBlockTransactions rules block block.txids node.height utxos medianTimePast
  .ok (applyBlockToUtxos utxos block node.height medianTimePast application.spentEntries)

def replayStep (job : BackgroundValidationJob) (st : ChainState) (expected : UtxoMap) (height : ℕ) (replay : Replay) :
    Except Error Replay := do
  let utxos ← job.validateBlock st height replay.utxos
  .ok ⟨utxos, if height = job.baseHeight then some (utxos = expected) else replay.baseMatches⟩

structure Start where
  st : ChainState
  expected : UtxoMap
  targetHeight : ℕ
  startHeight : ℕ
  replay : Replay

/-- With its base at genesis, a snapshot is compared before the first block. -/
def compareAtGenesis (job : BackgroundValidationJob) (expected : UtxoMap) (resumed : ℕ × Replay) : Replay :=
  if job.baseHeight = 0 ∧ resumed.1 = 0 then ⟨resumed.2.utxos, some (resumed.2.utxos = expected)⟩ else resumed.2

def startFrom (job : BackgroundValidationJob) (expected : UtxoMap) (targetHeight : ℕ) (resumed : ℕ × Replay) :
    Except Error Start := do
  bailIf (job.baseHeight < resumed.1 ∧ resumed.2.baseMatches = none)
    (.message "AssumeUTXO checkpoint crossed its base without a comparison")
  let st ← job.openBackgroundReplayState
  .ok ⟨st, expected, targetHeight, resumed.1, job.compareAtGenesis expected resumed⟩

def start (job : BackgroundValidationJob) (file : Option AssumeUtxoCheckpoint) : Except Error Start := do
  let targetHeight ← okOr (job.activeChain.findIdx? (· = job.targetTip))
    (.message "background validator target tip is not active")
  bailIf (job.activeChain[job.baseHeight]? ≠ some job.baseHash) (.message "background validator base block is not active")
  let expected ← job.loadAssumeutxoExpectedSnapshot
  job.startFrom expected targetHeight (job.resumeAt file targetHeight)

def checkpointDue (job : BackgroundValidationJob) (targetHeight height : ℕ) : Bool :=
  height % assumeutxoCheckpointInterval = 0 || height = job.baseHeight || height = targetHeight

def checkpoint (job : BackgroundValidationJob) (height : ℕ) (replay : Replay) : AssumeUtxoCheckpoint :=
  ⟨job.baseHash, height, job.activeChain[height]?.getD 0, replay.baseMatches, replay.utxos⟩

def replayBlocks (job : BackgroundValidationJob) (start : Start) (polls : Resume.Polls) (file : Option AssumeUtxoCheckpoint) :
    Except Error Replay × Option AssumeUtxoCheckpoint :=
  Resume.loop (job.replayStep start.st start.expected) (job.checkpointDue start.targetHeight) job.checkpoint
    (.message "background AssumeUTXO validation was cancelled") polls (start.targetHeight - start.startHeight)
    (start.startHeight + 1) start.replay file

def outcome (job : BackgroundValidationJob) : Except Error Replay → BackgroundValidationOutcome
  | .error error => .failed job.targetTip error
  | .ok ⟨_, none⟩ => .failed job.targetTip (.message "background validator did not reach the snapshot base")
  | .ok ⟨utxos, some baseMatches⟩ => .complete job.targetTip utxos baseMatches

def runBackgroundValidation (job : BackgroundValidationJob) (polls : Resume.Polls) (file : Option AssumeUtxoCheckpoint) :
    BackgroundValidationOutcome × Option AssumeUtxoCheckpoint :=
  match job.start file with
  | .error error => (.failed job.targetTip error, file)
  | .ok start =>
    let done := job.replayBlocks start polls file
    (job.outcome done.1, done.2)

end BackgroundValidationJob

namespace ChainState
variable [HashOrder OutPoint]

/-- The median time past a snapshot entry has on the chain of the base. -/
def snapshotMedianTimePast (st : ChainState) (baseHash : BlockHash) (entry : UtxoEntry) : Except Error ℕ :=
  if entry.height = 0 then .ok 0
  else do
    let parent ← okOr (st.ancestorHash baseHash (entry.height - 1)) (.message "UTXO snapshot entry is outside the base chain")
    .ok (st.medianTimePastForParent parent)

/-- The format of a snapshot has no median times: they are taken from the headers. -/
def reconstructMedianTimes (st : ChainState) (baseHash : BlockHash) (coins : UtxoMap) : Except Error UtxoMap :=
  coins.toList.foldlM (fun utxos (outpoint, entry) => do
    let medianTimePast ← st.snapshotMedianTimePast baseHash entry
    .ok (utxos.insert outpoint { entry with medianTimePast })) ∅

end ChainState

end BitcoindRs
