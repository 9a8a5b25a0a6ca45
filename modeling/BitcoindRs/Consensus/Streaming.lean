import BitcoindRs.Consensus.ScriptCache
import BitcoindRs.Data.TaskPool

/-! The streaming path of block validation. -/

namespace BitcoindRs
open Result Checked

section halves
variable [Library]

def checkTransactionInputs (ctx : BlockContext) (utxos : UtxoMap) (st : BlockProgress) (identified : Transaction × Txid) :
    Except Error (InputProgress × ℕ) := do
  let (tx, txid) := identified
  validation (validateTransactionAbsoluteFinality tx ctx.height ctx.lockTimeCutoff)
  let inputs ← tx.input.foldlM (processInput ctx utxos tx txid)
    ⟨∅, 0, [], [], transactionSigopCost tx [] ctx.sigopFlags, st⟩
  validation (validateReducedData ctx tx inputs)
  let txSigopCost := if ctx.borrowPrevouts then inputs.txSigopCost
    else transactionSigopCost tx inputs.previousOutputs ctx.sigopFlags
  bailIf (maxBlockSigopCost < inputs.block.sigopCost + txSigopCost) (.validation .tooManySigopsInConnect)
  .ok (inputs, txSigopCost)

def settleTransaction (ctx : BlockContext) (identified : Transaction × Txid) (checked : InputProgress × ℕ) :
    Except Error BlockProgress := do
  let (tx, txid) := identified
  let inputs := checked.1
  let outputTotal ← okOr (sumU64 (tx.output.map (·.value))) (.validation .outputTotalOverflow)
  bailIf (inputs.inputTotal < outputTotal) (.validation (.negativeFee txid))
  let totalFees ← okOr (addU64 inputs.block.totalFees (inputs.inputTotal - outputTotal))
    (.validation .accumulatedFeeOverflow)
  bailIf (maxMoney < totalFees) (.validation .accumulatedFeeOverflow)
  .ok (tx.output.zipIdx.foldl (addOutput ctx txid) { inputs.block with
    totalFees
    sigopCost := inputs.block.sigopCost + checked.2
    scriptJobs := if ctx.rules.skipScriptChecks then inputs.block.scriptJobs
      else inputs.block.scriptJobs ++ [⟨tx, inputs.previousOutputs⟩] })

theorem processTransaction_eq (ctx : BlockContext) (utxos : UtxoMap) (st : BlockProgress) (identified : Transaction × Txid) :
    processTransaction ctx utxos st identified = (checkShutdownInterrupt ctx.rules >>= fun _ =>
      checkTransactionInputs ctx utxos st identified >>= settleTransaction ctx identified) := by
  unfold processTransaction checkTransactionInputs settleTransaction
  simp only [bind_assoc, ok_bind]

end halves

def scriptCheckParallelInputs : ℕ := 2
def scriptCheckBatchSize : ℕ := 128

/-- A queued job; one with a shared context is checked input by input. -/
structure StreamedJob where
  txIndex : ℕ
  job : ScriptCheckJob
  parallel : Bool

structure ScriptTask where
  streamed : StreamedJob
  input : Option ℕ

def StreamedJob.tasks (streamed : StreamedJob) : List ScriptTask :=
  if streamed.parallel then (List.range streamed.job.transaction.input.length).map fun input => ⟨streamed, some input⟩
  else [⟨streamed, none⟩]

variable [Library] [ScriptEngine]

def scriptValidationError (job : ScriptCheckJob) (input : ℕ) : ValidationError :=
  .script job.transaction.computeTxid input (ScriptEngine.errorReason job.transaction job.previousOutputs input)

def ScriptTask.check (flags : ℕ) (task : ScriptTask) : Except ValidationError Unit :=
  let job := task.streamed.job
  match task.input with
  | some input =>
    if ScriptEngine.verifyInput job.transaction job.previousOutputs flags input then .ok ()
    else .error (scriptValidationError job input)
  | none => job.verify flags

def ScriptTask.index (task : ScriptTask) : ℕ := task.streamed.txIndex

structure Stream where
  /-- The transactions still to be validated, with their indices. -/
  rest : List ((Transaction × Txid) × ℕ)
  progress : BlockProgress
  /-- The jobs of the next batch. -/
  batch : List StreamedJob
  /-- All jobs so far, whose keys are to be published. -/
  streamed : List StreamedJob
  pool : TaskPool ScriptTask ValidationError
  /-- The result of the main thread. -/
  outcome : Option (Except Error Unit)

/-- What happens next: another thread raises the shutdown flag, a worker takes a task, or the main thread continues. -/
inductive StreamEvent where
  | raise
  | work (position : ℕ)
  | main

namespace Stream

def spawnBatch (s : Stream) : Stream := { s with batch := [], pool := s.pool.spawn (s.batch.flatMap StreamedJob.tasks) }

def push (s : Stream) (job : StreamedJob) : Stream :=
  let pushed := { s with batch := s.batch ++ [job], streamed := s.streamed ++ [job] }
  if scriptCheckBatchSize ≤ pushed.batch.length then pushed.spawnBatch else pushed

/-- A transaction that is not cached is queued; several inputs share a context. -/
def enqueue (flags : ℕ) (cached : Transaction → Bool) (s : Stream) (txIndex : ℕ) (job : ScriptCheckJob) : Except Error Stream :=
  if cached job.transaction then .ok s
  else do
    let parallel : Bool := scriptCheckParallelInputs ≤ job.transaction.input.length
    bailIf (parallel ∧ ScriptEngine.createContext job.transaction job.previousOutputs flags = false)
      (.validation (scriptValidationError job 0))
    .ok (s.push ⟨txIndex, job, parallel⟩)

/-- One transaction of the main thread. The jobs it has queued stay queued when it fails later. -/
def transaction (ctx : BlockContext) (utxos : UtxoMap) (cached : Transaction → Bool) (s : Stream)
    (entry : (Transaction × Txid) × ℕ) (rest : List ((Transaction × Txid) × ℕ)) : Stream :=
  if s.pool.interrupted then { s with outcome := some (.error (.message "block validation interrupted by shutdown")) }
  else match checkTransactionInputs ctx utxos s.progress entry.1 with
    | .error error => { s with outcome := some (.error error) }
    | .ok checked => match s.enqueue ctx.sigopFlags cached entry.2 ⟨entry.1.1, checked.1.previousOutputs⟩ with
      | .error error => { s with outcome := some (.error error) }
      | .ok queued => match settleTransaction ctx entry.1 checked with
        | .error error => { queued with rest, outcome := some (.error error) }
        | .ok progress => { queued with progress, rest }

def main (ctx : BlockContext) (utxos : UtxoMap) (cached : Transaction → Bool) (s : Stream) : Stream :=
  match s.outcome with
  | some _ => s
  | none => match s.rest with
    | [] => { s.spawnBatch with outcome := some (.ok ()) }
    | entry :: rest => s.transaction ctx utxos cached entry rest

def step (ctx : BlockContext) (utxos : UtxoMap) (cached : Transaction → Bool) (s : Stream) : StreamEvent → Stream
  | .raise => { s with pool := s.pool.raise }
  | .work position => { s with pool := s.pool.work (ScriptTask.check ctx.sigopFlags) ScriptTask.index position }
  | .main => s.main ctx utxos cached

def run (ctx : BlockContext) (utxos : UtxoMap) (cached : Transaction → Bool) (s : Stream) (events : List StreamEvent) : Stream :=
  events.foldl (step ctx utxos cached) s

def start (transactions : List (Transaction × Txid)) (progress : BlockProgress) (interrupted : Bool) : Stream :=
  ⟨transactions.zipIdx 1, progress, [], [], .empty interrupted, none⟩

/-- The scope of the pool ends when the main thread is done and no task is left. -/
def Joined (s : Stream) : Prop := s.outcome.isSome ∧ s.pool.queue = []

def result (s : Stream) : Except Error BlockProgress := match s.outcome with
  | some (.error error) => .error error
  | _ => match s.pool.failure with
    | some (_, error) => .error (.validation error)
    | none => .ok s.progress

def published (flags : ℕ) (cache : ScriptValidationCache) (s : Stream) : ScriptValidationCache := match s.result with
  | .error _ => cache
  | .ok _ => cache.publish (s.streamed.map fun streamed => streamed.job.key flags)

end Stream

end BitcoindRs
