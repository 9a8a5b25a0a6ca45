import BitcoindRs.Consensus.Transactions

/-!
The cache of transactions whose scripts have been executed, and the two validators that fill it after all their checks:
the one for the collected jobs of a block, and the one for a mempool transaction.
-/

namespace BitcoindRs
open Result

/-- The hash of the witness transaction identifier and the script flags. -/
structure ScriptCacheKey where
  wtxid : Txid
  flags : ℕ
deriving DecidableEq, Repr

structure ScriptValidationCache where
  entries : Finset ScriptCacheKey
  order : List ScriptCacheKey
  maxEntries : ℕ

namespace ScriptValidationCache

def cacheScriptValidation (cache : ScriptValidationCache) (key : ScriptCacheKey) : ScriptValidationCache :=
  if key ∈ cache.entries then cache
  else match cache.order with
    | evicted :: order =>
      if cache.maxEntries ≤ cache.order.length then
        { cache with entries := insert key (cache.entries.erase evicted), order := order ++ [key] }
      else { cache with entries := insert key cache.entries, order := cache.order ++ [key] }
    | [] => { cache with entries := insert key cache.entries, order := [key] }

def publish (cache : ScriptValidationCache) (keys : List ScriptCacheKey) : ScriptValidationCache :=
  keys.foldl cacheScriptValidation cache

theorem mem_cacheScriptValidation {cache : ScriptValidationCache} {key other : ScriptCacheKey}
    (member : other ∈ (cache.cacheScriptValidation key).entries) : other = key ∨ other ∈ cache.entries := by
  unfold cacheScriptValidation at member
  split at member
  · exact .inr member
  split at member
  · split at member
    · exact (Finset.mem_insert.mp member).imp_right Finset.mem_of_mem_erase
    · exact Finset.mem_insert.mp member
  · exact Finset.mem_insert.mp member

theorem mem_publish {cache : ScriptValidationCache} {keys : List ScriptCacheKey} {key : ScriptCacheKey}
    (member : key ∈ (cache.publish keys).entries) : key ∈ keys ∨ key ∈ cache.entries := by
  induction keys generalizing cache with
  | nil => exact .inr member
  | cons first keys ih =>
    rcases ih member with later | earlier
    · exact .inl (List.mem_cons_of_mem _ later)
    · rcases mem_cacheScriptValidation earlier with rfl | old
      · exact .inl List.mem_cons_self
      · exact .inr old

end ScriptValidationCache

/-- The native engine behind `Library.transactionScripts`: a transaction that can be decoded is valid when each of its
inputs is. -/
class ScriptEngine [Library] where
  createContext : Transaction → List TxOut → ℕ → Bool
  verifyInput : Transaction → List TxOut → ℕ → ℕ → Bool
  errorReason : Transaction → List TxOut → ℕ → String
  transactionScripts_ok : ∀ tx previousOutputs flags, previousOutputs.length = tx.input.length →
    (Library.transactionScripts tx previousOutputs flags = .ok () ↔ createContext tx previousOutputs flags = true ∧
      ∀ input < tx.input.length, verifyInput tx previousOutputs flags input = true)

variable [Library]

def scriptCacheKey (flags : ℕ) (tx : Transaction) : ScriptCacheKey := ⟨Library.wtxid tx, flags⟩

def ScriptCheckJob.key (job : ScriptCheckJob) (flags : ℕ) : ScriptCacheKey := scriptCacheKey flags job.transaction

def ScriptCheckJob.verify (job : ScriptCheckJob) (flags : ℕ) : Except ValidationError Unit :=
  (Library.transactionScripts job.transaction job.previousOutputs flags).mapError fun (input, reason) =>
    .script job.transaction.computeTxid input reason

def ScriptCheckJob.Valid (job : ScriptCheckJob) (flags : ℕ) : Prop :=
  Library.transactionScripts job.transaction job.previousOutputs flags = .ok ()

theorem ScriptCheckJob.verify_ok {job : ScriptCheckJob} {flags : ℕ} : job.verify flags = .ok () ↔ job.Valid flags := by
  unfold ScriptCheckJob.verify ScriptCheckJob.Valid
  rcases Library.transactionScripts job.transaction job.previousOutputs flags with error | ok <;> simp [Except.mapError]

/-- How the jobs are spread: one after the other, over a pool, or in chunks over threads of their own. -/
inductive ScriptThreads where
  | serial
  | pool
  | chunks (size : ℕ)

/-- The failure of a job with its transaction index; an observed shutdown flag ends the validation. -/
def validateJob (flags : ℕ) (observed : ℕ → Bool) (indexed : ScriptCheckJob × ℕ) :
    Except Error (Option (ℕ × ValidationError)) :=
  if observed indexed.2 then .error (.message "block validation interrupted by shutdown")
  else match indexed.1.verify flags with
    | .ok () => .ok none
    | .error error => .ok (some (indexed.2, error))

def validateChunk (flags : ℕ) (observed : ℕ → Bool) : List (ScriptCheckJob × ℕ) → Except Error (Option (ℕ × ValidationError))
  | [] => .ok none
  | indexed :: rest => do
    match ← validateJob flags observed indexed with
    | some failure => .ok (some failure)
    | none => validateChunk flags observed rest

/-- The failure with the least transaction index; the first one of several. -/
def leastFailure (failures : List (ℕ × ValidationError)) : Option (ℕ × ValidationError) :=
  failures.foldl (fun least failure => if least.all fun known => failure.1 < known.1 then some failure else least) none

def reportFailures (failures : List (Option (ℕ × ValidationError))) : Except Error Unit :=
  match leastFailure (failures.filterMap id) with
  | some (_, error) => .error (.validation error)
  | none => .ok ()

/-- The checks of the jobs that the cache does not know. `observed` tells which jobs see the shutdown flag raised. -/
def runScriptChecks (threads : ScriptThreads) (flags : ℕ) (observed : ℕ → Bool) (pending : List (ScriptCheckJob × ℕ)) :
    Except Error Unit :=
  match threads with
  | .serial => pending.forM fun indexed => do
      bailIf (observed indexed.2) (.message "block validation interrupted by shutdown")
      validation (indexed.1.verify flags)
  | .pool => do
      let failures ← pending.mapM (validateJob flags observed)
      reportFailures failures
  | .chunks size => do
      let failures ← (pending.toChunks size).mapM (validateChunk flags observed)
      reportFailures failures

/-- The number of threads a node may use for scripts, and whether it has built a pool for them. -/
structure ScriptWorkers where
  threadCount : ℕ
  pool : Bool

def ScriptWorkers.threads (workers : ScriptWorkers) (pending : ℕ) : ScriptThreads :=
  let threadCount := min workers.threadCount pending
  if threadCount ≤ 1 then .serial
  else if workers.pool then .pool
  else .chunks ((pending + threadCount - 1) / threadCount)

/-- `validate_script_checks`: all keys are published after all checks. -/
def validateScriptChecksCached (workers : ScriptWorkers) (flags : ℕ) (observed : ℕ → Bool) (cache : ScriptValidationCache)
    (jobs : List (ScriptCheckJob × ℕ)) : Except Error Unit × ScriptValidationCache :=
  let pending := jobs.filter fun indexed => indexed.1.key flags ∉ cache.entries
  match runScriptChecks (workers.threads pending.length) flags observed pending with
  | .error error => (.error error, cache)
  | .ok () => (.ok (), cache.publish (pending.map fun indexed => indexed.1.key flags))

variable {flags : ℕ} {observed : ℕ → Bool}

omit [Library] in
theorem leastFailure_none {failures : List (ℕ × ValidationError)} : leastFailure failures = none ↔ failures = [] := by
  constructor
  · intro none_
    rcases failures with _ | ⟨first, rest⟩
    · rfl
    · have kept : ∀ (rest : List (ℕ × ValidationError)) (known : ℕ × ValidationError),
          rest.foldl (fun least failure => if least.all fun known => failure.1 < known.1 then some failure else least)
            (some known) ≠ none := by
        intro rest
        induction rest with
        | nil => exact fun known absent => by cases absent
        | cons failure rest ih =>
          intro known
          rw [List.foldl_cons]
          split
          · exact ih failure
          · exact ih known
      exact absurd none_ (kept rest first)
  · rintro rfl
    rfl

omit [Library] in
theorem reportFailures_ok {failures : List (Option (ℕ × ValidationError))} :
    reportFailures failures = .ok () ↔ ∀ failure ∈ failures, failure = none := by
  unfold reportFailures
  rcases least : leastFailure (failures.filterMap id) with _ | ⟨index, error⟩
  · have empty := leastFailure_none.mp least
    simp only [List.filterMap_eq_nil_iff, id] at empty
    simpa using empty
  · have nonempty : failures.filterMap id ≠ [] := by
      rw [ne_eq, ← leastFailure_none, least]
      exact Option.some_ne_none _
    simp only [ne_eq, List.filterMap_eq_nil_iff, id] at nonempty
    simpa using nonempty

theorem validateJob_none {indexed : ScriptCheckJob × ℕ} :
    validateJob flags observed indexed = .ok none ↔ observed indexed.2 = false ∧ indexed.1.Valid flags := by
  unfold validateJob
  rw [← ScriptCheckJob.verify_ok]
  by_cases seen : observed indexed.2
  · simp [seen]
  · rcases verified : indexed.1.verify flags with error | ok <;> simp [seen]

theorem validateChunk_none {chunk : List (ScriptCheckJob × ℕ)} : validateChunk flags observed chunk = .ok none ↔
    ∀ indexed ∈ chunk, observed indexed.2 = false ∧ indexed.1.Valid flags := by
  induction chunk with
  | nil => simp [validateChunk]
  | cons indexed rest ih =>
    rw [List.forall_mem_cons, ← ih, ← validateJob_none]
    rw [validateChunk]
    rcases validateJob flags observed indexed with error | _ | failure <;> simp

omit [Library] in
theorem flatten_toChunks {α : Type} (size : ℕ) (xs : List α) : (xs.toChunks size).flatten = xs := by
  have general : ∀ (n : ℕ) (rest : List α) (first : Array α) (done : Array (List α)),
      (List.toChunks.go n rest first done).flatten = done.toList.flatten ++ (first.toList ++ rest) := by
    intro n rest
    induction rest with
    | nil => simp [List.toChunks.go]
    | cons x rest ih =>
      intro first done
      rw [List.toChunks.go]
      split <;> simp [ih]
  unfold List.toChunks
  split
  · rfl
  · simp
  · simp [general]

theorem runScriptChecks_ok {threads : ScriptThreads} {pending : List (ScriptCheckJob × ℕ)} :
    runScriptChecks threads flags observed pending = .ok () ↔
      ∀ indexed ∈ pending, observed indexed.2 = false ∧ indexed.1.Valid flags := by
  unfold runScriptChecks
  cases threads with
  | serial =>
    rw [forM_ok_iff]
    refine forall₂_congr fun indexed _ => ?_
    rw [← ScriptCheckJob.verify_ok, bind_ok_iff]
    simp
  | pool =>
    simp only [bind_ok_iff, reportFailures_ok, mapM_all]
    refine forall₂_congr fun indexed _ => ?_
    rw [← validateJob_none]
    simp
  | chunks size =>
    have whole : ∀ indexed, indexed ∈ pending ↔ ∃ chunk ∈ pending.toChunks size, indexed ∈ chunk := by
      intro indexed
      rw [← List.mem_flatten, flatten_toChunks]
    have inChunk : ∀ chunk, (∃ failure, validateChunk flags observed chunk = .ok failure ∧ failure = none) ↔
        ∀ indexed ∈ chunk, observed indexed.2 = false ∧ indexed.1.Valid flags := by
      intro chunk
      rw [← validateChunk_none]
      simp
    simp only [bind_ok_iff, reportFailures_ok, mapM_all, inChunk]
    constructor
    · intro chunks indexed member
      obtain ⟨chunk, listed, inside⟩ := (whole indexed).mp member
      exact chunks chunk listed indexed inside
    · intro all chunk listed indexed inside
      exact all indexed ((whole indexed).mpr ⟨chunk, listed, inside⟩)

def mempoolScriptFlags : ℕ := verifyP2sh ||| verifyDersig ||| verifyNulldummy ||| verifyChecklocktimeverify |||
  verifyChecksequenceverify ||| verifyWitness ||| verifyTaproot

def validateMempoolTransactionScripts (cache : ScriptValidationCache) (tx : Transaction) (previousOutputs : List TxOut) :
    Except ValidationError Unit × ScriptValidationCache :=
  let job : ScriptCheckJob := ⟨tx, previousOutputs⟩
  let key := job.key mempoolScriptFlags
  if key ∈ cache.entries then (.ok (), cache)
  else match job.verify mempoolScriptFlags with
    | .error error => (.error error, cache)
    | .ok () => (.ok (), cache.cacheScriptValidation key)

end BitcoindRs
