import BitcoindRs.Chain.Apply
import BitcoindRs.Consensus.StreamingChecks

/-! The script cache over whole runs of a node. -/

namespace BitcoindRs
open Result
variable [Library]
variable {cache : ScriptValidationCache} {key : ScriptCacheKey} {flags : ℕ} {tx : Transaction}
variable {previousOutputs : List TxOut}

/-- Every key belongs to a transaction whose inputs are all valid under the flags of the key. -/
def ScriptValidationCache.Sound (cache : ScriptValidationCache) : Prop :=
  ∀ key ∈ cache.entries, ∃ job : ScriptCheckJob, job.key key.flags = key ∧ job.Valid key.flags

theorem validateScriptChecksCached_inserts {workers : ScriptWorkers} {observed : ℕ → Bool}
    {jobs : List (ScriptCheckJob × ℕ)}
    (member : key ∈ (validateScriptChecksCached workers flags observed cache jobs).2.entries) :
    key ∈ cache.entries ∨ ∃ indexed ∈ jobs, key = indexed.1.key flags ∧ observed indexed.2 = false ∧ indexed.1.Valid flags := by
  unfold validateScriptChecksCached at member
  dsimp only at member
  split at member
  · exact .inl member
  · rename_i checked
    rcases ScriptValidationCache.mem_publish member with new | old
    · obtain ⟨indexed, pending, rfl⟩ := List.mem_map.mp new
      exact .inr ⟨indexed, List.mem_of_mem_filter pending, rfl, runScriptChecks_ok.mp checked indexed pending⟩
    · exact .inl old

theorem validateMempoolTransactionScripts_hit
    (hit : ScriptCheckJob.key ⟨tx, previousOutputs⟩ mempoolScriptFlags ∈ cache.entries) :
    validateMempoolTransactionScripts cache tx previousOutputs = (.ok (), cache) := if_pos hit

theorem validateMempoolTransactionScripts_inserts
    (member : key ∈ (validateMempoolTransactionScripts cache tx previousOutputs).2.entries) :
    key ∈ cache.entries ∨ key = scriptCacheKey mempoolScriptFlags tx ∧
      ScriptCheckJob.Valid ⟨tx, previousOutputs⟩ mempoolScriptFlags := by
  unfold validateMempoolTransactionScripts at member
  dsimp only at member
  split at member
  · exact .inl member
  split at member
  · exact .inl member
  · rename_i verified
    rcases ScriptValidationCache.mem_cacheScriptValidation member with rfl | old
    · exact .inr ⟨rfl, ScriptCheckJob.verify_ok.mp verified⟩
    · exact .inl old

variable [ScriptEngine]

theorem published_inserts {s : Stream} (consistent : s.Consistent flags)
    (joined : s.Joined) (complete : ∀ progress, s.result = .ok progress → s.pool.skipped = [])
    (member : key ∈ (s.published flags cache).entries) :
    key ∈ cache.entries ∨ ∃ streamed ∈ s.streamed, key = streamed.job.key flags ∧ streamed.job.Valid flags := by
  unfold Stream.published at member
  split at member
  · exact .inl member
  · rename_i progress accepted
    rcases ScriptValidationCache.mem_publish member with new | old
    · obtain ⟨streamed, listed, rfl⟩ := List.mem_map.mp new
      have verified := (consistent.verified_iff joined accepted).mpr (complete progress accepted) streamed listed
      exact .inr ⟨streamed, listed, rfl, consistent.valid listed verified⟩
    · exact .inl old

/-- The caches of a node that validates blocks on both paths, with interruptions at any moment, and mempool transactions.
The condition is on the streams that have been joined. -/
inductive ScriptCacheRun (condition : Stream → Prop) : ScriptValidationCache → Prop
  | empty (maxEntries : ℕ) : ScriptCacheRun condition ⟨∅, [], maxEntries⟩
  | streamed {cache : ScriptValidationCache} (ran : ScriptCacheRun condition cache) {ctx : BlockContext}
      (executes : ctx.rules.skipScriptChecks = false) (utxos : UtxoMap) (cached : Transaction → Bool)
      (transactions : List (Transaction × Txid)) (progress : BlockProgress) (interrupted : Bool) (events : List StreamEvent)
      (joined : ((Stream.start transactions progress interrupted).run ctx utxos cached events).Joined)
      (fine : condition ((Stream.start transactions progress interrupted).run ctx utxos cached events)) :
      ScriptCacheRun condition (((Stream.start transactions progress interrupted).run ctx utxos cached events).published ctx.sigopFlags cache)
  | collected {cache : ScriptValidationCache} (ran : ScriptCacheRun condition cache) (workers : ScriptWorkers) (flags : ℕ)
      (observed : ℕ → Bool) (jobs : List (ScriptCheckJob × ℕ)) :
      ScriptCacheRun condition (validateScriptChecksCached workers flags observed cache jobs).2
  | mempool {cache : ScriptValidationCache} (ran : ScriptCacheRun condition cache) (tx : Transaction) (previousOutputs : List TxOut) :
      ScriptCacheRun condition (validateMempoolTransactionScripts cache tx previousOutputs).2

/-- The stream accepts its block only after every worker has run its check. -/
def NoneSkipped (s : Stream) : Prop := ∀ progress, s.result = .ok progress → s.pool.skipped = []

omit [Library] [ScriptEngine] in
theorem borrowPrevouts_false {ctx : BlockContext} (executes : ctx.rules.skipScriptChecks = false) :
    ctx.borrowPrevouts = false := by
  rw [BlockContext.borrowPrevouts, executes, Bool.false_and]

theorem ScriptCacheRun.sound (ran : ScriptCacheRun NoneSkipped cache) : cache.Sound := by
  induction ran with
  | empty => exact fun key member => absurd member (Finset.notMem_empty key)
  | streamed _ executes utxos cached transactions progress interrupted events joined fine ih =>
    intro key member
    have consistent := Stream.consistent_start transactions progress interrupted
    rcases published_inserts ((consistent _).run (borrowPrevouts_false executes) events) joined fine member with
      old | ⟨streamed, -, rfl, valid⟩
    · exact ih key old
    · exact ⟨streamed.job, rfl, valid⟩
  | collected _ workers flags observed jobs ih =>
    intro key member
    rcases validateScriptChecksCached_inserts member with old | ⟨indexed, -, rfl, -, valid⟩
    · exact ih key old
    · exact ⟨indexed.1, rfl, valid⟩
  | mempool _ tx previousOutputs ih =>
    intro key member
    rcases validateMempoolTransactionScripts_inserts member with old | ⟨rfl, valid⟩
    · exact ih key old
    · exact ⟨⟨tx, previousOutputs⟩, rfl, valid⟩

/-- Block validation publishes keys of verified transactions exactly when no worker has returned early; the collected jobs
and the mempool publish only such keys; so, as long as no worker has returned early, every hit is on a transaction that has
been verified under the same flags. -/
theorem scriptCache_verified :
    (∀ (ctx : BlockContext) (utxos : UtxoMap) (cached : Transaction → Bool) (transactions : List (Transaction × Txid))
      (progress : BlockProgress) (interrupted : Bool) (events : List StreamEvent) (s : Stream) (done : BlockProgress),
      ctx.rules.skipScriptChecks = false → (Stream.start transactions progress interrupted).run ctx utxos cached events = s →
      s.Joined → s.result = .ok done →
      ((∀ streamed ∈ s.streamed, s.Verified streamed) ↔ s.pool.skipped = []) ∧
      ∀ streamed ∈ s.streamed, s.Verified streamed → streamed.job.Valid ctx.sigopFlags) ∧
    (∀ workers flags observed cache jobs, ∀ key ∈ (validateScriptChecksCached workers flags observed cache jobs).2.entries,
      key ∈ cache.entries ∨ ∃ indexed ∈ jobs, key = indexed.1.key flags ∧ indexed.1.Valid flags) ∧
    (∀ cache tx previousOutputs, ∀ key ∈ (validateMempoolTransactionScripts cache tx previousOutputs).2.entries,
      key ∈ cache.entries ∨ key = scriptCacheKey mempoolScriptFlags tx ∧
        ScriptCheckJob.Valid ⟨tx, previousOutputs⟩ mempoolScriptFlags) ∧
    ∀ cache, ScriptCacheRun NoneSkipped cache → ∀ flags tx, scriptCacheKey flags tx ∈ cache.entries →
      ∃ job : ScriptCheckJob, Library.wtxid job.transaction = Library.wtxid tx ∧ job.Valid flags := by
  refine ⟨?_, ?_, fun cache tx previousOutputs key => validateMempoolTransactionScripts_inserts, ?_⟩
  · rintro ctx utxos cached transactions progress interrupted events s done executes rfl joined accepted
    have consistent : Stream.Consistent ctx.sigopFlags
        ((Stream.start transactions progress interrupted).run ctx utxos cached events) :=
      (Stream.consistent_start transactions progress interrupted _).run (borrowPrevouts_false executes) events
    exact ⟨consistent.verified_iff joined accepted, fun streamed member => consistent.valid member⟩
  · intro workers flags observed cache jobs key member
    rcases validateScriptChecksCached_inserts member with old | ⟨indexed, listed, same, -, valid⟩
    · exact .inl old
    · exact .inr ⟨indexed, listed, same, valid⟩
  · intro cache ran flags tx hit
    obtain ⟨job, same, valid⟩ := ran.sound _ hit
    exact ⟨job, congrArg ScriptCacheKey.wtxid same, valid⟩

omit [Library] [ScriptEngine]

@[reducible] def Library.rejecting : Library := { Library.sample with
  transactionScripts := fun tx _ _ => if tx.lockTime = 21 ∧ 0 < tx.input.length then .error (0, "script failed") else .ok () }

@[reducible] def ScriptEngine.rejecting : @ScriptEngine Library.rejecting :=
  letI := Library.rejecting
  { createContext := fun _ _ _ => true
    verifyInput := fun tx _ _ _ => tx.lockTime ≠ 21
    errorReason := fun _ _ _ => "script failed"
    transactionScripts_ok := by
      intro tx previousOutputs flags _
      show (if tx.lockTime = 21 ∧ 0 < tx.input.length then Except.error (0, "script failed") else .ok ()) = .ok () ↔ _
      split
      · rename_i refused
        simp only [reduceCtorEq, true_and, false_iff, not_forall]
        exact ⟨0, refused.2, by simp [refused.1]⟩
      · rename_i fine
        simp only [true_and, true_iff]
        intro input inside
        simp only [decide_eq_true_eq]
        intro rejected
        exact fine ⟨rejected, by omega⟩ }

def sampleContext : BlockContext :=
  letI := Library.rejecting
  blockContext sampleRules (sampleBlock 1 []) 1 0

def sampleStream (tx : Transaction) (events : List StreamEvent) : Stream :=
  letI := Library.rejecting
  letI := ScriptEngine.rejecting
  (Stream.start [(tx, tx.computeTxid)] ⟨[], ∅, ∅, ∅, 0, ⟨0, 0, 0, 0, 0, 0⟩, 0, []⟩ false).run sampleContext
    ((∅ : UtxoMap).insert ⟨7, 0⟩ ⟨⟨1000, [0x51]⟩, 0, 0, false⟩) (fun _ => false) events

theorem scriptCache_verified_sample : let _ := Library.rejecting
    let s := sampleStream (sampleSpend 20 [⟨7, 0⟩] [900]) [.main, .main, .work 0]
    s.Joined ∧ ∀ streamed ∈ s.streamed, s.Verified streamed := by
  intro _ s
  let _ := ScriptEngine.rejecting
  have joined : s.Joined := ⟨by decide +kernel, List.length_eq_zero_iff.mp (by decide +kernel)⟩
  have accepted : ∃ done, s.result = .ok done := exists_ok (by decide +kernel)
  obtain ⟨done, accepted⟩ := accepted
  have verified := (scriptCache_verified.1 _ _ _ _ _ _ _ s done (by decide) rfl joined accepted).1
  exact ⟨joined, verified.mpr (List.length_eq_zero_iff.mp (by decide +kernel))⟩

def sampleRejected : ScriptCheckJob := ⟨sampleSpend 21 [⟨7, 0⟩] [900], [⟨1000, [0x51]⟩]⟩

/-- The flag is raised after the main thread has queued the transaction and before a worker has taken it: the key is
published, and the mempool then accepts what it refuses with an empty cache. -/
theorem published_unverified : let _ := Library.rejecting
    let s := sampleStream sampleRejected.transaction [.main, .main, .raise, .work 0]
    let cache := s.published sampleContext.sigopFlags ⟨∅, [], 100⟩
    s.Joined ∧ (∃ done, s.result = .ok done) ∧ sampleContext.sigopFlags = mempoolScriptFlags ∧
      sampleRejected.key mempoolScriptFlags ∈ cache.entries ∧ ¬ sampleRejected.Valid mempoolScriptFlags ∧
      (validateMempoolTransactionScripts cache sampleRejected.transaction sampleRejected.previousOutputs).1 = .ok () ∧
      ∃ error, (validateMempoolTransactionScripts ⟨∅, [], 100⟩ sampleRejected.transaction
        sampleRejected.previousOutputs).1 = .error error := by
  intro _ s cache
  have hit : sampleRejected.key mempoolScriptFlags ∈ cache.entries := by decide +kernel
  refine ⟨⟨by decide +kernel, List.length_eq_zero_iff.mp (by decide +kernel)⟩, exists_ok (by decide +kernel),
    by decide +kernel, hit, ?_, ?_, ?_⟩
  · intro valid
    cases valid
  · exact congrArg Prod.fst (validateMempoolTransactionScripts_hit hit)
  · exact ⟨_, rfl⟩

end BitcoindRs
