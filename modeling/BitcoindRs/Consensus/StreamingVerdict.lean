import BitcoindRs.Consensus.StreamingChecks
import BitcoindRs.Consensus.ValidationPaths

/-!
The verdict of the streaming path when nobody raises the shutdown flag: whatever the schedule, it is that of the
transaction loop followed by the scripts of the transactions that are not cached.
-/

namespace BitcoindRs
open Result Checked TaskPool List
variable [Library] {ctx : BlockContext} {utxos : UtxoMap}
variable {st next : BlockProgress} {identified : Transaction × Txid} {tx : Transaction} {input : TxIn}
variable {st' : InputProgress} {checked : InputProgress × ℕ}

omit [Library] in
theorem processEntry_scriptJobs {st : InputProgress} {entry : UtxoEntry}
    (h : processEntry ctx tx input st entry = .ok st') : st'.block.scriptJobs = st.block.scriptJobs := by
  unfold processEntry at h
  obtain ⟨_, h⟩ := guard_ok h
  obtain ⟨_, _, h⟩ := bind_ok h
  obtain ⟨total, added, h⟩ := bind_ok h
  obtain ⟨_, h⟩ := guard_ok h
  cases h
  rfl

omit [Library] in
theorem processInput_scriptJobs {txid : Txid} {st : InputProgress}
    (h : processInput ctx utxos tx txid st input = .ok st') : st'.block.scriptJobs = st.block.scriptJobs := by
  unfold processInput at h
  obtain ⟨_, h⟩ := guard_ok h
  obtain ⟨_, h⟩ := guard_ok h
  dsimp only at h
  split at h
  · have kept := processEntry_scriptJobs h
    exact kept
  · obtain ⟨entry, -, h⟩ := bind_ok h
    have kept := processEntry_scriptJobs h
    exact kept

theorem checkTransactionInputs_scriptJobs
    (h : checkTransactionInputs ctx utxos st identified = .ok checked) : checked.1.block.scriptJobs = st.scriptJobs := by
  unfold checkTransactionInputs at h
  obtain ⟨_, -, h⟩ := bind_ok h
  obtain ⟨inputs, loop, h⟩ := bind_ok h
  obtain ⟨_, -, h⟩ := bind_ok h
  obtain ⟨_, h⟩ := guard_ok h
  cases h
  refine foldlM_invariant (fun _ (inputs : InputProgress) => inputs.block.scriptJobs = st.scriptJobs) ?_ loop rfl
  intro _ s input t kept run
  rw [processInput_scriptJobs run, kept]

omit [Library] in
theorem settleTransaction_scriptJobs
    (executes : ctx.rules.skipScriptChecks = false) (h : settleTransaction ctx identified checked = .ok next) :
    next.scriptJobs = checked.1.block.scriptJobs ++ [⟨identified.1, checked.1.previousOutputs⟩] := by
  unfold settleTransaction at h
  obtain ⟨_, -, h⟩ := bind_ok h
  obtain ⟨_, h⟩ := guard_ok h
  obtain ⟨_, -, h⟩ := bind_ok h
  obtain ⟨_, h⟩ := guard_ok h
  cases h
  have outputs : ∀ (st : BlockProgress) (output : TxOut × ℕ),
      (addOutput ctx identified.2 st output).scriptJobs = st.scriptJobs := by
    intro st output
    unfold addOutput
    dsimp only
    split <;> rfl
  rw [foldl_frame outputs]
  simp [executes]

theorem processTransaction_parts (quiet : ctx.rules.shutdownInterrupt = false)
    : processTransaction ctx utxos st identified = .ok next ↔
      ∃ checked, checkTransactionInputs ctx utxos st identified = .ok checked ∧
        settleTransaction ctx identified checked = .ok next := by
  rw [processTransaction_eq, checkShutdownInterrupt, bailIf_neg (by simp [quiet]), ok_bind]
  exact bind_ok_iff

/-- The loop accepts the transactions, and the scripts of those that are not cached are valid. -/
def AcceptsScripts (ctx : BlockContext) (utxos : UtxoMap) (cached : Transaction → Bool) (transactions : List (Transaction × Txid))
    (initial done : BlockProgress) : Prop :=
  transactions.foldlM (processTransaction ctx utxos) initial = .ok done ∧
    ∀ job ∈ done.scriptJobs, cached job.transaction = false → job.Valid ctx.sigopFlags

theorem mem_scriptJobs_foldlM (quiet : ctx.rules.shutdownInterrupt = false) (executes : ctx.rules.skipScriptChecks = false)
    {rest : List (Transaction × Txid)} {done : BlockProgress}
    (h : rest.foldlM (processTransaction ctx utxos) st = .ok done) : st.scriptJobs ⊆ done.scriptJobs := by
  refine foldlM_invariant (fun _ (t : BlockProgress) => st.scriptJobs ⊆ t.scriptJobs) ?_ h (List.Subset.refl _)
  intro _ s identified t kept run
  obtain ⟨checked, inputs, settled⟩ := (processTransaction_parts quiet).mp run
  rw [settleTransaction_scriptJobs executes settled, checkTransactionInputs_scriptJobs inputs]
  exact List.Subset.trans kept (subset_append_left _ _)

namespace Stream
variable [ScriptEngine] {cached : Transaction → Bool} {transactions : List (Transaction × Txid)} {initial : BlockProgress}
  {s : Stream}
variable {st : BlockProgress} {passed rest : List (Transaction × Txid)} {identified : Transaction × Txid}

/-- The main thread has run the loop on the transactions it has taken; once it has failed, the block is not acceptable. -/
structure Follows (ctx : BlockContext) (utxos : UtxoMap) (cached : Transaction → Bool) (transactions : List (Transaction × Txid))
    (initial : BlockProgress) (s : Stream) : Prop where
  quiet : s.pool.interrupted = false
  passed : (∀ error, s.outcome ≠ some (.error error)) → ∃ passed, transactions = passed ++ s.rest.map Prod.fst ∧
    passed.foldlM (processTransaction ctx utxos) initial = .ok s.progress ∧
    s.streamed.map (·.job) = s.progress.scriptJobs.filter fun job => !cached job.transaction
  finished : s.outcome = some (.ok ()) → s.rest = []
  refused : ∀ error, s.outcome = some (.error error) → ∀ done, ¬ AcceptsScripts ctx utxos cached transactions initial done

omit [ScriptEngine] in
theorem follows_start (empty : initial.scriptJobs = []) :
    Follows ctx utxos cached transactions initial (start transactions initial false) := by
  refine ⟨rfl, fun _ => ⟨[], ?_, rfl, ?_⟩, fun done => (by cases done), fun _ failed => (by cases failed)⟩
  · show transactions = [] ++ (transactions.zipIdx 1).map Prod.fst
    rw [zipIdx_map_fst, nil_append]
  · show [] = initial.scriptJobs.filter _
    rw [empty]
    rfl

omit [Library] [ScriptEngine] in
theorem push_streamed (s : Stream) (streamed : StreamedJob) : (s.push streamed).streamed = s.streamed ++ [streamed] := by
  unfold Stream.push
  dsimp only
  split <;> rfl

omit [Library] [ScriptEngine] in
theorem push_interrupted (s : Stream) (streamed : StreamedJob) : (s.push streamed).pool.interrupted = s.pool.interrupted := by
  unfold Stream.push
  dsimp only
  split <;> rfl

omit [ScriptEngine] in
theorem refused_of_processTransaction (split : transactions = passed ++ identified :: rest)
    (loop : passed.foldlM (processTransaction ctx utxos) initial = .ok st)
    (fails : ∀ next, processTransaction ctx utxos st identified ≠ .ok next) (done : BlockProgress) :
    ¬ AcceptsScripts ctx utxos cached transactions initial done := by
  rintro ⟨accepted, -⟩
  rw [split, foldlM_append, loop] at accepted
  obtain ⟨next, first, -⟩ := foldlM_cons_ok accepted
  exact fails next first

theorem refused_of_enqueue (quiet : ctx.rules.shutdownInterrupt = false) (executes : ctx.rules.skipScriptChecks = false)
       {txIndex : ℕ} {error : Error}
     (split : transactions = passed ++ identified :: rest)
    (loop : passed.foldlM (processTransaction ctx utxos) initial = .ok st)
    (inputs : checkTransactionInputs ctx utxos st identified = .ok checked)
    (fails : s.enqueue ctx.sigopFlags cached txIndex ⟨identified.1, checked.1.previousOutputs⟩ = .error error)
    (done : BlockProgress) : ¬ AcceptsScripts ctx utxos cached transactions initial done := by
  rintro ⟨accepted, valid⟩
  rw [split, foldlM_append, loop] at accepted
  obtain ⟨next, first, later⟩ := foldlM_cons_ok accepted
  obtain ⟨again, sameInputs, settled⟩ := (processTransaction_parts quiet).mp first
  rw [inputs] at sameInputs
  cases sameInputs
  have member : ⟨identified.1, checked.1.previousOutputs⟩ ∈ done.scriptJobs := by
    refine mem_scriptJobs_foldlM quiet executes later ?_
    rw [settleTransaction_scriptJobs executes settled]
    exact mem_append_right _ mem_cons_self
  have borrows : ctx.borrowPrevouts = false := by rw [BlockContext.borrowPrevouts, executes, Bool.false_and]
  unfold enqueue at fails
  split at fails
  · cases fails
  rename_i miss
  have ok := valid _ member (by simpa using miss)
  rw [ScriptCheckJob.Valid, ScriptEngine.transactionScripts_ok _ _ _ (checkTransactionInputs_previousOutputs borrows inputs)]
    at ok
  rcases bind_error fails with refused | ⟨_, _, none_⟩
  · obtain ⟨⟨-, context⟩, -⟩ := bailIf_error.mp refused
    rw [ok.1] at context
    cases context
  · cases none_

section
variable (follows : Follows ctx utxos cached transactions initial s)
include follows

theorem Follows.transaction
    (quiet : ctx.rules.shutdownInterrupt = false) (executes : ctx.rules.skipScriptChecks = false) (running : s.outcome = none)
    {entry : (Transaction × Txid) × ℕ} {rest : List ((Transaction × Txid) × ℕ)} (next : s.rest = entry :: rest) :
    Follows ctx utxos cached transactions initial (s.transaction ctx utxos cached entry rest) := by
  obtain ⟨passed, split, loop, jobs⟩ := follows.passed (by rw [running]; exact fun _ h => by cases h)
  rw [next, map_cons] at split
  have stopped : ∀ (t : Stream) (error : Error), t.pool.interrupted = false → t.outcome = some (.error error) →
      (∀ done, ¬ AcceptsScripts ctx utxos cached transactions initial done) →
      Follows ctx utxos cached transactions initial t := by
    intro t error calm failed refused
    refine ⟨calm, fun none_ => absurd failed (none_ error), fun done => ?_, fun _ _ => refused⟩
    rw [failed] at done
    cases done
  unfold Stream.transaction
  rw [if_neg (by rw [follows.quiet]; simp)]
  split
  · rename_i error inputs
    refine stopped _ error follows.quiet rfl (refused_of_processTransaction split loop ?_)
    intro progress processed
    obtain ⟨checked, accepted, -⟩ := (processTransaction_parts quiet).mp processed
    rw [inputs] at accepted
    cases accepted
  rename_i checked inputs
  split
  · rename_i error refused
    exact stopped _ error follows.quiet rfl (refused_of_enqueue quiet executes split loop inputs refused)
  rename_i queued enqueued
  have calm : queued.pool.interrupted = false := by
    rcases enqueue_ok enqueued with ⟨-, rfl⟩ | ⟨-, streamed, rfl, -⟩
    · exact follows.quiet
    · rw [push_interrupted]
      exact follows.quiet
  split
  · rename_i error unsettled
    refine stopped _ error calm rfl (refused_of_processTransaction split loop ?_)
    intro progress processed
    obtain ⟨again, sameInputs, settled⟩ := (processTransaction_parts quiet).mp processed
    rw [inputs] at sameInputs
    cases sameInputs
    rw [unsettled] at settled
    cases settled
  rename_i progress settled
  have still : queued.outcome = none := by
    rcases enqueue_ok enqueued with ⟨-, rfl⟩ | ⟨-, streamed, rfl, -⟩
    · exact running
    · rw [push_outcome, running]
  refine ⟨calm, fun _ => ⟨passed ++ [entry.1], ?_, ?_, ?_⟩, fun done => ?_, fun error failed => ?_⟩
  · rw [split, append_assoc, singleton_append]
  · rw [foldlM_append, loop]
    show ([entry.1].foldlM (processTransaction ctx utxos) s.progress) = .ok progress
    rw [foldlM_cons, (processTransaction_parts quiet).mpr ⟨checked, inputs, settled⟩]
    rfl
  · show queued.streamed.map (·.job) = progress.scriptJobs.filter fun job => !cached job.transaction
    rw [settleTransaction_scriptJobs executes settled, checkTransactionInputs_scriptJobs inputs, filter_append, ← jobs]
    rcases enqueue_ok enqueued with ⟨hit, rfl⟩ | ⟨miss, streamed, rfl, -, job, -⟩
    · simp only at hit
      simp [hit]
    · simp only at miss
      rw [push_streamed, map_append, map_singleton, job]
      simp [miss]
  · have ended : queued.outcome = some (.ok ()) := done
    rw [still] at ended
    cases ended
  · have ended : queued.outcome = some (.error error) := failed
    rw [still] at ended
    cases ended

theorem Follows.step
    (quiet : ctx.rules.shutdownInterrupt = false) (executes : ctx.rules.skipScriptChecks = false) {event : StreamEvent}
    (calm : event ≠ .raise) : Follows ctx utxos cached transactions initial (s.step ctx utxos cached event) := by
  cases event with
  | raise => exact absurd rfl calm
  | work position =>
    refine ⟨?_, follows.passed, follows.finished, follows.refused⟩
    exact (work_interrupted _ _ _ _).trans follows.quiet
  | main =>
    show Follows ctx utxos cached transactions initial (s.main ctx utxos cached)
    unfold Stream.main
    split
    · exact follows
    rename_i running
    split
    · rename_i none_left
      refine ⟨follows.quiet, fun _ => ?_, fun _ => none_left, fun _ failed => (by cases failed)⟩
      exact follows.passed (by rw [running]; exact fun _ h => by cases h)
    · rename_i entry rest next
      exact follows.transaction quiet executes running next

theorem Follows.run
    (quiet : ctx.rules.shutdownInterrupt = false) (executes : ctx.rules.skipScriptChecks = false) {events : List StreamEvent}
    (calm : ∀ event ∈ events, event ≠ .raise) :
    Follows ctx utxos cached transactions initial (s.run ctx utxos cached events) :=
  List.foldlRecOn events _ follows fun _ holds event member => holds.step quiet executes (calm event member)

theorem Follows.result_iff (consistent : Consistent ctx.sigopFlags s) (joined : s.Joined) (done : BlockProgress) :
    s.result = .ok done ↔ AcceptsScripts ctx utxos cached transactions initial done := by
  rw [result_ok joined]
  obtain ⟨outcome, ended⟩ := Option.isSome_iff_exists.mp joined.1
  rcases outcome with error | ⟨⟩
  · simp only [ended, Option.some.injEq, reduceCtorEq, false_and, false_iff]
    exact follows.refused error ended done
  obtain ⟨passed, split, loop, jobs⟩ := follows.passed (by rw [ended]; exact fun _ h => by cases h)
  rw [follows.finished ended, map_nil, append_nil] at split
  subst split
  have tracks := consistent.tracked ended
  have checks : s.pool.failure = none ↔
      ∀ job ∈ s.progress.scriptJobs, cached job.transaction = false → job.Valid ctx.sigopFlags := by
    rw [tracks.joined_iff joined.2 (tracks.quiet follows.quiet)]
    have valid : ∀ streamed ∈ s.streamed, (streamed.job.Valid ctx.sigopFlags ↔
        ∀ task ∈ streamed.tasks, task.check ctx.sigopFlags = .ok ()) :=
      fun streamed member => (consistent.prepared streamed member).valid_iff
    have listed : ∀ job, job ∈ s.streamed.map (·.job) ↔ job ∈ s.progress.scriptJobs ∧ cached job.transaction = false := by
      intro job
      rw [jobs, mem_filter]
      simp
    constructor
    · intro pass job member miss
      obtain ⟨streamed, inside, rfl⟩ := mem_map.mp ((listed job).mpr ⟨member, miss⟩)
      exact (valid streamed inside).mpr fun task here => pass task (mem_flatMap.mpr ⟨streamed, inside, here⟩)
    · intro all task member
      obtain ⟨streamed, inside, here⟩ := mem_flatMap.mp member
      obtain ⟨job, miss⟩ := (listed streamed.job).mp (mem_map_of_mem inside)
      exact (valid streamed inside).mp (all streamed.job job miss) task here
  constructor
  · rintro ⟨-, fine, rfl⟩
    exact ⟨loop, checks.mp fine⟩
  · rintro ⟨accepted, valid⟩
    obtain rfl : s.progress = done := by
      rw [loop] at accepted
      exact Except.ok.inj accepted
    exact ⟨ended, checks.mpr valid, rfl⟩

end

theorem main_advances (s : Stream) : (s.main ctx utxos cached).outcome.isSome ∨
    (s.main ctx utxos cached).rest.length < s.rest.length := by
  unfold Stream.main
  split
  · rename_i ended
    exact .inl (by rw [ended]; rfl)
  split
  · exact .inl rfl
  rename_i entry rest next
  unfold Stream.transaction
  split
  · exact .inl rfl
  split
  · exact .inl rfl
  split
  · exact .inl rfl
  split
  · exact .inl rfl
  · right
    rw [next]
    exact Nat.lt_succ_self _

theorem exists_ended (s : Stream) : ∃ n, (s.run ctx utxos cached (List.replicate n .main)).outcome.isSome := by
  have general : ∀ (count : ℕ) (s : Stream), s.rest.length < count →
      ∃ n, (s.run ctx utxos cached (List.replicate n .main)).outcome.isSome := by
    intro count
    induction count with
    | zero => exact fun s short => absurd short (Nat.not_lt_zero _)
    | succ count ih =>
      intro s short
      rcases main_advances s with ended | shorter
      · exact ⟨1, ended⟩
      · obtain ⟨n, ended⟩ := ih (s.main ctx utxos cached) (by omega)
        exact ⟨n + 1, by rw [replicate_succ]; exact ended⟩
  exact general (s.rest.length + 1) s (Nat.lt_succ_self _)

theorem exists_drained (ended : s.outcome.isSome) :
    ∃ n, (s.run ctx utxos cached (List.replicate n (.work 0))).Joined := by
  have general : ∀ (count : ℕ) (s : Stream), s.pool.queue.length = count → s.outcome.isSome →
      (s.run ctx utxos cached (List.replicate count (.work 0))).Joined := by
    intro count
    induction count with
    | zero => exact fun s empty ended => ⟨ended, length_eq_zero_iff.mp empty⟩
    | succ count ih =>
      intro s length ended
      rw [replicate_succ]
      refine ih (s.step ctx utxos cached (.work 0)) ?_ ended
      show (s.pool.work (ScriptTask.check ctx.sigopFlags) ScriptTask.index 0).queue.length = count
      rw [work_queue, length_eraseIdx, if_pos (by omega), length, Nat.add_sub_cancel]
  exact ⟨s.pool.queue.length, general _ s rfl ended⟩

theorem exists_completion (s : Stream) (events : List StreamEvent) : ∃ more, (∀ event ∈ more, event ≠ .raise) ∧
    (s.run ctx utxos cached (events ++ more)).Joined := by
  obtain ⟨turns, ended⟩ := exists_ended (s.run ctx utxos cached events)
  obtain ⟨tasks, joined⟩ := exists_drained ended
  refine ⟨List.replicate turns .main ++ List.replicate tasks (.work 0), fun event member => ?_, ?_⟩
  · rcases mem_append.mp member with turn | task
    · rw [eq_of_mem_replicate turn]
      exact fun h => by cases h
    · rw [eq_of_mem_replicate task]
      exact fun h => by cases h
  · unfold Stream.run at joined ⊢
    rw [List.foldl_append, List.foldl_append]
    exact joined

end Stream

end BitcoindRs
