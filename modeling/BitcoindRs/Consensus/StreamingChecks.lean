import BitcoindRs.Consensus.Streaming
import BitcoindRs.Consensus.Accepted

/-! What the workers have done when the pool has been joined, for every schedule and every moment of an interruption. -/

namespace BitcoindRs
open Result Checked TaskPool List StreamedJob
variable [Library] [ScriptEngine]
variable {ctx : BlockContext} {tx : Transaction} {input : TxIn} {st st' : InputProgress} {utxos : UtxoMap}
variable {streamed : StreamedJob}

omit [Library] [ScriptEngine] in
theorem processEntry_previousOutputs
    {entry : UtxoEntry} (kept : ctx.borrowPrevouts = false) (h : processEntry ctx tx input st entry = .ok st') :
    st'.previousOutputs.length = st.previousOutputs.length + 1 := by
  unfold processEntry at h
  obtain ⟨_, h⟩ := guard_ok h
  obtain ⟨_, _, h⟩ := bind_ok h
  obtain ⟨total, added, h⟩ := bind_ok h
  obtain ⟨_, h⟩ := guard_ok h
  cases h
  simp [kept]

omit [Library] [ScriptEngine] in
theorem processInput_previousOutputs {txid : Txid}
    (kept : ctx.borrowPrevouts = false) (h : processInput ctx utxos tx txid st input = .ok st') :
    st'.previousOutputs.length = st.previousOutputs.length + 1 := by
  unfold processInput at h
  obtain ⟨_, h⟩ := guard_ok h
  obtain ⟨_, h⟩ := guard_ok h
  dsimp only at h
  split at h
  · have count := processEntry_previousOutputs kept h
    exact count
  · obtain ⟨entry, -, h⟩ := bind_ok h
    have count := processEntry_previousOutputs kept h
    exact count

omit [ScriptEngine] in
theorem checkTransactionInputs_previousOutputs {st : BlockProgress}
    {identified : Transaction × Txid} {checked : InputProgress × ℕ} (kept : ctx.borrowPrevouts = false)
    (h : checkTransactionInputs ctx utxos st identified = .ok checked) :
    checked.1.previousOutputs.length = identified.1.input.length := by
  unfold checkTransactionInputs at h
  obtain ⟨_, -, h⟩ := bind_ok h
  obtain ⟨inputs, loop, h⟩ := bind_ok h
  obtain ⟨_, -, h⟩ := bind_ok h
  obtain ⟨_, h⟩ := guard_ok h
  cases h
  refine foldlM_invariant (fun passed (inputs : InputProgress) => inputs.previousOutputs.length = passed.length) ?_ loop rfl
  intro passed s input t count run
  rw [processInput_previousOutputs kept run, count, length_append]
  rfl

section
omit [Library] [ScriptEngine]

theorem StreamedJob.streamed_of_mem {task : ScriptTask} (member : task ∈ streamed.tasks) :
    task.streamed = streamed := by
  unfold tasks at member
  split at member
  · obtain ⟨input, -, rfl⟩ := mem_map.mp member
    rfl
  · rw [mem_singleton.mp member]

theorem StreamedJob.tasks_nodup (streamed : StreamedJob) : streamed.tasks.Nodup := by
  unfold tasks
  split
  · refine nodup_range.map fun a b same => ?_
    simpa using same
  · exact nodup_singleton _

theorem tasks_nodup {jobs : List StreamedJob} (ordered : (jobs.map (·.txIndex)).Pairwise (· < ·)) :
    (jobs.flatMap tasks).Nodup := by
  rw [nodup_flatMap]
  refine ⟨fun job _ => job.tasks_nodup, (pairwise_map.mp ordered).imp ?_⟩
  intro a b before task left right
  have same : a = b := (streamed_of_mem left).symm.trans (streamed_of_mem right)
  rw [same] at before
  exact Nat.lt_irrefl _ before

end

structure StreamedJob.Prepared (flags : ℕ) (streamed : StreamedJob) : Prop where
  outputs : streamed.job.previousOutputs.length = streamed.job.transaction.input.length
  context : streamed.parallel = true →
    ScriptEngine.createContext streamed.job.transaction streamed.job.previousOutputs flags = true

theorem StreamedJob.Prepared.valid_iff {flags : ℕ} (prepared : streamed.Prepared flags) :
    streamed.job.Valid flags ↔ ∀ task ∈ streamed.tasks, task.check flags = .ok () := by
  unfold tasks
  split
  · rename_i parallel
    rw [ScriptCheckJob.Valid, ScriptEngine.transactionScripts_ok _ _ _ prepared.outputs, forall_mem_map]
    simp only [prepared.context parallel, true_and, mem_range]
    refine forall₂_congr fun input _ => ?_
    unfold ScriptTask.check
    dsimp only
    split <;> simp_all
  · rw [forall_mem_singleton, ← ScriptCheckJob.verify_ok]
    rfl

namespace Stream
variable {ctx : BlockContext} {utxos : UtxoMap} {cached : Transaction → Bool} {s : Stream}
variable {flags : ℕ} {entry : (Transaction × Txid) × ℕ} {rest : List ((Transaction × Txid) × ℕ)}
variable {streamed : StreamedJob} {progress : BlockProgress}

/-- The pool accounts for the tasks of all batches that have been handed to it. -/
structure Consistent (flags : ℕ) (s : Stream) : Prop where
  tracks : ∃ sent, s.streamed = sent ++ s.batch ∧
    Tracks (ScriptTask.check flags) ScriptTask.index (sent.flatMap tasks) s.pool
  ordered : (s.streamed.map (·.txIndex) ++ s.rest.map (·.2)).Pairwise (· < ·)
  prepared : ∀ streamed ∈ s.streamed, streamed.Prepared flags
  finished : s.outcome = some (.ok ()) → s.batch = []

theorem consistent_start (transactions : List (Transaction × Txid)) (progress : BlockProgress) (interrupted : Bool) (flags : ℕ) :
    Consistent flags (start transactions progress interrupted) := by
  refine ⟨⟨[], rfl, .empty interrupted⟩, ?_, fun _ member => absurd member not_mem_nil, fun done => by cases done⟩
  show ([] ++ (transactions.zipIdx 1).map Prod.snd).Pairwise (· < ·)
  rw [nil_append, zipIdx_map_snd]
  exact pairwise_lt_range'

theorem Consistent.spawnBatch (consistent : Consistent flags s) (outcome : Option (Except Error Unit)) :
    Consistent flags { s.spawnBatch with outcome } := by
  obtain ⟨sent, all, tracks⟩ := consistent.tracks
  refine ⟨⟨sent ++ s.batch, ?_, ?_⟩, consistent.ordered, consistent.prepared, fun _ => rfl⟩
  · show s.streamed = sent ++ s.batch ++ []
    rw [append_nil, all]
  · rw [flatMap_append]
    exact tracks.spawn _

theorem Consistent.stop (consistent : Consistent flags s) (error : Error) :
    Consistent flags { s with outcome := some (.error error) } :=
  ⟨consistent.tracks, consistent.ordered, consistent.prepared, fun done => by cases done⟩

omit [Library] [ScriptEngine] in
theorem push_outcome (s : Stream) (streamed : StreamedJob) : (s.push streamed).outcome = s.outcome := by
  unfold Stream.push
  dsimp only
  split <;> rfl

theorem Consistent.push (consistent : Consistent flags s) (next : s.rest = entry :: rest)
    (index : streamed.txIndex = entry.2) (prepared : streamed.Prepared flags) (progress : BlockProgress)
    (outcome : Option (Except Error Unit)) (unfinished : outcome ≠ some (.ok ())) :
    Consistent flags { s.push streamed with progress, rest, outcome } := by
  obtain ⟨sent, all, tracks⟩ := consistent.tracks
  have appended : Consistent flags { s with
      batch := s.batch ++ [streamed], streamed := s.streamed ++ [streamed], progress, rest, outcome } := by
    refine ⟨⟨sent, by rw [← append_assoc, ← all], tracks⟩, ?_, ?_, fun done => absurd done unfinished⟩
    · have ordered := consistent.ordered
      rw [next] at ordered
      show ((s.streamed ++ [streamed]).map (·.txIndex) ++ rest.map (·.2)).Pairwise (· < ·)
      rw [map_append, append_assoc, map_singleton, index]
      exact ordered
    · intro other member
      rcases mem_append.mp member with old | new
      · exact consistent.prepared other old
      · rw [mem_singleton.mp new]
        exact prepared
  unfold Stream.push
  dsimp only
  split
  · exact appended.spawnBatch outcome
  · exact appended

theorem Consistent.pass (consistent : Consistent flags s) (next : s.rest = entry :: rest) (progress : BlockProgress)
    (outcome : Option (Except Error Unit)) (unfinished : outcome ≠ some (.ok ())) :
    Consistent flags { s with progress, rest, outcome } := by
  refine ⟨consistent.tracks, ?_, consistent.prepared, fun done => absurd done unfinished⟩
  have ordered := consistent.ordered
  rw [next] at ordered
  exact ordered.sublist ((sublist_cons_self _ _).append_left _)

theorem enqueue_ok {txIndex : ℕ} {job : ScriptCheckJob} {queued : Stream}
    (h : s.enqueue flags cached txIndex job = .ok queued) :
    (cached job.transaction = true ∧ queued = s) ∨ (cached job.transaction = false ∧ ∃ streamed : StreamedJob,
      queued = s.push streamed ∧ streamed.txIndex = txIndex ∧ streamed.job = job ∧
      (streamed.parallel = true → ScriptEngine.createContext job.transaction job.previousOutputs flags = true)) := by
  unfold enqueue at h
  split at h
  · rename_i hit
    cases h
    exact .inl ⟨hit, rfl⟩
  · rename_i miss
    obtain ⟨context, h⟩ := guard_ok h
    cases h
    refine .inr ⟨by simpa using miss, _, rfl, rfl, rfl, fun parallel => ?_⟩
    by_contra refused
    exact context ⟨parallel, by simpa using refused⟩

theorem Consistent.transaction (consistent : Consistent ctx.sigopFlags s) (kept : ctx.borrowPrevouts = false)
    (running : s.outcome = none)
    (next : s.rest = entry :: rest) : Consistent ctx.sigopFlags (s.transaction ctx utxos cached entry rest) := by
  unfold Stream.transaction
  split
  · exact consistent.stop _
  split
  · exact consistent.stop _
  rename_i checked inputs
  split
  · exact consistent.stop _
  rename_i queued enqueued
  have outputs := checkTransactionInputs_previousOutputs kept inputs
  rcases enqueue_ok enqueued with ⟨-, rfl⟩ | ⟨-, streamed, rfl, index, job, context⟩
  · split
    · exact consistent.pass next _ _ (by simp)
    · exact consistent.pass next _ _ (by rw [running]; simp)
  · have prepared : streamed.Prepared ctx.sigopFlags := by
      constructor <;> rw [job]
      · exact outputs
      · exact context
    split
    · exact consistent.push next index prepared _ _ (by simp)
    · exact consistent.push next index prepared _ (s.push streamed).outcome (by rw [push_outcome, running]; simp)

theorem Consistent.step (consistent : Consistent ctx.sigopFlags s) (kept : ctx.borrowPrevouts = false) (event : StreamEvent) :
    Consistent ctx.sigopFlags (s.step ctx utxos cached event) := by
  obtain ⟨sent, all, tracks⟩ := consistent.tracks
  cases event with
  | raise => exact ⟨⟨sent, all, tracks.raise⟩, consistent.ordered, consistent.prepared, consistent.finished⟩
  | work position => exact ⟨⟨sent, all, tracks.work position⟩, consistent.ordered, consistent.prepared, consistent.finished⟩
  | main =>
    show Consistent ctx.sigopFlags (s.main ctx utxos cached)
    unfold Stream.main
    split
    · exact consistent
    · rename_i running
      split
      · exact consistent.spawnBatch _
      · rename_i entry rest next
        exact consistent.transaction kept running next

theorem Consistent.run (consistent : Consistent ctx.sigopFlags s) (kept : ctx.borrowPrevouts = false)
    (events : List StreamEvent) : Consistent ctx.sigopFlags (s.run ctx utxos cached events) :=
  List.foldlRecOn events _ consistent fun _ holds event _ => holds.step kept event

theorem Consistent.tracked (consistent : Consistent flags s) (ended : s.outcome = some (.ok ())) :
    Tracks (ScriptTask.check flags) ScriptTask.index (s.streamed.flatMap tasks) s.pool := by
  obtain ⟨sent, all, tracks⟩ := consistent.tracks
  rw [consistent.finished ended, append_nil] at all
  rw [all]
  exact tracks

omit [Library] [ScriptEngine] in
theorem result_ok (joined : s.Joined) :
    s.result = .ok progress ↔ s.outcome = some (.ok ()) ∧ s.pool.failure = none ∧ s.progress = progress := by
  unfold Stream.result
  obtain ⟨outcome, ended⟩ := Option.isSome_iff_exists.mp joined.1
  rw [ended]
  rcases outcome with error | ⟨⟩
  · simp
  · rcases s.pool.failure with _ | ⟨index, error⟩ <;> simp

def Verified (s : Stream) (streamed : StreamedJob) : Prop := ∀ task ∈ streamed.tasks, task ∈ s.pool.passed

theorem Consistent.verified_iff (consistent : Consistent flags s) (joined : s.Joined)
    (accepted : s.result = .ok progress) : (∀ streamed ∈ s.streamed, s.Verified streamed) ↔ s.pool.skipped = [] := by
  obtain ⟨ended, fine, -⟩ := (result_ok joined).mp accepted
  have accounted := (consistent.tracked ended).joined joined.2 fine
  have ordered : (s.streamed.map (·.txIndex)).Pairwise (· < ·) := (pairwise_append.mp consistent.ordered).1
  have distinct := accounted.nodup_iff.mpr (tasks_nodup ordered)
  constructor
  · intro verified
    rcases skips : s.pool.skipped with _ | ⟨task, rest⟩
    · rfl
    have skipped : task ∈ s.pool.skipped := by
      rw [skips]
      exact mem_cons_self
    obtain ⟨streamed, member, inside⟩ := mem_flatMap.mp (accounted.mem_iff.mp (mem_append_right _ skipped))
    have passed := verified streamed member task inside
    exact absurd rfl ((nodup_append.mp distinct).2.2 task passed task skipped)
  · intro none_ streamed member task inside
    have listed := accounted.mem_iff.mpr (mem_flatMap.mpr ⟨streamed, member, inside⟩)
    rw [none_, append_nil] at listed
    exact listed

theorem Consistent.valid (consistent : Consistent flags s) (member : streamed ∈ s.streamed)
    (verified : s.Verified streamed) : streamed.job.Valid flags := by
  obtain ⟨sent, -, tracks⟩ := consistent.tracks
  rw [(consistent.prepared streamed member).valid_iff]
  exact fun task inside => tracks.passes task (verified task inside)

end Stream

end BitcoindRs
