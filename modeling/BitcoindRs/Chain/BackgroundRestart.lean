import BitcoindRs.Chain.Background

/-! Cancelled and restarted background validation has the outcome of one uninterrupted run. -/

namespace BitcoindRs
open Result FMap ChainState Resume List BackgroundValidationJob
variable [Library]

namespace BackgroundValidationJob
variable {job earlier : BackgroundValidationJob} {st : ChainState} {expected : UtxoMap}
variable {replay : Replay} {file : Option AssumeUtxoCheckpoint} {height : ℕ}

def initial (job : BackgroundValidationJob) (expected : UtxoMap) : Replay :=
  ⟨∅, if job.baseHeight = 0 then some (decide ((∅ : UtxoMap) = expected)) else none⟩

def replayTo (job : BackgroundValidationJob) (st : ChainState) (expected : UtxoMap) (height : ℕ) : Except Error Replay :=
  steps (job.replayStep st expected) 1 height (job.initial expected)

theorem replayStep_utxos (height : ℕ) (replay : Replay) :
    (job.replayStep st expected height replay).map Replay.utxos = job.validateBlock st height replay.utxos := by
  unfold replayStep
  rcases job.validateBlock st height replay.utxos with error | utxos <;> rfl

variable (h : job.replayTo st expected height = .ok replay)

include h in
theorem replayTo_utxos : steps (job.validateBlock st) 1 height ∅ = .ok replay.utxos := by
  have mapped : (job.replayTo st expected height).map Replay.utxos = steps (job.validateBlock st) 1 height ∅ :=
    steps_map (fun i s _ _ => replayStep_utxos i s) (job.initial expected)
  rw [h] at mapped
  exact mapped.symm

theorem replayTo_base (h : job.replayTo st expected job.baseHeight = .ok replay) :
    replay.baseMatches = some (decide (replay.utxos = expected)) := by
  rcases base : job.baseHeight with _ | below
  · rw [replayTo, base] at h
    cases h
    rw [initial, base]
    rfl
  · rw [replayTo, base, steps_add] at h
    obtain ⟨before, -, last⟩ := bind_ok h
    rw [steps_succ] at last
    obtain ⟨next, stepped, done⟩ := bind_ok last
    cases done
    unfold replayStep at stepped
    obtain ⟨utxos, -, stepped⟩ := bind_ok stepped
    cases stepped
    dsimp only
    rw [if_pos (by omega)]

include h

theorem replayTo_uncompared (short : height < job.baseHeight) : replay.baseMatches = none := by
  refine steps_keeps (P := fun replay => replay.baseMatches = none) ?_ h ?_
  · intro i s t above below stepped uncompared
    unfold replayStep at stepped
    obtain ⟨utxos, -, stepped⟩ := bind_ok stepped
    cases stepped
    dsimp only
    rw [if_neg (by omega)]
    exact uncompared
  · rw [initial, if_neg (by omega)]

theorem replayTo_compared (reached : job.baseHeight ≤ height) :
    ∃ utxos, steps (job.validateBlock st) 1 job.baseHeight ∅ = .ok utxos ∧ replay.baseMatches = some (decide (utxos = expected)) := by
  obtain ⟨rest, rfl⟩ := Nat.exists_eq_add_of_le reached
  rw [replayTo, steps_add] at h
  obtain ⟨atBase, first, second⟩ := bind_ok h
  refine ⟨atBase.utxos, replayTo_utxos first, ?_⟩
  refine steps_keeps (P := fun replay => replay.baseMatches = some (decide (atBase.utxos = expected))) ?_ second
    (replayTo_base first)
  intro i s t above below stepped compared
  unfold replayStep at stepped
  obtain ⟨utxos, -, stepped⟩ := bind_ok stepped
  cases stepped
  dsimp only
  rw [if_neg (by omega)]
  exact compared

theorem replayTo_listed (positive : 1 ≤ height) : ∃ hash, job.activeChain[height]? = some hash := by
  obtain ⟨below, rfl⟩ := Nat.exists_eq_add_of_le' positive
  rw [replayTo, steps_add] at h
  obtain ⟨before, -, last⟩ := bind_ok h
  rw [steps_succ] at last
  obtain ⟨next, stepped, -⟩ := bind_ok last
  unfold replayStep at stepped
  obtain ⟨utxos, validated, -⟩ := bind_ok stepped
  unfold validateBlock at validated
  obtain ⟨hash, listed, -⟩ := bind_ok validated
  rw [Nat.add_comm 1 below] at listed
  exact ⟨hash, okOr_ok.mp listed⟩

omit h

/-- A checkpoint that a run of the job would use holds the uninterrupted replay at its height. -/
structure Sound (job : BackgroundValidationJob) (checkpoint : AssumeUtxoCheckpoint) : Prop where
  positive : 1 ≤ checkpoint.height
  compared : job.baseHeight < checkpoint.height → checkpoint.baseMatches ≠ none
  replayed : ∀ st expected, job.openBackgroundReplayState = .ok st → job.loadAssumeutxoExpectedSnapshot = .ok expected →
    job.replayTo st expected checkpoint.height = .ok ⟨checkpoint.utxos, checkpoint.baseMatches⟩

def SoundFile (job : BackgroundValidationJob) (file : Option AssumeUtxoCheckpoint) : Prop :=
  ∀ checkpoint, loadAssumeutxoCheckpoint file job.baseHash job.activeChain = some checkpoint → Sound job checkpoint

theorem soundFile_none (job : BackgroundValidationJob) : SoundFile job none := fun _ loaded => by cases loaded

omit [Library] in
theorem startFrom_genesis (opened : job.openBackgroundReplayState = .ok st) (targetHeight : ℕ) :
    job.startFrom expected targetHeight (0, ⟨∅, none⟩) = .ok ⟨st, expected, targetHeight, 0, job.initial expected⟩ := by
  refine guard_pass (fun crossed => Nat.not_lt_zero _ crossed.1) (bind_pass opened ?_)
  unfold compareAtGenesis initial
  by_cases base : job.baseHeight = 0 <;> simp [base]

theorem SoundFile.startFrom (sound : SoundFile job file)
    (loaded : job.loadAssumeutxoExpectedSnapshot = .ok expected) (opened : job.openBackgroundReplayState = .ok st)
    (targetHeight : ℕ) :
    ∃ startHeight replay, startHeight ≤ targetHeight ∧ job.replayTo st expected startHeight = .ok replay ∧
      job.startFrom expected targetHeight (job.resumeAt file targetHeight) =
        .ok ⟨st, expected, targetHeight, startHeight, replay⟩ := by
  have fromGenesis := @startFrom_genesis _ _ expected opened targetHeight
  unfold resumeAt
  split
  · exact ⟨0, _, Nat.zero_le _, rfl, fromGenesis⟩
  · rename_i checkpoint found
    split
    · exact ⟨0, _, Nat.zero_le _, rfl, fromGenesis⟩
    · have good := sound checkpoint found
      have later : ¬(job.baseHeight = 0 ∧ checkpoint.height = 0) := by
        have := good.positive
        omega
      refine ⟨checkpoint.height, ⟨checkpoint.utxos, checkpoint.baseMatches⟩, by omega, good.replayed st expected opened loaded, ?_⟩
      refine guard_pass (fun crossed => good.compared crossed.1 crossed.2) (bind_pass opened ?_)
      unfold compareAtGenesis
      rw [if_neg later]

theorem SoundFile.startFrom_error (sound : SoundFile job file) {error : Error}
    (opened : job.openBackgroundReplayState = .error error) (targetHeight : ℕ) :
    job.startFrom expected targetHeight (job.resumeAt file targetHeight) = .error error := by
  have uncrossed : ¬(job.baseHeight < (job.resumeAt file targetHeight).1 ∧
      (job.resumeAt file targetHeight).2.baseMatches = none) := by
    unfold resumeAt
    split
    · exact fun crossed => Nat.not_lt_zero _ crossed.1
    · rename_i checkpoint found
      split
      · exact fun crossed => Nat.not_lt_zero _ crossed.1
      · exact fun crossed => (sound checkpoint found).compared crossed.1 crossed.2
  unfold BackgroundValidationJob.startFrom
  rw [bailIf_neg uncrossed, ok_bind, opened]
  rfl

theorem SoundFile.start (sound : SoundFile job file) :
    (∃ error, job.start file = .error error ∧ job.start none = .error error) ∨
    ∃ st expected targetHeight startHeight replay, job.openBackgroundReplayState = .ok st ∧
      job.loadAssumeutxoExpectedSnapshot = .ok expected ∧ startHeight ≤ targetHeight ∧
      job.replayTo st expected startHeight = .ok replay ∧
      job.start file = .ok ⟨st, expected, targetHeight, startHeight, replay⟩ ∧
      job.start none = .ok ⟨st, expected, targetHeight, 0, job.initial expected⟩ := by
  unfold BackgroundValidationJob.start
  rcases job.activeChain.findIdx? (· = job.targetTip) with _ | targetHeight
  · exact .inl ⟨_, rfl, rfl⟩
  by_cases base : job.activeChain[job.baseHeight]? ≠ some job.baseHash
  · rw [bailIf, if_pos base]
    exact .inl ⟨_, rfl, rfl⟩
  rw [bailIf_neg base]
  rcases loaded : job.loadAssumeutxoExpectedSnapshot with error | expected
  · exact .inl ⟨_, rfl, rfl⟩
  rcases opened : job.openBackgroundReplayState with error | st
  · exact .inl ⟨error, sound.startFrom_error opened targetHeight, (soundFile_none job).startFrom_error opened targetHeight⟩
  · obtain ⟨startHeight, replay, below, replayed, started⟩ := sound.startFrom loaded opened targetHeight
    exact .inr ⟨st, expected, targetHeight, startHeight, replay, rfl, rfl, below, replayed, started,
      startFrom_genesis opened targetHeight⟩

/-- On the blocks up to a common one, two jobs with the same base have the same snapshot and the same verdicts. -/
def Agrees (earlier job : BackgroundValidationJob) : Prop :=
  earlier.baseHash = job.baseHash → ∀ height hash, earlier.activeChain[height]? = some hash →
    job.activeChain[height]? = some hash → earlier.baseHeight = job.baseHeight ∧
      (∀ expected expected', earlier.loadAssumeutxoExpectedSnapshot = .ok expected →
        job.loadAssumeutxoExpectedSnapshot = .ok expected' → expected = expected') ∧
      ∀ st st', earlier.openBackgroundReplayState = .ok st → job.openBackgroundReplayState = .ok st' →
        ∀ i, 1 ≤ i → i ≤ height → earlier.validateBlock st i = job.validateBlock st' i

theorem Agrees.retarget (job : BackgroundValidationJob) (first second : BlockHash) :
    Agrees { job with targetTip := first } { job with targetTip := second } := by
  refine fun _ height hash _ _ => ⟨rfl, ?_, ?_⟩
  · intro expected expected' loaded loaded'
    unfold loadAssumeutxoExpectedSnapshot at loaded loaded'
    dsimp only at loaded loaded'
    split at loaded
    · rename_i stored
      rw [stored] at loaded'
      exact Except.ok.inj (loaded.symm.trans loaded')
    · rename_i absent
      rw [absent] at loaded'
      dsimp only at loaded'
      split at loaded
      · cases loaded
      split at loaded'
      · cases loaded'
      exact Except.ok.inj (loaded.symm.trans loaded')
  · intro st st' opened opened' i _ _
    rw [Except.ok.inj (opened.symm.trans opened')]
    rfl

theorem Agrees.sound (agrees : Agrees earlier job)
    (loaded : earlier.loadAssumeutxoExpectedSnapshot = .ok expected) (opened : earlier.openBackgroundReplayState = .ok st)
    (positive : 1 ≤ height) (replayed : earlier.replayTo st expected height = .ok replay) :
    SoundFile job (some (earlier.checkpoint height replay)) := by
  intro checkpoint found
  obtain ⟨written, used⟩ := Option.filter_eq_some_iff.mp found
  cases written
  obtain ⟨sameBase, onChain⟩ := of_decide_eq_true used
  obtain ⟨hash, listed⟩ := replayTo_listed replayed positive
  have common : job.activeChain[height]? = some hash := by
    refine onChain.trans ?_
    show some (earlier.activeChain[height]?.getD 0) = some hash
    rw [listed]
    rfl
  obtain ⟨sameHeight, sameSnapshot, sameVerdict⟩ := agrees sameBase height hash listed common
  refine ⟨positive, fun crossed => ?_, fun st' expected' opened' loaded' => ?_⟩
  · obtain ⟨utxos, -, compared⟩ := replayTo_compared replayed (sameHeight ▸ Nat.le_of_lt crossed)
    show replay.baseMatches ≠ none
    rw [compared]
    exact Option.some_ne_none _
  · have snapshots := sameSnapshot expected expected' loaded loaded'
    subst snapshots
    refine Eq.trans ?_ replayed
    show job.replayTo st' expected height = earlier.replayTo st expected height
    have sameStart : job.initial expected = earlier.initial expected := by rw [initial, initial, sameHeight]
    rw [replayTo, replayTo, sameStart]
    refine steps_congr (fun i above below => ?_) _
    funext replay
    rw [replayStep, replayStep, sameVerdict st st' opened opened' i above (by omega), sameHeight]

theorem SoundFile.run_file (sound : SoundFile job file) (polls : Polls) :
    (job.runBackgroundValidation polls file).2 = file ∨ ∃ st expected height replay,
      job.openBackgroundReplayState = .ok st ∧ job.loadAssumeutxoExpectedSnapshot = .ok expected ∧ 1 ≤ height ∧
      job.replayTo st expected height = .ok replay ∧
      (job.runBackgroundValidation polls file).2 = some (job.checkpoint height replay) := by
  unfold runBackgroundValidation
  rcases sound.start with ⟨error, failed, -⟩ | ⟨st, expected, targetHeight, startHeight, replay, opened, loaded, -, replayed, started, -⟩
  · rw [failed]
    exact .inl rfl
  rw [started]
  dsimp only
  rcases loop_saves polls (targetHeight - startHeight) (startHeight + 1) replay file with unchanged | ⟨passed, next, -, done, saved⟩
  · exact .inl unchanged
  · refine .inr ⟨st, expected, startHeight + 1 + passed, next, opened, loaded, by omega, ?_, saved⟩
    rw [replayTo, show startHeight + 1 + passed = startHeight + (passed + 1) by omega, steps_add]
    refine bind_pass replayed ?_
    rw [Nat.add_comm 1 startHeight]
    exact done

/-- The checkpoint files left by any number of runs, cancelled at any poll, of some jobs. -/
inductive Reached (jobs : Set BackgroundValidationJob) : Option AssumeUtxoCheckpoint → Prop
  | empty : Reached jobs none
  | run {job : BackgroundValidationJob} {file : Option AssumeUtxoCheckpoint} (member : job ∈ jobs) (polls : Polls)
      (reached : Reached jobs file) : Reached jobs (job.runBackgroundValidation polls file).2

theorem Reached.sound {jobs : Set BackgroundValidationJob} (reached : Reached jobs file)
    (agree : ∀ a ∈ jobs, ∀ b ∈ jobs, Agrees a b) : ∀ job ∈ jobs, SoundFile job file := by
  induction reached with
  | empty => exact fun job _ => soundFile_none job
  | @run ran file member polls _ ih =>
    intro job listed
    rcases (ih ran member).run_file polls with unchanged | ⟨st, expected, height, replay, opened, loaded, positive, replayed, saved⟩
    · rw [unchanged]
      exact ih job listed
    · rw [saved]
      exact (agree ran member job listed).sound loaded opened positive replayed

theorem SoundFile.outcome (sound : SoundFile job file) : (∃ error, job.start none = .error error ∧
      (job.runBackgroundValidation .never file).1 = .failed job.targetTip error) ∨
    ∃ st expected targetHeight, job.openBackgroundReplayState = .ok st ∧
      job.loadAssumeutxoExpectedSnapshot = .ok expected ∧
      job.start none = .ok ⟨st, expected, targetHeight, 0, job.initial expected⟩ ∧
      (job.runBackgroundValidation .never file).1 = job.outcome (job.replayTo st expected targetHeight) := by
  unfold runBackgroundValidation
  rcases sound.start with ⟨error, failed, fresh⟩ |
    ⟨st, expected, targetHeight, startHeight, replay, opened, loaded, below, replayed, started, fresh⟩
  · rw [failed]
    exact .inl ⟨error, fresh, rfl⟩
  · rw [started]
    refine .inr ⟨st, expected, targetHeight, opened, loaded, fresh, ?_⟩
    show job.outcome (loop _ _ _ _ .never (targetHeight - startHeight) (startHeight + 1) replay file).1 = _
    rw [loop_never, replayTo]
    congr 1
    obtain ⟨rest, rfl⟩ := Nat.exists_eq_add_of_le below
    rw [Nat.add_sub_cancel_left, steps_add, Nat.add_comm 1 startHeight]
    rw [show steps (job.replayStep st expected) 1 startHeight (job.initial expected) = .ok replay from replayed]
    rfl

end BackgroundValidationJob

section snapshot
variable [HashOrder OutPoint]

omit [Library] in
theorem reconstructMedianTimes_lookup {st : ChainState} {baseHash : BlockHash} {coins utxos : UtxoMap}
    (h : st.reconstructMedianTimes baseHash coins = .ok utxos) (outpoint : OutPoint) (entry : UtxoEntry) :
    utxos.lookup outpoint = some entry ↔ ∃ coin, coins.lookup outpoint = some coin ∧
      st.snapshotMedianTimePast baseHash coin = .ok entry.medianTimePast ∧
      entry = { coin with medianTimePast := entry.medianTimePast } := by
  have general := foldlM_invariant (fun (passed : List (OutPoint × UtxoEntry)) (utxos : UtxoMap) =>
    (passed.map Prod.fst).Nodup → ∀ (outpoint : OutPoint) (entry : UtxoEntry), utxos.lookup outpoint = some entry ↔
      ∃ coin, (outpoint, coin) ∈ passed ∧ st.snapshotMedianTimePast baseHash coin = .ok entry.medianTimePast ∧
        entry = { coin with medianTimePast := entry.medianTimePast }) ?_ h ?_
  · rw [general coins.toList_keys_nodup outpoint entry]
    simp only [mem_toList]
  · rintro passed s ⟨other, coin⟩ t holds inserted distinct outpoint entry
    obtain ⟨time, computed, inserted⟩ := bind_ok inserted
    cases inserted
    rw [map_append, nodup_append] at distinct
    obtain ⟨before, -, apart⟩ := distinct
    rw [lookup_insert_ite]
    split
    · rename_i same
      subst same
      constructor
      · rintro ⟨⟩
        exact ⟨coin, mem_append_right _ mem_cons_self, computed, rfl⟩
      · rintro ⟨found, listed, timed, kept⟩
        rcases mem_append.mp listed with old | new
        · exact absurd rfl (apart _ (mem_map_of_mem old) _ mem_cons_self)
        · cases mem_singleton.mp new
          rw [computed] at timed
          rw [kept, ← Except.ok.inj timed]
    · rename_i different
      rw [holds before]
      constructor
      · rintro ⟨found, listed, rest⟩
        exact ⟨found, mem_append_left _ listed, rest⟩
      · rintro ⟨found, listed, rest⟩
        rcases mem_append.mp listed with old | new
        · exact ⟨found, old, rest⟩
        · cases mem_singleton.mp new
          exact absurd rfl different
  · intro _ outpoint entry
    simp

end snapshot

open BackgroundValidationJob

/-- Any number of runs that were cancelled or finished before leave a run the outcome it has from an empty directory, and
it reports a match only if the replay to the base gave the loaded snapshot. -/
theorem runBackgroundValidation_restartable [HashOrder OutPoint] {jobs : Set BackgroundValidationJob}
    (agree : ∀ a ∈ jobs, ∀ b ∈ jobs, Agrees a b) {file : Option AssumeUtxoCheckpoint} (reached : Reached jobs file)
    {job : BackgroundValidationJob} (member : job ∈ jobs) :
    (job.runBackgroundValidation .never file).1 = (job.runBackgroundValidation .never none).1 ∧
    ∀ utxos, (job.runBackgroundValidation .never file).1 = .complete job.targetTip utxos true →
      ∃ st base, job.openBackgroundReplayState = .ok st ∧ job.loadAssumeutxoExpectedSnapshot = .ok base ∧
        steps (job.validateBlock st) 1 job.baseHeight ∅ = .ok base ∧
        ∀ (serving : ChainState) (coins : UtxoMap), serving.reconstructMedianTimes job.baseHash coins = .ok base →
          ∀ outpoint entry, base.lookup outpoint = some entry ↔ ∃ coin, coins.lookup outpoint = some coin ∧
            serving.snapshotMedianTimePast job.baseHash coin = .ok entry.medianTimePast ∧
            entry = { coin with medianTimePast := entry.medianTimePast } := by
  have sound := reached.sound agree job member
  constructor
  · rcases sound.outcome with ⟨error, started, failed⟩ | ⟨st, expected, targetHeight, -, -, started, ran⟩ <;>
    rcases (soundFile_none job).outcome with ⟨error', started', failed'⟩ | ⟨st', expected', targetHeight', -, -, started', ran'⟩ <;>
    rw [started] at started' <;> cases started'
    · rw [failed, failed']
    · rw [ran, ran']
  · intro utxos complete
    rcases sound.outcome with ⟨error, -, failed⟩ | ⟨st, expected, targetHeight, opened, loaded, -, ran⟩
    · rw [failed] at complete
      cases complete
    rw [ran] at complete
    rcases replayed : job.replayTo st expected targetHeight with error | ⟨coins, compared⟩
    · rw [replayed] at complete
      cases complete
    rw [replayed] at complete
    rcases compared with _ | matched
    · cases complete
    cases complete
    have reachedBase : job.baseHeight ≤ targetHeight := by
      by_contra short
      cases replayTo_uncompared replayed (Nat.lt_of_not_le short)
    obtain ⟨base, validated, same⟩ := replayTo_compared replayed reachedBase
    have equal : base = expected := of_decide_eq_true (Option.some.inj same).symm
    subst equal
    exact ⟨st, base, opened, loaded, validated, fun serving coins rebuilt => reconstructMedianTimes_lookup rebuilt⟩

def sampleJob : BackgroundValidationJob :=
  let block (height : ℕ) : Block := sampleBlock height [sampleCoinbase height 5000000000]
  let genesis := Library.sample.genesisBlock .regtest
  { config := ChainState.sampleConfig
    bodies := insertAll ∅ [(0, genesis), (1, block 1), (2, block 2)]
    activeChain := [0, 1, 2]
    blockIndex := insertAll ∅ [(0, ⟨genesis.header, 0, 1, none⟩), (1, ⟨(block 1).header, 1, 2, some 0⟩),
      (2, ⟨(block 2).header, 2, 3, some 0⟩)]
    baseHash := 1
    baseHeight := 1
    targetTip := 2
    baseSnapshot := some (1, (∅ : UtxoMap).insert ⟨1001, 0⟩ ⟨⟨5000000000, [0x51]⟩, 1, 0, true⟩)
    chainSnapshot := none }

def BackgroundValidationOutcome.matched : BackgroundValidationOutcome → Bool
  | .complete _ _ baseMatches => baseMatches
  | .failed _ _ => false

omit [Library] in
/-- A run to the base, then a run to the tip that is cancelled at its first poll: the next run starts at the base and
completes. -/
theorem runBackgroundValidation_restartable_sample : let _ := Library.sample
    let _ := OutPoint.sampleOrder
    let first := ({ sampleJob with targetTip := 1 } : BackgroundValidationJob).runBackgroundValidation .never none
    let cancelled := sampleJob.runBackgroundValidation ⟨fun _ => true, fun _ => true⟩ first.2
    cancelled.2.map (·.height) = some 1 ∧ (sampleJob.runBackgroundValidation .never cancelled.2).1.matched = true ∧
      (sampleJob.runBackgroundValidation .never cancelled.2).1 = (sampleJob.runBackgroundValidation .never none).1 := by
  let _ := Library.sample
  let _ := OutPoint.sampleOrder
  let jobs : Set BackgroundValidationJob := Set.range fun tip => { sampleJob with targetTip := tip }
  have agree : ∀ a ∈ jobs, ∀ b ∈ jobs, Agrees a b := by
    rintro _ ⟨first, rfl⟩ _ ⟨second, rfl⟩
    exact Agrees.retarget sampleJob first second
  have early : { sampleJob with targetTip := 1 } ∈ jobs := ⟨1, rfl⟩
  have member : sampleJob ∈ jobs := ⟨2, rfl⟩
  refine ⟨by decide +kernel, by decide +kernel, ?_⟩
  exact (runBackgroundValidation_restartable agree (.run member _ (.run early .never .empty)) member).1

end BitcoindRs
