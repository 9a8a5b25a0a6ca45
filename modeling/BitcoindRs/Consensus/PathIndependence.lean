import BitcoindRs.Consensus.PathAgreement
import BitcoindRs.Consensus.StreamingVerdict

/-!
The verdict on a block, its fees and its effects do not depend on the path on which its scripts are checked, as long as the
cache is sound; below an assumed-valid block this also needs the checks that are skipped together with the scripts.
-/

namespace BitcoindRs
open Result Checked
variable [Library] {ctx : BlockContext} {utxos : UtxoMap} {transactions : List (Transaction × Txid)} {initial : BlockProgress}
variable {cache : ScriptValidationCache} {retained : Bool} {workers : ScriptWorkers}

/-- A hit is on a transaction that is valid with the coins it spends. -/
def ScriptValidationCache.SoundFor (cache : ScriptValidationCache) (ctx : BlockContext) (utxos : UtxoMap)
    (transactions : List (Transaction × Txid)) : Prop :=
  ∀ identified ∈ transactions, scriptCacheKey ctx.sigopFlags identified.1 ∈ cache.entries → ∀ coins,
    ctx.Spends utxos transactions identified.1.input coins →
    ScriptCheckJob.Valid ⟨identified.1, coins.map (·.output)⟩ ctx.sigopFlags

def BlockContext.ScriptsValid (ctx : BlockContext) (utxos : UtxoMap) (transactions : List (Transaction × Txid)) : Prop :=
  ∀ identified ∈ transactions, ∀ coins, ctx.Spends utxos transactions identified.1.input coins →
    ScriptCheckJob.Valid ⟨identified.1, coins.map (·.output)⟩ ctx.sigopFlags

structure BlockProgress.Fresh (st : BlockProgress) : Prop where
  created : st.created = ∅
  spentEntries : st.spentEntries = []
  scriptJobs : st.scriptJobs = []

section
omit [Library]

theorem BlockProgress.Fresh.gathered (fresh : initial.Fresh) : Gathered ctx utxos transactions initial := by
  refine ⟨fun outpoint coin found => ?_, fun job listed => ?_⟩
  · rw [fresh.created] at found
    cases found
  · rw [fresh.scriptJobs] at listed
    cases listed

theorem BlockProgress.Fresh.vary (fresh : initial.Fresh) (skip retained : Bool) : initial.vary skip retained = initial := by
  obtain ⟨-, entries, jobs⟩ := fresh
  cases initial
  simp_all [BlockProgress.vary]

theorem Gathered.resolved {st : BlockProgress} (gathered : Gathered ctx utxos transactions st) {job : ScriptCheckJob}
    (listed : job ∈ st.scriptJobs) : ∃ identified ∈ transactions, ∃ coins,
      ctx.Spends utxos transactions identified.1.input coins ∧ job = ⟨identified.1, coins.map (·.output)⟩ := by
  obtain ⟨⟨identified, member, same⟩, coins, spends, outputs⟩ := gathered.jobs job listed
  obtain ⟨tx, previousOutputs⟩ := job
  dsimp only at same spends outputs
  subst same outputs
  exact ⟨identified, member, coins, spends, rfl⟩

end

theorem loop_vary (skip retained : Bool) (fresh : initial.Fresh)
    (harmless : skip = true → HarmlessSkip ctx utxos transactions) :
    Lockstep (fun st st' => Gathered ctx utxos transactions st ∧ st' = st.vary skip retained)
      (transactions.foldlM (processTransaction (ctx.vary false true) utxos) initial)
      (transactions.foldlM (processTransaction (ctx.vary skip retained) utxos) initial) := by
  have gathered : Gathered ctx utxos transactions initial := fresh.gathered
  rw [← fresh.vary skip retained] at ⊢
  nth_rewrite 1 [fresh.vary]
  exact foldlM_processTransaction_lockstep harmless gathered

theorem acceptsScripts_iff (sound : cache.SoundFor ctx utxos transactions)
    (fresh : initial.Fresh) (done : BlockProgress) :
    AcceptsScripts (ctx.vary false retained) utxos (fun tx => scriptCacheKey ctx.sigopFlags tx ∈ cache.entries)
        transactions initial done ↔
      ∃ full, AcceptsScripts (ctx.vary false true) utxos (fun _ => false) transactions initial full ∧
        done = full.vary false retained := by
  have executed : false = true → HarmlessSkip ctx utxos transactions := fun skip => absurd skip Bool.false_ne_true
  have loops := loop_vary false retained fresh executed
  constructor
  · rintro ⟨accepted, valid⟩
    obtain ⟨full, loop, gathered, rfl⟩ := loops.left accepted
    refine ⟨full, ⟨loop, fun job listed _ => ?_⟩, rfl⟩
    by_cases hit : scriptCacheKey ctx.sigopFlags job.transaction ∈ cache.entries
    · obtain ⟨identified, member, coins, spends, rfl⟩ := gathered.resolved listed
      exact sound identified member hit coins spends
    · exact valid job listed (by simpa using hit)
  · rintro ⟨full, ⟨loop, valid⟩, rfl⟩
    obtain ⟨_, accepted, -, rfl⟩ := loops.right loop
    exact ⟨accepted, fun job listed _ => valid job listed rfl⟩

theorem validateScriptChecksCached_ok {flags : ℕ} {jobs : List ScriptCheckJob} :
    (validateScriptChecksCached workers flags (fun _ => false) cache (jobs.zipIdx 1)).1 = .ok () ↔
      ∀ job ∈ jobs, decide (scriptCacheKey flags job.transaction ∈ cache.entries) = false → job.Valid flags := by
  have checks : (validateScriptChecksCached workers flags (fun _ => false) cache (jobs.zipIdx 1)).1 = .ok () ↔
      ∀ indexed ∈ (jobs.zipIdx 1).filter (fun indexed => indexed.1.key flags ∉ cache.entries), indexed.1.Valid flags := by
    unfold validateScriptChecksCached
    dsimp only
    split
    · rename_i error failed
      refine ⟨fun h => (by cases h), fun valid => ?_⟩
      rw [runScriptChecks_ok.mpr fun indexed member => ⟨rfl, valid indexed member⟩] at failed
      cases failed
    · rename_i passed
      exact ⟨fun _ indexed member => (runScriptChecks_ok.mp passed indexed member).2, fun _ => rfl⟩
  rw [checks]
  constructor
  · intro valid job listed miss
    have zipped : job ∈ (jobs.zipIdx 1).map Prod.fst := by rwa [List.zipIdx_map_fst]
    obtain ⟨indexed, inside, rfl⟩ := List.mem_map.mp zipped
    exact valid indexed (List.mem_filter.mpr ⟨inside, decide_eq_true (of_decide_eq_false miss)⟩)
  · intro valid indexed member
    obtain ⟨inside, miss⟩ := List.mem_filter.mp member
    refine valid indexed.1 (List.fst_mem_of_mem_zipIdx inside) ?_
    exact decide_eq_false (of_decide_eq_true miss)

variable [ScriptEngine]

theorem collected_accepts (quiet : ctx.rules.shutdownInterrupt = false) (done : BlockProgress) :
    (ScriptPath.collected workers).validateTransactions cache ctx utxos transactions initial = .ok done ↔
      AcceptsScripts ctx utxos (fun tx => scriptCacheKey ctx.sigopFlags tx ∈ cache.entries) transactions initial done := by
  unfold ScriptPath.validateTransactions AcceptsScripts
  simp only [quiet, bind_ok_iff]
  constructor
  · rintro ⟨progress, loop, _, scripts, ⟨⟩⟩
    exact ⟨loop, validateScriptChecksCached_ok.mp scripts⟩
  · rintro ⟨loop, valid⟩
    exact ⟨done, loop, (), validateScriptChecksCached_ok.mpr valid, rfl⟩

theorem streamed_accepts {events : List StreamEvent}
    (quiet : ctx.rules.shutdownInterrupt = false) (executes : ctx.rules.skipScriptChecks = false)
    (empty : initial.scriptJobs = []) (calm : ∀ event ∈ events, event ≠ .raise)
    (joined : ((Stream.start transactions initial false).run ctx utxos
      (fun tx => scriptCacheKey ctx.sigopFlags tx ∈ cache.entries) events).Joined) (done : BlockProgress) :
    (ScriptPath.streamed events).validateTransactions cache ctx utxos transactions initial = .ok done ↔
      AcceptsScripts ctx utxos (fun tx => scriptCacheKey ctx.sigopFlags tx ∈ cache.entries) transactions initial done := by
  unfold ScriptPath.validateTransactions
  rw [quiet]
  have borrows : ctx.borrowPrevouts = false := by rw [BlockContext.borrowPrevouts, executes, Bool.false_and]
  refine Stream.Follows.result_iff ?_ ?_ joined done
  · exact (Stream.follows_start empty).run quiet executes calm
  · exact (Stream.consistent_start transactions initial false _).run borrows events

/-- A path is fair when it is not interrupted and everything it leaves out has been checked before. -/
def ScriptPath.Fair (path : ScriptPath) (cache : ScriptValidationCache) (ctx : BlockContext) (utxos : UtxoMap)
    (transactions : List (Transaction × Txid)) (initial : BlockProgress) : Prop := match path with
  | .skipped => ctx.ScriptsValid utxos transactions ∧ HarmlessSkip ctx utxos transactions
  | .collected _ => cache.SoundFor ctx utxos transactions
  | .streamed events => cache.SoundFor ctx utxos transactions ∧ (∀ event ∈ events, event ≠ .raise) ∧
    ((Stream.start transactions initial false).run ctx utxos
      (fun tx => scriptCacheKey ctx.sigopFlags tx ∈ cache.entries) events).Joined

theorem ScriptPath.Fair.accepts {path : ScriptPath}
    (fair : path.Fair cache (ctx.vary path.skips retained) utxos transactions initial)
    (quiet : ctx.rules.shutdownInterrupt = false) (fresh : initial.Fresh) (done : BlockProgress) :
    path.validateTransactions cache (ctx.vary path.skips retained) utxos transactions initial = .ok done ↔
      ∃ full, AcceptsScripts (ctx.vary false true) utxos (fun _ => false) transactions initial full ∧
        done = full.vary path.skips retained := by
  cases path with
  | skipped =>
    obtain ⟨valid, harmless⟩ := fair
    have skips : HarmlessSkip ctx utxos transactions := ⟨harmless.sizes, harmless.coinbases⟩
    have loops := loop_vary true retained fresh fun _ => skips
    constructor
    · intro accepted
      obtain ⟨full, loop, gathered, rfl⟩ := loops.left accepted
      refine ⟨full, ⟨loop, fun job listed _ => ?_⟩, rfl⟩
      obtain ⟨identified, member, coins, spends, rfl⟩ := gathered.resolved listed
      exact valid identified member coins spends
    · rintro ⟨full, ⟨loop, -⟩, rfl⟩
      obtain ⟨_, accepted, -, rfl⟩ := loops.right loop
      exact accepted
  | collected workers =>
    have sound : cache.SoundFor ctx utxos transactions := fair
    have still : (ctx.vary false retained).rules.shutdownInterrupt = false := quiet
    exact (collected_accepts still done).trans (acceptsScripts_iff sound fresh done)
  | streamed events =>
    obtain ⟨fair, calm, joined⟩ := fair
    have sound : cache.SoundFor ctx utxos transactions := fair
    have executes : (ctx.vary false retained).rules.skipScriptChecks = false := rfl
    have still : (ctx.vary false retained).rules.shutdownInterrupt = false := quiet
    exact (streamed_accepts still executes fresh.scriptJobs calm joined done).trans (acceptsScripts_iff sound fresh done)

def BlockApplication.retain (application : BlockApplication) (retained : Bool) : BlockApplication :=
  { application with spentEntries := if retained then application.spentEntries else [] }

section blocks
variable {rules : BlockRules} {block : Block} {transactionIds : List Txid} {height medianTimePast : ℕ}
variable {coinbase : Transaction} {application : BlockApplication}

omit [ScriptEngine] in
theorem beginBlock_fresh
    (h : beginBlock rules block transactionIds height utxos medianTimePast = .ok (coinbase, initial)) : initial.Fresh := by
  unfold beginBlock at h
  obtain ⟨_, h⟩ := guard_ok h
  iterate 2 obtain ⟨_, -, h⟩ := bind_ok h
  obtain ⟨_, -, h⟩ := bind_ok h
  iterate 2 obtain ⟨_, -, h⟩ := bind_ok h
  obtain ⟨_, h⟩ := guard_ok h
  cases h
  exact ⟨rfl, rfl, rfl⟩

omit [ScriptEngine] in
theorem finishBlock_vary {skip : Bool} {full : BlockProgress} :
    finishBlock (rules.vary skip retained) block height coinbase (full.vary skip retained) = .ok application ↔
      ∃ whole, finishBlock rules block height coinbase full = .ok whole ∧ application = whole.retain retained := by
  unfold finishBlock
  simp only [bind_ok_iff]
  constructor
  · rintro ⟨_, quiet, allowed, sum, actual, total, _, pays, ⟨⟩⟩
    exact ⟨_, ⟨_, quiet, allowed, sum, actual, total, _, pays, rfl⟩, rfl⟩
  · rintro ⟨_, ⟨_, quiet, allowed, sum, actual, total, _, pays, ⟨⟩⟩, rfl⟩
    exact ⟨_, quiet, allowed, sum, actual, total, _, pays, rfl⟩

/-- The block passes every check, all scripts included, with these effects and fees. -/
def FullyAccepts (rules : BlockRules) (block : Block) (transactionIds : List Txid) (height : ℕ) (utxos : UtxoMap) (medianTimePast : ℕ)
    (whole : BlockApplication) (fees : ℕ) : Prop :=
  ∃ coinbase initial full, beginBlock rules block transactionIds height utxos medianTimePast = .ok (coinbase, initial) ∧
    AcceptsScripts ((blockContext rules block height medianTimePast).vary false true) utxos (fun _ => false)
      ((block.txdata.zip transactionIds).drop 1) initial full ∧
    finishBlock rules block height coinbase full = .ok whole ∧ fees = full.totalFees

theorem validateBlockBy_ok {path : ScriptPath} (quiet : rules.shutdownInterrupt = false)
    (fair : ∀ coinbase initial, beginBlock rules block transactionIds height utxos medianTimePast = .ok (coinbase, initial) →
      path.Fair cache ((blockContext rules block height medianTimePast).vary path.skips retained) utxos
        ((block.txdata.zip transactionIds).drop 1) initial) {fees : ℕ} :
    validateBlockBy path cache { rules with retainSpentEntries := retained } block transactionIds height utxos medianTimePast =
        .ok (application, fees) ↔
      ∃ whole, FullyAccepts rules block transactionIds height utxos medianTimePast whole fees ∧ application = whole.retain retained := by
  unfold validateBlockBy
  constructor
  · intro h
    obtain ⟨⟨coinbase, initial⟩, begun, h⟩ := bind_ok h
    have started : beginBlock rules block transactionIds height utxos medianTimePast = .ok (coinbase, initial) := begun
    obtain ⟨done, loop, h⟩ := bind_ok h
    obtain ⟨_, finished, h⟩ := bind_ok h
    cases h
    obtain ⟨full, accepted, rfl⟩ := ((fair coinbase initial started).accepts quiet (beginBlock_fresh started) done).mp loop
    obtain ⟨whole, ends, rfl⟩ := finishBlock_vary.mp finished
    exact ⟨whole, ⟨coinbase, initial, full, started, accepted, ends, rfl⟩, rfl⟩
  · rintro ⟨whole, ⟨coinbase, initial, full, started, accepted, ends, rfl⟩, rfl⟩
    have loop := ((fair coinbase initial started).accepts quiet (beginBlock_fresh started) _).mpr ⟨full, accepted, rfl⟩
    have finished : finishBlock (rules.vary path.skips retained) block height coinbase (full.vary path.skips retained) =
        .ok (whole.retain retained) := finishBlock_vary.mpr ⟨whole, ends, rfl⟩
    exact bind_pass started (bind_pass loop (bind_pass finished rfl))

def validateBlockFully (rules : BlockRules) (block : Block) (transactionIds : List Txid) (height : ℕ) (utxos : UtxoMap)
    (medianTimePast : ℕ) : Except Error (BlockApplication × ℕ) :=
  validateBlockBy (.collected ⟨1, false⟩) ⟨∅, [], 0⟩ { rules with retainSpentEntries := true } block transactionIds height utxos
    medianTimePast

section
omit [ScriptEngine]

theorem soundFor_empty (maxEntries : ℕ) : ScriptValidationCache.SoundFor ⟨∅, [], maxEntries⟩ ctx utxos transactions :=
  fun _ _ hit => absurd hit (Finset.notMem_empty _)

theorem validateScriptChecks_ok {jobs : List ScriptCheckJob} (uncached : ctx.rules.scriptCacheHit = fun _ => false) :
    validateScriptChecks ctx jobs = .ok () ↔ ∀ job ∈ jobs, job.Valid ctx.sigopFlags := by
  unfold validateScriptChecks
  rw [forM_ok_iff]
  refine forall₂_congr fun job _ => ?_
  rw [uncached, if_neg Bool.false_ne_true]
  exact ScriptCheckJob.verify_ok

theorem validateBlockTransactions_full {whole : BlockApplication} : validateBlockTransactions { rules with
        skipScriptChecks := false, retainSpentEntries := true, scriptCacheHit := fun _ => false }
        block transactionIds height utxos medianTimePast = .ok whole ↔
      ∃ fees, FullyAccepts rules block transactionIds height utxos medianTimePast whole fees := by
  rw [validateBlockTransactions_eq]
  constructor
  · intro h
    obtain ⟨⟨coinbase, initial⟩, begun, h⟩ := bind_ok h
    obtain ⟨full, loop, h⟩ := bind_ok h
    obtain ⟨_, scripts, finished⟩ := bind_ok h
    have valid := (validateScriptChecks_ok rfl).mp (validation_ok.mp scripts)
    exact ⟨_, coinbase, initial, full, begun, ⟨loop, fun job listed _ => valid job listed⟩, finished, rfl⟩
  · rintro ⟨_, coinbase, initial, full, begun, ⟨loop, valid⟩, finished, -⟩
    refine bind_pass begun (bind_pass loop (bind_pass (a := ()) ?_ finished))
    exact validation_ok.mpr ((validateScriptChecks_ok rfl).mpr fun job listed => valid job listed rfl)

end

/-- Every fair path gives the verdict, the fees and the effects of the full validation; the spent coins are the same when
they are kept. A schedule of the workers can always be continued to its end. -/
theorem validateBlockBy_fair (rules : BlockRules) (quiet : rules.shutdownInterrupt = false) (block : Block)
    (transactionIds : List Txid) (height : ℕ) (utxos : UtxoMap) (medianTimePast : ℕ) :
    (∀ whole, (∃ fees, validateBlockFully rules block transactionIds height utxos medianTimePast = .ok (whole, fees)) ↔
      validateBlockTransactions { rules with
        skipScriptChecks := false, retainSpentEntries := true, scriptCacheHit := fun _ => false }
        block transactionIds height utxos medianTimePast = .ok whole) ∧
    (∀ (path : ScriptPath) (cache : ScriptValidationCache) (retained : Bool),
      (∀ coinbase initial, beginBlock rules block transactionIds height utxos medianTimePast = .ok (coinbase, initial) →
        path.Fair cache ((blockContext rules block height medianTimePast).vary path.skips retained) utxos
          ((block.txdata.zip transactionIds).drop 1) initial) →
      ∀ application fees,
        validateBlockBy path cache { rules with retainSpentEntries := retained } block transactionIds height utxos
          medianTimePast = .ok (application, fees) ↔
        ∃ whole, validateBlockFully rules block transactionIds height utxos medianTimePast = .ok (whole, fees) ∧
          application = whole.retain retained) ∧
    ∀ (ctx : BlockContext) (transactions : List (Transaction × Txid)) (initial : BlockProgress)
      (cache : ScriptValidationCache) (events : List StreamEvent), cache.SoundFor ctx utxos transactions →
      (∀ event ∈ events, event ≠ .raise) →
      ∃ more, (ScriptPath.streamed (events ++ more)).Fair cache ctx utxos transactions initial := by
  have reference : ∀ whole fees, validateBlockFully rules block transactionIds height utxos medianTimePast = .ok (whole, fees) ↔
      FullyAccepts rules block transactionIds height utxos medianTimePast whole fees := by
    intro whole fees
    refine (validateBlockBy_ok quiet ?_).trans ⟨?_, ?_⟩
    · exact fun _ _ _ => soundFor_empty 0
    · rintro ⟨_, accepted, rfl⟩
      exact accepted
    · exact fun accepted => ⟨whole, accepted, rfl⟩
  refine ⟨fun whole => ?_, fun path cache retained fair application fees => ?_, ?_⟩
  · rw [validateBlockTransactions_full]
    exact exists_congr fun fees => reference whole fees
  · rw [validateBlockBy_ok quiet fair]
    exact exists_congr fun whole => and_congr_left fun _ => (reference whole fees).symm
  · intro ctx transactions initial cache events sound calm
    obtain ⟨more, quietly, joined⟩ := (Stream.start transactions initial false).exists_completion events
    refine ⟨more, sound, fun event member => ?_, joined⟩
    rcases List.mem_append.mp member with given | added
    · exact calm event given
    · exact quietly event added

end blocks

omit [Library] [ScriptEngine]

@[reducible] def ScriptEngine.sample : @ScriptEngine Library.sample :=
  letI := Library.sample
  { createContext := fun _ _ _ => true
    verifyInput := fun _ _ _ _ => true
    errorReason := fun _ _ _ => ""
    transactionScripts_ok := by
      intro tx previousOutputs flags _
      exact ⟨fun _ => ⟨rfl, fun _ _ => rfl⟩, fun _ => rfl⟩ }

theorem validateBlockBy_fair_sample : let _ := Library.sample
    let _ := ScriptEngine.sample
    ∃ application fees, validateBlockBy (.collected ⟨4, true⟩) ⟨∅, [], 0⟩ { sampleRules with retainSpentEntries := false }
      sampleSpending sampleSpending.txids 2 sampleUtxos 1 = .ok (application, fees) := by
  intro _ _
  have accepted : ∃ result, validateBlockFully sampleRules sampleSpending sampleSpending.txids 2 sampleUtxos 1 = .ok result :=
    exists_ok (by decide +kernel)
  obtain ⟨⟨whole, fees⟩, accepted⟩ := accepted
  have verdicts := (validateBlockBy_fair sampleRules rfl sampleSpending sampleSpending.txids 2 sampleUtxos 1).2.1
  have same := verdicts (.collected ⟨4, true⟩) ⟨∅, [], 0⟩ false (fun _ _ _ => soundFor_empty 0) (whole.retain false) fees
  exact ⟨_, _, same.mpr ⟨whole, accepted, rfl⟩⟩

def sampleLargePush : Block := sampleBlock 2 [sampleCoinbase 2 5000000000,
  ⟨2, 20, [⟨⟨7, 0⟩, [0x4d, 1, 1] ++ List.replicate 257 0, 2 ^ 32 - 1, []⟩], [⟨900, [0x51]⟩]⟩]

/-- Its scripts are valid, but only the path that skips them accepts it. A path that keeps no spent coins reports none. -/
theorem validateBlockBy_differs : let _ := Library.sample
    let _ := ScriptEngine.sample
    let limited := { sampleRules with reducedDataActivationHeight := some 0 }
    (blockContext limited sampleLargePush 2 1).ScriptsValid sampleUtxos
        ((sampleLargePush.txdata.zip sampleLargePush.txids).drop 1) ∧
      (∃ result, validateBlockBy .skipped ⟨∅, [], 0⟩ limited sampleLargePush sampleLargePush.txids 2 sampleUtxos 1 = .ok result) ∧
      (∃ error, validateBlockFully limited sampleLargePush sampleLargePush.txids 2 sampleUtxos 1 = .error error) ∧
      ∃ whole fees application, validateBlockFully sampleRules sampleSpending sampleSpending.txids 2 sampleUtxos 1 =
          .ok (whole, fees) ∧
        validateBlockBy (.collected ⟨1, false⟩) ⟨∅, [], 0⟩ { sampleRules with retainSpentEntries := false } sampleSpending
          sampleSpending.txids 2 sampleUtxos 1 = .ok (application, fees) ∧
        application.spentEntries = [] ∧ whole.spentEntries ≠ [] := by
  intro _ _ limited
  refine ⟨fun _ _ _ _ => rfl, exists_ok (by decide +kernel), ?_, ?_⟩
  · exact ⟨.validation (.script 1020 0 "Push value size limit exceeded"), eq_error (by decide +kernel)⟩
  · obtain ⟨⟨whole, fees⟩, accepted, kept⟩ : ∃ result, validateBlockFully sampleRules sampleSpending sampleSpending.txids 2
        sampleUtxos 1 = .ok result ∧ decide (result.2 = 100 ∧ result.1.spentEntries.length = 2) = true :=
      exists_okAnd (by decide +kernel)
    obtain ⟨⟨application, paid⟩, again, dropped⟩ : ∃ result, validateBlockBy (.collected ⟨1, false⟩) ⟨∅, [], 0⟩
        { sampleRules with retainSpentEntries := false } sampleSpending sampleSpending.txids 2 sampleUtxos 1 = .ok result ∧
        decide (result.2 = 100 ∧ result.1.spentEntries.length = 0) = true := exists_okAnd (by decide +kernel)
    obtain ⟨rfl, count⟩ := of_decide_eq_true kept
    obtain ⟨rfl, none_⟩ := of_decide_eq_true dropped
    refine ⟨whole, 100, application, accepted, again, List.length_eq_zero_iff.mp none_, fun empty => ?_⟩
    rw [empty] at count
    cases count

end BitcoindRs
