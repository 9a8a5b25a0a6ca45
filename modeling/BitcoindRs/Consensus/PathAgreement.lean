import BitcoindRs.Consensus.Accepted
import BitcoindRs.Consensus.Streaming
import BitcoindRs.Data.Lockstep

/-! The transaction loop with and without the script rules, and with and without the spent coins. -/

namespace BitcoindRs
open Result Checked FMap List

def BlockRules.vary (rules : BlockRules) (skip retained : Bool) : BlockRules :=
  { rules with skipScriptChecks := skip, retainSpentEntries := retained }

def BlockContext.vary (ctx : BlockContext) (skip retained : Bool) : BlockContext := { ctx with rules := ctx.rules.vary skip retained }

def BlockProgress.vary (st : BlockProgress) (skip retained : Bool) : BlockProgress := { st with
  spentEntries := if retained then st.spentEntries else []
  scriptJobs := if skip then [] else st.scriptJobs }

namespace BlockContext
variable (ctx : BlockContext) (skip retained : Bool)

@[simp] theorem vary_sigopFlags : (ctx.vary skip retained).sigopFlags = ctx.sigopFlags := rfl

@[simp] theorem vary_retainSpentEntries : (ctx.vary skip retained).rules.retainSpentEntries = retained := rfl

@[simp] theorem vary_skipScriptChecks : (ctx.vary skip retained).rules.skipScriptChecks = skip := rfl

@[simp] theorem vary_reducedDataActivationHeight :
    (ctx.vary skip retained).rules.reducedDataActivationHeight = ctx.rules.reducedDataActivationHeight := rfl

@[simp] theorem vary_full_borrowPrevouts : (ctx.vary false retained).borrowPrevouts = false := rfl

end BlockContext

section coins
variable (ctx : BlockContext) (utxos : UtxoMap) (transactions : List (Transaction × Txid))

/-- A coin that an outpoint may name in the block: one of the UTXO map, or an output of the block itself. -/
def BlockContext.Names (outpoint : OutPoint) (coin : UtxoEntry) : Prop :=
  utxos.lookup outpoint = some coin ∨ ∃ identified ∈ transactions,
    (outpoint, coin) ∈ spendableOutputs identified.2 identified.1.output ctx.height ctx.medianTimePast false

def BlockContext.Spends (inputs : List TxIn) (coins : List UtxoEntry) : Prop :=
  List.Forall₂ (fun input coin => ctx.Names utxos transactions input.previousOutput coin) inputs coins

structure Gathered (st : BlockProgress) : Prop where
  created : ∀ outpoint coin, st.created.lookup outpoint = some coin → ctx.Names utxos transactions outpoint coin
  jobs : ∀ job ∈ st.scriptJobs, (∃ identified ∈ transactions, job.transaction = identified.1) ∧
    ∃ coins, ctx.Spends utxos transactions job.transaction.input coins ∧ job.previousOutputs = coins.map (·.output)

/-- The input loop after some inputs: `a` collects everything, `b` what the variant collects. -/
structure InputsVary (skip retained : Bool) (base : ℕ) (passed : List TxIn) (a b : InputProgress) : Prop where
  gathered : Gathered ctx utxos transactions a.block
  spends : ∃ coins, ctx.Spends utxos transactions passed coins ∧ a.previousOutputs = coins.map (·.output) ∧
    a.previousHeights = if ctx.rules.reducedDataActivationHeight.isSome then coins.map (·.height) else []
  cost : a.txSigopCost = base
  varied : b = { a with
    block := a.block.vary skip retained
    previousOutputs := if (ctx.vary skip retained).borrowPrevouts then [] else a.previousOutputs
    txSigopCost := if (ctx.vary skip retained).borrowPrevouts
      then base + ((passed.zip a.previousOutputs).map fun (input, out) => transactionInputSigopCost input out ctx.sigopFlags).sum
      else base }

end coins

variable {ctx : BlockContext} {utxos : UtxoMap} {transactions : List (Transaction × Txid)} {skip retained : Bool} {base : ℕ}
  {passed : List TxIn} {a b : InputProgress}

theorem Gathered.of_created {st next : BlockProgress} (gathered : Gathered ctx utxos transactions st)
    (jobs : next.scriptJobs = st.scriptJobs)
    (created : ∀ outpoint coin, next.created.lookup outpoint = some coin → st.created.lookup outpoint = some coin) :
    Gathered ctx utxos transactions next :=
  ⟨fun outpoint coin found => gathered.created outpoint coin (created outpoint coin found), by
    rw [jobs]
    exact gathered.jobs⟩

theorem processEntry_lockstep {tx : Transaction} {input : TxIn} {entry : UtxoEntry}
    (vary : InputsVary ctx utxos transactions skip retained base passed a b)
    (named : ctx.Names utxos transactions input.previousOutput entry) :
    Lockstep (InputsVary ctx utxos transactions skip retained base (passed ++ [input]))
      (processEntry (ctx.vary false true) tx input a entry) (processEntry (ctx.vary skip retained) tx input b entry) := by
  obtain ⟨gathered, ⟨coins, spends, outputs, heights⟩, rfl, rfl⟩ := vary
  unfold processEntry
  refine .guard Iff.rfl fun _ => .congr fun _ _ => .congr fun total _ => .guard Iff.rfl fun _ => .ok ?_
  have lengths : passed.length = a.previousOutputs.length := by
    rw [outputs, length_map]
    exact spends.length_eq
  refine ⟨gathered.of_created rfl fun _ _ found => found, ⟨coins ++ [entry], ?_, ?_, ?_⟩, rfl, ?_⟩
  · exact rel_append spends (.cons named .nil)
  · show a.previousOutputs ++ [entry.output] = _
    rw [outputs, map_append]
    rfl
  · show (if ctx.rules.reducedDataActivationHeight.isSome then a.previousHeights ++ [entry.height] else a.previousHeights) = _
    rw [heights]
    split <;> simp
  · rcases borrow : (ctx.vary skip retained).borrowPrevouts with _ | _ <;> cases retained <;>
      simp [BlockProgress.vary, zip_append lengths, Nat.add_assoc] <;> rfl

theorem processInput_lockstep {tx : Transaction} {txid : Txid} {input : TxIn}
    (vary : InputsVary ctx utxos transactions skip retained base passed a b) :
    Lockstep (InputsVary ctx utxos transactions skip retained base (passed ++ [input]))
      (processInput (ctx.vary false true) utxos tx txid a input) (processInput (ctx.vary skip retained) utxos tx txid b input) := by
  have unchanged : b.transactionSpent = a.transactionSpent ∧ b.block = a.block.vary skip retained := by
    rw [vary.varied]
    exact ⟨rfl, rfl⟩
  unfold processInput
  refine .guard (by rw [unchanged.1]) fun _ => .guard (by rw [unchanged.2]; rfl) fun _ => ?_
  obtain ⟨gathered, spends, cost, rfl⟩ := vary
  dsimp only [BlockProgress.vary]
  rcases found : a.block.created.lookup input.previousOutput with _ | entry
  · refine .congr fun entry present => processEntry_lockstep ⟨?_, spends, cost, rfl⟩ (.inl (okOr_ok.mp present))
    exact gathered.of_created rfl fun _ _ h => h
  · refine processEntry_lockstep ⟨?_, spends, cost, rfl⟩ (gathered.created _ _ found)
    refine gathered.of_created rfl fun outpoint coin kept => ?_
    rw [lookup_erase_ite] at kept
    split at kept
    · cases kept
    · exact kept

section transactions
variable [Library]
variable {identified : Transaction × Txid} {st : BlockProgress}

/-- What is skipped together with the scripts makes no difference: the inputs meet the reduced-data limits, and no
transaction with the form of a coinbase finds a coin. -/
structure HarmlessSkip (ctx : BlockContext) (utxos : UtxoMap) (transactions : List (Transaction × Txid)) : Prop where
  sizes : ∀ activation, ctx.rules.reducedDataActivationHeight = some activation → ∀ identified ∈ transactions, ∀ coins,
    ctx.Spends utxos transactions identified.1.input coins →
    validateReducedDataInputSizes identified.1 (coins.map (·.output)) (coins.map (·.height)) activation = .ok ()
  coinbases : ctx.rules.reducedDataActivationHeight = none → ∀ identified ∈ transactions, identified.1.isCoinbase = true →
    ∀ coins, ¬ ctx.Spends utxos transactions identified.1.input coins

theorem validateReducedData_vary (member : identified ∈ transactions)
    (harmless : skip = true → HarmlessSkip ctx utxos transactions)
    (vary : InputsVary ctx utxos transactions skip retained base identified.1.input a b) :
    validateReducedData (ctx.vary false true) identified.1 a = validateReducedData (ctx.vary skip retained) identified.1 b := by
  obtain ⟨-, ⟨coins, spends, outputs, heights⟩, -, rfl⟩ := vary
  unfold validateReducedData
  simp only [BlockContext.vary_reducedDataActivationHeight, BlockContext.vary_skipScriptChecks]
  rcases active : ctx.rules.reducedDataActivationHeight with _ | activation
  · rfl
  cases skip with
  | false => rfl
  | true =>
    rw [active] at heights
    have fits := (harmless rfl).sizes activation active identified member coins spends
    simp only [Option.isSome_some, if_true] at heights
    simp [outputs, heights, fits, runIf]

omit [Library] in
theorem transactionSigopCost_incremental {tx : Transaction} {previousOutputs : List TxOut} (flags : ℕ)
    (lengths : previousOutputs.length = tx.input.length) (spending : tx.isCoinbase = false) :
    transactionSigopCost tx [] flags +
      ((tx.input.zip previousOutputs).map fun (input, out) => transactionInputSigopCost input out flags).sum =
    transactionSigopCost tx previousOutputs flags := by
  have legacy : transactionSigopCost tx [] flags = legacySigopCostForTransaction tx := by
    unfold transactionSigopCost
    dsimp only
    split
    · rfl
    · simp
  rw [legacy, transactionSigopCost]
  simp [spending, lengths]

theorem checkTransactionInputs_lockstep
    (member : identified ∈ transactions) (harmless : skip = true → HarmlessSkip ctx utxos transactions)
    (gathered : Gathered ctx utxos transactions st) :
    Lockstep (fun a b => a.2 = b.2 ∧ InputsVary ctx utxos transactions skip retained
        (transactionSigopCost identified.1 [] ctx.sigopFlags) identified.1.input a.1 b.1)
      (checkTransactionInputs (ctx.vary false true) utxos st identified)
      (checkTransactionInputs (ctx.vary skip retained) utxos (st.vary skip retained) identified) := by
  unfold checkTransactionInputs
  refine .congr fun _ _ => ?_
  refine (Lockstep.foldlM (InputsVary ctx utxos transactions skip retained
    (transactionSigopCost identified.1 [] ctx.sigopFlags)) (fun _ _ _ _ _ vary => processInput_lockstep vary) ?_).bind ?_
  · exact ⟨gathered, ⟨[], .nil, rfl, by simp⟩, rfl, by simp⟩
  intro a b vary
  rw [validateReducedData_vary member harmless vary]
  refine .congr fun _ _ => ?_
  have cost : (if (ctx.vary skip retained).borrowPrevouts then b.txSigopCost
      else transactionSigopCost identified.1 b.previousOutputs ctx.sigopFlags) =
      transactionSigopCost identified.1 a.previousOutputs ctx.sigopFlags := by
    obtain ⟨-, ⟨coins, spends, outputs, -⟩, -, rfl⟩ := vary
    rcases borrow : (ctx.vary skip retained).borrowPrevouts with _ | _
    · simp
    obtain ⟨skipped, inactive⟩ := Bool.and_eq_true_iff.mp borrow
    have spending : identified.1.isCoinbase = false := by
      by_contra coinbase
      exact (harmless skipped).coinbases (Option.isNone_iff_eq_none.mp inactive) identified member
        (by simpa using coinbase) coins spends
    have lengths : a.previousOutputs.length = identified.1.input.length := by
      rw [outputs, length_map]
      exact spends.length_eq.symm
    exact transactionSigopCost_incremental ctx.sigopFlags lengths spending
  have sigops : b.block.sigopCost = a.block.sigopCost := by
    rw [vary.varied]
    rfl
  rw [BlockContext.vary_full_borrowPrevouts, BlockContext.vary_sigopFlags, BlockContext.vary_sigopFlags, cost, sigops]
  exact .guard Iff.rfl fun _ => .ok ⟨rfl, vary⟩

section
omit [Library]

theorem addOutput_vary (txid : Txid) (st : BlockProgress) (indexed : TxOut × ℕ) :
    addOutput (ctx.vary skip retained) txid (st.vary skip retained) indexed =
      (addOutput (ctx.vary false true) txid st indexed).vary skip retained := by
  unfold addOutput
  dsimp only
  split <;> rfl

theorem addOutput_gathered (member : identified ∈ transactions)
    {indexed : TxOut × ℕ} (listed : indexed ∈ identified.1.output.zipIdx) (gathered : Gathered ctx utxos transactions st) :
    Gathered ctx utxos transactions (addOutput (ctx.vary false true) identified.2 st indexed) := by
  obtain ⟨output, index⟩ := indexed
  unfold addOutput
  dsimp only
  split
  · exact gathered.of_created rfl fun _ _ found => found
  rename_i spendable
  refine ⟨fun outpoint coin found => ?_, gathered.jobs⟩
  rw [lookup_insert_ite] at found
  split at found
  · rename_i here
    refine .inr ⟨identified, member, mem_filterMap.mpr ⟨(output, index), listed, ?_⟩⟩
    dsimp only
    rw [if_neg spendable, here, ← Option.some.inj found]
    rfl
  · exact gathered.created outpoint coin found

theorem settleTransaction_lockstep (member : identified ∈ transactions)
    {checked checked' : InputProgress × ℕ} (cost : checked.2 = checked'.2)
    (vary : InputsVary ctx utxos transactions skip retained base identified.1.input checked.1 checked'.1) :
    Lockstep (fun st st' => Gathered ctx utxos transactions st ∧ st' = st.vary skip retained)
      (settleTransaction (ctx.vary false true) identified checked)
      (settleTransaction (ctx.vary skip retained) identified checked') := by
  obtain ⟨gathered, ⟨coins, spends, outputs, -⟩, -, varied⟩ := vary
  obtain ⟨inputs, sigopCost⟩ := checked
  obtain ⟨inputs', sigopCost'⟩ := checked'
  dsimp only at cost varied gathered outputs
  subst cost varied
  unfold settleTransaction
  refine .congr fun _ _ => .guard Iff.rfl fun _ => .congr fun fees _ => .guard Iff.rfl fun _ => .ok ⟨?_, ?_⟩
  · refine List.foldlRecOn _ _ ⟨gathered.created, fun job listed => ?_⟩ fun st kept indexed listed =>
      addOutput_gathered member listed kept
    rcases mem_append.mp listed with old | new
    · exact gathered.jobs job old
    · rw [mem_singleton.mp new]
      exact ⟨⟨identified, member, rfl⟩, coins, spends, outputs⟩
  · rw [← foldl_hom (BlockProgress.vary · skip retained) (addOutput_vary identified.2)]
    congr 1
    cases skip <;> rfl

end

theorem processTransaction_lockstep
    (member : identified ∈ transactions) (harmless : skip = true → HarmlessSkip ctx utxos transactions)
    (gathered : Gathered ctx utxos transactions st) :
    Lockstep (fun st st' => Gathered ctx utxos transactions st ∧ st' = st.vary skip retained)
      (processTransaction (ctx.vary false true) utxos st identified)
      (processTransaction (ctx.vary skip retained) utxos (st.vary skip retained) identified) := by
  rw [processTransaction_eq, processTransaction_eq]
  refine .congr fun _ _ => (checkTransactionInputs_lockstep member harmless gathered).bind ?_
  rintro checked checked' ⟨cost, vary⟩
  exact settleTransaction_lockstep member cost vary

theorem foldlM_processTransaction_lockstep (harmless : skip = true → HarmlessSkip ctx utxos transactions)
    {initial : BlockProgress} (gathered : Gathered ctx utxos transactions initial) :
    Lockstep (fun st st' => Gathered ctx utxos transactions st ∧ st' = st.vary skip retained)
      (transactions.foldlM (processTransaction (ctx.vary false true) utxos) initial)
      (transactions.foldlM (processTransaction (ctx.vary skip retained) utxos) (initial.vary skip retained)) := by
  refine Lockstep.foldlM (fun _ st st' => Gathered ctx utxos transactions st ∧ st' = st.vary skip retained) ?_ ⟨gathered, rfl⟩
  rintro _ st _ identified member ⟨kept, rfl⟩
  exact processTransaction_lockstep member harmless kept

end transactions

end BitcoindRs
