import BitcoindRs.Consensus.Transactions

/-!
What a successful run of the transaction validator says about the block: the coins its inputs resolve to form a
valid ledger over the UTXO map, and the validator's accumulators describe that ledger.
-/

namespace BitcoindRs
open Result Checked FMap Ledger
open List hiding keys
variable {utxos : UtxoMap} {ctx : BlockContext} {tx : Transaction} {st st' : InputProgress} {txid : Txid}
variable {input : TxIn} {block : Block} {before : BlockProgress}

def spendableOutputs (txid : Txid) (outputs : List TxOut) (height medianTimePast : ℕ) (coinbase : Bool) :
    List (OutPoint × UtxoEntry) :=
  outputs.zipIdx.filterMap fun (output, index) =>
    if isUnspendableScript output.scriptPubkey then none
    else some (⟨txid, index⟩, coinOf output height medianTimePast coinbase)

abbrev coinTotal (coins : List (OutPoint × UtxoEntry)) : ℕ := totalOf UtxoEntry.value coins

def Transaction.outputTotal (tx : Transaction) : ℕ := (tx.output.map (·.value)).sum

theorem coinTotal_spendableOutputs_le (txid : Txid) (tx : Transaction) (height medianTimePast : ℕ) (coinbase : Bool) :
    coinTotal (spendableOutputs txid tx.output height medianTimePast coinbase) ≤ tx.outputTotal := by
  have general : ∀ (outputs : List TxOut) (start : ℕ),
      coinTotal ((outputs.zipIdx start).filterMap fun (output, index) =>
        if isUnspendableScript output.scriptPubkey then none
        else some ((⟨txid, index⟩ : OutPoint), coinOf output height medianTimePast coinbase)) ≤
        (outputs.map (·.value)).sum := by
    intro outputs
    induction outputs with
    | nil => intro start; simp
    | cons output outputs ih =>
      intro start
      have rest := ih (start + 1)
      rw [zipIdx_cons, filterMap_cons, map_cons, sum_cons]
      by_cases unspendable : isUnspendableScript output.scriptPubkey
      · simp only [unspendable, if_true]
        exact rest.trans (Nat.le_add_left _ _)
      · simp only [unspendable, Bool.false_eq_true, if_false]
        rw [coinTotal, totalOf_cons]
        exact Nat.add_le_add_left rest _
  exact general tx.output 0

theorem processEntry_ok {entry : UtxoEntry} (h : processEntry ctx tx input st entry = .ok st') :
    st'.inputTotal = st.inputTotal + entry.value ∧ st'.inputTotal ≤ maxMoney ∧
      st'.block.created = st.block.created ∧ st'.block.spent = st.block.spent ∧
      st'.block.sameBlockSpent = st.block.sameBlockSpent ∧ st'.block.totalFees = st.block.totalFees ∧
      st'.transactionSpent = st.transactionSpent ∧
      st'.block.spentEntries = st.block.spentEntries ++
        if ctx.rules.retainSpentEntries then [(input.previousOutput, entry)] else [] := by
  unfold processEntry at h
  obtain ⟨_, h⟩ := guard_ok h
  obtain ⟨_, _, h⟩ := bind_ok h
  obtain ⟨total, added, h⟩ := bind_ok h
  obtain ⟨inRange, h⟩ := guard_ok h
  cases h
  refine ⟨(addU64_some.mp (okOr_ok.mp added)).1, Nat.le_of_not_lt inRange, rfl, rfl, rfl, rfl, rfl, ?_⟩
  dsimp only
  split <;> simp

theorem processInput_ok (h : processInput ctx utxos tx txid st input = .ok st') :
    ∃ entry, (st.block.created.lookup input.previousOutput).or (utxos.lookup input.previousOutput) = some entry ∧
      input.previousOutput ∉ st.block.spent ∧
      st'.inputTotal = st.inputTotal + entry.value ∧ st'.inputTotal ≤ maxMoney ∧
      st'.block.created = st.block.created.erase input.previousOutput ∧
      st'.block.spent = insert input.previousOutput st.block.spent ∧
      st'.block.sameBlockSpent = (if st.block.created.lookup input.previousOutput = none then st.block.sameBlockSpent
        else insert input.previousOutput st.block.sameBlockSpent) ∧
      st'.block.totalFees = st.block.totalFees ∧
      st'.block.spentEntries = st.block.spentEntries ++
        if ctx.rules.retainSpentEntries then [(input.previousOutput, entry)] else [] := by
  unfold processInput at h
  obtain ⟨_, h⟩ := guard_ok h
  obtain ⟨unspent, h⟩ := guard_ok h
  dsimp only at h
  split at h
  · rename_i entry found
    obtain ⟨total, bound, created, spent, sameBlock, fees, -, entries⟩ := processEntry_ok h
    refine ⟨entry, by rw [found, Option.some_or], unspent, total, bound, created, spent, ?_, fees, entries⟩
    rw [sameBlock, if_neg (by rw [found]; simp)]
  · rename_i absent
    obtain ⟨entry, found, h⟩ := bind_ok h
    obtain ⟨total, bound, created, spent, sameBlock, fees, -, entries⟩ := processEntry_ok h
    refine ⟨entry, by rw [absent, Option.none_or]; exact okOr_ok.mp found, unspent, total, bound, ?_, spent, ?_, fees,
      entries⟩
    · rw [created, erase_absent _ _ absent]
    · rw [sameBlock, if_pos absent]

/-- The state of the input loop after some inputs, and the coins they resolved to. -/
structure InputsResolved (ctx : BlockContext) (utxos : UtxoMap) (before : BlockProgress) (passed : List TxIn)
    (coins : List (OutPoint × UtxoEntry)) (st : InputProgress) : Prop where
  outpoints : keys coins = passed.map (·.previousOutput)
  distinct : (keys coins).Nodup
  unspent : ∀ o ∈ keys coins, o ∉ before.spent
  resolved : ∀ coin ∈ coins, (before.created.lookup coin.1).or (utxos.lookup coin.1) = some coin.2
  created : st.block.created = eraseAll before.created (keys coins)
  spent : ∀ o, o ∈ st.block.spent ↔ o ∈ before.spent ∨ o ∈ keys coins
  sameBlock : ∀ o, o ∈ st.block.sameBlockSpent ↔
    o ∈ before.sameBlockSpent ∨ (o ∈ keys coins ∧ before.created.lookup o ≠ none)
  entries : st.block.spentEntries = before.spentEntries ++ if ctx.rules.retainSpentEntries then coins else []
  fees : st.block.totalFees = before.totalFees
  total : st.inputTotal = coinTotal coins
  bound : st.inputTotal ≤ maxMoney

theorem processInput_resolved {passed : List TxIn} {coins : List (OutPoint × UtxoEntry)}
    (holds : InputsResolved ctx utxos before passed coins st)
    (h : processInput ctx utxos tx txid st input = .ok st') :
    ∃ entry, InputsResolved ctx utxos before (passed ++ [input]) (coins ++ [(input.previousOutput, entry)]) st' := by
  obtain ⟨entry, found, unspent, total, bound, created, spent, sameBlock, fees, entries⟩ := processInput_ok h
  have new : input.previousOutput ∉ keys coins := fun old => unspent ((holds.spent _).mpr (.inr old))
  have untouched : st.block.created.lookup input.previousOutput = before.created.lookup input.previousOutput := by
    rw [holds.created, lookup_eraseAll, if_neg new]
  refine ⟨entry, ?_, ?_, ?_, ?_, ?_, ?_, ?_, ?_, ?_, ?_, bound⟩
  · simp [keys, ← holds.outpoints]
  · rw [keys, map_append, nodup_append]
    exact ⟨holds.distinct, by simp, by simpa using fun a b member => fun same => new (by simpa [← same] using ⟨b, member⟩)⟩
  · intro o member
    rw [keys, map_append, mem_append] at member
    rcases member with old | here
    · exact holds.unspent o old
    · rw [mem_singleton.mp here]
      exact fun already => unspent ((holds.spent _).mpr (.inl already))
  · intro coin member
    rcases mem_append.mp member with old | here
    · exact holds.resolved coin old
    · rw [mem_singleton.mp here, ← untouched]
      exact found
  · rw [created, holds.created]
    simp only [keys, map_append, eraseAll_append]
    rfl
  · intro o
    rw [spent, Finset.mem_insert, holds.spent o]
    simp only [keys, map_append, mem_append, map_cons, map_nil, mem_singleton]
    tauto
  · intro o
    rw [sameBlock, untouched]
    simp only [keys, map_append, mem_append, map_cons, map_nil, mem_singleton]
    by_cases absent : before.created.lookup input.previousOutput = none
    · rw [if_pos absent, holds.sameBlock o]
      constructor
      · rintro (old | ⟨member, present⟩)
        · exact .inl old
        · exact .inr ⟨.inl member, present⟩
      · rintro (old | ⟨member | rfl, present⟩)
        · exact .inl old
        · exact .inr ⟨member, present⟩
        · exact absurd absent present
    · rw [if_neg absent, Finset.mem_insert, holds.sameBlock o]
      constructor
      · rintro (rfl | old | ⟨member, present⟩)
        · exact .inr ⟨.inr rfl, absent⟩
        · exact .inl old
        · exact .inr ⟨.inl member, present⟩
      · rintro (old | ⟨member | rfl, present⟩)
        · exact .inr (.inl old)
        · exact .inr (.inr ⟨member, present⟩)
        · exact .inl rfl
  · rw [entries, holds.entries]
    split <;> simp
  · rw [fees, holds.fees]
  · rw [total, holds.total]
    simp [coinTotal]

theorem inputs_resolved {sigopCost : ℕ} {inputs : List TxIn}
    (h : inputs.foldlM (processInput ctx utxos tx txid) ⟨∅, 0, [], [], sigopCost, before⟩ = .ok st) :
    ∃ coins, InputsResolved ctx utxos before inputs coins st := by
  refine foldlM_invariant (fun passed st => ∃ coins, InputsResolved ctx utxos before passed coins st) ?_ h ?_
  · rintro passed st input st' ⟨coins, holds⟩ run
    obtain ⟨entry, next⟩ := processInput_resolved holds run
    exact ⟨_, next⟩
  · exact ⟨[], by constructor <;> simp⟩

theorem addOutputs_created (ctx : BlockContext) (txid : Txid) (outputs : List TxOut) (st : BlockProgress) :
    let st' := outputs.zipIdx.foldl (addOutput ctx txid) st
    st'.created = insertAll st.created (spendableOutputs txid outputs ctx.height ctx.medianTimePast false) ∧
      st'.spent = st.spent ∧ st'.sameBlockSpent = st.sameBlockSpent ∧ st'.spentEntries = st.spentEntries ∧
      st'.totalFees = st.totalFees := by
  have general : ∀ (indexed : List (TxOut × ℕ)) (st : BlockProgress),
      let st' := indexed.foldl (addOutput ctx txid) st
      st'.created = insertAll st.created (indexed.filterMap fun (output, index) =>
        if isUnspendableScript output.scriptPubkey then none
        else some ((⟨txid, index⟩ : OutPoint), coinOf output ctx.height ctx.medianTimePast false)) ∧
      st'.spent = st.spent ∧ st'.sameBlockSpent = st.sameBlockSpent ∧ st'.spentEntries = st.spentEntries ∧
      st'.totalFees = st.totalFees := by
    intro indexed
    induction indexed with
    | nil => intro st; exact ⟨rfl, rfl, rfl, rfl, rfl⟩
    | cons head indexed ih =>
      intro st
      obtain ⟨output, index⟩ := head
      obtain ⟨created, spent, sameBlock, entries, fees⟩ := ih (addOutput ctx txid st (output, index))
      simp only [foldl_cons, filterMap_cons]
      rw [created, spent, sameBlock, entries, fees]
      by_cases unspendable : isUnspendableScript output.scriptPubkey <;> simp [addOutput, unspendable]
  exact general outputs.zipIdx st

/-- The ledger entry of an accepted transaction: the coins it spends and those it creates. -/
structure EntryOf (ctx : BlockContext) (identified : Transaction × Txid) (e : Entry OutPoint UtxoEntry) : Prop where
  spends : keys e.spends = identified.1.prevouts
  creates : e.creates = spendableOutputs identified.2 identified.1.output ctx.height ctx.medianTimePast false
  covered : identified.1.outputTotal ≤ coinTotal e.spends
  bound : coinTotal e.spends ≤ maxMoney

/-- The state of the transaction loop after some transactions, and their ledger. -/
structure TransactionsResolved (ctx : BlockContext) (utxos : UtxoMap) (passed : List (Transaction × Txid))
    (ledger : List (Entry OutPoint UtxoEntry)) (st : BlockProgress) : Prop where
  shape : List.Forall₂ (EntryOf ctx) passed ledger
  valid : Valid utxos ledger
  created : ∀ o, o ∉ keys (spends ledger) → st.created.lookup o = lastWrite (creates ledger) o
  spent : ∀ o, o ∈ st.spent ↔ o ∈ keys (spends ledger)
  sameBlock : ∀ o, o ∈ st.sameBlockSpent ↔
    ∃ before e after, ledger = before ++ e :: after ∧ o ∈ keys e.spends ∧ lastWrite (creates before) o ≠ none
  entries : st.spentEntries = if ctx.rules.retainSpentEntries then spends ledger else []
  fees : st.totalFees + (passed.map fun identified => identified.1.outputTotal).sum = coinTotal (spends ledger)
  bound : st.totalFees ≤ maxMoney

variable [Library]

theorem processTransaction_ok {st st' : BlockProgress} (h : processTransaction ctx utxos st (tx, txid) = .ok st') :
    ∃ coins inputs, InputsResolved ctx utxos st tx.input coins inputs ∧ tx.outputTotal ≤ coinTotal coins ∧
      st'.totalFees = st.totalFees + (coinTotal coins - tx.outputTotal) ∧ st'.totalFees ≤ maxMoney ∧
      st'.created = insertAll (eraseAll st.created (keys coins))
        (spendableOutputs txid tx.output ctx.height ctx.medianTimePast false) ∧
      st'.spent = inputs.block.spent ∧ st'.sameBlockSpent = inputs.block.sameBlockSpent ∧
      st'.spentEntries = inputs.block.spentEntries := by
  unfold processTransaction at h
  obtain ⟨_, _, h⟩ := bind_ok h
  obtain ⟨_, _, h⟩ := bind_ok h
  obtain ⟨inputs, loop, h⟩ := bind_ok h
  obtain ⟨_, _, h⟩ := bind_ok h
  obtain ⟨_, h⟩ := guard_ok h
  obtain ⟨outputTotal, summed, h⟩ := bind_ok h
  obtain ⟨covered, h⟩ := guard_ok h
  obtain ⟨totalFees, added, h⟩ := bind_ok h
  obtain ⟨inRange, h⟩ := guard_ok h
  obtain ⟨coins, resolved⟩ := inputs_resolved loop
  have outputs := sumU64_some (okOr_ok.mp summed)
  have fees := (addU64_some.mp (okOr_ok.mp added)).1
  rw [resolved.fees, resolved.total] at fees
  rw [resolved.total] at covered
  cases h
  obtain ⟨created, spent, sameBlock, entries, feesKept⟩ := addOutputs_created ctx txid tx.output { inputs.block with
    totalFees
    sigopCost := inputs.block.sigopCost + if ctx.borrowPrevouts then inputs.txSigopCost
      else transactionSigopCost tx inputs.previousOutputs ctx.sigopFlags
    scriptJobs := if ctx.rules.skipScriptChecks then inputs.block.scriptJobs
      else inputs.block.scriptJobs ++ [⟨tx, inputs.previousOutputs⟩] }
  refine ⟨coins, inputs, resolved, ?_, ?_, ?_, ?_, spent, sameBlock, entries⟩
  · rw [Transaction.outputTotal, ← outputs]
    exact Nat.le_of_not_lt covered
  · rw [feesKept, fees, Transaction.outputTotal, outputs]
  · rw [feesKept]
    exact Nat.le_of_not_lt inRange
  · rw [created, resolved.created]

theorem processTransaction_resolved {passed : List (Transaction × Txid)}
    {ledger : List (Entry OutPoint UtxoEntry)} {st st' : BlockProgress} {identified : Transaction × Txid}
    (holds : TransactionsResolved ctx utxos passed ledger st)
    (h : processTransaction ctx utxos st identified = .ok st') :
    ∃ e, TransactionsResolved ctx utxos (passed ++ [identified]) (ledger ++ [e]) st' := by
  obtain ⟨tx, txid⟩ := identified
  obtain ⟨coins, inputs, resolved, covered, fees, bound, created, spent, sameBlock, entries⟩ := processTransaction_ok h
  let e : Entry OutPoint UtxoEntry := ⟨coins, spendableOutputs txid tx.output ctx.height ctx.medianTimePast false⟩
  have unspent : ∀ o ∈ keys coins, o ∉ keys (spends ledger) :=
    fun o member old => resolved.unspent o member ((holds.spent o).mpr old)
  have spentKeys : ∀ o, o ∈ keys (spends (ledger ++ [e])) ↔ o ∈ keys (spends ledger) ∨ o ∈ keys coins := by
    intro o
    simp [keys, spends, e]
  refine ⟨e, ?_, ?_, ?_, ?_, ?_, ?_, ?_, bound⟩
  · refine rel_append holds.shape (List.Forall₂.cons ?_ List.Forall₂.nil)
    exact ⟨resolved.outpoints, rfl, covered, resolved.total ▸ resolved.bound⟩
  · refine holds.valid.snoc resolved.distinct unspent ?_
    intro coin member
    have known := resolved.resolved coin member
    rwa [holds.created coin.1 (unspent coin.1 (mem_map_of_mem member))] at known
  · intro o left
    rw [spentKeys, not_or] at left
    rw [created, lookup_insertAll, lookup_eraseAll, if_neg left.2, holds.created o left.1, creates_append,
      lastWrite_append]
    simp [creates, e]
  · intro o
    rw [spent, resolved.spent o, holds.spent o, spentKeys]
  · intro o
    rw [sameBlock, resolved.sameBlock o, holds.sameBlock o]
    constructor
    · rintro (⟨before, x, after, rfl, member, present⟩ | ⟨member, present⟩)
      · exact ⟨before, x, after ++ [e], by simp, member, present⟩
      · refine ⟨ledger, e, [], rfl, member, ?_⟩
        rwa [← holds.created o (unspent o member)]
    · rintro ⟨before, x, after, split, member, present⟩
      rcases snoc_split split with ⟨rfl, rfl⟩ | ⟨front, rfl⟩
      · refine .inr ⟨member, ?_⟩
        rwa [holds.created o (unspent o member)]
      · exact .inl ⟨before, x, front, rfl, member, present⟩
  · rw [entries, resolved.entries, holds.entries]
    split <;> simp [spends, e]
  · have before := holds.fees
    rw [fees, map_append, sum_append]
    simp only [coinTotal, totalOf_append, map_cons, map_nil, sum_cons, sum_nil, spends_append,
      spends_cons, spends_nil, append_nil, e] at before covered ⊢
    omega

/-- What the validator found out about a block it accepted. -/
structure BlockResolved (rules : BlockRules) (block : Block) (height : ℕ) (utxos : UtxoMap) (medianTimePast : ℕ)
    (coinbase : Transaction) (rest : List Transaction) (ledger : List (Entry OutPoint UtxoEntry))
    (application : BlockApplication) : Prop where
  txdata : block.txdata = coinbase :: rest
  shape : List.Forall₂ (fun tx => EntryOf (blockContext rules block height medianTimePast) (tx, tx.computeTxid)) rest ledger
  valid : Valid utxos ledger
  created : ∀ o, o ∉ keys (spends ledger) → application.createdEntries.lookup o = lastWrite (creates ledger) o
  spent : ∀ o, o ∈ application.spentOutpoints ↔ o ∈ keys (spends ledger)
  sameBlock : ∀ o, o ∈ application.sameBlockSpent ↔
    ∃ before e after, ledger = before ++ e :: after ∧ o ∈ keys e.spends ∧ lastWrite (creates before) o ≠ none
  entries : application.spentEntries = if rules.retainSpentEntries then spends ledger else []
  fees : ∃ totalFees, totalFees + (rest.map Transaction.outputTotal).sum = coinTotal (spends ledger) ∧
    totalFees ≤ maxMoney ∧ coinbase.outputTotal ≤ blockSubsidyForNetwork rules.params.network height + totalFees
  bip30 : rules.enforceBip30 = true → ∀ tx ∈ block.txdata, ∀ o ∈ tx.outpoints, utxos.lookup o = none

theorem validateBip30_ok {u : Unit} (h : validateBip30 block block.txids utxos = .ok u) :
    ∀ tx ∈ block.txdata, ∀ o ∈ tx.outpoints, utxos.lookup o = none := by
  unfold validateBip30 at h
  split at h
  · cases h
  · rename_i none
    intro tx member o created
    obtain ⟨vout, inside, rfl⟩ := mem_map.mp created
    have paired : (tx, tx.computeTxid) ∈ block.txdata.zip block.txids := by
      rw [Block.txids, zip_map_right, mem_map]
      exact ⟨(tx, tx), by simpa [zip_eq_zipWith, zipWith_self] using member, rfl⟩
    have absent := find?_eq_none.mp none _ paired
    simp only [any_eq_true, not_exists, not_and] at absent
    simpa using absent vout inside

theorem validateBip30_accept (absent : ∀ tx ∈ block.txdata, ∀ o ∈ tx.outpoints, utxos.lookup o = none) :
    validateBip30 block block.txids utxos = .ok () := by
  unfold validateBip30
  rw [find?_eq_none.mpr]
  rintro ⟨tx, txid⟩ paired
  rw [Block.txids, zip_map_right] at paired
  obtain ⟨⟨first, second⟩, both, same⟩ := mem_map.mp paired
  have equal : first = second := by
    rw [zip_eq_zipWith, zipWith_self] at both
    obtain ⟨_, _, pair⟩ := mem_map.mp both
    cases pair
    rfl
  cases same
  subst equal
  simp only [any_eq_true, not_exists, not_and, Bool.not_eq_true, Option.isSome_eq_false_iff, Option.isNone_iff_eq_none]
  intro vout inside
  exact absent first (of_mem_zip both).1 _ (mem_map.mpr ⟨vout, inside, rfl⟩)

theorem validateBlockTransactions_ok {rules : BlockRules} {height : ℕ}
    {medianTimePast : ℕ} {application : BlockApplication}
    (h : validateBlockTransactions rules block block.txids height utxos medianTimePast = .ok application) :
    ∃ coinbase rest ledger,
      BlockResolved rules block height utxos medianTimePast coinbase rest ledger application := by
  unfold validateBlockTransactions at h
  obtain ⟨_, h⟩ := guard_ok h
  obtain ⟨_, _, h⟩ := bind_ok h
  obtain ⟨_, bip30, h⟩ := bind_ok h
  obtain ⟨coinbase, head, h⟩ := bind_ok h
  obtain ⟨_, _, h⟩ := bind_ok h
  obtain ⟨_, _, h⟩ := bind_ok h
  obtain ⟨_, h⟩ := guard_ok h
  obtain ⟨done, loop, h⟩ := bind_ok h
  obtain ⟨_, _, h⟩ := bind_ok h
  obtain ⟨_, _, h⟩ := bind_ok h
  obtain ⟨allowed, reward, h⟩ := bind_ok h
  obtain ⟨actual, summed, h⟩ := bind_ok h
  obtain ⟨paid, h⟩ := guard_ok h
  obtain ⟨rest, txdata⟩ : ∃ rest, block.txdata = coinbase :: rest := head?_eq_some_iff.mp (okOr_ok.mp head)
  have identified : (block.txdata.zip block.txids).drop 1 = rest.map fun tx => (tx, tx.computeTxid) := by
    rw [Block.txids, txdata, map_cons, zip_cons_cons, drop_one, tail_cons, zip_map_right]
    simp [zip_eq_zipWith, zipWith_self]
  rw [identified] at loop
  obtain ⟨ledger, resolved⟩ := foldlM_invariant
    (fun passed st => ∃ ledger, TransactionsResolved (blockContext rules block height medianTimePast) utxos passed ledger st)
    (fun passed st x st' before run => by
      obtain ⟨ledger, holds⟩ := before
      obtain ⟨e, next⟩ := processTransaction_resolved holds run
      exact ⟨ledger ++ [e], next⟩)
    loop ⟨[], ⟨List.Forall₂.nil, Valid.nil utxos, by simp [lastWrite], by simp, by simp, by simp, by simp, Nat.zero_le _⟩⟩
  cases h
  refine ⟨coinbase, rest, ledger, txdata, ?_, resolved.valid, resolved.created, resolved.spent, resolved.sameBlock,
    resolved.entries, ⟨done.totalFees, ?_, resolved.bound, ?_⟩, ?_⟩
  · exact forall₂_map_left_iff.mp resolved.shape
  · have fees := resolved.fees
    rw [map_map] at fees
    exact fees
  · rw [Transaction.outputTotal, ← sumU64_some (okOr_ok.mp summed), ← (addU64_some.mp (okOr_ok.mp reward)).1]
    exact Nat.le_of_not_lt paid
  · intro enforced
    rw [runIf, if_pos enforced, validation_ok] at bip30
    exact validateBip30_ok bip30

end BitcoindRs
