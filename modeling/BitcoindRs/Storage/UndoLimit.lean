import BitcoindRs.Storage.Inserted

/-! Storing the undo data of a block. -/

namespace BitcoindRs
open Result Checked Codec FMap Ledger List BlockStore

section storing
variable [Zstd] {store : BlockStore}
variable {hash : BlockHash} {undo : List (List StoredUndo)}

def storeBlockUndo [Library] (key : XorKey) (store : BlockStore) (block : Block) (spentEntries : List (OutPoint × UtxoEntry))
    (sync : Bool) : Except Error BlockStore := do
  let undo ← blockUndo block spentEntries
  let execution := store.insertUndo key block.blockHash undo sync
  execution.result
  .ok (store.run execution.steps)

/-- If the record is stored raw, it is not mistaken for a compressed one with another content. -/
def Recognised (hash : BlockHash) (undo : List (List StoredUndo)) : Prop :=
  storesRaw (encodeUndoRecord hash undo) = true →
    ∃ raw, decodeStoragePayload (encodeUndoRecord hash undo) maxStoredUndoSize = .ok raw ∧
      decodeUndoRecord raw = .ok (hash, undo)

variable (key : XorKey)

theorem insertUndo_written (sync : Bool) (absent : hash ∉ store.undo.index) {encoded : Bytes}
    (written : encodeStoragePayload (encodeUndoRecord hash undo) maxStoredUndoSize = .ok encoded) :
    (store.insertUndo key hash undo sync).result = .ok () ∧
      Inserted key store.undo (store.run (store.insertUndo key hash undo sync).steps).undo hash encoded := by
  have target : ∀ steps, (store.run steps).undo = store.undo.run (opsOf .undo steps) := fun steps => store.log_run steps .undo
  unfold insertUndo insertRecord
  rw [if_neg (show hash ∉ (store.log .undo).index from absent),
    show encodeStoragePayload (undoFormat.serialize hash undo) undoFormat.maxSize = .ok encoded from written]
  cases sync with
  | true =>
    simp only [if_true, target, opsOf_append, opsOf_on, opsOf_flushPendingIo, true_and]
    exact insertSynced_inserted key _ hash encoded
  | false =>
    simp only [Bool.false_eq_true, if_false, target, opsOf_on, true_and]
    exact insertUnsynced_inserted key _ hash encoded

theorem insertUndo_refused (sync : Bool) (absent : hash ∉ store.undo.index) {error : Error}
    (refused : encodeStoragePayload (encodeUndoRecord hash undo) maxStoredUndoSize = .error error) :
    (store.insertUndo key hash undo sync).result = .error error := by
  unfold insertUndo insertRecord
  rw [if_neg (show hash ∉ (store.log .undo).index from absent),
    show encodeStoragePayload (undoFormat.serialize hash undo) undoFormat.maxSize = .error error from refused]

theorem insertUndo_getUndo (sync : Bool) (hashFits : hash < 256 ^ 32)
    (fits : ∀ coins ∈ undo, ∀ coin ∈ coins, coin.Fits) (aligned : store.undo.Aligned) (absent : hash ∉ store.undo.index) :
    ((store.insertUndo key hash undo sync).result = .ok () ∧
      (store.run (store.insertUndo key hash undo sync).steps).getUndo key hash = .ok (some undo)) ↔
      (encodeUndoRecord hash undo).length ≤ maxStoredUndoSize ∧ Recognised hash undo := by
  have positive : encodeUndoRecord hash undo ≠ [] :=
    ne_nil_of_length_pos (by rw [length_encodeUndoRecord]; omega)
  rcases written : encodeStoragePayload (encodeUndoRecord hash undo) maxStoredUndoSize with error | encoded
  · rw [insertUndo_refused key sync absent written]
    constructor
    · rintro ⟨failed, -⟩
      cases failed
    · rintro ⟨limit, -⟩
      obtain ⟨encoded, accepted⟩ := encodeStoragePayload_exists (show maxStoredUndoSize < 2 ^ 32 by decide) limit
      rw [accepted] at written
      cases written
  · obtain ⟨limit, shorter, nonempty, back, raw⟩ := encodeStoragePayload_ok written
    obtain ⟨stored, inserted⟩ := insertUndo_written key sync absent written
    rw [stored, getUndo,
      inserted.get undoFormat aligned (nonempty positive) (Nat.le_trans shorter limit) undo]
    constructor
    · rintro ⟨-, read⟩
      refine ⟨limit, fun unpacked => ?_⟩
      rwa [raw unpacked] at read
    · rintro ⟨-, recognised⟩
      refine ⟨rfl, ?_⟩
      by_cases unpacked : storesRaw (encodeUndoRecord hash undo) = true
      · rw [raw unpacked]
        exact recognised unpacked
      · have unchanged := back fun packed => absurd packed unpacked
        exact ⟨_, unchanged, decodeUndoRecord_encode hashFits fits limit⟩

theorem insertUndo_present (undo : List (List StoredUndo)) (sync : Bool) (present : hash ∈ store.undo.index) :
    (store.insertUndo key hash undo sync).result = .ok () ∧
      store.run (store.insertUndo key hash undo sync).steps = store := by
  unfold insertUndo insertRecord
  rw [if_pos (show hash ∈ (store.log .undo).index from present)]
  exact ⟨rfl, rfl⟩

/-- For every block that passes validation: its undo data is stored and returned exactly if the store has it already, or
its record has at most four mebibytes. -/
theorem storeBlockUndo_getUndo [Library] {rules : BlockRules} {block : Block} {height medianTimePast : ℕ} {utxos : UtxoMap}
    {application : BlockApplication} (sync : Bool)
    (accepted : validateBlockTransactions rules block block.txids height utxos medianTimePast = .ok application)
    (retains : rules.retainSpentEntries = true) (hashFits : block.blockHash < 256 ^ 32)
    (fits : ∀ spent ∈ application.spentEntries, spent.2.Fits) (aligned : store.undo.Aligned) :
    ∃ undo, blockUndo block application.spentEntries = .ok undo ∧
      undo.flatten = application.spentEntries.map Prod.snd ∧
      undo.map List.length = 0 :: (block.txdata.drop 1).map (·.input.length) ∧
      ((∃ stored, storeBlockUndo key store block application.spentEntries sync = .ok stored ∧
          stored.getUndo key block.blockHash = .ok (some undo)) ↔
        (block.blockHash ∈ store.undo.index → store.getUndo key block.blockHash = .ok (some undo)) ∧
        (block.blockHash ∉ store.undo.index →
          (encodeUndoRecord block.blockHash undo).length ≤ maxStoredUndoSize ∧ Recognised block.blockHash undo)) := by
  obtain ⟨coinbase, rest, ledger, resolved⟩ := validateBlockTransactions_ok accepted
  have entries : application.spentEntries = spends ledger := by rw [resolved.entries, if_pos retains]
  obtain ⟨coins, counts⟩ := resolved.undo_coins
  let undo := ([] : List StoredUndo) :: ledger.map fun e => e.spends.map Prod.snd
  have built : blockUndo block application.spentEntries = .ok undo := by rw [entries, resolved.undo]
  refine ⟨undo, built, by rw [entries]; exact coins, ?_, ?_⟩
  · rw [resolved.txdata, drop_one, tail_cons, ← counts]
    rfl
  have undoFits : ∀ group ∈ undo, ∀ coin ∈ group, coin.Fits := by
    intro group member coin inside
    have listed : coin ∈ undo.flatten := mem_flatten.mpr ⟨group, member, inside⟩
    rw [show undo.flatten = _ from coins, ← entries] at listed
    obtain ⟨spent, present, rfl⟩ := mem_map.mp listed
    exact fits spent present
  have stores : (∃ stored, storeBlockUndo key store block application.spentEntries sync = .ok stored ∧
      stored.getUndo key block.blockHash = .ok (some undo)) ↔
      (store.insertUndo key block.blockHash undo sync).result = .ok () ∧
        (store.run (store.insertUndo key block.blockHash undo sync).steps).getUndo key block.blockHash = .ok (some undo) := by
    unfold storeBlockUndo
    rw [built, ok_bind]
    constructor
    · rintro ⟨stored, run, got⟩
      obtain ⟨_, result, run⟩ := bind_ok run
      cases run
      exact ⟨result, got⟩
    · rintro ⟨result, got⟩
      exact ⟨_, bind_pass result rfl, got⟩
  rw [stores]
  by_cases present : block.blockHash ∈ store.undo.index
  · obtain ⟨result, unchanged⟩ := insertUndo_present key undo sync present
    rw [result, unchanged]
    simp only [true_and, present, not_true_eq_false, false_implies, and_true, forall_const]
  · rw [insertUndo_getUndo key sync hashFits undoFits aligned present]
    simp only [present, false_implies, not_false_eq_true, forall_const, true_and]

end storing

/-! ### A block whose undo record is stored -/

section narrow
local instance : Library := Library.sample
local instance : Zstd := Zstd.sample

def narrowCoin : UtxoEntry := ⟨⟨3, [0x51]⟩, 1, 1, false⟩

def narrowUtxos : UtxoMap := insertAll ∅ [(⟨7, 0⟩, narrowCoin)]

def narrowBlock : Block := sampleBlock 2 [sampleCoinbase 2 5000000000, sampleSpend 10 [⟨7, 0⟩] [2]]

theorem storeBlockUndo_getUndo_narrow : ∃ application undo stored,
    validateBlockTransactions sampleRules narrowBlock narrowBlock.txids 2 narrowUtxos 1 = .ok application ∧
      blockUndo narrowBlock application.spentEntries = .ok undo ∧
      storeBlockUndo sampleKey .fresh narrowBlock application.spentEntries false = .ok stored ∧
      stored.getUndo sampleKey narrowBlock.blockHash = .ok (some undo) := by
  obtain ⟨application, accepted, facts⟩ := exists_okAnd (show okAnd (validateBlockTransactions sampleRules narrowBlock
    narrowBlock.txids 2 narrowUtxos 1) (fun application => decide (application.spentEntries = [(⟨7, 0⟩, narrowCoin)])) = true
      by decide +kernel)
  have entries : application.spentEntries = [(⟨7, 0⟩, narrowCoin)] := of_decide_eq_true facts
  have coinFits : narrowCoin.Fits := ⟨by decide, by decide, by decide, by decide⟩
  obtain ⟨undo, built, -, -, stores⟩ := storeBlockUndo_getUndo sampleKey false accepted rfl (by decide)
    (by rw [entries]; simpa using coinFits) (show fresh.undo.Aligned from rfl)
  obtain rfl : undo = [[], [narrowCoin]] := by
    rw [entries] at built
    exact Except.ok.inj (built.symm.trans (by decide +kernel))
  have limit : (encodeUndoRecord narrowBlock.blockHash [[], [narrowCoin]]).length ≤ maxStoredUndoSize := by decide +kernel
  have recognised : Recognised narrowBlock.blockHash [[], [narrowCoin]] := fun raw =>
    ⟨_, readsBack_of_unmarked limit (by decide +kernel) raw,
      decodeUndoRecord_encode (by decide) (by simpa using coinFits) limit⟩
  obtain ⟨stored, done, got⟩ := stores.mpr
    ⟨fun present => absurd present Finmap.notMem_empty, fun _ => ⟨limit, recognised⟩⟩
  exact ⟨application, _, stored, accepted, built, done, got⟩

end narrow

/-! ### A block whose undo record is refused -/

theorem transactionInputSigopCost_long {input : TxIn} {out : TxOut} (long : 42 < out.scriptPubkey.length) (flags : ℕ) :
    transactionInputSigopCost input out flags = 0 := by
  have notP2sh : Script.isP2sh out.scriptPubkey = false := by
    simp only [Script.isP2sh, Bool.and_eq_false_iff, beq_eq_false_iff_ne]
    exact .inl (.inl (.inl (by omega)))
  have notProgram : Script.isWitnessProgram out.scriptPubkey = false := by
    unfold Script.isWitnessProgram
    split
    · simp only [Bool.and_eq_false_iff, decide_eq_false_iff_not]
      exact .inl (.inl (.inl (.inl (.inr (by omega)))))
    · rfl
  simp [transactionInputSigopCost, redeemScript, notP2sh, notProgram]

/-- What the input loop has done after spending coins that are all alike. -/
structure SpentAlike (coin : UtxoEntry) (before : BlockProgress) (passed : List TxIn) (st : InputProgress) : Prop where
  transactionSpent : ∀ o ∈ st.transactionSpent, o ∈ passed.map (·.previousOutput)
  spent : ∀ o ∈ st.block.spent, o ∈ passed.map (·.previousOutput)
  created : st.block.created = ∅
  inputTotal : st.inputTotal = passed.length * coin.value
  previousOutputs : st.previousOutputs = List.replicate passed.length coin.output
  fees : st.block.totalFees = before.totalFees
  sigops : st.block.sigopCost = before.sigopCost

theorem processInputs_accept (ctx : BlockContext) {utxos : UtxoMap} (tx : Transaction) (txid : Txid) {coin : UtxoEntry}
    (before : BlockProgress) (checks : ctx.rules.skipScriptChecks = false) (spendable : coin.coinbase = false)
    {inputs : List TxIn} {st : InputProgress} (start : SpentAlike coin before [] st)
    (distinct : (inputs.map (·.previousOutput)).Nodup)
    (available : ∀ input ∈ inputs, utxos.lookup input.previousOutput = some coin ∧ input.sequence.testBit 31 = true)
    (money : inputs.length * coin.value ≤ maxMoney) :
    ∃ st', inputs.foldlM (processInput ctx utxos tx txid) st = .ok st' ∧ SpentAlike coin before inputs st' := by
  have keeps : ctx.borrowPrevouts = false := by simp [BlockContext.borrowPrevouts, checks]
  refine foldlM_succeeds (SpentAlike coin before) ?_ start
  intro passed input st part alike
  obtain ⟨found, relative⟩ := available input (part.subset (by simp))
  have fresh : input.previousOutput ∉ passed.map (·.previousOutput) := by
    have apart := distinct.sublist (part.sublist.map _)
    rw [map_append, nodup_append] at apart
    exact fun member => apart.2.2 _ member _ mem_cons_self rfl
  have spends : st.inputTotal + coin.value = (passed ++ [input]).length * coin.value := by
    rw [alike.inputTotal, length_append, length_singleton, Nat.succ_mul]
  have total : st.inputTotal + coin.value ≤ maxMoney := spends ▸ (Nat.mul_le_mul_right _ part.length_le).trans money
  unfold processInput
  dsimp only
  rw [bailIf_neg fun member => fresh (alike.transactionSpent _ member), ok_bind,
    bailIf_neg fun member => fresh (alike.spent _ member), ok_bind]
  rw [alike.created, lookup_empty', found]
  dsimp only [okOr]
  rw [ok_bind, processEntry, bailIf_neg (by simp [spendable]), ok_bind, validateTransactionSequenceLockInput, relative]
  simp only [Bool.or_true, if_true]
  rw [addU64_eq (total.trans_lt (by decide)), keeps]
  dsimp only [validation, Except.mapError, okOr]
  rw [ok_bind, ok_bind, bailIf_neg (Nat.not_lt.mpr total), ok_bind]
  have joins : ∀ {outs : Finset OutPoint}, (∀ o ∈ outs, o ∈ passed.map (·.previousOutput)) →
      ∀ o ∈ insert input.previousOutput outs, o ∈ (passed ++ [input]).map (·.previousOutput) := by
    intro outs inside o member
    rcases Finset.mem_insert.mp member with rfl | member
    · simp
    · simp [inside o member]
  refine ⟨_, rfl, ⟨joins alike.transactionSpent, joins alike.spent, rfl, spends, ?_, alike.fees, alike.sigops⟩⟩
  show st.previousOutputs ++ [coin.output] = _
  rw [alike.previousOutputs, length_append, length_singleton, replicate_succ']

def wideScript : Script :=
  (List.replicate 19 (0x4d :: 0x08 :: 0x02 :: List.replicate 520 0 ++ [0x75])).flatten ++
    0x29 :: List.replicate 41 0 ++ [0x75, 0x51]

theorem length_wideScript : wideScript.length = 10000 := by
  simp only [wideScript, length_append, length_flatten, map_replicate, sum_replicate, length_cons,
    length_replicate, length_nil, smul_eq_mul]

def wideCoin : UtxoEntry := ⟨⟨1, wideScript⟩, 1, 1, false⟩

def wideOutpoints : List OutPoint := (List.range 419).map (⟨7, ·⟩)

def wideUtxos : UtxoMap := insertAll ∅ (wideOutpoints.map (·, wideCoin))

def wideBlock : Block := sampleBlock 2 [sampleCoinbase 2 5000000000, sampleSpend 10 wideOutpoints [419]]

section wide
local instance : Library := Library.sample
local instance : Zstd := Zstd.sample

theorem nodup_wideOutpoints : wideOutpoints.Nodup :=
  nodup_range.map fun _ _ same => (OutPoint.mk.inj same).2

theorem wideUtxos_lookup (o : OutPoint) : wideUtxos.lookup o = if o ∈ wideOutpoints then some wideCoin else none := by
  rw [wideUtxos, lookup_insertAll_empty]
  split
  · rename_i member
    refine lastWrite_of_mem ?_ (mem_map.mpr ⟨o, member, rfl⟩)
    simpa [map_map, Function.comp_def] using nodup_wideOutpoints
  · rename_i absent
    rw [lastWrite_eq_none]
    simpa [map_map, Function.comp_def] using absent

def wideSpend : Transaction := sampleSpend 10 wideOutpoints [419]

theorem wideSpend_prevouts : wideSpend.prevouts = wideOutpoints := by
  simp [wideSpend, Transaction.prevouts, sampleSpend, map_map, Function.comp_def]

theorem wideSpend_structure :
    validateTransactionStructure (5000000000, 0) ((wideSpend, 1010), 1) = .ok (5000000419, 0) := by
  have distinct : wideSpend.prevouts.Nodup := by
    rw [wideSpend_prevouts]
    exact nodup_wideOutpoints
  have total : transactionOutputTotal wideSpend 1010 = .ok 419 := by decide +kernel
  refine guard_pass (by decide +kernel) (guard_pass (by decide +kernel) (guard_pass (by decide +kernel)
    (guard_pass (by decide +kernel) (bind_pass total (guard_pass (by decide +kernel) (guard_pass (not_not.mpr distinct)
      (guard_pass (by decide +kernel) (guard_pass (by decide +kernel) ?_))))))))
  decide +kernel

theorem wideBlock_loop : (wideBlock.txdata.zip wideBlock.txids).zipIdx.foldlM validateTransactionStructure (0, 0) =
      .ok (5000000419, 0) := by
  have coinbase : validateTransactionStructure (0, 0) ((sampleCoinbase 2 5000000000, 1002), 0) = .ok (5000000000, 0) := by
    decide +kernel
  show ([((sampleCoinbase 2 5000000000, 1002), 0), ((wideSpend, 1010), 1)].foldlM validateTransactionStructure (0, 0)) = _
  rw [foldlM_cons, coinbase, ok_bind, foldlM_cons, wideSpend_structure]
  rfl

theorem wideBlock_structure : ∃ stats, validateBlockStructure (.forNetwork .regtest) none wideBlock 2 = .ok stats := by
  have merkle : validateMerkleRoot wideBlock wideBlock.txids = .ok () := by decide +kernel
  have witness : validateWitnessCommitment wideBlock
      (decide ((DeploymentParameters.forNetwork .regtest).buried.segwit ≤ 2)) = .ok () := by decide +kernel
  refine ⟨⟨2, 5000000419⟩, ?_⟩
  refine bind_pass (show okOr wideBlock.txdata.head? _ = .ok (sampleCoinbase 2 5000000000) from rfl) (bind_pass rfl
    (bind_pass (runIf_pass merkle) (bind_pass (runIf_pass witness) (guard_pass (by decide +kernel) (guard_pass (by decide +kernel)
      (guard_pass (by decide +kernel) (bind_pass (a := 5000000000) rfl (bind_pass wideBlock_loop (guard_pass (by decide +kernel)
        (guard_pass (by decide +kernel) (bind_pass rfl rfl)))))))))))

theorem wideBlock_bip30 : validateBip30 wideBlock wideBlock.txids wideUtxos = .ok () := by
  refine validateBip30_accept fun tx member o created => ?_
  obtain ⟨vout, -, rfl⟩ := mem_map.mp created
  rw [wideUtxos_lookup, if_neg]
  intro spent
  obtain ⟨_, -, same⟩ := mem_map.mp spent
  have seven : 7 = 1000 + tx.lockTime := (OutPoint.mk.inj same).1
  omega

theorem wideSpend_sigops (flags : ℕ) :
    transactionSigopCost wideSpend (List.replicate 419 wideCoin.output) flags = 0 := by
  have legacy : legacySigopCostForTransaction wideSpend = 0 := by decide +kernel
  unfold transactionSigopCost
  rw [legacy, sum_eq_zero]
  · exact ite_self _
  · intro cost member
    obtain ⟨⟨input, out⟩, paired, rfl⟩ := mem_map.mp member
    have wide := eq_of_mem_replicate (of_mem_zip paired).2
    refine transactionInputSigopCost_long ?_ flags
    rw [wide, show wideCoin.output.scriptPubkey = wideScript from rfl, length_wideScript]
    decide

abbrev wideContext : BlockContext := blockContext sampleRules wideBlock 2 1

def wideStart : BlockProgress := ⟨[], ∅, ∅, ∅, 0, ⟨0, 0, 0, 0, 0, 5000000000⟩, 0, []⟩

theorem wideSpend_accept :
    ∃ st', processTransaction wideContext wideUtxos wideStart (wideSpend, 1010) = .ok st' ∧ st'.totalFees = 0 := by
  have count : wideSpend.input.length = 419 := by decide +kernel
  have prevouts : (wideSpend.input.map (·.previousOutput)) = wideOutpoints := wideSpend_prevouts
  have available : ∀ input ∈ wideSpend.input,
      wideUtxos.lookup input.previousOutput = some wideCoin ∧ input.sequence.testBit 31 = true := by
    intro input member
    refine ⟨?_, ?_⟩
    · rw [wideUtxos_lookup, if_pos (prevouts ▸ mem_map_of_mem member)]
    · obtain ⟨_, -, rfl⟩ := mem_map.mp member
      exact (by decide : (2 ^ 32 - 1).testBit 31 = true)
  obtain ⟨inputs, loop, alike⟩ := @processInputs_accept wideContext wideUtxos wideSpend 1010 wideCoin wideStart rfl rfl
    wideSpend.input ⟨∅, 0, [], [], transactionSigopCost wideSpend [] wideContext.sigopFlags, wideStart⟩
    ⟨by simp, by simp [wideStart], rfl, rfl, rfl, rfl, rfl⟩ (by rw [prevouts]; exact nodup_wideOutpoints) available
    (by rw [count]; decide)
  have value : inputs.inputTotal = 419 := by rw [alike.inputTotal, count]; rfl
  have cost : transactionSigopCost wideSpend inputs.previousOutputs wideContext.sigopFlags = 0 := by
    rw [alike.previousOutputs, count, wideSpend_sigops]
  have final : validateTransactionAbsoluteFinality wideSpend 2 wideContext.lockTimeCutoff = .ok () :=
    bailIf_neg fun locked => absurd locked.1 (by decide +kernel)
  have output : sumU64 (wideSpend.output.map (·.value)) = some 419 := by decide +kernel
  refine ⟨_, bind_pass (a := ()) rfl (bind_pass (a := ()) (validation_ok.mpr final) (bind_pass loop (bind_pass (a := ())
    rfl (guard_pass ?_ (bind_pass (okOr_ok.mpr output) (guard_pass ?_ (bind_pass (a := 0) ?_ (guard_pass ?_ rfl)))))))), ?_⟩
  · show ¬_ < inputs.block.sigopCost + transactionSigopCost wideSpend inputs.previousOutputs wideContext.sigopFlags
    rw [cost, alike.sigops]
    decide
  · rw [value]
    decide
  · rw [alike.fees, value]
    rfl
  · decide
  · rw [(addOutputs_created wideContext 1010 wideSpend.output _).2.2.2.2]

theorem wideBlock_transactions :
    ∃ application, validateBlockTransactions sampleRules wideBlock wideBlock.txids 2 wideUtxos 1 = .ok application := by
  obtain ⟨done, spent, fees⟩ := wideSpend_accept
  have loop : ((wideBlock.txdata.zip wideBlock.txids).drop 1).foldlM (processTransaction wideContext wideUtxos) wideStart =
      .ok done := by
    show [(wideSpend, 1010)].foldlM (processTransaction wideContext wideUtxos) _ = _
    rw [foldlM_cons, spent]
    rfl
  have scripts : validateScriptChecks wideContext done.scriptJobs = .ok () := forM_ok fun _ _ => rfl
  have head : okOr wideBlock.txdata.head? (Error.message "index out of bounds") = .ok (sampleCoinbase 2 5000000000) := rfl
  have sigops : transactionSigopCost (sampleCoinbase 2 5000000000) [] wideContext.sigopFlags = 0 := by decide +kernel
  unfold validateBlockTransactions
  refine ⟨⟨done.spentEntries, done.spent, done.created, done.sameBlockSpent, coinbaseMetrics
    (isBip30Unspendable .regtest 2 wideBlock.blockHash) (sampleCoinbase 2 5000000000) done.metrics⟩, ?_⟩
  refine guard_pass (by decide) (bind_pass (a := ()) rfl (bind_pass (runIf_pass (validation_ok.mpr wideBlock_bip30))
    (bind_pass head ?_)))
  refine bind_pass (a := ()) rfl (bind_pass (a := ()) rfl ?_)
  rw [sigops]
  refine guard_pass (by decide) (bind_pass loop (bind_pass (runIf_pass (validation_ok.mpr scripts)) (bind_pass (a := ()) rfl
    (bind_pass (a := 5000000000) ?_ (bind_pass (a := 5000000000) rfl (guard_pass (by decide) rfl))))))
  rw [fees]
  rfl

theorem wideUndo_length (hash : BlockHash) :
    (encodeUndoRecord hash [[], List.replicate 419 wideCoin]).length = 4198417 := by
  have coin : (encodeUndoCoin wideCoin).length = 10020 := by
    simp only [encodeUndoCoin, TxOut.serialize, wideCoin, length_append, length_leBytes, length_wideScript,
      length_compactSize, length_singleton]
    decide
  have coins : ((List.replicate 419 wideCoin).flatMap encodeUndoCoin).length = 419 * 10020 := by
    rw [length_flatMap, map_replicate, coin, sum_replicate, smul_eq_mul]
  rw [length_encodeUndoRecord, flatMap_cons, flatMap_singleton, length_append, encodeUndoCoins,
    encodeUndoCoins, length_append, length_append, coins, length_replicate]
  simp only [length_compactSize, length_cons, length_nil, flatMap_nil]
  decide

theorem wideBlock_undo {application : BlockApplication}
    (accepted : validateBlockTransactions sampleRules wideBlock wideBlock.txids 2 wideUtxos 1 = .ok application) :
    blockUndo wideBlock application.spentEntries = .ok [[], List.replicate 419 wideCoin] := by
  obtain ⟨coinbase, rest, ledger, resolved⟩ := validateBlockTransactions_ok accepted
  have entries : application.spentEntries = spends ledger := resolved.entries
  have parts : [sampleCoinbase 2 5000000000, wideSpend] = coinbase :: rest := resolved.txdata
  cases parts
  obtain ⟨e, _, entry, none, rfl⟩ := forall₂_cons_left_iff.mp resolved.shape
  cases forall₂_nil_left_iff.mp none
  have outpoints : keys e.spends = wideOutpoints := entry.spends.trans wideSpend_prevouts
  have coins : e.spends.map Prod.snd = List.replicate 419 wideCoin := by
    have count : e.spends.length = 419 := by
      rw [← length_map (f := Prod.fst), show e.spends.map Prod.fst = wideOutpoints from outpoints, wideOutpoints,
        length_map, length_range]
    refine eq_replicate_iff.mpr ⟨by rw [length_map, count], fun coin member => ?_⟩
    obtain ⟨spent, inside, rfl⟩ := mem_map.mp member
    have found : wideUtxos.lookup spent.1 = some spent.2 := resolved.valid.resolved [] e [] rfl spent inside
    rw [wideUtxos_lookup] at found
    split at found
    · exact (Option.some.inj found).symm
    · cases found
  rw [entries, resolved.undo, map_singleton, coins]

/-- A valid block whose undo record has over four mebibytes. -/
theorem storeBlockUndo_refused : ∃ stats application,
    validateBlockStructure (.forNetwork .regtest) none wideBlock 2 = .ok stats ∧
      validateBlockTransactions sampleRules wideBlock wideBlock.txids 2 wideUtxos 1 = .ok application ∧
      storeBlockUndo sampleKey .fresh wideBlock application.spentEntries true =
        .error (.message "storage payload is too large: 4198417 bytes") := by
  obtain ⟨stats, structured⟩ := wideBlock_structure
  obtain ⟨application, accepted⟩ := wideBlock_transactions
  refine ⟨stats, application, structured, accepted, ?_⟩
  have refused : encodeStoragePayload (encodeUndoRecord wideBlock.blockHash [[], List.replicate 419 wideCoin])
      maxStoredUndoSize = .error (.message "storage payload is too large: 4198417 bytes") := by
    unfold encodeStoragePayload
    rw [wideUndo_length]
    decide +kernel
  unfold storeBlockUndo
  rw [wideBlock_undo accepted, ok_bind]
  dsimp only
  rw [insertUndo_refused sampleKey true (show wideBlock.blockHash ∉ (∅ : FMap BlockHash _) from Finmap.notMem_empty) refused]
  rfl

end wide

end BitcoindRs
