import BitcoindRs.Chain.Apply

/-! Disconnecting a block with its undo record, and why this takes back exactly what connecting it did. -/

namespace BitcoindRs
open Result FMap Ledger Transaction
open List hiding keys

def displayHash (hash : ℕ) : String :=
  let digits := Nat.toDigits 16 hash
  String.ofList (List.replicate (64 - digits.length) '0' ++ digits)

def displayOutPoint (outpoint : OutPoint) : String := displayHash outpoint.txid ++ ":" ++ toString outpoint.vout

def validateUndoEntry (entry : Transaction × List StoredUndo) : Except Error Unit := do
  let spent := entry.2.length
  let inputs := entry.1.input.length
  bailIf (spent ≠ inputs) (.message
    s!"block undo contains {spent} spent outputs for transaction with {inputs} inputs")
  bailIf (entry.2.any fun coin => maxMoney < coin.output.value)
    (.message "block undo contains an output above the money range")

def validateBlockUndo (block : Block) (undo : List (List StoredUndo)) : Except Error Unit := do
  let entries := undo.length
  let transactions := block.txdata.length
  bailIf (entries ≠ transactions) (.message
    s!"block undo contains {entries} transaction entries for a block with {transactions} transactions")
  bailIf (undo.head? ≠ some []) (.message "coinbase transaction has unexpected undo outputs")
  ((block.txdata.drop 1).zip (undo.drop 1)).forM validateUndoEntry

variable [Library]

/-- One iteration of `disconnect_block_from_utxos`: drop the transaction's outputs, then restore its inputs, last
first. -/
def disconnectTransaction (undo : List (List StoredUndo)) (utxos : UtxoMap) (indexed : Transaction × ℕ) :
    Except Error UtxoMap :=
  let (tx, transactionIndex) := indexed
  let cleared := tx.outpoints.foldl (fun utxos outpoint => utxos.erase outpoint) utxos
  if transactionIndex = 0 then .ok cleared
  else do
    let spentOutputs ← okOr undo[transactionIndex]? (.message "block undo is missing a transaction entry")
    let spent := spentOutputs.length
    let inputs := tx.input.length
    bailIf (spent ≠ inputs) (.message
      s!"block undo contains {spent} spent outputs for transaction with {inputs} inputs")
    .ok ((tx.input.zip spentOutputs).reverse.foldl
      (fun utxos (input, coin) => utxos.insert input.previousOutput coin) cleared)

def disconnectBlockFromUtxos (utxos : UtxoMap) (block : Block) (undo : List (List StoredUndo)) : Except Error UtxoMap := do
  validateBlockUndo block undo
  block.txdata.zipIdx.reverse.foldlM (disconnectTransaction undo) utxos

/-- One iteration of `disconnect_block_for_verification`: every spendable output must be there, and no restored input
may be unspent already. -/
def disconnectTransactionStrict (undo : List (List StoredUndo)) (utxos : UtxoMap) (indexed : Transaction × ℕ) :
    Except Error UtxoMap := do
  let (tx, transactionIndex) := indexed
  let cleared ← tx.output.zipIdx.foldlM (fun utxos (output, outputIndex) =>
    let outpoint : OutPoint := ⟨tx.computeTxid, outputIndex⟩
    if isUnspendableScript output.scriptPubkey then .ok utxos
    else if utxos.lookup outpoint = none then
      .error (.message ("block disconnect is missing created output " ++ displayOutPoint outpoint))
    else .ok (utxos.erase outpoint)) utxos
  if transactionIndex = 0 then .ok cleared
  else (tx.input.zip (undo[transactionIndex]?.getD [])).foldlM (fun utxos (input, coin) =>
    if utxos.lookup input.previousOutput ≠ none then
      .error (.message ("block disconnect restores an already unspent output " ++ displayOutPoint input.previousOutput))
    else .ok (utxos.insert input.previousOutput coin)) cleared

def disconnectBlockForVerification (network : Network) (utxos : UtxoMap) (block : Block) (height : ℕ)
    (undo : List (List StoredUndo)) : Except Error UtxoMap := do
  validateBlockUndo block undo
  if isBip30Repeat network height block.blockHash then disconnectBlockFromUtxos utxos block undo
  else block.txdata.zipIdx.reverse.foldlM (disconnectTransactionStrict undo) utxos

/-! ### Blocks that create every outpoint once -/

/-- A transaction identifier commits to the inputs: the listed transactions have no colliding identifiers. -/
def TxidsCommit (txs : List Transaction) : Prop :=
  ∀ a ∈ txs, ∀ b ∈ txs, a.computeTxid = b.computeTxid → a.prevouts = b.prevouts

section resolved
variable {rules : BlockRules} {block : Block} {height medianTimePast : ℕ} {utxos : UtxoMap}
  {coinbase : Transaction} {rest : List Transaction} {ledger : List (Entry OutPoint UtxoEntry)}
  {application : BlockApplication}

variable (resolved : BlockResolved rules block height utxos medianTimePast coinbase rest ledger application)

include resolved in
theorem BlockResolved.prevouts : keys (spends ledger) = rest.flatMap prevouts := by
  have shape := resolved.shape
  clear resolved
  induction shape with
  | nil => rfl
  | cons head _ ih =>
    rw [spends_cons, keys, map_append, flatMap_cons, ← ih]
    congr 1
    exact head.spends

include resolved in
theorem BlockResolved.txids_nodup
    (wellFormed : block.WellFormed) (commit : TxidsCommit block.txdata) : block.txids.Nodup := by
  have inputs : ∀ tx ∈ block.txdata, tx.prevouts ≠ [] := fun tx member none =>
    (wellFormed.transactions tx member).inputs (map_eq_nil_iff.mp none)
  have distinct := resolved.valid.distinct
  rw [resolved.prevouts, nodup_flatMap] at distinct
  obtain ⟨first, others, shape, isCoinbase, notCoinbase⟩ := wellFormed.coinbase
  rw [resolved.txdata] at shape commit inputs
  cases shape
  rw [Block.txids, resolved.txdata, map_cons, nodup_cons]
  constructor
  · -- The coinbase spends the null outpoint alone, which no other transaction may do.
    intro repeated
    obtain ⟨tx, member, same⟩ := mem_map.mp repeated
    have equal := commit tx (mem_cons_of_mem _ member) coinbase mem_cons_self same
    have spends := notCoinbase tx member
    have coinbaseLike : tx.isCoinbase = coinbase.isCoinbase := by
      have lengths := congrArg List.length equal
      simp only [Transaction.prevouts, length_map] at lengths
      unfold Transaction.isCoinbase
      unfold Transaction.prevouts at equal
      rcases first : tx.input with _ | ⟨a, _ | ⟨a', as⟩⟩ <;> rcases second : coinbase.input with _ | ⟨b, _ | ⟨b', bs⟩⟩ <;> simp_all
    rw [spends, isCoinbase] at coinbaseLike
    cases coinbaseLike
  · refine pairwise_map.mpr (distinct.2.imp_of_mem ?_)
    intro a b first second disjoint same
    have equal := commit a (mem_cons_of_mem _ first) b (mem_cons_of_mem _ second) same
    obtain ⟨o, member⟩ := exists_mem_of_ne_nil _ (inputs a (mem_cons_of_mem _ first))
    exact disjoint member (equal ▸ member)

omit [Library] in
theorem spendableOutputs_keys (txid : Txid) (outputs : List TxOut) (height medianTimePast : ℕ) (coinbase : Bool) :
    (keys (spendableOutputs txid outputs height medianTimePast coinbase)).Sublist
      ((List.range outputs.length).map fun vout => ⟨txid, vout⟩) := by
  have indices : (List.range outputs.length).map (fun vout => (⟨txid, vout⟩ : OutPoint)) =
      outputs.zipIdx.map fun indexed => ⟨txid, indexed.2⟩ := by
    rw [range_eq_range', ← zipIdx_map_snd, map_map]
    rfl
  rw [indices, spendableOutputs]
  induction outputs.zipIdx with
  | nil => exact List.Sublist.slnil
  | cons head indexed ih =>
    obtain ⟨output, index⟩ := head
    rw [filterMap_cons, map_cons]
    by_cases unspendable : isUnspendableScript output.scriptPubkey
    · simp only [unspendable, if_true]
      exact ih.cons _
    · simp only [unspendable, Bool.false_eq_true, if_false]
      exact ih.cons_cons _

theorem outpoints_nodup (distinct : block.txids.Nodup) : (block.txdata.flatMap outpoints).Nodup := by
  rw [nodup_flatMap]
  constructor
  · intro tx _
    exact nodup_range.map fun a b same => by simpa using same
  · refine (pairwise_map.mp distinct).imp ?_
    intro a b different o first second
    obtain ⟨_, _, rfl⟩ := mem_map.mp first
    obtain ⟨_, _, same⟩ := mem_map.mp second
    exact different (congrArg OutPoint.txid same).symm

theorem blockCoins_keys : (keys (blockCoins block height medianTimePast)).Sublist (block.txdata.flatMap outpoints) := by
  have general : ∀ (txs : List Transaction) (start : ℕ), (keys ((txs.zipIdx start).flatMap fun (tx, index) =>
      spendableOutputs tx.computeTxid tx.output height medianTimePast (index == 0))).Sublist
      (txs.flatMap outpoints) := by
    intro txs
    induction txs with
    | nil => intro _; exact List.Sublist.slnil
    | cons tx txs ih =>
      intro start
      rw [zipIdx_cons, flatMap_cons, flatMap_cons, keys, map_append]
      exact (spendableOutputs_keys _ _ _ _ _).append (ih (start + 1))
  exact general block.txdata 0

def fullLedger (coinbase : Transaction) (height medianTimePast : ℕ) (ledger : List (Entry OutPoint UtxoEntry)) :
    List (Entry OutPoint UtxoEntry) :=
  ⟨[], spendableOutputs coinbase.computeTxid coinbase.output height medianTimePast true⟩ :: ledger

section
variable (resolved : BlockResolved rules block height utxos medianTimePast coinbase rest ledger application)
include resolved

theorem BlockResolved.fresh
    (distinct : block.txids.Nodup) (absent : ∀ tx ∈ block.txdata, ∀ o ∈ tx.outpoints, utxos.lookup o = none) :
    Fresh utxos (fullLedger coinbase height medianTimePast ledger) := by
  have same : creates (fullLedger coinbase height medianTimePast ledger) = blockCoins block height medianTimePast :=
    resolved.coins.symm
  constructor
  · rw [same]
    exact (outpoints_nodup distinct).sublist blockCoins_keys
  · intro o member
    rw [same] at member
    obtain ⟨tx, inside, created⟩ := mem_flatMap.mp (blockCoins_keys.subset member)
    exact absent tx inside o created

theorem BlockResolved.valid_full (fresh : Fresh utxos (fullLedger coinbase height medianTimePast ledger)) :
    Valid utxos (fullLedger coinbase height medianTimePast ledger) := by
  refine ⟨resolved.valid.distinct, ?_⟩
  intro before e after shape coin member
  rcases before with _ | ⟨first, before⟩
  · cases shape
    cases member
  · obtain ⟨rfl, tail⟩ := List.cons.inj shape
    replace tail : ledger = before ++ e :: after := tail
    subst tail
    have seen := resolved.valid.resolved before e after rfl coin member
    -- A spent coin is none of the coinbase's: those are neither stored nor created by another transaction.
    have other : coin.1 ∉ keys (spendableOutputs coinbase.computeTxid coinbase.output height medianTimePast true) := by
      intro minted
      have distinct := fresh.distinct
      rw [fullLedger, creates_cons, keys, map_append, nodup_append] at distinct
      have stored := fresh.absent coin.1 (by
        rw [fullLedger, creates_cons, keys, map_append]
        exact mem_append_left _ minted)
      have created : lastWrite (creates before) coin.1 = none := by
        rw [lastWrite_eq_none]
        intro again
        refine distinct.2.2 coin.1 minted coin.1 ?_ rfl
        rw [creates_append, map_append]
        exact mem_append_left _ again
      rw [visible, created, stored] at seen
      cases seen
    rw [visible, creates_cons, lastWrite_append, Option.or_assoc, lastWrite_eq_none.mpr other, Option.none_or]
    exact seen

theorem BlockResolved.apply_run (fresh : Fresh utxos (fullLedger coinbase height medianTimePast ledger)) :
    applyBlockToUtxos utxos block height medianTimePast (spends ledger) =
      run utxos (fullLedger coinbase height medianTimePast ledger) := by
  rw [resolved.apply, ← net_eq_run (resolved.valid_full fresh) fresh]
  rfl

end

end resolved

/-! ### Taking back one transaction -/

/-- A transaction at some position of a block, its ledger entry, and the map before it. -/
structure Removable (utxos : UtxoMap) (height medianTimePast index : ℕ) (tx : Transaction)
    (e : Entry OutPoint UtxoEntry) : Prop where
  creates : e.creates = spendableOutputs tx.computeTxid tx.output height medianTimePast (index == 0)
  coinbase : index = 0 → e.spends = []
  spends : index ≠ 0 → keys e.spends = tx.prevouts
  distinct : (keys e.spends).Nodup
  stored : ∀ coin ∈ e.spends, utxos.lookup coin.1 = some coin.2
  absent : ∀ o ∈ tx.outpoints, utxos.lookup o = none

section removable
variable {utxos : UtxoMap} {height medianTimePast index : ℕ} {tx : Transaction} {e : Entry OutPoint UtxoEntry}
  {undo : List (List StoredUndo)}

variable (removable : Removable utxos height medianTimePast index tx e)

include removable in
theorem Removable.created_outpoint : ∀ o ∈ keys e.creates, o ∈ tx.outpoints := by
  rw [removable.creates]
  exact (spendableOutputs_keys _ _ _ _ _).subset

include removable in
theorem Removable.absent_created : ∀ o ∈ keys e.creates, utxos.lookup o = none :=
  fun o created => removable.absent o (removable.created_outpoint o created)

omit [Library] in
theorem zip_undo (same : keys e.spends = tx.prevouts) :
    (tx.input.zip (e.spends.map Prod.snd)).map (fun (input, coin) => (input.previousOutput, coin)) = e.spends := by
  have split : (tx.input.zip (e.spends.map Prod.snd)).map (fun (input, coin) => (input.previousOutput, coin)) =
      tx.prevouts.zip (e.spends.map Prod.snd) := by
    rw [prevouts, zip_map_left]
    rfl
  rw [split, ← same]
  exact (zip_of_prod rfl rfl).symm

include removable in
theorem disconnectTransaction_back (undone : undo[index]? = some (e.spends.map Prod.snd)) :
    disconnectTransaction undo (step utxos e) (tx, index) = .ok utxos := by
  have back := unstep_step removable.distinct removable.stored removable.absent_created
  have cleared : tx.outpoints.foldl (fun utxos outpoint => utxos.erase outpoint) (step utxos e) =
      eraseAll (step utxos e) (keys e.creates) := by
    refine eraseAll_superset _ removable.created_outpoint fun o outpoint notCreated => ?_
    rw [step, lookup_insertAll, lastWrite_eq_none.mpr notCreated, lookup_eraseAll, removable.absent o outpoint]
    simp
  unfold disconnectTransaction
  dsimp only
  rw [cleared]
  by_cases first : index = 0
  · rw [if_pos first]
    rw [unstep, removable.coinbase first, insertAll_nil] at back
    rw [back]
  · have count : (e.spends.map Prod.snd).length = tx.input.length := by
      have lengths := congrArg List.length (removable.spends first)
      simpa [prevouts] using lengths
    have restored : (tx.input.zip (e.spends.map Prod.snd)).reverse.foldl
        (fun utxos (input, coin) => utxos.insert input.previousOutput coin) (eraseAll (step utxos e) (keys e.creates)) =
        insertAll (eraseAll (step utxos e) (keys e.creates)) e.spends := by
      rw [← insertAll_reverse _ removable.distinct, ← zip_undo (removable.spends first), ← map_reverse, insertAll,
        foldl_map, zip_undo (removable.spends first)]
    rw [if_neg first, undone]
    simp only [okOr, ok_bind, count, bailIf, ne_eq, not_true_eq_false, if_false]
    rw [restored]
    exact congrArg Except.ok back

include removable in
theorem disconnectTransactionStrict_back (undone : undo[index]? = some (e.spends.map Prod.snd)) :
    disconnectTransactionStrict undo (step utxos e) (tx, index) = .ok utxos := by
  have back := unstep_step removable.distinct removable.stored removable.absent_created
  obtain ⟨spent, present⟩ := lookup_step removable.stored removable.absent_created
  have once : (keys e.creates).Nodup := by
    rw [removable.creates]
    exact (nodup_range.map fun a b same => by simpa using same).sublist (spendableOutputs_keys _ _ _ _ _)
  -- Skipping the unspendable outputs leaves the created keys.
  have skipped : ∀ (indexed : List (TxOut × ℕ)) (utxos : UtxoMap),
      indexed.foldlM (fun utxos (output, outputIndex) =>
        if isUnspendableScript output.scriptPubkey then Except.ok utxos
        else if utxos.lookup (⟨tx.computeTxid, outputIndex⟩ : OutPoint) = none then
          .error (Error.message ("block disconnect is missing created output " ++
            displayOutPoint ⟨tx.computeTxid, outputIndex⟩))
        else .ok (utxos.erase ⟨tx.computeTxid, outputIndex⟩)) utxos =
      (keys (indexed.filterMap fun (output, outputIndex) =>
        if isUnspendableScript output.scriptPubkey then none
        else some ((⟨tx.computeTxid, outputIndex⟩ : OutPoint),
          coinOf output height medianTimePast (index == 0)))).foldlM (fun utxos o =>
        if utxos.lookup o = none then
          .error (Error.message ("block disconnect is missing created output " ++ displayOutPoint o))
        else .ok (utxos.erase o)) utxos := by
    intro indexed
    induction indexed with
    | nil => intro _; rfl
    | cons head indexed ih =>
      intro utxos
      obtain ⟨output, outputIndex⟩ := head
      rw [foldlM_cons, filterMap_cons]
      by_cases unspendable : isUnspendableScript output.scriptPubkey
      · simp only [unspendable, if_true]
        exact ih utxos
      · simp only [unspendable, Bool.false_eq_true, if_false, keys, map_cons, foldlM_cons]
        split
        · rfl
        · exact ih _
  have cleared := foldlM_erase_present (fun o => Error.message
    ("block disconnect is missing created output " ++ displayOutPoint o)) (step utxos e) once present
  have restored : ∀ k ∈ keys e.spends, (eraseAll (step utxos e) (keys e.creates)).lookup k = none := by
    intro k member
    rw [lookup_eraseAll, spent k member]
    simp
  have filled := foldlM_insert_absent (fun o => Error.message
    ("block disconnect restores an already unspent output " ++ displayOutPoint o))
    (eraseAll (step utxos e) (keys e.creates)) removable.distinct restored
  unfold disconnectTransactionStrict
  dsimp only
  rw [skipped, ← spendableOutputs, ← removable.creates, cleared, ok_bind]
  by_cases first : index = 0
  · rw [if_pos first]
    rw [unstep, removable.coinbase first, insertAll_nil] at back
    rw [back]
  · rw [if_neg first, undone, Option.getD_some]
    conv at filled => lhs; rw [← zip_undo (removable.spends first), foldlM_map]
    rw [filled]
    exact congrArg Except.ok back

end removable

/-! ### Taking back a block -/

section resolved
variable {rules : BlockRules} {block : Block} {height medianTimePast : ℕ} {utxos : UtxoMap}
  {coinbase : Transaction} {rest : List Transaction} {ledger : List (Entry OutPoint UtxoEntry)}
  {application : BlockApplication}

theorem BlockResolved.shape_full
    (resolved : BlockResolved rules block height utxos medianTimePast coinbase rest ledger application) :
    List.Forall₂ (fun tx (e : Entry OutPoint UtxoEntry) => ∀ o ∈ keys e.creates, o ∈ tx.outpoints) block.txdata
      (fullLedger coinbase height medianTimePast ledger) := by
  rw [resolved.txdata]
  refine List.Forall₂.cons (spendableOutputs_keys _ _ _ _ _).subset (resolved.shape.imp fun tx e entry => ?_)
  rw [entry.creates]
  exact (spendableOutputs_keys _ _ _ _ _).subset

omit [Library] in
theorem creates_subset {f : Transaction → List OutPoint} {txs : List Transaction} {l : List (Entry OutPoint UtxoEntry)}
    (shape : List.Forall₂ (fun tx (e : Entry OutPoint UtxoEntry) => ∀ o ∈ keys e.creates, o ∈ f tx) txs l) :
    ∀ o ∈ keys (creates l), o ∈ txs.flatMap f := by
  induction shape with
  | nil => simp
  | cons head _ ih =>
    intro o member
    rw [creates_cons, keys, map_append, mem_append] at member
    rw [flatMap_cons, mem_append]
    exact member.imp (head o) (ih o)

section
variable (resolved : BlockResolved rules block height utxos medianTimePast coinbase rest ledger application)
include resolved

theorem BlockResolved.removable
    (distinct : block.txids.Nodup) (absent : ∀ tx ∈ block.txdata, ∀ o ∈ tx.outpoints, utxos.lookup o = none)
    {i : ℕ} {tx : Transaction} (found : block.txdata[i]? = some tx) :
    ∃ e, (fullLedger coinbase height medianTimePast ledger)[i]? = some e ∧
      Removable (run utxos ((fullLedger coinbase height medianTimePast ledger).take i)) height medianTimePast i tx e := by
  have fresh := resolved.fresh distinct absent
  have valid := resolved.valid_full fresh
  obtain ⟨e, here, -⟩ := forall₂_getElem? resolved.shape_full found
  have front : (fullLedger coinbase height medianTimePast ledger).take (i + 1) =
      (fullLedger coinbase height medianTimePast ledger).take i ++ [e] := by
    rw [take_add_one, here, Option.toList_some]
  have valid' : Valid utxos ((fullLedger coinbase height medianTimePast ledger).take i ++ [e]) := by
    rw [← front]
    exact Valid.front (by rw [take_append_drop]; exact valid)
  have fresh' : Fresh utxos ((fullLedger coinbase height medianTimePast ledger).take i ++ [e]) := by
    rw [← front]
    exact Fresh.front (by rw [take_append_drop]; exact fresh)
  have unseen : ∀ o ∈ tx.outpoints,
      (run utxos ((fullLedger coinbase height medianTimePast ledger).take i)).lookup o = none := by
    intro o outpoint
    have notCreated : o ∉ keys (creates ((fullLedger coinbase height medianTimePast ledger).take i)) := by
      intro created
      have earlier := creates_subset (forall₂_take i resolved.shape_full) o created
      have once := outpoints_nodup distinct
      rw [← take_append_drop i block.txdata, flatMap_append, nodup_append] at once
      refine once.2.2 o earlier o ?_ rfl
      rw [drop_eq_getElem?_toList_append, found]
      simp [outpoint]
    rw [lookup_run valid'.front fresh'.front, visible, lastWrite_eq_none.mpr notCreated,
      absent tx (mem_of_getElem? found) o outpoint]
    simp
  obtain ⟨stored, -⟩ := lookup_before_last valid' fresh'
  refine ⟨e, here, ?_, ?_, ?_, valid'.distinct_last, stored, unseen⟩
  · cases i with
    | zero =>
      rw [resolved.txdata, getElem?_cons_zero] at found
      rw [fullLedger, getElem?_cons_zero] at here
      cases found
      cases here
      rfl
    | succ i =>
      rw [resolved.txdata, getElem?_cons_succ] at found
      obtain ⟨entry, there, holds⟩ := forall₂_getElem? resolved.shape found
      rw [fullLedger, getElem?_cons_succ, there] at here
      cases here
      exact holds.creates
  · rintro rfl
    rw [fullLedger, getElem?_cons_zero] at here
    cases here
    rfl
  · intro later
    obtain ⟨j, rfl⟩ : ∃ j, i = j + 1 := ⟨i - 1, by omega⟩
    rw [resolved.txdata, getElem?_cons_succ] at found
    obtain ⟨entry, there, holds⟩ := forall₂_getElem? resolved.shape found
    rw [fullLedger, getElem?_cons_succ, there] at here
    cases here
    exact holds.spends

theorem BlockResolved.validateBlockUndo :
    validateBlockUndo block ([] :: ledger.map fun e => e.spends.map Prod.snd) = .ok () := by
  have count := resolved.shape.length_eq
  unfold BitcoindRs.validateBlockUndo
  dsimp only
  rw [resolved.txdata, bailIf_neg (by simp [count]), ok_bind, bailIf_neg (by simp), ok_bind, drop_one, drop_one,
    tail_cons, tail_cons]
  refine forM_ok fun (tx, coins) member => ?_
  obtain ⟨i, found⟩ := mem_iff_getElem?.mp member
  obtain ⟨here, there⟩ := getElem?_zip_eq_some.mp found
  obtain ⟨e, aligned, entry⟩ := forall₂_getElem? resolved.shape here
  rw [getElem?_map, aligned] at there
  cases there
  have spent : (e.spends.map Prod.snd).length = tx.input.length := by
    have lengths := congrArg List.length entry.spends
    simpa [Transaction.prevouts] using lengths
  have range : ¬((e.spends.map Prod.snd).any fun coin => maxMoney < coin.output.value) = true := by
    intro above
    obtain ⟨coin, member, tooLarge⟩ := any_eq_true.mp above
    obtain ⟨pair, inside, rfl⟩ := mem_map.mp member
    have single : pair.2.value ≤ coinTotal e.spends :=
      single_le_sum (fun _ _ => Nat.zero_le _) _ (mem_map_of_mem inside)
    have large : maxMoney < pair.2.output.value := of_decide_eq_true tooLarge
    exact absurd (single.trans entry.bound) (Nat.not_le.mpr large)
  rw [validateUndoEntry, bailIf_neg (by simpa using spent), ok_bind, bailIf_neg range]

theorem BlockResolved.disconnect (wellFormed : block.WellFormed) (commit : TxidsCommit block.txdata)
    (absent : ∀ tx ∈ block.txdata, ∀ o ∈ tx.outpoints, utxos.lookup o = none) (network : Network) :
    disconnectBlockFromUtxos (applyBlockToUtxos utxos block height medianTimePast (spends ledger)) block
        ([] :: ledger.map fun e => e.spends.map Prod.snd) = .ok utxos ∧
      disconnectBlockForVerification network (applyBlockToUtxos utxos block height medianTimePast (spends ledger)) block
        height ([] :: ledger.map fun e => e.spends.map Prod.snd) = .ok utxos := by
  have distinct := resolved.txids_nodup wellFormed commit
  have fresh := resolved.fresh distinct absent
  have count : block.txdata.zipIdx.length = (fullLedger coinbase height medianTimePast ledger).length := by
    rw [length_zipIdx]
    exact resolved.shape_full.length_eq
  have unwind : ∀ f : UtxoMap → Transaction × ℕ → Except Error UtxoMap,
      (∀ {before i tx e}, Removable before height medianTimePast i tx e →
        ([] :: ledger.map fun e => e.spends.map Prod.snd)[i]? = some (e.spends.map Prod.snd) →
        f (step before e) (tx, i) = .ok before) →
      block.txdata.zipIdx.reverse.foldlM f (run utxos (fullLedger coinbase height medianTimePast ledger)) = .ok utxos := by
    intro f back
    refine foldlM_unwind count fun i x found => ?_
    obtain ⟨tx, index⟩ := x
    rw [getElem?_zipIdx] at found
    obtain ⟨tx', there, same⟩ := Option.map_eq_some_iff.mp found
    simp only [Prod.mk.injEq, Nat.zero_add] at same
    obtain ⟨rfl, rfl⟩ := same
    obtain ⟨e, here, removable⟩ := resolved.removable distinct absent there
    rw [take_add_one, here, Option.toList_some, run_snoc]
    refine back removable ?_
    have mapped : ([] :: ledger.map fun e => e.spends.map Prod.snd) =
        (fullLedger coinbase height medianTimePast ledger).map fun e => e.spends.map Prod.snd := rfl
    rw [mapped, getElem?_map, here, Option.map_some]
  rw [resolved.apply_run fresh]
  have lenient := unwind (disconnectTransaction _) disconnectTransaction_back
  have strict := unwind (disconnectTransactionStrict _) disconnectTransactionStrict_back
  constructor
  · rw [disconnectBlockFromUtxos, resolved.validateBlockUndo, ok_bind, lenient]
  · rw [disconnectBlockForVerification, resolved.validateBlockUndo, ok_bind]
    split
    · rw [disconnectBlockFromUtxos, resolved.validateBlockUndo, ok_bind, lenient]
    · exact strict

end

end resolved

end BitcoindRs
