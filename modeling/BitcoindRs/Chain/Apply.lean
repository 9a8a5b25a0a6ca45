import BitcoindRs.Consensus.Accepted

/-! The effect of a connected block on a UTXO map, and the undo data that takes it back. -/

namespace BitcoindRs
open Result FMap Ledger List
variable [Library]
variable {rest : List Transaction} {ledger : List (Entry OutPoint UtxoEntry)} {rules : BlockRules} {block : Block}
variable {height medianTimePast : ℕ} {utxos : UtxoMap} {coinbase : Transaction} {application : BlockApplication}

def applyBlockToUtxos (utxos : UtxoMap) (block : Block) (height medianTimePast : ℕ)
    (spentEntries : List (OutPoint × UtxoEntry)) : UtxoMap :=
  let spentOutpoints := spentEntries.map Prod.fst
  let removed := spentEntries.foldl (fun utxos spent => utxos.erase spent.1) utxos
  block.txdata.zipIdx.foldl (fun utxos (tx, transactionIndex) =>
    tx.output.zipIdx.foldl (fun utxos (output, outputIndex) =>
      let outpoint : OutPoint := ⟨tx.computeTxid, outputIndex⟩
      if outpoint ∉ spentOutpoints ∧ isUnspendableScript output.scriptPubkey = false then
        utxos.insert outpoint (coinOf output height medianTimePast (transactionIndex == 0))
      else utxos) utxos) removed

def blockCoins (block : Block) (height medianTimePast : ℕ) : List (OutPoint × UtxoEntry) :=
  block.txdata.zipIdx.flatMap fun (tx, index) =>
    spendableOutputs tx.computeTxid tx.output height medianTimePast (index == 0)

omit [Library] in
theorem insertOutputs_eq (txid : Txid) (outputs : List TxOut) (height medianTimePast : ℕ) (coinbase : Bool)
    (spent : List OutPoint) (utxos : UtxoMap) :
    outputs.zipIdx.foldl (fun utxos (output, index) =>
      if (⟨txid, index⟩ : OutPoint) ∉ spent ∧ isUnspendableScript output.scriptPubkey = false then
        utxos.insert ⟨txid, index⟩ (coinOf output height medianTimePast coinbase)
      else utxos) utxos =
    insertAll utxos ((spendableOutputs txid outputs height medianTimePast coinbase).filter fun coin => coin.1 ∉ spent) := by
  unfold spendableOutputs
  induction outputs.zipIdx generalizing utxos with
  | nil => rfl
  | cons head indexed ih =>
    obtain ⟨output, index⟩ := head
    rw [foldl_cons, ih, filterMap_cons]
    by_cases unspendable : isUnspendableScript output.scriptPubkey <;>
      by_cases unspent : (⟨txid, index⟩ : OutPoint) ∈ spent <;> simp [unspendable, unspent]

theorem applyBlockToUtxos_eq (utxos : UtxoMap) (block : Block) (height medianTimePast : ℕ)
    (spentEntries : List (OutPoint × UtxoEntry)) :
    applyBlockToUtxos utxos block height medianTimePast spentEntries =
      insertAll (eraseAll utxos (keys spentEntries))
        ((blockCoins block height medianTimePast).filter fun coin => coin.1 ∉ keys spentEntries) := by
  have removed : spentEntries.foldl (fun utxos spent => Finmap.erase spent.1 utxos) utxos =
      eraseAll utxos (keys spentEntries) := by rw [eraseAll, foldl_map]
  unfold applyBlockToUtxos blockCoins
  dsimp only
  rw [removed]
  generalize eraseAll utxos (keys spentEntries) = start
  induction block.txdata.zipIdx generalizing start with
  | nil => rfl
  | cons head indexed ih =>
    obtain ⟨tx, index⟩ := head
    rw [foldl_cons, ih, flatMap_cons, filter_append, insertAll_append]
    congr 1
    exact insertOutputs_eq tx.computeTxid tx.output height medianTimePast (index == 0) (keys spentEntries) start

variable (resolved : BlockResolved rules block height utxos medianTimePast coinbase rest ledger application)

include resolved in
theorem BlockResolved.coins : blockCoins block height medianTimePast =
      spendableOutputs coinbase.computeTxid coinbase.output height medianTimePast true ++ creates ledger := by
  have later : ∀ (start : ℕ) (rest : List Transaction) (ledger : List (Entry OutPoint UtxoEntry)),
      List.Forall₂ (fun tx => EntryOf (blockContext rules block height medianTimePast) (tx, tx.computeTxid)) rest ledger →
      ((rest.zipIdx (start + 1)).flatMap fun (tx, index) =>
        spendableOutputs tx.computeTxid tx.output height medianTimePast (index == 0)) = creates ledger := by
    intro start rest ledger shape
    induction shape generalizing start with
    | nil => rfl
    | cons head _ ih =>
      rw [zipIdx_cons, flatMap_cons, ih (start + 1), creates_cons, head.creates]
      rfl
  rw [blockCoins, resolved.txdata, zipIdx_cons, flatMap_cons, later 0 rest ledger resolved.shape]
  rfl

include resolved in
theorem BlockResolved.apply : applyBlockToUtxos utxos block height medianTimePast (spends ledger) =
      net utxos (spendableOutputs coinbase.computeTxid coinbase.output height medianTimePast true) ledger := by
  rw [applyBlockToUtxos_eq, resolved.coins, net]

/-- The ledger of some transactions: every input takes the coin that is visible to it. -/
def blockLedger (utxos : UtxoMap) (height medianTimePast : ℕ) (txs : List Transaction) : List (Entry OutPoint UtxoEntry) :=
  txs.foldl (fun before tx => before ++ [⟨tx.prevouts.filterMap fun o => (visible utxos before o).map (o, ·),
    spendableOutputs tx.computeTxid tx.output height medianTimePast false⟩]) []

/-- The coins a block spends, with the outpoints they were spent under. -/
def blockSpends (utxos : UtxoMap) (block : Block) (height medianTimePast : ℕ) : List (OutPoint × UtxoEntry) :=
  spends (blockLedger utxos height medianTimePast (block.txdata.drop 1))

def connectedUtxos (utxos : UtxoMap) (block : Block) (height medianTimePast : ℕ) : UtxoMap :=
  applyBlockToUtxos utxos block height medianTimePast (blockSpends utxos block height medianTimePast)

include resolved in
theorem BlockResolved.ledger_eq : blockLedger utxos height medianTimePast rest = ledger := by
  have general : ∀ (before ledger : List (Entry OutPoint UtxoEntry)) (rest : List Transaction),
      List.Forall₂ (fun tx => EntryOf (blockContext rules block height medianTimePast) (tx, tx.computeTxid)) rest ledger →
      (∀ front e after, before ++ ledger = front ++ e :: after → ∀ coin ∈ e.spends, visible utxos front coin.1 = some coin.2) →
      rest.foldl (fun before tx => before ++ [⟨tx.prevouts.filterMap fun o => (visible utxos before o).map (o, ·),
        spendableOutputs tx.computeTxid tx.output height medianTimePast false⟩]) before = before ++ ledger := by
    intro before ledger rest shape
    induction shape generalizing before with
    | nil => intro _; simp
    | cons head _ ih =>
      rename_i tx e rest ledger _
      intro seen
      have taken : tx.prevouts.filterMap (fun o => (visible utxos before o).map (o, ·)) = e.spends := by
        have here := seen before e ledger rfl
        have outpoints : tx.prevouts = e.spends.map Prod.fst := head.spends.symm
        rw [outpoints, filterMap_map]
        refine (filterMap_congr fun coin member => ?_).trans filterMap_some
        rw [Function.comp_apply, here coin member]
        rfl
      have entry : (⟨e.spends, spendableOutputs tx.computeTxid tx.output height medianTimePast false⟩ :
          Entry OutPoint UtxoEntry) = e := by
        obtain ⟨_, creates⟩ := e
        exact congrArg _ head.creates.symm
      rw [foldl_cons, taken, entry, ih (before ++ [e]) (by simpa using seen)]
      simp
  exact general [] ledger rest resolved.shape (by simpa using resolved.valid.resolved)

include resolved in
theorem BlockResolved.spends_eq : blockSpends utxos block height medianTimePast = spends ledger := by
  rw [blockSpends, resolved.txdata, drop_one, tail_cons, resolved.ledger_eq]

abbrev StoredUndo := UtxoEntry

section
omit [Library]

def groupUndo (spentEntries : List (OutPoint × UtxoEntry)) (acc : List (List StoredUndo) × ℕ) (tx : Transaction) :
    Except Error (List (List StoredUndo) × ℕ) := do
  let stop := acc.2 + tx.input.length
  bailIf (spentEntries.length < stop) (.message "block undo input count does not match validation state")
  .ok (acc.1 ++ [((spentEntries.drop acc.2).take tx.input.length).map Prod.snd], stop)

/-- The undo record `cache_block_undo` builds: the spent coins grouped by transaction, none for the coinbase. -/
def blockUndo (block : Block) (spentEntries : List (OutPoint × UtxoEntry)) : Except Error (List (List StoredUndo)) := do
  let grouped ← (block.txdata.drop 1).foldlM (groupUndo spentEntries) ([[]], 0)
  bailIf (grouped.2 ≠ spentEntries.length) (.message "block undo contains unexpected spent outputs")
  .ok grouped.1

theorem groupUndo_ledger
    (shape : List.Forall₂ (fun tx (e : Entry OutPoint UtxoEntry) => keys e.spends = tx.prevouts) rest ledger)
    (front : List (OutPoint × UtxoEntry)) (undo : List (List StoredUndo)) :
    rest.foldlM (groupUndo (front ++ spends ledger)) (undo, front.length) =
      .ok (undo ++ ledger.map fun e => e.spends.map Prod.snd, (front ++ spends ledger).length) := by
  induction shape generalizing front undo with
  | nil => simp [pure, Except.pure]
  | cons head _ ih =>
    rename_i tx e rest ledger _
    have count : tx.input.length = e.spends.length := by
      simpa [Transaction.prevouts] using (congrArg List.length head).symm
    have first : groupUndo (front ++ spends (e :: ledger)) (undo, front.length) tx =
        .ok (undo ++ [e.spends.map Prod.snd], (front ++ e.spends).length) := by
      simp [groupUndo, bailIf, count]
    rw [foldlM_cons, first]
    have rest := ih (front ++ e.spends) (undo ++ [e.spends.map Prod.snd])
    simpa [append_assoc] using rest

end

include resolved in
theorem BlockResolved.undo :
    blockUndo block (spends ledger) = .ok ([] :: ledger.map fun e => e.spends.map Prod.snd) := by
  have grouped := groupUndo_ledger (resolved.shape.imp fun _ _ entry => entry.spends) [] [[]]
  rw [blockUndo, resolved.txdata, drop_one, tail_cons]
  simp only [nil_append, length_nil] at grouped
  rw [grouped]
  simp [bailIf]

include resolved in
theorem BlockResolved.undo_coins :
    (([] : List StoredUndo) :: ledger.map fun e => e.spends.map Prod.snd).flatten = (spends ledger).map Prod.snd ∧
      ((ledger.map fun e => e.spends.map Prod.snd).map List.length) = rest.map (·.input.length) := by
  constructor
  · rw [flatten_cons, nil_append, ← flatMap_def, spends, map_flatMap]
  · have general : ∀ (rest : List Transaction) (ledger : List (Entry OutPoint UtxoEntry)),
        List.Forall₂ (fun tx => EntryOf (blockContext rules block height medianTimePast) (tx, tx.computeTxid)) rest ledger →
        ((ledger.map fun e => e.spends.map Prod.snd).map List.length) = rest.map (·.input.length) := by
      intro rest ledger shape
      induction shape with
      | nil => rfl
      | cons head _ ih =>
        have count := congrArg List.length head.spends
        simp only [length_map, Transaction.prevouts] at count
        simp only [map_cons, length_map, ih, count]
    exact general rest ledger resolved.shape

end BitcoindRs
