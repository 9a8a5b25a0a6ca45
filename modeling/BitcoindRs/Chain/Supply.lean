import BitcoindRs.Chain.Apply
import Mathlib.Algebra.BigOperators.Intervals
import Mathlib.Order.Interval.Finset.Nat

/-! The value of the UTXO set along a chain of accepted blocks never exceeds the subsidies paid so far. -/

namespace BitcoindRs
open Result Checked FMap Ledger Codec List UtxoEntry
open scoped BigOperators
variable {rules : BlockRules} {block : Block} {height medianTimePast : ℕ} {utxos : UtxoMap} {coinbase : Transaction}
variable {rest : List Transaction} {ledger : List (Entry OutPoint UtxoEntry)} {application : BlockApplication}
variable {params : DeploymentParameters} {challenge : Option Bytes} {chain chain' : ℕ × UtxoMap}
variable {candidate : Candidate}

def subsidyAfter (halvings : ℕ) : ℕ := 50 * 100000000 / 2 ^ halvings

def halvingInterval (network : Network) : ℕ := if network = .regtest then 150 else 210000

theorem halvingInterval_pos (network : Network) : 0 < halvingInterval network := by
  unfold halvingInterval
  split <;> decide

theorem blockSubsidyForNetwork_eq (network : Network) (height : ℕ) :
    blockSubsidyForNetwork network height = subsidyAfter (height / halvingInterval network) := by
  have closed : ∀ halvings, (if 64 ≤ halvings then 0 else (50 * 100000000) >>> halvings) = subsidyAfter halvings := by
    intro halvings
    unfold subsidyAfter
    split
    · rename_i many
      have large : 50 * 100000000 < 2 ^ halvings :=
        lt_of_lt_of_le (by decide : 50 * 100000000 < 2 ^ 64) (Nat.pow_le_pow_right (by decide) many)
      rw [Nat.div_eq_of_lt large]
    · rw [Nat.shiftRight_eq_div_pow]
  rw [← closed]
  rfl

theorem subsidyAfter_succ (halvings : ℕ) : 2 * subsidyAfter (halvings + 1) ≤ subsidyAfter halvings := by
  have half : subsidyAfter (halvings + 1) = subsidyAfter halvings / 2 := by
    rw [subsidyAfter, subsidyAfter, Nat.pow_succ, Nat.div_div_eq_div_mul]
  omega

theorem succ_div_mod {interval : ℕ} (positive : 0 < interval) (n : ℕ) :
    (n % interval + 1 = interval ∧ (n + 1) / interval = n / interval + 1 ∧ (n + 1) % interval = 0) ∨
      (n % interval + 1 < interval ∧ (n + 1) / interval = n / interval ∧ (n + 1) % interval = n % interval + 1) := by
  have division := Nat.div_add_mod n interval
  rcases Nat.lt_or_eq_of_le (Nat.mod_lt n positive) with inside | boundary
  · have exact : n + 1 = interval * (n / interval) + (n % interval + 1) := by omega
    refine .inr ⟨inside, ?_, ?_⟩
    · rw [exact, Nat.mul_add_div positive, Nat.div_eq_of_lt inside, Nat.add_zero]
    · rw [exact, Nat.mul_add_mod, Nat.mod_eq_of_lt inside]
  · have exact : n + 1 = interval * (n / interval + 1) := by
      rw [Nat.mul_add, Nat.mul_one]
      omega
    exact .inl ⟨boundary, by rw [exact, Nat.mul_div_cancel_left _ positive], by rw [exact, Nat.mul_mod_right]⟩

/-- The subsidies up to a height, and what the coming blocks can still add to them: the rest of the current
interval, and no more than one interval of the current subsidy after it. -/
theorem subsidies_potential (network : Network) (height : ℕ) :
    (∑ h ∈ Finset.range (height + 1), blockSubsidyForNetwork network h) +
      (2 * halvingInterval network - 1 - height % halvingInterval network) *
        subsidyAfter (height / halvingInterval network) ≤
      2 * halvingInterval network * subsidyAfter 0 := by
  have positive := halvingInterval_pos network
  simp only [blockSubsidyForNetwork_eq]
  generalize halvingInterval network = interval at positive
  have peel : ∀ n s : ℕ, 0 < n → n * s = (n - 1) * s + s := by
    intro n s some
    obtain ⟨m, rfl⟩ : ∃ m, n = m + 1 := ⟨n - 1, by omega⟩
    rw [Nat.add_mul, Nat.one_mul, Nat.add_sub_cancel]
  induction height with
  | zero =>
    have first := peel (2 * interval) (subsidyAfter 0) (by omega)
    simp only [zero_add, Finset.sum_range_one, Nat.zero_div, Nat.zero_mod, Nat.sub_zero]
    omega
  | succ height ih =>
    rw [Finset.sum_range_succ]
    rcases succ_div_mod positive height with ⟨boundary, next, start⟩ | ⟨inside, same, advanced⟩
    · -- A halving: the potential of the finished interval pays for the next two.
      have potential : 2 * interval - 1 - height % interval = interval := by omega
      have first := peel (2 * interval) (subsidyAfter (height / interval + 1)) (by omega)
      have paid := Nat.mul_le_mul_left interval (subsidyAfter_succ (height / interval))
      have regroup : interval * (2 * subsidyAfter (height / interval + 1)) =
          2 * interval * subsidyAfter (height / interval + 1) := by ring
      rw [potential] at ih
      rw [next, start, Nat.sub_zero]
      omega
    · have first := peel (2 * interval - 1 - height % interval) (subsidyAfter (height / interval)) (by omega)
      have rest : 2 * interval - 1 - height % interval - 1 = 2 * interval - 1 - (height % interval + 1) := by omega
      rw [first, rest] at ih
      rw [same, advanced]
      omega

theorem subsidies_lt_maxMoney (network : Network) (height : ℕ) :
    ∑ h ∈ Finset.Icc 1 height, blockSubsidyForNetwork network h < maxMoney := by
  have potential := subsidies_potential network height
  have interval : halvingInterval network ≤ 210000 := by
    unfold halvingInterval
    split <;> decide
  have bound : 2 * halvingInterval network * subsidyAfter 0 ≤ maxMoney := by
    have first : subsidyAfter 0 = 5000000000 := by decide
    rw [first, maxMoney]
    omega
  have genesis : blockSubsidyForNetwork network 0 = 5000000000 := by
    rw [blockSubsidyForNetwork_eq, Nat.zero_div]
    decide
  have split : ∑ h ∈ Finset.range (height + 1), blockSubsidyForNetwork network h =
      blockSubsidyForNetwork network 0 + ∑ h ∈ Finset.Icc 1 height, blockSubsidyForNetwork network h := by
    rw [Finset.range_eq_Ico, Finset.sum_eq_sum_Ico_succ_bot (Nat.succ_pos height)]
    rfl
  omega

variable [Library]

/-- A block offered to the chain, with what the chain state says about it. -/
structure Candidate where
  block : Block
  medianTimePast : ℕ
  rules : BlockRules

def acceptBlock (params : DeploymentParameters) (signetChallenge : Option Bytes) (chain : ℕ × UtxoMap)
    (candidate : Candidate) : Except Error (ℕ × UtxoMap) := do
  let height := chain.1 + 1
  let _ ← validation (validateBlockStructure params signetChallenge candidate.block height)
  let application ← validateBlockTransactions { candidate.rules with params, retainSpentEntries := true }
    candidate.block candidate.block.txids height chain.2 candidate.medianTimePast
  .ok (height, applyBlockToUtxos chain.2 candidate.block height candidate.medianTimePast application.spentEntries)

def acceptChain (params : DeploymentParameters) (signetChallenge : Option Bytes) (candidates : List Candidate) :
    Except Error (ℕ × UtxoMap) := candidates.foldlM (acceptBlock params signetChallenge) (0, ∅)

/-- The `u64` sums the validators form for a block, from the coins its transactions spend: the inputs and outputs of
every transaction, the fees, the allowed reward and the outputs of the whole block. -/
def blockSums (network : Network) (height : ℕ) (block : Block) (undo : List (List StoredUndo)) : List ℕ :=
  let fees := (undo.map fun coins => (coins.map value).sum).sum -
    ((block.txdata.drop 1).map Transaction.outputTotal).sum
  (undo.map fun coins => (coins.map value).sum) ++ block.txdata.map Transaction.outputTotal ++
    [fees, blockSubsidyForNetwork network height + fees, (block.txdata.map Transaction.outputTotal).sum]

omit [Library] in
theorem blockSubsidyForNetwork_le (network : Network) (height : ℕ) :
    blockSubsidyForNetwork network height ≤ 5000000000 := by
  rw [blockSubsidyForNetwork_eq, subsidyAfter]
  exact (Nat.div_le_self _ _).trans (by decide)

variable (resolved : BlockResolved rules block height utxos medianTimePast coinbase rest ledger application)

include resolved in
theorem BlockResolved.supply : total value (applyBlockToUtxos utxos block height medianTimePast (spends ledger)) ≤
      total value utxos + blockSubsidyForNetwork rules.params.network height := by
  obtain ⟨totalFees, fees, -, reward⟩ := resolved.fees
  have conserved := total_net_le value resolved.valid
    (spendableOutputs coinbase.computeTxid coinbase.output height medianTimePast true)
  have minted := coinTotal_spendableOutputs_le coinbase.computeTxid coinbase height medianTimePast true
  have created : coinTotal (creates ledger) ≤ (rest.map Transaction.outputTotal).sum := by
    have shape := resolved.shape
    clear resolved fees reward conserved
    induction shape with
    | nil => simp
    | @cons tx e rest ledger head _ ih =>
      have first := coinTotal_spendableOutputs_le tx.computeTxid tx height medianTimePast false
      rw [creates_cons, coinTotal, totalOf_append, head.creates, map_cons, sum_cons]
      exact Nat.add_le_add first ih
  rw [resolved.apply]
  simp only [coinTotal] at fees minted created
  omega

include resolved in
/-- None of the sums formed for an accepted block leaves the `u64` range. -/
theorem BlockResolved.sums_fit (wellFormed : block.WellFormed) :
    ∀ sum ∈ blockSums rules.params.network height block ([] :: ledger.map fun e => e.spends.map Prod.snd),
      sum < u64Bound := by
  obtain ⟨totalFees, fees, feeBound, -⟩ := resolved.fees
  have money : maxMoney + 5000000000 < u64Bound := by decide
  have subsidy := blockSubsidyForNetwork_le rules.params.network height
  have inputs : ∀ e : Entry OutPoint UtxoEntry, ((e.spends.map Prod.snd).map value).sum = coinTotal e.spends := by
    intro e
    rw [map_map]
    rfl
  have spent : ((([] : List StoredUndo) :: ledger.map fun e => e.spends.map Prod.snd).map
      fun coins => (coins.map value).sum).sum = coinTotal (spends ledger) := by
    simp only [map_cons, map_nil, sum_nil, sum_cons, Nat.zero_add, map_map, Function.comp_def]
    clear resolved fees
    induction ledger with
    | nil => rfl
    | cons e ledger ih =>
      rw [map_cons, sum_cons, ih]
      simp [coinTotal, totalOf]
  have exact : coinTotal (spends ledger) - ((block.txdata.drop 1).map Transaction.outputTotal).sum = totalFees := by
    rw [resolved.txdata, drop_one, tail_cons]
    omega
  intro sum member
  simp only [blockSums, spent, exact, mem_append, mem_cons, not_mem_nil, or_false] at member
  rcases member with (input | output) | rfl | rfl | rfl
  · obtain ⟨coins, group, rfl⟩ := mem_map.mp input
    rcases mem_cons.mp group with rfl | spending
    · decide
    · obtain ⟨e, inside, rfl⟩ := mem_map.mp spending
      obtain ⟨tx, -, entry⟩ := forall₂_mem_right resolved.shape inside
      have bound := entry.bound
      rw [inputs]
      omega
  · obtain ⟨tx, inside, rfl⟩ := mem_map.mp output
    have inRange := (wellFormed.transactions tx inside).total
    rw [Transaction.outputTotal]
    omega
  · omega
  · omega
  · exact wellFormed.total

theorem acceptBlock_ok (h : acceptBlock params challenge chain candidate = .ok chain') :
    ∃ application coinbase rest ledger,
      validateBlockTransactions { candidate.rules with params, retainSpentEntries := true } candidate.block
        candidate.block.txids (chain.1 + 1) chain.2 candidate.medianTimePast = .ok application ∧
      BlockResolved { candidate.rules with params, retainSpentEntries := true } candidate.block (chain.1 + 1) chain.2
        candidate.medianTimePast coinbase rest ledger application ∧
      candidate.block.WellFormed ∧ application.spentEntries = spends ledger ∧
      chain' = (chain.1 + 1,
        applyBlockToUtxos chain.2 candidate.block (chain.1 + 1) candidate.medianTimePast (spends ledger)) := by
  unfold acceptBlock at h
  obtain ⟨stats, structured, h⟩ := bind_ok h
  obtain ⟨application, valid, h⟩ := bind_ok h
  obtain ⟨coinbase, rest, ledger, resolved⟩ := validateBlockTransactions_ok valid
  have entries : application.spentEntries = spends ledger := resolved.entries
  cases h
  exact ⟨application, coinbase, rest, ledger, valid, resolved, validateBlockStructure_ok (validation_ok.mp structured),
    entries, by rw [entries]⟩

theorem acceptBlock_supply (h : acceptBlock params challenge chain candidate = .ok chain') :
    chain'.1 = chain.1 + 1 ∧ total value chain'.2 ≤
      total value chain.2 + blockSubsidyForNetwork params.network (chain.1 + 1) := by
  obtain ⟨application, coinbase, rest, ledger, -, resolved, -, -, rfl⟩ := acceptBlock_ok h
  exact ⟨rfl, resolved.supply⟩

/-- No inflation: along every chain of accepted blocks the UTXO map is worth at most the subsidies paid so far, which
stay inside the money range, and no `u64` sum of the validators overflows on the way. -/
theorem acceptChain_supply (params : DeploymentParameters) (challenge : Option Bytes) (candidates : List Candidate)
    {height : ℕ} {utxos : UtxoMap} (accepted : acceptChain params challenge candidates = .ok (height, utxos)) :
    height = candidates.length ∧
      total value utxos ≤ ∑ h ∈ Finset.Icc 1 height, blockSubsidyForNetwork params.network h ∧
      ∑ h ∈ Finset.Icc 1 height, blockSubsidyForNetwork params.network h < maxMoney ∧
      ∀ before candidate after, candidates = before ++ candidate :: after → ∃ chain application undo,
        acceptChain params challenge before = .ok chain ∧
        validateBlockTransactions { candidate.rules with params, retainSpentEntries := true } candidate.block
          candidate.block.txids (chain.1 + 1) chain.2 candidate.medianTimePast = .ok application ∧
        blockUndo candidate.block application.spentEntries = .ok undo ∧
        ∀ sum ∈ blockSums params.network (chain.1 + 1) candidate.block undo, sum < u64Bound := by
  have run := foldlM_invariant
    (fun passed chain => chain.1 = passed.length ∧
      total value chain.2 ≤ ∑ h ∈ Finset.Icc 1 chain.1, blockSubsidyForNetwork params.network h)
    (fun passed chain candidate chain' holds step => by
      obtain ⟨next, supply⟩ := acceptBlock_supply step
      refine ⟨by rw [next, holds.1, length_append, length_singleton], ?_⟩
      rw [next, Finset.sum_Icc_succ_top (Nat.succ_pos _)]
      exact supply.trans (Nat.add_le_add_right holds.2 _))
    accepted ⟨rfl, by simp⟩
  refine ⟨run.1, run.2, subsidies_lt_maxMoney params.network height, ?_⟩
  rintro before candidate after rfl
  rw [acceptChain, foldlM_append] at accepted
  obtain ⟨chain, earlier, accepted⟩ := bind_ok accepted
  obtain ⟨chain', here, -⟩ := foldlM_cons_ok accepted
  obtain ⟨application, coinbase, rest, ledger, valid, resolved, wellFormed, entries, -⟩ := acceptBlock_ok here
  exact ⟨chain, application, _, earlier, valid, by rw [entries]; exact resolved.undo, resolved.sums_fit wellFormed⟩

def sampleChain : List Candidate :=
  [⟨sampleBlock 1 [sampleCoinbase 1 5000000000], 0, sampleRules⟩, ⟨sampleBlock 2 [sampleCoinbase 2 5000000000], 1, sampleRules⟩]

omit [Library] in
theorem acceptChain_supply_sample : let _ := Library.sample
    ∃ height utxos, acceptChain (.forNetwork .regtest) none sampleChain = .ok (height, utxos) ∧
      total value utxos ≤ ∑ h ∈ Finset.Icc 1 height, blockSubsidyForNetwork .regtest h := by
  let _ := Library.sample
  obtain ⟨⟨height, utxos⟩, accepted⟩ : ∃ tip, acceptChain (.forNetwork .regtest) none sampleChain = .ok tip :=
    exists_ok (by decide +kernel)
  exact ⟨height, utxos, accepted, (acceptChain_supply (.forNetwork .regtest) none sampleChain accepted).2.1⟩

end BitcoindRs
