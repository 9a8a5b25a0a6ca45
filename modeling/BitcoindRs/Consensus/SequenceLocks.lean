import BitcoindRs.Consensus.Transactions

/-!
Transaction finality against the rules of the reference client, which collects the strictest relative locks of all
inputs and compares once.
-/

namespace BitcoindRs
open Result Checked
variable {tx : Transaction} {height lockTimeCutoff blockHeight blockTime : ℕ} {coins : List (ℕ × ℕ)} {locks : ℤ × ℤ}

def validateTransactionFinalityWithMetadata (tx : Transaction) (height lockTimeCutoff : ℕ) (csvActive : Bool)
    (previousEntries : List (ℕ × ℕ)) : Except ValidationError Unit := do
  validateTransactionAbsoluteFinality tx height lockTimeCutoff
  if csvActive = false ∨ tx.version < 2 ∨ previousEntries.length ≠ tx.input.length then .ok ()
  else (tx.input.zip previousEntries).forM fun (input, entryHeight, entryMedianTimePast) =>
    validateTransactionSequenceLockInput input tx.version height lockTimeCutoff csvActive entryHeight entryMedianTimePast

def isFinalTx (tx : Transaction) (blockHeight blockTime : ℕ) : Bool :=
  tx.lockTime = 0 ∨ tx.lockTime < (if tx.lockTime < lockTimeThreshold then blockHeight else blockTime) ∨
    tx.input.all fun input => input.sequence = 2 ^ 32 - 1

/-- One iteration of the loop of `CalculateSequenceLocks`. A coin comes with its height and the median time before it. -/
def tightenLocks (locks : ℤ × ℤ) (spend : TxIn × ℕ × ℕ) : ℤ × ℤ :=
  let (input, coinHeight, coinTime) := spend
  if input.sequence.testBit 31 then locks
  else if input.sequence.testBit 22 then (locks.1, max locks.2 (coinTime + (input.sequence % 2 ^ 16) * 512 - 1))
  else (max locks.1 (coinHeight + (input.sequence % 2 ^ 16) - 1), locks.2)

def calculateSequenceLocks (tx : Transaction) (coins : List (ℕ × ℕ)) : ℤ × ℤ :=
  if tx.version % 2 ^ 32 < 2 then (-1, -1) else (tx.input.zip coins).foldl tightenLocks (-1, -1)

def evaluateSequenceLocks (locks : ℤ × ℤ) (blockHeight blockTime : ℕ) : Bool := locks.1 < blockHeight ∧ locks.2 < blockTime

def heightMet (blockHeight : ℕ) (spend : TxIn × ℕ × ℕ) : Prop :=
  spend.1.sequence.testBit 31 = false → spend.1.sequence.testBit 22 = false →
    spend.2.1 + spend.1.sequence % 2 ^ 16 ≤ blockHeight

def timeMet (blockTime : ℕ) (spend : TxIn × ℕ × ℕ) : Prop :=
  spend.1.sequence.testBit 31 = false → spend.1.sequence.testBit 22 = true →
    spend.2.2 + spend.1.sequence % 2 ^ 16 * 512 ≤ blockTime

theorem evaluateSequenceLocks_tighten {spend : TxIn × ℕ × ℕ} :
    evaluateSequenceLocks (tightenLocks locks spend) blockHeight blockTime = true ↔
      evaluateSequenceLocks locks blockHeight blockTime = true ∧ heightMet blockHeight spend ∧ timeMet blockTime spend := by
  obtain ⟨input, coinHeight, coinTime⟩ := spend
  unfold evaluateSequenceLocks heightMet timeMet tightenLocks
  rw [decide_eq_true_iff, decide_eq_true_iff]
  by_cases disabled : input.sequence.testBit 31 = true
  · simp [disabled]
  · by_cases timed : input.sequence.testBit 22 = true
    · simp only [disabled, timed, Bool.false_eq_true, if_false, if_true, max_lt_iff, Bool.true_eq_false, false_imp_iff,
        forall_const, true_and]
      omega
    · simp only [disabled, timed, Bool.false_eq_true, if_false, max_lt_iff, false_imp_iff, imp_true_iff, and_true, forall_const]
      omega

theorem foldl_tightenLocks {spends : List (TxIn × ℕ × ℕ)} :
    evaluateSequenceLocks (spends.foldl tightenLocks locks) blockHeight blockTime = true ↔
      evaluateSequenceLocks locks blockHeight blockTime = true ∧
        ∀ spend ∈ spends, heightMet blockHeight spend ∧ timeMet blockTime spend := by
  induction spends generalizing locks with
  | nil => simp
  | cons spend spends ih =>
    rw [List.foldl_cons, ih, evaluateSequenceLocks_tighten, List.forall_mem_cons, and_assoc]

theorem sequenceLocksMet_iff : evaluateSequenceLocks (calculateSequenceLocks tx coins) blockHeight blockTime = true ↔
      tx.version % 2 ^ 32 < 2 ∨ ∀ spend ∈ tx.input.zip coins, heightMet blockHeight spend ∧ timeMet blockTime spend := by
  have free : evaluateSequenceLocks (-1, -1) blockHeight blockTime = true := by
    rw [evaluateSequenceLocks, decide_eq_true_iff]
    omega
  unfold calculateSequenceLocks
  split
  · rename_i old
    exact ⟨fun _ => .inl old, fun _ => free⟩
  · rename_i new
    rw [foldl_tightenLocks]
    exact ⟨fun met => .inr met.2, fun met => ⟨free, met.resolve_left new⟩⟩

theorem validateTransactionSequenceLockInput_ok {input : TxIn} {version : ℤ} {entryHeight entryTime : ℕ}
    (recent : 2 ≤ version) (bounded : height < 2 ^ 32) :
    validateTransactionSequenceLockInput input version height lockTimeCutoff true entryHeight entryTime = .ok () ↔
      (height = 2 ^ 32 - 1 ∨ heightMet height (input, entryHeight, entryTime)) ∧ timeMet lockTimeCutoff (input, entryHeight, entryTime) := by
  unfold validateTransactionSequenceLockInput heightMet timeMet satAddU32
  by_cases disabled : input.sequence.testBit 31 = true
  · simp [disabled]
  · have old : ¬ version < 2 := not_lt.mpr recent
    simp only [Bool.not_eq_true] at disabled
    by_cases timed : input.sequence.testBit 22 = true
    · simp [disabled, timed, old]
    · simp only [Bool.not_eq_true] at timed
      simp only [disabled, timed, old, Bool.not_true, decide_false, Bool.or_self, Bool.false_eq_true, if_false, if_true,
        bailIf_ok, true_imp_iff, false_imp_iff, imp_true_iff, and_true]
      omega

theorem validateTransactionAbsoluteFinality_ok :
    validateTransactionAbsoluteFinality tx height lockTimeCutoff = .ok () ↔ isFinalTx tx height lockTimeCutoff = true := by
  unfold validateTransactionAbsoluteFinality isFinalTx Transaction.isLockTimeEnabled
  rw [bailIf_ok, decide_eq_true_iff]
  simp only [List.any_eq_true, List.all_eq_true, bne_iff_ne, decide_eq_true_eq]
  constructor
  · intro pass
    by_contra stuck
    simp only [not_or, not_lt, not_forall] at stuck
    obtain ⟨locked, late, input, member, open_⟩ := stuck
    exact pass ⟨⟨input, member, open_⟩, locked, late⟩
  · rintro final ⟨⟨input, member, open_⟩, locked, late⟩
    rcases final with none_ | early | closed
    · exact locked none_
    · exact absurd early (not_lt.mpr late)
    · exact open_ (closed input member)

theorem validateTransactionFinalityWithMetadata_ok :
    validateTransactionFinalityWithMetadata tx height lockTimeCutoff true coins = .ok () ↔
      validateTransactionAbsoluteFinality tx height lockTimeCutoff = .ok () ∧ (tx.version < 2 ∨ coins.length ≠ tx.input.length ∨
        ∀ spend ∈ tx.input.zip coins, validateTransactionSequenceLockInput spend.1 tx.version height lockTimeCutoff true
          spend.2.1 spend.2.2 = .ok ()) := by
  unfold validateTransactionFinalityWithMetadata
  rw [bind_ok_iff]
  constructor
  · rintro ⟨⟨⟩, final, locks⟩
    refine ⟨final, ?_⟩
    split at locks
    · rename_i skipped
      rcases skipped with none_ | old | unequal
      · cases none_
      · exact .inl old
      · exact .inr (.inl unequal)
    · exact .inr (.inr (forM_ok_iff.mp locks))
  · rintro ⟨final, locks⟩
    refine ⟨(), final, ?_⟩
    split
    · rfl
    · rename_i checked
      simp only [not_or] at checked
      exact forM_ok ((locks.resolve_left checked.2.1).resolve_left checked.2.2)

def locksIgnored (tx : Transaction) (height lockTimeCutoff : ℕ) (coins : List (ℕ × ℕ)) : Prop :=
  tx.version < 0 ∨ coins.length ≠ tx.input.length ∨
    height = 2 ^ 32 - 1 ∧ ∀ spend ∈ tx.input.zip coins, timeMet lockTimeCutoff spend

theorem sequenceLocks_verdict (version : -2 ^ 31 ≤ tx.version ∧ tx.version < 2 ^ 31) (bounded : height < 2 ^ 32) :
    validateTransactionFinalityWithMetadata tx height lockTimeCutoff true coins = .ok () ↔
      isFinalTx tx height lockTimeCutoff = true ∧
        (evaluateSequenceLocks (calculateSequenceLocks tx coins) height lockTimeCutoff = true ∨
          locksIgnored tx height lockTimeCutoff coins) := by
  rw [validateTransactionFinalityWithMetadata_ok, validateTransactionAbsoluteFinality_ok, sequenceLocksMet_iff, locksIgnored]
  refine and_congr_right fun _ => ?_
  by_cases negative : tx.version < 0
  · simp only [negative, true_or, or_true, iff_true]
    exact .inl (by omega)
  by_cases unequal : coins.length ≠ tx.input.length
  · simp [unequal]
  by_cases old : tx.version < 2
  · have early : tx.version % 2 ^ 32 < 2 := by omega
    exact ⟨fun _ => .inl (.inl early), fun _ => .inl old⟩
  have recent : ¬ tx.version % 2 ^ 32 < 2 := by omega
  simp only [old, recent, negative, unequal, false_or, validateTransactionSequenceLockInput_ok (not_lt.mp old) bounded]
  by_cases last : height = 2 ^ 32 - 1
  · simp only [last, true_or, true_and]
    constructor
    · exact fun met => .inr met
    · rintro (met | met)
      · exact fun spend member => (met spend member).2
      · exact met
  · simp only [last, false_or, false_and, or_false]

/-- The verdict is that of the reference rules exactly if no lock that is not met goes unnoticed; and with one coin for each
input it is the verdict of the checks that block connection makes one input at a time. -/
theorem sequenceLocks_agree_iff {tx : Transaction} {height lockTimeCutoff : ℕ} {coins : List (ℕ × ℕ)}
    (version : -2 ^ 31 ≤ tx.version ∧ tx.version < 2 ^ 31) (bounded : height < 2 ^ 32) :
    ((validateTransactionFinalityWithMetadata tx height lockTimeCutoff true coins = .ok () ↔
        isFinalTx tx height lockTimeCutoff = true ∧
          evaluateSequenceLocks (calculateSequenceLocks tx coins) height lockTimeCutoff = true) ↔
      ¬ (isFinalTx tx height lockTimeCutoff = true ∧
          evaluateSequenceLocks (calculateSequenceLocks tx coins) height lockTimeCutoff = false ∧
          locksIgnored tx height lockTimeCutoff coins)) ∧
    (coins.length = tx.input.length →
      (validateTransactionFinalityWithMetadata tx height lockTimeCutoff true coins = .ok () ↔
        validateTransactionAbsoluteFinality tx height lockTimeCutoff = .ok () ∧
          ∀ spend ∈ tx.input.zip coins, validateTransactionSequenceLockInput spend.1 tx.version height lockTimeCutoff true
            spend.2.1 spend.2.2 = .ok ())) := by
  constructor
  · rw [sequenceLocks_verdict version bounded, Bool.eq_false_iff]
    tauto
  · intro equal
    rw [validateTransactionFinalityWithMetadata_ok]
    refine and_congr_right fun _ => ?_
    constructor
    · rintro (old | unequal | each)
      · intro spend _
        rw [validateTransactionSequenceLockInput, if_pos (by simp [old])]
      · exact absurd equal unequal
      · exact each
    · exact fun each => .inr (.inr each)

def sampleLocked (version : ℤ) : Transaction := ⟨version, 0, [⟨⟨7, 0⟩, [], 10, []⟩], [⟨50000, [0x51]⟩]⟩

theorem sequenceLocks_agree_sample :
    validateTransactionFinalityWithMetadata (sampleLocked 2) 110 0 true [(100, 0)] = .ok () ↔
      isFinalTx (sampleLocked 2) 110 0 = true ∧
        evaluateSequenceLocks (calculateSequenceLocks (sampleLocked 2) [(100, 0)]) 110 0 = true :=
  (sequenceLocks_agree_iff (by decide) (by decide)).1.mpr fun ⟨_, missed, _⟩ => absurd missed (by decide +kernel)

/-- A version that is negative as a signed integer switches the lock off one block after the coin. -/
theorem sequenceLocks_ignored :
    validateTransactionFinalityWithMetadata (sampleLocked (-1)) 101 0 true [(100, 0)] = .ok () ∧
      evaluateSequenceLocks (calculateSequenceLocks (sampleLocked (-1)) [(100, 0)]) 101 0 = false := by
  decide +kernel

end BitcoindRs
