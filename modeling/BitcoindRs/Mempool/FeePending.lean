import BitcoindRs.Mempool.FeeCounters

/-!
The transactions that an estimate counts as still pending: the slots of the heights that lie at least the target back,
read from the best height downwards, and the counter of old entries. The sums stay below 2^53, where `f64` adds exactly.
-/

namespace BitcoindRs
open FMap Finset

def ConfirmStats.inMempool (stats : ConfirmStats) (target bestHeight bucket : ℕ) : ℤ :=
  ∑ confirmation ∈ Finset.Ico target stats.maxConfirms,
    (stats.unconfirmed ((bestHeight - confirmation) % stats.maxConfirms) bucket).val + (stats.oldUnconfirmed bucket).val

namespace FeeCounters
variable {c : FeeCounters} {horizon : Horizon} {target near far : ℕ}

def inMempool (c : FeeCounters) (horizon : Horizon) (target near far : ℕ) : ℤ :=
  ∑ b ∈ Finset.Icc far near, (c.stats horizon).inMempool target c.bestHeight b

/-- Every block that counts is one above the best height, and at no time are more transactions tracked than `i32` can count. -/
structure Consecutive (c : FeeCounters) (calls : List Call) : Prop where
  next : ∀ i height confirmed, calls[i]? = some (.process height confirmed) →
    height ≤ (c.run (calls.take i)).bestHeight + 1
  countable : ∀ k, (c.run (calls.take k)).tracked.keys.card < 2 ^ 31

theorem unskipped_succ {tracked : FMap Txid TrackedTransaction} {confirms best height : ℕ} (next : height ≤ best + 1) :
    Unskipped tracked confirms best height := by
  intro txid entry _ recent out
  rw [show height = entry.entryHeight + confirms by omega, Nat.add_mod_right]

theorem Consecutive.allows {calls : List Call} (consecutive : c.Consecutive calls) {i : ℕ} {call : Call}
    (found : calls[i]? = some call) : (c.run (calls.take i)).Allows call := by
  cases call with
  | track txid transaction feeSat vsize height =>
    intro entry absent stored horizon
    have after := consecutive.countable (i + 1)
    rw [List.take_add_one, found, run, Option.toList_some, List.foldl_append] at after
    change ((c.run (calls.take i)).trackMempoolEntry txid transaction feeSat vsize height).tracked.keys.card < _ at after
    rw [← lookup_trackMempoolEntry] at stored
    obtain same | ⟨added, -, -, same⟩ := (c.run (calls.take i)).trackMempoolEntry_cases txid transaction feeSat vsize height
    · rw [same, absent] at stored
      cases stored
    · rw [same, ← tally_true] at after
      dsimp only at after
      rw [tally_insert _ _ absent, tally_true] at after
      exact (Nat.succ_le_succ (tally_le_card _ _)).trans_lt after
  | remove txid => trivial
  | process height confirmed =>
    intro _ horizon
    refine ⟨unskipped_succ (consecutive.next i height confirmed found), fun b _ => ?_⟩
    exact (tally_le_card _ _).trans_lt (consecutive.countable i)

/-- The number of times an entry height is met on the way down from the best height, where heights below 0 are read as 0. -/
theorem sum_ages {best confirms height : ℕ} (low : height ≤ best) (within : target ≤ confirms) :
    (decide (height + confirms ≤ best)).toNat + ∑ age ∈ Finset.Ico target confirms, (decide (height = best - age)).toNat =
      (decide (height + target ≤ best)).toNat + (confirms - max target (best + 1)) * (decide (height = 0)).toNat := by
  have count : ∑ age ∈ Finset.Ico target confirms, (decide (height = best - age)).toNat =
      ((Finset.Ico target confirms).filter fun age => height = best - age).card := by
    rw [card_filter]
    exact sum_congr rfl fun age _ => by simp [Bool.toNat, Bool.cond_decide]
  rw [count]
  rcases Nat.eq_zero_or_pos height with rfl | positive
  · have heights : (Finset.Ico target confirms).filter (fun age => 0 = best - age) = Finset.Ico (max target best) confirms := by
      ext age
      simp only [mem_filter, mem_Ico]
      omega
    rw [heights, Nat.card_Ico]
    simp only [Bool.toNat, Bool.cond_decide]
    split <;> split <;> simp <;> omega
  · have heights : (Finset.Ico target confirms).filter (fun age => height = best - age) =
        Finset.Ico (max target (best - height)) (min confirms (best - height + 1)) := by
      ext age
      simp only [mem_filter, mem_Ico]
      omega
    rw [heights, Nat.card_Ico]
    simp only [Bool.toNat, Bool.cond_decide, if_neg positive.ne']
    split <;> split <;> omega

def waited (bucket : TrackedTransaction → ℕ) (best target near far : ℕ) (entry : TrackedTransaction) : Bool :=
  entry.entryHeight + target ≤ best ∧ far ≤ bucket entry ∧ bucket entry ≤ near

def enteredFirst (bucket : TrackedTransaction → ℕ) (near far : ℕ) (entry : TrackedTransaction) : Bool :=
  entry.entryHeight = 0 ∧ far ≤ bucket entry ∧ bucket entry ≤ near

section pending
variable {stats : ConfirmStats} {count best : ℕ} {bucket : TrackedTransaction → ℕ} {tracked : FMap Txid TrackedTransaction}
variable (counted : stats.Counted count best bucket tracked) (young : Young tracked best) (within : target ≤ stats.maxConfirms)
include counted young within

/-- A bucket adds what has waited, and the transactions of height 0 once more for every height below 0. -/
theorem inMempool_bucket {b : ℕ} (known : b < count) :
    stats.inMempool target best b = tracked.tally (waited bucket best target b b) +
      (stats.maxConfirms - max target (best + 1) : ℕ) * tracked.tally (enteredFirst bucket b b) := by
  have positive := stats.positive
  have parts := @sum_tally_congr _ _ _ tracked _ _ (insertNone (Finset.Ico target stats.maxConfirms))
    (insertNone (range (stats.maxConfirms - max target (best + 1))))
    (fun age entry => age.elim (entry.entryHeight + stats.maxConfirms ≤ best ∧ bucket entry = b)
      fun age => entry.entryHeight = best - age ∧ bucket entry = b)
    (fun part => part.elim (waited bucket best target b b) fun _ => enteredFirst bucket b b) (by
    intro txid entry stored
    rw [sum_insertNone, sum_insertNone]
    have ages := sum_ages (young txid entry stored) within
    by_cases here : bucket entry = b
    · simpa [waited, enteredFirst, here] using ages
    · have outside : ¬(b ≤ bucket entry ∧ bucket entry ≤ b) := by omega
      simp [waited, enteredFirst, here, outside])
  rw [sum_insertNone, sum_insertNone] at parts
  simp only [Option.elim_none, Option.elim_some] at parts
  rw [sum_const, card_range, smul_eq_mul] at parts
  have recent : ∑ age ∈ Finset.Ico target stats.maxConfirms, (stats.unconfirmed ((best - age) % stats.maxConfirms) b).val =
      ∑ age ∈ Finset.Ico target stats.maxConfirms,
        (tracked.tally fun entry => entry.entryHeight = best - age ∧ bucket entry = b : ℤ) := by
    refine sum_congr rfl fun age inside => ?_
    have bound := (mem_Ico.mp inside).2
    exact counted.recent _ b (Nat.sub_le _ _) (by omega) known
  rw [ConfirmStats.inMempool, recent, counted.old b known]
  exact_mod_cast (Nat.add_comm _ _).trans parts

theorem inMempool_eq (known : near < count) :
    ∑ b ∈ Finset.Icc far near, stats.inMempool target best b = tracked.tally (waited bucket best target near far) +
      (stats.maxConfirms - max target (best + 1) : ℕ) * tracked.tally (enteredFirst bucket near far) := by
  have single : ∀ (q : Prop) [Decidable q] (b : ℕ),
      ∑ i ∈ Finset.Icc far near, (decide (q ∧ i ≤ b ∧ b ≤ i)).toNat = (decide (q ∧ far ≤ b ∧ b ≤ near)).toNat := by
    intro q _ b
    have same : ∀ i, (i ≤ b ∧ b ≤ i) ↔ b = i := fun i => by omega
    by_cases holds : q <;> simp [holds, same, Bool.toNat, Bool.cond_decide]
  have waits := @tally_sum _ _ _ tracked (waited bucket best target near far) _ (Finset.Icc far near)
    (fun b => waited bucket best target b b) fun txid entry _ => single _ _
  have firsts := @tally_sum _ _ _ tracked (enteredFirst bucket near far) _ (Finset.Icc far near)
    (fun b => enteredFirst bucket b b) fun txid entry _ => single _ _
  rw [← waits, ← firsts]
  push_cast
  rw [mul_sum, ← sum_add_distrib]
  refine sum_congr rfl fun b inside => ?_
  exact inMempool_bucket counted young within ((mem_Icc.mp inside).2.trans_lt known)

end pending

/-- In every state reached by consecutive blocks, for every target and every range of buckets, the count is that of the
transactions that have waited for the target, exactly when the chain is as long as the horizon, the target is the longest,
or no transaction of the range entered at height 0. -/
theorem pending_exact_iff (fresh : c.Fresh) {calls : List Call} (consecutive : c.Consecutive calls)
    (within : target ≤ ((c.run calls).stats horizon).maxConfirms) (known : near < (c.run calls).buckets.bounds.length) :
    (c.run calls).inMempool horizon target near far =
        (c.run calls).tracked.tally (waited (c.run calls).bucket (c.run calls).bestHeight target near far) ↔
      ((c.run calls).stats horizon).maxConfirms ≤ target ∨
      ((c.run calls).stats horizon).maxConfirms ≤ (c.run calls).bestHeight + 1 ∨
      ∀ txid entry, (c.run calls).tracked.lookup txid = some entry →
        far ≤ (c.run calls).bucket entry → (c.run calls).bucket entry ≤ near → entry.entryHeight ≠ 0 := by
  have exact_ := (exact_run fresh.exact_ fresh.young calls).mpr (fun i call found => consecutive.allows found) calls.length
  rw [List.take_length] at exact_
  have young := young_run fresh.young calls
  rw [inMempool, inMempool_eq ((counted_iff young (bucket_lt _)).mpr (exact_ horizon)) young within known, add_eq_left, mul_eq_zero, Int.natCast_eq_zero,
    Int.natCast_eq_zero, Nat.sub_eq_zero_iff_le, le_max_iff, or_assoc]
  refine or_congr_right (or_congr_right ⟨fun nobody txid entry stored low high zero => ?_, fun nobody => ?_⟩)
  · have counted := tally_pos stored (show enteredFirst (c.run calls).bucket near far entry = true by
      simp [enteredFirst, low, high, zero])
    omega
  · apply tally_eq_zero
    intro txid entry stored
    rw [enteredFirst, decide_eq_false_iff_not]
    rintro ⟨zero, low, high⟩
    exact nobody txid entry stored low high zero

def sampleFirst : List Call := [.track 1 (sampleSpend 1 [⟨7, 0⟩] [50000]) 5000 250 0, .process 1 []]

theorem sampleFirst_consecutive : sample.Consecutive sampleFirst := by
  constructor
  · intro i height confirmed found
    match i with
    | 0 => cases found
    | 1 =>
      cases found
      exact Nat.le_add_left _ _
    | i + 2 => cases found
  · intro k
    match k with
    | 0 => decide +kernel
    | 1 => decide +kernel
    | k + 2 =>
      rw [List.take_of_length_le (show sampleFirst.length ≤ k + 2 from Nat.le_add_left 2 k)]
      decide +kernel

theorem pending_exact_sample : sample.Fresh ∧ sample.Consecutive sampleFirst ∧
    ((sample.run sampleFirst).inMempool .short 12 1 0 =
      (sample.run sampleFirst).tracked.tally (waited (sample.run sampleFirst).bucket 1 12 1 0)) :=
  ⟨sample_fresh, sampleFirst_consecutive,
    (pending_exact_iff sample_fresh sampleFirst_consecutive (by decide +kernel) (by decide +kernel)).mpr (.inl (by decide +kernel))⟩

/-- One transaction is counted eleven times. -/
theorem pending_counted_many_times : sample.Consecutive sampleFirst ∧
    (sample.run sampleFirst).inMempool .short 1 1 0 = 11 ∧
    (sample.run sampleFirst).tracked.tally (waited (sample.run sampleFirst).bucket 1 1 1 0) = 1 :=
  ⟨sampleFirst_consecutive, by decide +kernel, by decide +kernel⟩

end FeeCounters

end BitcoindRs
