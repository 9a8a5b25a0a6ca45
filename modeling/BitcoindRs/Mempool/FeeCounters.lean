import BitcoindRs.Mempool.FeeEstimator
import BitcoindRs.Data.Tally

/-!
The counters of pending transactions that the fee estimator keeps for each horizon: a ring with one slot for each of the
last entry heights, and one counter for older entries. The moving averages are left out.
-/

namespace BitcoindRs
open FMap Finset

/-! ### Counters -/

/-- A value of type `i32`. -/
structure I32 where
  val : ℤ
  low : -(2 ^ 31) ≤ val
  high : val < 2 ^ 31

namespace I32

def clamp (n : ℤ) : I32 := ⟨max (-(2 ^ 31)) (min n (2 ^ 31 - 1)), by omega, by omega⟩

instance : Zero I32 := ⟨clamp 0⟩

@[simp] theorem val_zero : (0 : I32).val = 0 := rfl

theorem val_clamp {n : ℤ} : (clamp n).val = max (-(2 ^ 31)) (min n (2 ^ 31 - 1)) := rfl

end I32

structure ConfirmStats where
  maxConfirms : ℕ
  positive : 0 < maxConfirms
  /-- By slot and bucket. -/
  unconfirmed : ℕ → ℕ → I32
  oldUnconfirmed : ℕ → I32

namespace ConfirmStats

def counter (stats : ConfirmStats) : Option ℕ → ℕ → I32
  | none => stats.oldUnconfirmed
  | some index => stats.unconfirmed index

def bump (stats : ConfirmStats) (slot : Option ℕ) (bucket : ℕ) (amount : ℤ) : ConfirmStats :=
  let counters := Function.update (stats.counter slot) bucket (.clamp ((stats.counter slot bucket).val + amount))
  match slot with
  | none => { stats with oldUnconfirmed := counters }
  | some index => { stats with unconfirmed := Function.update stats.unconfirmed index counters }

def newTransaction (stats : ConfirmStats) (height bucket : ℕ) : ConfirmStats :=
  stats.bump (some (height % stats.maxConfirms)) bucket 1

def removeTransaction (stats : ConfirmStats) (entryHeight bestHeight bucket : ℕ) : ConfirmStats :=
  if stats.maxConfirms ≤ bestHeight - entryHeight then stats.bump none bucket (-1)
  else stats.bump (some (entryHeight % stats.maxConfirms)) bucket (-1)

def clearCurrent (stats : ConfirmStats) (height : ℕ) : ConfirmStats :=
  let index := height % stats.maxConfirms
  { stats with
    oldUnconfirmed := fun bucket => .clamp ((stats.oldUnconfirmed bucket).val + (stats.unconfirmed index bucket).val)
    unconfirmed := Function.update stats.unconfirmed index fun _ => 0 }

end ConfirmStats

/-- The boundaries between feerates. The finite values of `f64` are rational; `asF64` rounds to them. -/
structure FeeBuckets where
  asF64 : ℕ → ℚ
  bounds : List ℚ
  some_ : bounds ≠ []

def FeeBuckets.bucketIndex (buckets : FeeBuckets) (feeRate : ℕ) : ℕ :=
  min (buckets.bounds.findIdx fun boundary => buckets.asF64 feeRate ≤ boundary) (buckets.bounds.length - 1)

inductive Horizon where
  | short
  | medium
  | long
deriving DecidableEq, Repr

structure FeeCounters extends FeeEstimator where
  buckets : FeeBuckets
  stats : Horizon → ConfirmStats

namespace FeeCounters

def bucket (c : FeeCounters) (tracked : TrackedTransaction) : ℕ := c.buckets.bucketIndex tracked.feeRateSatPerKvb

def trackMempoolEntry (c : FeeCounters) (txid : Txid) (transaction : Transaction) (feeSat vsize height : ℕ) : FeeCounters :=
  let estimator := c.toFeeEstimator.trackMempoolEntry txid transaction feeSat vsize height
  match c.tracked.lookup txid, estimator.tracked.lookup txid with
  | none, some tracked => { c with
    toFeeEstimator := estimator
    stats := fun horizon => (c.stats horizon).newTransaction height (c.bucket tracked) }
  | _, _ => c

def removeFromMempool (c : FeeCounters) (txid : Txid) : FeeCounters :=
  match c.tracked.lookup txid with
  | none => c
  | some tracked => { c with
    toFeeEstimator := c.toFeeEstimator.removeFromMempool txid
    stats := fun horizon =>
      (c.stats horizon).removeTransaction tracked.entryHeight c.bestHeight (c.bucket tracked) }

/-- The first part of `process_block`, before the transactions of the block are taken out. -/
def advance (c : FeeCounters) (height : ℕ) : FeeCounters :=
  { c with
    bestHeight := height
    stats := fun horizon => (c.stats horizon).clearCurrent height }

def processBlock (c : FeeCounters) (height : ℕ) (confirmed : List Txid) : FeeCounters :=
  if height ≤ c.bestHeight then c
  else { confirmed.foldl removeFromMempool (c.advance height) with toFeeEstimator := c.toFeeEstimator.processBlock height confirmed }

inductive Call where
  | track (txid : Txid) (transaction : Transaction) (feeSat vsize height : ℕ)
  | remove (txid : Txid)
  | process (height : ℕ) (confirmed : List Txid)

def step (c : FeeCounters) : Call → FeeCounters
  | .track txid transaction feeSat vsize height => c.trackMempoolEntry txid transaction feeSat vsize height
  | .remove txid => c.removeFromMempool txid
  | .process height confirmed => c.processBlock height confirmed

def run (c : FeeCounters) (calls : List Call) : FeeCounters := calls.foldl step c

end FeeCounters

/-! ### What the counters stand for -/

section exactness
variable {stats : ConfirmStats} {count best height : ℕ} {bucket : TrackedTransaction → ℕ} {tracked : FMap Txid TrackedTransaction}
  {txid : Txid} {entry : TrackedTransaction}
variable {confirms index b : ℕ}

def place (confirms best entryHeight : ℕ) : Option ℕ :=
  if confirms ≤ best - entryHeight then none else some (entryHeight % confirms)

def placed (bucket : TrackedTransaction → ℕ) (confirms best : ℕ) (slot : Option ℕ) (b : ℕ) (entry : TrackedTransaction) : Bool :=
  place confirms best entry.entryHeight = slot ∧ bucket entry = b

def slots (confirms : ℕ) : Finset (Option ℕ) := insertNone (range confirms)

/-- Every counter of `count` buckets is the number of tracked transactions whose place it is. -/
def ConfirmStats.Exact (stats : ConfirmStats) (count best : ℕ) (bucket : TrackedTransaction → ℕ)
    (tracked : FMap Txid TrackedTransaction) : Prop :=
  ∀ slot ∈ slots stats.maxConfirms, ∀ b < count,
    (stats.counter slot b).val = tracked.tally (placed bucket stats.maxConfirms best slot b)

def Young (tracked : FMap Txid TrackedTransaction) (best : ℕ) : Prop :=
  ∀ txid entry, tracked.lookup txid = some entry → entry.entryHeight ≤ best

@[simp] theorem maxConfirms_bump (stats : ConfirmStats) (slot : Option ℕ) (b : ℕ) (amount : ℤ) :
    (stats.bump slot b amount).maxConfirms = stats.maxConfirms := by
  cases slot <;> rfl

theorem counter_bump (stats : ConfirmStats) (slot s : Option ℕ) (b b' : ℕ) (amount : ℤ) :
    (stats.bump slot b amount).counter s b' =
      if s = slot ∧ b' = b then .clamp ((stats.counter slot b).val + amount) else stats.counter s b' := by
  cases slot with
  | none =>
    cases s with
    | none => by_cases same : b' = b <;> simp [ConfirmStats.bump, ConfirmStats.counter, same]
    | some i => simp [ConfirmStats.bump, ConfirmStats.counter]
  | some index =>
    cases s with
    | none => simp [ConfirmStats.bump, ConfirmStats.counter]
    | some i =>
      by_cases here : i = index
      · subst here
        by_cases same : b' = b <;> simp [ConfirmStats.bump, ConfirmStats.counter, same]
      · simp [ConfirmStats.bump, ConfirmStats.counter, here]

theorem removeTransaction_eq (stats : ConfirmStats) (entryHeight best b : ℕ) :
    stats.removeTransaction entryHeight best b = stats.bump (place stats.maxConfirms best entryHeight) b (-1) := by
  unfold ConfirmStats.removeTransaction place
  split <;> rfl

theorem newTransaction_eq (stats : ConfirmStats) (best b : ℕ) :
    stats.newTransaction best b = stats.bump (place stats.maxConfirms best best) b 1 := by
  have positive := stats.positive
  rw [place, if_neg (by omega)]
  rfl

theorem none_mem_slots (confirms : ℕ) : none ∈ slots confirms := none_mem_insertNone

theorem some_mem_slots : some index ∈ slots confirms ↔ index < confirms := by
  simp [slots]

theorem mod_mem_slots (stats : ConfirmStats) (height : ℕ) : some (height % stats.maxConfirms) ∈ slots stats.maxConfirms :=
  some_mem_slots.mpr (Nat.mod_lt height stats.positive)

theorem place_mem_slots (stats : ConfirmStats) (best height : ℕ) :
    place stats.maxConfirms best height ∈ slots stats.maxConfirms := by
  unfold place
  split
  · exact none_mem_slots _
  · exact mod_mem_slots stats height

theorem toNat_placed (confirms : ℕ) (slot : Option ℕ) (b : ℕ) : (placed bucket confirms best slot b entry).toNat =
      if slot = place confirms best entry.entryHeight ∧ b = bucket entry then 1 else 0 := by
  simp only [placed, Bool.toNat, Bool.cond_decide, eq_comm]

theorem exact_insert (exact_ : stats.Exact count best bucket tracked) (absent : tracked.lookup txid = none)
    (now : entry.entryHeight = best) (inside : bucket entry < count) :
    (stats.newTransaction best (bucket entry)).Exact count best bucket (tracked.insert txid entry) ↔
      tracked.tally (placed bucket stats.maxConfirms best (place stats.maxConfirms best best) (bucket entry)) + 1 < 2 ^ 31 := by
  have here := exact_ (place stats.maxConfirms best best) (place_mem_slots stats best best) (bucket entry) inside
  have high := (stats.counter (place stats.maxConfirms best best) (bucket entry)).high
  rw [newTransaction_eq]
  constructor
  · intro after
    have counted := after (place stats.maxConfirms best best) (by
      rw [maxConfirms_bump]
      exact place_mem_slots stats best best) (bucket entry) inside
    have bound := ((stats.bump (place stats.maxConfirms best best) (bucket entry) 1).counter
      (place stats.maxConfirms best best) (bucket entry)).high
    rw [counted, maxConfirms_bump, tally_insert _ _ absent, toNat_placed, now, if_pos ⟨rfl, rfl⟩] at bound
    omega
  · intro small slot known b below
    rw [maxConfirms_bump] at known
    rw [counter_bump, maxConfirms_bump, tally_insert _ _ absent, toNat_placed, now]
    split
    · rename_i same
      rw [same.1, same.2, I32.val_clamp]
      omega
    · exact exact_ slot known b below

theorem exact_erase (stored : tracked.lookup txid = some entry) :
    (stats.removeTransaction entry.entryHeight best (bucket entry)).Exact count best bucket (tracked.erase txid) ↔
      stats.Exact count best bucket tracked := by
  rw [removeTransaction_eq, ConfirmStats.Exact, maxConfirms_bump]
  refine forall₄_congr fun slot known b below => ?_
  have fewer := tally_erase (placed bucket stats.maxConfirms best slot b) stored
  have low := (stats.counter slot b).low
  have high := (stats.counter slot b).high
  rw [counter_bump]
  rw [toNat_placed] at fewer
  split
  · rename_i same
    rw [if_pos same] at fewer
    rw [← same.1, ← same.2, I32.val_clamp]
    omega
  · rename_i differs
    rw [if_neg differs] at fewer
    omega

/-- Two heights less than `n` apart are in different slots. -/
theorem mod_ne_of_window {a n : ℕ} (lt : a < b) (window : b < a + n) : a % n ≠ b % n := by
  intro same
  obtain ⟨k, gap⟩ := (Nat.modEq_iff_dvd' lt.le).mp same
  rcases Nat.eq_zero_or_pos k with rfl | positive
  · omega
  · have := Nat.le_mul_of_pos_right n positive
    omega

/-- No tracked transaction grows too old for the ring at a height that was skipped. -/
def Unskipped (tracked : FMap Txid TrackedTransaction) (confirms best height : ℕ) : Prop :=
  ∀ txid entry, tracked.lookup txid = some entry → best < entry.entryHeight + confirms → entry.entryHeight + confirms ≤ height →
    entry.entryHeight % confirms = height % confirms

theorem counter_clearCurrent (stats : ConfirmStats) (height : ℕ) (slot : Option ℕ) (b : ℕ) :
    (stats.clearCurrent height).counter slot b = match slot with
      | none => .clamp ((stats.counter none b).val + (stats.counter (some (height % stats.maxConfirms)) b).val)
      | some i => if i = height % stats.maxConfirms then 0 else stats.counter (some i) b := by
  cases slot with
  | none => rfl
  | some i => by_cases here : i = height % stats.maxConfirms <;> simp [ConfirmStats.clearCurrent, ConfirmStats.counter, here]

/-- At a later height an entry is where it was, unless it was in the slot that is cleared. -/
theorem place_later {entryHeight : ℕ} (positive : 0 < confirms) (low : entryHeight ≤ best) (later : best < height)
    (unskipped : best < entryHeight + confirms → entryHeight + confirms ≤ height → entryHeight % confirms = height % confirms) :
    place confirms height entryHeight =
      if place confirms best entryHeight = some (height % confirms) then none else place confirms best entryHeight := by
  unfold place
  by_cases old : confirms ≤ best - entryHeight
  · simp [old, show confirms ≤ height - entryHeight by omega]
  · by_cases gone : confirms ≤ height - entryHeight
    · simp [old, gone, unskipped (by omega) (by omega)]
    · have apart := mod_ne_of_window (show entryHeight < height by omega) (show height < entryHeight + confirms by omega)
      simp [old, gone, apart]

theorem exact_clear (exact_ : stats.Exact count best bucket tracked) (young : Young tracked best) (later : best < height)
    (inside : ∀ entry, bucket entry < count) :
    (stats.clearCurrent height).Exact count height bucket tracked ↔ Unskipped tracked stats.maxConfirms best height ∧
      ∀ b < count, tracked.tally (placed bucket stats.maxConfirms height none b) < 2 ^ 31 := by
  have positive := stats.positive
  have confirms : (stats.clearCurrent height).maxConfirms = stats.maxConfirms := rfl
  constructor
  · intro after
    refine ⟨?_, ?_⟩
    · intro txid entry stored recent out
      by_contra elsewhere
      -- The slot of the entry still counts it.
      have counted := after _ (mod_mem_slots stats entry.entryHeight) (bucket entry) (inside entry)
      rw [counter_clearCurrent] at counted
      dsimp only at counted
      rw [if_neg elsewhere, exact_ _ (mod_mem_slots stats entry.entryHeight) _ (inside entry), confirms, Nat.cast_inj] at counted
      refine (tally_lt stored ?_ ?_ ?_).ne' counted
      · intro txid other _
        rw [placed, placed, decide_eq_true_iff, decide_eq_true_iff, place, place]
        rintro ⟨here, same⟩
        split at here
        · cases here
        · exact ⟨by rwa [if_neg (by omega)], same⟩
      · simp [placed, place, show stats.maxConfirms ≤ height - entry.entryHeight by omega]
      · simp [placed, place, show ¬ stats.maxConfirms ≤ best - entry.entryHeight by omega]
    · intro b below
      have counted := after none (none_mem_slots _) b below
      have high := ((stats.clearCurrent height).counter none b).high
      rw [confirms] at counted
      omega
  · rintro ⟨unskipped, small⟩ slot known b below
    have moved := fun txid other stored => place_later positive (young txid other stored) later (unskipped txid other stored)
    rw [counter_clearCurrent, confirms]
    cases slot with
    | none =>
      have split := @tally_split _ _ _ tracked (placed bucket stats.maxConfirms height none b)
        (placed bucket stats.maxConfirms best none b) (placed bucket stats.maxConfirms best (some (height % stats.maxConfirms)) b) (by
        intro txid other stored
        rw [toNat_placed, toNat_placed, toNat_placed, moved txid other stored]
        by_cases cleared : place stats.maxConfirms best other.entryHeight = some (height % stats.maxConfirms)
        · simp [cleared]
        · simp [cleared, Ne.symm cleared])
      have bound := small b below
      dsimp only
      rw [exact_ none (none_mem_slots _) b below, exact_ _ (mod_mem_slots stats height) b below, I32.val_clamp]
      omega
    | some i =>
      dsimp only
      split
      · rename_i here
        rw [I32.val_zero, tally_eq_zero]
        · rfl
        · intro txid other stored
          rw [placed, moved txid other stored, here]
          split <;> simp_all
      · rename_i elsewhere
        rw [exact_ _ known b below]
        congr 1
        apply tally_congr
        intro txid other stored
        rw [placed, placed, moved txid other stored]
        split
        · rename_i cleared
          simp [cleared, Ne.symm elsewhere]
        · rfl

/-- The counters in terms of heights. -/
structure ConfirmStats.Counted (stats : ConfirmStats) (count best : ℕ) (bucket : TrackedTransaction → ℕ)
    (tracked : FMap Txid TrackedTransaction) : Prop where
  recent : ∀ height b, height ≤ best → best < height + stats.maxConfirms → b < count →
    (stats.unconfirmed (height % stats.maxConfirms) b).val =
      tracked.tally fun entry => entry.entryHeight = height ∧ bucket entry = b
  old : ∀ b < count, (stats.oldUnconfirmed b).val =
    tracked.tally fun entry => entry.entryHeight + stats.maxConfirms ≤ best ∧ bucket entry = b
  nonneg : ∀ slot ∈ slots stats.maxConfirms, ∀ b < count, 0 ≤ (stats.counter slot b).val
  sum : ∑ b ∈ range count, ∑ slot ∈ slots stats.maxConfirms, (stats.counter slot b).val = tracked.keys.card

theorem exists_height_in_slot (inside : index < confirms) (reached : index ≤ best) :
    ∃ height, height ≤ best ∧ best < height + confirms ∧ height % confirms = index := by
  have size := Nat.mod_lt (best - index) (show 0 < confirms by omega)
  have parts := Nat.div_add_mod (best - index) confirms
  refine ⟨index + confirms * ((best - index) / confirms), by omega, by omega, ?_⟩
  rw [Nat.add_mul_mod_self_left, Nat.mod_eq_of_lt inside]

/-- The only height of the window in a slot. -/
theorem tally_placed_recent (young : Young tracked best) (below : height ≤ best) (inside : best < height + confirms) :
    tracked.tally (placed bucket confirms best (some (height % confirms)) b) =
      tracked.tally fun entry => entry.entryHeight = height ∧ bucket entry = b := by
  apply tally_congr
  intro txid entry stored
  have low := young txid entry stored
  rw [placed, decide_eq_decide, place]
  refine and_congr_left fun _ => ?_
  split
  · refine iff_of_false nofun ?_
    omega
  · rw [Option.some_inj]
    refine ⟨fun same => ?_, fun same => by rw [same]⟩
    by_contra differs
    rcases Nat.lt_or_gt_of_ne differs with lt | lt
    · exact mod_ne_of_window lt (by omega) same
    · exact mod_ne_of_window lt (by omega) same.symm

theorem tally_placed_old (tracked : FMap Txid TrackedTransaction) (positive : 0 < confirms) (b : ℕ) :
    tracked.tally (placed bucket confirms best none b) =
      tracked.tally fun entry => entry.entryHeight + confirms ≤ best ∧ bucket entry = b := by
  apply tally_congr
  intro txid entry _
  rw [placed, decide_eq_decide, place]
  refine and_congr_left fun _ => ?_
  split
  · exact iff_of_true rfl (by omega)
  · exact iff_of_false nofun (by omega)

/-- Every tracked transaction has one place. -/
theorem sum_placed (stats : ConfirmStats) (best : ℕ) (tracked : FMap Txid TrackedTransaction) (inside : ∀ entry, bucket entry < count) :
    ∑ b ∈ range count, ∑ slot ∈ slots stats.maxConfirms, tracked.tally (placed bucket stats.maxConfirms best slot b) =
      tracked.keys.card := by
  rw [← sum_product', ← tally_true]
  apply tally_sum
  intro txid entry _
  rw [sum_eq_single (bucket entry, place stats.maxConfirms best entry.entryHeight)]
  · rw [toNat_placed, if_pos ⟨rfl, rfl⟩]
    rfl
  · rintro ⟨b, slot⟩ _ other
    rw [toNat_placed, if_neg]
    rintro ⟨rfl, rfl⟩
    exact other rfl
  · intro outside
    refine absurd (mem_product.mpr ⟨mem_range.mpr (inside entry), ?_⟩) outside
    exact place_mem_slots stats best entry.entryHeight

theorem counted_iff (young : Young tracked best) (inside : ∀ entry, bucket entry < count) :
    stats.Counted count best bucket tracked ↔ stats.Exact count best bucket tracked := by
  have positive := stats.positive
  have total := sum_placed stats best tracked inside
  constructor
  · intro counted
    -- A slot that no height of the window has is nonnegative and counts nothing; the sum leaves it nothing.
    have least : ∀ slot ∈ slots stats.maxConfirms, ∀ b < count,
        (tracked.tally (placed bucket stats.maxConfirms best slot b) : ℤ) ≤ (stats.counter slot b).val := by
      intro slot known b below
      cases slot with
      | none =>
        rw [tally_placed_old tracked positive]
        exact (counted.old b below).ge
      | some index =>
        by_cases reached : index ≤ best
        · obtain ⟨height, under, recent, rfl⟩ := exists_height_in_slot (some_mem_slots.mp known) reached
          rw [tally_placed_recent young under recent]
          exact (counted.recent height b under recent below).ge
        · rw [tally_eq_zero]
          · exact counted.nonneg _ known b below
          · intro txid entry stored
            have low := young txid entry stored
            rw [placed, decide_eq_false_iff_not, place]
            rintro ⟨same, -⟩
            split at same
            · cases same
            · have := Nat.mod_le entry.entryHeight stats.maxConfirms
              have := Option.some.inj same
              omega
    have sums := counted.sum
    rw [← total] at sums
    push_cast at sums
    have rows := (sum_eq_sum_iff_of_le fun b below => sum_le_sum fun slot known =>
      least slot known b (mem_range.mp below)).mp sums.symm
    intro slot known b below
    have row := (sum_eq_sum_iff_of_le fun slot known => least slot known b below).mp
      (rows b (mem_range.mpr below))
    exact (row slot known).symm
  · intro exact_
    refine ⟨?_, ?_, ?_, ?_⟩
    · intro height b below recent known
      rw [← tally_placed_recent young below recent]
      exact exact_ _ (mod_mem_slots stats height) b known
    · intro b known
      rw [← tally_placed_old tracked positive]
      exact exact_ none (none_mem_slots _) b known
    · intro slot known b below
      rw [exact_ slot known b below]
      exact Int.natCast_nonneg _
    · rw [← total]
      push_cast
      refine sum_congr rfl fun b below => sum_congr rfl fun slot known => ?_
      exact exact_ slot known b (mem_range.mp below)

end exactness

namespace FeeCounters
variable {c : FeeCounters} {height : ℕ} {txid : Txid}
variable {confirms best b : ℕ} {bucket : TrackedTransaction → ℕ} {entry : TrackedTransaction}

def Exact (c : FeeCounters) : Prop :=
  ∀ horizon, (c.stats horizon).Exact c.buckets.bounds.length c.bestHeight c.bucket c.tracked

def Counted (c : FeeCounters) (horizon : Horizon) : Prop :=
  (c.stats horizon).Counted c.buckets.bounds.length c.bestHeight c.bucket c.tracked

def Fresh (c : FeeCounters) : Prop :=
  c.tracked = ∅ ∧ ∀ horizon slot b, (c.stats horizon).counter slot b = 0

theorem bucket_lt (c : FeeCounters) (entry : TrackedTransaction) : c.bucket entry < c.buckets.bounds.length := by
  have positive := List.length_pos_iff.mpr c.buckets.some_
  unfold bucket FeeBuckets.bucketIndex
  omega

theorem Fresh.exact_ (fresh : c.Fresh) : c.Exact := by
  intro horizon slot _ b _
  rw [fresh.2, fresh.1, tally_empty]
  rfl

theorem Fresh.young (fresh : c.Fresh) : Young c.tracked c.bestHeight := by
  intro txid entry stored
  rw [fresh.1, Finmap.lookup_empty] at stored
  cases stored

/-- A transaction is either ignored or counted under the best height. -/
theorem trackMempoolEntry_cases (c : FeeCounters) (txid : Txid) (transaction : Transaction) (feeSat vsize height : ℕ) :
    c.trackMempoolEntry txid transaction feeSat vsize height = c ∨ ∃ entry : TrackedTransaction,
      c.tracked.lookup txid = none ∧ entry.entryHeight = c.bestHeight ∧
      c.trackMempoolEntry txid transaction feeSat vsize height =
        { c with
          tracked := c.tracked.insert txid entry
          stats := fun horizon => (c.stats horizon).newTransaction c.bestHeight (c.bucket entry) } := by
  unfold trackMempoolEntry FeeEstimator.trackMempoolEntry
  dsimp only
  rcases known : c.tracked.lookup txid with _ | entry
  · by_cases ignored : vsize = 0 ∨ height ≠ c.bestHeight ∨ (none : Option TrackedTransaction).isSome
    · left
      rw [if_pos ignored, known]
    · rw [if_neg ignored]
      push Not at ignored
      by_cases free : feeSat * 1000 / vsize = 0 ∨ transaction.isCoinbase
      · left
        rw [if_pos free, known]
      · right
        refine ⟨⟨c.bestHeight, feeSat * 1000 / vsize⟩, rfl, rfl, ?_⟩
        rw [if_neg free, ignored.2.1]
        dsimp only
        rw [Finmap.lookup_insert]
  · left
    rfl

theorem lookup_trackMempoolEntry (c : FeeCounters) (txid : Txid) (transaction : Transaction) (feeSat vsize height : ℕ) :
    (c.trackMempoolEntry txid transaction feeSat vsize height).tracked.lookup txid =
      (c.toFeeEstimator.trackMempoolEntry txid transaction feeSat vsize height).tracked.lookup txid := by
  unfold trackMempoolEntry
  dsimp only
  split
  · rfl
  · rename_i uncounted
    rcases known : c.tracked.lookup txid with _ | entry
    · rcases found : (c.toFeeEstimator.trackMempoolEntry txid transaction feeSat vsize height).tracked.lookup txid with _ | entry
      · rfl
      · exact absurd found (uncounted entry known)
    · rw [FeeEstimator.trackMempoolEntry, if_pos (by simp [known]), known]

theorem removeFromMempool_cases (c : FeeCounters) (txid : Txid) :
    c.removeFromMempool txid = c ∧ c.tracked.lookup txid = none ∨ ∃ entry, c.tracked.lookup txid = some entry ∧
      c.removeFromMempool txid =
        { c with
          tracked := c.tracked.erase txid
          stats := fun horizon =>
            (c.stats horizon).removeTransaction entry.entryHeight c.bestHeight (c.bucket entry) } := by
  rcases stored : c.tracked.lookup txid with _ | entry <;> simp [removeFromMempool, FeeEstimator.removeFromMempool, stored]

theorem exact_removeFromMempool (c : FeeCounters) (txid : Txid) : (c.removeFromMempool txid).Exact ↔ c.Exact := by
  obtain ⟨same, -⟩ | ⟨entry, stored, same⟩ := c.removeFromMempool_cases txid
  · rw [same]
  · rw [same]
    exact forall_congr' fun horizon => exact_erase stored

theorem young_removeFromMempool (txid : Txid) (young : Young c.tracked c.bestHeight) :
    Young (c.removeFromMempool txid).tracked (c.removeFromMempool txid).bestHeight := by
  obtain ⟨same, -⟩ | ⟨entry, stored, same⟩ := c.removeFromMempool_cases txid
  · rwa [same]
  · rw [same]
    intro other kept found
    rw [lookup_erase_ite] at found
    split at found
    · cases found
    · exact young other kept found

/-- The estimator of the counters is the estimator that `process_block` leaves. -/
theorem foldl_removeFromMempool_tracked (confirmed : List Txid) (c : FeeCounters) (counted : ℕ) :
    (confirmed.foldl removeFromMempool c).tracked =
      (confirmed.foldl FeeEstimator.confirm (c.tracked, counted)).1 := by
  induction confirmed generalizing c counted with
  | nil => rfl
  | cons txid confirmed ih =>
    rw [List.foldl_cons, List.foldl_cons]
    obtain ⟨same, absent⟩ | ⟨entry, stored, same⟩ := c.removeFromMempool_cases txid
    · rw [same, FeeEstimator.confirm, absent]
      exact ih c counted
    · rw [same, FeeEstimator.confirm, stored]
      exact ih _ _

theorem foldl_removeFromMempool_frame (confirmed : List Txid) (c : FeeCounters) :
    (confirmed.foldl removeFromMempool c).buckets = c.buckets ∧
      (confirmed.foldl removeFromMempool c).bestHeight = c.bestHeight := by
  induction confirmed generalizing c with
  | nil => exact ⟨rfl, rfl⟩
  | cons txid confirmed ih =>
    rw [List.foldl_cons]
    obtain ⟨same, -⟩ | ⟨entry, -, same⟩ := c.removeFromMempool_cases txid
    · rw [same]
      exact ih c
    · rw [same]
      exact ih _

theorem foldl_removeFromMempool_exact (confirmed : List Txid) (c : FeeCounters) :
    (confirmed.foldl removeFromMempool c).Exact ↔ c.Exact := by
  induction confirmed generalizing c with
  | nil => rfl
  | cons txid confirmed ih => rw [List.foldl_cons, ih, exact_removeFromMempool]

theorem foldl_removeFromMempool_young (confirmed : List Txid) (young : Young c.tracked c.bestHeight) :
    Young (confirmed.foldl removeFromMempool c).tracked c.bestHeight := by
  rw [← (foldl_removeFromMempool_frame confirmed c).2]
  exact List.foldlRecOn (motive := fun c : FeeCounters => Young c.tracked c.bestHeight)
    confirmed removeFromMempool young fun c young txid _ => young_removeFromMempool txid young

theorem processBlock_estimator (confirmed : List Txid) (later : c.bestHeight < height) :
    (c.processBlock height confirmed).bestHeight = height ∧
      (c.processBlock height confirmed).tracked =
        (confirmed.foldl removeFromMempool (c.advance height)).tracked := by
  rw [foldl_removeFromMempool_tracked confirmed _ 0, processBlock, if_neg (by omega), FeeEstimator.processBlock, if_neg (by omega)]
  exact ⟨rfl, rfl⟩

theorem exact_processBlock (exact_ : c.Exact) (young : Young c.tracked c.bestHeight)
    (confirmed : List Txid) (later : c.bestHeight < height) :
    (c.processBlock height confirmed).Exact ↔ ∀ horizon,
      Unskipped c.tracked (c.stats horizon).maxConfirms c.bestHeight height ∧
      ∀ b < c.buckets.bounds.length,
        c.tracked.tally (placed c.bucket (c.stats horizon).maxConfirms height none b) < 2 ^ 31 := by
  refine Iff.trans ?_ (forall_congr' fun horizon => exact_clear (exact_ horizon) young later c.bucket_lt)
  refine Iff.trans ?_ (foldl_removeFromMempool_exact confirmed (c.advance height))
  obtain ⟨best, tracked⟩ := processBlock_estimator confirmed later
  have frame := foldl_removeFromMempool_frame confirmed (c.advance height)
  have buckets : (c.processBlock height confirmed).buckets = (confirmed.foldl removeFromMempool (c.advance height)).buckets := by
    rw [processBlock, if_neg (by omega)]
  have stats : (c.processBlock height confirmed).stats = (confirmed.foldl removeFromMempool (c.advance height)).stats := by
    rw [processBlock, if_neg (by omega)]
  unfold Exact bucket
  rw [best, tracked, buckets, stats, frame.2]
  rfl

/-! ### Runs -/

/-- No counter that the call raises is at its largest value, and no entry grows too old at a height that was skipped. -/
def Allows (c : FeeCounters) : Call → Prop
  | .track txid transaction feeSat vsize height => ∀ entry, c.tracked.lookup txid = none →
    (c.toFeeEstimator.trackMempoolEntry txid transaction feeSat vsize height).tracked.lookup txid = some entry →
    ∀ horizon, c.tracked.tally (placed c.bucket (c.stats horizon).maxConfirms c.bestHeight
      (place (c.stats horizon).maxConfirms c.bestHeight c.bestHeight) (c.bucket entry)) + 1 < 2 ^ 31
  | .remove _ => True
  | .process height _ => c.bestHeight < height → ∀ horizon,
    Unskipped c.tracked (c.stats horizon).maxConfirms c.bestHeight height ∧
    ∀ b < c.buckets.bounds.length,
      c.tracked.tally (placed c.bucket (c.stats horizon).maxConfirms height none b) < 2 ^ 31

theorem exact_step (exact_ : c.Exact) (young : Young c.tracked c.bestHeight) (call : Call) :
    (c.step call).Exact ↔ c.Allows call := by
  cases call with
  | track txid transaction feeSat vsize height =>
    have tracked := c.lookup_trackMempoolEntry txid transaction feeSat vsize height
    rw [step, Allows]
    obtain same | ⟨entry, absent, now, same⟩ := c.trackMempoolEntry_cases txid transaction feeSat vsize height
    · rw [same] at tracked ⊢
      refine iff_of_true exact_ fun entry absent found => ?_
      rw [← tracked, absent] at found
      cases found
    · rw [← tracked, same]
      simp only [Finmap.lookup_insert, Option.some.injEq, forall_eq', absent, true_imp_iff]
      exact forall_congr' fun horizon => exact_insert (exact_ horizon) absent now (c.bucket_lt entry)
  | remove txid => exact iff_of_true ((exact_removeFromMempool c txid).mpr exact_) trivial
  | process height confirmed =>
    rw [step, Allows]
    by_cases later : c.bestHeight < height
    · rw [exact_processBlock exact_ young confirmed later]
      exact ⟨fun all _ => all, fun all => all later⟩
    · rw [processBlock, if_pos (by omega)]
      exact iff_of_true exact_ fun now => absurd now later

theorem young_step (young : Young c.tracked c.bestHeight) (call : Call) :
    Young (c.step call).tracked (c.step call).bestHeight := by
  cases call with
  | track txid transaction feeSat vsize height =>
    rw [step]
    obtain same | ⟨entry, absent, now, same⟩ := c.trackMempoolEntry_cases txid transaction feeSat vsize height
    · rwa [same]
    · rw [same]
      intro other found stored
      dsimp only at stored
      rw [lookup_insert_ite] at stored
      split at stored
      · cases stored
        exact now.le
      · exact young other found stored
  | remove txid => exact young_removeFromMempool txid young
  | process height confirmed =>
    rw [step]
    by_cases later : c.bestHeight < height
    · rw [(processBlock_estimator confirmed later).1, (processBlock_estimator confirmed later).2]
      refine @foldl_removeFromMempool_young (c.advance height) confirmed fun txid entry stored => ?_
      exact (young txid entry stored).trans later.le
    · rwa [processBlock, if_pos (by omega)]

theorem young_run (young : Young c.tracked c.bestHeight) (calls : List Call) :
    Young (c.run calls).tracked (c.run calls).bestHeight :=
  List.foldlRecOn (motive := fun c : FeeCounters => Young c.tracked c.bestHeight)
    calls step young fun _ young call _ => young_step young call

/-- The counters stay exact as long as the calls are allowed, and no longer. -/
theorem exact_run (exact_ : c.Exact) (young : Young c.tracked c.bestHeight) (calls : List Call) :
    (∀ k, (c.run (calls.take k)).Exact) ↔ ∀ i call, calls[i]? = some call → (c.run (calls.take i)).Allows call := by
  induction calls generalizing c with
  | nil => simpa [run] using exact_
  | cons call calls ih =>
    have unfolded : ∀ k, c.run ((call :: calls).take (k + 1)) = (c.step call).run (calls.take k) := fun _ => rfl
    constructor
    · intro all
      have exactNext : (c.step call).Exact := all 1
      have next := (ih exactNext (young_step young call)).mp fun k => all (k + 1)
      intro i wanted found
      cases i with
      | zero =>
        cases found
        exact (exact_step exact_ young call).mp exactNext
      | succ i => exact next i wanted found
    · intro allowed
      have exactNext : (c.step call).Exact := (exact_step exact_ young call).mpr (allowed 0 call rfl)
      have next := (ih exactNext (young_step young call)).mpr fun i wanted found => allowed (i + 1) wanted found
      intro k
      cases k with
      | zero => exact exact_
      | succ k => exact next k

/-- Along every run of a fresh estimator, the counters of every horizon are the numbers of tracked transactions by entry
height exactly as long as no entry grows too old at a height that was skipped, and no counter reaches its largest value. -/
theorem fee_counters_exact_iff (fresh : c.Fresh) (calls : List Call) :
    (∀ k horizon, (c.run (calls.take k)).Counted horizon) ↔
      ∀ i call, calls[i]? = some call → (c.run (calls.take i)).Allows call := by
  rw [← exact_run fresh.exact_ fresh.young calls]
  exact forall₂_congr fun k horizon => counted_iff (young_run fresh.young (calls.take k)) (bucket_lt _)

def sampleStats (maxConfirms : ℕ) (positive : 0 < maxConfirms) : ConfirmStats := ⟨maxConfirms, positive, fun _ _ => 0, fun _ => 0⟩

def sample : FeeCounters :=
  ⟨⟨0, 0, ∅⟩, ⟨fun feeRate => feeRate, [1000, 100000], by decide⟩, fun
    | .short => sampleStats 12 (by decide)
    | .medium => sampleStats 48 (by decide)
    | .long => sampleStats 1008 (by decide)⟩

theorem sample_fresh : sample.Fresh := by
  refine ⟨rfl, fun horizon slot b => ?_⟩
  cases horizon <;> cases slot <;> rfl

/-- A transaction that enters at height 0 is removed after a block of height 13, whose slot is not that of height 0. -/
def sampleJump : List Call := [.track 1 (sampleSpend 1 [⟨7, 0⟩] [50000]) 5000 250 0, .process 13 [], .remove 1]

theorem fee_counters_exact_jump : sample.Fresh ∧ ((∀ k horizon, (sample.run (sampleJump.take k)).Counted horizon) ↔
      ∀ i call, sampleJump[i]? = some call → (sample.run (sampleJump.take i)).Allows call) :=
  ⟨sample_fresh, fee_counters_exact_iff sample_fresh sampleJump⟩

/-- No transaction is left, the slot still counts one, and the counter of old entries is negative. -/
theorem fee_counters_negative_after_jump : (sample.run sampleJump).tracked.lookup 1 = none ∧
      (((sample.run sampleJump).stats .short).unconfirmed 0 1).val = 1 ∧
      (((sample.run sampleJump).stats .short).oldUnconfirmed 1).val = -1 ∧
      ¬ ∀ k horizon, (sample.run (sampleJump.take k)).Counted horizon := by
  have below : (((sample.run sampleJump).stats .short).oldUnconfirmed 1).val = -1 := by decide +kernel
  refine ⟨by decide +kernel, by decide +kernel, below, ?_⟩
  intro counted
  have nonneg := (counted 3 .short).nonneg none (none_mem_slots _) 1 (by decide +kernel)
  rw [show sampleJump.take 3 = sampleJump from rfl, ConfirmStats.counter, below] at nonneg
  omega

end FeeCounters

end BitcoindRs
