import Mathlib
import BitcoindRs.Consensus.Types

namespace BitcoindRs
open List

structure Bip9Deployment where
  bit : ℕ
  startTime : ℤ
  timeout : ℤ
  minActivationHeight : ℕ
  maxActivationHeight : ℕ
  activeDuration : ℕ
  threshold : ℕ
  period : ℕ
deriving Repr, DecidableEq

namespace Bip9Deployment

def alwaysActiveTime : ℤ := -1

def neverActiveTime : ℤ := -2

def unbounded : ℕ := 2 ^ 31 - 1

def noTimeout : ℤ := 2 ^ 63 - 1

end Bip9Deployment

inductive Bip9State where
  | defined
  | started
  | lockedIn
  | active
  | failed
  | expired
deriving Repr, DecidableEq

def medianVersionbitsTime (headers : List Header) (last : ℕ) : ℕ :=
  let start := last - 10
  let times := (((headers.drop start).take (last + 1 - start)).map (·.time)).insertionSort (· ≤ ·)
  times[times.length / 2]?.getD 0

/-- The top three bits of the version, read as `u32`, are `001` and the deployment's bit is set. -/
def versionbitsSignals (header : Header) (bit : ℕ) : Bool :=
  let version := (header.version % 2 ^ 32).toNat
  version / 2 ^ 29 == 1 && version.testBit bit

/-- The variables the loop of `bip9StateAtHeight` carries. -/
structure Bip9Progress where
  state : Bip9State
  since : ℕ
  activationHeight : Option ℕ
  boundary : ℕ
deriving Repr, DecidableEq

section Machine

variable (headers : List Header) (deployment : Bip9Deployment) (period : ℕ)

def bip9NextState (progress : Bip9Progress) (medianTime signalCount : ℕ) : Bip9State :=
  match progress.state with
  | .defined => if (medianTime : ℤ) ≥ deployment.startTime then .started else .defined
  | .started =>
    if signalCount ≥ deployment.threshold then .lockedIn
    else if deployment.maxActivationHeight < Bip9Deployment.unbounded ∧
        progress.boundary ≥ deployment.maxActivationHeight - period then .lockedIn
    else if deployment.timeout ≠ Bip9Deployment.noTimeout ∧ (medianTime : ℤ) ≥ deployment.timeout then .failed
    else .started
  | .lockedIn => if progress.boundary ≥ deployment.minActivationHeight then .active else .lockedIn
  | .active =>
    if deployment.activeDuration < Bip9Deployment.unbounded ∧
        progress.activationHeight.any fun height =>
          min (height + deployment.activeDuration) (2 ^ 32 - 1) ≤ progress.boundary then .expired
    else .active
  | state => state

def bip9Body (progress : Bip9Progress) : Bip9Progress :=
  let previousEnd := min (progress.boundary - 1) (headers.length - 1)
  let previousStart := min (progress.boundary - period) previousEnd
  let medianTime := medianVersionbitsTime headers previousEnd
  let signalCount := ((headers.drop previousStart).take (previousEnd + 1 - previousStart)).countP
    fun header => versionbitsSignals header deployment.bit
  let nextState := bip9NextState deployment period progress medianTime signalCount
  if nextState ≠ progress.state then
    { progress with
      state := nextState
      since := progress.boundary
      activationHeight := if nextState = .active then some progress.boundary else progress.activationHeight }
  else progress

/-- `while boundary <= height`, with a bound on the number of rounds. -/
def bip9Loop (height : ℕ) : ℕ → Bip9Progress → Bip9Progress
  | 0, progress => progress
  | rounds + 1, progress =>
    if progress.boundary ≤ height then
      if headers.isEmpty then progress
      else
        let progress := bip9Body headers deployment period progress
        if progress.boundary + period < 2 ^ 32 then
          bip9Loop height rounds { progress with boundary := progress.boundary + period }
        else progress
    else progress

end Machine

def bip9StateAtHeight (headers : List Header) (deployment : Bip9Deployment) (height : ℕ) : Bip9State × ℕ :=
  if deployment.startTime = Bip9Deployment.alwaysActiveTime then (.active, 0)
  else if deployment.startTime = Bip9Deployment.neverActiveTime then (.failed, 0)
  else
    let period := max deployment.period 1
    let progress := bip9Loop headers deployment period height (height + 1)
      { state := .defined, since := 0, activationHeight := none, boundary := period }
    (progress.state, progress.since)

/-! ## The recursive definition of the deployment states -/

namespace Bip9

def periodHeaders (headers : List Header) (period boundary : ℕ) : List Header :=
  let below := headers.take boundary
  below.drop (min (boundary - period) (below.length - 1))

def medianTimePast (headers : List Header) (boundary : ℕ) : ℕ :=
  let below := headers.take boundary
  let times := ((below.drop (below.length - 11)).map (·.time)).insertionSort (· ≤ ·)
  times[times.length / 2]?.getD 0

def signals (headers : List Header) (deployment : Bip9Deployment) (boundary : ℕ) : ℕ :=
  (periodHeaders headers deployment.period boundary).countP fun header => versionbitsSignals header deployment.bit

/-- The state from `boundary` on, of a deployment that was in `state` since `entered` in the period before. -/
def transition (headers : List Header) (deployment : Bip9Deployment) (boundary : ℕ) (entered : ℕ) :
    Bip9State → Bip9State
  | .defined => if deployment.startTime ≤ medianTimePast headers boundary then .started else .defined
  | .started =>
    if deployment.threshold ≤ signals headers deployment boundary ∨
        (deployment.maxActivationHeight < Bip9Deployment.unbounded ∧
          deployment.maxActivationHeight - deployment.period ≤ boundary) then .lockedIn
    else if deployment.timeout ≠ Bip9Deployment.noTimeout ∧
        deployment.timeout ≤ medianTimePast headers boundary then .failed
    else .started
  | .lockedIn => if deployment.minActivationHeight ≤ boundary then .active else .lockedIn
  | .active =>
    if deployment.activeDuration < Bip9Deployment.unbounded ∧
        min (entered + deployment.activeDuration) (2 ^ 32 - 1) ≤ boundary then .expired
    else .active
  | .failed => .failed
  | .expired => .expired

/-- The state in the period `index`, with the boundary at which it was entered. -/
def recursion (headers : List Header) (deployment : Bip9Deployment) : ℕ → Bip9State × ℕ
  | 0 => (.defined, 0)
  | index + 1 =>
    let before := recursion headers deployment index
    let boundary := (index + 1) * deployment.period
    let state := transition headers deployment boundary before.2 before.1
    if state = before.1 then before else (state, boundary)

/-- The state in the period `index`, for every start time. -/
def definition (headers : List Header) (deployment : Bip9Deployment) (index : ℕ) : Bip9State × ℕ :=
  if deployment.startTime = Bip9Deployment.alwaysActiveTime then (.active, 0)
  else if deployment.startTime = Bip9Deployment.neverActiveTime then (.failed, 0)
  else recursion headers deployment index

inductive Edge : Bip9State → Bip9State → Prop
  | start : Edge .defined .started
  | lockIn : Edge .started .lockedIn
  | fail : Edge .started .failed
  | activate : Edge .lockedIn .active
  | expire : Edge .active .expired

theorem Edge.ne {before after : Bip9State} (edge : Edge before after) : before ≠ after := by
  cases edge <;> decide

variable {headers other : List Header} {deployment : Bip9Deployment}

theorem slice_eq {α : Type*} (list : List α) (start boundary : ℕ) :
    (list.drop start).take (min boundary list.length - start) = (list.take boundary).drop start := by
  rw [drop_take, take_eq_take_iff, length_drop]
  omega

theorem transition_edge (boundary entered : ℕ) (state : Bip9State) :
    transition headers deployment boundary entered state = state ∨
      Edge state (transition headers deployment boundary entered state) := by
  cases state <;> simp only [transition]
  case defined => split <;> simp [Edge.start]
  case started =>
    split
    · exact .inr .lockIn
    · split <;> simp [Edge.fail]
  case lockedIn => split <;> simp [Edge.activate]
  case active => split <;> simp [Edge.expire]
  case failed => simp
  case expired => simp

theorem transition_congr {boundary : ℕ} (same : other.take boundary = headers.take boundary) (entered : ℕ)
    (state : Bip9State) :
    transition other deployment boundary entered state = transition headers deployment boundary entered state := by
  have median : medianTimePast other boundary = medianTimePast headers boundary := by
    simp only [medianTimePast, same]
  have count : signals other deployment boundary = signals headers deployment boundary := by
    simp only [signals, periodHeaders, same]
  cases state <;> simp only [transition, median, count]

theorem recursion_succ (headers : List Header) (deployment : Bip9Deployment) (index : ℕ) :
    recursion headers deployment (index + 1) = recursion headers deployment index ∨
      (Edge (recursion headers deployment index).1 (recursion headers deployment (index + 1)).1 ∧
        (recursion headers deployment (index + 1)).2 = (index + 1) * deployment.period) := by
  have edge := @transition_edge headers deployment ((index + 1) * deployment.period)
    (recursion headers deployment index).2 (recursion headers deployment index).1
  simp only [recursion]
  split
  case isTrue => exact .inl rfl
  case isFalse changed => exact .inr ⟨edge.resolve_left changed, rfl⟩

theorem recursion_congr (index : ℕ)
    (same : other.take (index * deployment.period) = headers.take (index * deployment.period)) :
    recursion other deployment index = recursion headers deployment index := by
  induction index with
  | zero => rfl
  | succ index ih =>
    have shorter : index * deployment.period ≤ (index + 1) * deployment.period :=
      Nat.mul_le_mul_right _ (Nat.le_succ index)
    have before := ih (by
      have cut := congrArg (List.take (index * deployment.period)) same
      rwa [take_take, take_take, min_eq_left shorter] at cut)
    simp only [recursion, before, transition_congr same]

theorem recursion_since (headers : List Header) (deployment : Bip9Deployment) (index : ℕ) :
    ∃ entry ≤ index, (recursion headers deployment index).2 = entry * deployment.period ∧
      (∀ between, entry ≤ between → between ≤ index →
        recursion headers deployment between = recursion headers deployment index) ∧
      (∀ before, entry = before + 1 →
        (recursion headers deployment before).1 ≠ (recursion headers deployment index).1) := by
  induction index with
  | zero =>
    refine ⟨0, le_rfl, (Nat.zero_mul _).symm, ?_, fun _ impossible => (Nat.succ_ne_zero _ impossible.symm).elim⟩
    intro between _ last
    rw [Nat.le_zero.mp last]
  | succ index ih =>
    rcases recursion_succ headers deployment index with same | ⟨edge, entered⟩
    · obtain ⟨entry, early, since, held, began⟩ := ih
      refine ⟨entry, early.trans (Nat.le_succ index), by rw [same, since], ?_, ?_⟩
      · intro between late last
        rcases Nat.lt_or_eq_of_le last with inner | rfl
        · rw [same]
          exact held between late (Nat.le_of_lt_succ inner)
        · rfl
      · intro before follows
        rw [same]
        exact began before follows
    · refine ⟨index + 1, le_rfl, entered, ?_, ?_⟩
      · intro between late last
        rw [le_antisymm last late]
      · intro before follows
        cases follows
        exact edge.ne

theorem recursion_forced {index : ℕ} (bounded : deployment.maxActivationHeight < Bip9Deployment.unbounded)
    (multiple : deployment.maxActivationHeight = (index + 2) * deployment.period)
    (early : deployment.minActivationHeight ≤ deployment.maxActivationHeight)
    (started : (recursion headers deployment index).1 = .started) :
    (recursion headers deployment (index + 2)).1 = .active := by
  have lockedIn : (recursion headers deployment (index + 1)).1 = .lockedIn := by
    have reached : deployment.maxActivationHeight - deployment.period ≤ (index + 1) * deployment.period := by
      rw [multiple]
      nlinarith [Nat.sub_le ((index + 2) * deployment.period) deployment.period,
        Nat.sub_add_cancel (Nat.le_mul_of_pos_left deployment.period (Nat.succ_pos (index + 1)))]
    simp [recursion, started, transition, bounded, reached]
  have mature : deployment.minActivationHeight ≤ (index + 1 + 1) * deployment.period := multiple ▸ early
  rw [recursion]
  simp [lockedIn, transition, mature]

end Bip9

/-! ## The loop computes the recursive definition -/

section Refinement

variable {headers : List Header} {deployment : Bip9Deployment}
variable {index boundary height : ℕ} {progress : Bip9Progress}

theorem medianVersionbitsTime_eq (nonempty : headers ≠ []) (positive : 0 < boundary) :
    medianVersionbitsTime headers (min (boundary - 1) (headers.length - 1)) = Bip9.medianTimePast headers boundary := by
  have some := length_pos_iff.mpr nonempty
  have last : min (boundary - 1) (headers.length - 1) + 1 = min boundary headers.length := by omega
  have start : min (boundary - 1) (headers.length - 1) - 10 = (headers.take boundary).length - 11 := by
    rw [length_take]
    omega
  simp only [medianVersionbitsTime, Bip9.medianTimePast, last, start, Bip9.slice_eq]

theorem signalCount_eq (nonempty : headers ≠ []) (positive : 0 < boundary) :
    let previousEnd := min (boundary - 1) (headers.length - 1)
    let previousStart := min (boundary - deployment.period) previousEnd
    ((headers.drop previousStart).take (previousEnd + 1 - previousStart)).countP
      (fun header => versionbitsSignals header deployment.bit) = Bip9.signals headers deployment boundary := by
  intro previousEnd previousStart
  have some := length_pos_iff.mpr nonempty
  have last : previousEnd + 1 = min boundary headers.length := by omega
  have start : previousStart = min (boundary - deployment.period) ((headers.take boundary).length - 1) := by
    rw [length_take]
    omega
  rw [last, Bip9.slice_eq, start]
  rfl

/-- The loop's variables at the boundary after the period `index`. -/
structure Bip9Progress.Reached (headers : List Header) (deployment : Bip9Deployment) (index : ℕ)
    (progress : Bip9Progress) : Prop where
  boundary : progress.boundary = (index + 1) * deployment.period
  state : (progress.state, progress.since) = Bip9.recursion headers deployment index
  activated : progress.state = .active → progress.activationHeight = some progress.since

theorem bip9NextState_eq (reached : progress.Reached headers deployment index) :
    bip9NextState deployment deployment.period progress (Bip9.medianTimePast headers progress.boundary)
        (Bip9.signals headers deployment progress.boundary) =
      Bip9.transition headers deployment progress.boundary progress.since progress.state := by
  have activated := reached.activated
  cases current : progress.state <;> simp only [bip9NextState, Bip9.transition, current, ge_iff_le]
  case started => split <;> split <;> simp_all
  case active => simp [activated current]

theorem Bip9Progress.Reached.body (nonempty : headers ≠ []) (positive : 0 < deployment.period)
    (reached : progress.Reached headers deployment index) :
    (bip9Body headers deployment deployment.period progress).boundary = progress.boundary ∧
      { bip9Body headers deployment deployment.period progress with
        boundary := progress.boundary + deployment.period }.Reached headers deployment (index + 1) := by
  have above : 0 < progress.boundary := by
    rw [reached.boundary]
    positivity
  have state : progress.state = (Bip9.recursion headers deployment index).1 := congrArg Prod.fst reached.state
  have since : progress.since = (Bip9.recursion headers deployment index).2 := congrArg Prod.snd reached.state
  have next := bip9NextState_eq reached
  have advanced : progress.boundary + deployment.period = (index + 1 + 1) * deployment.period := by
    rw [reached.boundary]
    ring
  simp only [bip9Body, medianVersionbitsTime_eq nonempty above, signalCount_eq nonempty above, next]
  split
  case isTrue changed =>
    refine ⟨rfl, advanced, ?_, ?_⟩
    · simp only [Bip9.recursion, ← state, ← since, ← reached.boundary, if_neg changed]
    · intro active
      simp only at active
      simp only [if_pos active]
  case isFalse same =>
    rw [not_not] at same
    refine ⟨rfl, advanced, ?_, reached.activated⟩
    simp only [Bip9.recursion, ← state, ← since, ← reached.boundary, if_pos same]
    exact reached.state

theorem bip9Loop_eq (nonempty : headers ≠ []) (positive : 0 < deployment.period) (small : height < 2 ^ 32) (rounds : ℕ)
    (reached : progress.Reached headers deployment index) (within : index ≤ height / deployment.period)
    (enough : height / deployment.period < index + rounds) :
    ((bip9Loop headers deployment deployment.period height rounds progress).state,
      (bip9Loop headers deployment deployment.period height rounds progress).since) =
      Bip9.recursion headers deployment (height / deployment.period) := by
  induction rounds generalizing index progress with
  | zero => omega
  | succ rounds ih =>
    have inside : progress.boundary ≤ height ↔ index + 1 ≤ height / deployment.period := by
      rw [reached.boundary, Nat.le_div_iff_mul_le positive]
    have filled : headers.isEmpty = false := by simpa using nonempty
    simp only [bip9Loop, filled, Bool.false_eq_true, if_false]
    split
    case isTrue more =>
      obtain ⟨kept, next⟩ := reached.body nonempty positive
      simp only [kept]
      split
      case isTrue => exact ih next (inside.mp more) (by omega)
      case isFalse overflow =>
        have last : height / deployment.period = index + 1 := by
          have below : height < (index + 1 + 1) * deployment.period := by
            have := next.boundary
            simp only at this
            omega
          have := (Nat.div_lt_iff_lt_mul positive).mpr below
          have := inside.mp more
          omega
        rw [last]
        exact next.state
    case isFalse stop =>
      have last : height / deployment.period = index := by
        have := mt inside.mpr stop
        omega
      rw [last]
      exact reached.state

theorem bip9StateAtHeight_eq (nonempty : headers ≠ []) (positive : 0 < deployment.period) (small : height < 2 ^ 32) :
    bip9StateAtHeight headers deployment height =
      Bip9.definition headers deployment (height / deployment.period) := by
  have one : max deployment.period 1 = deployment.period := by omega
  simp only [bip9StateAtHeight, Bip9.definition, one]
  split
  case isTrue => rfl
  case isFalse =>
    split
    case isTrue => rfl
    case isFalse =>
      apply bip9Loop_eq nonempty positive small
      · exact ⟨(Nat.one_mul _).symm, rfl, fun impossible => nomatch impossible⟩
      · exact Nat.zero_le _
      · have := Nat.div_le_self height deployment.period
        omega

theorem definition_since (headers : List Header) (deployment : Bip9Deployment) (index : ℕ) :
    ∃ entry ≤ index, (Bip9.definition headers deployment index).2 = entry * deployment.period ∧
      (∀ between, entry ≤ between → between ≤ index →
        Bip9.definition headers deployment between = Bip9.definition headers deployment index) ∧
      (∀ before, entry = before + 1 →
        (Bip9.definition headers deployment before).1 ≠ (Bip9.definition headers deployment index).1) := by
  simp only [Bip9.definition]
  split
  case isTrue => exact ⟨0, Nat.zero_le _, (Nat.zero_mul _).symm, fun _ _ _ => rfl, fun _ impossible => by omega⟩
  case isFalse =>
    split
    case isTrue => exact ⟨0, Nat.zero_le _, (Nat.zero_mul _).symm, fun _ _ _ => rfl, fun _ impossible => by omega⟩
    case isFalse => exact Bip9.recursion_since headers deployment index

theorem definition_succ (headers : List Header) (deployment : Bip9Deployment) (index : ℕ) :
    Bip9.definition headers deployment (index + 1) = Bip9.definition headers deployment index ∨
      Bip9.Edge (Bip9.definition headers deployment index).1 (Bip9.definition headers deployment (index + 1)).1 := by
  simp only [Bip9.definition]
  split
  case isTrue => exact .inl rfl
  case isFalse =>
    split
    case isTrue => exact .inl rfl
    case isFalse => exact (Bip9.recursion_succ headers deployment index).imp_right And.left

/-- A deployment in `started` follows the recursion and is past the first period. -/
theorem recursion_of_started (started : (Bip9.definition headers deployment index).1 = .started) :
    0 < index ∧ ∀ later, Bip9.definition headers deployment later = Bip9.recursion headers deployment later := by
  simp only [Bip9.definition] at started ⊢
  split at started
  case isTrue => nomatch started
  case isFalse notAlways =>
    split at started
    case isTrue => nomatch started
    case isFalse notNever =>
      refine ⟨?_, fun later => by rw [if_neg notAlways, if_neg notNever]⟩
      rcases Nat.eq_zero_or_pos index with rfl | past
      · nomatch started
      · exact past

end Refinement

/-- On a chain that has its genesis header, the loop gives the recursive definition's state of the period the
height lies in, with what follows for every run of heights: only headers below the period count, the state moves
along `Edge` and only at boundaries, `since` is where it was entered, and a bounded deployment activates in time. -/
theorem bip9_states (headers : List Header) (deployment : Bip9Deployment) (nonempty : headers ≠ [])
    (positive : 0 < deployment.period) :
    (∀ height < 2 ^ 32,
      bip9StateAtHeight headers deployment height =
        Bip9.definition headers deployment (height / deployment.period)) ∧
    (∀ height < 2 ^ 32, ∀ other : List Header, other ≠ [] →
      other.take (height / deployment.period * deployment.period) =
        headers.take (height / deployment.period * deployment.period) →
      bip9StateAtHeight other deployment height = bip9StateAtHeight headers deployment height) ∧
    (∀ height, height + 1 < 2 ^ 32 →
      bip9StateAtHeight headers deployment (height + 1) = bip9StateAtHeight headers deployment height ∨
        deployment.period ∣ height + 1 ∧
          Bip9.Edge (bip9StateAtHeight headers deployment height).1
            (bip9StateAtHeight headers deployment (height + 1)).1) ∧
    (∀ height < 2 ^ 32, let since := (bip9StateAtHeight headers deployment height).2
      deployment.period ∣ since ∧ since ≤ height ∧
        (∀ between, since ≤ between → between ≤ height →
          bip9StateAtHeight headers deployment between = bip9StateAtHeight headers deployment height) ∧
        (∀ before, since = before + 1 →
          (bip9StateAtHeight headers deployment before).1 ≠ (bip9StateAtHeight headers deployment height).1)) ∧
    (deployment.maxActivationHeight < Bip9Deployment.unbounded →
      deployment.period ∣ deployment.maxActivationHeight →
      deployment.minActivationHeight ≤ deployment.maxActivationHeight →
      (bip9StateAtHeight headers deployment (deployment.maxActivationHeight - 2 * deployment.period)).1 = .started →
      (bip9StateAtHeight headers deployment deployment.maxActivationHeight).1 = .active) := by
  have agrees : ∀ {height}, height < 2 ^ 32 → bip9StateAtHeight headers deployment height =
      Bip9.definition headers deployment (height / deployment.period) :=
    fun small => bip9StateAtHeight_eq nonempty positive small
  refine ⟨fun height small => agrees small, ?_, ?_, ?_, ?_⟩
  · intro height small other filled same
    rw [agrees small, bip9StateAtHeight_eq filled positive small]
    simp only [Bip9.definition, Bip9.recursion_congr _ same]
  · intro height small
    rw [agrees small, agrees (Nat.lt_of_succ_lt small), Nat.succ_div]
    split
    case isTrue divides => exact (definition_succ headers deployment _).imp_right fun edge => ⟨divides, edge⟩
    case isFalse => exact .inl rfl
  · intro height small
    obtain ⟨entry, early, since, held, began⟩ := definition_since headers deployment (height / deployment.period)
    have inside : entry * deployment.period ≤ height := (Nat.le_div_iff_mul_le positive).mp early
    simp only [agrees small]
    rw [since]
    refine ⟨Nat.dvd_mul_left _ _, inside, ?_, ?_⟩
    · intro between late last
      rw [agrees (last.trans_lt small)]
      exact held _ ((Nat.le_div_iff_mul_le positive).mpr late) (Nat.div_le_div_right last)
    · intro before follows
      obtain ⟨earlier, rfl⟩ : ∃ earlier, entry = earlier + 1 :=
        Nat.exists_eq_succ_of_ne_zero fun zero => by simp [zero] at follows
      have period : before / deployment.period = earlier := by
        rw [Nat.div_eq_iff positive]
        have := Nat.add_mul earlier 1 deployment.period
        omega
      rw [agrees (by omega), period]
      exact began earlier rfl
  · intro bounded multiple early started
    have small : deployment.maxActivationHeight < 2 ^ 32 := by
      simp only [Bip9Deployment.unbounded] at bounded
      omega
    obtain ⟨periods, total⟩ := multiple
    have indexOf : (deployment.maxActivationHeight - 2 * deployment.period) / deployment.period = periods - 2 := by
      rw [total, Nat.mul_comm 2, ← Nat.mul_sub, Nat.mul_div_cancel_left _ positive]
    rw [agrees (by omega), indexOf] at started
    obtain ⟨past, follows⟩ := recursion_of_started started
    have count : periods = periods - 2 + 2 := by omega
    have last : deployment.maxActivationHeight / deployment.period = periods - 2 + 2 := by
      rw [total, Nat.mul_div_cancel_left _ positive]
      exact count
    rw [agrees small, last, follows]
    rw [follows] at started
    apply Bip9.recursion_forced bounded _ early started
    rw [total, Nat.mul_comm]
    exact congrArg (· * deployment.period) count

/-- Two headers a period, no miner signals, activation forced at height 8. -/
theorem bip9_states_forced : let headers := List.replicate 8 (Header.mk 0 0 0 100 0 0)
    let deployment : Bip9Deployment :=
      { bit := 4, startTime := 50, timeout := Bip9Deployment.noTimeout, minActivationHeight := 0
        maxActivationHeight := 8, activeDuration := 4, threshold := 2, period := 2 }
    headers ≠ [] ∧ 0 < deployment.period ∧
      (bip9StateAtHeight headers deployment 4).1 = .started ∧
      (bip9StateAtHeight headers deployment 8).1 = .active := by
  intro headers deployment
  have filled : headers ≠ [] := by decide
  have positive : 0 < deployment.period := by decide
  have started : (bip9StateAtHeight headers deployment 4).1 = .started := by decide +kernel
  obtain ⟨-, -, -, -, forced⟩ := bip9_states headers deployment filled positive
  exact ⟨filled, positive, started, forced (by decide) (by decide) (by decide) started⟩

end BitcoindRs
