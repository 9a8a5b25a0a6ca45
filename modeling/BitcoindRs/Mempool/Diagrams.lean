import BitcoindRs.Data.Polyline
import BitcoindRs.Mempool.Replace

/-! The comparison of fee-rate diagrams is the pointwise order. -/

namespace BitcoindRs
open Checked Polyline List

theorem satI128_of_abs {n : ℤ} (small : |n| < 2 ^ 127) : satI128 n = n := by
  rw [abs_lt] at small
  unfold satI128
  omega

theorem satAddU64_of_lt {a b : ℕ} (small : a + b < u64Bound) : satAddU64 a b = a + b := by
  unfold satAddU64 u64Bound at *
  omega

/-- Rates within the range compare like the fractions. -/
theorem compareFeeRate_eq {fee other : ℤ} {size width : ℕ} (positive : 0 < size) (positive' : 0 < width)
    (small : |fee * width| < 2 ^ 127) (small' : |other * size| < 2 ^ 127) :
    compareFeeRate fee size other width = compare (fee * width) (other * size) := by
  rw [compareFeeRate, if_neg (by omega), satI128_of_abs small, satI128_of_abs small']

def absFees (chunks : List FeeChunk) : ℕ := (chunks.map fun chunk => chunk.1.natAbs).sum

namespace DiagramSide

def line (side : DiagramSide) (x : ℚ) : ℚ := side.fee + height side.ahead (x - side.size)

/-- A side whose passed vertices are at most at a position and whose next vertex is behind it. -/
structure Stands (side : DiagramSide) (position fees sizes : ℕ) : Prop where
  passed : side.size ≤ position
  positive : ∀ chunk ∈ side.ahead, 0 < chunk.2
  next : ∀ chunk ∈ side.ahead.head?, position < side.size + chunk.2
  fees : |side.fee| + absFees side.ahead ≤ fees
  sizes : side.size + run side.ahead ≤ sizes

variable {side active other : DiagramSide} {chunk : FeeChunk} {rest : List FeeChunk} {position fees sizes fees' sizes' : ℕ} {x : ℚ}

theorem line_pass (shape : side.ahead = chunk :: rest) (positive : 0 < chunk.2) (past : (side.size + chunk.2 : ℚ) ≤ x)
    (better : Bool) : line ⟨rest, side.fee + chunk.1, side.size + chunk.2, better⟩ x = side.line x := by
  unfold line
  rw [shape, height_past positive (by linarith)]
  push_cast
  rw [sub_sub]
  ring

/-- Up to the next vertex the diagram is linear. -/
theorem line_linear (position : ℕ) {limit : ℕ} (next : ∀ chunk ∈ side.ahead.head?, limit ≤ side.size + chunk.2) :
    ∃ slope, ∀ x : ℚ, position ≤ x → x ≤ limit → side.line x = side.line position + slope * (x - position) := by
  rcases shape : side.ahead with _ | ⟨chunk, rest⟩
  · exact ⟨0, fun x _ _ => by simp [line, shape, height]⟩
  · have within : (limit : ℚ) ≤ side.size + chunk.2 := by exact_mod_cast next chunk (by rw [shape]; rfl)
    refine ⟨chunk.1 / chunk.2, ?_⟩
    intro x lower upper
    have first : height side.ahead (x - side.size) = chunk.1 * ((x - side.size) / chunk.2) := by
      rw [shape, height_within (by linarith)]
    have start : height side.ahead (position - side.size) = chunk.1 * ((position - side.size) / chunk.2) := by
      rw [shape, height_within (by linarith)]
    unfold line
    rw [first, start]
    ring

/-- What is above between two positions is above at one of them, if both diagrams are linear there. -/
theorem above_between {limit : ℕ} {f g : ℚ → ℚ} {slope slope' : ℚ} (before : (position : ℚ) < limit)
    (first : ∀ x : ℚ, position ≤ x → x ≤ limit → f x = f position + slope * (x - position))
    (second : ∀ x : ℚ, position ≤ x → x ≤ limit → g x = g position + slope' * (x - position)) :
    (∃ x > (position : ℚ), g x < f x) →
      g position < f position ∨ g limit < f limit ∨ ∃ x > (limit : ℚ), g x < f x := by
  rintro ⟨x, later, above⟩
  by_cases beyond : (limit : ℚ) < x
  · exact .inr (.inr ⟨x, beyond, above⟩)
  · have inside := not_lt.mp beyond
    rw [first x later.le inside, second x later.le inside] at above
    rw [first limit before.le le_rfl, second limit before.le le_rfl]
    by_cases steep : slope' ≤ slope
    · refine .inr (.inl ?_)
      have more : (slope - slope') * (x - position) ≤ (slope - slope') * (limit - position) :=
        mul_le_mul_of_nonneg_left (by linarith) (by linarith)
      linarith
    · refine .inl ?_
      have less : 0 ≤ (slope' - slope) * (x - position) := mul_nonneg (by linarith) (by linarith)
      linarith

section
variable (h : side.Stands position fees sizes)
include h

/-- The side behind its next vertex. -/
theorem Stands.pass (shape : side.ahead = chunk :: rest) (better : Bool) :
    Stands ⟨rest, side.fee + chunk.1, side.size + chunk.2, better⟩ (side.size + chunk.2) fees sizes ∧
      |side.fee + chunk.1| ≤ fees ∧ |chunk.1| ≤ fees ∧ side.size + chunk.2 ≤ sizes := by
  have positive := h.positive
  have total := h.fees
  have width := h.sizes
  rw [shape, forall_mem_cons] at positive
  rw [shape, absFees, map_cons, sum_cons, ← absFees, Nat.cast_add, Int.natCast_natAbs] at total
  rw [shape, run, map_cons, sum_cons, ← run] at width
  have triangle := abs_add_le side.fee chunk.1
  have := abs_nonneg side.fee
  refine ⟨⟨le_rfl, positive.2, ?_, by simp only; omega, by simp only; omega⟩, by omega, by omega, by omega⟩
  intro next member
  have := positive.2 next (mem_of_mem_head? member)
  simp only
  omega

/-- A side that is not passed waits for a position up to its next vertex. -/
theorem Stands.stay {limit : ℕ} (later : position ≤ limit)
    (next : ∀ chunk ∈ side.ahead.head?, limit < side.size + chunk.2) : side.Stands limit fees sizes :=
  ⟨h.passed.trans later, h.positive, next, h.fees, h.sizes⟩

theorem Stands.better (better : Bool) :
    Stands { side with better := better } position fees sizes := ⟨h.passed, h.positive, h.next, h.fees, h.sizes⟩

end

/-- The comparison at a vertex is that of the two diagrams there. -/
theorem comparison_iff {comparison : Ordering} {a b : ℤ} {f g : ℚ} {width : ℕ} (positive : 0 < width)
    (same : comparison = compare a b) (first : (a : ℚ) = f * width) (second : (b : ℚ) = g * width) :
    ((comparison == .gt) = true ↔ g < f) ∧ ((comparison == .lt) = true ↔ f < g) := by
  have width : (0 : ℚ) < width := by exact_mod_cast positive
  subst same
  simp only [beq_iff_eq, compare_gt_iff_gt, compare_lt_iff_lt]
  constructor
  · rw [← Int.cast_lt (R := ℚ), first, second]
    exact mul_lt_mul_iff_left₀ width
  · rw [← Int.cast_lt (R := ℚ), first, second]
    exact mul_lt_mul_iff_left₀ width

theorem advanceDiagram_spec (a : active.Stands position fees sizes) (o : other.Stands position fees' sizes')
    (shape : active.ahead = chunk :: rest) (first : ∀ next ∈ other.ahead.head?, active.size + chunk.2 ≤ other.size + next.2)
    (small : (fees + fees') * (sizes + sizes') < 2 ^ 127) (fits : sizes < u64Bound) (fits' : sizes' < u64Bound) :
    let limit := active.size + chunk.2
    let pair := advanceDiagram active other chunk rest
    (pair.1.Stands limit fees sizes ∧ pair.1.ahead = rest) ∧
      (pair.2.Stands limit fees' sizes' ∧ pair.2.ahead.length ≤ other.ahead.length) ∧
      (∀ x : ℚ, limit ≤ x → pair.1.line x = active.line x) ∧ (∀ x : ℚ, limit ≤ x → pair.2.line x = other.line x) ∧
      (pair.1.better = true ↔ active.better = true ∨ other.line limit < active.line limit) ∧
      (pair.2.better = true ↔ other.better = true ∨ active.line limit < other.line limit) := by
  intro limit pair
  have later : position < limit := a.next chunk (by rw [shape]; rfl)
  have positive : 0 < chunk.2 := a.positive chunk (by rw [shape]; exact mem_cons_self)
  obtain ⟨stands, feeSmall, _, sizeSmall⟩ := a.pass shape active.better
  have behind : other.size < limit := lt_of_le_of_lt o.passed later
  have wide : 1 ≤ sizes + sizes' := by omega
  have few : ((fees : ℤ) + fees') * (sizes + sizes') < 2 ^ 127 := by exact_mod_cast small
  have fewer : (fees : ℤ) + fees' < 2 ^ 127 := lt_of_le_of_lt (le_mul_of_one_le_right (by omega) (by exact_mod_cast wide)) few
  have otherFee : |other.fee| ≤ fees' := by
    have := o.fees
    omega
  have slopeSmall : |active.fee + chunk.1 - other.fee| ≤ (fees : ℤ) + fees' :=
    (abs_sub _ _).trans (add_le_add feeSmall otherFee)
  have pointFee : satI128 (active.fee + chunk.1) = active.fee + chunk.1 := satI128_of_abs (by omega)
  have pointSize : satAddU64 active.size chunk.2 = limit := satAddU64_of_lt (by omega)
  have slopeFee : satI128 (active.fee + chunk.1 - other.fee) = active.fee + chunk.1 - other.fee := satI128_of_abs (by omega)
  have product : ∀ {fee : ℤ} {size : ℕ}, |fee| ≤ (fees : ℤ) + fees' → size ≤ sizes + sizes' → |fee * size| < 2 ^ 127 := by
    intro fee size bounded narrow
    rw [abs_mul, Nat.abs_cast]
    refine lt_of_le_of_lt (mul_le_mul bounded ?_ (by omega) (by omega)) few
    exact_mod_cast narrow
  have top : active.line limit = (active.fee + chunk.1 : ℤ) := by
    rw [← line_pass shape positive (by simp [limit]) active.better, line]
    simp [limit]
  have gap : ((limit - other.size : ℕ) : ℚ) = limit - other.size := Nat.cast_sub behind.le
  rcases ahead : other.ahead with _ | ⟨next, beyond⟩
  · have result : pair = (⟨rest, active.fee + chunk.1, limit, active.better ||
        compareFeeRate (active.fee + chunk.1 - other.fee) (limit - other.size) 0 1 == .gt⟩, { other with
          better := other.better || compareFeeRate (active.fee + chunk.1 - other.fee) (limit - other.size) 0 1 == .lt }) := by
      simp only [pair, advanceDiagram, ahead, pointFee, pointSize, slopeFee]
    have bottom : other.line limit = other.fee := by simp [line, ahead, height]
    have rate : compareFeeRate (active.fee + chunk.1 - other.fee) (limit - other.size) 0 1 =
        compare ((active.fee + chunk.1 - other.fee) * (1 : ℕ)) (0 * ((limit - other.size : ℕ) : ℤ)) :=
      compareFeeRate_eq (by omega) Nat.one_pos (product slopeSmall wide) (by simp)
    have verdict : ∀ {f g : ℚ}, _ → _ → _ := fun {f g} => @comparison_iff _ _ _ f g 1 Nat.one_pos rate
    have verdict := @verdict (active.line limit - other.line limit) 0 (by rw [top, bottom]; push_cast; ring) (by simp)
    rw [sub_pos, sub_neg] at verdict
    rw [result]
    refine ⟨⟨stands.better _, rfl⟩, ⟨(o.stay later.le (by simp [ahead])).better _, by simp [ahead]⟩, fun x past => ?_,
      fun x _ => rfl, ?_, ?_⟩
    · exact line_pass shape positive (by simpa [limit] using past) _
    · rw [Bool.or_eq_true, verdict.1]
    · rw [Bool.or_eq_true, verdict.2]
  · have nextPositive : 0 < next.2 := o.positive next (by rw [ahead]; exact mem_cons_self)
    have reaches : limit ≤ other.size + next.2 := first next (by rw [ahead]; rfl)
    obtain ⟨passed, nextFees, nextSmall, nextSizes⟩ := o.pass ahead other.better
    have nextFee : satI128 (other.fee + next.1) = other.fee + next.1 := satI128_of_abs (by omega)
    have nextSlope : satI128 next.1 = next.1 := satI128_of_abs (by omega)
    have nextSize : satAddU64 other.size next.2 = other.size + next.2 := satAddU64_of_lt (by omega)
    have bottom : other.line limit = other.fee + next.1 * ((limit - other.size) / next.2) := by
      rw [line, ahead, height_within]
      have : (limit : ℚ) ≤ other.size + next.2 := by exact_mod_cast reaches
      linarith
    have rate : compareFeeRate (active.fee + chunk.1 - other.fee) (limit - other.size) next.1 next.2 =
        compare ((active.fee + chunk.1 - other.fee) * next.2) (next.1 * ((limit - other.size : ℕ) : ℤ)) :=
      compareFeeRate_eq (by omega) nextPositive (product slopeSmall (by omega)) (product (by omega) (by omega))
    have width : (next.2 : ℚ) ≠ 0 := by positivity
    have verdict := @comparison_iff _ _ _ (active.line limit - other.fee) (other.line limit - other.fee) next.2 nextPositive rate
      (by rw [top]; push_cast; ring) (by rw [bottom]; push_cast; rw [gap]; field_simp; ring)
    rw [sub_lt_sub_iff_right, sub_lt_sub_iff_right] at verdict
    have result : pair = (⟨rest, active.fee + chunk.1, limit, active.better ||
        compareFeeRate (active.fee + chunk.1 - other.fee) (limit - other.size) next.1 next.2 == .gt⟩,
        { (if other.size + next.2 = limit then ⟨beyond, other.fee + next.1, other.size + next.2, other.better⟩ else other) with
          better := other.better ||
            compareFeeRate (active.fee + chunk.1 - other.fee) (limit - other.size) next.1 next.2 == .lt }) := by
      simp only [pair, advanceDiagram, ahead, pointFee, pointSize, slopeFee, nextFee, nextSize, add_sub_cancel_left,
        Nat.add_sub_cancel_left, nextSlope]
      split <;> rfl
    rw [result]
    refine ⟨⟨stands.better _, rfl⟩, ?_, fun x past => ?_, ?_, ?_, ?_⟩
    · split
      · rename_i same
        rw [← same]
        exact ⟨passed.better _, by simp⟩
      · refine ⟨(o.stay later.le ?_).better _, by simp [ahead]⟩
        simp only [ahead, head?_cons, Option.mem_some_iff, forall_eq']
        omega
    · exact line_pass shape positive (by simpa [limit] using past) _
    · intro x past
      split
      · rename_i same
        refine line_pass ahead nextPositive ?_ _
        rw [← Nat.cast_add, same]
        exact past
      · rfl
    · rw [Bool.or_eq_true, verdict.1]
    · rw [Bool.or_eq_true, verdict.2]

/-- Passing a vertex changes nothing about what is above from here on. -/
theorem above_advance {limit : ℕ} (beyond : (position : ℚ) < limit) {f g f' g' : ℚ → ℚ}
    (linear : ∃ slope, ∀ x : ℚ, position ≤ x → x ≤ limit → f x = f position + slope * (x - position))
    (linear' : ∃ slope, ∀ x : ℚ, position ≤ x → x ≤ limit → g x = g position + slope * (x - position))
    (same : ∀ x : ℚ, limit ≤ x → f' x = f x) (same' : ∀ x : ℚ, limit ≤ x → g' x = g x) {better better' : Prop}
    (seen : g position < f position → better) (next : better' ↔ better ∨ g limit < f limit) :
    (better' ∨ ∃ x > (limit : ℚ), g' x < f' x) ↔ better ∨ ∃ x > (position : ℚ), g x < f x := by
  obtain ⟨slope, left⟩ := linear
  obtain ⟨slope', right⟩ := linear'
  rw [next]
  constructor
  · rintro ((old | here) | ⟨x, past, above⟩)
    · exact .inl old
    · exact .inr ⟨limit, beyond, here⟩
    · rw [same x past.le, same' x past.le] at above
      exact .inr ⟨x, beyond.trans past, above⟩
  · rintro (old | somewhere)
    · exact .inl (.inl old)
    · rcases above_between beyond left right somewhere with start | here | ⟨x, past, above⟩
      · exact .inl (.inl (seen start))
      · exact .inl (.inr here)
      · rw [← same x past.le, ← same' x past.le] at above
        exact .inr ⟨x, past, above⟩

/-- A position of the walk: the flags say what was above up to here. -/
structure Walk (left right : DiagramSide) (position fees sizes fees' sizes' : ℕ) : Prop where
  stands : left.Stands position fees sizes
  stands' : right.Stands position fees' sizes'
  seen : right.line position < left.line position → left.better = true
  seen' : left.line position < right.line position → right.better = true

/-- From here on the first is above somewhere, or was before. -/
def Above (side other : DiagramSide) (position : ℕ) : Prop :=
  side.better = true ∨ ∃ x > (position : ℚ), other.line x < side.line x

section
variable (h : Walk active other position fees sizes fees' sizes')
include h

theorem Walk.swap : Walk other active position fees' sizes' fees sizes := ⟨h.stands', h.stands, h.seen', h.seen⟩

theorem Walk.advance (shape : active.ahead = chunk :: rest)
    (first : ∀ next ∈ other.ahead.head?, active.size + chunk.2 ≤ other.size + next.2)
    (small : (fees + fees') * (sizes + sizes') < 2 ^ 127) (fits : sizes < u64Bound) (fits' : sizes' < u64Bound) :
    let limit := active.size + chunk.2
    let pair := advanceDiagram active other chunk rest
    Walk pair.1 pair.2 limit fees sizes fees' sizes' ∧ pair.1.ahead.length + pair.2.ahead.length < active.ahead.length + other.ahead.length ∧
      (Above pair.1 pair.2 limit ↔ Above active other position) ∧ (Above pair.2 pair.1 limit ↔ Above other active position) := by
  intro limit pair
  obtain ⟨⟨stands, ahead⟩, ⟨stands', fewer⟩, same, same', flag, flag'⟩ :=
    advanceDiagram_spec h.stands h.stands' shape first small fits fits'
  have beyond : (position : ℚ) < limit := by exact_mod_cast h.stands.next chunk (by rw [shape]; rfl)
  have linear := @line_linear active position limit (by simp [shape, limit])
  have linear' := other.line_linear position first
  refine ⟨⟨stands, stands', ?_, ?_⟩, ?_, ?_, ?_⟩
  · intro above
    rw [same _ le_rfl, same' _ le_rfl] at above
    exact flag.mpr (.inr above)
  · intro above
    rw [same _ le_rfl, same' _ le_rfl] at above
    exact flag'.mpr (.inr above)
  · have fewer : pair.2.ahead.length ≤ other.ahead.length := fewer
    rw [ahead, shape, length_cons]
    omega
  · exact above_advance beyond linear linear' same same' h.seen flag
  · exact above_advance beyond linear' linear same' same h.seen' flag'

/-- Behind the last vertices nothing changes any more. -/
theorem Walk.above_end (done : active.ahead = []) (done' : other.ahead = []) :
    Above active other position ↔ active.better = true := by
  refine or_iff_left_of_imp ?_
  rintro ⟨x, _, above⟩
  refine h.seen ?_
  simpa [line, done, done', height] using above

end

end DiagramSide

/-- The answer that goes with the first being above somewhere and the second being above somewhere. -/
def Decides (above below : Prop) : Option Ordering → Prop
  | none => above ∧ below
  | some .gt => above ∧ ¬below
  | some .lt => ¬above ∧ below
  | some .eq => ¬above ∧ ¬below

section Walk
open DiagramSide
variable {left right : DiagramSide} {position fees sizes fees' sizes' : ℕ}

theorem decides_flags {above below : Bool} (apart : ¬(above = true ∧ below = true)) :
    Decides (above = true) (below = true) (if above = below then some .eq else if above then some .gt else some .lt) := by
  revert apart
  cases above <;> cases below <;> simp [Decides]

theorem compareDiagramLoop_decides {rounds : ℕ} (h : Walk left right position fees sizes fees' sizes')
    (small : (fees + fees') * (sizes + sizes') < 2 ^ 127) (fits : sizes < u64Bound) (fits' : sizes' < u64Bound)
    (enough : left.ahead.length + right.ahead.length ≤ rounds) (apart : ¬(left.better = true ∧ right.better = true)) :
    Decides (Above left right position) (Above right left position) (compareDiagramLoop rounds left right) := by
  induction rounds generalizing left right position with
  | zero =>
    have done : left.ahead = [] := length_eq_zero_iff.mp (by omega)
    have done' : right.ahead = [] := length_eq_zero_iff.mp (by omega)
    rw [h.above_end done done', h.swap.above_end done' done, compareDiagramLoop]
    exact decides_flags apart
  | succ rounds ih =>
    -- one step with either side as the active one
    have step : ∀ {a b : DiagramSide} {limit : ℕ}, Walk a b limit fees sizes fees' sizes' →
        a.ahead.length + b.ahead.length ≤ rounds → (Above a b limit ↔ Above left right position) →
        (Above b a limit ↔ Above right left position) →
        Decides (Above left right position) (Above right left position)
          (if a.better && b.better then none else compareDiagramLoop rounds a b) := by
      intro a b limit walk shorter above below
      split
      · rename_i both
        rw [Bool.and_eq_true] at both
        exact ⟨above.mp (.inl both.1), below.mp (.inl both.2)⟩
      · rename_i apart
        rw [Bool.and_eq_true] at apart
        rw [← above, ← below]
        exact ih walk shorter apart
    rw [compareDiagramLoop]
    rcases l : left.ahead with _ | ⟨chunk, rest⟩ <;> rcases r : right.ahead with _ | ⟨chunk', rest'⟩
    · rw [h.above_end l r, h.swap.above_end r l]
      exact decides_flags apart
    · obtain ⟨walk, shorter, above, below⟩ := h.swap.advance r (by simp [l]) (by rwa [Nat.add_comm fees', Nat.add_comm sizes']) fits' fits
      exact step walk.swap (by simp only [Prod.fst_swap, Prod.snd_swap]; omega) below above
    · obtain ⟨walk, shorter, above, below⟩ := h.advance l (by simp [r]) small fits fits'
      exact step walk (by omega) above below
    · have sizeLeft := (h.stands.pass l true).2.2.2
      have sizeRight := (h.stands'.pass r true).2.2.2
      simp only
      rw [satAddU64_of_lt (by omega), satAddU64_of_lt (by omega)]
      split
      · obtain ⟨walk, shorter, above, below⟩ :=
          h.swap.advance r (by simp [l]; omega) (by rwa [Nat.add_comm fees', Nat.add_comm sizes']) fits' fits
        exact step walk.swap (by simp only [Prod.fst_swap, Prod.snd_swap]; omega) below above
      · obtain ⟨walk, shorter, above, below⟩ := h.advance l (by simp [r]; omega) small fits fits'
        exact step walk (by omega) above below

end Walk

/-- The diagrams stay within the integers of the source. -/
def DiagramsFit (left right : List FeeChunk) : Prop :=
  (absFees left + absFees right) * (run left + run right) < 2 ^ 127 ∧ run left < u64Bound ∧ run right < u64Bound

theorem compareFeeRateDiagrams_decides {left right : List FeeChunk} (positive : ∀ chunk ∈ left, 0 < chunk.2)
    (positive' : ∀ chunk ∈ right, 0 < chunk.2) (fit : DiagramsFit left right) :
    Decides (∃ x ≥ (0 : ℚ), height right x < height left x) (∃ x ≥ (0 : ℚ), height left x < height right x)
      (compareFeeRateDiagrams left right) := by
  have stands : ∀ {chunks : List FeeChunk}, (∀ chunk ∈ chunks, 0 < chunk.2) →
      DiagramSide.Stands ⟨chunks, 0, 0, false⟩ 0 (absFees chunks) (run chunks) := by
    intro chunks positive
    refine ⟨le_rfl, positive, ?_, by simp, by simp⟩
    intro chunk member
    have := positive chunk (mem_of_mem_head? member)
    simpa using this
  -- both diagrams start at zero, so nothing is above there
  have above : ∀ a b : List FeeChunk, DiagramSide.Above ⟨a, 0, 0, false⟩ ⟨b, 0, 0, false⟩ 0 ↔
      ∃ x ≥ (0 : ℚ), height b x < height a x := by
    intro a b
    simp only [DiagramSide.Above, DiagramSide.line, Bool.false_eq_true, false_or, Nat.cast_zero, Int.cast_zero, zero_add,
      sub_zero, gt_iff_lt, ge_iff_le]
    constructor
    · rintro ⟨x, later, less⟩
      exact ⟨x, later.le, less⟩
    · rintro ⟨x, later, less⟩
      refine ⟨x, lt_of_le_of_ne later ?_, less⟩
      rintro rfl
      simp at less
  rw [← above left right, ← above right left]
  exact compareDiagramLoop_decides ⟨stands positive, stands positive', by simp [DiagramSide.line], by simp [DiagramSide.line]⟩
    fit.1 fit.2.1 fit.2.2 le_rfl (by simp)

theorem decides_iff {above below : Prop} {answer : Option Ordering} (h : Decides above below answer) :
    (answer = some .gt ↔ ¬below ∧ above) ∧ (answer = some .lt ↔ ¬above ∧ below) ∧ (answer = some .eq ↔ ¬above ∧ ¬below) ∧
      (answer = none ↔ above ∧ below) := by
  rcases answer with _ | (_ | _ | _) <;> simp_all [Decides]

theorem Decides.swap {above below : Prop} {answer other : Option Ordering} (h : Decides above below answer)
    (h' : Decides below above other) : other = answer.map Ordering.swap := by
  rcases answer with _ | (_ | _ | _) <;> rcases other with _ | (_ | _ | _) <;> simp_all [Decides]

/-- The answer is the order of the two cumulative-fee diagrams, each of them flat behind its last chunk. -/
theorem compareFeeRateDiagrams_pointwise {left right : List FeeChunk} (positive : ∀ chunk ∈ left, 0 < chunk.2)
    (positive' : ∀ chunk ∈ right, 0 < chunk.2) (fit : DiagramsFit left right) :
    (compareFeeRateDiagrams left right = some .gt ↔
      (∀ x ≥ (0 : ℚ), height right x ≤ height left x) ∧ ∃ x ≥ (0 : ℚ), height right x < height left x) ∧
    (compareFeeRateDiagrams left right = some .lt ↔
      (∀ x ≥ (0 : ℚ), height left x ≤ height right x) ∧ ∃ x ≥ (0 : ℚ), height left x < height right x) ∧
    (compareFeeRateDiagrams left right = some .eq ↔ ∀ x ≥ (0 : ℚ), height left x = height right x) ∧
    (compareFeeRateDiagrams left right = none ↔
      (∃ x ≥ (0 : ℚ), height right x < height left x) ∧ ∃ x ≥ (0 : ℚ), height left x < height right x) ∧
    compareFeeRateDiagrams right left = (compareFeeRateDiagrams left right).map Ordering.swap := by
  have decides := compareFeeRateDiagrams_decides positive positive' fit
  have swapped := compareFeeRateDiagrams_decides positive' positive
    ⟨by rw [Nat.add_comm (absFees _), Nat.add_comm (run _)]; exact fit.1, fit.2.2, fit.2.1⟩
  obtain ⟨greater, less, equal, crossing⟩ := decides_iff decides
  have nowhere : ∀ f g : ℚ → ℚ, (¬∃ x ≥ (0 : ℚ), f x < g x) ↔ ∀ x ≥ (0 : ℚ), g x ≤ f x := by
    intro f g
    simp only [not_exists, not_and, not_lt]
  rw [nowhere] at greater less equal
  refine ⟨greater, less, equal.trans ?_, crossing, decides.swap swapped⟩
  rw [nowhere, ← forall₂_and]
  exact forall₂_congr fun x _ => le_antisymm_iff.symm

/-- The smaller tail costs nothing. -/
theorem compareFeeRateDiagrams_pointwise_tail :
    compareFeeRateDiagrams [(950, 300), (100, 99)] [(950, 300), (100, 100)] = some .gt ∧
      ∀ x ≥ (0 : ℚ), height [(950, 300), (100, 100)] x ≤ height [(950, 300), (100, 99)] x := by
  have answer : compareFeeRateDiagrams [(950, 300), (100, 99)] [(950, 300), (100, 100)] = some .gt := by decide +kernel
  have pointwise := @compareFeeRateDiagrams_pointwise [(950, 300), (100, 99)] [(950, 300), (100, 100)]
    (by decide) (by decide) (by unfold DiagramsFit; decide)
  exact ⟨answer, (pointwise.1.mp answer).1⟩

end BitcoindRs
