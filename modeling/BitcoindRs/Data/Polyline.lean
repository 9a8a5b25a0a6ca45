import Mathlib.Analysis.Convex.Function
import Mathlib.Tactic

/-! Piecewise linear functions from zero on, given by steps that rise by an integer over a positive width. -/

namespace Polyline

abbrev Step := ℤ × ℕ

def height : List Step → ℚ → ℚ
  | [], _ => 0
  | step :: rest, x => if x ≤ step.2 then step.1 * (x / step.2) else step.1 + height rest (x - step.2)

def rise (steps : List Step) : ℤ := (steps.map Prod.fst).sum

def run (steps : List Step) : ℕ := (steps.map Prod.snd).sum

variable {step : Step} {steps rest : List Step} {x : ℚ}

@[simp] theorem height_zero (steps : List Step) : height steps 0 = 0 := by
  cases steps with
  | nil => rfl
  | cons step rest => simp [height]

theorem height_within (inside : x ≤ step.2) : height (step :: rest) x = step.1 * (x / step.2) := if_pos inside

theorem height_past (positive : 0 < step.2) (past : (step.2 : ℚ) ≤ x) :
    height (step :: rest) x = step.1 + height rest (x - step.2) := by
  have width : (step.2 : ℚ) ≠ 0 := by positivity
  rcases past.eq_or_lt with same | beyond
  · rw [height_within same.ge, ← same, div_self width, sub_self, height_zero]
    ring
  · exact if_neg beyond.not_ge

def rate (step : Step) : ℚ := step.1 / step.2

@[simp] theorem rise_append (xs ys : List Step) : rise (xs ++ ys) = rise xs + rise ys := by simp [rise]

@[simp] theorem run_append (xs ys : List Step) : run (xs ++ ys) = run xs + run ys := by simp [run]

@[simp] theorem rise_cons (step : Step) (rest : List Step) : rise (step :: rest) = step.1 + rise rest := by simp [rise]

@[simp] theorem run_cons (step : Step) (rest : List Step) : run (step :: rest) = step.2 + run rest := by simp [run]

theorem rate_mul (positive : 0 < step.2) : rate step * step.2 = step.1 := by
  have width : (step.2 : ℚ) ≠ 0 := by positivity
  rw [rate, div_mul_cancel₀ _ width]

theorem height_inside (inside : x ≤ step.2) : height (step :: rest) x = rate step * x := by
  rw [height_within inside, rate]
  ring

/-- A position lies on one of the steps. -/
theorem exists_segment (positive : ∀ step ∈ steps, 0 < step.2) (some : steps ≠ []) (lower : 0 ≤ x) (upper : x ≤ run steps) :
    ∃ before step after, steps = before ++ step :: after ∧ (run before : ℚ) ≤ x ∧ x ≤ run before + step.2 ∧
      height steps x = rise before + rate step * (x - run before) := by
  induction steps generalizing x with
  | nil => exact absurd rfl some
  | cons step rest ih =>
    obtain ⟨wide, positive⟩ := List.forall_mem_cons.mp positive
    by_cases inside : x ≤ step.2
    · refine ⟨[], step, rest, rfl, by simpa [run] using lower, by simpa [run] using inside, ?_⟩
      rw [height_inside inside]
      simp [rise, run]
    · have past := (not_le.mp inside).le
      rw [run_cons, Nat.cast_add] at upper
      have more : rest ≠ [] := by
        rintro rfl
        simp [run] at upper
        exact inside upper
      obtain ⟨before, here, after, shape, start, stop, value⟩ :=
        ih positive more (sub_nonneg.mpr past) (by linarith : x - step.2 ≤ run rest)
      refine ⟨step :: before, here, after, by rw [shape]; rfl, ?_, ?_, ?_⟩
      · rw [run_cons, Nat.cast_add]
        linarith
      · rw [run_cons, Nat.cast_add]
        linarith
      · rw [height_past wide past, value, rise_cons, run_cons]
        push_cast
        ring

theorem height_le_of_rates {bound : ℚ} (positive : ∀ step ∈ steps, 0 < step.2) (rates : ∀ step ∈ steps, rate step ≤ bound)
    (lower : 0 ≤ x) (upper : x ≤ run steps) : height steps x ≤ bound * x := by
  induction steps generalizing x with
  | nil =>
    have zero : x = 0 := le_antisymm (by simpa [run] using upper) lower
    simp [height, zero]
  | cons step rest ih =>
    obtain ⟨wide, positive⟩ := List.forall_mem_cons.mp positive
    obtain ⟨steep, rates⟩ := List.forall_mem_cons.mp rates
    by_cases inside : x ≤ step.2
    · rw [height_inside inside]
      exact mul_le_mul_of_nonneg_right steep lower
    · have past := (not_le.mp inside).le
      rw [run_cons, Nat.cast_add] at upper
      have tail := ih positive rates (sub_nonneg.mpr past) (by linarith)
      have head : (step.1 : ℚ) ≤ bound * step.2 := by
        rw [← rate_mul wide]
        exact mul_le_mul_of_nonneg_right steep (by positivity)
      rw [height_past wide past]
      linarith

/-- Falling rates: every point has a line through it that is nowhere below, and no steeper than the first step. -/
theorem exists_tangent (positive : ∀ each ∈ step :: steps, 0 < each.2)
    (falling : (step :: steps).Pairwise fun a b => rate b ≤ rate a) (lower : 0 ≤ x) (upper : x ≤ run (step :: steps)) :
    ∃ slope ≤ rate step, ∀ y : ℚ, 0 ≤ y → y ≤ run (step :: steps) →
      height (step :: steps) y ≤ height (step :: steps) x + slope * (y - x) := by
  induction steps generalizing x step with
  | nil =>
    refine ⟨rate step, le_rfl, fun y _ top => ?_⟩
    have alone : run [step] = step.2 := by simp [run]
    rw [alone] at upper top
    rw [height_inside upper, height_inside top]
    linarith
  | cons next steps ih =>
    obtain ⟨wide, tailPositive⟩ := List.forall_mem_cons.mp positive
    obtain ⟨steep, tailFalling⟩ := List.pairwise_cons.mp falling
    by_cases inside : x ≤ step.2
    · refine ⟨rate step, le_rfl, fun y bottom top => ?_⟩
      have below := height_le_of_rates positive
        (List.forall_mem_cons.mpr ⟨le_rfl, steep⟩) bottom top
      rw [height_inside inside]
      linarith
    · have past := (not_le.mp inside).le
      rw [run_cons, Nat.cast_add] at upper
      obtain ⟨slope, flatter, tangent⟩ := ih tailPositive tailFalling (sub_nonneg.mpr past) (by linarith)
      have flat := flatter.trans (steep next List.mem_cons_self)
      refine ⟨slope, flat, fun y bottom top => ?_⟩
      rw [height_past wide past]
      by_cases early : y ≤ step.2
      · have start := tangent 0 le_rfl (by positivity)
        rw [height_zero] at start
        have gap : slope * (step.2 - y) ≤ rate step * (step.2 - y) := mul_le_mul_of_nonneg_right flat (by linarith)
        have whole := rate_mul wide
        rw [height_inside early]
        linarith
      · have late := (not_le.mp early).le
        rw [run_cons, Nat.cast_add] at top
        have value := tangent (y - step.2) (sub_nonneg.mpr late) (by linarith)
        rw [height_past wide late]
        linarith

theorem concaveOn_height (positive : ∀ step ∈ steps, 0 < step.2) (falling : steps.Pairwise fun a b => rate b ≤ rate a) :
    ConcaveOn ℚ (Set.Icc 0 (run steps : ℚ)) (height steps) := by
  refine ⟨convex_Icc _ _, ?_⟩
  intro a ⟨aLower, aUpper⟩ b ⟨bLower, bUpper⟩ s t sPositive tPositive whole
  rcases steps with _ | ⟨step, steps⟩
  · simp [height]
  · have lower : 0 ≤ s * a + t * b := by positivity
    have upper : s * a + t * b ≤ run (step :: steps) := by
      calc s * a + t * b ≤ s * run (step :: steps) + t * run (step :: steps) := by gcongr
        _ = run (step :: steps) := by rw [← add_mul, whole, one_mul]
    obtain ⟨slope, _, tangent⟩ := exists_tangent positive falling lower upper
    have first := mul_le_mul_of_nonneg_left (tangent a aLower aUpper) sPositive
    have second := mul_le_mul_of_nonneg_left (tangent b bLower bUpper) tPositive
    have point : (s + t) * height (step :: steps) (s * a + t * b) = height (step :: steps) (s * a + t * b) := by
      rw [whole, one_mul]
    have slopes : slope * ((s + t) * (s * a + t * b)) = slope * (s * a + t * b) := by rw [whole, one_mul]
    simp only [smul_eq_mul]
    linarith

/-- A concave function above the vertices is above the line. -/
theorem height_le_of_concave {f : ℚ → ℚ} (positive : ∀ step ∈ steps, 0 < step.2)
    (concave : ConcaveOn ℚ (Set.Icc 0 (run steps : ℚ)) f)
    (vertices : ∀ before after, steps = before ++ after → (rise before : ℚ) ≤ f (run before)) (lower : 0 ≤ x)
    (upper : x ≤ run steps) : height steps x ≤ f x := by
  rcases steps.eq_nil_or_concat with rfl | some
  · have zero : x = 0 := le_antisymm (by simpa [run] using upper) lower
    have start := vertices [] [] rfl
    rw [zero]
    simpa [rise, run, height] using start
  · obtain ⟨before, step, after, shape, start, stop, value⟩ :=
      exists_segment positive (by rintro rfl; obtain ⟨_, _, h⟩ := some; simp at h) lower upper
    have wide : 0 < step.2 := positive step (by rw [shape]; simp)
    have width : (0 : ℚ) < step.2 := by exact_mod_cast wide
    have first := vertices before (step :: after) shape
    have second := vertices (before ++ [step]) after (by rw [shape]; simp)
    have last : (rise (before ++ [step]) : ℚ) = rise before + step.1 := by simp [rise]
    have stop' : (run (before ++ [step]) : ℚ) = run before + step.2 := by simp [run]
    have most : (run before + step.2 : ℚ) ≤ run steps := by
      rw [shape, run_append, run_cons]
      push_cast
      have : (0 : ℚ) ≤ run after := by positivity
      linarith
    rw [last, stop'] at second
    -- the position divides the step in the proportion `t` to `1 - t`
    obtain ⟨t, share⟩ : ∃ t, t = (x - run before) / step.2 := ⟨_, rfl⟩
    have lowShare : 0 ≤ t := share ▸ div_nonneg (sub_nonneg.mpr start) width.le
    have highShare : t ≤ 1 := share ▸ div_le_one_of_le₀ (by linarith) width.le
    have split : t * step.2 = x - run before := by rw [share, div_mul_cancel₀ _ width.ne']
    have one : (run before : ℚ) ∈ Set.Icc 0 (run steps : ℚ) := ⟨by positivity, by linarith⟩
    have two : (run before + step.2 : ℚ) ∈ Set.Icc 0 (run steps : ℚ) := ⟨by positivity, most⟩
    have point := concave.2 one two (sub_nonneg.mpr highShare) lowShare (sub_add_cancel _ _)
    have here : (1 - t) • (run before : ℚ) + t • (run before + step.2 : ℚ) = x := by
      simp only [smul_eq_mul]
      linarith
    rw [here, smul_eq_mul, smul_eq_mul] at point
    have left := mul_le_mul_of_nonneg_left first (sub_nonneg.mpr highShare)
    have right := mul_le_mul_of_nonneg_left second lowShare
    have climb : rate step * (x - run before) = t * step.1 := by
      rw [← split, ← rate_mul wide]
      ring
    linarith

end Polyline
