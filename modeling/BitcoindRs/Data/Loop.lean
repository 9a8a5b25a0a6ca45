import Mathlib.Tactic

/-! Loops that repeat a step until it says stop, where every round lowers a measure. -/

namespace Loop
variable {σ : Type} {step : σ → Option σ} {measure : σ → ℕ}

def rounds (step : σ → Option σ) : ℕ → σ → σ
  | 0, s => s
  | fuel + 1, s => match step s with
    | none => s
    | some t => rounds step fuel t

def run (step : σ → Option σ) (measure : σ → ℕ) (s : σ) : σ := rounds step (measure s) s

variable (lowers : ∀ s t, step s = some t → measure t < measure s)
include lowers

theorem wellFounded : WellFounded fun t s => step s = some t :=
  Subrelation.wf (fun {t s} taken => lowers s t taken) (InvImage.wf measure Nat.lt_wfRel.wf)

theorem rounds_stopped {fuel : ℕ} {s : σ} (enough : measure s ≤ fuel) : step (rounds step fuel s) = none := by
  induction fuel generalizing s with
  | zero =>
    rcases taken : step s with _ | t
    · rw [rounds, taken]
    · have := lowers s t taken
      omega
  | succ fuel ih =>
    rcases taken : step s with _ | t
    · rw [rounds, taken]
      exact taken
    · have := lowers s t taken
      rw [rounds, taken]
      exact ih (by omega)

theorem run_stopped (s : σ) : step (run step measure s) = none := rounds_stopped lowers le_rfl

omit lowers

theorem run_of_stopped {s : σ} (stopped : step s = none) : run step measure s = s := by
  unfold run
  cases measure s with
  | zero => rfl
  | succ fuel => rw [rounds, stopped]

theorem run_induction {P : σ → Prop} (keeps : ∀ s t, P s → step s = some t → P t) {s : σ} (start : P s) :
    P (run step measure s) := by
  have general : ∀ fuel s, P s → P (rounds step fuel s) := by
    intro fuel
    induction fuel with
    | zero => exact fun _ holds => holds
    | succ fuel ih =>
      intro s holds
      rcases taken : step s with _ | t
      · rw [rounds, taken]
        exact holds
      · rw [rounds, taken]
        exact ih t (keeps s t holds taken)
  exact general _ _ start

end Loop
