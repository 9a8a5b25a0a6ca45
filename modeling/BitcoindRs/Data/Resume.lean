import BitcoindRs.Data.Result

/-! A loop over consecutive positions that saves its state after some of them and can be cancelled between any two. -/

namespace Resume
open Result
variable {σ γ ε : Type} {step : ℕ → σ → Except ε σ} {due : ℕ → Bool} {save : ℕ → σ → γ} {cancelled : ε}

def steps (step : ℕ → σ → Except ε σ) (start count : ℕ) (s : σ) : Except ε σ :=
  (List.range' start count).foldlM (fun s i => step i s) s

theorem steps_succ (start count : ℕ) (s : σ) :
    steps step start (count + 1) s = step start s >>= steps step (start + 1) count := by
  rw [steps, List.range'_succ, List.foldlM_cons]
  rfl

theorem steps_add (start m n : ℕ) (s : σ) :
    steps step start (m + n) s = steps step start m s >>= steps step (start + m) n := by
  rw [steps, ← List.range'_append_1, List.foldlM_append]
  rfl

theorem steps_congr {step' : ℕ → σ → Except ε σ} {start count : ℕ}
    (same : ∀ i, start ≤ i → i < start + count → step i = step' i) (s : σ) :
    steps step start count s = steps step' start count s := by
  induction count generalizing start s with
  | zero => rfl
  | succ count ih =>
    rw [steps_succ, steps_succ, same start (Nat.le_refl start) (by omega)]
    congr 1
    funext next
    exact ih (fun i above below => same i (by omega) (by omega)) next

theorem steps_map {τ : Type} {part : σ → τ} {partStep : ℕ → τ → Except ε τ} {start count : ℕ}
    (simulates : ∀ i s, start ≤ i → i < start + count → (step i s).map part = partStep i (part s)) (s : σ) :
    (steps step start count s).map part = steps partStep start count (part s) := by
  induction count generalizing start s with
  | zero => rfl
  | succ count ih =>
    rw [steps_succ, steps_succ, ← simulates start s (Nat.le_refl start) (by omega)]
    rcases step start s with error | next
    · rfl
    · exact ih (fun i s above below => simulates i s (by omega) (by omega)) next

theorem steps_keeps {P : σ → Prop} {start count : ℕ} {s t : σ}
    (keeps : ∀ i s t, start ≤ i → i < start + count → step i s = .ok t → P s → P t)
    (h : steps step start count s = .ok t) (holds : P s) : P t := by
  induction count generalizing start s with
  | zero =>
    cases h
    exact holds
  | succ count ih =>
    rw [steps_succ] at h
    obtain ⟨next, stepped, rest⟩ := bind_ok h
    exact ih (fun i s t above below => keeps i s t (by omega) (by omega)) rest
      (keeps start s next (Nat.le_refl start) (by omega) stepped holds)

/-- The answers to the polls of a cancellation flag: before each position, and before each save. -/
structure Polls where
  atStep : ℕ → Bool
  atSave : ℕ → Bool

def Polls.never : Polls := ⟨fun _ => false, fun _ => false⟩

/-- `count` positions from `i` on, with the contents of the file that states are saved to. -/
def loop (step : ℕ → σ → Except ε σ) (due : ℕ → Bool) (save : ℕ → σ → γ) (cancelled : ε) (polls : Polls) :
    ℕ → ℕ → σ → Option γ → Except ε σ × Option γ
  | 0, _, s, file => (.ok s, file)
  | count + 1, i, s, file =>
    if polls.atStep i then (.error cancelled, file)
    else match step i s with
      | .error error => (.error error, file)
      | .ok next =>
        if due i then
          if polls.atSave i then (.error cancelled, file)
          else loop step due save cancelled polls count (i + 1) next (some (save i next))
        else loop step due save cancelled polls count (i + 1) next file

theorem loop_never (count i : ℕ) (s : σ) (file : Option γ) :
    (loop step due save cancelled .never count i s file).1 = steps step i count s := by
  induction count generalizing i s file with
  | zero => rfl
  | succ count ih =>
    rw [steps_succ]
    unfold loop
    rw [if_neg (by exact Bool.false_ne_true)]
    rcases step i s with error | next
    · rfl
    · dsimp only [ok_bind]
      split
      · rw [if_neg (by exact Bool.false_ne_true)]
        exact ih _ _ _
      · exact ih _ _ _

theorem loop_saves (polls : Polls) (count i : ℕ) (s : σ) (file : Option γ) :
    (loop step due save cancelled polls count i s file).2 = file ∨
      ∃ passed next, passed < count ∧ steps step i (passed + 1) s = .ok next ∧
        (loop step due save cancelled polls count i s file).2 = some (save (i + passed) next) := by
  induction count generalizing i s file with
  | zero => exact .inl rfl
  | succ count ih =>
    unfold loop
    split
    · exact .inl rfl
    rcases stepped : step i s with error | next
    · exact .inl rfl
    have continued : ∀ passed last, steps step (i + 1) (passed + 1) next = .ok last →
        steps step i (passed + 1 + 1) s = .ok last := by
      intro passed last done
      rw [steps_succ, stepped]
      exact done
    have later : ∀ file, (loop step due save cancelled polls count (i + 1) next file).2 = file ∨
        ∃ passed last, passed < count + 1 ∧ steps step i (passed + 1) s = .ok last ∧
          (loop step due save cancelled polls count (i + 1) next file).2 = some (save (i + passed) last) := by
      intro file
      rcases ih (i + 1) next file with unchanged | ⟨passed, last, within, done, saved⟩
      · exact .inl unchanged
      · refine .inr ⟨passed + 1, last, by omega, continued passed last done, ?_⟩
        rw [saved, show i + 1 + passed = i + (passed + 1) by omega]
    dsimp only
    split
    · split
      · exact .inl rfl
      · rcases later (some (save i next)) with unchanged | passed
        · refine .inr ⟨0, next, by omega, ?_, unchanged⟩
          rw [steps_succ, stepped]
          rfl
        · exact .inr passed
    · exact later file

end Resume
