import BitcoindRs.Data.Result

/-! Relational rules for two runs of fallible code that succeed together. -/

namespace Result
variable {ε α β γ δ σ τ : Type}

/-- Both runs fail, or both succeed with related values. -/
inductive Lockstep (R : α → β → Prop) : Except ε α → Except ε β → Prop
  | ok {a : α} {b : β} (related : R a b) : Lockstep R (.ok a) (.ok b)
  | error (e e' : ε) : Lockstep R (.error e) (.error e')

namespace Lockstep
variable {R : α → β → Prop} {S : γ → δ → Prop} {x : Except ε α} {y : Except ε β}

theorem left (runs : Lockstep R x y) {b : β} (h : y = .ok b) : ∃ a, x = .ok a ∧ R a b := by
  cases runs with
  | ok related =>
    cases h
    exact ⟨_, rfl, related⟩
  | error => cases h

theorem right (runs : Lockstep R x y) {a : α} (h : x = .ok a) : ∃ b, y = .ok b ∧ R a b := by
  cases runs with
  | ok related =>
    cases h
    exact ⟨_, rfl, related⟩
  | error => cases h

theorem same (x : Except ε α) : Lockstep (fun a b => x = .ok a ∧ a = b) x x := by
  cases x with
  | error e => exact .error e e
  | ok a => exact .ok ⟨rfl, rfl⟩

theorem bind {f : α → Except ε γ} {g : β → Except ε δ} (first : Lockstep R x y)
    (rest : ∀ a b, R a b → Lockstep S (f a) (g b)) : Lockstep S (x >>= f) (y >>= g) := by
  cases first with
  | ok related => exact rest _ _ related
  | error e e' => exact .error e e'

theorem congr {f : α → Except ε γ} {g : α → Except ε δ} (rest : ∀ a, x = .ok a → Lockstep S (f a) (g a)) :
    Lockstep S (x >>= f) (x >>= g) := by
  refine (same x).bind ?_
  rintro a _ ⟨done, rfl⟩
  exact rest a done

theorem guard {bad bad' : Prop} [Decidable bad] [Decidable bad'] {e e' : ε} {f : Unit → Except ε γ} {g : Unit → Except ε δ}
    (iff : bad ↔ bad') (rest : ¬ bad → Lockstep S (f ()) (g ())) :
    Lockstep S (bailIf bad e >>= f) (bailIf bad' e' >>= g) := by
  by_cases h : bad
  · rw [bailIf, bailIf, if_pos h, if_pos (iff.mp h)]
    exact .error e e'
  · rw [bailIf, bailIf, if_neg h, if_neg (mt iff.mpr h)]
    exact rest h

theorem foldlM (P : List α → σ → τ → Prop) {f : σ → α → Except ε σ} {g : τ → α → Except ε τ} {xs : List α}
    (step : ∀ passed s t, ∀ a ∈ xs, P passed s t → Lockstep (P (passed ++ [a])) (f s a) (g t a)) {s : σ} {t : τ}
    (base : P [] s t) : Lockstep (P xs) (xs.foldlM f s) (xs.foldlM g t) := by
  have general : ∀ (rest passed : List α) (s : σ) (t : τ), passed ++ rest = xs → P passed s t →
      Lockstep (P xs) (rest.foldlM f s) (rest.foldlM g t) := by
    intro rest
    induction rest with
    | nil =>
      intro passed s t all holds
      rw [← all, List.append_nil]
      exact .ok holds
    | cons a rest ih =>
      intro passed s t all holds
      have member : a ∈ xs := by
        rw [← all]
        exact List.mem_append_right _ List.mem_cons_self
      rw [List.foldlM_cons, List.foldlM_cons]
      refine (step passed s t a member holds).bind fun s' t' next => ?_
      exact ih (passed ++ [a]) s' t' (by rw [List.append_assoc, List.singleton_append, all]) next
  exact general xs [] s t rfl base

end Lockstep

end Result
