import Mathlib.Tactic

/-!
Fallible code in the `Except` monad: guards, inversion of successful runs and the invariant rule of a loop that
may fail, together with the checked and saturating additions of unsigned machine integers.
-/

namespace Result
open List
variable {ε α β σ : Type}

def bailIf (bad : Prop) [Decidable bad] (e : ε) : Except ε Unit := if bad then .error e else .ok ()

def okOr (x : Option α) (e : ε) : Except ε α := match x with
  | some a => .ok a
  | none => .error e

def runIf (condition : Bool) (check : Except ε Unit) : Except ε Unit := if condition then check else .ok ()

section steps
variable {x : Except ε α} {f : α → Except ε β} {k : Unit → Except ε β} {e e' : ε} {a : α} {b : β} {bad : Prop} [Decidable bad]

theorem bind_ok (h : (x >>= f) = .ok b) : ∃ a, x = .ok a ∧ f a = .ok b := by
  cases x with
  | error e => cases h
  | ok a => exact ⟨a, rfl, h⟩

def okAnd (x : Except ε α) (test : α → Bool) : Bool := match x with
  | .ok a => test a
  | .error _ => false

theorem exists_okAnd {test : α → Bool} (h : okAnd x test = true) : ∃ a, x = .ok a ∧ test a = true := by
  cases x with
  | error e => cases h
  | ok a => exact ⟨a, rfl, h⟩

def errorIs [DecidableEq ε] (x : Except ε α) (e : ε) : Bool := match x with
  | .ok _ => false
  | .error e' => e' = e

theorem eq_error [DecidableEq ε] (h : errorIs x e = true) : x = .error e := by
  cases x with
  | ok a => cases h
  | error e' => rw [of_decide_eq_true h]

theorem exists_ok (h : x.isOk = true) : ∃ a, x = .ok a := by
  cases x with
  | error e => cases h
  | ok a => exact ⟨a, rfl⟩

theorem bind_ok_iff : (x >>= f) = .ok b ↔ ∃ a, x = .ok a ∧ f a = .ok b :=
  ⟨bind_ok, fun ⟨_, first, rest⟩ => by rw [first]; exact rest⟩

@[simp] theorem bailIf_ok {u : Unit} : bailIf bad e = .ok u ↔ ¬bad := by
  unfold bailIf
  split <;> simp_all

@[simp] theorem okOr_ok {x : Option α} : okOr x e = .ok a ↔ x = some a := by
  cases x <;> simp [okOr]

@[simp] theorem ok_bind (a : α) (f : α → Except ε β) : ((Except.ok a : Except ε α) >>= f) = f a := rfl

@[simp] theorem error_bind (e : ε) (f : α → Except ε β) : ((Except.error e : Except ε α) >>= f) = .error e := rfl

theorem bind_error (h : (x >>= f) = .error e) : x = .error e ∨ ∃ a, x = .ok a ∧ f a = .error e := by
  cases x with
  | error e => exact .inl (by cases h; rfl)
  | ok a => exact .inr ⟨a, rfl, h⟩

theorem mapError_ok {δ : Type} {f : ε → δ} : x.mapError f = .ok a ↔ x = .ok a := by
  cases x <;> simp [Except.mapError]

theorem bailIf_error : bailIf bad e = .error e' ↔ bad ∧ e = e' := by
  unfold bailIf
  split <;> simp_all

theorem guard_ok (h : (bailIf bad e >>= k) = .ok b) : ¬bad ∧ k () = .ok b := by
  obtain ⟨_, passed, rest⟩ := bind_ok h
  exact ⟨bailIf_ok.mp passed, rest⟩

theorem guard_pass (pass : ¬bad)
    (rest : k () = .ok b) : (bailIf bad e >>= k) = .ok b := bind_ok_iff.mpr ⟨(), bailIf_ok.mpr pass, rest⟩

theorem bind_pass (first : x = .ok a) (rest : f a = .ok b) : (x >>= f) = .ok b := bind_ok_iff.mpr ⟨a, first, rest⟩

theorem runIf_pass {condition : Bool} {check : Except ε Unit} (pass : check = .ok ()) : runIf condition check = .ok () := by
  unfold runIf
  split
  · exact pass
  · rfl

theorem bailIf_neg (h : ¬bad) : bailIf bad e = .ok () := bailIf_ok.mpr h

end steps

/-- Under an invariant, a loop that acts on a part of its state as `h` does runs `h` on that part. -/
theorem foldl_project {τ : Type} {P : σ → Prop} {f : σ → α → σ} {g : σ → τ} {h : τ → α → τ}
    (step : ∀ s x, P s → P (f s x) ∧ g (f s x) = h (g s) x) (xs : List α) (s : σ) (start : P s) :
    P (xs.foldl f s) ∧ g (xs.foldl f s) = xs.foldl h (g s) := by
  induction xs generalizing s with
  | nil => exact ⟨start, rfl⟩
  | cons x xs ih =>
    obtain ⟨kept, same⟩ := step s x start
    rw [foldl_cons, foldl_cons, ← same]
    exact ih (f s x) kept

theorem foldl_frame {τ : Type} {f : σ → α → σ} {g : σ → τ} (keep : ∀ s x, g (f s x) = g s) (xs : List α) (s : σ) :
    g (xs.foldl f s) = g s := by
  induction xs generalizing s with
  | nil => rfl
  | cons x xs ih => rw [foldl_cons, ih, keep]

section loops
variable {f : σ → α → Except ε σ} {s t : σ} {x : α} {xs : List α} {e : ε}

theorem foldlM_cons_ok (h : (x :: xs).foldlM f s = .ok t) : ∃ m, f s x = .ok m ∧ xs.foldlM f m = .ok t := by
  rw [foldlM_cons] at h
  exact bind_ok h

theorem foldlM_error (h : xs.foldlM f s = .error e) :
    ∃ passed x rest t, xs = passed ++ x :: rest ∧ passed.foldlM f s = .ok t ∧ f t x = .error e := by
  induction xs generalizing s with
  | nil => cases h
  | cons x xs ih =>
    rw [foldlM_cons] at h
    rcases bind_error h with first | ⟨m, first, later⟩
    · exact ⟨[], x, xs, s, rfl, rfl, first⟩
    · obtain ⟨passed, y, rest, t, rfl, run, fails⟩ := ih later
      exact ⟨x :: passed, y, rest, t, rfl, by rw [foldlM_cons, first]; exact run, fails⟩

theorem foldlM_invariant (P : List α → σ → Prop)
    (step : ∀ passed s x t, P passed s → f s x = .ok t → P (passed ++ [x]) t)
    (h : xs.foldlM f s = .ok t) (base : P [] s) : P xs t := by
  induction xs using reverseRecOn generalizing t with
  | nil =>
    cases h
    exact base
  | append_singleton xs x ih =>
    rw [foldlM_append] at h
    obtain ⟨m, earlier, last⟩ := bind_ok h
    obtain ⟨_, last, done⟩ := foldlM_cons_ok last
    cases done
    exact step xs m x _ (ih earlier) last

/-- A loop succeeds where each step does, given what the elements passed so far have established. -/
theorem foldlM_succeeds (P : List α → σ → Prop)
    (step : ∀ passed x s, passed ++ [x] <+: xs → P passed s → ∃ t, f s x = .ok t ∧ P (passed ++ [x]) t)
    (base : P [] s) : ∃ t, xs.foldlM f s = .ok t ∧ P xs t := by
  induction xs using reverseRecOn with
  | nil => exact ⟨s, rfl, base⟩
  | append_singleton xs x ih =>
    obtain ⟨m, earlier, holds⟩ := ih fun passed y s part => step passed y s (part.trans (prefix_append _ _))
    obtain ⟨t, last, done⟩ := step xs x m prefix_rfl holds
    exact ⟨t, by rw [foldlM_append]; exact bind_pass earlier (bind_pass last rfl), done⟩

theorem foldlM_preserves {P : σ → Prop}
    (step : ∀ s x t, x ∈ xs → P s → f s x = .ok t → P t) (h : xs.foldlM f s = .ok t) (start : P s) : P t := by
  induction xs generalizing s with
  | nil =>
    cases h
    exact start
  | cons x xs ih =>
    obtain ⟨m, first, later⟩ := foldlM_cons_ok h
    exact ih (fun s y t member => step s y t (mem_cons_of_mem _ member)) later (step s x m mem_cons_self start first)

theorem foldlM_forall (Q : α → Prop) (step : ∀ s x t, f s x = .ok t → Q x)
    (h : xs.foldlM f s = .ok t) : ∀ x ∈ xs, Q x := by
  refine foldlM_invariant (fun passed _ => ∀ x ∈ passed, Q x) ?_ h (by simp)
  intro passed s x t holds run y member
  rcases mem_append.mp member with earlier | last
  · exact holds y earlier
  · rw [mem_singleton.mp last]
    exact step s x t run

end loops

variable {f : α → Except ε β} {xs : List α} {ys : List β}

theorem mapM_ok_iff : xs.mapM f = .ok ys ↔ Forall₂ (fun x y => f x = .ok y) xs ys := by
  induction xs generalizing ys with
  | nil => exact ⟨fun done => by cases done; exact .nil, fun none_ => by cases none_; rfl⟩
  | cons x xs ih =>
    rw [mapM_cons]
    constructor
    · intro h
      obtain ⟨y, first, h⟩ := bind_ok h
      obtain ⟨rest, later, h⟩ := bind_ok h
      cases h
      exact .cons first (ih.mp later)
    · intro made
      cases made with
      | cons first rest => exact bind_pass first (bind_pass (ih.mpr rest) rfl)

theorem forall₂_mem_right {γ δ : Type} {R : γ → δ → Prop} {xs : List γ} {ys : List δ} (related : Forall₂ R xs ys)
    {y : δ} (member : y ∈ ys) : ∃ x ∈ xs, R x y := by
  induction related with
  | nil => cases member
  | cons head _ ih =>
    rcases mem_cons.mp member with rfl | later
    · exact ⟨_, mem_cons_self, head⟩
    · obtain ⟨x, present, holds⟩ := ih later
      exact ⟨x, mem_cons_of_mem _ present, holds⟩

theorem mapM_congr {g : α → Except ε β} (same : ∀ x ∈ xs, f x = g x) : xs.mapM f = xs.mapM g := by
  induction xs with
  | nil => rfl
  | cons x xs ih =>
    rw [mapM_cons, mapM_cons, same x mem_cons_self, ih fun y later => same y (mem_cons_of_mem _ later)]

theorem mapM_all {P : β → Prop} : (∃ ys, xs.mapM f = .ok ys ∧ ∀ y ∈ ys, P y) ↔ ∀ x ∈ xs, ∃ y, f x = .ok y ∧ P y := by
  induction xs with
  | nil => exact ⟨fun _ _ member => absurd member not_mem_nil, fun _ => ⟨[], rfl, fun _ member => absurd member not_mem_nil⟩⟩
  | cons x xs ih =>
    rw [forall_mem_cons, ← ih, mapM_cons]
    constructor
    · rintro ⟨ys, h, all⟩
      obtain ⟨y, first, h⟩ := bind_ok h
      obtain ⟨rest, later, h⟩ := bind_ok h
      cases h
      exact ⟨⟨y, first, all y mem_cons_self⟩, rest, later, fun z member => all z (mem_cons_of_mem _ member)⟩
    · rintro ⟨⟨y, first, holds⟩, rest, later, all⟩
      exact ⟨y :: rest, bind_pass first (bind_pass later rfl), forall_mem_cons.mpr ⟨holds, all⟩⟩

theorem forM_ok_iff {f : α → Except ε Unit} : xs.forM f = .ok () ↔ ∀ x ∈ xs, f x = .ok () := by
  induction xs with
  | nil => exact ⟨fun _ _ member => absurd member not_mem_nil, fun _ => rfl⟩
  | cons x xs ih =>
    rw [forall_mem_cons, ← ih, List.forM]
    constructor
    · intro h
      obtain ⟨_, first, rest⟩ := bind_ok h
      exact ⟨first, rest⟩
    · rintro ⟨first, rest⟩
      exact bind_pass first rest

theorem forM_ok {f : α → Except ε Unit} (h : ∀ x ∈ xs, f x = .ok ()) : xs.forM f = .ok () :=
  forM_ok_iff.mpr h

end Result

namespace Checked
open List

def u64Bound : ℕ := 2 ^ 64

def addU64 (a b : ℕ) : Option ℕ := if a + b < u64Bound then some (a + b) else none

def mulU64 (a b : ℕ) : Option ℕ := if a * b < u64Bound then some (a * b) else none

def subU64 (a b : ℕ) : Option ℕ := if b ≤ a then some (a - b) else none

def satAddU64 (a b : ℕ) : ℕ := min (a + b) (u64Bound - 1)

def satAddU32 (a b : ℕ) : ℕ := min (a + b) (2 ^ 32 - 1)

def sumU64 (xs : List ℕ) : Option ℕ := xs.foldlM addU64 0

theorem addU64_some {a b c : ℕ} : addU64 a b = some c ↔ c = a + b ∧ a + b < u64Bound := by
  unfold addU64
  split <;> simp_all [eq_comm]

theorem addU64_eq {a b : ℕ} (fits : a + b < u64Bound) : addU64 a b = some (a + b) := if_pos fits

theorem mulU64_eq {a b : ℕ} (fits : a * b < u64Bound) : mulU64 a b = some (a * b) := if_pos fits

theorem subU64_eq {a b : ℕ} (fits : b ≤ a) : subU64 a b = some (a - b) := if_pos fits

theorem sumU64_some {xs : List ℕ} {c : ℕ} (h : sumU64 xs = some c) : c = xs.sum := by
  have general : ∀ (xs : List ℕ) (a : ℕ), xs.foldlM addU64 a = some c → c = a + xs.sum := by
    intro xs
    induction xs with
    | nil =>
      intro a done
      simpa [eq_comm] using done
    | cons x xs ih =>
      intro a run
      rw [foldlM_cons] at run
      obtain ⟨m, first, rest⟩ := Option.bind_eq_some_iff.mp run
      rw [ih m rest, (addU64_some.mp first).1, sum_cons, Nat.add_assoc]
  simpa using general xs 0 h

end Checked
