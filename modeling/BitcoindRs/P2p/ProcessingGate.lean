import Mathlib.Data.Prod.Lex
import Mathlib.Tactic

/-! The gate that serializes chain mutation, lowest block first, under every interleaving of its callers. -/

namespace BitcoindRs
open Function

/-- A height and the number of a call. -/
abbrev GateKey := ℕ ×ₗ ℕ

/-- A caller of `acquire` between two of its steps. -/
inductive GateCaller where
  | idle
  | registered (key : GateKey)
  /-- With the notifications sent so far. -/
  | subscribed (key : GateKey) (seen : ℕ)
  | waiting (key : GateKey) (seen : ℕ)
  | holding
deriving DecidableEq

/-- The permit, or the key a caller waits with. -/
def GateCaller.place : GateCaller → Option (Option GateKey)
  | .idle => none
  | .registered key | .subscribed key _ | .waiting key _ => some (some key)
  | .holding => some none

/-- The shared state, its callers, and how many notifications were sent and are due. -/
structure PeerBlockProcessingGate where
  active : Bool := false
  nextSequence : ℕ := 0
  waiters : Finset GateKey := ∅
  sent : ℕ := 0
  due : ℕ := 0
  callers : ℕ → GateCaller := fun _ => .idle

namespace PeerBlockProcessingGate

inductive Step where
  | proceed (id height : ℕ)
  | cancel (id : ℕ)
  | notifyWaiters

section
variable (gate : PeerBlockProcessingGate) (id : ℕ) (key : GateKey)

def move (caller : GateCaller) := { gate with callers := update gate.callers id caller }

def register (height : ℕ) : PeerBlockProcessingGate :=
  let key := toLex (height, gate.nextSequence)
  { gate.move id (.registered key) with
    nextSequence := (gate.nextSequence + 1) % 2 ^ 64
    waiters := insert key gate.waiters }

def inspect (seen : ℕ) : PeerBlockProcessingGate :=
  if gate.active = false ∧ gate.waiters.min = key then
    { gate.move id .holding with active := true, waiters := gate.waiters.erase key }
  else gate.move id (.waiting key seen)

def dropWaiter : PeerBlockProcessingGate :=
  { gate.move id .idle with
    waiters := gate.waiters.erase key
    due := if key ∈ gate.waiters then gate.due + 1 else gate.due }

def dropPermit := { gate.move id .idle with active := false, due := gate.due + 1 }

/-- A wait ends with a notification after the subscription, and only there a caller can be cancelled. -/
def step : Step → PeerBlockProcessingGate
  | .proceed id height => match gate.callers id with
    | .idle => gate.register id height
    | .registered key => gate.move id (.subscribed key gate.sent)
    | .subscribed key seen => gate.inspect id key seen
    | .waiting key seen => if seen = gate.sent then gate else gate.move id (.registered key)
    | .holding => gate.dropPermit id
  | .cancel id => match gate.callers id with
    | .waiting key _ => gate.dropWaiter id key
    | _ => gate
  | .notifyWaiters => if gate.due = 0 then gate else { gate with sent := gate.sent + 1, due := gate.due - 1 }

/-- A waiter that would be admitted has been notified or is about to be. -/
def Fits : GateCaller → Prop
  | .subscribed _ seen => seen ≤ gate.sent
  | .waiting key seen => seen ≤ gate.sent ∧
    (seen = gate.sent → gate.active = false → gate.waiters.min = key → 0 < gate.due)
  | .holding => gate.active = true
  | _ => True

/-- What holds between any two steps. -/
structure Sound : Prop where
  fresh : ∀ key ∈ gate.waiters, (ofLex key).2 < gate.nextSequence
  listed : ∀ key, key ∈ gate.waiters ↔ ∃ id, (gate.callers id).place = some (some key)
  once : ∀ id other place, (gate.callers id).place = some place → (gate.callers other).place = some place → id = other
  fits : ∀ id, gate.Fits (gate.callers id)

end

def run (steps : List Step) : PeerBlockProcessingGate := steps.foldl step {}

variable {gate next : PeerBlockProcessingGate} {id seen : ℕ} {key : GateKey} {caller : GateCaller} {now : Step} {steps : List Step}

/-- What a step of one caller must not break for the others. -/
theorem Sound.moved (sound : Sound gate) (placed : next.callers = update gate.callers id caller)
    (fresh : ∀ key ∈ next.waiters, (ofLex key).2 < next.nextSequence)
    (listed : ∀ key, key ∈ next.waiters ↔
      caller.place = some (some key) ∨ key ∈ gate.waiters ∧ (gate.callers id).place ≠ some (some key))
    (unused : ∀ other place, (gate.callers other).place = some place → caller.place = some place → other = id)
    (fits : next.Fits caller) (sent : next.sent = gate.sent)
    (held : ∀ other ≠ id, gate.callers other = .holding → next.active = true)
    (woken : ∀ key ∈ gate.waiters, next.active = false → next.waiters.min = key →
      0 < next.due ∨ gate.active = false ∧ gate.waiters.min = key ∧ gate.due ≤ next.due) : Sound next := by
  refine ⟨fresh, fun key => ?_, ?_, ?_⟩
  · rw [placed, exists_update_iff gate.callers fun _ c => c.place = some (some key), listed, sound.listed]
    refine or_congr_right ⟨?_, ?_⟩
    · rintro ⟨⟨other, placed⟩, elsewhere⟩
      exact ⟨other, fun same => elsewhere (same ▸ placed), placed⟩
    · rintro ⟨other, different, placed⟩
      exact ⟨⟨other, placed⟩, fun here => different (sound.once other id _ placed here)⟩
  · have once := sound.once
    rw [placed]
    grind
  · rw [placed, forall_update_iff gate.callers fun _ c => next.Fits c]
    refine ⟨fits, fun other different => ?_⟩
    have before := sound.fits other
    cases phase : gate.callers other with
    | idle | registered => trivial
    | subscribed key seen =>
      rw [phase] at before
      exact before.trans_eq sent.symm
    | waiting key seen =>
      rw [phase] at before
      refine ⟨before.1.trans_eq sent.symm, fun current free least => ?_⟩
      rcases woken key ((sound.listed key).mpr ⟨other, by rw [phase]; rfl⟩) free least with due | ⟨free, least, due⟩
      · exact due
      · exact (before.2 (current.trans sent) free least).trans_le due
    | holding => exact held other different phase

theorem Sound.active_of_holding (sound : Sound gate) {other : ℕ} (holding : gate.callers other = .holding) :
    gate.active = true := by
  have := sound.fits other
  rwa [holding] at this

theorem Sound.stay {before : GateCaller} (sound : Sound gate) (phase : gate.callers id = before)
    (same : before.place = caller.place) (fits : gate.Fits caller) : Sound (gate.move id caller) := by
  subst phase
  refine sound.moved rfl sound.fresh (fun key => ?_) (fun other place placed here => ?_) fits rfl
    (fun other _ => sound.active_of_holding) fun key _ free least => .inr ⟨free, least, le_rfl⟩
  · have := sound.listed key
    grind [move]
  · exact sound.once other id place placed (same.trans here)

theorem register_sound (sound : Sound gate) (room : gate.nextSequence + 1 < 2 ^ 64) (idle : gate.callers id = .idle)
    (height : ℕ) : Sound (gate.register id height) := by
  have unlisted : toLex (height, gate.nextSequence) ∉ gate.waiters := fun listed => (sound.fresh _ listed).ne rfl
  have unwrapped : (gate.nextSequence + 1) % 2 ^ 64 = gate.nextSequence + 1 := Nat.mod_eq_of_lt room
  refine sound.moved rfl (fun key listed => ?_) (fun key => ?_) (fun other place placed taken => ?_) trivial rfl
    (fun other _ => sound.active_of_holding) fun key listed free least => .inr ⟨free, ?_, le_rfl⟩
  · show _ < _ % _
    rw [unwrapped, Nat.lt_succ_iff]
    rcases Finset.mem_insert.mp listed with rfl | listed
    · exact le_rfl
    · exact (sound.fresh key listed).le
  · simp [register, idle, GateCaller.place, eq_comm]
  · cases taken
    exact absurd ((sound.listed _).mpr ⟨other, placed⟩) unlisted
  · -- A waiter that is least after the insertion was least before.
    replace least := Finset.min_insert.symm.trans least
    rcases min_choice (WithTop.some (toLex (height, gate.nextSequence))) gate.waiters.min with new | old
    · exact absurd (WithTop.coe_injective (new.symm.trans least) ▸ listed) unlisted
    · exact old.symm.trans least

theorem inspect_sound (sound : Sound gate) (subscribed : gate.callers id = .subscribed key seen) :
    Sound (gate.inspect id key seen) := by
  have early := sound.fits id
  rw [subscribed] at early
  unfold inspect
  split
  · rename_i admitted
    refine sound.moved rfl (fun key listed => sound.fresh key (Finset.mem_of_mem_erase listed)) (fun key => ?_)
      (fun other place placed taken => ?_) rfl rfl (fun _ _ _ => rfl) fun _ _ busy => by cases busy
    · simp [subscribed, GateCaller.place, eq_comm, and_comm]
    · cases taken
      have := @sound.active_of_holding _ other
      cases phase : gate.callers other <;> grind [GateCaller.place]
  · rename_i refused
    exact sound.stay subscribed rfl ⟨early, fun _ free least => absurd ⟨free, least⟩ refused⟩

theorem dropWaiter_sound (sound : Sound gate) (waiting : gate.callers id = .waiting key seen) :
    Sound (gate.dropWaiter id key) := by
  have listed : key ∈ gate.waiters := (sound.listed key).mpr ⟨id, by rw [waiting]; rfl⟩
  refine sound.moved rfl (fun key listed => sound.fresh key (Finset.mem_of_mem_erase listed)) (fun key => ?_)
    (fun _ _ _ taken => by cases taken) trivial rfl (fun other _ => sound.active_of_holding) fun _ _ _ _ => .inl ?_
  · simp [dropWaiter, waiting, GateCaller.place, eq_comm, and_comm]
  · simp [dropWaiter, listed]

theorem dropPermit_sound (sound : Sound gate) (holding : gate.callers id = .holding) : Sound (gate.dropPermit id) := by
  refine sound.moved rfl sound.fresh (fun key => ?_) (fun _ _ _ taken => by cases taken) trivial rfl
    (fun other different also => absurd (sound.once other id none (by rw [also]; rfl) (by rw [holding]; rfl)) different)
    fun _ _ _ _ => .inl gate.due.succ_pos
  simp [dropPermit, move, holding, GateCaller.place]

theorem step_sound (sound : Sound gate) (room : gate.nextSequence + 1 < 2 ^ 64) : Sound (gate.step now) := by
  cases now with
  | proceed id height =>
    rw [step]
    cases phase : gate.callers id with
    | idle => exact register_sound sound room phase height
    | registered key => exact sound.stay phase rfl le_rfl
    | subscribed key seen => exact inspect_sound sound phase
    | waiting key seen =>
      dsimp only
      split
      · exact sound
      · exact sound.stay phase rfl trivial
    | holding => exact dropPermit_sound sound phase
  | cancel id =>
    rw [step]
    split
    · rename_i waiting
      exact dropWaiter_sound sound waiting
    · exact sound
  | notifyWaiters =>
    rw [step]
    split
    · exact sound
    · refine ⟨sound.fresh, sound.listed, sound.once, fun id => ?_⟩
      have here := sound.fits id
      cases phase : gate.callers id <;> grind [Fits]

theorem step_sequence : (gate.step now).nextSequence ≤ gate.nextSequence + 1 := by
  cases now <;> grind [step, register, move, inspect, dropWaiter, dropPermit]

theorem subscribed_of_admitted (before : gate.callers id ≠ .holding) (after : (gate.step now).callers id = .holding) :
    ∃ key seen, gate.callers id = .subscribed key seen ∧ gate.active = false ∧ gate.waiters.min = WithTop.some key := by
  cases now with
  | proceed other | cancel other =>
    cases phase : gate.callers other <;>
      simp only [step, phase, register, move, inspect, dropWaiter, dropPermit, apply_ite callers, ite_apply,
        update_apply] at after <;> grind
  | notifyWaiters =>
    simp only [step, apply_ite callers, ite_self] at after
    exact absurd after before

theorem run_sound (short : steps.length < 2 ^ 64) :
    Sound (run steps) ∧ (run steps).nextSequence ≤ steps.length := by
  induction steps using List.reverseRecOn with
  | nil => exact ⟨⟨by simp [run], by simp [run, GateCaller.place], by simp [run, GateCaller.place], fun _ => trivial⟩, le_rfl⟩
  | append_singleton steps now ih =>
    rw [List.length_append, List.length_singleton] at short ⊢
    obtain ⟨sound, counted⟩ := ih (by omega)
    rw [show run (steps ++ [now]) = (run steps).step now from List.foldl_append]
    exact ⟨step_sound sound (by omega), step_sequence.trans (by omega)⟩

/-- At most one caller holds the permit, and who is admitted finds it free and has the least key of all. -/
theorem run_admits_least (short : steps.length < 2 ^ 64) :
    (∀ id other, (run steps).callers id = .holding → (run steps).callers other = .holding → id = other) ∧
    ∀ now id, (run steps).callers id ≠ .holding → ((run steps).step now).callers id = .holding →
      (∀ other, (run steps).callers other ≠ .holding) ∧ ∃ key, ((run steps).callers id).place = some (some key) ∧
      ∀ other lower, ((run steps).callers other).place = some (some lower) → key ≤ lower := by
  have sound := (run_sound short).1
  refine ⟨fun id other first second => sound.once id other none (by rw [first]; rfl) (by rw [second]; rfl), ?_⟩
  intro now id before after
  obtain ⟨key, seen, subscribed, free, least⟩ := subscribed_of_admitted before after
  refine ⟨fun other holding => ?_, key, by rw [subscribed]; rfl, fun other lower placed => ?_⟩
  · rw [sound.active_of_holding holding] at free
    cases free
  · exact WithTop.coe_le_coe.mp (least ▸ Finset.min_le ((sound.listed lower).mpr ⟨other, placed⟩))

theorem run_admits_least_sample : let gate := run [.proceed 0 7, .proceed 1 5, .proceed 1 0]
    (gate.step (.proceed 1 0)).callers 1 = .holding ∧ ∀ other, gate.callers other ≠ .holding :=
  ⟨by decide, ((run_admits_least (by decide)).2 (.proceed 1 0) 1 (by decide) (by decide)).1⟩

end PeerBlockProcessingGate
end BitcoindRs
