import BitcoindRs.Consensus.VersionBits

namespace BitcoindRs
open Result Bip9Deployment

def deploymentNames : Vector String 3 := #v["testdummy", "taproot", "reduced_data"]

/-- The heights at which a block must signal for a deployment that has a maximum activation height. -/
def Bip9Deployment.enforces (deployment : Bip9Deployment) (height : ℕ) : Bool :=
  let period := max deployment.period 1
  let enforcementStart := deployment.maxActivationHeight - min (period * 2) (2 ^ 32 - 1)
  let enforcementEnd := deployment.maxActivationHeight - period
  deployment.maxActivationHeight < unbounded && enforcementStart ≤ height && height < enforcementEnd

/-- `versionbitsSignals` on the version alone. -/
def signalsVersion (version : ℤ) (bit : ℕ) : Bool :=
  let version := (version % 2 ^ 32).toNat
  version / 2 ^ 29 == 1 && version.testBit bit

def requireSignal (headers : List Header) (height : ℕ) (version : ℤ) (entry : Bip9Deployment × String) :
    Except ValidationError Unit :=
  let (deployment, name) := entry
  if deployment.enforces height then
    bailIf ((bip9StateAtHeight headers deployment (height - 1)).1 = .started ∧ ¬signalsVersion version deployment.bit)
      (.badVersionBits name deployment.maxActivationHeight)
  else .ok ()

def validateMandatoryVersionBitsWithParams (headers : List Header) (bip9 : Vector Bip9Deployment 3) (height : ℕ)
    (version : ℤ) : Except ValidationError Unit :=
  if height = 0 then .ok ()
  else (bip9.zip deploymentNames).toList.forM (requireSignal headers height version)

section Boundary

variable {headers : List Header} {deployment : Bip9Deployment} {height : ℕ}

theorem bip9StateAtHeight_period (headers : List Header) (deployment : Bip9Deployment) (height : ℕ) :
    bip9StateAtHeight headers { deployment with period := max deployment.period 1 } height =
      bip9StateAtHeight headers deployment height := by
  have idempotent : max (max deployment.period 1) 1 = max deployment.period 1 := by omega
  have loop : ∀ (rounds : ℕ) (progress : Bip9Progress),
      bip9Loop headers { deployment with period := max deployment.period 1 } (max deployment.period 1) height rounds
        progress = bip9Loop headers deployment (max deployment.period 1) height rounds progress := by
    intro rounds
    induction rounds with
    | zero => intro progress; rfl
    | succ rounds ih =>
      intro progress
      simp only [bip9Loop, ih]
      rfl
  simp only [bip9StateAtHeight, idempotent, loop]

theorem bip9StateAtHeight_empty (deployment : Bip9Deployment) (first second : ℕ) :
    bip9StateAtHeight [] deployment first = bip9StateAtHeight [] deployment second := by
  have stuck : ∀ (height rounds : ℕ) (progress : Bip9Progress),
      bip9Loop [] deployment (max deployment.period 1) height rounds progress = progress := by
    intro height rounds progress
    cases rounds <;> simp [bip9Loop]
  simp only [bip9StateAtHeight, stuck]

theorem bip9StateAtHeight_inside (small : height < 2 ^ 32) (positive : 0 < height)
    (inside : ¬max deployment.period 1 ∣ height) :
    bip9StateAtHeight headers deployment (height - 1) = bip9StateAtHeight headers deployment height := by
  rcases eq_or_ne headers [] with rfl | nonempty
  · exact bip9StateAtHeight_empty deployment _ _
  · have period : 0 < max deployment.period 1 := by omega
    rw [← bip9StateAtHeight_period, ← bip9StateAtHeight_period headers deployment height,
      bip9StateAtHeight_eq nonempty period (by omega), bip9StateAtHeight_eq nonempty period small]
    obtain ⟨before, rfl⟩ := Nat.exists_eq_succ_of_ne_zero positive.ne'
    rw [Nat.succ_sub_one, Nat.succ_div_of_not_dvd inside]

end Boundary

namespace Bip9Deployment

variable (headers : List Header) (deployment : Bip9Deployment) (height : ℕ)

def startedAt : Bool := (bip9StateAtHeight headers deployment height).1 == .started

/-- The deployment enters or leaves `started` with the block at `height`, the first of a period. -/
def turns : Bool :=
  height % max deployment.period 1 == 0 &&
    (startedAt headers deployment (height - 1) != startedAt headers deployment height)

end Bip9Deployment

section Verdict

variable {headers : List Header} {bip9 : Vector Bip9Deployment 3} {height : ℕ} {version : ℤ}
variable {deployment : Bip9Deployment}

theorem Bip9Deployment.enforces_small (enforced : deployment.enforces height = true) : height < 2 ^ 32 := by
  simp only [enforces, Bool.and_eq_true, decide_eq_true_eq] at enforced
  obtain ⟨⟨bounded, _⟩, inside⟩ := enforced
  have limit : unbounded < 2 ^ 32 := by decide
  omega

theorem requireSignal_ok {name : String} : requireSignal headers height version (deployment, name) = .ok () ↔
      (deployment.enforces height = true → deployment.startedAt headers (height - 1) = true →
        signalsVersion version deployment.bit = true) := by
  simp only [requireSignal, startedAt, beq_iff_eq]
  split
  case isTrue enforced => simp [enforced]
  case isFalse free => simp [free]

theorem forall_named {P : Bip9Deployment → Prop} :
    (∀ entry ∈ (bip9.zip deploymentNames).toList, P entry.1) ↔ ∀ deployment ∈ bip9, P deployment := by
  have firsts : ((bip9.zip deploymentNames).toList.map Prod.fst) = bip9.toList := by
    rw [Vector.toList_zip, List.map_fst_zip]
    simp
  simp only [← Vector.mem_toList_iff, ← firsts, List.forall_mem_map]

theorem validateMandatoryVersionBits_ok (positive : 0 < height) :
    validateMandatoryVersionBitsWithParams headers bip9 height version = .ok () ↔
      ∀ deployment ∈ bip9, deployment.enforces height = true →
        deployment.startedAt headers (height - 1) = true → signalsVersion version deployment.bit = true := by
  rw [validateMandatoryVersionBitsWithParams, if_neg positive.ne', forM_ok_iff, ← forall_named]
  exact forall₂_congr fun entry _ => requireSignal_ok

theorem startedAt_of_not_turns (enforced : deployment.enforces height = true)
    (positive : 0 < height) (steady : deployment.turns headers height = false) :
    deployment.startedAt headers (height - 1) = deployment.startedAt headers height := by
  by_cases boundary : max deployment.period 1 ∣ height
  · simpa [turns, Nat.mod_eq_zero_of_dvd boundary] using steady
  · rw [startedAt, bip9StateAtHeight_inside (enforces_small enforced) positive boundary]
    rfl

theorem startedAt_zero (headers : List Header) (deployment : Bip9Deployment) :
    deployment.startedAt headers 0 = false := by
  have first : ¬max deployment.period 1 ≤ 0 := by omega
  simp only [startedAt, bip9StateAtHeight, bip9Loop, if_neg first]
  split
  · rfl
  · split <;> rfl

end Verdict

/-- The verdict on a block is that of the state of its parent's period. It differs from the state governing the block
itself only if a deployment that is enforced and not signalled enters or leaves `started` with this very block, and
then exactly if these deployments do not demand the signal both before and after. -/
theorem mandatory_signalling_iff (headers : List Header) (bip9 : Vector Bip9Deployment 3) (height : ℕ) (version : ℤ) :
    let unsignalled := fun deployment : Bip9Deployment =>
      deployment ∈ bip9 ∧ deployment.enforces height = true ∧ signalsVersion version deployment.bit = false
    ((∃ error, validateMandatoryVersionBitsWithParams headers bip9 height version = .error error) ↔
        ∃ deployment, unsignalled deployment ∧ deployment.startedAt headers height = true) ↔
      ((∃ deployment, unsignalled deployment ∧ deployment.turns headers height = true) →
        (∃ deployment, unsignalled deployment ∧ deployment.startedAt headers (height - 1) = true) ∧
          ∃ deployment, unsignalled deployment ∧ deployment.startedAt headers height = true) := by
  intro unsignalled
  rcases Nat.eq_zero_or_pos height with rfl | positive
  · simp [validateMandatoryVersionBitsWithParams, startedAt_zero, turns]
  have rejects : (∃ error, validateMandatoryVersionBitsWithParams headers bip9 height version = .error error) ↔
      ∃ deployment, unsignalled deployment ∧ deployment.startedAt headers (height - 1) = true := by
    have accepts := @validateMandatoryVersionBits_ok headers bip9 height version positive
    have verdict : (∃ error, validateMandatoryVersionBitsWithParams headers bip9 height version = .error error) ↔
        ¬validateMandatoryVersionBitsWithParams headers bip9 height version = .ok () := by
      cases validateMandatoryVersionBitsWithParams headers bip9 height version <;> simp
    rw [verdict, accepts]
    simp only [unsignalled, not_forall, exists_prop, Bool.not_eq_true]
    grind
  rw [rejects]
  constructor
  · rintro same ⟨deployment, member, turned⟩
    have one : deployment.startedAt headers (height - 1) = true ∨ deployment.startedAt headers height = true := by
      have differs : deployment.startedAt headers (height - 1) ≠ deployment.startedAt headers height := by
        simp only [turns, Bool.and_eq_true, bne_iff_ne] at turned
        exact turned.2
      grind
    rcases one with before | now
    · have before : ∃ deployment, unsignalled deployment ∧ deployment.startedAt headers (height - 1) = true :=
        ⟨deployment, member, before⟩
      exact ⟨before, same.mp before⟩
    · have now : ∃ deployment, unsignalled deployment ∧ deployment.startedAt headers height = true :=
        ⟨deployment, member, now⟩
      exact ⟨same.mpr now, now⟩
  · intro both
    by_cases turning : ∃ deployment, unsignalled deployment ∧ deployment.turns headers height = true
    · exact iff_of_true (both turning).1 (both turning).2
    · refine exists_congr fun deployment => and_congr_right fun member => ?_
      have steady : deployment.turns headers height = false := by
        rw [← Bool.not_eq_true]
        exact fun turned => turning ⟨deployment, member, turned⟩
      rw [startedAt_of_not_turns member.2.1 positive steady]

/-- Two headers a period: with the fourth block the deployment starts, unsignalled and accepted; where the two blocks
before have locked it in, the next one is refused for not signalling. -/
theorem mandatory_signalling_late : let idle : Bip9Deployment :=
      { bit := 28, startTime := neverActiveTime, timeout := noTimeout
        minActivationHeight := 0, maxActivationHeight := unbounded
        activeDuration := unbounded, threshold := 2, period := 2 }
    let bounded := { idle with bit := 4, startTime := 50, maxActivationHeight := 8 }
    let bip9 := #v[idle, idle, bounded]
    let early := List.replicate 2 (Header.mk 0 0 0 10 0 0) ++ List.replicate 2 (Header.mk 0 0 0 100 0 0)
    let signalled := List.replicate 2 (Header.mk 0 0 0 100 0 0) ++ List.replicate 2 (Header.mk 0x20000010 0 0 100 0 0)
    bounded.enforces 4 = true ∧ signalsVersion 4 bounded.bit = false ∧
      (bip9StateAtHeight early bounded 4).1 = .started ∧
      validateMandatoryVersionBitsWithParams early bip9 4 4 = .ok () ∧
      (bip9StateAtHeight signalled bounded 4).1 = .lockedIn ∧
      validateMandatoryVersionBitsWithParams signalled bip9 4 4 = .error (.badVersionBits "reduced_data" 8) := by
  decide +kernel

end BitcoindRs
