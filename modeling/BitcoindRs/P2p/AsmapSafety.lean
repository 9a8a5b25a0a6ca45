import BitcoindRs.P2p.Asmap

namespace BitcoindRs.Asmap
open Result

/-- A program from `position` on that any lookup with `bits` address bits left can follow to an answer. -/
inductive Sound (data : List UInt8) : ℕ → ℕ → Prop
  | answer {position bits next asn after : ℕ} (inside : position < programEnd data)
      (opcode : decodeType data position = .ok (0, next)) (answer : decodeAsn data next = .ok (asn, after)) :
      Sound data position bits
  | jump {position bits next jump after : ℕ} (inside : position < programEnd data)
      (opcode : decodeType data position = .ok (1, next)) (distance : decodeJump data next = .ok (jump, after))
      (short : after + jump < programEnd data) (zero : Sound data after bits) (one : Sound data (after + jump) bits) :
      Sound data position (bits + 1)
  | compare {position bits next value after : ℕ} (inside : position < programEnd data)
      (opcode : decodeType data position = .ok (2, next)) (pattern : decodeMatch data next = .ok (value, after))
      (short : value.log2 ≤ bits) (rest : Sound data after (bits - value.log2)) : Sound data position bits
  | fallback {position bits next asn after : ℕ} (inside : position < programEnd data)
      (opcode : decodeType data position = .ok (3, next)) (answer : decodeAsn data next = .ok (asn, after))
      (rest : Sound data after bits) : Sound data position bits

section Checker

variable {data : List UInt8}
variable {walk : Walk} {next position : ℕ}

theorem decode_forward {after opcode start value : ℕ} {bitSizes : List ℕ} (read : decodeType data position = .ok (opcode, next))
    (argument : decodeBits data bitSizes next start = .ok (value, after)) :
    position < after :=
  (decodeType_ok read).1.trans_le (decodeBits_ok argument).1

theorem Sound.inside {bits : ℕ} (sound : Sound data position bits) : position < programEnd data := by
  cases sound <;> assumption

theorem paddingClear_inside {left : ℕ} (clear : paddingClear data left position = true) :
    position ≤ programEnd data := by
  induction left generalizing position with
  | zero => exact (beq_iff_eq.mp clear).le
  | succ left ih =>
    unfold paddingClear at clear
    split at clear
    case isTrue same => exact same.le
    case isFalse =>
      split at clear
      case h_1 next read =>
        obtain ⟨rfl, _⟩ := readBitLe_ok read
        exact (Nat.le_succ _).trans (ih clear)
      case h_2 => cases clear

/-- The position of the walk and every jump it has pending are sound. -/
def Walk.Sound (data : List UInt8) (walk : Walk) : Prop :=
  Asmap.Sound data walk.position walk.bits ∧ ∀ entry ∈ walk.jumps, Asmap.Sound data entry.1 entry.2

def Outcome.Sound (data : List UInt8) : Outcome → Prop
  | .rejected => False
  | .accepted => True
  | .proceed walk => walk.Sound data

theorem sanityReturn_sound (opcode : decodeType data walk.position = .ok (0, next))
    (sound : (sanityReturn data walk next).Sound data) : walk.Sound data := by
  unfold sanityReturn at sound
  split at sound
  case isTrue => exact sound.elim
  case isFalse =>
    split at sound
    case h_1 => exact sound.elim
    case h_2 asn after answer =>
      have onward := decode_forward opcode answer
      split at sound
      case h_1 empty =>
        rw [Walk.Sound, empty]
        refine ⟨?_, fun entry impossible => nomatch impossible⟩
        split at sound
        case isTrue => exact sound.elim
        case isFalse =>
          split at sound
          case isTrue clear =>
            have bound := paddingClear_inside clear
            exact .answer (by omega) opcode answer
          case isFalse => exact sound.elim
      case h_2 target remainingBits jumps pending =>
        split at sound
        case isTrue => exact sound.elim
        case isFalse same =>
          rw [not_not] at same
          subst same
          obtain ⟨here, others⟩ := sound
          have bound : after < programEnd data := here.inside
          rw [Walk.Sound, pending]
          exact ⟨.answer (by omega) opcode answer, List.forall_mem_cons.mpr ⟨here, others⟩⟩

theorem sanityJump_sound (opcode : decodeType data walk.position = .ok (1, next))
    (sound : (sanityJump data walk next).Sound data) : walk.Sound data := by
  unfold sanityJump at sound
  split at sound
  case h_1 => exact sound.elim
  case h_2 jump after distance =>
    have onward := decode_forward opcode distance
    split at sound
    case isTrue => exact sound.elim
    case isFalse allowed =>
      simp only at sound
      split at sound
      case isTrue => exact sound.elim
      case isFalse =>
        obtain ⟨zero, pending⟩ := sound
        obtain ⟨one, others⟩ := List.forall_mem_cons.mp pending
        have here : after < programEnd data := zero.inside
        have target : min (after + jump) (2 ^ 64 - 1) = after + jump := by
          simp only [programEnd] at here allowed
          omega
        simp only [target] at one
        obtain ⟨bits, left⟩ : ∃ bits, walk.bits = bits + 1 := Nat.exists_eq_succ_of_ne_zero (by omega)
        rw [left, Nat.add_sub_cancel] at zero one
        rw [Walk.Sound, left]
        exact ⟨.jump (by omega) opcode distance one.inside zero one, others⟩

theorem sanityMatch_sound (opcode : decodeType data walk.position = .ok (2, next))
    (sound : (sanityMatch data walk next).Sound data) : walk.Sound data := by
  unfold sanityMatch at sound
  split at sound
  case h_1 => exact sound.elim
  case h_2 value after pattern =>
    have onward := decode_forward opcode pattern
    simp only at sound
    split at sound
    case isTrue => exact sound.elim
    case isFalse =>
      split at sound
      case isTrue => exact sound.elim
      case isFalse enough =>
        obtain ⟨rest, others⟩ := sound
        have here : after < programEnd data := rest.inside
        exact ⟨.compare (by omega) opcode pattern (by omega) rest, others⟩

theorem sanityDefault_sound (opcode : decodeType data walk.position = .ok (3, next))
    (sound : (sanityDefault data walk next).Sound data) : walk.Sound data := by
  unfold sanityDefault at sound
  split at sound
  case isTrue => exact sound.elim
  case isFalse =>
    split at sound
    case h_1 => exact sound.elim
    case h_2 asn after answer =>
      have onward := decode_forward opcode answer
      obtain ⟨rest, others⟩ := sound
      have here : after < programEnd data := rest.inside
      exact ⟨.fallback (by omega) opcode answer rest, others⟩

theorem sanityStep_sound (sound : (sanityStep data walk).Sound data) : walk.Sound data := by
  unfold sanityStep at sound
  split at sound
  case isTrue => exact sound.elim
  case isFalse =>
    split at sound
    case h_1 => exact sound.elim
    case h_2 opcode next read =>
      split at sound
      case h_1 => exact sanityReturn_sound read sound
      case h_2 => exact sanityJump_sound read sound
      case h_3 => exact sanityMatch_sound read sound
      case h_4 => exact sanityDefault_sound read sound
      case h_5 => exact sound.elim

theorem sanityLoop_sound {rounds : ℕ} (accepts : sanityLoop data rounds walk = true) : walk.Sound data := by
  induction rounds generalizing walk with
  | zero => cases accepts
  | succ rounds ih =>
    unfold sanityLoop at accepts
    split at accepts
    case isTrue => cases accepts
    case isFalse =>
      apply sanityStep_sound
      split at accepts
      case h_1 => cases accepts
      case h_2 step => rw [step]; trivial
      case h_3 later step => rw [step]; exact ih accepts

end Checker

section Interpreter

variable {data : List UInt8} {address other : Vector UInt8 16}
variable {next value left addressBit rounds : ℕ} {cursor : Cursor} {agreed : Bool} {outcome : Lookup ⊕ Cursor}

theorem readBitBe_ok {position : ℕ} (inside : position < 128) :
    ∃ bit, readBitBe address position = .ok (bit, position + 1) := by
  have byte : position / 8 < 16 := by omega
  exact ⟨_, by rw [readBitBe, Vector.getElem?_eq_getElem byte]⟩

theorem readBitBe_next {position : ℕ} {bit : Bool} (read : readBitBe address position = .ok (bit, next)) :
    next = position + 1 := by
  unfold readBitBe at read
  split at read <;> cases read
  rfl

theorem matchBits_ok {value left addressBit : ℕ} (inside : addressBit + left ≤ 128) :
    ∃ agreed next, matchBits address value left addressBit = .ok (agreed, next) ∧ next ≤ addressBit + left ∧
      (agreed = true → next = addressBit + left) := by
  induction left generalizing addressBit with
  | zero => exact ⟨true, addressBit, rfl, le_rfl, fun _ => rfl⟩
  | succ left ih =>
    obtain ⟨bit, read⟩ := @readBitBe_ok address addressBit (by omega)
    simp only [matchBits, read, ok_bind]
    split
    case isTrue => exact ⟨false, addressBit + 1, rfl, by omega, fun impossible => nomatch impossible⟩
    case isFalse =>
      obtain ⟨agreed, next, run, bound, all⟩ := @ih (addressBit + 1) (by omega)
      exact ⟨agreed, next, run, by omega, fun matched => by rw [all matched]; omega⟩

theorem matchBits_mono (run : matchBits address value left addressBit = .ok (agreed, next)) : addressBit ≤ next := by
  induction left generalizing addressBit with
  | zero => cases run; exact le_rfl
  | succ left ih =>
    obtain ⟨⟨bit, moved⟩, read, run⟩ := bind_ok run
    have step := readBitBe_next read
    simp only at run
    split at run
    case isTrue => cases run; omega
    case isFalse => have := ih run; omega

theorem matchBits_congr (run : matchBits address value left addressBit = .ok (agreed, next))
    (same : ∀ bit < next, readBitBe other bit = readBitBe address bit) :
    matchBits other value left addressBit = .ok (agreed, next) := by
  induction left generalizing addressBit with
  | zero => exact run
  | succ left ih =>
    have whole := matchBits_mono run
    obtain ⟨⟨bit, moved⟩, read, run⟩ := bind_ok run
    have step := readBitBe_next read
    simp only at run
    have examined : addressBit < next := by
      split at run
      case isTrue => cases run; omega
      case isFalse => have := matchBits_mono run; omega
    simp only [matchBits, same addressBit examined, read, ok_bind]
    split
    case isTrue differs => rw [if_pos differs] at run; exact run
    case isFalse agrees => rw [if_neg agrees] at run; exact ih run

theorem interpretLoop_done {answer : Lookup} (inside : cursor.position < programEnd data)
    (step : interpretStep data address cursor = .ok (.inl answer)) :
    interpretLoop data address (rounds + 1) cursor = .ok answer := by
  rw [interpretLoop, if_pos inside, step]
  rfl

theorem interpretLoop_next {later : Cursor} (inside : cursor.position < programEnd data)
    (step : interpretStep data address cursor = .ok (.inr later)) :
    interpretLoop data address (rounds + 1) cursor = interpretLoop data address rounds later := by
  rw [interpretLoop, if_pos inside, step]
  rfl

theorem interpretStep_opcode {cursor : Cursor} {opcode next : ℕ}
    (read : decodeType data cursor.position = .ok (opcode, next)) :
    interpretStep data address cursor = interpretInstruction data address cursor next opcode := by
  rw [interpretStep, read]
  rfl

theorem interpretJump_step {cursor : Cursor} {next jump after : ℕ} (left : cursor.addressBit < 128)
    (distance : decodeJump data next = .ok (jump, after)) (short : after + jump < programEnd data) :
    ∃ position, (position = after ∨ position = after + jump) ∧ interpretJump data address cursor next =
      .ok (.inr { cursor with position, addressBit := cursor.addressBit + 1 }) := by
  obtain ⟨bit, read⟩ := @readBitBe_ok address cursor.addressBit left
  have allowed : ¬(cursor.addressBit = 128 ∨ programEnd data - after ≤ jump) := by omega
  have small : ¬2 ^ 64 ≤ after + jump := by
    simp only [programEnd] at short
    omega
  simp only [interpretJump, distance, ok_bind, bailIf_neg allowed, read]
  cases bit with
  | true => exact ⟨after + jump, .inr rfl, by simp only [if_true, bailIf_neg small]; rfl⟩
  | false => exact ⟨after, .inl rfl, rfl⟩

theorem interpretMatch_step {cursor : Cursor} {next value after : ℕ}
    (pattern : decodeMatch data next = .ok (value, after)) (inside : cursor.addressBit + value.log2 ≤ 128) :
    (∃ answer, interpretMatch data address cursor next = .ok (.inl answer) ∧ answer.examined ≤ 128) ∨
      interpretMatch data address cursor next =
        .ok (.inr { cursor with position := after, addressBit := cursor.addressBit + value.log2 }) := by
  obtain ⟨agreed, examined, run, bound, all⟩ := @matchBits_ok address value value.log2 cursor.addressBit inside
  have allowed : ¬128 - cursor.addressBit < value.log2 := by omega
  simp only [interpretMatch, pattern, ok_bind, bailIf_neg allowed, run]
  cases agreed with
  | true =>
    rw [all rfl]
    exact .inr rfl
  | false => exact .inl ⟨⟨cursor.defaultAsn, examined⟩, rfl, bound.trans inside⟩

theorem Sound.lookup {position bits : ℕ} (sound : Sound data position bits) :
    ∀ {rounds addressBit defaultAsn : ℕ}, addressBit + bits = 128 → data.length * 8 < position + rounds →
      ∃ answer, interpretLoop data address rounds ⟨position, addressBit, defaultAsn⟩ = .ok answer ∧
        answer.examined ≤ 128 := by
  have some : ∀ {position rounds : ℕ}, position < programEnd data → data.length * 8 < position + rounds →
      ∃ left, rounds = left + 1 := by
    intro position rounds inside enough
    simp only [programEnd] at inside
    exact Nat.exists_eq_succ_of_ne_zero (by omega)
  induction sound with
  | @answer position bits next asn after inside opcode answer =>
    intro rounds addressBit defaultAsn left enough
    obtain ⟨rounds, rfl⟩ := some inside enough
    refine ⟨⟨asn, addressBit⟩, interpretLoop_done inside ?_, by simp only; omega⟩
    rw [interpretStep_opcode opcode]
    simp only [interpretInstruction, answer, ok_bind]
    rfl
  | @jump position bits next jump after inside opcode distance short zero one zeroRun oneRun =>
    intro rounds addressBit defaultAsn left enough
    obtain ⟨rounds, rfl⟩ := some inside enough
    have onward := decode_forward opcode distance
    have first := @interpretStep_opcode data address ⟨position, addressBit, defaultAsn⟩ _ _ opcode
    obtain ⟨target, either, step⟩ :=
      @interpretJump_step data address ⟨position, addressBit, defaultAsn⟩ next jump after (by simp only; omega) distance short
    have used : addressBit + 1 + bits = 128 := by omega
    rw [interpretLoop_next inside (first.trans step)]
    rcases either with rfl | rfl
    · exact zeroRun used (by omega)
    · exact oneRun used (by omega)
  | @compare position bits next value after inside opcode pattern short rest ih =>
    intro rounds addressBit defaultAsn left enough
    obtain ⟨rounds, rfl⟩ := some inside enough
    have onward := decode_forward opcode pattern
    have first := @interpretStep_opcode data address ⟨position, addressBit, defaultAsn⟩ _ _ opcode
    rcases @interpretMatch_step data address ⟨position, addressBit, defaultAsn⟩ next value after pattern
      (by simp only; omega) with ⟨answer, step, bound⟩ | step
    · exact ⟨answer, interpretLoop_done inside (first.trans step), bound⟩
    · have used : addressBit + value.log2 + (bits - value.log2) = 128 := by omega
      rw [interpretLoop_next inside (first.trans step)]
      exact ih used (by omega)
  | @fallback position bits next asn after inside opcode answer rest ih =>
    intro rounds addressBit defaultAsn left enough
    obtain ⟨rounds, rfl⟩ := some inside enough
    have onward := decode_forward opcode answer
    have step : interpretStep data address ⟨position, addressBit, defaultAsn⟩ =
        .ok (.inr ⟨after, addressBit, asn⟩) := by
      rw [interpretStep_opcode opcode]
      simp only [interpretInstruction, answer, ok_bind]
      rfl
    rw [interpretLoop_next inside step]
    exact ih left (by omega)

/-- The first bits of the addresses are the same. -/
def Agree (address other : Vector UInt8 16) (examined : ℕ) : Prop := ∀ bit < examined, readBitBe other bit = readBitBe address bit

def examinedBits : Lookup ⊕ Cursor → ℕ := Sum.elim (·.examined) (·.addressBit)

theorem interpretJump_congr (step : interpretJump data address cursor next = .ok outcome) :
    cursor.addressBit ≤ examinedBits outcome ∧
      (Agree address other (examinedBits outcome) →
        interpretJump data other cursor next = .ok outcome) := by
  obtain ⟨⟨jump, after⟩, distance, step⟩ := bind_ok step
  obtain ⟨allowed, step⟩ := guard_ok step
  obtain ⟨⟨bit, addressBit⟩, read, step⟩ := bind_ok step
  have moved := readBitBe_next read
  have examined : examinedBits outcome = addressBit := by
    cases bit with
    | true => obtain ⟨_, step⟩ := guard_ok step; cases step; rfl
    | false => cases step; rfl
  refine ⟨by omega, fun same => ?_⟩
  simp only [interpretJump, distance, ok_bind, bailIf_neg allowed, same cursor.addressBit (by omega), read]
  exact step

theorem interpretMatch_congr (step : interpretMatch data address cursor next = .ok outcome) :
    cursor.addressBit ≤ examinedBits outcome ∧
      (Agree address other (examinedBits outcome) →
        interpretMatch data other cursor next = .ok outcome) := by
  obtain ⟨⟨value, after⟩, pattern, step⟩ := bind_ok step
  obtain ⟨allowed, step⟩ := guard_ok step
  obtain ⟨⟨agreed, addressBit⟩, run, step⟩ := bind_ok step
  have moved := matchBits_mono run
  have examined : examinedBits outcome = addressBit := by
    cases agreed <;> cases step <;> rfl
  refine ⟨by omega, fun same => ?_⟩
  rw [examined] at same
  simp only [interpretMatch, pattern, ok_bind, bailIf_neg allowed, matchBits_congr run same]
  exact step

theorem interpretStep_congr {cursor : Cursor} {outcome : Lookup ⊕ Cursor}
    (step : interpretStep data address cursor = .ok outcome) :
    cursor.addressBit ≤ examinedBits outcome ∧
      (Agree address other (examinedBits outcome) →
        interpretStep data other cursor = .ok outcome) := by
  obtain ⟨⟨opcode, next⟩, read, _⟩ := bind_ok step
  rw [interpretStep_opcode read] at step ⊢
  unfold interpretInstruction at step ⊢
  split at step
  case h_1 =>
    refine ⟨?_, fun _ => step⟩
    obtain ⟨_, _, step⟩ := bind_ok step
    cases step
    exact le_rfl
  case h_2 => exact interpretJump_congr step
  case h_3 => exact interpretMatch_congr step
  case h_4 =>
    refine ⟨?_, fun _ => step⟩
    obtain ⟨_, _, step⟩ := bind_ok step
    cases step
    exact le_rfl
  case h_5 => cases step

theorem interpretLoop_congr {rounds : ℕ} {cursor : Cursor} {answer : Lookup}
    (run : interpretLoop data address rounds cursor = .ok answer) :
    cursor.addressBit ≤ answer.examined ∧
      (Agree address other answer.examined →
        interpretLoop data other rounds cursor = .ok answer) := by
  induction rounds generalizing cursor with
  | zero => cases run
  | succ rounds ih =>
    unfold interpretLoop at run
    split at run
    case isFalse => cases run
    case isTrue inside =>
      obtain ⟨outcome, step, run⟩ := bind_ok run
      obtain ⟨forward, repeated⟩ := @interpretStep_congr data address other cursor outcome step
      cases outcome with
      | inl found =>
        cases run
        exact ⟨forward, fun same => interpretLoop_done inside (repeated same)⟩
      | inr later =>
        obtain ⟨onward, again⟩ := ih run
        refine ⟨forward.trans onward, fun same => ?_⟩
        rw [interpretLoop_next inside (repeated fun bit early => same bit (early.trans_le onward))]
        exact again same

end Interpreter

/-- A program that passes the check answers every lookup, with at most all 128 address bits examined, the answer
depends on the examined bits alone, and no instruction argument overflows wherever it is read. -/
theorem sanityCheck_lookup (data : List UInt8) (accepts : sanityCheck data 128 = true) (address : Vector UInt8 16) :
    (∃ answer, lookup data address = .ok answer ∧ interpret data address = some answer.asn ∧ answer.examined ≤ 128 ∧
      ∀ other : Vector UInt8 16, (∀ bit < answer.examined, readBitBe other bit = readBitBe address bit) →
        lookup data other = .ok answer ∧ interpret data other = some answer.asn) ∧
    ∀ position, decodeType data position ≠ .error .overflow ∧ decodeAsn data position ≠ .error .overflow ∧
      decodeMatch data position ≠ .error .overflow ∧ decodeJump data position ≠ .error .overflow := by
  obtain ⟨sound, _⟩ := sanityLoop_sound accepts
  obtain ⟨answer, run, bound⟩ := @Sound.lookup data address _ _ sound (data.length * 8 + 1) 0 0 (by rfl) (by simp only; omega)
  have answers : ∀ {address}, lookup data address = .ok answer → interpret data address = some answer.asn := by
    intro address found
    rw [interpret, found]
    rfl
  refine ⟨⟨answer, run, answers run, bound, fun other same => ?_⟩, fun position => ⟨?_, ?_, ?_, ?_⟩⟩
  · have again := (@interpretLoop_congr data address other _ _ _ run).2 same
    exact ⟨again, answers again⟩
  all_goals exact decodeBits_fault (by decide) (by decide)

/-- The program of the source's test that answers 1 for every address. -/
theorem sanityCheck_lookup_constant :
    sanityCheck [0, 0, 0] 128 = true ∧ interpret [0, 0, 0] (Vector.replicate 16 0) = some 1 := by
  have accepts : sanityCheck [0, 0, 0] 128 = true := by decide +kernel
  obtain ⟨⟨answer, run, result, _, _⟩, _⟩ := sanityCheck_lookup [0, 0, 0] accepts (Vector.replicate 16 0)
  have expected : lookup [0, 0, 0] (Vector.replicate 16 0) = .ok ⟨1, 0⟩ := by decide +kernel
  rw [expected] at run
  cases run
  exact ⟨accepts, result⟩

end BitcoindRs.Asmap
