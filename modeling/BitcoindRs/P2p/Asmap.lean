import Mathlib.Tactic
import BitcoindRs.Data.Result

/-! The map from addresses to autonomous systems is a program of four instructions over the bits of an address. -/

namespace BitcoindRs.Asmap
open Result

/-- The places at which the source gives up with `None`; `unfinished` is a loop that ran out of rounds. -/
inductive Fault where
  | endOfData
  | overflow
  | noBitSize
  | addressExhausted
  | badJump
  | badMatch
  | badOpcode
  | pastEnd
  | unfinished
deriving DecidableEq, Repr

/-! Every read returns what was read and the position after it. -/

def readBitLe (data : List UInt8) (position : ℕ) : Except Fault (Bool × ℕ) :=
  match data[position / 8]? with
  | some byte => .ok (byte.toNat.testBit (position % 8), position + 1)
  | none => .error .endOfData

def readBitBe (address : Vector UInt8 16) (position : ℕ) : Except Fault (Bool × ℕ) :=
  match address[position / 8]? with
  | some byte => .ok (byte.toNat.testBit (7 - position % 8), position + 1)
  | none => .error .addressExhausted

def addU32 (left right : ℕ) : Except Fault ℕ := if left + right < 2 ^ 32 then .ok (left + right) else .error .overflow

def shlU32 (shift : ℕ) : Except Fault ℕ := if shift < 32 then .ok (2 ^ shift) else .error .overflow

def addShifted (value shift : ℕ) : Except Fault ℕ := do
  let weight ← shlU32 shift
  addU32 value weight

def addBit (bit : Bool) (value shift : ℕ) : Except Fault ℕ := if bit then addShifted value shift else .ok value

def readNumber (data : List UInt8) : ℕ → ℕ → ℕ → Except Fault (ℕ × ℕ)
  | 0, position, value => .ok (value, position)
  | left + 1, position, value => do
    let (bit, position) ← readBitLe data position
    let value ← addBit bit value left
    readNumber data left position value

def decodeBits (data : List UInt8) : List ℕ → ℕ → ℕ → Except Fault (ℕ × ℕ)
  | [], _, _ => .error .noBitSize
  | [bitSize], position, value => readNumber data bitSize position value
  | bitSize :: bitSizes, position, value => do
    let (continuation, position) ← readBitLe data position
    if continuation then
      let value ← addShifted value bitSize
      decodeBits data bitSizes position value
    else readNumber data bitSize position value

def typeSizes : List ℕ := [0, 0, 1]
def asnSizes : List ℕ := [15, 16, 17, 18, 19, 20, 21, 22, 23, 24]
def matchSizes : List ℕ := [1, 2, 3, 4, 5, 6, 7, 8]
def jumpSizes : List ℕ :=
  [5, 6, 7, 8, 9, 10, 11, 12, 13, 14, 15, 16, 17, 18, 19, 20, 21, 22, 23, 24, 25, 26, 27, 28, 29, 30]

def decodeType (data : List UInt8) (position : ℕ) : Except Fault (ℕ × ℕ) := decodeBits data typeSizes position 0
def decodeAsn (data : List UInt8) (position : ℕ) : Except Fault (ℕ × ℕ) := decodeBits data asnSizes position 1
def decodeMatch (data : List UInt8) (position : ℕ) : Except Fault (ℕ × ℕ) := decodeBits data matchSizes position 2
def decodeJump (data : List UInt8) (position : ℕ) : Except Fault (ℕ × ℕ) := decodeBits data jumpSizes position 17

def programEnd (data : List UInt8) : ℕ := min (data.length * 8) (2 ^ 64 - 1)

structure Cursor where
  position : ℕ
  addressBit : ℕ
  defaultAsn : ℕ
deriving DecidableEq, Repr

/-- The answer of a lookup, with the number of address bits it examined. -/
structure Lookup where
  asn : ℕ
  examined : ℕ
deriving DecidableEq, Repr

/-- Compare the `left` low bits of `value` with the address; whether all agreed, and the next address bit. -/
def matchBits (address : Vector UInt8 16) (value : ℕ) : ℕ → ℕ → Except Fault (Bool × ℕ)
  | 0, addressBit => .ok (true, addressBit)
  | left + 1, addressBit => do
    let (bit, addressBit) ← readBitBe address addressBit
    if bit ≠ value.testBit left then .ok (false, addressBit) else matchBits address value left addressBit

def interpretJump (data : List UInt8) (address : Vector UInt8 16) (cursor : Cursor) (position : ℕ) :
    Except Fault (Lookup ⊕ Cursor) := do
  let (jump, position) ← decodeJump data position
  bailIf (cursor.addressBit = 128 ∨ programEnd data - position ≤ jump) .badJump
  let (bit, addressBit) ← readBitBe address cursor.addressBit
  if bit then
    bailIf (2 ^ 64 ≤ position + jump) .overflow
    return .inr { cursor with position := position + jump, addressBit }
  else return .inr { cursor with position, addressBit }

def interpretMatch (data : List UInt8) (address : Vector UInt8 16) (cursor : Cursor) (position : ℕ) :
    Except Fault (Lookup ⊕ Cursor) := do
  let (value, position) ← decodeMatch data position
  let matchLength := value.log2
  bailIf (128 - cursor.addressBit < matchLength) .badMatch
  let (agreed, addressBit) ← matchBits address value matchLength cursor.addressBit
  if agreed then return .inr { cursor with position, addressBit } else return .inl ⟨cursor.defaultAsn, addressBit⟩

def interpretInstruction (data : List UInt8) (address : Vector UInt8 16) (cursor : Cursor) (position : ℕ) :
    ℕ → Except Fault (Lookup ⊕ Cursor)
  | 0 => do
    let (asn, _) ← decodeAsn data position
    return .inl ⟨asn, cursor.addressBit⟩
  | 1 => interpretJump data address cursor position
  | 2 => interpretMatch data address cursor position
  | 3 => do
    let (asn, position) ← decodeAsn data position
    return .inr { cursor with position, defaultAsn := asn }
  | _ => .error .badOpcode

def interpretStep (data : List UInt8) (address : Vector UInt8 16) (cursor : Cursor) :
    Except Fault (Lookup ⊕ Cursor) := do
  let (opcode, position) ← decodeType data cursor.position
  interpretInstruction data address cursor position opcode

def interpretLoop (data : List UInt8) (address : Vector UInt8 16) : ℕ → Cursor → Except Fault Lookup
  | 0, _ => .error .unfinished
  | rounds + 1, cursor =>
    if cursor.position < programEnd data then do
      match ← interpretStep data address cursor with
      | .inl lookup => .ok lookup
      | .inr cursor => interpretLoop data address rounds cursor
    else .error .pastEnd

def lookup (data : List UInt8) (address : Vector UInt8 16) : Except Fault Lookup :=
  interpretLoop data address (data.length * 8 + 1) ⟨0, 0, 0⟩

def interpret (data : List UInt8) (address : Vector UInt8 16) : Option ℕ := (lookup data address).toOption.map (·.asn)

/-- The variables of the checker's loop; the jump pushed last is the first of `jumps`. -/
structure Walk where
  position : ℕ
  bits : ℕ
  jumps : List (ℕ × ℕ)
  previous : ℕ
  hadIncompleteMatch : Bool
deriving DecidableEq, Repr

inductive Outcome where
  | rejected
  | accepted
  | proceed (walk : Walk)
deriving DecidableEq, Repr

/-- Every bit from `position` up to the end of the program is zero. -/
def paddingClear (data : List UInt8) : ℕ → ℕ → Bool
  | 0, position => position == programEnd data
  | left + 1, position =>
    if position = programEnd data then true
    else match readBitLe data position with
      | .ok (false, position) => paddingClear data left position
      | _ => false

def sanityReturn (data : List UInt8) (walk : Walk) (position : ℕ) : Outcome :=
  if walk.previous = 3 then .rejected
  else match decodeAsn data position with
    | .error _ => .rejected
    | .ok (_, position) =>
      match walk.jumps with
      | [] =>
        if programEnd data - position > 7 then .rejected
        else if paddingClear data 8 position then .accepted else .rejected
      | (target, remainingBits) :: jumps =>
        if position ≠ target then .rejected
        else .proceed { walk with position, bits := remainingBits, jumps, previous := 1 }

def sanityJump (data : List UInt8) (walk : Walk) (position : ℕ) : Outcome :=
  match decodeJump data position with
  | .error _ => .rejected
  | .ok (jump, position) =>
    if jump > programEnd data - position ∨ walk.bits = 0 then .rejected
    else
      let bits := walk.bits - 1
      let target := min (position + jump) (2 ^ 64 - 1)
      if walk.jumps.head?.any fun (oldTarget, _) => oldTarget ≤ target then .rejected
      else .proceed { walk with position, bits, jumps := (target, bits) :: walk.jumps, previous := 1 }

def sanityMatch (data : List UInt8) (walk : Walk) (position : ℕ) : Outcome :=
  match decodeMatch data position with
  | .error _ => .rejected
  | .ok (value, position) =>
    let matchLength := value.log2
    let hadIncompleteMatch := walk.previous = 2 ∧ walk.hadIncompleteMatch
    if matchLength < 8 ∧ hadIncompleteMatch then .rejected
    else if walk.bits < matchLength then .rejected
    else .proceed
      { walk with position, bits := walk.bits - matchLength, hadIncompleteMatch := matchLength < 8, previous := 2 }

def sanityDefault (data : List UInt8) (walk : Walk) (position : ℕ) : Outcome :=
  if walk.previous = 3 then .rejected
  else match decodeAsn data position with
    | .error _ => .rejected
    | .ok (_, position) => .proceed { walk with position, previous := 3 }

def sanityStep (data : List UInt8) (walk : Walk) : Outcome :=
  if walk.jumps.head?.any fun (target, _) => target ≤ walk.position then .rejected
  else match decodeType data walk.position with
    | .error _ => .rejected
    | .ok (opcode, position) =>
      match opcode with
      | 0 => sanityReturn data walk position
      | 1 => sanityJump data walk position
      | 2 => sanityMatch data walk position
      | 3 => sanityDefault data walk position
      | _ => .rejected

def sanityLoop (data : List UInt8) : ℕ → Walk → Bool
  | 0, _ => false
  | rounds + 1, walk =>
    if walk.position = programEnd data then false
    else match sanityStep data walk with
      | .rejected => false
      | .accepted => true
      | .proceed walk => sanityLoop data rounds walk

def sanityCheck (data : List UInt8) (bits : ℕ) : Bool :=
  sanityLoop data (data.length * 8 + 1) ⟨0, bits, [], 1, false⟩

section Reading

variable {data : List UInt8} {position value : ℕ}
variable {next left result : ℕ} {bitSizes : List ℕ}

theorem readBitLe_ok {bit : Bool} (read : readBitLe data position = .ok (bit, next)) :
    next = position + 1 ∧ position < data.length * 8 := by
  unfold readBitLe at read
  split at read
  case h_1 byte found =>
    obtain ⟨inside, _⟩ := List.getElem?_eq_some_iff.mp found
    cases read
    exact ⟨rfl, by omega⟩
  case h_2 => cases read

theorem addShifted_eq {shift : ℕ} (short : shift < 32) (small : value + 2 ^ shift < 2 ^ 32) :
    addShifted value shift = .ok (value + 2 ^ shift) := by
  simp only [addShifted, shlU32, if_pos short, ok_bind, addU32, if_pos small]

theorem readNumber_ok (read : readNumber data left position value = .ok (result, next)) :
    position ≤ next ∧ (position < next → next ≤ data.length * 8) := by
  induction left generalizing position value with
  | zero =>
    cases read
    exact ⟨le_rfl, fun impossible => absurd impossible (Nat.lt_irrefl _)⟩
  | succ left ih =>
    obtain ⟨⟨bit, moved⟩, first, read⟩ := bind_ok read
    obtain ⟨value, _, read⟩ := bind_ok read
    obtain ⟨rfl, inside⟩ := readBitLe_ok first
    obtain ⟨after, bound⟩ := ih read
    exact ⟨by omega, fun _ => by omega⟩

theorem decodeBits_ok (read : decodeBits data bitSizes position value = .ok (result, next)) :
    position ≤ next ∧ (position < next → next ≤ data.length * 8) := by
  induction bitSizes generalizing position value with
  | nil => cases read
  | cons bitSize bitSizes ih =>
    cases bitSizes with
    | nil => exact readNumber_ok read
    | cons second bitSizes =>
      obtain ⟨⟨continuation, moved⟩, first, read⟩ := bind_ok read
      obtain ⟨rfl, inside⟩ := readBitLe_ok first
      cases continuation with
      | true =>
        obtain ⟨value, _, read⟩ := bind_ok read
        obtain ⟨after, bound⟩ := ih read
        exact ⟨by omega, fun _ => by omega⟩
      | false =>
        obtain ⟨after, bound⟩ := readNumber_ok read
        exact ⟨by omega, fun _ => by omega⟩

theorem decodeType_ok {opcode : ℕ} (read : decodeType data position = .ok (opcode, next)) :
    position < next ∧ next ≤ data.length * 8 := by
  obtain ⟨⟨continuation, moved⟩, first, read⟩ := bind_ok read
  obtain ⟨rfl, inside⟩ := readBitLe_ok first
  cases continuation with
  | true =>
    obtain ⟨value, _, read⟩ := bind_ok read
    obtain ⟨after, bound⟩ := decodeBits_ok read
    omega
  | false =>
    obtain ⟨after, bound⟩ := readNumber_ok read
    omega

theorem readNumber_fault (short : left ≤ 32) (small : value + 2 ^ left ≤ 2 ^ 32) :
    readNumber data left position value ≠ .error .overflow := by
  induction left generalizing position value with
  | zero => exact fun impossible => nomatch impossible
  | succ left ih =>
    intro fault
    rw [Nat.pow_succ] at small
    have half : 0 < 2 ^ left := Nat.two_pow_pos left
    rcases bind_error fault with first | ⟨⟨bit, moved⟩, _, fault⟩
    · unfold readBitLe at first
      split at first <;> cases first
    · cases bit with
      | true =>
        rcases bind_error fault with first | ⟨sum, added, fault⟩
        · rw [addBit, if_pos rfl, addShifted_eq (by omega) (by omega)] at first
          cases first
        · rw [addBit, if_pos rfl, addShifted_eq (by omega) (by omega)] at added
          cases added
          exact ih (by omega) (by omega) fault
      | false => exact ih (by omega) (by omega) fault

theorem decodeBits_fault (short : ∀ bitSize ∈ bitSizes, bitSize < 32)
    (small : value + (bitSizes.map (2 ^ ·)).sum ≤ 2 ^ 32) :
    decodeBits data bitSizes position value ≠ .error .overflow := by
  induction bitSizes generalizing position value with
  | nil => exact fun impossible => nomatch impossible
  | cons bitSize bitSizes ih =>
    rw [List.map_cons, List.sum_cons] at small
    have head : bitSize < 32 := short bitSize List.mem_cons_self
    cases bitSizes with
    | nil => exact readNumber_fault head.le (by simpa using small)
    | cons second bitSizes =>
      have positive : 0 < ((second :: bitSizes).map (2 ^ ·)).sum := by
        rw [List.map_cons, List.sum_cons]
        have := Nat.two_pow_pos second
        omega
      intro fault
      rcases bind_error fault with first | ⟨⟨continuation, moved⟩, _, fault⟩
      · unfold readBitLe at first
        split at first <;> cases first
      · cases continuation with
        | true =>
          have added : addShifted value bitSize = .ok (value + 2 ^ bitSize) := addShifted_eq head (by omega)
          simp only [if_true, added, ok_bind] at fault
          exact ih (fun size member => short size (List.mem_cons_of_mem _ member)) (by omega) fault
        | false => exact readNumber_fault head.le (by omega) fault

end Reading

end BitcoindRs.Asmap
