import BitcoindRs.Consensus.Types
import BitcoindRs.Data.Bytes

/-! Recognition of bare multisig scripts, against the rules of the reference client. -/

namespace BitcoindRs
open Codec List

abbrev ScriptOperation := UInt8 × Bytes

def isCorePubkeySize (pubkey : Bytes) : Bool := match pubkey.length, pubkey.head? with
  | 33, some tag => tag = 0x02 || tag = 0x03
  | 65, some tag => tag = 0x04 || tag = 0x06 || tag = 0x07
  | _, _ => false

def pushLength (opcode : UInt8) : Reader ℕ := fun rest =>
  if 0x01 ≤ opcode ∧ opcode ≤ 0x4b then some (opcode.toNat, rest)
  else if opcode = 0x4c then readLe 1 rest
  else if opcode = 0x4d then readLe 2 rest
  else if opcode = 0x4e then readLe 4 rest
  else some (0, rest)

/-- One round of `parse_operations`. -/
def parseOperation : Reader ScriptOperation
  | [] => none
  | opcode :: rest => do
    let (length, rest) ← pushLength opcode rest
    let (data, rest) ← readBytes length rest
    some ((opcode, data), rest)

/-- A round takes at least one byte, so there are no more rounds than bytes. -/
def parseOperationsFrom : ℕ → Bytes → Option (List ScriptOperation)
  | _, [] => some []
  | 0, _ => none
  | fuel + 1, script => do
    let (operation, rest) ← parseOperation script
    let operations ← parseOperationsFrom fuel rest
    some (operation :: operations)

def parseOperations (script : Script) : Option (List ScriptOperation) := parseOperationsFrom script.length script

def isMinimalPush (opcode : UInt8) (data : Bytes) : Bool := match data with
  | [] => opcode = 0x00
  | value :: rest =>
    if rest = [] ∧ 1 ≤ value ∧ value ≤ 16 then opcode = 0x50 + value
    else if rest = [] ∧ value = 0x81 then opcode = 0x4f
    else if data.length ≤ 75 then opcode.toNat = data.length
    else if data.length ≤ 255 then opcode = 0x4c
    else if data.length ≤ 65535 then opcode = 0x4d
    else opcode = 0x4e

def decodeMinimalScriptNumber (data : Bytes) : Option ℤ :=
  let last := data.getLast?.getD 0
  if 4 < data.length then none
  else if data ≠ [] ∧ last &&& 0x7f = 0 ∧ (data.length = 1 ∨ data[data.length - 2]?.getD 0 &&& 0x80 = 0) then none
  else if last &&& 0x80 ≠ 0 then some (-((leNat data : ℤ) - 0x80 * 256 ^ (data.length - 1)))
  else some (leNat data)

def scriptNumberValue : ScriptOperation → Option ℤ
  | (opcode, data) =>
    if 0x51 ≤ opcode ∧ opcode ≤ 0x60 then some ((opcode - 0x50).toNat : ℤ)
    else if 0x01 ≤ opcode ∧ opcode ≤ 0x4e ∧ isMinimalPush opcode data then decodeMinimalScriptNumber data
    else none

def coreScriptNumber (operation : ScriptOperation) (min max : ℕ) : Option ℕ := do
  let value ← scriptNumberValue operation
  if 0 ≤ value ∧ value < 2 ^ 8 ∧ min ≤ value.toNat ∧ value.toNat ≤ max then some value.toNat else none

def coreMultisigSolution (script : Script) : Option (ℕ × List Bytes) := do
  let operations ← parseOperations script
  if operations = [] ∨ script.getLast? ≠ some 0xae then none
  else
    let required ← coreScriptNumber (← operations.head?) 1 20
    let keys := operations.tail.takeWhile fun operation => isCorePubkeySize operation.2
    let count ← coreScriptNumber (← operations[1 + keys.length]?) required 20
    if keys.length ≠ count ∨ 1 + keys.length + 2 ≠ operations.length then none else some (required, keys.map Prod.snd)

/-- The bytes are those of one operation, whatever follows them. -/
def Encodes (bytes : Bytes) (operation : ScriptOperation) : Prop :=
  ∀ rest, parseOperation (bytes ++ rest) = some (operation, rest)

/-- The shortest form of a number from 1 to 20. -/
def numberBytes (n : ℕ) : Bytes := if n ≤ 16 then [UInt8.ofNat (0x50 + n)] else [0x01, UInt8.ofNat n]

/-- `MatchMultisig`: a number, pushes of keys, their number, and one byte. -/
structure IsMultisig (m : ℕ) (keys : List Bytes) (script : Script) : Prop where
  required : 1 ≤ m ∧ m ≤ keys.length ∧ keys.length ≤ 20
  sizes : ∀ key ∈ keys, isCorePubkeySize key = true
  bytes : ∃ chunks pushes, List.Forall₂ Encodes chunks pushes ∧ pushes.map Prod.snd = keys ∧
    script = numberBytes m ++ (chunks.flatten ++ (numberBytes keys.length ++ [0xae]))

variable {script input rest bytes data : Bytes} {operation : ScriptOperation} {operations : List ScriptOperation} {opcode : UInt8}

theorem readBytes_some {n : ℕ} (run : readBytes n input = some (data, rest)) : input = data ++ rest ∧ data.length = n := by
  unfold readBytes at run
  split at run
  · cases run
  · cases run
    exact ⟨(take_append_drop n input).symm, length_take_of_le (by omega)⟩

theorem readLe_front {width n : ℕ} (run : readLe width input = some (n, rest)) :
    ∃ front, input = front ++ rest ∧ ∀ more, readLe width (front ++ more) = some (n, more) := by
  obtain ⟨⟨front, back⟩, read, same⟩ := Option.map_eq_some_iff.mp run
  cases same
  obtain ⟨rfl, rfl⟩ := readBytes_some read
  exact ⟨front, rfl, fun more => by rw [readLe, readBytes_append]; rfl⟩

theorem pushLength_front {n : ℕ} (run : pushLength opcode input = some (n, rest)) :
    ∃ front, input = front ++ rest ∧ ∀ more, pushLength opcode (front ++ more) = some (n, more) := by
  unfold pushLength at run ⊢
  split_ifs at run ⊢
  · cases run
    exact ⟨[], rfl, fun _ => rfl⟩
  · exact readLe_front run
  · exact readLe_front run
  · exact readLe_front run
  · cases run
    exact ⟨[], rfl, fun _ => rfl⟩

theorem parseOperation_front (run : parseOperation input = some (operation, rest)) :
    ∃ front, input = front ++ rest ∧ Encodes front operation := by
  cases input with
  | nil => cases run
  | cons opcode input =>
    obtain ⟨⟨n, behind⟩, size, run⟩ := Option.bind_eq_some_iff.mp run
    obtain ⟨⟨data, back⟩, read, same⟩ := Option.bind_eq_some_iff.mp run
    cases same
    obtain ⟨front, rfl, again⟩ := pushLength_front size
    obtain ⟨rfl, rfl⟩ := readBytes_some read
    refine ⟨opcode :: (front ++ data), by simp, fun more => ?_⟩
    simp [parseOperation, again, readBytes_append]

theorem Encodes.ne_nil (encodes : Encodes bytes operation) : bytes ≠ [] := by
  rintro rfl
  cases encodes []

theorem parseOperationsFrom_nil (fuel : ℕ) :
    parseOperationsFrom fuel [] = some operations ↔ ∃ chunks, List.Forall₂ Encodes chunks operations ∧ [] = chunks.flatten := by
  rw [parseOperationsFrom]
  constructor
  · intro run
    cases run
    exact ⟨[], .nil, rfl⟩
  · rintro ⟨chunks, each, empty⟩
    cases each with
    | nil => rfl
    | cons one _ => exact absurd (append_eq_nil_iff.mp empty.symm).1 one.ne_nil

theorem parseOperationsFrom_iff {fuel : ℕ} (enough : script.length ≤ fuel) :
    parseOperationsFrom fuel script = some operations ↔ ∃ chunks, List.Forall₂ Encodes chunks operations ∧ script = chunks.flatten := by
  induction fuel generalizing script operations with
  | zero =>
    obtain rfl := length_eq_zero_iff.mp (Nat.le_zero.mp enough)
    exact parseOperationsFrom_nil 0
  | succ fuel ih =>
    rcases script with _ | ⟨opcode, script⟩
    · exact parseOperationsFrom_nil (fuel + 1)
    have shorter : ∀ {front rest : Bytes} {operation}, Encodes front operation → opcode :: script = front ++ rest → rest.length ≤ fuel := by
      intro front rest operation one split
      have some_ := length_pos_iff.mpr one.ne_nil
      rw [split, length_append] at enough
      omega
    constructor
    · intro run
      obtain ⟨⟨operation, rest⟩, first, run⟩ := Option.bind_eq_some_iff.mp run
      obtain ⟨operations, others, same⟩ := Option.bind_eq_some_iff.mp run
      cases same
      obtain ⟨front, split, one⟩ := parseOperation_front first
      obtain ⟨chunks, each, rfl⟩ := (ih (shorter one split)).mp others
      exact ⟨front :: chunks, .cons one each, split⟩
    · rintro ⟨chunks, each, split⟩
      cases each with
      | nil => cases split
      | @cons front operation chunks operations one each =>
        have first : parseOperation (opcode :: script) = some (operation, chunks.flatten) := split ▸ one chunks.flatten
        have others := (ih (shorter one split)).mpr ⟨chunks, each, rfl⟩
        simp [parseOperationsFrom, first, others]

theorem Encodes.split (encodes : Encodes bytes (opcode, data)) :
    ∃ body, bytes = opcode :: body ∧ pushLength opcode body = some (data.length, data) := by
  have run := encodes []
  rw [append_nil] at run
  cases bytes with
  | nil => cases run
  | cons opcode body =>
    obtain ⟨⟨n, behind⟩, size, run⟩ := Option.bind_eq_some_iff.mp run
    obtain ⟨⟨data, back⟩, read, same⟩ := Option.bind_eq_some_iff.mp run
    cases same
    obtain ⟨rfl, rfl⟩ := readBytes_some read
    exact ⟨body, rfl, by rwa [append_nil] at size⟩

theorem forall_byte {P : UInt8 → Prop} (each : ∀ n < 256, P (UInt8.ofNat n)) (byte : UInt8) : P byte := by
  have known := each byte.toNat byte.toNat_lt
  rwa [UInt8.ofNat_toNat] at known

theorem decode_small {value : ℤ} (run : decodeMinimalScriptNumber data = some value) (low : 1 ≤ value) (high : value ≤ 20) :
    data = [UInt8.ofNat value.toNat] := by
  have zero : ∀ byte : UInt8, byte &&& 0x7f = 0 ↔ byte.toNat % 128 = 0 := forall_byte (by decide +kernel)
  have sign : ∀ byte : UInt8, byte &&& 0x80 = 0 ↔ byte.toNat < 128 := forall_byte (by decide +kernel)
  unfold decodeMinimalScriptNumber at run
  match data with
  | [] => simp [leNat] at run; omega
  | [a] =>
    simp [leNat, zero, sign] at run
    split_ifs at run <;> obtain ⟨_, same⟩ := run <;> cases same
    · omega
    · simp
  | [a, b] =>
    simp [leNat, zero, sign] at run
    split_ifs at run <;> obtain ⟨_, same⟩ := run <;> cases same <;> omega
  | [a, b, c] =>
    simp [leNat, zero, sign] at run
    split_ifs at run <;> obtain ⟨_, same⟩ := run <;> cases same <;> omega
  | [a, b, c, d] =>
    simp [leNat, zero, sign] at run
    split_ifs at run <;> obtain ⟨_, same⟩ := run <;> cases same <;> omega
  | a :: b :: c :: d :: e :: rest => simp at run

theorem pushLength_plain (above : 0x4e < opcode) : pushLength opcode input = some (0, input) := by
  rw [UInt8.lt_iff_toNat_lt] at above
  have other : ∀ low : UInt8, low.toNat ≤ 0x4e → opcode ≠ low := by
    rintro low small rfl
    exact absurd small (Nat.not_le.mpr above)
  have large : ¬(0x01 ≤ opcode ∧ opcode ≤ 0x4b) := by
    rw [@UInt8.le_iff_toNat_le opcode 0x4b]
    rintro ⟨-, small⟩
    exact absurd (above.trans_le small) (by decide)
  rw [pushLength, if_neg large, if_neg (other _ (by decide)), if_neg (other _ (by decide)), if_neg (other _ (by decide))]

theorem scriptNumberValue_small {value : ℤ} (encodes : Encodes bytes operation) (run : scriptNumberValue operation = some value)
    (low : 1 ≤ value) (high : value ≤ 20) : bytes = numberBytes value.toNat ∧ operation.2.length ≤ 1 := by
  obtain ⟨opcode, data⟩ := operation
  obtain ⟨body, rfl, size⟩ := encodes.split
  simp only [scriptNumberValue] at run
  split_ifs at run with digit push
  · cases run
    have digits : ∀ opcode : UInt8, 0x51 ≤ opcode ∧ opcode ≤ 0x60 → 0x4e < opcode ∧ [opcode] = numberBytes (opcode - 0x50).toNat :=
      forall_byte (by decide +kernel)
    obtain ⟨above, same⟩ := digits opcode digit
    rw [pushLength_plain above, Option.some_inj, Prod.mk.injEq, eq_comm, length_eq_zero_iff] at size
    obtain ⟨rfl, rfl⟩ := size
    exact ⟨same, Nat.zero_le 1⟩
  · obtain rfl := decode_small run low high
    obtain ⟨-, bound, minimal⟩ := push
    lift value to ℕ using by omega
    have pushes : ∀ opcode : UInt8, ∀ v < 21, 1 ≤ v ∧ opcode ≤ 0x4e ∧ isMinimalPush opcode [UInt8.ofNat v] = true →
        opcode = 0x01 ∧ [0x01, UInt8.ofNat v] = numberBytes v := forall_byte (by decide +kernel)
    obtain ⟨rfl, same⟩ := pushes opcode value (by omega) ⟨by omega, bound, minimal⟩
    cases size
    exact ⟨same, le_rfl⟩

theorem number_of (v : ℕ) (positive : 1 ≤ v) (small : v ≤ 20) :
    ∃ operation, Encodes (numberBytes v) operation ∧ scriptNumberValue operation = some (v : ℤ) := by
  refine ⟨if v ≤ 16 then (UInt8.ofNat (0x50 + v), []) else (0x01, [UInt8.ofNat v]), ?_, ?_⟩
  · interval_cases v <;> exact fun rest => rfl
  · interval_cases v <;> decide

theorem coreScriptNumber_iff {low high v : ℕ} :
    coreScriptNumber operation low high = some v ↔ scriptNumberValue operation = some (v : ℤ) ∧ v < 256 ∧ low ≤ v ∧ v ≤ high := by
  constructor
  · intro run
    obtain ⟨value, read, run⟩ := Option.bind_eq_some_iff.mp run
    split_ifs at run with bounds
    cases run
    rw [read, Int.toNat_of_nonneg bounds.1]
    exact ⟨rfl, by omega, bounds.2.2⟩
  · rintro ⟨read, byte, bounds⟩
    simpa [coreScriptNumber, read, bounds] using byte

variable {first second last : ScriptOperation} {pushes : List ScriptOperation} {m : ℕ} {keys : List Bytes}

theorem last_operation : (first :: (pushes ++ [second, last])).getLast? = some last := by
  have split : first :: (pushes ++ [second, last]) = first :: (pushes ++ [second]) ++ [last] := by simp
  rw [split, getLast?_concat]

theorem coreMultisigSolution_of (parsed : parseOperations script = some (first :: (pushes ++ [second, last])))
    (final : script.getLast? = some 0xae) (required : coreScriptNumber first 1 20 = some m)
    (sizes : ∀ push ∈ pushes, isCorePubkeySize push.2 = true) (plain : isCorePubkeySize second.2 = false)
    (count : coreScriptNumber second m 20 = some pushes.length) : coreMultisigSolution script = some (m, pushes.map Prod.snd) := by
  have keys : (pushes ++ [second, last]).takeWhile (fun operation => isCorePubkeySize operation.2) = pushes := by
    rw [takeWhile_append_of_pos sizes, takeWhile_cons_of_neg (by simp [plain]), append_nil]
  simp [coreMultisigSolution, parsed, final, required, keys, count, Nat.add_comm 1]

theorem coreMultisigSolution_ok (run : coreMultisigSolution script = some (m, keys)) :
    ∃ first second last pushes, parseOperations script = some (first :: (pushes ++ [second, last])) ∧
      coreScriptNumber first 1 20 = some m ∧ (∀ push ∈ pushes, isCorePubkeySize push.2 = true) ∧
      coreScriptNumber second m 20 = some pushes.length ∧ pushes.map Prod.snd = keys := by
  obtain ⟨operations, parsed, run⟩ := Option.bind_eq_some_iff.mp run
  split_ifs at run
  obtain ⟨first, head, run⟩ := Option.bind_eq_some_iff.mp run
  obtain ⟨tail, rfl⟩ := head?_eq_some_iff.mp head
  obtain ⟨_, required, run⟩ := Option.bind_eq_some_iff.mp run
  obtain ⟨second, next, run⟩ := Option.bind_eq_some_iff.mp run
  obtain ⟨_, count, run⟩ := Option.bind_eq_some_iff.mp run
  split_ifs at run with bad
  cases run
  obtain ⟨rfl, size⟩ := not_or.mp bad |>.imp not_not.mp not_not.mp
  have sizes := all_eq_true.mp (@List.all_takeWhile _ (fun operation => isCorePubkeySize operation.2) tail)
  have whole := @List.takeWhile_append_dropWhile _ (fun operation => isCorePubkeySize operation.2) tail
  rw [tail_cons] at next size count ⊢
  generalize tail.takeWhile (fun operation => isCorePubkeySize operation.2) = pushes at *
  generalize tail.dropWhile (fun operation => isCorePubkeySize operation.2) = others at whole
  subst whole
  have two : others.length = 2 := by
    rw [length_cons, length_append] at size
    omega
  obtain ⟨_, last, rfl⟩ := length_eq_two.mp two
  rw [Nat.add_comm, getElem?_cons_succ, getElem?_append_right le_rfl, Nat.sub_self] at next
  cases next
  exact ⟨first, second, last, pushes, parsed, required, sizes, count, rfl⟩

theorem IsMultisig.parses (multisig : IsMultisig m keys script) :
    ∃ operations, parseOperations script = some operations ∧ operations.getLast? = some (0xae, []) ∧
      coreMultisigSolution script = some (m, keys) := by
  obtain ⟨⟨positive, below, few⟩, sizes, chunks, pushes, each, rfl, bytes⟩ := multisig
  rw [length_map] at below few bytes
  obtain ⟨first, one, required⟩ := number_of m positive (below.trans few)
  obtain ⟨second, two, count⟩ := number_of pushes.length (positive.trans below) few
  have final : Encodes [0xae] (0xae, []) := fun _ => rfl
  have parsed : parseOperations script = some (first :: (pushes ++ [second, (0xae, [])])) :=
    (parseOperationsFrom_iff le_rfl).mpr
      ⟨numberBytes m :: (chunks ++ [numberBytes pushes.length, [0xae]]),
        .cons one (rel_append each (.cons two (.cons final .nil))), by simp [bytes]⟩
  have short := (scriptNumberValue_small two count (by omega) (by omega)).2
  have plain : isCorePubkeySize second.2 = false := by
    unfold isCorePubkeySize
    split
    · omega
    · omega
    · rfl
  refine ⟨_, parsed, last_operation, coreMultisigSolution_of parsed (by simp [bytes]) ?_ ?_ plain ?_⟩
  · exact coreScriptNumber_iff.mpr ⟨required, by omega, positive, by omega⟩
  · exact fun push member => sizes _ (mem_map_of_mem member)
  · exact coreScriptNumber_iff.mpr ⟨count, by omega, below, few⟩

theorem coreMultisigSolution_sound (run : coreMultisigSolution script = some (m, keys)) (parsed : parseOperations script = some operations)
    (final : operations.getLast? = some (0xae, [])) : IsMultisig m keys script := by
  obtain ⟨first, second, last, pushes, parsed', required, sizes, count, rfl⟩ := coreMultisigSolution_ok run
  obtain rfl := Option.some.inj (parsed'.symm.trans parsed)
  obtain ⟨chunks, each, rfl⟩ := (parseOperationsFrom_iff le_rfl).mp parsed
  obtain rfl := Option.some.inj (last_operation.symm.trans final)
  obtain ⟨required, -, positive, -⟩ := coreScriptNumber_iff.mp required
  obtain ⟨count, -, below, few⟩ := coreScriptNumber_iff.mp count
  cases each with
  | @cons chunk _ chunks _ one each =>
    have keys := forall₂_take_append _ _ _ each
    have others := forall₂_drop_append _ _ _ each
    rw [← take_append_drop pushes.length chunks]
    generalize chunks.take pushes.length = front at keys ⊢
    generalize chunks.drop pushes.length = back at others ⊢
    rcases others with _ | ⟨two, _ | ⟨three, _ | _⟩⟩
    obtain ⟨body, rfl, size⟩ := three.split
    cases size
    obtain ⟨rfl, -⟩ := scriptNumberValue_small one required (by omega) (by omega)
    obtain ⟨rfl, -⟩ := scriptNumberValue_small two count (by omega) (by omega)
    refine ⟨?_, ?_, front, pushes, keys, rfl, ?_⟩
    · rw [length_map]
      exact ⟨positive, below, few⟩
    · rw [forall_mem_map]
      exact sizes
    · simp

/-- One key, and a push of the byte `0xae` for an end. -/
def pushEndedScript : Script := [0x51, 0x21, 0x02] ++ List.replicate 32 0 ++ [0x51, 0x01, 0xae]

end BitcoindRs
