import BitcoindRs.Data.Result

/-!
Byte strings: little-endian numbers, variable-length sizes, readers that consume a front part of their input, and
obfuscation with a repeating key.
-/

namespace Codec
open List hiding Vector
variable {size n width : ℕ} {α ε : Type}

abbrev Bytes := List UInt8

def leNat : Bytes → ℕ
  | [] => 0
  | b :: rest => b.toNat + 256 * leNat rest

/-- The low `width` bytes of a number, least significant first. -/
def leBytes : ℕ → ℕ → Bytes
  | 0, _ => []
  | width + 1, n => UInt8.ofNat n :: leBytes width (n / 256)

@[simp] theorem length_leBytes (width n : ℕ) : (leBytes width n).length = width := by
  induction width generalizing n with
  | zero => rfl
  | succ width ih => simp [leBytes, ih]

theorem leNat_leBytes (fits : n < 256 ^ width) : leNat (leBytes width n) = n := by
  induction width generalizing n with
  | zero => simp_all [leBytes, leNat]
  | succ width ih =>
    have high : n / 256 < 256 ^ width := by
      rw [Nat.pow_succ] at fits
      omega
    rw [leBytes, leNat, ih high]
    have low : (UInt8.ofNat n).toNat = n % 256 := UInt8.toNat_ofNat'
    omega

/-- A reader takes a value off the front of its input. -/
abbrev Reader (α : Type) := Bytes → Option (α × Bytes)

def readBytes (n : ℕ) : Reader Bytes := fun input =>
  if input.length < n then none else some (input.take n, input.drop n)

def readLe (width : ℕ) : Reader ℕ := fun input => (readBytes width input).map fun (front, rest) => (leNat front, rest)

/-- A reader that says what is wrong with its input. -/
abbrev Parser (ε α : Type) := Bytes → Except ε (α × Bytes)

def required {ε α : Type} (read : Reader α) (error : ε) : Parser ε α := fun input => Result.okOr (read input) error

def parseMany {ε α : Type} (parse : Parser ε α) : ℕ → Parser ε (List α)
  | 0, input => .ok ([], input)
  | n + 1, input => do
    let (first, rest) ← parse input
    let (others, rest) ← parseMany parse n rest
    .ok (first :: others, rest)

theorem readBytes_append (front rest : Bytes) : readBytes front.length (front ++ rest) = some (front, rest) := by
  simp [readBytes]

theorem readLe_leBytes (fits : n < 256 ^ width) (rest : Bytes) :
    readLe width (leBytes width n ++ rest) = some (n, rest) := by
  have front := readBytes_append (leBytes width n) rest
  rw [length_leBytes] at front
  simp [readLe, front, leNat_leBytes fits]

theorem required_of_read {read : Reader α} {input rest : Bytes} {a : α} (error : ε)
    (found : read input = some (a, rest)) : required read error input = .ok (a, rest) := by
  simp [required, Result.okOr, found]

theorem parseMany_flatMap {parse : Parser ε α} {encode : α → Bytes} (xs : List α)
    (inverse : ∀ x ∈ xs, ∀ rest, parse (encode x ++ rest) = .ok (x, rest)) (rest : Bytes) :
    parseMany parse xs.length (xs.flatMap encode ++ rest) = .ok (xs, rest) := by
  induction xs with
  | nil => rfl
  | cons x xs ih =>
    have first := inverse x mem_cons_self (xs.flatMap encode ++ rest)
    have others := ih fun y member => inverse y (mem_cons_of_mem _ member)
    rw [flatMap_cons, append_assoc, length_cons, parseMany, first]
    simp only [Result.ok_bind, others]

def compactSize (n : ℕ) : Bytes :=
  if n < 0xfd then [UInt8.ofNat n]
  else if n < 0x10000 then 0xfd :: leBytes 2 n
  else if n < 0x100000000 then 0xfe :: leBytes 4 n
  else 0xff :: leBytes 8 n

/-- Reads a size and refuses one that is not in its shortest form. -/
def readCompactSize : Reader ℕ
  | [] => none
  | tag :: rest =>
    let wide (width least : ℕ) : Option (ℕ × Bytes) := do
      let (n, rest) ← readLe width rest
      if n < least then none else some (n, rest)
    if tag = 0xff then wide 8 0x100000000
    else if tag = 0xfe then wide 4 0x10000
    else if tag = 0xfd then wide 2 0xfd
    else some (tag.toNat, rest)

theorem length_compactSize (n : ℕ) : (compactSize n).length =
    if n < 0xfd then 1 else if n < 0x10000 then 3 else if n < 0x100000000 then 5 else 9 := by
  unfold compactSize
  split_ifs <;> simp

theorem length_compactSize_pos (n : ℕ) : 0 < (compactSize n).length := by
  rw [length_compactSize]
  split_ifs <;> omega

theorem readCompactSize_compactSize (fits : n < 2 ^ 64) (rest : Bytes) :
    readCompactSize (compactSize n ++ rest) = some (n, rest) := by
  unfold compactSize
  split_ifs with one three five
  · have byte : (UInt8.ofNat n).toNat = n := by
      rw [UInt8.toNat_ofNat']
      omega
    have small : ∀ tag : UInt8, 0xfd ≤ tag.toNat → UInt8.ofNat n ≠ tag := by
      intro tag large same
      rw [← same, byte] at large
      omega
    simp [readCompactSize, small 0xff (by decide), small 0xfe (by decide), small 0xfd (by decide), byte]
  · have wide := readLe_leBytes (show n < 256 ^ 2 by omega) rest
    simp [readCompactSize, wide, one]
  · have wide := readLe_leBytes (show n < 256 ^ 4 by omega) rest
    simp [readCompactSize, wide, three]
  · have wide := readLe_leBytes (show n < 256 ^ 8 by omega) rest
    simp [readCompactSize, wide, five]

/-- The first `count` records of `size` bytes. -/
def records (size : ℕ) : ℕ → Bytes → List Bytes
  | 0, _ => []
  | count + 1, bytes => bytes.take size :: records size count (bytes.drop size)

/-- The complete records of `size` bytes; a shorter rest at the end is left out. -/
def chunksExact (size : ℕ) (bytes : Bytes) : List Bytes := records size (bytes.length / size) bytes

theorem records_append (count more : ℕ) (front back : Bytes) (fills : front.length = count * size) :
    records size (count + more) (front ++ back) = records size count front ++ records size more back := by
  induction count generalizing front with
  | zero =>
    rw [Nat.zero_mul, length_eq_zero_iff] at fills
    simp [fills, records]
  | succ count ih =>
    rw [Nat.succ_mul] at fills
    have first : size ≤ front.length := by omega
    have rest : (front.drop size).length = count * size := by
      rw [length_drop]
      omega
    rw [Nat.add_right_comm, records, records, take_append_of_le_length first,
      drop_append_of_le_length first, ih _ rest, cons_append]

theorem chunksExact_append {front : Bytes} (whole : size ∣ front.length) (back : Bytes) :
    chunksExact size (front ++ back) = chunksExact size front ++ chunksExact size back := by
  have fills := (Nat.div_mul_cancel whole).symm
  rw [chunksExact, length_append, Nat.add_div_of_dvd_right whole, records_append _ _ _ _ fills]
  rfl

def wholeLength (size length : ℕ) : ℕ := length - length % size

theorem dvd_wholeLength (size length : ℕ) : size ∣ wholeLength size length := Nat.dvd_sub_mod length

theorem chunksExact_take (positive : 0 < size) (bytes : Bytes) :
    chunksExact size (bytes.take (wholeLength size bytes.length)) = chunksExact size bytes := by
  have shorter : wholeLength size bytes.length ≤ bytes.length := Nat.sub_le _ _
  have whole : (bytes.take (wholeLength size bytes.length)).length = wholeLength size bytes.length := by
    rw [length_take, min_eq_left shorter]
  have rest : chunksExact size (bytes.drop (wholeLength size bytes.length)) = [] := by
    have short : (bytes.drop (wholeLength size bytes.length)).length / size = 0 := by
      apply Nat.div_eq_of_lt
      have := Nat.mod_lt bytes.length positive
      have := Nat.mod_le bytes.length size
      rw [length_drop, wholeLength]
      omega
    rw [chunksExact, short, records]
  have parts := chunksExact_append (whole ▸ dvd_wholeLength size bytes.length) (bytes.drop (wholeLength size bytes.length))
  rw [take_append_drop, rest, append_nil] at parts
  exact parts.symm

theorem chunksExact_flatMap (positive : 0 < size) {encode : α → Bytes}
    (exact : ∀ a, (encode a).length = size) (items : List α) :
    chunksExact size (items.flatMap encode) = items.map encode := by
  induction items with
  | nil => simp [chunksExact, records]
  | cons item items ih =>
    rw [flatMap_cons, chunksExact_append ⟨1, by rw [exact, Nat.mul_one]⟩, ih, map_cons]
    have one : chunksExact size (encode item) = [encode item] := by
      rw [chunksExact, exact, Nat.div_self positive]
      simp [records, ← exact item]
    rw [one]
    rfl

class Sha256 where
  digest : Bytes → Vector UInt8 32

@[reducible] def Sha256.sample : Sha256 where
  digest bytes := Vector.replicate 32 (bytes.headD 0)

/-- Combine every byte with the key byte its file position selects. -/
def xorAt (key : ℕ → UInt8) (offset : ℕ) : Bytes → Bytes
  | [] => []
  | b :: rest => (b ^^^ key offset) :: xorAt key (offset + 1) rest

@[simp] theorem length_xorAt (key : ℕ → UInt8) (offset : ℕ) (bytes : Bytes) :
    (xorAt key offset bytes).length = bytes.length := by
  induction bytes generalizing offset with
  | nil => rfl
  | cons b rest ih => simp [xorAt, ih, UInt8.xor_assoc]

@[simp] theorem xorAt_xorAt (key : ℕ → UInt8) (offset : ℕ) (bytes : Bytes) :
    xorAt key offset (xorAt key offset bytes) = bytes := by
  induction bytes generalizing offset with
  | nil => rfl
  | cons b rest ih => simp [xorAt, ih, UInt8.xor_assoc]

theorem xorAt_append (key : ℕ → UInt8) (offset : ℕ) (xs ys : Bytes) :
    xorAt key offset (xs ++ ys) = xorAt key offset xs ++ xorAt key (offset + xs.length) ys := by
  induction xs generalizing offset with
  | nil => rfl
  | cons x xs ih => simp [xorAt, ih, Nat.add_assoc, Nat.add_comm 1]

end Codec
