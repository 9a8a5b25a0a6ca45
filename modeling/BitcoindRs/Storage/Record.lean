import BitcoindRs.Consensus.Types
import BitcoindRs.Data.Bytes

/-!
Records of the append-only stores: a length, then the payload, compressed if that saves space, all of it combined with
a key that depends on the file position.
-/

/-- The compression library, with its documented inverse. -/
class Zstd where
  compress : Codec.Bytes → Codec.Bytes
  decompress : Codec.Bytes → ℕ → Option Codec.Bytes
  decompress_compress : ∀ payload capacity, payload.length ≤ capacity →
    decompress (compress payload) capacity = some payload

@[reducible] def Zstd.sample : Zstd where
  compress payload := payload
  decompress bytes capacity := if bytes.length ≤ capacity then some bytes else none
  decompress_compress _ _ fits := if_pos fits

namespace BitcoindRs
open Result Codec List
variable {maxSize : ℕ} {payload : Bytes}

def xorKeySize : ℕ := 8

structure XorKey where
  bytes : Bytes
  size : bytes.length = xorKeySize

def XorKey.apply (key : XorKey) (bytes : Bytes) (offset : ℕ) : Bytes :=
  xorAt (fun position => key.bytes.getD (position % xorKeySize) 0) offset bytes

@[simp] theorem XorKey.length_apply (key : XorKey) (bytes : Bytes) (offset : ℕ) :
    (key.apply bytes offset).length = bytes.length := length_xorAt _ _ _

@[simp] theorem XorKey.apply_apply (key : XorKey) (bytes : Bytes) (offset : ℕ) :
    key.apply (key.apply bytes offset) offset = bytes := xorAt_xorAt _ _ _

theorem XorKey.apply_append (key : XorKey) (xs ys : Bytes) (offset : ℕ) :
    key.apply (xs ++ ys) offset = key.apply xs offset ++ key.apply ys (offset + xs.length) := xorAt_append _ _ _ _

/-- `STORAGE_COMPRESSION_MAGIC`, the text `bitcoind-rs-zstd-v1` with a final zero. -/
def storageCompressionMagic : Bytes :=
  [98, 105, 116, 99, 111, 105, 110, 100, 45, 114, 115, 45, 122, 115, 116, 100, 45, 118, 49, 0]

def storageCompressionHeaderSize : ℕ := storageCompressionMagic.length + 4
def storageCompressionMinSize : ℕ := 256

variable [Zstd]

/-- Small payloads and those that compression does not shrink stay raw. -/
def storesRaw (payload : Bytes) : Bool :=
  payload.length < storageCompressionMinSize ||
    payload.length ≤ (Zstd.compress payload).length + storageCompressionHeaderSize

def encodeStoragePayload (payload : Bytes) (maxSize : ℕ) : Except Error Bytes := do
  bailIf (maxSize < payload.length)
    (.message ("storage payload is too large: " ++ toString payload.length ++ " bytes"))
  if storesRaw payload then .ok payload
  else do
    bailIf (2 ^ 32 ≤ payload.length) (.message "uncompressed storage payload length does not fit u32")
    .ok (storageCompressionMagic ++ leBytes 4 payload.length ++ Zstd.compress payload)

def decodeStoragePayload (encoded : Bytes) (maxSize : ℕ) : Except Error Bytes :=
  if !storageCompressionMagic.isPrefixOf encoded then do
    bailIf (maxSize < encoded.length)
      (.message ("stored payload is too large: " ++ toString encoded.length ++ " bytes"))
    .ok encoded
  else do
    bailIf (encoded.length < storageCompressionHeaderSize) (.message "truncated zstd storage record header")
    let expectedLength := leNat ((encoded.drop storageCompressionMagic.length).take 4)
    bailIf (maxSize < expectedLength)
      (.message ("decompressed storage payload is too large: " ++ toString expectedLength ++ " bytes"))
    let decoded ← okOr (Zstd.decompress (encoded.drop storageCompressionHeaderSize) expectedLength)
      (.message "decompressing storage record with zstd")
    bailIf (decoded.length ≠ expectedLength) (.message ("zstd storage record decoded to " ++
      toString decoded.length ++ " bytes, expected " ++ toString expectedLength))
    .ok decoded

omit [Zstd] in
theorem isPrefixOf_append (front rest : Bytes) : front.isPrefixOf (front ++ rest) = true := by
  rw [ isPrefixOf_iff_prefix]
  exact prefix_append front rest

theorem decode_compressed (fits : payload.length ≤ maxSize) (short : payload.length < 2 ^ 32) :
    decodeStoragePayload (storageCompressionMagic ++ leBytes 4 payload.length ++ Zstd.compress payload) maxSize =
      .ok payload := by
  have length : leNat (((storageCompressionMagic ++ leBytes 4 payload.length ++ Zstd.compress payload).drop
      storageCompressionMagic.length).take 4) = payload.length := by
    rw [append_assoc, drop_left, take_append_of_le_length (by simp), take_of_length_le (by simp)]
    exact leNat_leBytes (by omega)
  have body : (storageCompressionMagic ++ leBytes 4 payload.length ++ Zstd.compress payload).drop
      storageCompressionHeaderSize = Zstd.compress payload := by
    rw [show storageCompressionHeaderSize = (storageCompressionMagic ++ leBytes 4 payload.length).length by
      simp [storageCompressionHeaderSize], drop_left]
  unfold decodeStoragePayload
  rw [append_assoc, isPrefixOf_append, ← append_assoc, length, body]
  dsimp only
  rw [Zstd.decompress_compress _ _ (Nat.le_refl _)]
  simp [bailIf, okOr, Nat.not_lt.mpr fits, storageCompressionHeaderSize]

/-- A payload that is stored raw is told from a compressed one by its first bytes. -/
def ReadsBack (payload : Bytes) (maxSize : ℕ) : Prop :=
  storesRaw payload = true → decodeStoragePayload payload maxSize = .ok payload

theorem readsBack_of_unmarked (fits : payload.length ≤ maxSize)
    (unmarked : storageCompressionMagic.isPrefixOf payload = false) : ReadsBack payload maxSize := by
  intro _
  unfold decodeStoragePayload
  rw [unmarked]
  simp [bailIf, Nat.not_lt.mpr fits]

theorem encodeStoragePayload_ok {encoded : Bytes} (h : encodeStoragePayload payload maxSize = .ok encoded) :
    payload.length ≤ maxSize ∧ encoded.length ≤ payload.length ∧ (payload ≠ [] → encoded ≠ []) ∧
      (ReadsBack payload maxSize → decodeStoragePayload encoded maxSize = .ok payload) ∧
      (storesRaw payload = true → encoded = payload) := by
  unfold encodeStoragePayload at h
  obtain ⟨fits, h⟩ := guard_ok h
  have fits := Nat.le_of_not_lt fits
  split at h
  · rename_i raw
    cases h
    exact ⟨fits, Nat.le_refl _, fun some => some, fun back => back raw, fun _ => rfl⟩
  · rename_i compressed
    obtain ⟨short, h⟩ := guard_ok h
    cases h
    have smaller : (Zstd.compress payload).length + storageCompressionHeaderSize < payload.length := by
      simp only [storesRaw, Bool.or_eq_true, decide_eq_true_eq, not_or] at compressed
      omega
    refine ⟨fits, ?_, fun _ => by simp [storageCompressionMagic], fun _ => decode_compressed fits (Nat.lt_of_not_le short),
      fun raw => absurd raw compressed⟩
    simp only [length_append, length_leBytes]
    unfold storageCompressionHeaderSize at smaller
    omega

theorem encodeStoragePayload_exists (limit : maxSize < 2 ^ 32)
    (fits : payload.length ≤ maxSize) : ∃ encoded, encodeStoragePayload payload maxSize = .ok encoded := by
  unfold encodeStoragePayload
  rw [bailIf_neg (Nat.not_lt.mpr fits), ok_bind]
  split
  · exact ⟨_, rfl⟩
  · rw [bailIf_neg (by omega)]
    exact ⟨_, rfl⟩

/-- Where a record starts in the data file, and the length of its payload. -/
structure Record where
  offset : ℕ
  length : ℕ
deriving DecidableEq, Repr

def Record.stop (record : Record) : ℕ := record.offset + 4 + record.length

def frameRecord (key : XorKey) (offset : ℕ) (encoded : Bytes) : Bytes :=
  key.apply (leBytes 4 encoded.length ++ encoded) offset

omit [Zstd] in
@[simp] theorem length_frameRecord (key : XorKey) (offset : ℕ) (encoded : Bytes) :
    (frameRecord key offset encoded).length = 4 + encoded.length := by
  simp [frameRecord]

def readBlockExactAt (file : Bytes) (offset length : ℕ) : Except Error Bytes := do
  bailIf (file.length < offset + length) (.message "short positional read")
  .ok ((file.drop offset).take length)

def readStorageRecord (file : Bytes) (record : Record) (key : XorKey) (maxSize : ℕ) (kind : String) :
    Except Error Bytes := do
  bailIf (record.length = 0 ∨ maxSize < record.length)
    (.message ("stored " ++ kind ++ " record is too large: " ++ toString record.length ++ " bytes"))
  let length ← readBlockExactAt file record.offset 4
  bailIf (leNat (key.apply length record.offset) ≠ record.length)
    (.message (kind ++ " store index disagrees with record length"))
  let encoded ← readBlockExactAt file (record.offset + 4) record.length
  (decodeStoragePayload (key.apply encoded (record.offset + 4)) maxSize).mapError
    fun _ => .message ("decoding stored " ++ kind ++ " record")

omit [Zstd] in
theorem readBlockExactAt_append (front middle rest : Bytes) :
    readBlockExactAt (front ++ (middle ++ rest)) front.length middle.length = .ok middle := by
  unfold readBlockExactAt
  rw [bailIf_neg (by simp), ok_bind, drop_left, take_left]

theorem readStorageRecord_frame (front rest encoded : Bytes) (key : XorKey) (kind : String)
    (some : encoded ≠ []) (fits : encoded.length ≤ maxSize) (short : encoded.length < 2 ^ 32) :
    readStorageRecord (front ++ (frameRecord key front.length encoded ++ rest)) ⟨front.length, encoded.length⟩ key maxSize
      kind = (decodeStoragePayload encoded maxSize).mapError fun _ => .message ("decoding stored " ++ kind ++ " record") := by
  have parts : frameRecord key front.length encoded =
      key.apply (leBytes 4 encoded.length) front.length ++ key.apply encoded (front.length + 4) := by
    rw [frameRecord, XorKey.apply_append, length_leBytes]
  have head := readBlockExactAt_append front (key.apply (leBytes 4 encoded.length) front.length)
    (key.apply encoded (front.length + 4) ++ rest)
  have body := readBlockExactAt_append (front ++ key.apply (leBytes 4 encoded.length) front.length)
    (key.apply encoded (front.length + 4)) rest
  rw [XorKey.length_apply, length_leBytes] at head
  rw [XorKey.length_apply, length_append, XorKey.length_apply, length_leBytes, append_assoc] at body
  have nonempty : ¬(encoded.length = 0 ∨ maxSize < encoded.length) := by
    rw [not_or, length_eq_zero_iff]
    exact ⟨some, Nat.not_lt.mpr fits⟩
  unfold readStorageRecord
  dsimp only
  rw [parts, append_assoc, bailIf_neg nonempty, ok_bind, head, ok_bind, XorKey.apply_apply,
    leNat_leBytes (by omega), bailIf_neg (by simp), ok_bind, body, ok_bind, XorKey.apply_apply]

end BitcoindRs
