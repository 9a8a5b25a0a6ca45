import BitcoindRs.Storage.Undo

/-! The three readers of a record file: by position, sequentially through a buffer, and the scan that rebuilds the index. -/

namespace BitcoindRs
open Result Codec List

/-- Where the next sequential read takes place, and the cursor the store keeps of it. -/
structure BufferedReader where
  position : ℕ
  cursor : ℕ
deriving DecidableEq, Repr

section Readers

variable [Zstd] (file : Bytes) (key : XorKey) (maxSize : ℕ) (kind : String)

def readStorageRecordBuffered (reader : BufferedReader) (record : Record) : Except Error (Bytes × BufferedReader) := do
  let position := if reader.cursor ≠ record.offset then record.offset else reader.position
  bailIf (file.length < position + 4) (.message ("reading stored " ++ kind ++ " length"))
  let storedLength := leNat (key.apply ((file.drop position).take 4) record.offset)
  bailIf (storedLength ≠ record.length)
    (.message ("stored " ++ kind ++ " index disagrees with record length at offset " ++ toString record.offset))
  bailIf (storedLength = 0 ∨ maxSize < storedLength)
    (.message ("stored " ++ kind ++ " record is too large: " ++ toString storedLength ++ " bytes"))
  bailIf (file.length < position + 4 + storedLength) (.message ("reading stored " ++ kind ++ " payload"))
  let encoded := key.apply ((file.drop (position + 4)).take storedLength) (record.offset + 4)
  let payload ← (decodeStoragePayload encoded maxSize).mapError
    fun _ => .message ("decoding stored " ++ kind ++ " record")
  .ok (payload, ⟨position + 4 + storedLength, record.stop⟩)

/-- One round of the scan up to the decoded payload; `none` at a torn tail. -/
def scanRecord (offset : ℕ) : Except Error (Option (Record × Bytes)) :=
  let length := leNat (key.apply ((file.drop offset).take 4) offset)
  if file.length < offset + 4 ∨ file.length < offset + 4 + length then .ok none
  else do
    bailIf (length = 0 ∨ maxSize < length)
      (.message ("invalid " ++ kind ++ " record length " ++ toString length ++ " at offset " ++ toString offset))
    let payload ← (decodeStoragePayload (key.apply ((file.drop (offset + 4)).take length) (offset + 4)) maxSize).mapError
      fun _ => .message ("decoding compressed " ++ kind ++ " record")
    .ok (some (⟨offset, length⟩, payload))

end Readers

section Frame

variable {key : XorKey} {front rest encoded : Bytes}

theorem frame_parts (key : XorKey) (offset : ℕ) (encoded : Bytes) : frameRecord key offset encoded =
    key.apply (leBytes 4 encoded.length) offset ++ key.apply encoded (offset + 4) := by
  rw [frameRecord, XorKey.apply_append, length_leBytes]

theorem frame_length (short : encoded.length < 2 ^ 32) :
    leNat (key.apply (((front ++ (frameRecord key front.length encoded ++ rest)).drop front.length).take 4) front.length) =
      encoded.length := by
  have width : (key.apply (leBytes 4 encoded.length) front.length).length = 4 := by simp
  rw [drop_left, frame_parts, append_assoc, take_left' width, XorKey.apply_apply, leNat_leBytes (by omega)]

theorem frame_body :
    key.apply (((front ++ (frameRecord key front.length encoded ++ rest)).drop (front.length + 4)).take encoded.length)
      (front.length + 4) = encoded := by
  have width : (front ++ key.apply (leBytes 4 encoded.length) front.length).length = front.length + 4 := by simp
  rw [frame_parts, append_assoc, ← append_assoc front, drop_left' width,
    take_left' (XorKey.length_apply key encoded _), XorKey.apply_apply]

theorem frame_inside :
    front.length + 4 + encoded.length ≤ (front ++ (frameRecord key front.length encoded ++ rest)).length := by
  simp only [length_append, length_frameRecord]
  omega

end Frame

section Codec

variable [Zstd]
variable {payload encoded : Bytes} {maxSize : ℕ}

/-- A payload that is stored as it is and begins like a compressed one is read back only if it is itself what its
remaining bytes decompress to. -/
def Unambiguous (payload : Bytes) : Prop :=
  storesRaw payload = true → storageCompressionMagic.isPrefixOf payload = true →
    storageCompressionHeaderSize ≤ payload.length ∧
      leNat ((payload.drop storageCompressionMagic.length).take 4) = payload.length ∧
      Zstd.decompress (payload.drop storageCompressionHeaderSize) payload.length = some payload

theorem decodeStoragePayload_marked (fits : payload.length ≤ maxSize)
    (marked : storageCompressionMagic.isPrefixOf payload = true) :
    decodeStoragePayload payload maxSize = .ok payload ↔
      storageCompressionHeaderSize ≤ payload.length ∧
        leNat ((payload.drop storageCompressionMagic.length).take 4) = payload.length ∧
        Zstd.decompress (payload.drop storageCompressionHeaderSize) payload.length = some payload := by
  simp only [decodeStoragePayload, marked, Bool.not_true, Bool.false_eq_true, if_false]
  constructor
  · intro read
    obtain ⟨whole, read⟩ := guard_ok read
    obtain ⟨_, read⟩ := guard_ok read
    obtain ⟨decoded, found, read⟩ := bind_ok read
    obtain ⟨same, read⟩ := guard_ok read
    cases read
    have length := (not_not.mp same).symm
    rw [length] at found
    exact ⟨Nat.le_of_not_lt whole, length, okOr_ok.mp found⟩
  · rintro ⟨whole, length, found⟩
    rw [length]
    refine guard_pass (Nat.not_lt.mpr whole) (guard_pass (Nat.not_lt.mpr fits) ?_)
    exact bind_pass (okOr_ok.mpr found) (guard_pass (not_not.mpr rfl) rfl)

theorem decode_encode_iff (written : encodeStoragePayload payload maxSize = .ok encoded) :
    decodeStoragePayload encoded maxSize = .ok payload ↔ Unambiguous payload := by
  obtain ⟨fits, _, _, back, raw⟩ := encodeStoragePayload_ok written
  by_cases stored : storesRaw payload = true
  · rw [raw stored]
    cases marked : storageCompressionMagic.isPrefixOf payload with
    | true =>
      rw [decodeStoragePayload_marked fits marked]
      exact ⟨fun found _ _ => found, fun unambiguous => unambiguous stored marked⟩
    | false =>
      refine iff_of_true (readsBack_of_unmarked fits marked stored) ?_
      intro _ impossible
      rw [marked] at impossible
      cases impossible
  · exact iff_of_true (back fun impossible => absurd impossible stored) fun impossible => absurd impossible stored

theorem encode_nonempty_iff
    (written : encodeStoragePayload payload maxSize = .ok encoded) : encoded = [] ↔ payload = [] := by
  obtain ⟨_, _, nonempty, _, raw⟩ := encodeStoragePayload_ok written
  constructor
  · intro empty
    by_contra some
    exact nonempty some empty
  · rintro rfl
    exact raw (by simp [storesRaw, storageCompressionMinSize])

variable {key : XorKey} {front rest payload encoded : Bytes} {maxSize : ℕ} {kind : String}

theorem readStorageRecord_iff (limit : maxSize < 2 ^ 32) (written : encodeStoragePayload payload maxSize = .ok encoded) :
    readStorageRecord (front ++ (frameRecord key front.length encoded ++ rest)) ⟨front.length, encoded.length⟩ key maxSize
      kind = .ok payload ↔ payload ≠ [] ∧ Unambiguous payload := by
  obtain ⟨fits, shorter, _⟩ := encodeStoragePayload_ok written
  rcases eq_or_ne encoded [] with empty | some
  · have refused : encoded.length = 0 ∨ maxSize < encoded.length := .inl (by rw [empty]; rfl)
    refine iff_of_false (fun read => ?_) fun impossible => impossible.1 ((encode_nonempty_iff written).mp empty)
    exact (guard_ok read).1 refused
  · rw [readStorageRecord_frame front rest encoded key kind some (by omega) (by omega), mapError_ok,
      decode_encode_iff written]
    exact (and_iff_right (mt (encode_nonempty_iff written).mpr some)).symm

def BufferedReader.InSync (reader : BufferedReader) : Prop := reader.position = reader.cursor

theorem readStorageRecordBuffered_iff (limit : maxSize < 2 ^ 32)
    (written : encodeStoragePayload payload maxSize = .ok encoded) {reader : BufferedReader} (sync : reader.InSync) :
    (∃ later, readStorageRecordBuffered (front ++ (frameRecord key front.length encoded ++ rest)) key maxSize kind reader
        ⟨front.length, encoded.length⟩ = .ok (payload, later) ∧ later.InSync) ↔
      payload ≠ [] ∧ Unambiguous payload := by
  obtain ⟨fits, shorter, _⟩ := encodeStoragePayload_ok written
  have position : (if reader.cursor ≠ front.length then front.length else reader.position) = front.length := by
    have := sync
    unfold BufferedReader.InSync at this
    split <;> omega
  have inside := @frame_inside key front rest encoded
  have length : leNat (key.apply _ front.length) = encoded.length := @frame_length key front rest encoded (by omega)
  simp only [readStorageRecordBuffered, position, length, frame_body]
  rw [← decode_encode_iff written]
  constructor
  · rintro ⟨later, read, _⟩
    obtain ⟨_, read⟩ := guard_ok read
    obtain ⟨_, read⟩ := guard_ok read
    obtain ⟨some, read⟩ := guard_ok read
    obtain ⟨_, read⟩ := guard_ok read
    obtain ⟨decoded, found, read⟩ := bind_ok read
    cases read
    refine ⟨fun empty => some (.inl ?_), mapError_ok.mp found⟩
    rw [(encode_nonempty_iff written).mpr empty]
    rfl
  · rintro ⟨some, found⟩
    have nonempty : encoded.length ≠ 0 := fun zero =>
      some ((encode_nonempty_iff written).mp (length_eq_zero_iff.mp zero))
    refine ⟨⟨front.length + 4 + encoded.length, front.length + 4 + encoded.length⟩, ?_, rfl⟩
    refine guard_pass (by omega) (guard_pass (not_not.mpr rfl) (guard_pass (by omega) (guard_pass (by omega) ?_)))
    exact bind_pass (mapError_ok.mpr found) rfl

theorem scanRecord_iff (limit : maxSize < 2 ^ 32) (written : encodeStoragePayload payload maxSize = .ok encoded) :
    scanRecord (front ++ (frameRecord key front.length encoded ++ rest)) key maxSize kind front.length =
        .ok (some (⟨front.length, encoded.length⟩, payload)) ↔
      payload ≠ [] ∧ Unambiguous payload := by
  obtain ⟨fits, shorter, _⟩ := encodeStoragePayload_ok written
  have inside := @frame_inside key front rest encoded
  have length : leNat (key.apply _ front.length) = encoded.length := @frame_length key front rest encoded (by omega)
  have complete : ¬((front ++ (frameRecord key front.length encoded ++ rest)).length < front.length + 4 ∨
      (front ++ (frameRecord key front.length encoded ++ rest)).length < front.length + 4 + encoded.length) := by omega
  simp only [scanRecord, length, if_neg complete, frame_body]
  rw [← decode_encode_iff written]
  constructor
  · intro read
    obtain ⟨some, read⟩ := guard_ok read
    obtain ⟨decoded, found, read⟩ := bind_ok read
    cases read
    refine ⟨fun empty => some (.inl ?_), mapError_ok.mp found⟩
    rw [(encode_nonempty_iff written).mpr empty]
    rfl
  · rintro ⟨some, found⟩
    have nonempty : encoded.length ≠ 0 := fun zero =>
      some ((encode_nonempty_iff written).mp (length_eq_zero_iff.mp zero))
    exact guard_pass (by omega) (bind_pass (mapError_ok.mpr found) rfl)

end Codec

section Undo

theorem decodeUndoCoins_count {coins decoded : List StoredUndo} {rest left : Bytes} (fits : coins.length < 2 ^ 64)
    (read : decodeUndoCoins (encodeUndoCoins coins ++ rest) = .ok (decoded, left)) :
    coins.length ≤ maxStoredUndoSize := by
  rw [decodeUndoCoins, encodeUndoCoins, append_assoc,
    required_of_read _ (readCompactSize_compactSize fits _), ok_bind] at read
  exact Nat.le_of_not_lt (guard_ok read).1

theorem parseMany_counts {undo decoded : List (List StoredUndo)} {rest left : Bytes}
    (fits : ∀ coins ∈ undo, ∀ coin ∈ coins, coin.Fits) (countsFit : ∀ coins ∈ undo, coins.length < 2 ^ 64)
    (read : parseMany decodeUndoCoins undo.length (undo.flatMap encodeUndoCoins ++ rest) = .ok (decoded, left)) :
    ∀ coins ∈ undo, coins.length ≤ maxStoredUndoSize := by
  induction undo generalizing decoded left with
  | nil => exact fun coins impossible => nomatch impossible
  | cons coins undo ih =>
    obtain ⟨firstFits, restFits⟩ := forall_mem_cons.mp fits
    obtain ⟨firstCount, restCounts⟩ := forall_mem_cons.mp countsFit
    rw [flatMap_cons, append_assoc, length_cons, parseMany] at read
    obtain ⟨⟨first, after⟩, head, read⟩ := bind_ok read
    have count := decodeUndoCoins_count firstCount head
    rw [decodeUndoCoins_encode firstFits count] at head
    cases head
    obtain ⟨⟨others, last⟩, tail, _⟩ := bind_ok read
    exact forall_mem_cons.mpr ⟨count, ih restFits restCounts tail⟩

theorem decodeUndoRecord_iff {hash : BlockHash} {undo : List (List StoredUndo)} (hashFits : hash < 256 ^ 32)
    (fits : ∀ coins ∈ undo, ∀ coin ∈ coins, coin.Fits) (countFits : undo.length < 2 ^ 64)
    (countsFit : ∀ coins ∈ undo, coins.length < 2 ^ 64) :
    decodeUndoRecord (encodeUndoRecord hash undo) = .ok (hash, undo) ↔
      undo.length ≤ maxStoredUndoSize ∧ ∀ coins ∈ undo, coins.length ≤ maxStoredUndoSize := by
  rw [decodeUndoRecord, encodeUndoRecord, append_assoc, required_of_read _ (readLe_leBytes hashFits _), ok_bind]
  simp only [required_of_read _ (readCompactSize_compactSize countFits _), ok_bind]
  rw [← append_nil (undo.flatMap encodeUndoCoins)]
  constructor
  · intro read
    obtain ⟨count, read⟩ := guard_ok read
    obtain ⟨⟨decoded, left⟩, body, _⟩ := bind_ok read
    exact ⟨Nat.le_of_not_lt count, parseMany_counts fits countsFit body⟩
  · rintro ⟨count, counts⟩
    have body := parseMany_flatMap undo
      (fun coins member rest => decodeUndoCoins_encode (fits coins member) (counts coins member) rest) []
    exact guard_pass (Nat.not_lt.mpr count) (bind_pass body (guard_pass (not_not.mpr rfl) rfl))

end Undo

/-- A payload within the limit of its store is written. Each of the three readers returns it exactly when it is not
empty and, if it is stored as it is, does not begin like a compressed one. An undo record decodes to what was encoded
exactly when its counts are within the limit. -/
theorem storage_codec_iff [Zstd] (key : XorKey) (front rest payload : Bytes) (maxSize : ℕ) (kind : String)
    (limit : maxSize < 2 ^ 32) (fits : payload.length ≤ maxSize) :
    (∃ encoded, encodeStoragePayload payload maxSize = .ok encoded ∧
      let file := front ++ (frameRecord key front.length encoded ++ rest)
      let record : Record := ⟨front.length, encoded.length⟩
      (readStorageRecord file record key maxSize kind = .ok payload ↔ payload ≠ [] ∧ Unambiguous payload) ∧
      (∀ reader : BufferedReader, reader.InSync →
        ((∃ later, readStorageRecordBuffered file key maxSize kind reader record = .ok (payload, later) ∧ later.InSync) ↔
          payload ≠ [] ∧ Unambiguous payload)) ∧
      (scanRecord file key maxSize kind record.offset = .ok (some (record, payload)) ↔
        payload ≠ [] ∧ Unambiguous payload)) ∧
    ∀ (hash : BlockHash) (undo : List (List StoredUndo)), hash < 256 ^ 32 →
      (∀ coins ∈ undo, ∀ coin ∈ coins, coin.Fits) → undo.length < 2 ^ 64 → (∀ coins ∈ undo, coins.length < 2 ^ 64) →
      (decodeUndoRecord (encodeUndoRecord hash undo) = .ok (hash, undo) ↔
        undo.length ≤ maxStoredUndoSize ∧ ∀ coins ∈ undo, coins.length ≤ maxStoredUndoSize) := by
  obtain ⟨encoded, written⟩ := encodeStoragePayload_exists limit fits
  refine ⟨⟨encoded, written, readStorageRecord_iff limit written, ?_, scanRecord_iff limit written⟩, ?_⟩
  · exact fun reader sync => readStorageRecordBuffered_iff limit written sync
  · exact fun hash undo hashFits coinsFit countFits countsFit =>
      decodeUndoRecord_iff hashFits coinsFit countFits countsFit

theorem storage_codec_sample : let _ := Zstd.sample
    let key : XorKey := ⟨[1, 2, 3, 4, 5, 6, 7, 8], rfl⟩
    encodeStoragePayload [10, 20, 30] 100 = .ok [10, 20, 30] ∧
      readStorageRecord (frameRecord key 0 [10, 20, 30]) ⟨0, 3⟩ key 100 "block" = .ok [10, 20, 30] := by
  intro _ key
  obtain ⟨⟨encoded, written, positional, _, _⟩, _⟩ :=
    storage_codec_iff key [] [] [10, 20, 30] 100 "block" (by decide) (by decide)
  have raw : encodeStoragePayload [10, 20, 30] 100 = .ok [10, 20, 30] := rfl
  cases written.symm.trans raw
  refine ⟨raw, ?_⟩
  have unambiguous : Unambiguous [10, 20, 30] := by
    intro _ marked
    exact absurd marked (by decide)
  simpa using positional.mpr ⟨by decide, unambiguous⟩

/-- A payload that consists of the marker of compressed records is written and cannot be read. -/
theorem storage_codec_marked : let _ := Zstd.sample
    let key : XorKey := ⟨[1, 2, 3, 4, 5, 6, 7, 8], rfl⟩
    encodeStoragePayload storageCompressionMagic 100 = .ok storageCompressionMagic ∧
      readStorageRecord (frameRecord key 0 storageCompressionMagic) ⟨0, 20⟩ key 100 "block" =
        .error (.message "decoding stored block record") ∧
      scanRecord (frameRecord key 0 storageCompressionMagic) key 100 "block" 0 =
        .error (.message "decoding compressed block record") := by
  intro _ key
  exact ⟨rfl, eq_error (by decide +kernel), eq_error (by decide +kernel)⟩

end BitcoindRs
