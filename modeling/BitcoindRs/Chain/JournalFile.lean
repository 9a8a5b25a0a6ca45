import BitcoindRs.Consensus.HeaderWire

/-! The bytes of the header journal. -/

namespace BitcoindRs
open Result Codec List

/-- `CHAIN_HEADERS_JOURNAL_MAGIC`, the text `bitcoind-rs-headers-journal-v1` with a final zero. -/
def chainHeadersJournalMagic : Bytes :=
  [98, 105, 116, 99, 111, 105, 110, 100, 45, 114, 115, 45, 104, 101, 97, 100, 101, 114, 115, 45, 106, 111, 117, 114,
    110, 97, 108, 45, 118, 49, 0]

def headerRecordSize : ℕ := 80 + 4

section Model

variable [Sha256]

def headerRecordChecksum (header : Bytes) : Bytes := (Sha256.digest header).toList.take 4

def encodeHeaderRecord (header : Header) : Except Error Bytes := do
  let bytes := header.serialize
  bailIf (bytes.length ≠ headerRecordSize - 4)
    (.message ("serialized block header has an unexpected size: " ++ toString bytes.length))
  .ok (bytes ++ headerRecordChecksum bytes)

/-- The content to append to: the marker in an empty file, otherwise the complete records behind a valid marker. -/
def repairHeaderJournal (path : String) (content : Bytes) : Except Error Bytes :=
  if content.length = 0 then .ok chainHeadersJournalMagic
  else do
    bailIf (content.length < chainHeadersJournalMagic.length)
      (.message ("header journal " ++ path ++ " has a truncated format marker"))
    bailIf (content.take chainHeadersJournalMagic.length ≠ chainHeadersJournalMagic)
      (.message ("header journal " ++ path ++ " has an invalid format marker"))
    let payloadLength := content.length - chainHeadersJournalMagic.length
    .ok (content.take (chainHeadersJournalMagic.length + wholeLength headerRecordSize payloadLength))

def appendHeaderJournal (path : String) (file : Option Bytes) (headers : List Header) :
    Except Error (ℕ × Option Bytes) :=
  if headers.isEmpty then .ok (0, file)
  else do
    let content ← repairHeaderJournal path (file.getD [])
    let encoded ← headers.mapM encodeHeaderRecord
    let content := content ++ encoded.flatten
    .ok (content.length, some content)

/-- The header of a record, unless the checksum or the encoding is wrong. -/
def readHeaderRecord (record : Bytes) : Option Header :=
  let headerBytes := record.take (headerRecordSize - 4)
  if headerRecordChecksum headerBytes ≠ record.drop (headerRecordSize - 4) then none
  else Header.deserialize headerBytes

variable [Library]

def rememberHeader (persisted : List Header) (header : Header) : List Header :=
  if blockHash header ∈ persisted.map blockHash then persisted else persisted ++ [header]

def loadHeaderRecords (persisted : List Header) : List Bytes → List Header
  | [] => persisted
  | record :: rest =>
    match readHeaderRecord record with
    | none => persisted
    | some header => loadHeaderRecords (rememberHeader persisted header) rest

def loadHeaderJournal (file : Option Bytes) (persisted : List Header) : List Header :=
  match file with
  | none => persisted
  | some bytes =>
    if !chainHeadersJournalMagic.isPrefixOf bytes then persisted
    else loadHeaderRecords persisted (chunksExact headerRecordSize (bytes.drop chainHeadersJournalMagic.length))

end Model

section Content

variable [Sha256]

def validHeaders : List Bytes → List Header
  | [] => []
  | record :: rest =>
    match readHeaderRecord record with
    | none => []
    | some header => header :: validHeaders rest

def journalRecords (tail : Bytes) : List Bytes := chunksExact headerRecordSize tail

def Readable (records : List Bytes) : Prop := ∀ record ∈ records, (readHeaderRecord record).isSome = true

theorem validHeaders_append (front back : List Bytes) :
    (Readable front → validHeaders (front ++ back) = validHeaders front ++ validHeaders back) ∧
      (¬Readable front → validHeaders (front ++ back) = validHeaders front) := by
  induction front with
  | nil => simp [Readable, validHeaders]
  | cons record front ih =>
    simp only [Readable, forall_mem_cons, cons_append, validHeaders]
    cases read : readHeaderRecord record with
    | none => simp
    | some header =>
      obtain ⟨readable, torn⟩ := ih
      refine ⟨fun all => ?_, fun some => ?_⟩
      · simp only [readable all.2, cons_append]
      · simp only [torn fun all => some ⟨rfl, all⟩]

theorem length_headerRecordChecksum (bytes : Bytes) : (headerRecordChecksum bytes).length = 4 := by
  simp [headerRecordChecksum]

def headerRecord (header : Header) : Bytes := header.serialize ++ headerRecordChecksum header.serialize

theorem length_headerRecord (header : Header) : (headerRecord header).length = headerRecordSize := by
  simp [headerRecord, length_headerRecordChecksum, headerRecordSize]

theorem encodeHeaderRecord_eq (header : Header) : encodeHeaderRecord header = .ok (headerRecord header) := by
  have size : ¬header.serialize.length ≠ headerRecordSize - 4 := by simp [headerRecordSize]
  simp only [encodeHeaderRecord, bailIf_neg size, ok_bind]
  rfl

theorem readHeaderRecord_headerRecord {header : Header} (fits : header.Fits) :
    readHeaderRecord (headerRecord header) = some header := by
  have size : headerRecordSize - 4 = header.serialize.length := by simp [headerRecordSize]
  simp only [readHeaderRecord, headerRecord, size, take_left, drop_left, ne_eq, not_true_eq_false, if_false]
  exact Header.deserialize_serialize fits

theorem validHeaders_headerRecord {headers : List Header} (fits : ∀ header ∈ headers, header.Fits) :
    validHeaders (headers.map headerRecord) = headers := by
  induction headers with
  | nil => rfl
  | cons header headers ih =>
    obtain ⟨first, rest⟩ := forall_mem_cons.mp fits
    rw [map_cons, validHeaders, readHeaderRecord_headerRecord first]
    simp only [ih rest]

theorem encodeRecords_eq (headers : List Header) :
    headers.mapM encodeHeaderRecord = .ok (headers.map headerRecord) := by
  induction headers with
  | nil => rfl
  | cons header headers ih => simp [mapM_cons, encodeHeaderRecord_eq, ih]

theorem appendHeaderJournal_eq {path : String} {tail : Bytes} {headers : List Header} (nonempty : headers ≠ []) :
    ∃ size, appendHeaderJournal path (some (chainHeadersJournalMagic ++ tail)) headers = .ok (size,
      some (chainHeadersJournalMagic ++ (tail.take (wholeLength headerRecordSize tail.length) ++
        headers.flatMap headerRecord))) := by
  have filled : headers.isEmpty = false := by simpa using nonempty
  have long : ¬(chainHeadersJournalMagic ++ tail).length < chainHeadersJournalMagic.length := by simp
  have marked : ¬(chainHeadersJournalMagic ++ tail).take chainHeadersJournalMagic.length ≠ chainHeadersJournalMagic := by
    simp
  have present : ¬(chainHeadersJournalMagic ++ tail).length = 0 := by simp [chainHeadersJournalMagic]
  have repaired : repairHeaderJournal path (chainHeadersJournalMagic ++ tail) =
      .ok (chainHeadersJournalMagic ++ tail.take (wholeLength headerRecordSize tail.length)) := by
    rw [repairHeaderJournal, if_neg present]
    refine guard_pass long (guard_pass marked ?_)
    simp only [length_append, Nat.add_sub_cancel_left, take_length_add_append]
  refine ⟨(chainHeadersJournalMagic ++ (tail.take (wholeLength headerRecordSize tail.length) ++
    headers.flatMap headerRecord)).length, ?_⟩
  simp only [appendHeaderJournal, filled, Bool.false_eq_true, if_false, Option.getD_some, repaired, encodeRecords_eq,
    ok_bind, ← flatMap_def, append_assoc]

variable [Library]

theorem loadHeaderRecords_eq (records : List Bytes) (persisted : List Header) :
    loadHeaderRecords persisted records = (validHeaders records).foldl rememberHeader persisted := by
  induction records generalizing persisted with
  | nil => rfl
  | cons record records ih =>
    simp only [loadHeaderRecords, validHeaders]
    cases readHeaderRecord record with
    | none => rfl
    | some header => exact ih _

theorem loadHeaderJournal_eq (tail : Bytes) (persisted : List Header) :
    loadHeaderJournal (some (chainHeadersJournalMagic ++ tail)) persisted =
      (validHeaders (journalRecords tail)).foldl rememberHeader persisted := by
  have marked : chainHeadersJournalMagic.isPrefixOf (chainHeadersJournalMagic ++ tail) = true := by simp
  simp only [loadHeaderJournal, marked, Bool.not_true, Bool.false_eq_true, if_false, drop_left]
  exact loadHeaderRecords_eq _ _

omit [Library] in
theorem journalRecords_append (tail : Bytes) (headers : List Header) :
    journalRecords (tail.take (wholeLength headerRecordSize tail.length) ++ headers.flatMap headerRecord) =
      journalRecords tail ++ headers.map headerRecord := by
  have positive : 0 < headerRecordSize := by decide
  have whole : headerRecordSize ∣ (tail.take (wholeLength headerRecordSize tail.length)).length := by
    have shorter : wholeLength headerRecordSize tail.length ≤ tail.length := Nat.sub_le _ _
    rw [length_take, min_eq_left shorter]
    exact dvd_wholeLength _ _
  rw [journalRecords, chunksExact_append whole, chunksExact_take positive, chunksExact_flatMap positive length_headerRecord]
  rfl

omit [Sha256] in
theorem foldl_rememberHeader_fixed (persisted headers : List Header) :
    headers.foldl rememberHeader persisted = persisted ↔
      ∀ header ∈ headers, blockHash header ∈ persisted.map blockHash := by
  have grows : ∀ (headers persisted : List Header),
      persisted.length ≤ (headers.foldl rememberHeader persisted).length := by
    intro headers
    induction headers with
    | nil => exact fun persisted => le_rfl
    | cons header headers ih =>
      intro persisted
      refine le_trans ?_ (ih _)
      unfold rememberHeader
      split <;> simp
  induction headers with
  | nil => simp
  | cons header headers ih =>
    rw [foldl_cons, forall_mem_cons]
    by_cases known : blockHash header ∈ persisted.map blockHash
    · have kept : rememberHeader persisted header = persisted := if_pos known
      rw [kept, and_iff_right known]
      exact ih
    · refine iff_of_false (fun same => ?_) fun all => known all.1
      have longer := grows headers (rememberHeader persisted header)
      rw [same, rememberHeader, if_neg known, length_append, length_singleton] at longer
      omega

end Content

/-- Appending to a journal with a valid marker succeeds whatever follows the marker. Loading the result gives the
headers of the longest valid run of records and then all appended ones exactly when every complete record of the
journal was readable, or the appended headers were known anyway. -/
theorem header_journal_iff [Sha256] [Library] (path : String) (tail : Bytes) (headers persisted : List Header)
    (nonempty : headers ≠ []) (fits : ∀ header ∈ headers, header.Fits) :
    ∃ size file, appendHeaderJournal path (some (chainHeadersJournalMagic ++ tail)) headers = .ok (size, file) ∧
      (loadHeaderJournal file persisted =
          (validHeaders (journalRecords tail) ++ headers).foldl rememberHeader persisted ↔
        Readable (journalRecords tail) ∨
          ∀ header ∈ headers, blockHash header ∈
            ((validHeaders (journalRecords tail)).foldl rememberHeader persisted).map blockHash) := by
  obtain ⟨size, appended⟩ := @appendHeaderJournal_eq _ path tail headers nonempty
  refine ⟨size, _, appended, ?_⟩
  rw [loadHeaderJournal_eq, journalRecords_append]
  obtain ⟨readable, torn⟩ := validHeaders_append (journalRecords tail) (headers.map headerRecord)
  by_cases all : Readable (journalRecords tail)
  · rw [readable all, validHeaders_headerRecord fits]
    exact iff_of_true rfl (.inl all)
  · rw [torn all, List.foldl_append, eq_comm, foldl_rememberHeader_fixed]
    exact ⟨.inr, fun either => either.resolve_left all⟩

/-- Behind a torn but complete record of zeros, an appended header is written and never read. -/
theorem header_journal_lost : let _ := Sha256.sample
    let _ := Library.sample
    let header : Header := ⟨1, 0, 0, 0, 0, 7⟩
    let torn := List.replicate 83 0 ++ [1]
    ∃ size file, appendHeaderJournal "" (some (chainHeadersJournalMagic ++ torn)) [header] = .ok (size, file) ∧
      validHeaders (journalRecords torn) = [] ∧ loadHeaderJournal file [] = [] := by
  intro _ _ header torn
  obtain ⟨⟨size, file⟩, appended, lost⟩ := exists_okAnd (show okAnd
    (appendHeaderJournal "" (some (chainHeadersJournalMagic ++ torn)) [header])
    (fun result => loadHeaderJournal result.2 [] = []) = true by decide +kernel)
  exact ⟨size, file, appended, by decide +kernel, of_decide_eq_true lost⟩

/-- A journal that ends in the middle of a record. -/
theorem header_journal_repaired : let _ := Sha256.sample
    let _ := Library.sample
    let header : Header := ⟨1, 0, 0, 0, 0, 7⟩
    ∃ size file, appendHeaderJournal "" (some (chainHeadersJournalMagic ++ [1, 2, 3])) [header] = .ok (size, file) ∧
      loadHeaderJournal file [] = [header] := by
  intro _ _ header
  have fits : ∀ appended ∈ [header], Header.Fits appended := by
    intro appended member
    rw [mem_singleton.mp member]
    constructor <;> decide
  obtain ⟨size, file, appended, same⟩ := header_journal_iff "" [1, 2, 3] [header] [] (by decide) fits
  exact ⟨size, file, appended, same.mpr (.inl fun record impossible => nomatch impossible)⟩

end BitcoindRs
