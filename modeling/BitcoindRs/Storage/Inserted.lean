import BitcoindRs.Storage.BlockStore

/-! What an insertion leaves in a record file, and what a lookup right after it returns. -/

namespace BitcoindRs
open Result Codec

def Log.bytes (log : Log) : Bytes := log.data.content ++ log.pendingData

def Log.Aligned (log : Log) : Prop := log.dataLen = log.bytes.length

theorem run_flushPendingData (log : Log) : ∃ data, LogOp.run log .flushPendingData =
    { log with data := data, pendingData := [] } ∧ data.content = log.bytes := by
  by_cases empty : log.pendingData.isEmpty = true
  · have none := List.isEmpty_iff.mp empty
    refine ⟨log.data, ?_, by rw [Log.bytes, none, List.append_nil]⟩
    rw [show LogOp.run log .flushPendingData = log from if_pos empty, ← none]
  · exact ⟨_, if_neg empty, File.content_write _ _⟩

theorem run_flushPendingIndex (log : Log) : ∃ indexFile, LogOp.run log .flushPendingIndex =
    { log with indexFile := indexFile, pendingIndex := [] } := by
  by_cases empty : log.pendingIndex.isEmpty = true
  · refine ⟨log.indexFile, ?_⟩
    rw [show LogOp.run log .flushPendingIndex = log from if_pos empty, ← List.isEmpty_iff.mp empty]
  · exact ⟨_, if_neg empty⟩

/-- An insertion appends the framed record and indexes it. -/
structure Inserted (key : XorKey) (log after : Log) (hash : BlockHash) (encoded : Bytes) : Prop where
  bytes : after.bytes = log.bytes ++ frameRecord key log.dataLen encoded
  index : after.index = log.index.insert hash ⟨log.dataLen, encoded.length⟩

theorem insertSynced_inserted (key : XorKey) (log : Log) (hash : BlockHash) (encoded : Bytes) :
    Inserted key log (log.run (flushPending ++ log.insertSynced key hash encoded)) hash encoded := by
  obtain ⟨data, first, content⟩ := run_flushPendingData log
  obtain ⟨indexFile, second⟩ := run_flushPendingIndex (LogOp.run log .flushPendingData)
  rw [first] at second
  have flushed : log.run flushPending = ⟨data, indexFile, log.index, log.dataLen, [], []⟩ := by
    show LogOp.run (LogOp.run log .flushPendingData) .flushPendingIndex = _
    rw [first, second]
  rw [log_run_append, flushed]
  refine ⟨?_, rfl⟩
  show (data.write (.append _)).sync.content ++ [] = _
  rw [List.append_nil, File.content_sync, File.content_write, ← content]
  rfl

theorem insertUnsynced_inserted (key : XorKey) (log : Log) (hash : BlockHash) (encoded : Bytes) :
    Inserted key log (log.run (log.insertUnsynced key hash encoded)) hash encoded := by
  let framed := frameRecord key log.dataLen encoded
  let entry := indexEntry hash ⟨log.dataLen, encoded.length⟩
  let buffered := LogOp.run log (.buffer framed entry)
  have bytes : buffered.bytes = log.bytes ++ framed := (List.append_assoc _ _ _).symm
  have afterData : ∀ full : Prop, ∀ _ : Decidable full, ∃ data pendingData pendingIndex,
      buffered.run (if full then [.flushPendingData] else []) =
        { log with data := data, pendingData := pendingData, pendingIndex := pendingIndex } ∧
      data.content ++ pendingData = log.bytes ++ framed := by
    intro full _
    split
    · obtain ⟨data, first, content⟩ := run_flushPendingData buffered
      exact ⟨data, [], _, first, by rw [List.append_nil, content, bytes]⟩
    · exact ⟨_, _, _, rfl, bytes⟩
  have afterIndex : ∀ (state : Log) (full : Prop), ∀ _ : Decidable full, ∃ indexFile pendingIndex,
      state.run (if full then [.flushPendingIndex] else []) =
        { state with indexFile := indexFile, pendingIndex := pendingIndex } := by
    intro state full _
    split
    · obtain ⟨indexFile, first⟩ := run_flushPendingIndex state
      exact ⟨indexFile, [], first⟩
    · exact ⟨_, _, rfl⟩
  obtain ⟨data, pendingData, pendingIndex, first, content⟩ :=
    afterData (appendBufferFlushBytes ≤ (log.pendingData ++ framed).length) inferInstance
  obtain ⟨indexFile, pendingIndex', second⟩ := afterIndex
    { log with data := data, pendingData := pendingData, pendingIndex := pendingIndex }
    (appendBufferFlushBytes ≤ (log.pendingIndex ++ entry).length) inferInstance
  have whole : log.run (log.insertUnsynced key hash encoded) = LogOp.run
      { log with data := data, pendingData := pendingData, indexFile := indexFile, pendingIndex := pendingIndex' }
      (.remember hash ⟨log.dataLen, encoded.length⟩) := by
    unfold Log.insertUnsynced
    rw [log_run_append, log_run_append, log_run_append]
    show ((buffered.run (if appendBufferFlushBytes ≤ (log.pendingData ++ framed).length then [.flushPendingData] else [])).run
      (if appendBufferFlushBytes ≤ (log.pendingIndex ++ entry).length then [.flushPendingIndex] else [])).run
        [.remember hash ⟨log.dataLen, encoded.length⟩] = _
    rw [first, second]
    rfl
  rw [whole]
  exact ⟨content, rfl⟩

theorem Inserted.get [Zstd] {key : XorKey} {α : Type} (format : Format α) {log after : Log} {hash : BlockHash} {encoded : Bytes}
    (inserted : Inserted key log after hash encoded) (aligned : log.Aligned) (nonempty : encoded ≠ [])
    (fits : encoded.length ≤ format.maxSize) (value : α) :
    after.get key format hash = .ok (some value) ↔
      ∃ raw, decodeStoragePayload encoded format.maxSize = .ok raw ∧ format.deserialize raw = .ok (hash, value) := by
  have found : after.index.lookup hash = some ⟨log.dataLen, encoded.length⟩ := by
    rw [inserted.index, Finmap.lookup_insert]
  have short : encoded.length < 2 ^ 32 := by
    have limit := format.limit
    unfold maxStoredBlockSize at limit
    omega
  have read := readStorageRecord_frame log.bytes [] encoded key format.kind nonempty fits short
  have file : after.data.content ++ after.pendingData = log.bytes ++ (frameRecord key log.bytes.length encoded ++ []) := by
    rw [List.append_nil, ← aligned]
    exact inserted.bytes
  unfold Log.get
  rw [found]
  dsimp only
  rw [file, show log.dataLen = log.bytes.length from aligned, read]
  rcases decodeStoragePayload encoded format.maxSize with error | raw
  · simp [Except.mapError]
  · rcases decoded : format.deserialize raw with error | ⟨stored, other⟩
    · simp [Except.mapError, decoded]
    · by_cases same : stored = hash
      · simp [Except.mapError, decoded, same, bailIf]
      · simp [Except.mapError, decoded, same, bailIf]

end BitcoindRs
