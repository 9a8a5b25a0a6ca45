import BitcoindRs.Data.File
import BitcoindRs.Storage.Record

/-! A record file with its index file. -/

namespace BitcoindRs
open Result Codec

def indexHeaderSize : ℕ := 8
def appendBufferFlushBytes : ℕ := 16 * 1024 * 1024
def maxStoredBlockSize : ℕ := 4 * 1024 * 1024
def maxStoredUndoSize : ℕ := 4 * 1024 * 1024

/-- The values of a record file: how they are written and read, and the texts of its errors. -/
structure Format (α : Type) where
  kind : String
  maxSize : ℕ
  limit : maxSize ≤ maxStoredBlockSize
  serialize : BlockHash → α → Bytes
  deserialize : Bytes → Except Error (BlockHash × α)
  /-- What a scan reports when a record does not decode. -/
  scanError : Error → Error
  mismatch : String
  disappeared : BlockHash → String

structure Log where
  data : File
  indexFile : File
  index : FMap BlockHash Record
  dataLen : ℕ
  pendingData : Bytes
  pendingIndex : Bytes

def indexEntry (hash : BlockHash) (record : Record) : Bytes :=
  leBytes 32 hash ++ leBytes 8 record.offset ++ leBytes 4 record.length

/-- One file operation of a store function, or a change of its buffers and maps between two file operations. -/
inductive LogOp where
  | flushPendingData
  | flushPendingIndex
  | appendData (record : Bytes)
  | syncData
  | publish (dataLen : ℕ)
  | appendIndex (bytes : Bytes)
  | syncIndex
  | clearIndex
  /-- Rename a synced temporary file over the data file. -/
  | replaceData (content : Bytes)
  | buffer (record entry : Bytes)
  | remember (hash : BlockHash) (record : Record)
  | adopt (index : FMap BlockHash Record) (dataLen : ℕ)

def LogOp.run (log : Log) : LogOp → Log
  | .flushPendingData =>
    if log.pendingData.isEmpty then log
    else { log with data := log.data.write (.append log.pendingData), pendingData := [] }
  | .flushPendingIndex =>
    if log.pendingIndex.isEmpty then log
    else { log with indexFile := log.indexFile.write (.append log.pendingIndex), pendingIndex := [] }
  | .appendData record => { log with data := log.data.write (.append record) }
  | .syncData => { log with data := log.data.sync }
  | .publish dataLen => { log with indexFile := log.indexFile.write (.overwrite (leBytes indexHeaderSize dataLen)) }
  | .appendIndex bytes => { log with indexFile := log.indexFile.write (.append bytes) }
  | .syncIndex => { log with indexFile := log.indexFile.sync }
  | .clearIndex => { log with indexFile := log.indexFile.write (.setLen 0) }
  | .replaceData content => { log with data := .durable content }
  | .buffer record entry =>
    { log with pendingData := log.pendingData ++ record, pendingIndex := log.pendingIndex ++ entry }
  | .remember hash record =>
    { log with index := log.index.insert hash record, dataLen := log.dataLen + (4 + record.length) }
  | .adopt index dataLen =>
    { log with index := index, dataLen := dataLen, pendingData := [], pendingIndex := [] }

def Log.run (log : Log) (ops : List LogOp) : Log := ops.foldl LogOp.run log

section insertion
variable (key : XorKey)

/-- The file operations of an insertion whose record is synced and published at once. -/
def Log.insertSynced (log : Log) (hash : BlockHash) (bytes : Bytes) : List LogOp :=
  let record : Record := ⟨log.dataLen, bytes.length⟩
  [.appendData (frameRecord key record.offset bytes), .syncData, .publish record.stop,
    .appendIndex (indexEntry hash record), .syncIndex, .remember hash record]

/-- The operations of an insertion into the append buffers, which are written out when they are full. -/
def Log.insertUnsynced (log : Log) (hash : BlockHash) (bytes : Bytes) : List LogOp :=
  let record : Record := ⟨log.dataLen, bytes.length⟩
  let framed := frameRecord key record.offset bytes
  let entry := indexEntry hash record
  [.buffer framed entry] ++
    (if appendBufferFlushBytes ≤ (log.pendingData ++ framed).length then [.flushPendingData] else []) ++
    (if appendBufferFlushBytes ≤ (log.pendingIndex ++ entry).length then [.flushPendingIndex] else []) ++
    [.remember hash record]

end insertion

section access
variable [Zstd] {α : Type} (key : XorKey) (format : Format α)

def Log.get (log : Log) (hash : BlockHash) : Except Error (Option α) := match log.index.lookup hash with
  | none => .ok none
  | some record => do
    let bytes ← readStorageRecord (log.data.content ++ log.pendingData) record key format.maxSize format.kind
    let (storedHash, value) ← format.deserialize bytes
    bailIf (storedHash ≠ hash) (.message format.mismatch)
    .ok (some value)

end access

end BitcoindRs
