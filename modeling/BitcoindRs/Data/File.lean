import BitcoindRs.Data.Bytes

/-!
Files with the writes that have not been synced yet.
-/

namespace Codec

inductive Write where
  | append (bytes : Bytes)
  /-- Replace the first bytes. -/
  | overwrite (bytes : Bytes)
  | setLen (length : ℕ)
deriving DecidableEq, Repr

def Write.apply (content : Bytes) : Write → Bytes
  | .append bytes => content ++ bytes
  | .overwrite bytes => bytes ++ content.drop bytes.length
  | .setLen length => content.take length

structure File where
  synced : Bytes
  /-- The writes since the last sync, oldest first. -/
  writes : List Write
deriving DecidableEq, Repr

namespace File

def durable (content : Bytes) : File := ⟨content, []⟩

def content (file : File) : Bytes := file.writes.foldl Write.apply file.synced

def write (file : File) (w : Write) : File := { file with writes := file.writes ++ [w] }

def sync (file : File) : File := durable file.content

@[simp] theorem synced_durable (content : Bytes) : (durable content).synced = content := rfl

@[simp] theorem content_write (file : File) (w : Write) : (file.write w).content = w.apply file.content := by
  simp [content, write]

@[simp] theorem content_sync (file : File) : file.sync.content = file.content := rfl

end File

end Codec
