import BitcoindRs.Storage.Undo

/-! The block store: a record file of blocks and one of undo data. -/

namespace BitcoindRs
open Result Codec

inductive Side where
  | blocks
  | undo
deriving DecidableEq, Repr

structure BlockStore where
  blocks : Log
  undo : Log

namespace BlockStore

def log (store : BlockStore) : Side → Log
  | .blocks => store.blocks
  | .undo => store.undo

def step (store : BlockStore) : Side × LogOp → BlockStore
  | (.blocks, op) => { store with blocks := op.run store.blocks }
  | (.undo, op) => { store with undo := op.run store.undo }

def run (store : BlockStore) (steps : List (Side × LogOp)) : BlockStore := steps.foldl step store

end BlockStore

/-- What a function of the store does, and what it returns. -/
structure Execution where
  steps : List (Side × LogOp)
  result : Except Error Unit

def on (side : Side) (ops : List LogOp) : List (Side × LogOp) := ops.map fun op => (side, op)

def opsOf (side : Side) (steps : List (Side × LogOp)) : List LogOp :=
  steps.filterMap fun (target, op) => if target = side then some op else none

def flushPending : List LogOp := [.flushPendingData, .flushPendingIndex]

def flushPendingIo : List (Side × LogOp) := on .blocks flushPending ++ on .undo flushPending

namespace BlockStore
variable [Zstd] (key : XorKey) (store : BlockStore)

def insertRecord {α : Type} (format : Format α) (side : Side) (hash : BlockHash) (value : α) (sync : Bool) : Execution :=
  if hash ∈ (store.log side).index then ⟨[], .ok ()⟩
  else match encodeStoragePayload (format.serialize hash value) format.maxSize with
    | .error error => ⟨[], .error error⟩
    | .ok bytes =>
      if sync then ⟨flushPendingIo ++ on side ((store.log side).insertSynced key hash bytes), .ok ()⟩
      else ⟨on side ((store.log side).insertUnsynced key hash bytes), .ok ()⟩

def insertUndo (hash : BlockHash) (undo : List (List StoredUndo)) (sync : Bool) : Execution :=
  store.insertRecord key undoFormat .undo hash undo sync

def getUndo (hash : BlockHash) : Except Error (Option (List (List StoredUndo))) := store.undo.get key undoFormat hash

end BlockStore

def Log.fresh : Log := ⟨.durable [], .durable (leBytes indexHeaderSize 0), ∅, 0, [], []⟩

def BlockStore.fresh : BlockStore := ⟨.fresh, .fresh⟩

def sampleKey : XorKey := ⟨[1, 2, 3, 4, 5, 6, 7, 8], rfl⟩

theorem log_run_append (log : Log) (first second : List LogOp) : log.run (first ++ second) = (log.run first).run second :=
  List.foldl_append

theorem opsOf_append (side : Side) (xs ys : List (Side × LogOp)) : opsOf side (xs ++ ys) = opsOf side xs ++ opsOf side ys :=
  List.filterMap_append

theorem opsOf_on (side : Side) (ops : List LogOp) : opsOf side (on side ops) = ops := by
  rw [opsOf, on, List.filterMap_map]
  simp

theorem opsOf_flushPendingIo (side : Side) : opsOf side flushPendingIo = flushPending := by cases side <;> rfl

theorem BlockStore.log_run (store : BlockStore) (steps : List (Side × LogOp)) (side : Side) :
    (store.run steps).log side = (store.log side).run (opsOf side steps) := by
  induction steps generalizing store with
  | nil => rfl
  | cons step steps ih =>
    obtain ⟨target, op⟩ := step
    have rest := ih (store.step (target, op))
    rw [show store.run ((target, op) :: steps) = (store.step (target, op)).run steps from rfl, rest]
    cases target <;> cases side <;> rfl

end BitcoindRs
