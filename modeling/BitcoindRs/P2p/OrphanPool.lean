import BitcoindRs.Data.Loop
import BitcoindRs.Data.Multimap
import BitcoindRs.Mempool.Types

/-! The pool of transactions whose parents are unknown. -/

namespace BitcoindRs
open Result Checked FMap

def maxOrphanTransactionWeight : ℕ := 400000
def maxOrphanageLatencyScore : ℕ := 3000
def reservedOrphanWeightPerPeer : ℕ := 404000
def orphanTransactionExpiry : ℕ := 20 * 60

structure OrphanEntry where
  transaction : Transaction
  addedAt : ℕ
  announcers : Finset ℕ
deriving DecidableEq

structure OrphanPool where
  entries : FMap Wtxid OrphanEntry
  byPrevout : FMap OutPoint (Finset Wtxid)
  insertionOrder : List Wtxid

def OrphanEntry.expired (entry : OrphanEntry) (now : ℕ) : Bool := satAddU64 entry.addedAt orphanTransactionExpiry ≤ now

def OrphanEntry.latency (entry : OrphanEntry) : ℕ := 1 + entry.transaction.input.length / 10

def maxBy {α : Type} (above : α → α → Bool) : List α → Option α
  | [] => none
  | a :: rest => some (rest.foldl (fun best b => if above best b then best else b) a)

theorem maxBy_eq_none {α : Type} {above : α → α → Bool} {l : List α} : maxBy above l = none ↔ l = [] := by
  cases l <;> simp [maxBy]

theorem maxBy_mem {α : Type} {above : α → α → Bool} {l : List α} {a : α} (found : maxBy above l = some a) : a ∈ l := by
  have general : ∀ (rest : List α) (first : α),
      rest.foldl (fun best b => if above best b then best else b) first ∈ first :: rest := by
    intro rest
    induction rest with
    | nil => exact fun first => List.mem_cons_self
    | cons b rest ih =>
      intro first
      rw [List.foldl_cons]
      split
      · rcases List.mem_cons.mp (ih first) with same | later
        · rw [same]
          exact List.mem_cons_self
        · exact List.mem_cons_of_mem _ (List.mem_cons_of_mem _ later)
      · exact List.mem_cons_of_mem _ (ih b)
  cases l with
  | nil => cases found
  | cons first rest =>
    cases found
    exact general rest first

namespace OrphanPool

def new : OrphanPool := ⟨∅, ∅, []⟩

def remove (pool : OrphanPool) (wtxid : Wtxid) : Option OrphanEntry × OrphanPool :=
  match pool.entries.lookup wtxid with
  | none => (none, pool)
  | some entry => (some entry,
      { entries := pool.entries.erase wtxid
        byPrevout := entry.transaction.prevouts.foldl (fun index outpoint => index.discard outpoint wtxid) pool.byPrevout
        insertionOrder := pool.insertionOrder.filter (· ≠ wtxid) })

def setAnnouncers (pool : OrphanPool) (wtxid : Wtxid) (entry : OrphanEntry) (announcers : Finset ℕ) : OrphanPool :=
  { pool with entries := pool.entries.insert wtxid { entry with announcers } }

def removeAnnouncement (pool : OrphanPool) (wtxid : Wtxid) (peer : ℕ) : Bool × OrphanPool :=
  match pool.entries.lookup wtxid with
  | none => (false, pool)
  | some entry =>
    let withdrawn := pool.setAnnouncers wtxid entry (entry.announcers.erase peer)
    (true, if entry.announcers.erase peer = ∅ then (withdrawn.remove wtxid).2 else withdrawn)

/-- One round of `prune_expired`; an identifier without an entry counts as expired. -/
def pruneStep (now : ℕ) (pool : OrphanPool) : Option OrphanPool :=
  match pool.insertionOrder with
  | [] => none
  | wtxid :: rest =>
    if (pool.entries.lookup wtxid).all (·.expired now)
    then some ({ pool with insertionOrder := rest }.remove wtxid).2
    else none

def pruneExpired (now : ℕ) (pool : OrphanPool) : OrphanPool := Loop.run (pruneStep now) (·.insertionOrder.length) pool

def totalLatencyScore (pool : OrphanPool) : ℕ := total OrphanEntry.latency pool.entries

section limits
variable [Library]

def totalWeight (pool : OrphanPool) : ℕ := total (fun entry => entry.transaction.weight) pool.entries

variable [HashOrder ℕ]

/-- The weight and the latency score of all orphans a peer has announced. -/
def peerStats (pool : OrphanPool) : FMap ℕ (ℕ × ℕ) :=
  pool.entries.toList.foldl (fun stats (_, entry) => (HashOrder.elements entry.announcers).foldl (fun stats peer =>
    let usage := (stats.lookup peer).getD (0, 0)
    stats.insert peer (satAddU64 usage.1 entry.transaction.weight, satAddU64 usage.2 entry.latency)) stats) ∅

omit [Library] in
/-- The peer with the highest share of a limit; equal shares are decided by the identifier. -/
def worstPeer (stats : FMap ℕ (ℕ × ℕ)) : Option ℕ :=
  let maxPeerLatency := max (maxOrphanageLatencyScore / max stats.keys.card 1) 1
  let score (usage : ℕ × ℕ) := max (usage.1 * maxPeerLatency) (usage.2 * reservedOrphanWeightPerPeer)
  (maxBy (fun (left : ℕ × ℕ × ℕ) right => decide (score right.2 < score left.2 ∨
    score right.2 = score left.2 ∧ right.1 < left.1)) stats.toList).map Prod.fst

omit [Library] [HashOrder ℕ] in
def firstAnnouncedBy (pool : OrphanPool) (peer : ℕ) : Option Wtxid :=
  pool.insertionOrder.find? fun wtxid => (pool.entries.lookup wtxid).any fun entry => decide (peer ∈ entry.announcers)

def withinLimits (pool : OrphanPool) (peerCount : ℕ) : Prop :=
  pool.totalLatencyScore ≤ maxOrphanageLatencyScore ∧
    pool.totalWeight ≤ min (reservedOrphanWeightPerPeer * max peerCount 1) (u64Bound - 1)

instance (pool : OrphanPool) (peerCount : ℕ) : Decidable (pool.withinLimits peerCount) := by
  unfold withinLimits
  infer_instance

def limitStep (pool : OrphanPool) : Option OrphanPool :=
  let stats := pool.peerStats
  if pool.withinLimits stats.keys.card then none
  else match worstPeer stats with
    | none => none
    | some peer => match pool.firstAnnouncedBy peer with
      | none => none
      | some wtxid => some (pool.removeAnnouncement wtxid peer).2

omit [Library] [HashOrder ℕ] in
def announcementCount (pool : OrphanPool) : ℕ := total (fun entry => entry.announcers.card) pool.entries

def limitOrphans (pool : OrphanPool) : OrphanPool := Loop.run limitStep announcementCount pool

omit [HashOrder ℕ] in
def store (pool : OrphanPool) (entry : OrphanEntry) : OrphanPool :=
  let wtxid := entry.transaction.computeWtxid
  { entries := pool.entries.insert wtxid entry
    byPrevout := entry.transaction.prevouts.foldl (fun index outpoint => index.record outpoint wtxid) pool.byPrevout
    insertionOrder := pool.insertionOrder ++ [wtxid] }

def addEntry (now : ℕ) (pool : OrphanPool) (entry : OrphanEntry) : Bool × OrphanPool :=
  let pool := pool.pruneExpired now
  let wtxid := entry.transaction.computeWtxid
  match pool.entries.lookup wtxid with
  | some existing => (false, pool.setAnnouncers wtxid existing (existing.announcers ∪ entry.announcers))
  | none =>
    if maxOrphanTransactionWeight < entry.transaction.weight ∨ entry.expired now then (false, pool)
    else (true, (pool.store entry).limitOrphans)

def add (now : ℕ) (pool : OrphanPool) (transaction : Transaction) (peer : Option ℕ) : Bool × OrphanPool :=
  pool.addEntry now ⟨transaction, now, peer.toFinset⟩

omit [HashOrder ℕ] in
def addAnnouncers (now : ℕ) (pool : OrphanPool) (transaction : Transaction) (peers : List ℕ) : Bool × OrphanPool :=
  let pool := pool.pruneExpired now
  let wtxid := transaction.computeWtxid
  match pool.entries.lookup wtxid with
  | none => (false, pool)
  | some entry => (peers.any fun peer => peer ∉ entry.announcers,
      pool.setAnnouncers wtxid entry (entry.announcers ∪ peers.toFinset))

def matchingInventory (pool : OrphanPool) (hash : ℕ) (witness : Bool) : List Wtxid :=
  if witness then (if (pool.entries.lookup hash).isSome then [hash] else [])
  else (pool.entries.toList.filter fun (_, entry) => entry.transaction.computeTxid = hash).map Prod.fst

omit [Library] [HashOrder ℕ] in
def addAnnouncer (pool : OrphanPool) (peer : ℕ) (wtxid : Wtxid) : OrphanPool :=
  match pool.entries.lookup wtxid with
  | none => pool
  | some entry => pool.setAnnouncers wtxid entry (insert peer entry.announcers)

def addInventoryAnnouncer (now : ℕ) (pool : OrphanPool) (hash : ℕ) (witness : Bool) (peer : ℕ) : OrphanPool :=
  let pool := pool.pruneExpired now
  (pool.matchingInventory hash witness).foldl (fun pool wtxid => pool.addAnnouncer peer wtxid) pool

omit [Library] [HashOrder ℕ] in
def removeAll (pool : OrphanPool) (wtxids : List Wtxid) : OrphanPool :=
  wtxids.foldl (fun pool wtxid => (pool.remove wtxid).2) pool

omit [Library] [HashOrder ℕ] in
def spenders (pool : OrphanPool) (outpoints : List OutPoint) : Finset Wtxid :=
  outpoints.foldl (fun wtxids outpoint => wtxids ∪ (pool.byPrevout.lookup outpoint).getD ∅) ∅

omit [HashOrder ℕ] in
def childrenOf (pool : OrphanPool) (parent : Transaction) : List Wtxid :=
  (pool.spenders parent.outpoints).sort (· ≤ ·)

omit [HashOrder ℕ] in
def takeChildren (now : ℕ) (pool : OrphanPool) (parent : Transaction) : List OrphanEntry × OrphanPool :=
  let pool := pool.pruneExpired now
  let wtxids := pool.childrenOf parent
  (wtxids.filterMap pool.entries.lookup, pool.removeAll wtxids)

def eraseForPeer (pool : OrphanPool) (peer : ℕ) : OrphanPool :=
  let wtxids := (pool.entries.toList.filter fun (_, entry) => decide (peer ∈ entry.announcers)).map Prod.fst
  (wtxids.foldl (fun pool wtxid => (pool.removeAnnouncement wtxid peer).2) pool).limitOrphans

def conflictingWith (pool : OrphanPool) (block : Block) : Finset Wtxid :=
  block.txdata.foldl (fun wtxids tx =>
    wtxids ∪ (if (pool.entries.lookup tx.computeWtxid).isSome then {tx.computeWtxid} else ∅) ∪
      pool.spenders tx.prevouts) ∅

def eraseForBlock (pool : OrphanPool) (block : Block) : OrphanPool :=
  (pool.removeAll (HashOrder.elements (pool.conflictingWith block))).limitOrphans

end limits

end OrphanPool

end BitcoindRs
