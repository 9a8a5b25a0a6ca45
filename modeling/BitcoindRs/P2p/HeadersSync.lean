import BitcoindRs.Consensus.Target
import BitcoindRs.Data.BitQueue

/-! Low-work headers synchronisation with one peer. -/

namespace BitcoindRs
open Checked

variable [Library]

def validHeaderPow (network : Network) (header : Header) : Bool :=
  let target := Target.fromCompact header.bits
  header.bits &&& 0x007fffff ≠ 0 ∧ header.bits &&& 0x00800000 = 0 ∧ target ≠ 0 ∧ target ≤ Target.maxAttainable network ∧
    Target.toCompactLossy target = header.bits ∧ blockHash header ≤ target

omit [Library] in
def addWorkSaturating (left right : ℕ) : ℕ := min (left + right) (2 ^ 256 - 1)

inductive LowWorkHeadersPhase where
  | presync
  | redownload
deriving DecidableEq, Repr

structure HeadersSyncResult where
  success : Bool
  requestMore : Bool
  ready : List Header
  finished : Bool

abbrev CommitmentBits := BitQueue 64

class SaltedHash where
  bit : ℕ → BlockHash → Bool

structure LowWorkHeadersSync where
  network : Network
  minimumWork : ℕ
  commitmentPeriod : ℕ
  redownloadBufferSize : ℕ
  commitOffset : ℕ
  salt : ℕ
  commitments : CommitmentBits
  maxCommitments : ℕ
  phase : LowWorkHeadersPhase
  chainStartHash : BlockHash
  chainStartHeight : ℕ
  chainStartWork : ℕ
  lastHeader : Header
  currentHeight : ℕ
  currentWork : ℕ
  redownloadHeaders : List Header
  redownloadLastHash : BlockHash
  redownloadLastBits : ℕ
  redownloadHeight : ℕ
  redownloadWork : ℕ
  processAllRemainingHeaders : Bool

def maxFutureBlockTimeSecs : ℕ := 2 * 60 * 60

namespace LowWorkHeadersSync

def params (_ : Network) : ℕ × ℕ := (632, 15009)

/-- `now`, `offset` and `salt` are the clock and two random numbers. -/
def new (network : Network) (minimumWork : ℕ) (chainStartHash : BlockHash) (chainStartHeight chainStartWork : ℕ)
    (chainStartHeader : Header) (chainStartMedianTimePast now offset salt : ℕ) : LowWorkHeadersSync :=
  let (commitmentPeriod, redownloadBufferSize) := params network
  let elapsed := satAddU64 (now - chainStartMedianTimePast) maxFutureBlockTimeSecs
  { network, minimumWork, commitmentPeriod, redownloadBufferSize
    commitOffset := offset % commitmentPeriod
    salt
    commitments := .empty (by decide)
    maxCommitments := min (elapsed * 6) (u64Bound - 1) / commitmentPeriod
    phase := .presync
    chainStartHash, chainStartHeight, chainStartWork
    lastHeader := chainStartHeader
    currentHeight := chainStartHeight
    currentWork := chainStartWork
    redownloadHeaders := []
    redownloadLastHash := chainStartHash
    redownloadLastBits := chainStartHeader.bits
    redownloadHeight := chainStartHeight
    redownloadWork := chainStartWork
    processAllRemainingHeaders := false }

variable [SaltedHash]

def commitment (sync : LowWorkHeadersSync) (header : Header) : Bool := SaltedHash.bit sync.salt (blockHash header)

def due (sync : LowWorkHeadersSync) (height : ℕ) : Bool := height % sync.commitmentPeriod = sync.commitOffset

def recorded (sync : LowWorkHeadersSync) (height : ℕ) (header : Header) : CommitmentBits :=
  if sync.due height then sync.commitments.pushBack (sync.commitment header) else sync.commitments

/-- One header of the first phase, after the previous one. A failure leaves the state it has reached. -/
def presyncHeader (current : LowWorkHeadersSync × Header) (header : Header) :
    Except LowWorkHeadersSync (LowWorkHeadersSync × Header) :=
  let (sync, previous) := current
  let nextHeight := satAddU32 sync.currentHeight 1
  if header.prevBlockhash ≠ blockHash previous ∨
      permittedDifficultyTransition sync.network nextHeight previous.bits header.bits = false ∨
      validHeaderPow sync.network header = false then .error sync
  else
    let commitments := sync.recorded nextHeight header
    if sync.due nextHeight ∧ sync.maxCommitments < commitments.len then .error { sync with commitments }
    else .ok ({ sync with
      commitments
      currentWork := addWorkSaturating sync.currentWork (Library.work header)
      currentHeight := nextHeight }, header)

def failedResult : HeadersSyncResult := ⟨false, false, [], true⟩

def processPresync (sync : LowWorkHeadersSync) (headers : List Header) (fullHeadersMessage : Bool) :
    HeadersSyncResult × LowWorkHeadersSync :=
  match headers.foldlM presyncHeader (sync, sync.lastHeader) with
  | .error failed => (failedResult, failed)
  | .ok (shown, lastHeader) =>
    let sync := { shown with lastHeader }
    if sync.minimumWork ≤ sync.currentWork then
      -- The second phase starts over from the common chain start.
      (⟨true, true, [], false⟩, { sync with
        phase := .redownload
        redownloadHeaders := []
        redownloadLastHash := sync.chainStartHash
        redownloadHeight := sync.chainStartHeight
        redownloadWork := sync.chainStartWork
        processAllRemainingHeaders := false })
    else if fullHeadersMessage then (⟨true, true, [], false⟩, sync)
    -- A short low-work response: the peer has no useful chain.
    else (⟨true, false, [], true⟩, sync)

/-- The bit of a header that falls due must be the one recorded in the first phase. -/
def checkCommitment (sync : LowWorkHeadersSync) (nextHeight : ℕ) (header : Header) :
    Except LowWorkHeadersSync LowWorkHeadersSync :=
  if sync.processAllRemainingHeaders = false ∧ sync.due nextHeight then
    match sync.commitments.popFront with
    | none => .error sync
    | some (expected, commitments) =>
      if sync.commitment header ≠ expected then .error { sync with commitments } else .ok { sync with commitments }
  else .ok sync

def redownloadHeader (sync : LowWorkHeadersSync) (header : Header) : Except LowWorkHeadersSync LowWorkHeadersSync := do
  let nextHeight := satAddU32 sync.redownloadHeight 1
  if header.prevBlockhash ≠ sync.redownloadLastHash ∨
      permittedDifficultyTransition sync.network nextHeight sync.redownloadLastBits header.bits = false ∨
      validHeaderPow sync.network header = false then .error sync
  else
    let redownloadWork := addWorkSaturating sync.redownloadWork (Library.work header)
    let checked ← checkCommitment { sync with
      redownloadWork
      processAllRemainingHeaders := sync.processAllRemainingHeaders || decide (sync.minimumWork ≤ redownloadWork) }
      nextHeight header
    .ok { checked with
      redownloadHeaders := checked.redownloadHeaders ++ [header]
      redownloadLastHash := blockHash header
      redownloadLastBits := header.bits
      redownloadHeight := nextHeight }

omit [Library] [SaltedHash] in
def popReady (size : ℕ) (all : Bool) : List Header → List Header × List Header
  | [] => ([], [])
  | header :: rest =>
    if size < (header :: rest).length ∨ all then
      let (ready, kept) := popReady size all rest
      (header :: ready, kept)
    else ([], header :: rest)

omit [Library] [SaltedHash] in
def popReadyHeaders (sync : LowWorkHeadersSync) : List Header × LowWorkHeadersSync :=
  let (ready, redownloadHeaders) := popReady sync.redownloadBufferSize sync.processAllRemainingHeaders sync.redownloadHeaders
  (ready, { sync with redownloadHeaders })

def processRedownload (sync : LowWorkHeadersSync) (headers : List Header) (fullHeadersMessage : Bool) :
    HeadersSyncResult × LowWorkHeadersSync :=
  match headers.foldlM redownloadHeader sync with
  | .error failed => (failedResult, failed)
  | .ok sync =>
    let (ready, sync) := sync.popReadyHeaders
    let finished := sync.redownloadHeaders.isEmpty && sync.processAllRemainingHeaders
    (⟨true, !finished && fullHeadersMessage, ready, finished || !fullHeadersMessage⟩, sync)

def process (sync : LowWorkHeadersSync) (headers : List Header) (fullHeadersMessage : Bool) :
    HeadersSyncResult × LowWorkHeadersSync :=
  if headers.isEmpty then (failedResult, sync)
  else match sync.phase with
    | .presync => sync.processPresync headers fullHeadersMessage
    | .redownload => sync.processRedownload headers fullHeadersMessage

end LowWorkHeadersSync

structure HeadersMessage where
  headers : List Header
  full : Bool

variable [SaltedHash]

/-- A failed machine is dropped. A finished one is dropped as well unless the parent of a released header is missing, so
it is kept here: that only allows more. -/
def receiveHeaders (machine : Option LowWorkHeadersSync) (message : HeadersMessage) :
    List Header × Option LowWorkHeadersSync := match machine with
  | none => ([], none)
  | some sync =>
    let (result, next) := sync.process message.headers message.full
    (result.ready, if result.success then some next else none)

def receiveAll (machine : Option LowWorkHeadersSync) : List HeadersMessage → List Header × Option LowWorkHeadersSync
  | [] => ([], machine)
  | message :: rest =>
    let (ready, next) := receiveHeaders machine message
    let (later, last) := receiveAll next rest
    (ready ++ later, last)

end BitcoindRs
