import BitcoindRs.P2p.HeadersSyncSafety

/-! Whole conversations with a peer that shows and then sends a low-work chain. -/

namespace BitcoindRs
open Result Checked List LowWorkHeadersSync
variable [Library] [SaltedHash]

def sentHeaders (messages : List HeadersMessage) : List Header := messages.flatMap (·.headers)

omit [Library] [SaltedHash] in
theorem sentHeaders_concat (messages : List HeadersMessage) (message : HeadersMessage) :
    sentHeaders (messages ++ [message]) = sentHeaders messages ++ message.headers := by
  simp [sentHeaders]

namespace SyncConstants

/-- Where the chain that is sent again starts, and where the chain that is shown first starts. -/
def origin (c : SyncConstants) (start : Header) : HeaderTip := ⟨c.chainStartHeight, c.chainStartHash, start.bits⟩

def shownOrigin (c : SyncConstants) (start : Header) : HeaderTip :=
  ⟨c.chainStartHeight, blockHash start, start.bits⟩

end SyncConstants

namespace LowWorkHeadersSync
variable {c : SyncConstants} {start : Header} {messages : List HeadersMessage} {released : List Header}
  {sync : LowWorkHeadersSync}
variable {headers shown : List Header} {next : LowWorkHeadersSync} {full : Bool} {result : HeadersSyncResult}
variable {message : HeadersMessage} {origin : HeaderTip}

/-- What the messages so far have achieved. -/
inductive Progress (c : SyncConstants) (start : Header) : List HeadersMessage → List Header → LowWorkHeadersSync → Prop
  | presync {messages : List HeadersMessage} {sync : LowWorkHeadersSync}
      (shown : Shown c (c.shownOrigin start) (sentHeaders messages) sync sync.lastHeader)
      (idle : sync.redownloadHeaders = []) (bits : sync.redownloadLastBits = start.bits) :
      Progress c start messages [] sync
  | redownload {earlier later : List HeadersMessage} {released : List Header} {sync : LowWorkHeadersSync}
      (chain : (c.shownOrigin start).Extends c.network (sentHeaders earlier))
      (enough : c.minimumWork ≤ workAfter c.chainStartWork (sentHeaders earlier))
      (holds : Redownloading c (sentHeaders earlier) (c.origin start) (sentHeaders later) released sync)
      (size : sync.redownloadHeaders.length ≤ c.redownloadBufferSize) :
      Progress c start (earlier ++ later) released sync

theorem new_progress (network : Network) (minimumWork : ℕ) (chainStartHash : BlockHash) (chainStartHeight chainStartWork : ℕ)
    (start : Header) (medianTimePast now offset salt : ℕ) :
    let sync := new network minimumWork chainStartHash chainStartHeight chainStartWork start medianTimePast now offset salt
    Progress sync.constants start [] [] sync :=
  .presync ⟨rfl, rfl, trivial, rfl, rfl, rfl, Nat.zero_le _⟩ rfl rfl

theorem presyncHeader_idle {current next : LowWorkHeadersSync × Header} {header : Header}
    (h : presyncHeader current header = .ok next) : next.1.redownloadHeaders = current.1.redownloadHeaders ∧
      next.1.redownloadLastBits = current.1.redownloadLastBits := by
  obtain ⟨-, -, rfl⟩ := presyncHeader_ok.mp h
  exact ⟨rfl, rfl⟩

theorem foldlM_presyncHeader {previous : Header}
    {next : LowWorkHeadersSync × Header} (holds : Shown c origin shown sync previous)
    (h : headers.foldlM presyncHeader (sync, previous) = .ok next) :
    Shown c origin (shown ++ headers) next.1 next.2 ∧ next.1.redownloadHeaders = sync.redownloadHeaders ∧
      next.1.redownloadLastBits = sync.redownloadLastBits := by
  refine foldlM_invariant (fun passed (current : LowWorkHeadersSync × Header) =>
    Shown c origin (shown ++ passed) current.1 current.2 ∧ current.1.redownloadHeaders = sync.redownloadHeaders ∧
      current.1.redownloadLastBits = sync.redownloadLastBits) ?_ h ?_
  · rintro passed ⟨current, last⟩ header next ⟨kept, idle, bits⟩ step
    obtain ⟨sameIdle, sameBits⟩ := presyncHeader_idle step
    rw [← append_assoc]
    exact ⟨kept.presyncHeader step, sameIdle.trans idle, sameBits.trans bits⟩
  · rw [append_nil]
    exact ⟨holds, rfl, rfl⟩

theorem foldlM_redownloadHeader {got : List Header}
    (holds : Redownloading c shown origin got released sync) (h : headers.foldlM redownloadHeader sync = .ok next) :
    Redownloading c shown origin (got ++ headers) released next := by
  refine foldlM_invariant (fun passed current => Redownloading c shown origin (got ++ passed) released current) ?_ h ?_
  · intro passed current header next kept step
    rw [← append_assoc]
    exact kept.redownloadHeader step
  · rw [append_nil]
    exact holds

theorem Shown.beginRedownload {last : Header} (holds : Shown c (c.shownOrigin start) shown sync last)
    (bits : sync.redownloadLastBits = start.bits) (lastHeader : Header) :
    Redownloading c shown (c.origin start) [] [] { sync with
      lastHeader
      phase := .redownload
      redownloadHeaders := []
      redownloadLastHash := sync.chainStartHash
      redownloadHeight := sync.chainStartHeight
      redownloadWork := sync.chainStartWork
      processAllRemainingHeaders := false } := by
  have constants := holds.constants
  subst constants
  refine ⟨rfl, rfl, trivial, ?_, rfl, rfl, fun all => (by cases all), fun _ => .inl rfl, fun _ => holds.bits, holds.bound,
    fun _ => .inl rfl⟩
  show (⟨_, _, start.bits⟩ : HeaderTip) = ⟨_, _, sync.redownloadLastBits⟩
  rw [bits]
  rfl

variable (progress : Progress c start messages released sync)
include progress

theorem Progress.processPresync (phase : sync.phase = .presync)
    (h : sync.processPresync headers full = (result, next)) (success : result.success = true) :
    Progress c start (messages ++ [⟨headers, full⟩]) (released ++ result.ready) next := by
  cases progress with
  | redownload _ _ holds =>
    rw [holds.redownload] at phase
    cases phase
  | presync shown idle bits =>
    unfold processPresync at h
    split at h
    · cases h
      cases success
    rename_i after last run
    obtain ⟨holds, sameIdle, sameBits⟩ := foldlM_presyncHeader shown run
    rw [← sentHeaders_concat messages ⟨headers, full⟩] at holds
    dsimp only at h
    split at h
    · rename_i enough
      cases h
      have work := holds.work
      have least : after.minimumWork = c.minimumWork := by rw [← holds.constants]; rfl
      rw [← append_nil (messages ++ [(⟨headers, full⟩ : HeadersMessage)])]
      exact .redownload holds.chain (work ▸ least ▸ enough) (holds.beginRedownload (sameBits.trans bits) last) (Nat.zero_le _)
    · have kept : Progress c start (messages ++ [⟨headers, full⟩]) [] { after with lastHeader := last } :=
        .presync ⟨holds.constants, holds.presync, holds.chain, holds.tip, holds.work, holds.bits, holds.bound⟩
          (sameIdle.trans idle) (sameBits.trans bits)
      split at h <;> cases h <;> exact kept

theorem Progress.processRedownload (phase : sync.phase = .redownload)
    (h : sync.processRedownload headers full = (result, next)) (success : result.success = true) :
    Progress c start (messages ++ [⟨headers, full⟩]) (released ++ result.ready) next := by
  cases progress with
  | presync shown =>
    rw [shown.presync] at phase
    cases phase
  | redownload chain enough holds size =>
    unfold processRedownload at h
    split at h
    · cases h
      cases success
    rename_i after run
    cases h
    obtain ⟨popped, small⟩ := (foldlM_redownloadHeader holds run).popReadyHeaders
    rw [append_assoc]
    refine .redownload chain enough ?_ small
    rw [sentHeaders_concat]
    exact popped

theorem Progress.process
    (h : sync.process message.headers message.full = (result, next)) (success : result.success = true) :
    Progress c start (messages ++ [message]) (released ++ result.ready) next := by
  unfold LowWorkHeadersSync.process at h
  split at h
  · cases h
    cases success
  split at h
  · rename_i phase
    exact progress.processPresync phase h success
  · rename_i phase
    exact progress.processRedownload phase h success

omit progress

theorem process_ready_of_failure
    (failed : (sync.process headers full).1.success = false) : (sync.process headers full).1.ready = [] := by
  unfold process at failed ⊢
  split
  · rfl
  rename_i some_
  rw [if_neg some_] at failed
  split
  · rename_i phase
    rw [phase] at failed
    unfold processPresync at failed ⊢
    split
    · rfl
    · dsimp only
      split
      · rfl
      split <;> rfl
  · rename_i phase
    rw [phase] at failed
    unfold processRedownload at failed ⊢
    dsimp only at failed ⊢
    split
    · rfl
    · rename_i run
      rw [run] at failed
      cases failed

theorem receiveAll_none (later : List HeadersMessage) : receiveAll none later = ([], none) := by
  induction later with
  | nil => rfl
  | cons message later ih =>
    show (([] : List Header) ++ (receiveAll none later).1, (receiveAll none later).2) = ([], none)
    rw [ih]
    rfl

theorem receiveAll_success (success : (sync.process message.headers message.full).1.success = true)
    (later : List HeadersMessage) : receiveAll (some sync) (message :: later) =
      ((sync.process message.headers message.full).1.ready ++
        (receiveAll (some (sync.process message.headers message.full).2) later).1,
        (receiveAll (some (sync.process message.headers message.full).2) later).2) := by
  rw [receiveAll, receiveHeaders]
  simp only [success, if_true]

theorem receiveAll_failure (failed : (sync.process message.headers message.full).1.success = false)
    (later : List HeadersMessage) : receiveAll (some sync) (message :: later) = ([], none) := by
  rw [receiveAll, receiveHeaders]
  simp only [failed, process_ready_of_failure failed, Bool.false_eq_true, if_false, receiveAll_none, append_nil]

include progress in
theorem Progress.receiveAll (later : List HeadersMessage) : ∃ heard next, heard <+: later ∧
      Progress c start (messages ++ heard) (released ++ (receiveAll (some sync) later).1) next ∧
      ∀ alive, (BitcoindRs.receiveAll (some sync) later).2 = some alive → heard = later ∧ next = alive := by
  induction later generalizing messages released sync with
  | nil =>
    refine ⟨[], sync, prefix_rfl, ?_, ?_⟩
    · show Progress c start (messages ++ []) (released ++ []) sync
      rwa [append_nil, append_nil]
    · rintro _ ⟨⟩
      exact ⟨rfl, rfl⟩
  | cons message later ih =>
    rcases success : (sync.process message.headers message.full).1.success with _ | _
    · rw [receiveAll_failure success]
      refine ⟨[], sync, nil_prefix, ?_, fun alive dead => (by cases dead)⟩
      show Progress c start (messages ++ []) (released ++ []) sync
      rwa [append_nil, append_nil]
    · obtain ⟨heard, next, part, reached, alive⟩ := ih (progress.process rfl success)
      rw [receiveAll_success success]
      refine ⟨message :: heard, next, cons_prefix_cons.mpr ⟨rfl, part⟩, ?_, ?_⟩
      · rw [append_assoc, append_assoc] at reached
        exact reached
      · intro machine same
        obtain ⟨rfl, rfl⟩ := alive machine same
        exact ⟨rfl, rfl⟩

def during (sync : LowWorkHeadersSync) (headers : List Header) : LowWorkHeadersSync := match sync.phase with
  | .presync => match headers.foldlM presyncHeader (sync, sync.lastHeader) with
    | .ok (reached, _) => reached
    | .error failed => failed
  | .redownload => match headers.foldlM redownloadHeader sync with
    | .ok reached => reached
    | .error failed => failed

include progress

theorem Progress.during (headers : List Header) : (sync.during headers).commitments.len ≤ c.maxCommitments + 1 ∧
      (sync.during headers).redownloadHeaders.length ≤ c.redownloadBufferSize + headers.length := by
  unfold LowWorkHeadersSync.during
  cases progress with
  | presync shown idle _ =>
    rw [shown.presync]
    dsimp only
    split
    · rename_i reached _ run
      obtain ⟨holds, sameIdle, -⟩ := foldlM_presyncHeader shown run
      rw [sameIdle, idle]
      exact ⟨Nat.le_succ_of_le holds.bound, Nat.zero_le _⟩
    · rename_i failed run
      obtain ⟨passed, header, rest, ⟨reached, last⟩, -, before, fails⟩ := foldlM_error run
      obtain ⟨holds, sameIdle, -⟩ := foldlM_presyncHeader shown before
      obtain ⟨bits, sameHeaders⟩ := presyncHeader_error fails
      rw [sameHeaders, sameIdle, idle]
      exact ⟨Nat.le_trans bits (Nat.succ_le_succ holds.bound), Nat.zero_le _⟩
  | redownload _ _ holds size =>
    have buffered : ∀ {passed : List Header} {reached : LowWorkHeadersSync},
        passed.foldlM redownloadHeader sync = .ok reached → reached.commitments.len ≤ c.maxCommitments ∧
          reached.redownloadHeaders.length = sync.redownloadHeaders.length + passed.length := by
      intro passed reached run
      have after := foldlM_redownloadHeader holds run
      have buffer := after.buffer
      rw [holds.buffer, append_assoc] at buffer
      rw [← append_cancel_left buffer, length_append]
      exact ⟨after.bound, rfl⟩
    rw [holds.redownload]
    dsimp only
    split
    · rename_i reached run
      obtain ⟨bits, length⟩ := buffered run
      omega
    · rename_i failed run
      obtain ⟨passed, header, rest, reached, rfl, before, fails⟩ := foldlM_error run
      obtain ⟨bits, length⟩ := buffered before
      obtain ⟨fewer, sameHeaders⟩ := redownloadHeader_error fails
      rw [sameHeaders, length_append]
      omega

theorem Progress.released_chain : (c.origin start).Extends c.network released := by
  cases progress with
  | presync => trivial
  | redownload _ _ holds =>
    have chain := holds.chain
    rw [holds.buffer, HeaderTip.extends_append] at chain
    exact chain.1

theorem Progress.justified (some_ : released ≠ []) :
    ∃ earlier later, earlier ++ later = messages ∧ (c.shownOrigin start).Extends c.network (sentHeaders earlier) ∧
      c.minimumWork ≤ workAfter c.chainStartWork (sentHeaders earlier) ∧
      (c.origin start).Extends c.network (sentHeaders later) ∧ released <+: sentHeaders later ∧
      ((∃ first, first <+: sentHeaders later ∧ c.minimumWork ≤ workAfter c.chainStartWork first) ∨
        released.length + c.redownloadBufferSize ≤ (sentHeaders later).length ∧
        ∀ i header, (sentHeaders later)[i]? = some header →
          c.due ((fun height => satAddU32 height 1)^[i + 1] c.chainStartHeight) = true →
          ∃ other, (sentHeaders earlier)[i]? = some other ∧ c.commitment other = c.commitment header) := by
  cases progress with
  | presync => exact absurd rfl some_
  | @redownload earlier later _ _ chain enough holds _ =>
    have released_part : released <+: sentHeaders later := by
      rw [holds.buffer]
      exact prefix_append _ _
    refine ⟨earlier, later, rfl, chain, enough, holds.chain, released_part, ?_⟩
    rcases all : sync.processAllRemainingHeaders with _ | _
    · right
      constructor
      · rcases holds.held all with none_ | full
        · exact absurd none_ some_
        · rw [holds.buffer, length_append]
          exact Nat.add_le_add_left full _
      · intro i header here falls
        refine SyncConstants.commitment_of_isPrefix ?_ here falls
        have bits := holds.bits all
        exact ⟨_, bits⟩
    · exact .inl (holds.reached all)

end LowWorkHeadersSync

/-- A peer gets headers into the block index only with a chain it has shown to have the required work and has then sent
again, and costs bounded memory until then. -/
theorem lowWorkHeadersSync_commits (network : Network) (minimumWork : ℕ) (chainStartHash : BlockHash)
    (chainStartHeight chainStartWork : ℕ) (start : Header) (medianTimePast now offset salt : ℕ) :
    let sync := new network minimumWork chainStartHash chainStartHeight chainStartWork start medianTimePast
      now offset salt
    let c := sync.constants
    (∀ messages, (c.origin start).Extends network (receiveAll (some sync) messages).1) ∧
    (∀ messages, (receiveAll (some sync) messages).1 ≠ [] → ∃ earlier later, earlier ++ later <+: messages ∧
      (c.shownOrigin start).Extends network (sentHeaders earlier) ∧
      minimumWork ≤ workAfter chainStartWork (sentHeaders earlier) ∧
      (c.origin start).Extends network (sentHeaders later) ∧ (receiveAll (some sync) messages).1 <+: sentHeaders later ∧
      ((∃ first, first <+: sentHeaders later ∧ minimumWork ≤ workAfter chainStartWork first) ∨
        (receiveAll (some sync) messages).1.length + c.redownloadBufferSize ≤ (sentHeaders later).length ∧
        ∀ i header, (sentHeaders later)[i]? = some header →
          c.due ((fun height => satAddU32 height 1)^[i + 1] chainStartHeight) = true →
          ∃ other, (sentHeaders earlier)[i]? = some other ∧ c.commitment other = c.commitment header)) ∧
    ∀ past alive, (receiveAll (some sync) past).2 = some alive → ∀ message headers, headers <+: message →
      (alive.during headers).commitments.len ≤ c.maxCommitments + 1 ∧
      (alive.during headers).redownloadHeaders.length ≤ c.redownloadBufferSize + message.length := by
  intro sync c
  have start_ := new_progress network minimumWork chainStartHash chainStartHeight chainStartWork start
    medianTimePast now offset salt
  refine ⟨fun messages => ?_, fun messages some_ => ?_, fun past alive lives message headers part => ?_⟩
  · obtain ⟨heard, next, -, progress, -⟩ := start_.receiveAll messages
    exact progress.released_chain
  · obtain ⟨heard, next, part, progress, -⟩ := start_.receiveAll messages
    obtain ⟨earlier, later, heard_, justified⟩ := progress.justified some_
    rw [nil_append] at heard_
    exact ⟨earlier, later, heard_ ▸ part, justified⟩
  · obtain ⟨heard, next, -, progress, same⟩ := start_.receiveAll past
    obtain ⟨-, rfl⟩ := same alive lives
    obtain ⟨bits, length⟩ := progress.during headers
    exact ⟨bits, Nat.le_trans length (Nat.add_le_add_left part.length_le _)⟩

@[reducible] def SaltedHash.sample : SaltedHash where
  bit salt hash := (salt + hash) % 2 = 1

def sampleHeaders : Header × List Header :=
  (⟨1, 0, 0, 0, 0x207fffff, 7⟩, [⟨1, 7, 0, 1, 0x207fffff, 8⟩, ⟨1, 8, 0, 2, 0x207fffff, 9⟩])

omit [Library] [SaltedHash] in
theorem lowWorkHeadersSync_commits_sample : let _ := Library.sample
    let _ := SaltedHash.sample
    let sync := new .regtest 0x20800001 7 100 0 sampleHeaders.1 0 1000000 101 0
    (receiveAll (some sync) [⟨sampleHeaders.2, true⟩, ⟨sampleHeaders.2, true⟩]).1 ≠ [] ∧
      ∃ earlier later, earlier ++ later <+: [⟨sampleHeaders.2, true⟩, ⟨sampleHeaders.2, true⟩] ∧
        0x20800001 ≤ workAfter 0 (sentHeaders earlier) ∧ sentHeaders later ≠ [] := by
  intro _ _ sync
  have released : (receiveAll (some sync) [⟨sampleHeaders.2, true⟩, ⟨sampleHeaders.2, true⟩]).1 ≠ [] := by decide +kernel
  obtain ⟨-, commits, -⟩ := lowWorkHeadersSync_commits .regtest 0x20800001 7 100 0 sampleHeaders.1 0 1000000 101 0
  obtain ⟨earlier, later, heard, -, enough, -, part, -⟩ := commits _ released
  refine ⟨released, earlier, later, heard, enough, ?_⟩
  intro none_
  rw [none_] at part
  exact released (prefix_nil.mp part)

end BitcoindRs
