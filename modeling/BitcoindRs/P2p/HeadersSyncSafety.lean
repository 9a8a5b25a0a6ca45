import BitcoindRs.P2p.HeadersSync

/-!
What a peer has to show before its headers are released: a chain with the required work first, and then the same chain
again as far as the recorded bits tell.
-/

namespace BitcoindRs
open Checked List
variable [Library]

structure HeaderTip where
  height : ℕ
  hash : BlockHash
  bits : ℕ

namespace HeaderTip

def advance (tip : HeaderTip) (header : Header) : HeaderTip := ⟨satAddU32 tip.height 1, blockHash header, header.bits⟩

def after (tip : HeaderTip) (headers : List Header) : HeaderTip := headers.foldl advance tip

/-- The header names its predecessor, has a permitted target and meets it. -/
def Accepts (network : Network) (tip : HeaderTip) (header : Header) : Prop :=
  header.prevBlockhash = tip.hash ∧ permittedDifficultyTransition network (satAddU32 tip.height 1) tip.bits header.bits = true ∧
    validHeaderPow network header = true

def Extends (network : Network) : HeaderTip → List Header → Prop
  | _, [] => True
  | tip, header :: rest => tip.Accepts network header ∧ Extends network (tip.advance header) rest

theorem extends_append {network : Network} {tip : HeaderTip} {xs ys : List Header} :
    tip.Extends network (xs ++ ys) ↔ tip.Extends network xs ∧ (tip.after xs).Extends network ys := by
  induction xs generalizing tip with
  | nil => simp [Extends, after]
  | cons header xs ih =>
    rw [cons_append, Extends, Extends, ih, and_assoc]
    rfl

theorem extends_concat {network : Network} {tip : HeaderTip} {xs : List Header} {header : Header} :
    tip.Extends network (xs ++ [header]) ↔ tip.Extends network xs ∧ (tip.after xs).Accepts network header := by
  rw [extends_append]
  simp [Extends]

theorem after_concat (tip : HeaderTip) (xs : List Header) (header : Header) :
    tip.after (xs ++ [header]) = (tip.after xs).advance header := by
  rw [after, after, List.foldl_append]
  rfl

end HeaderTip

def workAfter (work : ℕ) (headers : List Header) : ℕ :=
  headers.foldl (fun work header => addWorkSaturating work (Library.work header)) work

theorem workAfter_append (work : ℕ) (xs ys : List Header) : workAfter work (xs ++ ys) = workAfter (workAfter work xs) ys := by
  rw [workAfter, List.foldl_append]
  rfl

theorem workAfter_concat (work : ℕ) (xs : List Header) (header : Header) :
    workAfter work (xs ++ [header]) = addWorkSaturating (workAfter work xs) (Library.work header) := workAfter_append _ _ _

structure SyncConstants where
  network : Network
  minimumWork : ℕ
  commitmentPeriod : ℕ
  redownloadBufferSize : ℕ
  commitOffset : ℕ
  salt : ℕ
  maxCommitments : ℕ
  chainStartHash : BlockHash
  chainStartHeight : ℕ
  chainStartWork : ℕ

def LowWorkHeadersSync.constants (sync : LowWorkHeadersSync) : SyncConstants where
  network := sync.network
  minimumWork := sync.minimumWork
  commitmentPeriod := sync.commitmentPeriod
  redownloadBufferSize := sync.redownloadBufferSize
  commitOffset := sync.commitOffset
  salt := sync.salt
  maxCommitments := sync.maxCommitments
  chainStartHash := sync.chainStartHash
  chainStartHeight := sync.chainStartHeight
  chainStartWork := sync.chainStartWork

variable [SaltedHash]

namespace SyncConstants

def due (c : SyncConstants) (height : ℕ) : Bool := height % c.commitmentPeriod = c.commitOffset

def commitment (c : SyncConstants) (header : Header) : Bool := SaltedHash.bit c.salt (blockHash header)

def bitAfter (c : SyncConstants) (height : ℕ) (header : Header) : List Bool :=
  if c.due (satAddU32 height 1) then [c.commitment header] else []

def bitsAfter (c : SyncConstants) : ℕ → List Header → List Bool
  | _, [] => []
  | height, header :: rest => c.bitAfter height header ++ c.bitsAfter (satAddU32 height 1) rest

theorem bitsAfter_append (c : SyncConstants) (tip : HeaderTip) (xs ys : List Header) :
    c.bitsAfter tip.height (xs ++ ys) = c.bitsAfter tip.height xs ++ c.bitsAfter (tip.after xs).height ys := by
  induction xs generalizing tip with
  | nil => rfl
  | cons first xs ih =>
    rw [cons_append, bitsAfter, bitsAfter, append_assoc]
    exact congrArg _ (ih (tip.advance first))

theorem bitsAfter_concat (c : SyncConstants) (tip : HeaderTip) (xs : List Header) (header : Header) :
    c.bitsAfter tip.height (xs ++ [header]) = c.bitsAfter tip.height xs ++ c.bitAfter (tip.after xs).height header := by
  rw [bitsAfter_append]
  simp [bitsAfter]

theorem commitment_of_isPrefix {c : SyncConstants} {height : ℕ} {got shown : List Header}
    (matched : c.bitsAfter height got <+: c.bitsAfter height shown) {i : ℕ} {header : Header} (here : got[i]? = some header)
    (falls : c.due ((fun h => satAddU32 h 1)^[i + 1] height) = true) :
    ∃ other, shown[i]? = some other ∧ c.commitment other = c.commitment header := by
  induction got generalizing height shown i with
  | nil => cases here
  | cons first got ih =>
    rw [bitsAfter, bitAfter] at matched
    rcases shown with _ | ⟨other, shown⟩
    · -- Without a shown header there is no recorded bit, so nothing falls due.
      rw [bitsAfter, prefix_nil, append_eq_nil_iff] at matched
      obtain ⟨undue, later⟩ := matched
      cases i with
      | zero =>
        rw [if_pos (by simpa using falls)] at undue
        cases undue
      | succ i =>
        have absent : c.bitsAfter (satAddU32 height 1) got <+: c.bitsAfter (satAddU32 height 1) [] := by
          rw [later]
          exact nil_prefix
        obtain ⟨_, none_, -⟩ := ih absent here falls
        cases none_
    · rw [bitsAfter, bitAfter] at matched
      cases i with
      | zero =>
        have dueNow : c.due (satAddU32 height 1) = true := by simpa using falls
        rw [if_pos dueNow, if_pos dueNow, singleton_append, singleton_append, cons_prefix_cons] at matched
        cases here
        exact ⟨other, rfl, matched.1.symm⟩
      | succ i =>
        have later : c.bitsAfter (satAddU32 height 1) got <+: c.bitsAfter (satAddU32 height 1) shown := by
          split at matched
          · exact (cons_prefix_cons.mp matched).2
          · exact matched
        exact ih later here falls

end SyncConstants

namespace LowWorkHeadersSync
variable {header : Header} {next : LowWorkHeadersSync × Header} {failed : LowWorkHeadersSync}
variable {commitments : CommitmentBits}

/-- The chain shown so far, ending in `previous`. -/
structure Shown (c : SyncConstants) (origin : HeaderTip) (shown : List Header) (sync : LowWorkHeadersSync) (previous : Header) :
    Prop where
  constants : sync.constants = c
  presync : sync.phase = .presync
  chain : origin.Extends c.network shown
  tip : origin.after shown = ⟨sync.currentHeight, blockHash previous, previous.bits⟩
  work : sync.currentWork = workAfter c.chainStartWork shown
  bits : sync.commitments.toList = c.bitsAfter origin.height shown
  bound : sync.commitments.len ≤ c.maxCommitments

variable {c : SyncConstants} {origin : HeaderTip} {shown : List Header} {sync : LowWorkHeadersSync} {previous : Header}

theorem toList_recorded (sync : LowWorkHeadersSync) (header : Header) :
    (sync.recorded (satAddU32 sync.currentHeight 1) header).toList =
      sync.commitments.toList ++ sync.constants.bitAfter sync.currentHeight header := by
  unfold recorded SyncConstants.bitAfter
  rw [show sync.due = sync.constants.due from rfl]
  split
  · exact BitQueue.toList_pushBack _ _
  · rw [append_nil]

theorem presyncHeader_ok : presyncHeader (sync, previous) header = .ok next ↔
      HeaderTip.Accepts sync.network ⟨sync.currentHeight, blockHash previous, previous.bits⟩ header ∧
      ¬ (sync.due (satAddU32 sync.currentHeight 1) = true ∧ sync.maxCommitments < (sync.recorded (satAddU32 sync.currentHeight 1) header).len) ∧
      next = ({ sync with
        commitments := sync.recorded (satAddU32 sync.currentHeight 1) header
        currentWork := addWorkSaturating sync.currentWork (Library.work header)
        currentHeight := satAddU32 sync.currentHeight 1 }, header) := by
  unfold LowWorkHeadersSync.presyncHeader
  dsimp only
  split
  · rename_i refused
    refine ⟨fun h => (by cases h), fun ⟨⟨link, target, pow⟩, _⟩ => ?_⟩
    simp [link, target, pow] at refused
  · rename_i accepted
    simp only [not_or, not_not, Bool.not_eq_false] at accepted
    split
    · rename_i tooMany
      exact ⟨fun h => (by cases h), fun ⟨_, inBound, _⟩ => absurd tooMany inBound⟩
    · rename_i inBound
      rw [Except.ok.injEq]
      exact ⟨fun h => ⟨accepted, inBound, h.symm⟩, fun ⟨_, _, h⟩ => h.symm⟩

theorem Shown.presyncHeader (holds : Shown c origin shown sync previous)
    (h : presyncHeader (sync, previous) header = .ok next) :
    Shown c origin (shown ++ [header]) next.1 next.2 := by
  obtain ⟨rfl, presync, chain, tip, work, bits, bound⟩ := holds
  obtain ⟨accepted, inBound, rfl⟩ := presyncHeader_ok.mp h
  have height : (origin.after shown).height = sync.currentHeight := by rw [tip]
  refine ⟨rfl, presync, ?_, ?_, ?_, ?_, ?_⟩
  · rw [HeaderTip.extends_concat, tip]
    exact ⟨chain, accepted⟩
  · rw [HeaderTip.after_concat, tip]
    rfl
  · rw [workAfter_concat, ← work]
  · rw [SyncConstants.bitsAfter_concat, ← bits, height]
    exact toList_recorded sync header
  · show (sync.recorded (satAddU32 sync.currentHeight 1) header).len ≤ sync.maxCommitments
    by_cases falls : sync.due (satAddU32 sync.currentHeight 1) = true
    · exact Nat.le_of_not_lt fun tooMany => inBound ⟨falls, tooMany⟩
    · rw [recorded, if_neg falls]
      exact bound

theorem presyncHeader_error (h : presyncHeader (sync, previous) header = .error failed) :
    failed.commitments.len ≤ sync.commitments.len + 1 ∧ failed.redownloadHeaders = sync.redownloadHeaders := by
  unfold LowWorkHeadersSync.presyncHeader at h
  dsimp only at h
  split at h
  · cases h
    exact ⟨Nat.le_succ _, rfl⟩
  split at h
  · cases h
    refine ⟨?_, rfl⟩
    show (sync.recorded _ header).len ≤ sync.commitments.len + 1
    unfold recorded
    split
    · exact Nat.le_refl _
    · exact Nat.le_succ _
  · cases h

/-- The chain sent again so far, of which a part has been released and the rest is in the buffer. -/
structure Redownloading (c : SyncConstants) (shown : List Header) (origin : HeaderTip) (got released : List Header)
    (sync : LowWorkHeadersSync) : Prop where
  constants : sync.constants = c
  redownload : sync.phase = .redownload
  chain : origin.Extends c.network got
  tip : origin.after got = ⟨sync.redownloadHeight, sync.redownloadLastHash, sync.redownloadLastBits⟩
  work : sync.redownloadWork = workAfter c.chainStartWork got
  buffer : got = released ++ sync.redownloadHeaders
  reached : sync.processAllRemainingHeaders = true → ∃ first, first <+: got ∧ c.minimumWork ≤ workAfter c.chainStartWork first
  unreached : sync.processAllRemainingHeaders = false → got = [] ∨ sync.redownloadWork < c.minimumWork
  bits : sync.processAllRemainingHeaders = false →
    c.bitsAfter origin.height got ++ sync.commitments.toList = c.bitsAfter origin.height shown
  bound : sync.commitments.len ≤ c.maxCommitments
  held : sync.processAllRemainingHeaders = false → released = [] ∨ c.redownloadBufferSize ≤ sync.redownloadHeaders.length

variable {got released : List Header}

def reaches (sync : LowWorkHeadersSync) (header : Header) : Bool :=
  sync.processAllRemainingHeaders || decide (sync.minimumWork ≤ addWorkSaturating sync.redownloadWork (Library.work header))

def Consumes (sync : LowWorkHeadersSync) (header : Header) (commitments : CommitmentBits) : Prop :=
  if sync.reaches header = false ∧ sync.due (satAddU32 sync.redownloadHeight 1) = true
  then sync.commitments.popFront = some (sync.commitment header, commitments) else commitments = sync.commitments

theorem checkCommitment_ok {height : ℕ} {checked : LowWorkHeadersSync} :
    checkCommitment sync height header = .ok checked ↔ ∃ commitments,
      (if sync.processAllRemainingHeaders = false ∧ sync.due height = true
        then sync.commitments.popFront = some (sync.commitment header, commitments) else commitments = sync.commitments) ∧
      checked = { sync with commitments } := by
  unfold checkCommitment
  by_cases falls : sync.processAllRemainingHeaders = false ∧ sync.due height = true
  · simp only [if_pos falls]
    rcases sync.commitments.popFront with _ | ⟨expected, commitments⟩
    · simp
    · by_cases same : sync.commitment header = expected
      · simp [same, eq_comm]
      · simp [same, Ne.symm same]
  · simp only [if_neg falls, Except.ok.injEq]
    constructor
    · rintro rfl
      exact ⟨_, rfl, rfl⟩
    · rintro ⟨_, rfl, rfl⟩
      rfl

theorem redownloadHeader_ok {next : LowWorkHeadersSync} : redownloadHeader sync header = .ok next ↔
    HeaderTip.Accepts sync.network ⟨sync.redownloadHeight, sync.redownloadLastHash, sync.redownloadLastBits⟩ header ∧
    ∃ commitments, sync.Consumes header commitments ∧ next = { sync with
      commitments
      redownloadWork := addWorkSaturating sync.redownloadWork (Library.work header)
      processAllRemainingHeaders := sync.reaches header
      redownloadHeaders := sync.redownloadHeaders ++ [header]
      redownloadLastHash := blockHash header
      redownloadLastBits := header.bits
      redownloadHeight := satAddU32 sync.redownloadHeight 1 } := by
  unfold redownloadHeader
  dsimp only
  split
  · rename_i refused
    refine ⟨fun h => (by cases h), fun ⟨⟨link, target, pow⟩, _⟩ => ?_⟩
    simp [link, target, pow] at refused
  rename_i accepted
  simp only [not_or, not_not, Bool.not_eq_false] at accepted
  rw [Result.bind_ok_iff]
  constructor
  · rintro ⟨checked, passed, done⟩
    obtain ⟨commitments, left, rfl⟩ := checkCommitment_ok.mp passed
    cases done
    exact ⟨accepted, commitments, left, rfl⟩
  · rintro ⟨-, commitments, left, rfl⟩
    exact ⟨_, checkCommitment_ok.mpr ⟨commitments, left, rfl⟩, rfl⟩

theorem bitAfter_consumes (short : sync.reaches header = false) (left : sync.Consumes header commitments) :
    sync.constants.bitAfter sync.redownloadHeight header ++ commitments.toList = sync.commitments.toList := by
  unfold Consumes at left
  unfold SyncConstants.bitAfter
  rw [show sync.constants.due = sync.due from rfl]
  by_cases falls : sync.due (satAddU32 sync.redownloadHeight 1) = true
  · rw [if_pos ⟨short, falls⟩] at left
    rw [if_pos falls]
    exact (BitQueue.toList_of_popFront left).symm
  · rw [if_neg fun both => falls both.2] at left
    rw [if_neg falls, left]
    rfl

theorem len_consumes (left : sync.Consumes header commitments) : commitments.len ≤ sync.commitments.len := by
  unfold Consumes at left
  split at left
  · rw [← BitQueue.length_toList, ← BitQueue.length_toList, BitQueue.toList_of_popFront left]
    exact Nat.le_succ _
  · rw [left]

theorem Redownloading.redownloadHeader (holds : Redownloading c shown origin got released sync)
    {next : LowWorkHeadersSync} (h : redownloadHeader sync header = .ok next) :
    Redownloading c shown origin (got ++ [header]) released next := by
  obtain ⟨rfl, redownload, chain, tip, work, buffer, reached, unreached, bits, bound, held⟩ := holds
  obtain ⟨accepted, commitments, left, rfl⟩ := redownloadHeader_ok.mp h
  have height : (origin.after got).height = sync.redownloadHeight := by rw [tip]
  have before : sync.reaches header = false → sync.processAllRemainingHeaders = false := by
    intro short
    exact (Bool.or_eq_false_iff.mp short).1
  refine ⟨rfl, redownload, ?_, ?_, ?_, ?_, ?_, ?_, ?_, ?_, ?_⟩
  · rw [HeaderTip.extends_concat, tip]
    exact ⟨chain, accepted⟩
  · rw [HeaderTip.after_concat, tip]
    rfl
  · rw [workAfter_concat, ← work]
  · rw [buffer, append_assoc]
  · intro long
    rcases Bool.or_eq_true_iff.mp long with earlier | now
    · obtain ⟨first, part, enough⟩ := reached earlier
      exact ⟨first, part.trans (prefix_append _ _), enough⟩
    · refine ⟨got ++ [header], prefix_rfl, ?_⟩
      rw [workAfter_concat, ← work]
      exact of_decide_eq_true now
  · intro short
    exact .inr (Nat.lt_of_not_le (of_decide_eq_false (Bool.or_eq_false_iff.mp short).2))
  · intro short
    rw [SyncConstants.bitsAfter_concat, height, append_assoc, ← bits (before short),
      bitAfter_consumes short left]
  · exact Nat.le_trans (len_consumes left) bound
  · intro short
    rcases held (before short) with none_ | enough
    · exact .inl none_
    · refine .inr (Nat.le_trans enough ?_)
      show sync.redownloadHeaders.length ≤ (sync.redownloadHeaders ++ [header]).length
      rw [length_append]
      exact Nat.le_add_right _ _

theorem redownloadHeader_error (h : redownloadHeader sync header = .error failed) :
    failed.commitments.len ≤ sync.commitments.len ∧ failed.redownloadHeaders = sync.redownloadHeaders := by
  unfold LowWorkHeadersSync.redownloadHeader at h
  dsimp only at h
  split at h
  · cases h
    exact ⟨Nat.le_refl _, rfl⟩
  rcases Result.bind_error h with refused | ⟨_, _, none_⟩
  · unfold checkCommitment at refused
    dsimp only at refused
    split at refused
    · split at refused
      · cases refused
        exact ⟨Nat.le_refl _, rfl⟩
      · rename_i popped
        split at refused
        · cases refused
          refine ⟨?_, rfl⟩
          rw [← BitQueue.length_toList, ← BitQueue.length_toList, BitQueue.toList_of_popFront popped]
          exact Nat.le_succ _
        · cases refused
    · cases refused
  · cases none_

section
omit [Library] [SaltedHash]

theorem popReady_append (size : ℕ) (all : Bool) (headers : List Header) :
    (popReady size all headers).1 ++ (popReady size all headers).2 = headers := by
  induction headers with
  | nil => rfl
  | cons header rest ih =>
    rw [popReady]
    split
    · exact congrArg (header :: ·) ih
    · rfl

theorem popReady_all (size : ℕ) (headers : List Header) : (popReady size true headers).2 = [] := by
  induction headers with
  | nil => rfl
  | cons header rest ih =>
    rw [popReady, if_pos (.inr rfl)]
    exact ih

theorem popReady_some (size : ℕ) (headers : List Header) : (popReady size false headers).2.length ≤ size ∧
    ((popReady size false headers).1 = [] ∨ (popReady size false headers).2.length = size) := by
  induction headers with
  | nil => exact ⟨Nat.zero_le _, .inl rfl⟩
  | cons header rest ih =>
    rw [popReady]
    split
    · rename_i full
      refine ⟨ih.1, .inr ?_⟩
      rcases ih.2 with none_ | exact_
      · have kept : (popReady size false rest).2 = rest := by
          have whole := popReady_append size false rest
          rwa [none_, nil_append] at whole
        have long : size < (header :: rest).length := by simpa using full
        rw [kept] at ih ⊢
        rw [length_cons] at long
        omega
      · exact exact_
    · rename_i short
      exact ⟨Nat.le_of_not_lt fun long => short (.inl long), .inl rfl⟩

end

theorem Redownloading.popReadyHeaders (holds : Redownloading c shown origin got released sync) :
    Redownloading c shown origin got (released ++ sync.popReadyHeaders.1) sync.popReadyHeaders.2 ∧
      (sync.popReadyHeaders.2).redownloadHeaders.length ≤ c.redownloadBufferSize := by
  obtain ⟨rfl, redownload, chain, tip, work, buffer, reached, unreached, bits, bound, held⟩ := holds
  have parts := popReady_append sync.redownloadBufferSize sync.processAllRemainingHeaders sync.redownloadHeaders
  refine ⟨⟨rfl, redownload, chain, tip, work, ?_, reached, unreached, bits, bound, ?_⟩, ?_⟩
  · rw [append_assoc, buffer]
    exact congrArg (released ++ ·) parts.symm
  · intro (short : sync.processAllRemainingHeaders = false)
    show released ++ (popReady _ sync.processAllRemainingHeaders _).1 = [] ∨
      sync.redownloadBufferSize ≤ (popReady _ sync.processAllRemainingHeaders _).2.length
    rw [short] at parts ⊢
    rcases (popReady_some sync.redownloadBufferSize sync.redownloadHeaders).2 with none_ | exact_
    · rw [none_, nil_append] at parts
      rw [none_, append_nil, parts]
      exact held short
    · exact .inr (Nat.le_of_eq exact_.symm)
  · show (popReady _ sync.processAllRemainingHeaders _).2.length ≤ sync.redownloadBufferSize
    cases sync.processAllRemainingHeaders with
    | true => rw [popReady_all]; exact Nat.zero_le _
    | false => exact (popReady_some _ _).1

end LowWorkHeadersSync

end BitcoindRs
