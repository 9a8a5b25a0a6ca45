import BitcoindRs.P2p.HeadersSyncRun

/-!
An honest peer gets its chain through: it is not cut off in the first phase, the second phase starts when the shown chain
has the required work, and every header leaves the buffer once, in order, by the message that completes the work.
-/

namespace BitcoindRs
open Result Checked List
variable [Library]
variable {chain part : List Header} {messages : List HeadersMessage} {work : ℕ}

/-! ### Prefixes of one chain -/

theorem HeaderTip.Extends.of_isPrefix {network : Network} {tip : HeaderTip}
    (whole : tip.Extends network chain) (within : part <+: chain) : tip.Extends network part := by
  obtain ⟨rest, rfl⟩ := within
  exact (extends_append.mp whole).1

theorem le_workAfter (fits : work < 2 ^ 256) (headers : List Header) :
    work ≤ workAfter work headers ∧ workAfter work headers < 2 ^ 256 := by
  induction headers generalizing work with
  | nil => exact ⟨Nat.le_refl _, fits⟩
  | cons header rest ih =>
    have step : work ≤ addWorkSaturating work (Library.work header) ∧
        addWorkSaturating work (Library.work header) < 2 ^ 256 := by
      unfold addWorkSaturating
      omega
    exact ⟨Nat.le_trans step.1 (ih step.2).1, (ih step.2).2⟩

theorem workAfter_mono (fits : work < 2 ^ 256) (within : part <+: chain) :
    workAfter work part ≤ workAfter work chain := by
  obtain ⟨rest, rfl⟩ := within
  rw [workAfter_append]
  exact (le_workAfter (le_workAfter fits part).2 rest).1

variable [SaltedHash]

theorem SyncConstants.bitsAfter_isPrefix (c : SyncConstants) (tip : HeaderTip)
    (within : part <+: chain) : c.bitsAfter tip.height part <+: c.bitsAfter tip.height chain := by
  obtain ⟨rest, rfl⟩ := within
  rw [bitsAfter_append]
  exact prefix_append _ _

namespace LowWorkHeadersSync
variable {c : SyncConstants} {origin : HeaderTip} {chain shown got released headers : List Header} {sync : LowWorkHeadersSync}

/-! ### The loops do not fail -/

theorem Shown.exists_foldlM {previous : Header} (holds : Shown c origin shown sync previous)
    (whole : origin.Extends c.network chain) (bound : (c.bitsAfter origin.height chain).length ≤ c.maxCommitments)
    (within : shown ++ headers <+: chain) : ∃ next, headers.foldlM LowWorkHeadersSync.presyncHeader (sync, previous) = .ok next ∧
      Shown c origin (shown ++ headers) next.1 next.2 := by
  refine foldlM_succeeds (fun passed (now : LowWorkHeadersSync × Header) => Shown c origin (shown ++ passed) now.1 now.2) ?_ (by simpa using holds)
  rintro passed header ⟨sync, previous⟩ part holds
  have one : shown ++ passed ++ [header] <+: chain := by
    refine IsPrefix.trans ?_ within
    rwa [append_assoc, prefix_append_right_inj]
  have accepted := (HeaderTip.extends_concat.mp (whole.of_isPrefix one)).2
  rw [holds.tip] at accepted
  have few : (sync.recorded (satAddU32 sync.currentHeight 1) header).len ≤ c.maxCommitments := by
    have height : (origin.after (shown ++ passed)).height = sync.currentHeight := by rw [holds.tip]
    have recorded := toList_recorded sync header
    rw [holds.bits, holds.constants, ← height, ← SyncConstants.bitsAfter_concat] at recorded
    rw [← BitQueue.length_toList, ← height, recorded]
    exact Nat.le_trans (c.bitsAfter_isPrefix origin one).length_le bound
  have constants := holds.constants
  obtain ⟨next, step⟩ : ∃ next, LowWorkHeadersSync.presyncHeader (sync, previous) header = .ok next := by
    refine ⟨_, presyncHeader_ok.mpr ⟨?_, ?_, rfl⟩⟩
    · rw [← constants] at accepted
      exact accepted
    · rintro ⟨-, many⟩
      rw [← constants] at few
      exact absurd few (Nat.not_le_of_lt many)
  exact ⟨next, step, by rw [← append_assoc]; exact holds.presyncHeader step⟩

theorem Redownloading.exists_consumes (holds : Redownloading c shown origin got released sync) {header : Header}
    (within : sync.reaches header = false → got ++ [header] <+: shown) : ∃ commitments, sync.Consumes header commitments := by
  unfold Consumes
  split
  · rename_i falls
    have height : (origin.after got).height = sync.redownloadHeight := by rw [holds.tip]
    have before : sync.processAllRemainingHeaders = false := (Bool.or_eq_false_iff.mp falls.1).1
    obtain ⟨rest, bits⟩ := c.bitsAfter_isPrefix origin (within falls.1)
    rw [← holds.bits before, SyncConstants.bitsAfter_concat, append_assoc, height] at bits
    have front := append_cancel_left bits
    have constants := holds.constants
    subst constants
    rw [SyncConstants.bitAfter, show sync.constants.due = sync.due from rfl, if_pos falls.2, singleton_append] at front
    have spec := BitQueue.popFront_eq sync.commitments
    rw [← front] at spec
    obtain ⟨commitments, popped, -⟩ := spec
    exact ⟨commitments, popped⟩
  · exact ⟨_, rfl⟩

theorem Redownloading.exists_foldlM (holds : Redownloading c shown origin got released sync)
    (fits : c.chainStartWork < 2 ^ 256) (whole : origin.Extends c.network chain) (shown_part : shown <+: chain)
    (enough : c.minimumWork ≤ workAfter c.chainStartWork shown) (within : got ++ headers <+: chain) :
    ∃ next, headers.foldlM LowWorkHeadersSync.redownloadHeader sync = .ok next ∧
      Redownloading c shown origin (got ++ headers) released next := by
  refine foldlM_succeeds (fun passed => Redownloading c shown origin (got ++ passed) released) ?_ (by simpa using holds)
  intro passed header sync part holds
  have one : got ++ passed ++ [header] <+: chain := by
    refine IsPrefix.trans ?_ within
    rwa [append_assoc, prefix_append_right_inj]
  have accepted := (HeaderTip.extends_concat.mp (whole.of_isPrefix one)).2
  rw [holds.tip] at accepted
  have constants := holds.constants
  subst constants
  have short : sync.reaches header = false → got ++ passed ++ [header] <+: shown := by
    intro below
    rcases prefix_or_prefix_of_prefix one shown_part with inside | beyond
    · exact inside
    · have work := workAfter_mono fits beyond
      have least := of_decide_eq_false (Bool.or_eq_false_iff.mp below).2
      rw [workAfter_concat, ← holds.work] at work
      exact absurd (Nat.le_trans enough work) least
  obtain ⟨commitments, consumes⟩ := holds.exists_consumes short
  have step := redownloadHeader_ok.mpr ⟨accepted, commitments, consumes, rfl⟩
  exact ⟨_, step, by rw [← append_assoc]; exact holds.redownloadHeader step⟩

/-! ### One message of an honest peer -/

variable {start : Header} {messages : List HeadersMessage} {message : HeadersMessage}

theorem process_of_presync (some_ : message.headers ≠ []) (presync : sync.phase = .presync) :
    sync.process message.headers message.full = sync.processPresync message.headers message.full := by
  rw [process, if_neg (by simpa using some_), presync]

theorem process_of_redownload (some_ : message.headers ≠ []) (redownload : sync.phase = .redownload) :
    sync.process message.headers message.full = sync.processRedownload message.headers message.full := by
  rw [process, if_neg (by simpa using some_), redownload]

/-- In the first phase, with the bits the second one starts from. -/
def Presyncing (c : SyncConstants) (start : Header) (messages : List HeadersMessage) (sync : LowWorkHeadersSync) : Prop :=
  Shown c (c.shownOrigin start) (sentHeaders messages) sync sync.lastHeader ∧ sync.redownloadLastBits = start.bits

theorem Presyncing.process (holds : Presyncing c start messages sync) (whole : (c.shownOrigin start).Extends c.network chain)
    (bound : (c.bitsAfter c.chainStartHeight chain).length ≤ c.maxCommitments)
    (within : sentHeaders (messages ++ [message]) <+: chain) (some_ : message.headers ≠ [])
    (full : message.full = true ∨ c.minimumWork ≤ workAfter c.chainStartWork (sentHeaders (messages ++ [message]))) :
    ∃ next, sync.process message.headers message.full = (⟨true, true, [], false⟩, next) ∧
      if c.minimumWork ≤ workAfter c.chainStartWork (sentHeaders (messages ++ [message]))
      then Redownloading c (sentHeaders (messages ++ [message])) (c.origin start) [] [] next
      else Presyncing c start (messages ++ [message]) next := by
  obtain ⟨holds, bits⟩ := holds
  unfold Presyncing
  rw [sentHeaders_concat] at within full ⊢
  obtain ⟨⟨after, last⟩, run, -⟩ := holds.exists_foldlM whole bound within
  obtain ⟨shown, -, sameBits⟩ := foldlM_presyncHeader holds run
  have work : after.currentWork = workAfter c.chainStartWork (sentHeaders messages ++ message.headers) := shown.work
  have least : after.minimumWork = c.minimumWork := by rw [← shown.constants]; rfl
  rw [process_of_presync some_ holds.presync, processPresync, run, ← work, ← least]
  rw [← work, ← least] at full
  dsimp only
  by_cases enough : after.minimumWork ≤ after.currentWork
  · rw [if_pos enough]
    refine ⟨_, rfl, ?_⟩
    rw [if_pos enough]
    exact shown.beginRedownload (sameBits.trans bits) last
  · rw [if_neg enough, if_pos (full.resolve_right enough)]
    refine ⟨_, rfl, ?_⟩
    rw [if_neg enough]
    exact ⟨⟨shown.constants, shown.presync, shown.chain, shown.tip, shown.work, shown.bits, shown.bound⟩, sameBits.trans bits⟩

theorem Redownloading.process (holds : Redownloading c shown origin (sentHeaders messages) released sync)
    (fits : c.chainStartWork < 2 ^ 256) (whole : origin.Extends c.network chain) (shown_part : shown <+: chain)
    (enough : c.minimumWork ≤ workAfter c.chainStartWork shown)
    (within : sentHeaders (messages ++ [message]) <+: chain) (some_ : message.headers ≠ []) :
    ∃ ready next, Redownloading c shown origin (sentHeaders (messages ++ [message])) (released ++ ready) next ∧
      if c.minimumWork ≤ workAfter c.chainStartWork (sentHeaders (messages ++ [message]))
      then sync.process message.headers message.full = (⟨true, false, ready, true⟩, next) ∧
        released ++ ready = sentHeaders (messages ++ [message])
      else sync.process message.headers message.full = (⟨true, message.full, ready, !message.full⟩, next) := by
  rw [sentHeaders_concat] at within ⊢
  obtain ⟨after, run, got⟩ := holds.exists_foldlM fits whole shown_part enough within
  refine ⟨after.popReadyHeaders.1, after.popReadyHeaders.2, got.popReadyHeaders.1, ?_⟩
  rw [process_of_redownload some_ holds.redownload, processRedownload, run]
  have flag : (after.popReadyHeaders.2).processAllRemainingHeaders = after.processAllRemainingHeaders := rfl
  dsimp only
  rw [flag]
  split
  · rename_i completes
    have all : after.processAllRemainingHeaders = true := by
      by_contra short
      rcases got.unreached (by simpa using short) with none_ | below
      · exact some_ (append_eq_nil_iff.mp none_).2
      · rw [got.work] at below
        exact absurd completes (Nat.not_le_of_lt below)
    have empty : (after.popReadyHeaders.2).redownloadHeaders = [] := by
      show (popReady _ after.processAllRemainingHeaders _).2 = []
      rw [all, popReady_all]
    have buffer := got.popReadyHeaders.1.buffer
    rw [empty, append_nil] at buffer
    rw [all, empty]
    exact ⟨rfl, buffer.symm⟩
  · rename_i below
    have short : after.processAllRemainingHeaders = false := by
      by_contra all
      obtain ⟨first, part, reached⟩ := got.reached (by simpa using all)
      exact below (Nat.le_trans reached (workAfter_mono fits part))
    rw [short, Bool.and_false, Bool.not_false, Bool.true_and, Bool.false_or]

/-! ### Whole phases -/

def stateAfter (sync : LowWorkHeadersSync) (messages : List HeadersMessage) : LowWorkHeadersSync :=
  messages.foldl (fun sync message => (sync.process message.headers message.full).2) sync

def results (sync : LowWorkHeadersSync) : List HeadersMessage → List HeadersSyncResult
  | [] => []
  | message :: rest =>
    let (result, next) := sync.process message.headers message.full
    result :: next.results rest

theorem stateAfter_append (sync : LowWorkHeadersSync) (xs ys : List HeadersMessage) :
    sync.stateAfter (xs ++ ys) = (sync.stateAfter xs).stateAfter ys := List.foldl_append

theorem results_append (sync : LowWorkHeadersSync) (xs ys : List HeadersMessage) :
    sync.results (xs ++ ys) = sync.results xs ++ (sync.stateAfter xs).results ys := by
  induction xs generalizing sync with
  | nil => rfl
  | cons message xs ih => exact congrArg (_ :: ·) (ih _)

theorem run_concat {earlier : List HeadersMessage} {result : HeadersSyncResult} {next : LowWorkHeadersSync}
    (step : (sync.stateAfter earlier).process message.headers message.full = (result, next)) :
    sync.stateAfter (earlier ++ [message]) = next ∧ sync.results (earlier ++ [message]) = sync.results earlier ++ [result] := by
  rw [stateAfter_append, results_append]
  show ((sync.stateAfter earlier).process message.headers message.full).2 = next ∧
    sync.results earlier ++ [((sync.stateAfter earlier).process message.headers message.full).1] = _
  rw [step]
  exact ⟨rfl, rfl⟩

end LowWorkHeadersSync

/-- A chain cut into messages as an honest peer sends them: only the last one may be short. -/
structure SegmentsOf (chain : List Header) (messages : List HeadersMessage) : Prop where
  whole : sentHeaders messages = chain
  nonempty : ∀ message ∈ messages, message.headers ≠ []
  full : ∀ message ∈ messages.dropLast, message.full = true

/-- The work is short after every message, and the last message completes it. -/
structure SyncConstants.CompletedBy (c : SyncConstants) (messages : List HeadersMessage) (last : HeadersMessage) : Prop where
  short : ∀ done, done <+: messages → done ≠ [] → workAfter c.chainStartWork (sentHeaders done) < c.minimumWork
  enough : c.minimumWork ≤ workAfter c.chainStartWork (sentHeaders (messages ++ [last]))

omit [Library] [SaltedHash] in
theorem sentHeaders_isPrefix {part : List HeadersMessage} (within : part <+: messages) :
    sentHeaders part <+: sentHeaders messages := by
  obtain ⟨rest, rfl⟩ := within
  rw [sentHeaders, sentHeaders, flatMap_append]
  exact prefix_append _ _

omit [SaltedHash] in
theorem SyncConstants.exists_completedBy {c : SyncConstants} (fits : c.chainStartWork < 2 ^ 256) (some_ : messages ≠ [])
    (enough : c.minimumWork ≤ workAfter c.chainStartWork (sentHeaders messages)) :
    ∃ before last unused, messages = before ++ last :: unused ∧ c.CompletedBy before last := by
  induction messages using List.reverseRecOn with
  | nil => exact absurd rfl some_
  | append_singleton earlier message ih =>
    by_cases already : earlier ≠ [] ∧ c.minimumWork ≤ workAfter c.chainStartWork (sentHeaders earlier)
    · obtain ⟨before, last, unused, rfl, completed⟩ := ih already.1 already.2
      exact ⟨before, last, unused ++ [message], by simp, completed⟩
    · refine ⟨earlier, message, [], rfl, fun done part nonempty => ?_, enough⟩
      have nonempty' : earlier ≠ [] := by
        rintro rfl
        exact nonempty (prefix_nil.mp part)
      exact Nat.lt_of_le_of_lt (workAfter_mono fits (sentHeaders_isPrefix part))
        (Nat.lt_of_not_le fun reached => already ⟨nonempty', reached⟩)

omit [Library] [SaltedHash] in
theorem SegmentsOf.full_of_mem {unused : List HeadersMessage} {last : HeadersMessage}
    (segments : SegmentsOf chain (messages ++ last :: unused)) : ∀ message ∈ messages, message.full = true := by
  intro message sent
  refine segments.full message ?_
  rw [dropLast_append_of_ne_nil (by simp)]
  exact mem_append_left _ sent

omit [Library] [SaltedHash] in
theorem SegmentsOf.isPrefix {part : List HeadersMessage}
    (segments : SegmentsOf chain messages) (within : part <+: messages) : sentHeaders part <+: chain := by
  rw [← segments.whole]
  exact sentHeaders_isPrefix within

namespace LowWorkHeadersSync
variable {c : SyncConstants} {start : Header} {chain shown : List Header} {sync : LowWorkHeadersSync}
  {messages : List HeadersMessage} {origin : HeaderTip}

theorem Presyncing.run (holds : Presyncing c start [] sync) (whole : (c.shownOrigin start).Extends c.network chain)
    (bound : (c.bitsAfter c.chainStartHeight chain).length ≤ c.maxCommitments)
    (within : sentHeaders messages <+: chain) (nonempty : ∀ message ∈ messages, message.headers ≠ [])
    (full : ∀ message ∈ messages, message.full = true)
    (short : ∀ done, done <+: messages → done ≠ [] → workAfter c.chainStartWork (sentHeaders done) < c.minimumWork) :
    Presyncing c start messages (sync.stateAfter messages) ∧
      ∀ result ∈ sync.results messages, result = ⟨true, true, [], false⟩ := by
  induction messages using List.reverseRecOn with
  | nil => exact ⟨holds, fun _ none_ => (by cases none_)⟩
  | append_singleton earlier message ih =>
    have part : earlier <+: earlier ++ [message] := prefix_append _ _
    obtain ⟨reached, asked⟩ := ih ((sentHeaders_isPrefix part).trans within)
      (fun other sent => nonempty other (mem_append_left _ sent))
      (fun other sent => full other (mem_append_left _ sent)) (fun done inside => short done (inside.trans part))
    have below := short (earlier ++ [message]) prefix_rfl (by simp)
    have last : message ∈ earlier ++ [message] := by simp
    obtain ⟨next, step, kept⟩ := reached.process whole bound within (nonempty message last) (.inl (full message last))
    rw [if_neg (Nat.not_le_of_lt below)] at kept
    obtain ⟨state, answers⟩ := run_concat step
    rw [state, answers]
    refine ⟨kept, ?_⟩
    intro result given
    rcases mem_append.mp given with earlier_ | now
    · exact asked result earlier_
    · exact mem_singleton.mp now

theorem Redownloading.run (holds : Redownloading c shown origin [] [] sync) (fits : c.chainStartWork < 2 ^ 256)
    (whole : origin.Extends c.network chain) (shown_part : shown <+: chain)
    (enough : c.minimumWork ≤ workAfter c.chainStartWork shown) (within : sentHeaders messages <+: chain)
    (nonempty : ∀ message ∈ messages, message.headers ≠ []) (full : ∀ message ∈ messages, message.full = true)
    (short : ∀ done, done <+: messages → done ≠ [] → workAfter c.chainStartWork (sentHeaders done) < c.minimumWork) :
    Redownloading c shown origin (sentHeaders messages) ((sync.results messages).flatMap (·.ready)) (sync.stateAfter messages) ∧
      ∀ result ∈ sync.results messages, result = ⟨true, true, result.ready, false⟩ := by
  induction messages using List.reverseRecOn with
  | nil => exact ⟨holds, fun _ none_ => (by cases none_)⟩
  | append_singleton earlier message ih =>
    have part : earlier <+: earlier ++ [message] := prefix_append _ _
    obtain ⟨reached, asked⟩ := ih ((sentHeaders_isPrefix part).trans within)
      (fun other sent => nonempty other (mem_append_left _ sent))
      (fun other sent => full other (mem_append_left _ sent)) (fun done inside => short done (inside.trans part))
    have below := short (earlier ++ [message]) prefix_rfl (by simp)
    have last : message ∈ earlier ++ [message] := by simp
    obtain ⟨ready, next, kept, step⟩ := reached.process fits whole shown_part enough within (nonempty message last)
    rw [if_neg (Nat.not_le_of_lt below)] at step
    obtain ⟨state, answers⟩ := run_concat step
    rw [state, answers, flatMap_append, flatMap_singleton, full message last]
    refine ⟨kept, ?_⟩
    intro result given
    rcases mem_append.mp given with earlier_ | now
    · exact asked result earlier_
    · rw [mem_singleton.mp now]
      rfl

end LowWorkHeadersSync

/-- A peer that shows a chain with the required work and then sends it again, each time cut into messages as it likes,
is not cut off, and gets every header out by the message that completes the work. -/
theorem lowWorkHeadersSync_complete (network : Network) (minimumWork chainStartHeight chainStartWork : ℕ) (start : Header)
    (medianTimePast now offset salt : ℕ) (fits : chainStartWork < 2 ^ 256) (chain : List Header) (some_ : chain ≠ [])
    (first second : List HeadersMessage) (showing : SegmentsOf chain first) (sending : SegmentsOf chain second) :
    let sync := LowWorkHeadersSync.new network minimumWork (blockHash start) chainStartHeight chainStartWork start
      medianTimePast now offset salt
    let c := sync.constants
    (c.origin start).Extends network chain → minimumWork ≤ workAfter chainStartWork chain →
    (c.bitsAfter chainStartHeight chain).length ≤ c.maxCommitments →
    ∃ shown last unused again final rest, first = shown ++ last :: unused ∧ second = again ++ final :: rest ∧
      c.CompletedBy shown last ∧ c.CompletedBy again final ∧
      (∀ done, done <+: shown → (sync.stateAfter done).phase = .presync) ∧
      (∀ result ∈ sync.results (shown ++ [last]), result = ⟨true, true, [], false⟩) ∧
      let machine := sync.stateAfter (shown ++ [last])
      machine.phase = .redownload ∧
      (∀ result ∈ machine.results again, result = ⟨true, true, result.ready, false⟩) ∧
      (∃ ready, machine.results (again ++ [final]) = machine.results again ++ [⟨true, false, ready, true⟩]) ∧
      (machine.results (again ++ [final])).flatMap (·.ready) = sentHeaders (again ++ [final]) := by
  intro sync c linked enough bound
  have cut : ∀ {messages : List HeadersMessage}, SegmentsOf chain messages →
      ∃ before last unused, messages = before ++ last :: unused ∧ c.CompletedBy before last := by
    intro messages segments
    refine SyncConstants.exists_completedBy fits ?_ (by rw [segments.whole]; exact enough)
    rintro rfl
    exact some_ segments.whole.symm
  obtain ⟨shown, last, unused, rfl, shownWith⟩ := cut showing
  obtain ⟨again, final, rest, rfl, sentWith⟩ := cut sending
  have begins : LowWorkHeadersSync.Presyncing c start [] sync :=
    ⟨⟨rfl, rfl, trivial, rfl, rfl, rfl, Nat.zero_le _⟩, rfl⟩
  have presync : ∀ {done : List HeadersMessage}, done <+: shown → LowWorkHeadersSync.Presyncing c start done
      (sync.stateAfter done) ∧ ∀ result ∈ sync.results done, result = ⟨true, true, [], false⟩ := by
    intro done part
    refine begins.run linked bound (showing.isPrefix (part.trans (prefix_append _ _)))
      (fun message sent => showing.nonempty message (mem_append_left _ (part.subset sent)))
      (fun message sent => showing.full_of_mem message (part.subset sent))
      (fun early inside => shownWith.short early (inside.trans part))
  have shown_part : sentHeaders (shown ++ [last]) <+: chain := showing.isPrefix ⟨unused, by simp⟩
  have sent_part : sentHeaders (again ++ [final]) <+: chain := sending.isPrefix ⟨rest, by simp⟩
  -- The message that completes the work of the first phase.
  obtain ⟨machine, moves, downloading⟩ := (presync prefix_rfl).1.process linked bound shown_part
    (showing.nonempty last (by simp)) (.inr shownWith.enough)
  rw [if_pos shownWith.enough] at downloading
  obtain ⟨state, answers⟩ := LowWorkHeadersSync.run_concat moves
  obtain ⟨reached, asked⟩ := downloading.run fits linked shown_part shownWith.enough
    (sending.isPrefix (prefix_append again (final :: rest)))
    (fun message sent => sending.nonempty message (mem_append_left _ sent)) sending.full_of_mem sentWith.short
  -- The message that completes the work of the second phase.
  obtain ⟨ready, finished, -, completes⟩ := reached.process fits linked shown_part shownWith.enough sent_part
    (sending.nonempty final (by simp))
  rw [if_pos sentWith.enough] at completes
  obtain ⟨-, lastAnswers⟩ := LowWorkHeadersSync.run_concat completes.1
  refine ⟨shown, last, unused, again, final, rest, rfl, rfl, shownWith, sentWith, fun done part => (presync part).1.1.presync,
    ?_, ?_⟩
  · rw [answers]
    intro result given
    rcases mem_append.mp given with earlier | now
    · exact (presync prefix_rfl).2 result earlier
    · exact mem_singleton.mp now
  · rw [state]
    refine ⟨downloading.redownload, asked, ⟨ready, lastAnswers⟩, ?_⟩
    rw [lastAnswers, flatMap_append, flatMap_singleton]
    exact completes.2

omit [Library] [SaltedHash] in
theorem lowWorkHeadersSync_complete_sample : let _ := Library.sample
    let _ := SaltedHash.sample
    let sync := LowWorkHeadersSync.new .regtest 0x20800001 7 100 0 sampleHeaders.1 0 1000000 101 0
    ∃ shown last unused, sampleHeaders.2.map (⟨[·], true⟩) = shown ++ last :: unused ∧
      (sync.stateAfter (shown ++ [last])).phase = .redownload := by
  intro _ _ sync
  have segments : SegmentsOf sampleHeaders.2 (sampleHeaders.2.map (⟨[·], true⟩)) := by
    refine ⟨rfl, ?_, ?_⟩ <;> simp [sampleHeaders]
  have linked : (sync.constants.origin sampleHeaders.1).Extends .regtest sampleHeaders.2 :=
    ⟨⟨rfl, rfl, by decide +kernel⟩, ⟨rfl, rfl, by decide +kernel⟩, trivial⟩
  obtain ⟨shown, last, unused, -, -, -, cut, -, -, -, -, -, moved, -⟩ :=
    lowWorkHeadersSync_complete .regtest 0x20800001 100 0 sampleHeaders.1 0 1000000 101 0 (by decide) sampleHeaders.2
      (by decide) _ _ segments segments linked (by decide +kernel) (by decide +kernel)
  exact ⟨shown, last, unused, cut, moved⟩

end BitcoindRs
