import BitcoindRs.Chain.Activate
import BitcoindRs.Chain.BlockIndex

/-!
Everything that files an entry in the block index: header batches, blocks off the active tip, persisted headers and
stored bodies after a restart.
-/

namespace BitcoindRs
open Result FMap Ancestry BlockIndex
variable [Library]

namespace ChainState

def indexChild (st : ChainState) (header : Header) (parent : BlockNode) : ChainState := { st with
  blockIndex := st.blockIndex.insert (blockHash header) ⟨header, parent.height + 1,
    parent.chainWork + Library.work header,
    st.ancestorHash header.prevBlockhash (blockIndexSkipHeight (parent.height + 1))⟩ }

def acceptHeader (st : ChainState) (header : Header) : Except Error (ChainState × Bool) :=
  let hash := blockHash header
  let parentHash := header.prevBlockhash
  match st.blockIndex.lookup hash with
  | some existing => do
    bailIf (existing.header ≠ header) (.message ("header hash collision for " ++ displayHash hash))
    bailIf (st.hasInvalidAncestor hash) (.message ("header " ++ displayHash hash ++ " is on an invalidated branch"))
    .ok (st, false)
  | none => do
    let parent ← okOr (st.blockIndex.lookup parentHash) (.message ("header " ++ displayHash hash ++
      " has an unknown parent " ++ displayHash parentHash))
    bailIf (st.hasInvalidAncestor parentHash) (.message ("header " ++ displayHash hash ++
      " has an invalidated parent " ++ displayHash parentHash))
    validation (st.validateHeaderContext header parentHash (st.medianTimePastForParent parentHash))
    .ok (st.indexChild header parent, true)

/-- The hashes of a batch and its new headers. The headers before a failing one stay indexed. -/
def acceptHeadersInternal : ChainState → List Header → Outcome (List BlockHash × List Header)
  | st, [] => (.ok ([], []), st)
  | st, header :: headers => match st.acceptHeader header with
    | .error error => (.error error, st)
    | .ok (next, inserted) => match acceptHeadersInternal next headers with
      | (.error error, last) => (.error error, last)
      | (.ok (hashes, insertedHeaders), last) =>
        (.ok (blockHash header :: hashes, if inserted then header :: insertedHeaders else insertedHeaders), last)

def insertSideChainBody (st : ChainState) (block : Block) : ChainState := { st with
  bodies := if (st.bodies.lookup block.blockHash).isNone then st.bodies.insert block.blockHash block else st.bodies }

/-- A block whose parent is not the tip: its context is checked, its body stored and its header indexed. A block that
may become a candidate gets an arrival number, one whose ancestry is incomplete does not. -/
def acceptSideChainBlock (st : ChainState) (block : Block) (candidate : Bool) : Except Error ChainState := do
  let hash := block.blockHash
  let parentHash := block.header.prevBlockhash
  let parent ← okOr (st.blockIndex.lookup parentHash) (.message ("block " ++ displayHash hash ++
    " has an unknown parent " ++ displayHash parentHash))
  bailIf (st.hasInvalidAncestor parentHash) (.message ("block " ++ displayHash hash ++ " is on an invalidated branch"))
  validation (st.validateHeaderContext block.header parentHash (st.medianTimePastForParent parentHash))
  let _ ← validation (validateBlockStructure st.config.params st.config.signetChallenge block (parent.height + 1))
  let indexed := (st.insertSideChainBody block).indexChild block.header parent
  .ok { indexed with arrival := if candidate then indexed.arrival.assignBlockSequenceId hash else indexed.arrival }

/-- One persisted header; a header whose parent is not indexed yet is left for the next pass. -/
def indexPersistedHeader (pass : ChainState × List Header) (header : Header) : Except Error (ChainState × List Header) :=
  let (st, remaining) := pass
  let hash := blockHash header
  match st.blockIndex.lookup hash with
  | some existing => do
    bailIf (existing.header ≠ header) (.message ("header hash collision for " ++ displayHash hash))
    .ok (st, remaining)
  | none => match st.blockIndex.lookup header.prevBlockhash with
    | none => .ok (st, remaining ++ [header])
    | some parent =>
      if st.hasInvalidAncestor header.prevBlockhash then .ok (st.indexChild header parent, remaining)
      else match st.acceptHeadersInternal [header] with
        | (.error error, _) => .error error
        | (.ok _, next) => .ok (next, remaining)

/-- Passes over the persisted headers until none is left; a pass without progress fails. -/
def indexPersistedPasses : ℕ → ChainState → List Header → Except Error ChainState
  | 0, st, _ => .ok st
  | _ + 1, st, [] => .ok st
  | fuel + 1, st, header :: pending => do
    let (next, remaining) ← (header :: pending).foldlM indexPersistedHeader (st, [])
    match remaining with
    | [] => .ok next
    | first :: rest => do
      bailIf (rest.length = pending.length) (.message ("persisted header " ++ displayHash (blockHash first) ++
        " has an unknown parent " ++ displayHash first.prevBlockhash))
      indexPersistedPasses fuel next (first :: rest)

/-- Every pass but the last leaves fewer headers, so there are no more passes than headers. -/
def indexPersistedHeaders (st : ChainState) (headers : List Header) : Except Error ChainState :=
  indexPersistedPasses headers.length st headers

abbrev Pending := FMap BlockHash (List (BlockHash × Header))

omit [Library] in
def Pending.push (pending : Pending) (entry : BlockHash × Header) : Pending :=
  pending.insert entry.2.prevBlockhash ((pending.lookup entry.2.prevBlockhash).getD [] ++ [entry])

omit [Library] in
def sortStoredHeader (index : BlockIndex) (sorted : List (BlockHash × Header) × Pending) (entry : BlockHash × Header) :
    List (BlockHash × Header) × Pending :=
  if (index.lookup entry.1).isSome then sorted
  else if (index.lookup entry.2.prevBlockhash).isSome then (sorted.1 ++ [entry], sorted.2)
  else (sorted.1, sorted.2.push entry)

/-- The queue of headers with an indexed parent; every stored header enters it at most once. -/
def drainReady : ℕ → ChainState → List (BlockHash × Header) → Pending → ChainState
  | 0, st, _, _ => st
  | _ + 1, st, [], _ => st
  | fuel + 1, st, (hash, header) :: ready, pending =>
    if (st.blockIndex.lookup hash).isSome then drainReady fuel st ready pending
    else match st.blockIndex.lookup header.prevBlockhash with
      | none => drainReady fuel st ready (pending.push (hash, header))
      | some parent =>
        drainReady fuel (st.indexChild header parent) (ready ++ (pending.lookup hash).getD []) (pending.erase hash)

/-- `rebuild_block_index`, for the headers of the stored bodies in file order. -/
def rebuildBlockIndex (st : ChainState) (orderedHeaders : List (BlockHash × Header)) : Except Error ChainState :=
  if orderedHeaders.all fun entry => (st.blockIndex.lookup entry.1).isSome then .ok st
  else if st.shutdownInterrupt then .error (.message "block validation interrupted by shutdown")
  else
    let (ready, pending) := orderedHeaders.foldl (sortStoredHeader st.blockIndex) ([], ∅)
    .ok (drainReady orderedHeaders.length st ready pending)

section frame
variable {st st' : ChainState}

theorem acceptHeader_active {header : Header} {inserted : Bool} (h : st.acceptHeader header = .ok (st', inserted)) :
    st'.active = st.active := by
  unfold acceptHeader at h
  dsimp only at h
  split at h
  · obtain ⟨-, h⟩ := guard_ok h
    obtain ⟨-, h⟩ := guard_ok h
    cases h
    rfl
  · obtain ⟨parent, -, h⟩ := bind_ok h
    obtain ⟨-, h⟩ := guard_ok h
    obtain ⟨_, -, h⟩ := bind_ok h
    cases h
    rfl

theorem acceptHeadersInternal_active (headers : List Header) :
    (st.acceptHeadersInternal headers).2.active = st.active := by
  induction headers generalizing st with
  | nil => rfl
  | cons header headers ih =>
    rw [acceptHeadersInternal]
    split
    · rfl
    rename_i next inserted accepted
    have rest : (next.acceptHeadersInternal headers).2.active = st.active := ih.trans (acceptHeader_active accepted)
    split <;> rename_i ended <;> rwa [ended] at rest

theorem indexPersistedHeader_active {header : Header} {remaining remaining' : List Header}
    (h : indexPersistedHeader (st, remaining) header = .ok (st', remaining')) : st'.active = st.active := by
  unfold indexPersistedHeader at h
  dsimp only at h
  split at h
  · obtain ⟨-, h⟩ := guard_ok h
    cases h
    rfl
  split at h
  · cases h
    rfl
  split at h
  · cases h
    rfl
  have accepted : (st.acceptHeadersInternal [header]).2.active = st.active := acceptHeadersInternal_active [header]
  split at h
  · cases h
  · rename_i ended
    cases h
    rwa [ended] at accepted

theorem indexPersistedPasses_active (fuel : ℕ) {headers : List Header}
    (h : indexPersistedPasses fuel st headers = .ok st') : st'.active = st.active := by
  induction fuel generalizing st headers with
  | zero =>
    cases h
    rfl
  | succ fuel ih =>
    rcases headers with _ | ⟨header, pending⟩
    · cases h
      rfl
    rw [indexPersistedPasses] at h
    obtain ⟨⟨next, remaining⟩, pass, h⟩ := bind_ok h
    have kept : next.active = st.active := foldlM_invariant (fun _ (s : ChainState × List Header) => s.1.active = st.active)
      (fun passed ⟨s, left⟩ x ⟨t, left'⟩ before step => (indexPersistedHeader_active step).trans before) pass rfl
    rcases remaining with _ | ⟨first, rest⟩
    · cases h
      exact kept
    · obtain ⟨-, h⟩ := guard_ok h
      exact (ih h).trans kept

theorem drainReady_active (fuel : ℕ) (ready : List (BlockHash × Header)) (pending : Pending) :
    (drainReady fuel st ready pending).active = st.active := by
  induction fuel generalizing st ready pending with
  | zero => rfl
  | succ fuel ih =>
    rcases ready with _ | ⟨⟨hash, header⟩, ready⟩
    · rfl
    rw [drainReady]
    split
    · exact ih ready pending
    split
    · exact ih ready _
    · exact ih _ _

theorem rebuildBlockIndex_active {orderedHeaders : List (BlockHash × Header)}
    (h : st.rebuildBlockIndex orderedHeaders = .ok st') : st'.active = st.active := by
  unfold rebuildBlockIndex at h
  split at h
  · cases h
    rfl
  split at h
  · cases h
  cases h
  exact drainReady_active _ _ _

end frame

end ChainState

end BitcoindRs
