import BitcoindRs.Chain.Activate

/-!
The verification of the recent part of the active chain: the records are read from the oldest block on, then the suffix
is disconnected and connected again on a temporary map.
-/

namespace BitcoindRs
open Result FMap Ledger

/-- What the block store answers to a read: an error for a damaged record, nothing for a missing one. -/
structure BlockReads where
  get : BlockHash → Except Error (Option Block)
  getUndo : BlockHash → Except Error (Option (List (List StoredUndo)))

/-- A block of the verified range; the undo record is loaded from level two on. -/
structure VerifiedBlock where
  height : ℕ
  block : Block
  undo : Option (List (List StoredUndo))

def Transaction.relevantOutpoints [Library] (tx : Transaction) : List OutPoint := tx.outpoints ++ tx.prevouts

def sparseView (utxos : UtxoMap) (relevant : List OutPoint) : UtxoMap :=
  insertAll ∅ (relevant.filterMap fun outpoint => (utxos.lookup outpoint).map fun entry => (outpoint, entry))

namespace ChainState
variable [Library]

def reads (st : ChainState) : BlockReads :=
  ⟨fun hash => .ok (st.bodies.lookup hash), fun hash => .ok (st.undo.lookup hash)⟩

def isPruned (st : ChainState) (pruneMode : Bool) : Bool := pruneMode || st.pruneHeight.isSome

def tipUtxos (st : ChainState) : UtxoMap := if st.coins.utxosMaterialized then st.coins.utxos else st.coins.utxoStore

def replayActiveUtxosBackwards (st : ChainState) (store : BlockReads) (hash : BlockHash) :
    Except Error (Option UtxoMap) :=
  if st.isActiveBlock hash = false then .ok none
  else do
    let node ← okOr (st.blockIndex.lookup hash) (.message "active block height is unavailable")
    let above := (List.range' (node.height + 1) (st.height - node.height)).filterMap fun height =>
      (st.active.hashes[height]?).map fun hash => (height, hash)
    if st.height ≤ node.height then .ok (some st.tipUtxos)
    else if above.any fun (height, hash) => isBip30Repeat st.config.params.network height hash ||
      isBip30Unspendable st.config.params.network height hash then .ok none
    else above.reverse.foldlM (disconnectStored store) (some st.tipUtxos)
where
  /-- One block back; a missing record ends the walk without a result. -/
  disconnectStored (store : BlockReads) (utxos : Option UtxoMap) (entry : ℕ × BlockHash) :
      Except Error (Option UtxoMap) :=
    match utxos with
    | none => .ok none
    | some utxos => do
      let block ← store.get entry.2
      match block with
      | none => .ok none
      | some block => do
        let undo ← store.getUndo entry.2
        match undo with
        | none => .ok none
        | some undo => (disconnectBlockFromUtxos utxos block undo).map some

def replaySideChainBlock (st : ChainState) (utxos : UtxoMap) (block : Block) (hash : BlockHash) : Except Error UtxoMap := do
  let node ← okOr (st.blockIndex.lookup hash) (.message "side-chain block index entry is missing")
  let parentHash := block.header.prevBlockhash
  let _ ← okOr (st.blockIndex.lookup parentHash) (.message "side-chain parent block index entry is missing")
  let medianTimePast := st.medianTimePastForParent parentHash
  validation (st.validateHeaderContext block.header parentHash medianTimePast)
  let _ ← validation (validateBlockStructure st.config.params st.config.signetChallenge block node.height)
  let application ← validateBlockTransactions (st.blockRules node.height block.blockHash parentHash true) block
    block.txids node.height utxos medianTimePast
  .ok (applyBlockToUtxos utxos block node.height medianTimePast application.spentEntries)

def replayStored (st : ChainState) (store : BlockReads) (utxos : Option UtxoMap) (hash : BlockHash) :
    Except Error (Option UtxoMap) :=
  match utxos with
  | none => .ok none
  | some utxos => do
    let block ← store.get hash
    match block with
    | none => .ok none
    | some block => (st.replaySideChainBlock utxos block hash).map some

def replayUtxosForBlock (st : ChainState) (store : BlockReads) (hash : BlockHash) : Except Error (Option UtxoMap) := do
  let backwards ← st.replayActiveUtxosBackwards store hash
  match backwards with
  | some utxos => .ok (some utxos)
  | none => match st.pathTo hash with
    | .error _ => .ok none
    | .ok path => do
      let genesis ← store.get st.networkGenesisHash
      match genesis with
      | none => .ok none
      | some _ => (path.drop 1).foldlM (st.replayStored store) (some ∅)

def verificationCount (st : ChainState) (depth : ℕ) : ℕ := if depth = 0 ∨ st.height < depth then st.height else depth

def firstVerified (st : ChainState) (depth : ℕ) : ℕ := st.height - st.verificationCount depth + 1

def verifyRecords (st : ChainState) (store : BlockReads) (checkLevel height : ℕ) (hash : BlockHash) (node : BlockNode)
    (block : Block) : Except Error VerifiedBlock := do
  bailIf (block.header ≠ node.header)
    (.message s!"stored block header does not match active index at height {height}")
  let segwit := st.config.params.buried.segwit
  runIf (1 ≤ checkLevel) ((validateBlockStructureWithOptionsInternal block block.txids st.config.params height maxMoney
    st.config.signetChallenge ⟨true, true, false⟩).mapError (fun _ => Error.message
      s!"block structure verification failed at height {height} (segwit activation {segwit})") >>= fun _ => .ok ())
  if 2 ≤ checkLevel then do
    let stored ← store.getUndo hash
    let undo ← okOr stored (.message ("undo for active block " ++ displayHash hash ++ " is missing"))
    validateBlockUndo block undo
    .ok ⟨height, block, some undo⟩
  else .ok ⟨height, block, none⟩

def verifyHeight (st : ChainState) (store : BlockReads) (pruned : Bool) (checkLevel height : ℕ) :
    Except Error (Option VerifiedBlock) := do
  let hash ← okOr st.active.hashes[height]? (.message s!"active chain is missing height {height}")
  let node ← okOr (st.blockIndex.lookup hash) (.message ("active block " ++ displayHash hash ++ " is not indexed"))
  let stored ← store.get hash
  match stored with
  | some block => (st.verifyRecords store checkLevel height hash node block).map some
  | none =>
    if pruned then .ok none
    else .error (.message ("active block " ++ displayHash hash ++ " is missing from block store"))

def verifyHeights (st : ChainState) (store : BlockReads) (pruned : Bool) (checkLevel : ℕ) :
    List ℕ → Except Error (Option (List VerifiedBlock))
  | [] => .ok (some [])
  | height :: rest => do
    let checked ← st.verifyHeight store pruned checkLevel height
    match checked with
    | none => .ok none
    | some block => (verifyHeights st store pruned checkLevel rest).map (Option.map (block :: ·))

def containsBip30Repeat (st : ChainState) (blocks : List VerifiedBlock) : Bool :=
  blocks.any fun b => isBip30Repeat st.config.params.network b.height b.block.blockHash

def originalUtxos (st : ChainState) (blocks : List VerifiedBlock) : UtxoMap :=
  if st.containsBip30Repeat blocks then st.tipUtxos
  else sparseView st.tipUtxos (blocks.flatMap fun b => b.block.txdata.flatMap Transaction.relevantOutpoints)

def disconnectVerified (st : ChainState) (utxos : UtxoMap) (b : VerifiedBlock) : Except Error UtxoMap :=
  disconnectBlockForVerification st.config.params.network utxos b.block b.height (b.undo.getD [])

/-- Scripts are checked whether or not they were when the block was connected. -/
def verificationRules (st : ChainState) (b : VerifiedBlock) : BlockRules :=
  { st.blockRules b.height b.block.blockHash b.block.header.prevBlockhash true with skipScriptChecks := false }

def connectVerified (st : ChainState) (utxos : UtxoMap) (b : VerifiedBlock) : Except Error UtxoMap := do
  let medianTimePast := st.medianTimePastForParent b.block.header.prevBlockhash
  let application ← validateBlockTransactions (st.verificationRules b) b.block b.block.txids b.height utxos
    medianTimePast
  .ok (applyBlockToUtxos utxos b.block b.height medianTimePast application.spentEntries)

/-- The map the suffix is connected to: the disconnected one, or a replay if an earlier coin was overwritten. -/
def baseUtxos (st : ChainState) (store : BlockReads) (blocks : List VerifiedBlock) (firstHeight : ℕ)
    (disconnected : UtxoMap) : Except Error UtxoMap :=
  if st.containsBip30Repeat blocks then do
    let baseHash ← okOr st.active.hashes[firstHeight - 1]? (.message "verification prefix is missing")
    let replayed ← st.replayUtxosForBlock store baseHash
    okOr replayed (.message "verification prefix UTXO replay did not reach its base")
  else .ok disconnected

def verifyCoins (st : ChainState) (store : BlockReads) (checkLevel firstHeight : ℕ) (blocks : List VerifiedBlock) :
    Except Error Unit := do
  let original := st.originalUtxos blocks
  let disconnected ← blocks.reverse.foldlM st.disconnectVerified original
  if checkLevel < 4 then .ok ()
  else do
    let base ← st.baseUtxos store blocks firstHeight disconnected
    let connected ← blocks.foldlM st.connectVerified base
    bailIf (connected ≠ original) (.message "active chain UTXO set changed during verification")

def verifyActiveChainWithLevel (st : ChainState) (store : BlockReads) (pruneMode : Bool) (checkLevel depth : ℕ) :
    Except Error Unit :=
  let checkLevel := min checkLevel 4
  if st.height = 0 then .ok ()
  else do
    let first := st.firstVerified depth
    let checked ← st.verifyHeights store (st.isPruned pruneMode) checkLevel
      (List.range' first (st.verificationCount depth))
    match checked with
    | none => .ok ()
    | some blocks => if checkLevel < 3 then .ok () else st.verifyCoins store checkLevel first blocks

section pruned
variable {st : ChainState} {store : BlockReads} {pruneMode : Bool} {checkLevel depth : ℕ}

def bodyStored (st : ChainState) (store : BlockReads) (height : ℕ) : Bool :=
  match st.active.hashes[height]? with
  | none => false
  | some hash => match store.get hash with
    | .ok none => false
    | _ => true

/-- How many blocks below the tip have a stored body without a gap. -/
def storedSuffix (st : ChainState) (store : BlockReads) : ℕ :=
  ((List.range' 1 st.height).reverse.takeWhile (st.bodyStored store)).length

/-- The call with the depth reduced to the stored suffix; without a stored tip there is nothing to check. -/
def verifyStoredSuffix (st : ChainState) (store : BlockReads) (pruneMode : Bool) (checkLevel : ℕ) : Except Error Unit :=
  if st.storedSuffix store = 0 then .ok ()
  else st.verifyActiveChainWithLevel store pruneMode checkLevel (st.storedSuffix store)

omit [Library] in
theorem verificationCount_pos (depth : ℕ) (tip : 0 < st.height) : 0 < st.verificationCount depth := by
  unfold verificationCount
  split <;> omega

theorem verifyActiveChainWithLevel_stops (pruned : st.isPruned pruneMode = true) {hash : BlockHash} {node : BlockNode}
    (oldest : st.active.hashes[st.firstVerified depth]? = some hash) (indexed : st.blockIndex.lookup hash = some node)
    (missing : store.get hash = .ok none) : st.verifyActiveChainWithLevel store pruneMode checkLevel depth = .ok () := by
  unfold verifyActiveChainWithLevel
  dsimp only
  by_cases genesis : st.height = 0
  · rw [if_pos genesis]
  · have positive : 0 < st.verificationCount depth := verificationCount_pos depth (Nat.pos_of_ne_zero genesis)
    obtain ⟨count, more⟩ := Nat.exists_eq_succ_of_ne_zero positive.ne'
    have stops : st.verifyHeight store (st.isPruned pruneMode) (min checkLevel 4) (st.firstVerified depth) = .ok none := by
      unfold verifyHeight
      rw [oldest, okOr, ok_bind, indexed, okOr, ok_bind, missing, ok_bind, pruned]
      rfl
    rw [if_neg genesis, more, List.range'_succ, verifyHeights, stops]
    rfl

theorem verifyActiveChainWithLevel_unindexed (tip : 0 < st.height) {hash : BlockHash}
    (oldest : st.active.hashes[st.firstVerified depth]? = some hash) (unindexed : st.blockIndex.lookup hash = none) :
    ∃ e, st.verifyActiveChainWithLevel store pruneMode checkLevel depth = .error e := by
  unfold verifyActiveChainWithLevel
  dsimp only
  obtain ⟨count, more⟩ := Nat.exists_eq_succ_of_ne_zero (verificationCount_pos depth tip).ne'
  rw [if_neg (Nat.pos_iff_ne_zero.mp tip), more, List.range'_succ, verifyHeights, verifyHeight, oldest, okOr, ok_bind,
    unindexed]
  exact ⟨_, rfl⟩

def samplePruned : ChainState :=
  let tip := sampleBlock 2 [sampleCoinbase 2 5000000000]
  { ChainState.sample ∅ with
    blockIndex := (((∅ : BlockIndex).insert 0 ⟨⟨1, 0, 0, 0, 0, 0⟩, 0, 1, none⟩).insert 1
      ⟨⟨1, 0, 0, 1, 0, 1⟩, 1, 2, none⟩).insert 2 ⟨tip.header, 2, 3, none⟩
    active := ⟨[0, 1, 2], [⟨1, 0, 0, 0, 0, 0⟩, ⟨1, 0, 0, 1, 0, 1⟩, tip.header], [1, 1, 1], [1, 2, 3]⟩
    bodies := (∅ : FMap BlockHash Block).insert 2 tip
    pruneHeight := some 2 }

end pruned

end ChainState

end BitcoindRs
