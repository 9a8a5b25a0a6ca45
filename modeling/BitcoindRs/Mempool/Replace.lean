import BitcoindRs.Mempool.Mining

/-! Replacement by fee, the eviction of a sibling and the admission of packages. -/

namespace BitcoindRs
open Checked Result
variable [Library] [PolicyLibrary] [HashOrder ℕ]

abbrev FeeChunk := ℤ × ℕ

def compareFeeRate (leftFee : ℤ) (leftSize : ℕ) (rightFee : ℤ) (rightSize : ℕ) : Ordering :=
  if leftSize = 0 ∨ rightSize = 0 then compare leftSize rightSize
  else compare (satI128 (leftFee * rightSize)) (satI128 (rightFee * leftSize))

/-- A chunk joins the chunks before it that pay less. The chunks before it are listed backwards. -/
def mergeChunk : FeeChunk → List FeeChunk → List FeeChunk
  | right, [] => [right]
  | right, left :: rest =>
    if compareFeeRate left.1 left.2 right.1 right.2 = .lt
    then mergeChunk (satI128 (left.1 + right.1), satAddU64 left.2 right.2) rest else right :: left :: rest

def appendFeerateChunk (chunks : List FeeChunk) (fee : ℤ) (size : ℕ) : List FeeChunk :=
  if size = 0 then chunks else mergeChunk (fee, size) chunks

def sortFeeRateChunks (chunks : List FeeChunk) : List FeeChunk :=
  chunks.insertionSort fun left right =>
    (compareFeeRate right.1 right.2 left.1 left.2).then (compare right.2 left.2) ≠ .gt

/-- One of two diagrams that are walked together: what is ahead, what has been passed and whether it was ever better. -/
structure DiagramSide where
  ahead : List FeeChunk
  fee : ℤ
  size : ℕ
  better : Bool

/-- The side `active` passes its next chunk. -/
def advanceDiagram (active other : DiagramSide) (chunk : FeeChunk) (ahead : List FeeChunk) : DiagramSide × DiagramSide :=
  let pointFee := satI128 (active.fee + chunk.1)
  let pointSize := satAddU64 active.size chunk.2
  let slopeFee := satI128 (pointFee - other.fee)
  let slopeSize := pointSize - other.size
  let (comparison, moved) := match other.ahead with
    | [] => (compareFeeRate slopeFee slopeSize 0 1, other)
    | next :: rest =>
      let nextFee := satI128 (other.fee + next.1)
      let nextSize := satAddU64 other.size next.2
      (compareFeeRate slopeFee slopeSize (satI128 (nextFee - other.fee)) (nextSize - other.size),
        if nextSize = pointSize then { other with ahead := rest, fee := nextFee, size := nextSize } else other)
  (⟨ahead, pointFee, pointSize, active.better || comparison == .gt⟩, { moved with better := moved.better || comparison == .lt })

def compareDiagramLoop : ℕ → DiagramSide → DiagramSide → Option Ordering
  | 0, left, right =>
    if left.better = right.better then some .eq else if left.better then some .gt else some .lt
  | rounds + 1, left, right =>
    let step (pair : DiagramSide × DiagramSide) : Option Ordering :=
      if pair.1.better && pair.2.better then none else compareDiagramLoop rounds pair.1 pair.2
    match left.ahead, right.ahead with
    | [], [] => if left.better = right.better then some .eq else if left.better then some .gt else some .lt
    | [], chunk :: rest => step (advanceDiagram right left chunk rest).swap
    | chunk :: rest, [] => step (advanceDiagram left right chunk rest)
    | chunk :: rest, chunk' :: rest' =>
      if satAddU64 right.size chunk'.2 < satAddU64 left.size chunk.2 then step (advanceDiagram right left chunk' rest').swap
      else step (advanceDiagram left right chunk rest)

def compareFeeRateDiagrams (left right : List FeeChunk) : Option Ordering :=
  compareDiagramLoop (left.length + right.length) ⟨left, 0, 0, false⟩ ⟨right, 0, 0, false⟩

namespace Mempool

def feerateChunks (pool : Mempool) (keep : Txid → Bool) : List FeeChunk :=
  ((pool.miningOrder (u64Bound - 1) 0).foldl (fun chunks txid => match pool.entries.lookup txid with
    | none => chunks
    | some entry =>
      if keep txid then appendFeerateChunk chunks (pool.modifiedFeeSat txid entry.feeSat) entry.vsize else chunks) []).reverse

def feerateDiagram (pool : Mempool) : List FeeChunk := pool.feerateChunks fun _ => true

def improvesFeerateDiagram (pool candidate : Mempool) : Bool :=
  compareFeeRateDiagrams candidate.feerateDiagram pool.feerateDiagram = some .gt

def improvesFeerateDiagramForReplacement (pool candidate : Mempool) (replacement : Txid) (conflicts : List Txid) : Bool :=
  let oldMembers := (conflicts ++ candidate.ancestors replacement).foldl
    (fun members txid => members ∪ pool.connectedComponent txid) ∅
  let newMembers := candidate.connectedComponent replacement
  compareFeeRateDiagrams (sortFeeRateChunks (candidate.feerateChunks (· ∈ newMembers)))
    (sortFeeRateChunks (pool.feerateChunks (· ∈ oldMembers))) = some .gt

def conflictingClusterCount (pool : Mempool) (directConflicts : List Txid) : ℕ :=
  (directConflicts.foldl (fun (count, visited) conflict =>
    if pool.contains conflict = false ∨ conflict ∈ visited then (count, visited)
    else (count + 1, visited ∪ pool.connectedComponent conflict)) ((0, ∅) : ℕ × Finset Txid)).1

def checkReplacementClusterLimit (pool : Mempool) (txid : Txid) (directConflicts : List Txid) : Except MempoolError Unit :=
  let count := pool.conflictingClusterCount directConflicts
  bailIf (maxReplacementCandidates < count) (.tooManyConflictingClusters txid count maxReplacementCandidates)

def checkReplacementCandidateLimit (pool : Mempool) (txid : Txid) (conflicts : List Txid) (siblingEviction : Bool) :
    Except MempoolError Unit :=
  let count := (conflicts.map fun conflict => 1 + (pool.descendants conflict).length).sum
  bailIf (maxReplacementCandidates < count)
    (if siblingEviction then .replacementFeeWithContext (.siblingCandidates txid count)
      else .tooManyReplacementCandidates txid count maxReplacementCandidates)

def signalsReplaceability (tx : Transaction) : Bool := tx.input.any fun input => input.sequence < 0xfffffffe

def checkReplacementPolicy (pool : Mempool) (directConflicts : List Txid) : Except MempoolError Unit :=
  bailIf (pool.policy.rbfPolicy = .never ∨ pool.policy.rbfPolicy = .optIn ∧ (directConflicts.any fun txid =>
    (pool.entries.lookup txid).any fun entry =>
      entry.transaction.version ≠ trucVersion && !signalsReplaceability entry.transaction)) .replacementDisallowed

def acceptAtForReplacement (pool : Mempool) (view : ChainView) (now : ℕ) (tx : Transaction) (addedAt : ℕ)
    (allowTrucDescendantReplacement : Bool) : Except MempoolError Txid × Mempool :=
  pool.acceptAtWithSequence view now tx addedAt
    ⟨true, true, true, true, true, allowTrucDescendantReplacement, true, true⟩

def modifiedFees (pool : Mempool) (ids : Finset Txid) : ℤ := pool.packageFee ids

def conflictingAncestor (pool : Mempool) (tx : Transaction) (directConflicts : List Txid) : Option Txid :=
  (sortTxids (directConflicts.filter (· ∈ pool.ancestorsForTransaction tx))).head?

def checkSiblingFeerate (pool : Mempool) (replacement : Txid) (fee : ℤ) (vsize : ℕ) (conflict : Txid) : Except MempoolError Unit :=
  match pool.entries.lookup conflict with
  | none => .error .badOutput
  | some sibling =>
    let siblingFee := pool.modifiedFeeSat conflict sibling.feeSat
    bailIf (fee * sibling.vsize ≤ siblingFee * vsize)
      (.replacementFeeWithContext (.siblingFeerate replacement fee vsize siblingFee sibling.vsize))

def replacementShortfall (siblingEviction : Bool) (replacement : Txid) (fee conflictFees incremental : ℤ) : ReplacementShortfall :=
  if siblingEviction then if fee < conflictFees then .siblingLessFees replacement else .siblingNotEnough replacement
  else if fee < conflictFees then .lessFees replacement fee conflictFees
  else .notEnough replacement (satI128 (fee - conflictFees)) incremental

/-- The checks of a replacement that has been admitted to a copy of the pool without its conflicts. -/
def checkReplacement (pool candidate : Mempool) (tx : Transaction) (txid : Txid) (conflicts : List Txid)
    (siblingEviction : Bool) : Except MempoolError Unit := do
  let entry ← okOr (candidate.entries.lookup txid) .badOutput
  let fee := candidate.modifiedFeeSat txid entry.feeSat
  runIf siblingEviction (conflicts.forM (pool.checkSiblingFeerate tx.computeTxid fee entry.vsize))
  let conflictFees := pool.modifiedFees (pool.conflictsAndDescendants conflicts)
  let incremental : ℤ := feeForRate candidate.policy.incrementalRelayFeeSatPerKvb entry.vsize
  bailIf (fee < satI128 (conflictFees + incremental))
    (.replacementFeeWithContext (replacementShortfall siblingEviction tx.computeTxid fee conflictFees incremental))
  match pool.conflictingAncestor tx (pool.conflictsFor tx) with
  | some conflict => .error (.spendsConflictingTx tx.computeTxid conflict)
  | none =>
    bailIf (pool.improvesFeerateDiagramForReplacement candidate txid conflicts = false) .replacementFeerateDiagram

def checkReplacementLimits (pool : Mempool) (tx : Transaction) (conflicts : List Txid) (siblingEviction : Bool) :
    Except MempoolError Unit := do
  bailIf (conflicts = []) (.conflict tx.computeTxid)
  pool.checkReplacementClusterLimit tx.computeTxid (pool.conflictsFor tx)
  pool.checkReplacementCandidateLimit tx.computeTxid conflicts siblingEviction
  pool.checkReplacementPolicy (pool.conflictsFor tx)

def replaceWithConflicts (pool : Mempool) (view : ChainView) (now : ℕ) (tx : Transaction) (addedAt : ℕ)
    (conflicts : List Txid) (siblingEviction : Bool) : Except MempoolError Txid × Mempool :=
  match pool.checkReplacementLimits tx conflicts siblingEviction with
  | .error error => (.error error, pool)
  | .ok () =>
    let directConflicts := pool.conflictsFor tx
    let removal := pool.conflictsAndDescendants conflicts
    let allowTrucDescendantReplacement := directConflicts.any fun conflict =>
      tx.inputTxids.any fun parent => pool.contains parent && decide (conflict ∈ pool.descendants parent)
    match (pool.removeAll (HashOrder.elements removal)).acceptAtForReplacement view now tx addedAt
        allowTrucDescendantReplacement with
    | (.error error, _) => match error, pool.conflictingAncestor tx directConflicts with
      | .missingInput _, some conflict => (.error (.spendsConflictingTx tx.computeTxid conflict), pool)
      | error, _ => (.error error, pool)
    | (.ok txid, candidate) => match pool.checkReplacement candidate tx txid conflicts siblingEviction with
      | .error error => (.error error, pool)
      | .ok () => (.ok txid, candidate)

def replace (pool : Mempool) (view : ChainView) (now : ℕ) (tx : Transaction) (addedAt : ℕ) :
    Except MempoolError Txid × Mempool := pool.replaceWithConflicts view now tx addedAt (pool.conflictsFor tx) false

def trucSiblingFor (pool : Mempool) (tx : Transaction) : Option Txid :=
  if tx.version ≠ trucVersion ∨ trucChildMaxVsize < tx.vsize then none
  else match (sortTxids (tx.inputTxids.filter pool.contains)).dedup with
    | [parent] => match pool.entries.lookup parent with
      | none => none
      | some entry =>
        if entry.transaction.version ≠ trucVersion ∨ trucAncestorLimit < (pool.ancestors parent).length + 2 then none
        else match pool.descendants parent with
          | [sibling] => if pool.descendants sibling = [] then some sibling else none
          | _ => none
    | _ => none

def acceptAtWithOptions (pool : Mempool) (view : ChainView) (now : ℕ) (tx : Transaction) (addedAt : ℕ)
    (enforceFeeRate enforceMempoolPolicy : Bool) : Except MempoolError Txid × Mempool :=
  pool.acceptAtWithSequence view now tx addedAt ⟨enforceFeeRate, enforceMempoolPolicy, true, true, true, false, true, true⟩

def acceptWithSibling (pool : Mempool) (view : ChainView) (now : ℕ) (tx : Transaction) (allowSiblingEviction : Bool) :
    Except MempoolError Txid × Mempool :=
  match pool.acceptAtWithOptions view now tx now true true with
  | (.error (.conflict _), pool) =>
    let conflicts := pool.conflictsFor tx
    match if allowSiblingEviction then pool.trucSiblingFor tx else none with
    | some sibling =>
      if sibling ∈ conflicts then pool.replace view now tx now
      else pool.replaceWithConflicts view now tx now (conflicts ++ [sibling]) true
    | none => pool.replace view now tx now
  | (.error (.truc violation), pool) =>
    if allowSiblingEviction = false then (.error (.truc violation), pool)
    else if pool.conflictsFor tx ≠ [] then pool.replace view now tx now
    else match pool.trucSiblingFor tx with
      | some sibling => pool.replaceWithConflicts view now tx now [sibling] true
      | none => (.error (.truc violation), pool)
  | result => result

def accept (pool : Mempool) (view : ChainView) (now : ℕ) (tx : Transaction) : Except MempoolError Txid × Mempool :=
  pool.acceptWithSibling view now tx true

def acceptWithStandardPolicyDisabled (pool : Mempool) (view : ChainView) (now : ℕ) (tx : Transaction) :
    Except MempoolError Txid × Mempool :=
  let (result, after) := { pool with policy := { pool.policy with requireStandard := false } }.acceptWithSibling view now tx true
  (result, { after with policy := { after.policy with requireStandard := pool.policy.requireStandard } })

end Mempool

def packagePosition (transactions : List Transaction) (txid : Txid) : Option ℕ :=
  (transactions.zipIdx.reverse.find? fun (tx, _) => tx.computeTxid = txid).map Prod.snd

def packageIsTopologicallySorted (transactions : List Transaction) : Bool :=
  transactions.zipIdx.all fun (tx, index) => tx.inputTxids.all fun parent =>
    (packagePosition transactions parent).all (· < index)

def packageIsChildWithParentsTree (transactions : List Transaction) : Bool :=
  let parents := transactions.dropLast
  let parentTxids := parents.map Transaction.computeTxid
  2 ≤ transactions.length && packageIsTopologicallySorted transactions && parentTxids.Nodup &&
    (parents.all fun parent => parent.inputTxids.all fun txid => txid ∉ parentTxids) &&
    match transactions.getLast? with
    | none => false
    | some child => parents.all fun parent => parent.computeTxid ∈ child.inputTxids

namespace Mempool

def packageTransaction (pool : Mempool) (transactions : List Transaction) (txid : Txid) : Option Transaction :=
  ((packagePosition transactions txid).bind (transactions[·]?)).or ((pool.entries.lookup txid).map (·.transaction))

def packageParents (transactions : List Transaction) (tx : Transaction) (index : ℕ) : Finset Txid :=
  (tx.inputTxids.filter fun parent => (packagePosition transactions parent).any (· < index)).toFinset

/-- The other members that spend the parent, or the transaction itself where that makes a chain of three. -/
def trucRelativeError (pool : Mempool) (transactions : List Transaction) (txid parent : Txid) (index : ℕ)
    (mempoolParents packageParents : Finset Txid) (includeMempoolParentChild : Bool) : Option MempoolError :=
  let chained := (!((HashOrder.elements mempoolParents).any fun p => !(pool.descendants p).isEmpty) && includeMempoolParentChild) ||
    !(packageParents = ∅ : Bool)
  (transactions.zipIdx.filter fun (_, otherIndex) => otherIndex ≠ index).findSome? fun (other, _) =>
    other.inputTxids.findSome? fun spent =>
      if spent = parent then some (.truc (.siblingKnown parent))
      else if spent = txid && chained then some (.truc (.parentAndChildBoth other.computeTxid))
      else none

def trucMemberError (pool : Mempool) (transactions : List Transaction) (includeMempoolParentChild : Bool)
    (member : Transaction × ℕ) : Option MempoolError :=
  let (tx, index) := member
  let txid := tx.computeTxid
  let packageParents := packageParents transactions tx index
  let mempoolParents := (tx.inputTxids.filter pool.contains).toFinset
  let version (parent : Txid) : Option ℤ := (pool.packageTransaction transactions parent).map (·.version)
  if tx.version ≠ trucVersion then
    ((HashOrder.elements packageParents ++ HashOrder.elements mempoolParents).find? fun parent =>
      version parent = some trucVersion).map fun parent => .truc (.spentByNontruc txid parent)
  else if trucAncestorLimit < (pool.ancestorsForTransaction tx).card + (packageParents \ mempoolParents).card + 1 then
    some (.truc (.ancestorsTooMany txid))
  else if trucMaxVsize < tx.vsize then some (.truc (.vsizeTooBig txid tx.vsize))
  else match (HashOrder.elements mempoolParents).head?.or (HashOrder.elements packageParents).head? with
    | none => none
    | some parent =>
      if trucChildMaxVsize < tx.vsize then some (.truc (.childTooBig txid tx.vsize))
      else if version parent ≠ some trucVersion then some (.truc (.spendsNontruc txid parent))
      else pool.trucRelativeError transactions txid parent index mempoolParents packageParents includeMempoolParentChild

def packageTrucTopologyError (pool : Mempool) (transactions : List Transaction) (includeMempoolParentChild : Bool) :
    Option MempoolError :=
  if pool.policy.trucPolicy ≠ .enforce then none
  else transactions.zipIdx.findSome? (pool.trucMemberError transactions includeMempoolParentChild)

def acceptAtWithPolicy (pool : Mempool) (view : ChainView) (now : ℕ) (tx : Transaction) (addedAt : ℕ)
    (enforceFeeRate enforceMinRelay : Bool) : Except MempoolError Txid × Mempool :=
  pool.acceptAtWithSequence view now tx addedAt ⟨enforceFeeRate, true, true, false, true, false, enforceMinRelay, false⟩

structure PackageProgress where
  candidate : Mempool
  accepted : List Txid
  fee : ℤ
  vsize : ℕ
  newCount : ℕ

def acceptMember (view : ChainView) (now : ℕ) (single usePackageFeerate : Bool) (st : PackageProgress) (tx : Transaction) :
    Except MempoolError PackageProgress :=
  if st.candidate.contains tx.computeTxid then .ok { st with accepted := st.accepted ++ [tx.computeTxid] }
  else
    let admitted := if single then st.candidate.acceptWithSibling view now tx false
      else st.candidate.acceptAtWithPolicy view now tx now (!usePackageFeerate) (!usePackageFeerate)
    match admitted with
    | (.error error, _) => .error error
    | (.ok txid, candidate) => do
      let entry ← okOr (candidate.entries.lookup txid) .badOutput
      .ok ⟨candidate, st.accepted ++ [txid], satI128 (st.fee + candidate.modifiedFeeSat txid entry.feeSat),
        satAddU64 st.vsize entry.vsize, st.newCount + 1⟩

/-- The conflicts of a package go before its members are admitted. -/
structure PackageConflicts where
  candidate : Mempool
  conflictingFee : ℤ
  replaced : Bool

def directPackageConflicts (pool : Mempool) (transactions : List Transaction) : List Txid :=
  (sortTxids (transactions.flatMap pool.conflictsFor)).dedup

def removePackageConflicts (candidate : Mempool) (transactions : List Transaction) : Except MempoolError PackageConflicts := do
  bailIf (transactions.length ≠ 2) .packageRbfWrongSize
  let packageTxids := (transactions.map Transaction.computeTxid).toFinset
  bailIf (transactions.any fun tx => !(candidate.ancestorsForTransaction tx ⊆ packageTxids : Bool)) .replacementUnconfirmedInput
  let directConflicts := candidate.directPackageConflicts transactions
  candidate.checkReplacementClusterLimit ((transactions.head?.map Transaction.computeTxid).getD 0) directConflicts
  if directConflicts = [] then .ok ⟨candidate, 0, false⟩
  else do
    candidate.checkReplacementPolicy directConflicts
    let removal := candidate.conflictsAndDescendants directConflicts
    .ok ⟨candidate.removeAll (HashOrder.elements removal), candidate.modifiedFees removal, true⟩

def clearConflicts (candidate : Mempool) (transactions : List Transaction) (packageRbf : Bool) :
    Except MempoolError PackageConflicts :=
  if packageRbf then candidate.removePackageConflicts transactions else .ok ⟨candidate, 0, false⟩

def checkPackageReplacement (candidate : Mempool) (transactions : List Transaction) (conflictingFee packageFee : ℤ)
    (packageVsize : ℕ) : Except MempoolError Unit :=
  if conflictingFee ≤ 0 then .ok ()
  else do
    bailIf (packageFee < satI128 (conflictingFee + feeForRate candidate.policy.incrementalRelayFeeSatPerKvb packageVsize))
      .replacementFee
    let parentTxid := (transactions.head?.map Transaction.computeTxid).getD 0
    let parent ← okOr (candidate.entries.lookup parentTxid) .badOutput
    let parentFee := candidate.modifiedFeeSat parentTxid parent.feeSat
    bailIf (satI128 (packageFee * parent.vsize) ≤ satI128 (parentFee * packageVsize)) .replacementFee

def acceptPackageInnerUnbounded (pool candidate : Mempool) (view : ChainView) (now : ℕ) (transactions : List Transaction) :
    Except MempoolError (List Txid × Mempool) := do
  bailIf (transactions = []) .emptyPackage
  match if 1 < transactions.length then pool.packageTrucTopologyError transactions true else none with
  | some error => .error error
  | none =>
    let tree := packageIsChildWithParentsTree transactions
    let newTransactions := transactions.filter fun tx => !candidate.contains tx.computeTxid
    let usePackageFeerate := tree && decide (1 < newTransactions.length)
    let packageRbf := tree && transactions.any fun tx => !(candidate.conflictsFor tx).isEmpty
    let conflicts ← candidate.clearConflicts transactions packageRbf
    let st ← transactions.foldlM (acceptMember view now (transactions.length = 1) usePackageFeerate)
      ⟨conflicts.candidate, [], 0, 0, 0⟩
    -- The minimum fee is read only when there is a new member.
    let candidate := if 0 < st.newCount then st.candidate.decayRollingMinFee now else st.candidate
    bailIf (0 < st.newCount ∧ feeRateMeets st.fee st.vsize candidate.minFeeSatPerKvb = false)
      (candidate.feeRateError st.fee st.vsize)
    runIf packageRbf (candidate.checkPackageReplacement transactions conflicts.conflictingFee st.fee st.vsize)
    bailIf (packageRbf ∧ conflicts.replaced ∧ pool.improvesFeerateDiagram candidate = false) .replacementFeerateDiagram
    (validateEphemeralSpends transactions candidate).mapError fun error =>
      if error = .nonStandard "missing-ephemeral-spends" then .nonStandard "unspent-dust" else error
    .ok (st.accepted, candidate)

def acceptPackageInner (pool candidate : Mempool) (view : ChainView) (now : ℕ) (transactions : List Transaction) :
    Except MempoolError (List Txid × Mempool) :=
  if transactions.length ≤ 1 then pool.acceptPackageInnerUnbounded candidate view now transactions
  else do
    let (accepted, after) ← pool.acceptPackageInnerUnbounded { candidate with maxBytes := usizeMax } view now transactions
    let trimmed := { after with maxBytes := candidate.maxBytes }.enforceSizeLimit
    bailIf (accepted.any fun txid => !trimmed.contains txid) .full
    .ok (accepted, trimmed)

def acceptPackage (pool : Mempool) (view : ChainView) (now : ℕ) (transactions : List Transaction) :
    Except MempoolError (List Txid) × Mempool :=
  match pool.acceptPackageInner pool view now transactions with
  | .error error => (.error error, pool)
  | .ok (accepted, candidate) => (.ok accepted, candidate)

end Mempool

end BitcoindRs
