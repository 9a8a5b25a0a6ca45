import BitcoindRs.Rpc.MerkleProof
import BitcoindRs.Chain.BlockIndex

/-!
Proofs of witness transactions: a partial tree of identifiers that authenticates the coinbase, and a partial tree of
witness identifiers that the coinbase commits to.
-/

namespace BitcoindRs
open Result Codec Merkle PartialMerkle BlockIndex List
variable {tree : PartialMerkleTree} {root : ℕ} {matched reported : List (ℕ × ℕ)} {leaves : List ℕ} {block : Block}
variable {coinbase : Transaction}

/-- The wire form of transactions, which the node takes from its libraries. -/
class TransactionCodec where
  serialize : Transaction → Bytes
  read : Reader Transaction

structure PartialMerkleTree where
  numTransactions : ℕ
  bits : List Bool
  hashes : List ℕ

namespace PartialMerkleTree

def serialize (tree : PartialMerkleTree) : Bytes :=
  leBytes 4 tree.numTransactions ++ (compactSize tree.hashes.length ++ (tree.hashes.flatMap (leBytes 32) ++
    (compactSize (packBits tree.bits).length ++ packBits tree.bits)))

def parse (error : Error) : Parser Error PartialMerkleTree := fun input => do
  let (numTransactions, rest) ← required (readLe 4) error input
  let (hashCount, rest) ← required readCompactSize error rest
  let (hashes, rest) ← parseMany (required (readLe 32) error) hashCount rest
  let (byteCount, rest) ← required readCompactSize error rest
  let (bytes, rest) ← required (readBytes byteCount) error rest
  .ok (⟨numTransactions, unpackBits bytes, hashes⟩, rest)

variable [Library]

def fromTxids (txids : List ℕ) (wanted : List Bool) : PartialMerkleTree :=
  let listed := collect hashPair txids wanted (merkleTreeHeight txids.length) 0
  ⟨txids.length, listed.1, listed.2⟩

def extractMatches (tree : PartialMerkleTree) : Option (ℕ × List (ℕ × ℕ)) := do
  if tree.numTransactions = 0 ∨ maxMerkleProofTransactions < tree.numTransactions ∨
      tree.numTransactions < tree.hashes.length ∨ tree.bits.length < tree.hashes.length then none
  else
    let e ← extract hashPair (tree.bits[·]?) (tree.hashes[·]?) tree.numTransactions
      (merkleTreeHeight tree.numTransactions) 0 0 0
    if (e.bitsUsed + 7) / 8 ≠ (tree.bits.length + 7) / 8 ∨ e.hashesUsed ≠ tree.hashes.length then none
    else some (e.root, e.matched)

end PartialMerkleTree

variable [Library]

def Block.witnessLeaves (block : Block) : List ℕ :=
  block.txdata.zipIdx.map fun (tx, index) => if index = 0 then 0 else Library.wtxid tx

def serializeWitnessMerkleProof [TransactionCodec] (block : Block) (requested : List Txid) : Except Error Bytes :=
  match block.txdata with
  | [] => .error (.message "block contains no transactions")
  | coinbase :: _ =>
    let txids := block.txids
    let requestedMatches := txids.map fun txid => decide (txid ∈ requested)
    let txidMatches := requestedMatches.set 0 true
    let txidTree := PartialMerkleTree.fromTxids txids txidMatches
    let version : ℤ := if (commitmentOutput coinbase).isSome then -2 else -1
    .ok (leBytes 4 (version % 2 ^ 32).toNat ++ (block.header.serialize ++ (txidTree.serialize ++
      (TransactionCodec.serialize coinbase ++
        if (commitmentOutput coinbase).isSome then
          (PartialMerkleTree.fromTxids block.witnessLeaves requestedMatches).serialize
        else [if requestedMatches.getD 0 false then 1 else 0]))))

structure WitnessMerkleProof where
  header : Header
  txidTree : PartialMerkleTree
  coinbase : Transaction
  witnessTree : Option PartialMerkleTree
  proveCoinbase : Bool

omit [Library] in
def parseWitnessMerkleProof [TransactionCodec] (bytes : Bytes) : Except Error WitnessMerkleProof := do
  let (number, rest) ← required (readLe 4) (.message "invalid witness merkle proof version") bytes
  let version := signed32 number
  bailIf (version ≠ -1 ∧ version ≠ -2) (.message "invalid witness merkle proof version")
  let (header, rest) ← required Header.read (.message "invalid witness merkle proof header") rest
  let (txidTree, rest) ← PartialMerkleTree.parse (.message "invalid witness merkle proof txid tree") rest
  let (coinbase, rest) ← required TransactionCodec.read (.message "invalid witness merkle proof coinbase") rest
  if version = -2 then
    let (tree, rest) ← PartialMerkleTree.parse (.message "invalid witness merkle proof witness tree") rest
    bailIf (rest ≠ []) (.message "invalid witness merkle proof trailing data")
    .ok ⟨header, txidTree, coinbase, some tree, false⟩
  else
    let (prove, rest) ← required (readLe 1) (.message "invalid witness merkle proof coinbase flag") rest
    bailIf (rest ≠ []) (.message "invalid witness merkle proof trailing data")
    .ok ⟨header, txidTree, coinbase, none, prove != 0⟩

def witnessMatches (coinbase : Transaction) (tree : PartialMerkleTree) : Option (List (ℕ × ℕ)) := do
  let (root, matched) ← tree.extractMatches
  if matched = [] then none
  else
    let output ← commitmentOutput coinbase
    let input ← coinbase.input.head?
    match input.witness with
    | [nonce] =>
      if nonce.length ≠ 32 ∨ (output.scriptPubkey.drop 6).take 32 ≠ Library.witnessCommitment root nonce then none
      else match matched with
        | (first, 0) :: others => if first ≠ 0 then none else some ((coinbase.computeTxid, 0) :: others)
        | matched => some matched
    | _ => none

def provenTransactions (proof : WitnessMerkleProof) : Option (List (ℕ × ℕ)) := do
  let (root, matched) ← proof.txidTree.extractMatches
  match matched with
  | [] => none
  | (first, index) :: others =>
    if root ≠ proof.header.merkleRoot ∨ index ≠ 0 ∨ proof.coinbase.computeTxid ≠ first ∨ proof.coinbase.isCoinbase = false then
      none
    else match proof.witnessTree with
      | some tree => witnessMatches proof.coinbase tree
      | none => some (if proof.proveCoinbase then (first, index) :: others else others)

structure WitnessProofReport where
  blockHeight : ℕ
  confirmations : ℕ
  blockHash : BlockHash
  transactions : List (ℕ × ℕ)

omit [Library] in
def ChainState.blockTransactionCount (st : ChainState) (hash : BlockHash) : Option ℕ :=
  let stored := (st.bodies.lookup hash).map (·.txdata.length)
  match st.blockIndex.lookup hash with
  | none => stored
  | some node => if st.active.hashes[node.height]? = some hash then st.active.txCounts[node.height]?.or stored else stored

omit [Library] in
/-- The height of the tip of the coins, which may be that of an unvalidated snapshot. -/
def ChainState.utxoTipHeight (st : ChainState) : ℕ :=
  match st.snapshotBase.filter (fun _ => !st.snapshotValidated) with
  | none => st.height
  | some base => match st.blockIndex.lookup base with
    | none => st.height
    | some node => max st.height node.height

def ChainState.verifyWitnessTxoutProof [TransactionCodec] (st : ChainState) (bytes : Bytes) :
    Except Error (Option WitnessProofReport) := do
  let proof ← parseWitnessMerkleProof bytes
  match provenTransactions proof with
  | none => .ok none
  | some transactions =>
    let blockHash := blockHash proof.header
    bailIf (st.isActiveBlock blockHash = false) (.message "Block not found in chain")
    let count ← okOr (st.blockTransactionCount blockHash) (.message "Block not found in chain")
    if count ≠ proof.txidTree.numTransactions then .ok none
    else
      let height ← okOr (heightOf st.blockIndex blockHash) (.message "Block not found in chain")
      .ok (some ⟨height, st.utxoTipHeight - height + 1, blockHash, transactions⟩)

/-- No two things that are hashed have one hash. A transaction's identifier leaves its witnesses out. -/
structure CollisionFree : Prop where
  pair : Function.Injective2 hashPair
  header : Function.Injective blockHash
  txid : ∀ a b : Transaction, a.computeTxid = b.computeTxid → a.output = b.output
  commitment : Function.Injective2 Library.witnessCommitment
  transaction : ∀ (tx : Transaction) (a b : ℕ), Library.wtxid tx ≠ hashPair a b
  zero : ∀ a b, hashPair a b ≠ 0

/-- A block of the active chain, with its number of transactions on record, that has passed its checks. -/
structure ChainState.HasBlock (st : ChainState) (block : Block) : Prop where
  active : st.isActiveBlock block.blockHash = true
  counted : st.blockTransactionCount block.blockHash = some block.txids.length
  coinbase : ∃ coinbase rest, block.txdata = coinbase :: rest ∧ coinbase.isCoinbase = true
  root : validateMerkleRoot block block.txids = .ok ()
  commitment : validateWitnessCommitment block true = .ok ()

/-- The pair names the transaction at its position, the coinbase by its identifier without witnesses. -/
def Block.Reports (block : Block) (entry : ℕ × ℕ) : Prop :=
  ∃ tx, block.txdata[entry.2]? = some tx ∧
    entry.1 = if entry.2 = 0 then tx.computeTxid else Library.wtxid tx

theorem extractMatches_ok (ran : tree.extractMatches = some (root, matched)) :
    ∃ e, extract hashPair (tree.bits[·]?) (tree.hashes[·]?) tree.numTransactions
      (merkleTreeHeight tree.numTransactions) 0 0 0 = some e ∧ e.root = root ∧ e.matched = matched := by
  unfold PartialMerkleTree.extractMatches at ran
  split at ran
  · cases ran
  rw [Option.bind_eq_bind, Option.bind_eq_some_iff] at ran
  obtain ⟨e, run, ran⟩ := ran
  split at ran
  · cases ran
  cases ran
  exact ⟨e, run, rfl, rfl⟩

theorem matches_of_height (collision : CollisionFree) (rooted : recursiveRoot hashPair leaves = some root)
    (ran : tree.extractMatches = some (root, matched))
    (same : merkleTreeHeight tree.numTransactions = merkleTreeHeight leaves.length) :
    ∀ entry ∈ matched, leaves[entry.2]? = some entry.1 := by
  obtain ⟨e, run, rfl, rfl⟩ := extractMatches_ok ran
  apply extract_sound collision.pair run
  rw [same]
  exact root_at_merkleTreeHeight rooted

theorem matches_of_other_height (collision : CollisionFree) (plain : ∀ leaf ∈ leaves, ∀ a b, leaf ≠ hashPair a b)
    (rooted : recursiveRoot hashPair leaves = some root)
    (ran : tree.extractMatches = some (root, matched)) (some_ : matched ≠ [])
    (other : merkleTreeHeight tree.numTransactions ≠ merkleTreeHeight leaves.length) :
    ∀ entry ∈ matched, ∃ a b, entry.1 = hashPair a b := by
  obtain ⟨e, run, rfl, rfl⟩ := extractMatches_ok ran
  have node := root_at_merkleTreeHeight rooted
  rcases Nat.lt_or_gt_of_ne other with lower | higher
  · -- The tree is read as one over the level where the declared number of levels ends.
    obtain ⟨extra, gap⟩ := Nat.exists_eq_add_of_lt lower
    rw [show merkleTreeHeight leaves.length = merkleTreeHeight tree.numTransactions + (extra + 1) by omega,
      level_add] at node
    intro entry member
    have inner := mem_of_getElem? (extract_sound collision.pair run node entry member)
    rw [level_succ] at inner
    exact mem_layer inner
  · obtain ⟨extra, gap⟩ := Nat.exists_eq_add_of_lt higher
    rw [show merkleTreeHeight tree.numTransactions = extra + 1 + merkleTreeHeight leaves.length by omega] at run
    obtain ⟨left, right, leaf⟩ := extract_too_deep collision.pair run node some_
    exact absurd rfl (plain _ leaf left right)

theorem witnessLeaves_plain (collision : CollisionFree) (block : Block) :
    ∀ leaf ∈ block.witnessLeaves, ∀ a b, leaf ≠ hashPair a b := by
  intro leaf member a b
  obtain ⟨⟨tx, index⟩, -, rfl⟩ := mem_map.mp member
  dsimp only
  split
  · exact (collision.zero a b).symm
  · exact collision.transaction tx a b

theorem getElem?_witnessLeaves {index leaf : ℕ} (listed : block.witnessLeaves[index]? = some leaf) :
    ∃ tx, block.txdata[index]? = some tx ∧ leaf = if index = 0 then 0 else Library.wtxid tx := by
  rw [Block.witnessLeaves, getElem?_map, getElem?_zipIdx, Nat.zero_add, Option.map_map,
    Option.map_eq_some_iff] at listed
  obtain ⟨tx, found, same⟩ := listed
  exact ⟨tx, found, same.symm⟩

theorem commitment_of_block {rest : List Transaction} {output : TxOut}
    (valid : validateWitnessCommitment block true = .ok ()) (first : block.txdata = coinbase :: rest)
    (committed : commitmentOutput coinbase = some output) :
    ∃ input nonce, coinbase.input.head? = some input ∧ input.witness = [nonce] ∧ nonce.length = 32 ∧
      ∃ root, recursiveRoot hashPair block.witnessLeaves = some root ∧
        (output.scriptPubkey.drop 6).take 32 = Library.witnessCommitment root nonce := by
  have leaves : block.witnessLeaves ≠ [] := by
    rw [Block.witnessLeaves, first, zipIdx_cons]
    exact cons_ne_nil _ _
  simp only [validateWitnessCommitment, first, head?_cons, Option.bind_some, committed] at valid
  split at valid
  case h_2 => cases valid
  case h_1 nonce found =>
    obtain ⟨size, valid⟩ := guard_ok valid
    obtain ⟨root, rooted, valid⟩ := bind_ok valid
    have right := bailIf_ok.mp valid
    refine ⟨_, nonce, found, rfl, not_not.mp size, root, ?_, not_not.mp right⟩
    rw [← merkleRoot_eq_recursiveRoot leaves]
    exact okOr_ok.mp rooted

theorem witnessMatches_ok (ran : witnessMatches coinbase tree = some reported) :
    ∃ root matched output nonce, tree.extractMatches = some (root, matched) ∧ matched ≠ [] ∧
      commitmentOutput coinbase = some output ∧
      (output.scriptPubkey.drop 6).take 32 = Library.witnessCommitment root nonce ∧
      ((∃ others, matched = (0, 0) :: others ∧ reported = (coinbase.computeTxid, 0) :: others) ∨
        (∃ first others, matched = first :: others ∧ first.2 ≠ 0 ∧ reported = matched)) := by
  unfold witnessMatches at ran
  rw [Option.bind_eq_bind, Option.bind_eq_some_iff] at ran
  obtain ⟨⟨root, matched⟩, extracted, ran⟩ := ran
  dsimp only at ran
  split at ran
  · cases ran
  rename_i some_
  rw [Option.bind_eq_bind, Option.bind_eq_some_iff] at ran
  obtain ⟨output, committed, ran⟩ := ran
  rw [Option.bind_eq_bind, Option.bind_eq_some_iff] at ran
  obtain ⟨input, -, ran⟩ := ran
  split at ran
  case h_2 => cases ran
  case h_1 nonce _ =>
    split at ran
    · cases ran
    rename_i right
    rw [not_or, not_not, not_not] at right
    refine ⟨root, matched, output, nonce, extracted, some_, committed, right.2, ?_⟩
    split at ran
    case h_1 first others =>
      split at ran
      · cases ran
      rename_i zero
      rw [not_not] at zero
      cases ran
      exact .inl ⟨others, by rw [zero], rfl⟩
    case h_2 other =>
      cases ran
      obtain ⟨first, others, shape⟩ := exists_cons_of_ne_nil some_
      refine .inr ⟨first, others, shape, fun zero => ?_, rfl⟩
      exact other first.1 others (by rw [shape, ← zero])

theorem provenTransactions_ok {proof : WitnessMerkleProof} (ran : provenTransactions proof = some reported) :
    ∃ first others, proof.txidTree.extractMatches = some (proof.header.merkleRoot, (first, 0) :: others) ∧
      proof.coinbase.computeTxid = first ∧
      match proof.witnessTree with
      | some tree => witnessMatches proof.coinbase tree = some reported
      | none => reported = if proof.proveCoinbase then (first, 0) :: others else others := by
  unfold provenTransactions at ran
  rw [Option.bind_eq_bind, Option.bind_eq_some_iff] at ran
  obtain ⟨⟨root, matched⟩, extracted, ran⟩ := ran
  dsimp only at ran
  split at ran
  case h_1 => cases ran
  case h_2 first index others =>
    split at ran
    · cases ran
    rename_i checks
    simp only [not_or, not_not] at checks
    obtain ⟨rfl, rfl, named, -⟩ := checks
    refine ⟨first, others, extracted, named, ?_⟩
    cases tree : proof.witnessTree with
    | some tree =>
      rw [tree] at ran
      exact ran
    | none =>
      rw [tree] at ran
      exact (Option.some.inj ran).symm

theorem verifyWitnessTxoutProof_ok [TransactionCodec] {st : ChainState} {bytes : Bytes} {report : WitnessProofReport}
    (accepted : st.verifyWitnessTxoutProof bytes = .ok (some report)) :
    ∃ proof, parseWitnessMerkleProof bytes = .ok proof ∧ provenTransactions proof = some report.transactions ∧
      report.blockHash = blockHash proof.header ∧
      st.blockTransactionCount (blockHash proof.header) = some proof.txidTree.numTransactions := by
  obtain ⟨proof, parsed, accepted⟩ := bind_ok accepted
  refine ⟨proof, parsed, ?_⟩
  split at accepted
  · cases accepted
  rename_i transactions proven
  obtain ⟨-, accepted⟩ := guard_ok accepted
  obtain ⟨count, counted, accepted⟩ := bind_ok accepted
  split at accepted
  · cases accepted
  rename_i same
  obtain ⟨height, -, accepted⟩ := bind_ok accepted
  cases accepted
  exact ⟨proven, rfl, (okOr_ok.mp counted).trans (by rw [not_not.mp same])⟩

section sound
variable {st : ChainState} {block : Block}

theorem ChainState.HasBlock.txids (has : st.HasBlock block) (collision : CollisionFree)
    (ran : tree.extractMatches = some (block.header.merkleRoot, matched))
    (count : tree.numTransactions = block.txids.length) :
    ∀ entry ∈ matched, ∃ tx, block.txdata[entry.2]? = some tx ∧ tx.computeTxid = entry.1 := by
  obtain ⟨-, rooted, -⟩ := validateMerkleRoot_ok has.root
  intro entry member
  have listed := matches_of_height collision rooted ran (by rw [count]) entry member
  rw [Block.txids, getElem?_map, Option.map_eq_some_iff] at listed
  exact listed

theorem reports_iff_of_txid {entry : ℕ × ℕ} {tx : Transaction} (found : block.txdata[entry.2]? = some tx)
    (named : tx.computeTxid = entry.1) :
    block.Reports entry ↔
      (entry.2 ≠ 0 → ∀ other, block.txdata[entry.2]? = some other → Library.wtxid other = other.computeTxid) := by
  constructor
  · rintro ⟨tx', found', named'⟩ notCoinbase other present
    cases found.symm.trans found'
    cases found.symm.trans present
    rw [if_neg notCoinbase] at named'
    rw [← named', named]
  · intro agree
    refine ⟨tx, found, ?_⟩
    split
    case isTrue => exact named.symm
    case isFalse notCoinbase => rw [agree notCoinbase tx found, named]

theorem witness_reports_iff (collision : CollisionFree) (has : st.HasBlock block)
    {rest : List Transaction} (first : block.txdata = coinbase :: rest) {claimed : Transaction}
    (named : claimed.computeTxid = coinbase.computeTxid)
    (ran : witnessMatches claimed tree = some reported) :
    (∀ entry ∈ reported, block.Reports entry) ↔
      merkleTreeHeight tree.numTransactions = merkleTreeHeight block.txdata.length := by
  obtain ⟨root, matched, output, nonce, extracted, some_, committed, commits, shape⟩ := witnessMatches_ok ran
  have outputs := collision.txid claimed coinbase named
  have committed' : commitmentOutput coinbase = some output := by
    rw [← committed, commitmentOutput, commitmentOutput, outputs]
  obtain ⟨-, nonce', -, -, -, root', rooted, commits'⟩ := commitment_of_block has.commitment first committed'
  obtain ⟨rfl, -⟩ := collision.commitment (commits.symm.trans commits')
  have length : block.witnessLeaves.length = block.txdata.length := by
    rw [Block.witnessLeaves, length_map, length_zipIdx]
  constructor
  · intro right
    by_contra other
    have inner := matches_of_other_height collision (witnessLeaves_plain collision block) rooted extracted some_
      (by rwa [length])
    rcases shape with ⟨others, rfl, -⟩ | ⟨entry, others, rfl, later, rfl⟩
    · obtain ⟨a, b, zero⟩ := inner (0, 0) mem_cons_self
      exact collision.zero a b zero.symm
    · obtain ⟨a, b, node⟩ := inner entry mem_cons_self
      obtain ⟨tx, -, leaf⟩ := right entry mem_cons_self
      rw [if_neg later, node] at leaf
      exact collision.transaction tx a b leaf.symm
  · intro same
    have leaves := matches_of_height collision rooted extracted (by rwa [length])
    obtain ⟨e, run, -, rfl⟩ := extractMatches_ok extracted
    obtain ⟨sorted, -⟩ := extract_positions run
    have reports : ∀ entry ∈ e.matched, entry.2 ≠ 0 → block.Reports entry := by
      intro entry member later
      obtain ⟨tx, found, leaf⟩ := getElem?_witnessLeaves (leaves entry member)
      rw [if_neg later] at leaf
      exact ⟨tx, found, by rw [if_neg later, leaf]⟩
    rcases shape with ⟨others, shape, rfl⟩ | ⟨entry, others, shape, later, rfl⟩
    · rw [shape, map_cons, pairwise_cons] at sorted
      intro entry member
      rcases mem_cons.mp member with rfl | member
      · refine ⟨coinbase, ?_, ?_⟩
        · rw [first]
          rfl
        · exact named
      · apply reports entry
        · rw [shape]
          exact mem_cons_of_mem _ member
        · exact (sorted.1 entry.2 (mem_map_of_mem member)).ne'
    · rw [shape, map_cons, pairwise_cons] at sorted
      intro other member
      apply reports other member
      rw [shape] at member
      rcases mem_cons.mp member with rfl | member
      · exact later
      · have := sorted.1 other.2 (mem_map_of_mem member)
        omega

end sound

end BitcoindRs
