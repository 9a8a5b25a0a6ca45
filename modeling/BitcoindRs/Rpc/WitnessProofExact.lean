import BitcoindRs.Rpc.WitnessProof

/-! The proofs that the node builds are accepted, and when what an accepted proof reports is right. -/

namespace BitcoindRs
open Result Codec Merkle PartialMerkle BlockIndex List PartialMerkleTree TransactionCodec Library
variable [Library]

def FitsHashes (leaves : List ℕ) : Prop :=
  ∀ k ≤ merkleTreeHeight leaves.length, ∀ hash ∈ level hashPair k leaves, hash < 2 ^ 256

omit [Library] in
theorem PartialMerkleTree.parse_serialize {tree : PartialMerkleTree} (count : tree.numTransactions < 2 ^ 32)
    (hashCount : tree.hashes.length < 2 ^ 64) (bitCount : tree.bits.length < 2 ^ 64)
    (wide : ∀ hash ∈ tree.hashes, hash < 2 ^ 256) (error : Error) (rest : Bytes) :
    parse error (tree.serialize ++ rest) =
      .ok (⟨tree.numTransactions, unpackBits (packBits tree.bits), tree.hashes⟩, rest) := by
  have hashes : ∀ hash ∈ tree.hashes, ∀ rest,
      required (readLe 32) error (leBytes 32 hash ++ rest) = .ok (hash, rest) := fun hash member rest =>
    required_of_read error (readLe_leBytes ((wide hash member).trans_eq (by norm_num)) rest)
  have bytes : (packBits tree.bits).length < 2 ^ 64 := by
    rw [length_packBits]
    omega
  simp only [serialize, append_assoc]
  refine bind_pass (required_of_read error (readLe_leBytes (count.trans_eq (by norm_num)) _)) ?_
  refine bind_pass (required_of_read error (readCompactSize_compactSize hashCount _)) ?_
  refine bind_pass (parseMany_flatMap tree.hashes hashes _) ?_
  refine bind_pass (required_of_read error (readCompactSize_compactSize bytes _)) ?_
  exact bind_pass (required_of_read error (readBytes_append _ rest)) rfl

theorem PartialMerkleTree.fromTxids_spec {leaves : List ℕ} {wanted : List Bool} (same : wanted.length = leaves.length)
    (some_ : leaves ≠ []) (small : leaves.length ≤ maxMerkleProofTransactions)
    (distinct : ∀ k, twins (level hashPair k leaves) = false) (wide : FitsHashes leaves) {root : ℕ}
    (rooted : recursiveRoot hashPair leaves = some root) :
    ∃ tree : PartialMerkleTree, tree.numTransactions = leaves.length ∧
      (∀ error rest, parse error ((fromTxids leaves wanted).serialize ++ rest) = .ok (tree, rest)) ∧
      tree.extractMatches = some (root, chosen (leaves.zipIdx.zip wanted)) := by
  have limit : maxMerkleProofTransactions = 16666 := by decide
  have positive := length_pos_iff.mpr some_
  have top : 0 < width leaves.length (merkleTreeHeight leaves.length) := by
    rw [width_merkleTreeHeight positive]
    exact Nat.one_pos
  have run := extract_listed some_ same distinct rooted
  have hashCount := @length_collect_hashes _ hashPair leaves wanted same _ _ top
  have bitCount := @length_collect_bits _ hashPair leaves wanted (merkleTreeHeight leaves.length) 0
  have paired := @length_hashes_le_bits _ hashPair leaves wanted (merkleTreeHeight leaves.length) 0
  have few : 2 ^ (merkleTreeHeight leaves.length + 1) ≤ 2 ^ 16 :=
    Nat.pow_le_pow_right two_pos (by have := merkleTreeHeight_le small; omega)
  have nodes : ∀ hash ∈ (fromTxids leaves wanted).hashes, hash < 2 ^ 256 := by
    intro hash member
    obtain ⟨k, inside, inLevel⟩ := mem_collect_hashes member
    exact wide k inside hash inLevel
  have all : (portion leaves wanted (merkleTreeHeight leaves.length) 0).length = leaves.length := by
    rw [portion_root (merkleTreeHeight_spec leaves.length).1, length_zip, length_zipIdx, same, Nat.min_self]
  rw [all] at hashCount
  refine ⟨_, rfl, fun error rest => parse_serialize ?_ ?_ ?_ nodes error rest, ?_⟩
  · show leaves.length < 2 ^ 32
    omega
  · show (collect _ _ _ _ _).2.length < 2 ^ 64
    omega
  · show (collect _ _ _ _ _).1.length < 2 ^ 64
    omega
  · simp only [extractMatches, fromTxids, getElem?_unpackBits, length_unpackBits, length_packBits]
    rw [if_neg (by omega), run]
    simp only [Option.bind_eq_bind, Option.bind_some]
    rw [if_neg (by omega)]

def Block.requestedPairs (block : Block) (requested : List Txid) : List (ℕ × ℕ) :=
  (block.txdata.zipIdx.filter fun entry => decide (entry.1.computeTxid ∈ requested)).map fun entry =>
    (if entry.2 = 0 then entry.1.computeTxid else wtxid entry.1, entry.2)

section complete
variable {block : Block} {coinbase : Transaction} {rest : List Transaction}

def requestedAfter (name : Transaction → ℕ) (rest : List Transaction) (requested : List Txid) : List (ℕ × ℕ) :=
  ((rest.zipIdx 1).filter fun entry => decide (entry.1.computeTxid ∈ requested)).map fun entry => (name entry.1, entry.2)

/-- The requested transactions with the coinbase under a given name. -/
def requestedWith (shown : ℕ) (coinbase : Transaction) (rest : List Transaction) (requested : List Txid) : List (ℕ × ℕ) :=
  (if coinbase.computeTxid ∈ requested then [(shown, 0)] else []) ++ requestedAfter wtxid rest requested

theorem requestedAfter_pos {name : Transaction → ℕ} {requested : List Txid} :
    ∀ entry ∈ requestedAfter name rest requested, entry.2 ≠ 0 := by
  intro entry member
  obtain ⟨⟨tx, index⟩, chosen, rfl⟩ := mem_map.mp member
  have := le_snd_of_mem_zipIdx (mem_of_mem_filter chosen)
  exact Nat.ne_of_gt this

theorem chosen_after (name : Transaction → ℕ) (rest : List Transaction) (requested : List Txid) :
    chosen (((rest.map name).zipIdx 1).zip (rest.map fun tx => decide (tx.computeTxid ∈ requested))) =
      requestedAfter name rest requested := by
  have names : (rest.map name).zipIdx 1 = (rest.zipIdx 1).map fun entry => (name entry.1, entry.2) := zipIdx_map ..
  have tests : rest.map (fun tx => decide (tx.computeTxid ∈ requested)) =
      (rest.zipIdx 1).map fun entry => decide (entry.1.computeTxid ∈ requested) := by
    conv_lhs => rw [← zipIdx_map_fst 1 rest, map_map]
    rfl
  rw [names, tests, chosen_zip_map]
  rfl

section
variable (first : block.txdata = coinbase :: rest)
include first

theorem witnessLeaves_cons : block.witnessLeaves = 0 :: rest.map wtxid := by
  rw [Block.witnessLeaves, first, zipIdx_cons, map_cons]
  congr 1
  conv_rhs => rw [← zipIdx_map_fst (0 + 1) rest, map_map]
  apply map_congr_left
  rintro ⟨tx, index⟩ member
  have := le_snd_of_mem_zipIdx member
  exact if_neg (by dsimp only at this ⊢; omega)

theorem chosen_txids (requested : List Txid) :
    chosen (block.txids.zipIdx.zip ((block.txids.map fun txid => decide (txid ∈ requested)).set 0 true)) =
      (coinbase.computeTxid, 0) :: requestedAfter Transaction.computeTxid rest requested := by
  have after := chosen_after Transaction.computeTxid rest requested
  simp only [chosen] at after ⊢
  simp only [Block.txids, first, map_cons, zipIdx_cons, set_cons_zero, zip_cons_cons, map_map,
    filter_cons, if_true, Nat.zero_add]
  exact congrArg _ after

theorem chosen_witnesses (requested : List Txid) :
    chosen (block.witnessLeaves.zipIdx.zip (block.txids.map fun txid => decide (txid ∈ requested))) =
      requestedWith 0 coinbase rest requested := by
  have after := chosen_after wtxid rest requested
  unfold requestedWith
  simp only [chosen] at after ⊢
  simp only [witnessLeaves_cons first, Block.txids, first, map_cons, zipIdx_cons, zip_cons_cons,
    map_map, filter_cons, Nat.zero_add]
  split
  case isTrue asked =>
    rw [if_pos (of_decide_eq_true asked)]
    exact congrArg _ after
  case isFalse declined =>
    rw [if_neg (fun asked => declined (decide_eq_true asked))]
    exact after

theorem requestedPairs_cons (requested : List Txid) :
    block.requestedPairs requested = requestedWith coinbase.computeTxid coinbase rest requested := by
  have after : ((rest.zipIdx 1).filter fun entry => decide (entry.1.computeTxid ∈ requested)).map (fun entry =>
      (if entry.2 = 0 then entry.1.computeTxid else wtxid entry.1, entry.2)) =
        requestedAfter wtxid rest requested := by
    apply map_congr_left
    rintro ⟨tx, index⟩ member
    have := le_snd_of_mem_zipIdx (mem_of_mem_filter member)
    rw [if_neg (by dsimp only at this ⊢; omega)]
  simp only [requestedWith, Block.requestedPairs, first, zipIdx_cons, filter_cons, Nat.zero_add]
  by_cases asked : coinbase.computeTxid ∈ requested
  · simp [asked, after]
  · simp [asked, after]

end

theorem witnessMatches_complete {tree : PartialMerkleTree} {root : ℕ} {requested : List Txid} {output : TxOut}
    {input : TxIn} {nonce : List UInt8} (committed : commitmentOutput coinbase = some output)
    (spends : coinbase.input.head? = some input) (witness : input.witness = [nonce]) (size : nonce.length = 32)
    (commits : (output.scriptPubkey.drop 6).take 32 = witnessCommitment root nonce)
    (extracted : tree.extractMatches = some (root, requestedWith 0 coinbase rest requested))
    (some_ : requestedWith 0 coinbase rest requested ≠ []) :
    witnessMatches coinbase tree = some (requestedWith coinbase.computeTxid coinbase rest requested) := by
  simp only [witnessMatches, extracted, Option.bind_eq_bind, Option.bind_some, if_neg some_, committed, spends, witness, size,
    commits, ne_eq, not_true_eq_false, or_self, if_false]
  unfold requestedWith at some_ ⊢
  by_cases asked : coinbase.computeTxid ∈ requested
  · simp [asked]
  · simp only [if_neg asked, nil_append] at some_ ⊢
    obtain ⟨entry, others, shape⟩ := exists_cons_of_ne_nil some_
    have later := requestedAfter_pos entry (by rw [shape]; exact mem_cons_self)
    obtain ⟨value, index⟩ := entry
    obtain ⟨index, rfl⟩ := Nat.exists_eq_succ_of_ne_zero later
    rw [shape]
    rfl

variable {st : ChainState}

/-- The wire forms of the parts of a block's proof are read back. -/
structure WireForms [TransactionCodec] (block : Block) : Prop where
  header : block.header.Fits
  count : block.txids.length ≤ maxMerkleProofTransactions
  txids : FitsHashes block.txids
  witnesses : FitsHashes block.witnessLeaves
  coinbase : ∀ coinbase rest, block.txdata = coinbase :: rest → ∀ bytes,
    read (serialize coinbase ++ bytes) = some (coinbase, bytes)

section wire
variable [TransactionCodec] {requested : List Txid}

theorem serialize_committed (first : block.txdata = coinbase :: rest) (committed : (commitmentOutput coinbase).isSome = true) :
    serializeWitnessMerkleProof block requested = .ok (leBytes 4 4294967294 ++ (block.header.serialize ++
      ((fromTxids block.txids
        ((block.txids.map fun txid => decide (txid ∈ requested)).set 0 true)).serialize ++
      (serialize coinbase ++ ((fromTxids block.witnessLeaves
        (block.txids.map fun txid => decide (txid ∈ requested))).serialize ++ []))))) := by
  simp only [serializeWitnessMerkleProof, first, committed, if_true, append_nil]
  rfl

theorem serialize_uncommitted (first : block.txdata = coinbase :: rest)
    (uncommitted : (commitmentOutput coinbase).isSome = false) :
    serializeWitnessMerkleProof block requested = .ok (leBytes 4 4294967295 ++ (block.header.serialize ++
      ((fromTxids block.txids
        ((block.txids.map fun txid => decide (txid ∈ requested)).set 0 true)).serialize ++
      (serialize coinbase ++
        (leBytes 1 (if coinbase.computeTxid ∈ requested then 1 else 0) ++ []))))) := by
  have flag : (block.txids.map fun txid => decide (txid ∈ requested)).getD 0 false =
      decide (coinbase.computeTxid ∈ requested) := by
    rw [Block.txids, first]
    rfl
  simp only [serializeWitnessMerkleProof, first, uncommitted, Bool.false_eq_true, if_false, flag, decide_eq_true_eq]
  split <;> rfl

section
omit [Library]
variable {header : Header} {coinbase : Transaction} {txidTree : PartialMerkleTree} {txidBytes coinbaseBytes : Bytes}
  (fits : header.Fits)
  (txidParsed : ∀ error rest, parse error (txidBytes ++ rest) = .ok (txidTree, rest))
  (coinbaseRead : ∀ rest, read (coinbaseBytes ++ rest) = some (coinbase, rest))
include fits txidParsed coinbaseRead

theorem parse_committed {tree : PartialMerkleTree} {treeBytes : Bytes}
    (treeParsed : ∀ error rest, parse error (treeBytes ++ rest) = .ok (tree, rest)) :
    parseWitnessMerkleProof (leBytes 4 4294967294 ++ (header.serialize ++ (txidBytes ++ (coinbaseBytes ++
      (treeBytes ++ []))))) = .ok ⟨header, txidTree, coinbase, some tree, false⟩ := by
  refine bind_pass (required_of_read _ (readLe_leBytes (by norm_num) _)) ?_
  refine guard_pass (by decide) ?_
  refine bind_pass (required_of_read _ (Header.read_serialize fits _)) ?_
  refine bind_pass (txidParsed _ _) ?_
  refine bind_pass (required_of_read _ (coinbaseRead _)) ?_
  dsimp only
  rw [if_pos (by decide)]
  refine bind_pass (treeParsed _ _) ?_
  exact guard_pass (not_not.mpr rfl) rfl

theorem parse_uncommitted {flag : ℕ} (small : flag < 256) :
    parseWitnessMerkleProof (leBytes 4 4294967295 ++ (header.serialize ++ (txidBytes ++ (coinbaseBytes ++
      (leBytes 1 flag ++ []))))) = .ok ⟨header, txidTree, coinbase, none, flag != 0⟩ := by
  refine bind_pass (required_of_read _ (readLe_leBytes (by norm_num) _)) ?_
  refine guard_pass (by decide) ?_
  refine bind_pass (required_of_read _ (Header.read_serialize fits _)) ?_
  refine bind_pass (txidParsed _ _) ?_
  refine bind_pass (required_of_read _ (coinbaseRead _)) ?_
  dsimp only
  rw [if_neg (by decide)]
  refine bind_pass (required_of_read _ (readLe_leBytes (by omega) _)) ?_
  exact guard_pass (not_not.mpr rfl) rfl

end

omit [TransactionCodec] in
theorem requested_ne_nil (first : block.txdata = coinbase :: rest) (some_ : requested ≠ [])
    (inside : ∀ txid ∈ requested, txid ∈ block.txids) :
    requestedWith 0 coinbase rest requested ≠ [] := by
  obtain ⟨txid, asked⟩ := exists_mem_of_ne_nil requested some_
  have member := inside txid asked
  unfold requestedWith
  rw [Block.txids, first, map_cons, mem_cons] at member
  rcases member with rfl | member
  · rw [if_pos asked]
    exact cons_ne_nil _ _
  · obtain ⟨tx, inRest, rfl⟩ := mem_map.mp member
    have listed : tx ∈ (rest.zipIdx 1).map Prod.fst := by rwa [zipIdx_map_fst]
    obtain ⟨entry, present, rfl⟩ := mem_map.mp listed
    apply append_ne_nil_of_right_ne_nil
    apply ne_nil_of_mem (a := (wtxid entry.1, entry.2))
    exact mem_map.mpr ⟨entry, mem_filter.mpr ⟨present, decide_eq_true asked⟩, rfl⟩

omit [TransactionCodec] in
theorem wtxid_of_uncommitted (valid : validateWitnessCommitment block true = .ok ())
    (plain : ∀ tx : Transaction, (∀ input ∈ tx.input, input.witness = []) → wtxid tx = tx.computeTxid)
    (first : block.txdata = coinbase :: rest) (uncommitted : commitmentOutput coinbase = none) :
    ∀ tx ∈ block.txdata, wtxid tx = tx.computeTxid := by
  simp only [validateWitnessCommitment, first, head?_cons, Option.bind_some, uncommitted] at valid
  have none_ := bailIf_ok.mp valid
  intro tx member
  apply plain
  intro input spends
  by_contra witness
  apply none_
  rw [Block.hasWitness, any_eq_true]
  exact ⟨tx, member, any_eq_true.mpr ⟨input, spends, by simpa using witness⟩⟩

theorem serializeWitnessMerkleProof_complete (collision : CollisionFree) (has : st.HasBlock block)
    (forms : WireForms block) (distinct : block.witnessLeaves.Nodup)
    (plain : ∀ tx : Transaction, (∀ input ∈ tx.input, input.witness = []) → wtxid tx = tx.computeTxid)
    (some_ : requested ≠ []) (inside : ∀ txid ∈ requested, txid ∈ block.txids) :
    ∃ bytes proof, serializeWitnessMerkleProof block requested = .ok bytes ∧ parseWitnessMerkleProof bytes = .ok proof ∧
      proof.header = block.header ∧ proof.txidTree.numTransactions = block.txids.length ∧
      provenTransactions proof = some (block.requestedPairs requested) := by
  obtain ⟨coinbase, rest, first, isCoinbase⟩ := has.coinbase
  obtain ⟨nonempty, rooted, clean⟩ := validateMerkleRoot_ok has.root
  have forced : ((block.txids.map fun txid => decide (txid ∈ requested)).set 0 true).length = block.txids.length := by simp
  obtain ⟨txidTree, txidCount, txidParsed, txidMatches⟩ :=
    fromTxids_spec forced nonempty forms.count clean forms.txids rooted
  rw [chosen_txids first] at txidMatches
  have coinbaseRead := forms.coinbase coinbase rest first
  cases committed : commitmentOutput coinbase with
  | some output =>
    obtain ⟨input, nonce, spends, witness, size, root, witnessRooted, commits⟩ :=
      commitment_of_block has.commitment first committed
    have leaves : block.witnessLeaves ≠ [] := by
      rw [witnessLeaves_cons first]
      exact cons_ne_nil _ _
    have length : block.witnessLeaves.length = block.txids.length := by
      rw [witnessLeaves_cons first, Block.txids, first]
      simp
    obtain ⟨tree, -, parsed, matched⟩ := fromTxids_spec
      (show (block.txids.map fun txid => decide (txid ∈ requested)).length = block.witnessLeaves.length by simp [length])
      leaves (length ▸ forms.count) (twins_level_of_nodup collision.pair distinct) forms.witnesses witnessRooted
    rw [chosen_witnesses first] at matched
    refine ⟨_, _, serialize_committed first (by rw [committed]; rfl),
      parse_committed forms.header txidParsed coinbaseRead parsed, rfl, txidCount, ?_⟩
    simp only [provenTransactions, txidMatches, Option.bind_eq_bind, Option.bind_some, isCoinbase, ne_eq,
      not_true_eq_false, Bool.true_eq_false, or_self, if_false]
    rw [requestedPairs_cons first]
    exact witnessMatches_complete committed spends witness size commits matched (requested_ne_nil first some_ inside)
  | none =>
    have agree := wtxid_of_uncommitted has.commitment plain first committed
    have after : requestedAfter Transaction.computeTxid rest requested = requestedAfter wtxid rest requested := by
      apply map_congr_left
      intro entry member
      have inRest : entry.1 ∈ rest := by
        rw [← zipIdx_map_fst 1 rest]
        exact mem_map_of_mem (mem_of_mem_filter member)
      rw [agree entry.1 (by rw [first]; exact mem_cons_of_mem _ inRest)]
    refine ⟨_, _, serialize_uncommitted first (by rw [committed]; rfl),
      parse_uncommitted forms.header txidParsed coinbaseRead (by split <;> decide), rfl, txidCount, ?_⟩
    simp only [provenTransactions, txidMatches, Option.bind_eq_bind, Option.bind_some, isCoinbase, ne_eq,
      not_true_eq_false, Bool.true_eq_false, or_self, if_false]
    rw [requestedPairs_cons first, requestedWith, after]
    by_cases asked : coinbase.computeTxid ∈ requested
    · simp [asked]
    · simp [asked]

end wire

theorem verifyWitnessTxoutProof_complete [TransactionCodec] {bytes : Bytes} {proof : WitnessMerkleProof}
    {transactions : List (ℕ × ℕ)} (has : st.HasBlock block) (parsed : parseWitnessMerkleProof bytes = .ok proof)
    (header : proof.header = block.header) (count : proof.txidTree.numTransactions = block.txids.length)
    (proven : provenTransactions proof = some transactions) :
    ∃ report, st.verifyWitnessTxoutProof bytes = .ok (some report) ∧ report.blockHash = block.blockHash ∧
      report.transactions = transactions := by
  have active := has.active
  have counted := has.counted
  obtain ⟨height, placed⟩ : ∃ height, heightOf st.blockIndex block.blockHash = some height := by
    rw [ChainState.isActiveBlock] at active
    cases found : st.blockIndex.lookup block.blockHash with
    | none =>
      rw [found] at active
      cases active
    | some node => exact ⟨node.height, heightOf_eq found⟩
  rw [Block.blockHash, ← header] at active counted placed
  refine ⟨⟨height, st.utxoTipHeight - height + 1, blockHash proof.header, transactions⟩, ?_, ?_, rfl⟩
  · refine bind_pass parsed ?_
    simp only [proven]
    refine guard_pass (by simp [active]) ?_
    refine bind_pass (okOr_ok.mpr counted) ?_
    rw [if_neg (by rw [count]; exact not_not.mpr rfl)]
    exact bind_pass (okOr_ok.mpr placed) rfl
  · rw [header]
    rfl

end complete

namespace WitnessSample

def coinbase : Transaction :=
  ⟨1, 0, [⟨.null, [0, 0], 0, [List.replicate 32 0]⟩],
    [⟨0, [0x6a, 0x24, 0xaa, 0x21, 0xa9, 0xed] ++ List.replicate 32 0⟩]⟩

def second : Transaction := ⟨1, 1, [], []⟩
def third : Transaction := ⟨1, 2, [], []⟩
def fourth : Transaction := ⟨1, 3, [], []⟩

def hashPair (a b : ℕ) : ℕ := 2 * Nat.pair a b + 1

/-- The transactions of the sample have small even numbers, the others larger ones by their outputs. -/
def name (tx : Transaction) : ℕ :=
  if tx = coinbase then 2 else if tx = second then 4 else if tx = third then 6 else if tx = fourth then 8
  else 2 * Encodable.encode (tx.output.map fun out => (out.value, out.scriptPubkey.map UInt8.toNat)) + 10

def witnessRoot : ℕ := hashPair (hashPair 0 4) (hashPair 6 8)

def header : Header := ⟨1, 0, hashPair (hashPair 2 4) (hashPair 6 8), 0, 0, 0⟩

def block : Block := ⟨header, [coinbase, second, third, fourth]⟩

@[reducible] def library : Library :=
  { sample with
    txid := name
    wtxid := name
    hashPair := hashPair
    blockHash := fun h => if h = header then 0
      else Encodable.encode (h.version, h.prevBlockhash, h.merkleRoot, h.time, h.bits, h.nonce) + 1
    witnessCommitment := fun root nonce => if root = witnessRoot ∧ nonce = List.replicate 32 0 then List.replicate 32 0
      else List.replicate (root + 33) 0 ++ 1 :: nonce }

@[reducible] def codec : TransactionCodec := ⟨fun _ => [], fun input => some (coinbase, input)⟩

def state : ChainState :=
  { ChainState.sample ∅ with
    blockIndex := (∅ : BlockIndex).insert 0 ⟨header, 0, 1, none⟩
    active := ⟨[0], [header], [4], [4]⟩ }

/-- The tree of identifiers with the coinbase, and a witness tree that declares two leaves: the inner nodes of the
real one, of which the second is reported. -/
def forged : Bytes :=
  leBytes 4 4294967294 ++ header.serialize ++
    (mk 4 [true, true, true, false, false] [2, 4, hashPair 6 8]).serialize ++
    (mk 2 [true, false, true] [hashPair 0 4, hashPair 6 8]).serialize

section
omit [Library]

theorem name_cases (tx : Transaction) : (name tx < 10 ∧ ∀ other, name other = name tx → other = tx) ∨
      name tx = 2 * Encodable.encode (tx.output.map fun out => (out.value, out.scriptPubkey.map UInt8.toNat)) + 10 := by
  unfold name
  split_ifs with first second_ third_ fourth_
  iterate 4
    · refine .inl ⟨by omega, fun other same => ?_⟩
      split_ifs at same <;> first | omega | simp_all
  · exact .inr rfl

theorem name_output {a b : Transaction} (same : name a = name b) : a.output = b.output := by
  rcases name_cases a with ⟨_, only⟩ | large
  · rw [only b same.symm]
  rcases name_cases b with ⟨_, only⟩ | large'
  · rw [only a same]
  rw [large, large'] at same
  have encoded := Encodable.encode_injective (Nat.eq_of_mul_eq_mul_left two_pos (Nat.add_right_cancel same))
  refine map_injective_iff.mpr ?_ encoded
  rintro ⟨value, script⟩ ⟨value', script'⟩ equal
  simp only [Prod.mk.injEq] at equal
  obtain ⟨rfl, scripts⟩ := equal
  rw [map_injective_iff.mpr (fun x y => UInt8.toNat_inj.mp) scripts]

theorem name_even (tx : Transaction) : name tx % 2 = 0 := by
  unfold name
  split_ifs <;> omega

theorem replicate_append_inj {m n : ℕ} {x y : List UInt8}
    (same : List.replicate m 0 ++ 1 :: x = List.replicate n 0 ++ 1 :: y) : m = n ∧ x = y := by
  induction m generalizing n with
  | zero =>
    cases n with
    | zero => exact ⟨rfl, (List.cons.inj same).2⟩
    | succ n => exact absurd (List.cons.inj same).1 (by decide)
  | succ m ih =>
    cases n with
    | zero => exact absurd (List.cons.inj same).1 (by decide)
    | succ n =>
      obtain ⟨rfl, rest⟩ := ih (List.cons.inj same).2
      exact ⟨rfl, rest⟩

theorem collisionFree : @CollisionFree library := by
  let _ := library
  refine ⟨?_, ?_, fun a b => name_output, ?_, ?_, fun a b => Nat.succ_ne_zero _⟩
  · intro a b c d same
    have doubled : 2 * Nat.pair a c + 1 = 2 * Nat.pair b d + 1 := same
    exact Nat.pair_eq_pair.mp (by omega)
  · intro a b same
    change (if a = header then 0 else _ + 1) = (if b = header then 0 else _ + 1) at same
    split_ifs at same with first second
    · rw [first, second]
    · have encoded := Encodable.encode_injective (Nat.succ.inj same)
      simp only [Prod.mk.injEq] at encoded
      cases a
      cases b
      simp_all
  · intro root root' nonce nonce' same
    change (if root = witnessRoot ∧ nonce = _ then List.replicate 32 0 else List.replicate (root + 33) 0 ++ 1 :: nonce) =
      (if root' = witnessRoot ∧ nonce' = _ then List.replicate 32 0 else List.replicate (root' + 33) 0 ++ 1 :: nonce') at same
    split_ifs at same with first second second
    · exact ⟨first.1.trans second.1.symm, first.2.trans second.2.symm⟩
    · have lengths := congrArg List.length same
      simp only [length_replicate, length_append, length_cons] at lengths
      omega
    · have lengths := congrArg List.length same
      simp only [length_replicate, length_append, length_cons] at lengths
      omega
    · obtain ⟨roots, nonces⟩ := replicate_append_inj same
      exact ⟨by omega, nonces⟩
  · intro tx a b same
    have even := name_even tx
    have odd : name tx = 2 * Nat.pair a b + 1 := same
    omega

theorem hasBlock : @ChainState.HasBlock library state block :=
  let _ := library
  ⟨by decide +kernel, by decide +kernel, ⟨coinbase, [second, third, fourth], rfl, by decide⟩, by decide +kernel, by decide +kernel⟩

end

end WitnessSample

end BitcoindRs
