import BitcoindRs.Consensus.HeaderWire
import BitcoindRs.Consensus.Merkle
import BitcoindRs.Data.PartialMerkle

/-!
Proofs that transactions are in a block: the builder and the verifier of the `txoutproof` commands, on the bytes they
exchange.
-/

namespace BitcoindRs
open Result Codec Merkle PartialMerkle
open List hiding extract

/-! ### Reading a proof -/

def proofTruncated : Error := .message "merkle proof is truncated"

def proofBytes (length : ℕ) : Parser Error Bytes := required (readBytes length) proofTruncated

def proofLe (width : ℕ) : Parser Error ℕ := required (readLe width) proofTruncated

def proofCompactSize : Parser Error ℕ := fun input => do
  let (tag, rest) ← proofLe 1 input
  let wide (width least : ℕ) : Except Error (ℕ × Bytes) := do
    let (value, rest) ← proofLe width rest
    bailIf (value < least) (.message "non-canonical merkle proof count")
    .ok (value, rest)
  if tag = 0xfd then wide 2 0xfd
  else if tag = 0xfe then wide 4 0x10000
  else if tag = 0xff then wide 8 0x100000000
  else .ok (tag, rest)

theorem proofLe_leBytes {width n : ℕ} (fits : n < 256 ^ width) (rest : Bytes) :
    proofLe width (leBytes width n ++ rest) = .ok (n, rest) := required_of_read _ (readLe_leBytes fits rest)

theorem proofBytes_append (front rest : Bytes) : proofBytes front.length (front ++ rest) = .ok (front, rest) :=
  required_of_read _ (readBytes_append front rest)

theorem proofCompactSize_compactSize {n : ℕ} (fits : n < 2 ^ 64) (rest : Bytes) :
    proofCompactSize (compactSize n ++ rest) = .ok (n, rest) := by
  have tagged : ∀ (tag : ℕ) (rest : Bytes), tag < 256 → proofLe 1 (UInt8.ofNat tag :: rest) = .ok (tag, rest) := by
    intro tag rest small
    have read := proofLe_leBytes (show tag < 256 ^ 1 by omega) rest
    simpa [leBytes, Nat.mod_eq_of_lt small] using read
  unfold compactSize
  split_ifs with one three five
  · have first := tagged n rest (by omega)
    simp [proofCompactSize, first, show n ≠ 253 by omega, show n ≠ 254 by omega, show n ≠ 255 by omega]
  · have first : proofLe 1 ((0xfd : UInt8) :: (leBytes 2 n ++ rest)) = .ok (0xfd, leBytes 2 n ++ rest) :=
      tagged 0xfd _ (by omega)
    have wide := proofLe_leBytes (show n < 256 ^ 2 by omega) rest
    simp [proofCompactSize, first, wide, bailIf, one]
  · have first : proofLe 1 ((0xfe : UInt8) :: (leBytes 4 n ++ rest)) = .ok (0xfe, leBytes 4 n ++ rest) :=
      tagged 0xfe _ (by omega)
    have wide := proofLe_leBytes (show n < 256 ^ 4 by omega) rest
    simp [proofCompactSize, first, wide, bailIf, three]
  · have first : proofLe 1 ((0xff : UInt8) :: (leBytes 8 n ++ rest)) = .ok (0xff, leBytes 8 n ++ rest) :=
      tagged 0xff _ (by omega)
    have wide := proofLe_leBytes (show n < 256 ^ 8 by omega) rest
    simp [proofCompactSize, first, wide, bailIf, five]

/-! ### The tree -/

def maxMerkleProofTransactions : ℕ := maxBlockWeight / (4 * 60)

def merkleTreeWidth (total height : ℕ) : ℕ := (total + (1 <<< height) - 1) >>> height

/-- The loop of `merkle_tree_height`; the width is at most one at height `total`, which bounds the iterations. -/
def merkleTreeHeightFrom (total : ℕ) : ℕ → ℕ → ℕ
  | 0, height => height
  | fuel + 1, height => if 1 < merkleTreeWidth total height then merkleTreeHeightFrom total fuel (height + 1) else height

def merkleTreeHeight (total : ℕ) : ℕ := merkleTreeHeightFrom total total 0

theorem merkleTreeWidth_eq (total height : ℕ) : merkleTreeWidth total height = width total height := by
  rw [merkleTreeWidth, width, Nat.shiftRight_eq_div_pow, Nat.one_shiftLeft]

theorem merkleTreeHeightFrom_spec {total fuel height : ℕ} (enough : total ≤ height + fuel)
    (below : ∀ k < height, 1 < width total k) :
    width total (merkleTreeHeightFrom total fuel height) ≤ 1 ∧
      ∀ k < merkleTreeHeightFrom total fuel height, 1 < width total k := by
  induction fuel generalizing height with
  | zero => exact ⟨width_le_one_iff.mpr (enough.trans (Nat.lt_two_pow_self).le), below⟩
  | succ fuel ih =>
    rw [merkleTreeHeightFrom, merkleTreeWidth_eq]
    split
    case isTrue wide =>
      refine ih (by omega) fun k lower => ?_
      rcases Nat.lt_succ_iff_lt_or_eq.mp lower with before | rfl
      · exact below k before
      · exact wide
    case isFalse narrow => exact ⟨not_lt.mp narrow, below⟩

theorem merkleTreeHeight_spec (total : ℕ) :
    total ≤ 2 ^ merkleTreeHeight total ∧ ∀ k < merkleTreeHeight total, 2 ^ k < total := by
  obtain ⟨top, below⟩ := @merkleTreeHeightFrom_spec total total 0 (by omega) (fun _ none => absurd none (Nat.not_lt_zero _))
  refine ⟨width_le_one_iff.mp top, fun k lower => ?_⟩
  have wide := below k lower
  rw [← not_le, width_le_one_iff] at wide
  omega

theorem width_merkleTreeHeight {total : ℕ} (some_ : 0 < total) : width total (merkleTreeHeight total) = 1 := by
  have top := width_le_one_iff.mpr (merkleTreeHeight_spec total).1
  have positive : ¬ width total (merkleTreeHeight total) ≤ 0 := by
    rw [width_le_iff]
    omega
  omega

section tree
variable [Library]
variable {wanted : List Bool} {total height root : ℕ} {block : Block}

def merkleLevels : ℕ → List Txid → List (List Txid)
  | 0, leaves => [leaves]
  | fuel + 1, leaves => if 1 < leaves.length then leaves :: merkleLevels fuel (merkleLayer leaves) else [leaves]

def collectMerkleNodes (total : ℕ) (levels : List (List Txid)) (wanted : List Bool) :
    ℕ → ℕ → List Bool × List Txid → List Bool × List Txid
  | 0, position, (bits, hashes) =>
    let stop := min (position + 1) total
    (bits ++ [((wanted.drop position).take (stop - position)).any id], hashes ++ [(levels.getD 0 []).getD position 0])
  | height + 1, position, (bits, hashes) =>
    let start := position <<< (height + 1)
    let stop := min (start + 1 <<< (height + 1)) total
    let parentMatch := ((wanted.drop start).take (stop - start)).any id
    let bits := bits ++ [parentMatch]
    if !parentMatch then (bits, hashes ++ [(levels.getD (height + 1) []).getD position 0])
    else
      let listed := collectMerkleNodes total levels wanted height (position * 2) (bits, hashes)
      if position * 2 + 1 < merkleTreeWidth total height then
        collectMerkleNodes total levels wanted height (position * 2 + 1) listed
      else listed

def serializeMerkleProof (block : Block) (requested : List Txid) : Except Error Bytes := do
  let txids := block.txids
  bailIf (txids = []) (.message "block contains no transactions")
  let wanted := txids.map fun txid => decide (txid ∈ requested)
  let height := merkleTreeHeight txids.length
  let levels := merkleLevels txids.length txids
  let (bits, hashes) := collectMerkleNodes txids.length levels wanted height 0 ([], [])
  let flags := packBits bits
  .ok (block.header.serialize ++ (leBytes 4 txids.length ++ (compactSize hashes.length ++
    (hashes.flatMap (leBytes 32) ++ (compactSize flags.length ++ flags)))))

structure MerkleCursor where
  hashes : List Txid
  hashIndex : ℕ
  flags : Bytes
  flagIndex : ℕ

def MerkleCursor.takeBit (cursor : MerkleCursor) : Except Error (Bool × MerkleCursor) := do
  let bit ← okOr (bitAt cursor.flags cursor.flagIndex) (.message "merkle proof has too few flag bits")
  .ok (bit, { cursor with flagIndex := cursor.flagIndex + 1 })

def MerkleCursor.takeHash (cursor : MerkleCursor) : Except Error (Txid × MerkleCursor) := do
  let hash ← okOr cursor.hashes[cursor.hashIndex]? (.message "merkle proof has too few hashes")
  .ok (hash, { cursor with hashIndex := cursor.hashIndex + 1 })

def extractMerkleNode (total : ℕ) : ℕ → ℕ → MerkleCursor → Except Error ((Txid × List Txid) × MerkleCursor)
  | 0, _, cursor => do
    let (bit, cursor) ← cursor.takeBit
    let (hash, cursor) ← cursor.takeHash
    .ok ((hash, if bit then [hash] else []), cursor)
  | height + 1, position, cursor => do
    let (bit, cursor) ← cursor.takeBit
    if !bit then
      let (hash, cursor) ← cursor.takeHash
      .ok ((hash, []), cursor)
    else
      let ((left, matched), cursor) ← extractMerkleNode total height (position * 2) cursor
      if position * 2 + 1 < merkleTreeWidth total height then
        let ((right, rightMatched), cursor) ← extractMerkleNode total height (position * 2 + 1) cursor
        bailIf (right = left) (.message "invalid merkle proof")
        .ok ((hashPair left right, matched ++ rightMatched), cursor)
      else .ok ((hashPair left left, matched), cursor)

def parseMerkleProof (bytes : Bytes) : Except Error (Option (Header × List Txid × ℕ)) := do
  bailIf (bytes.length < 84) (.message "invalid merkle proof")
  let (header, _) ← required Header.read proofTruncated (bytes.take 80)
  let (total, rest) ← proofLe 4 (bytes.drop 80)
  bailIf (total = 0 ∨ maxMerkleProofTransactions < total) (.message "invalid merkle proof transaction count")
  let (hashCount, rest) ← proofCompactSize rest
  bailIf (hashCount = 0 ∨ total < hashCount) (.message "invalid merkle proof hash count")
  let (hashes, rest) ← parseMany (proofLe 32) hashCount rest
  let (flagCount, rest) ← proofCompactSize rest
  bailIf (flagCount = 0 ∨ 1000000 < flagCount) (.message "invalid merkle proof flag count")
  let (flags, _) ← proofBytes flagCount rest
  let ((root, matched), cursor) ← extractMerkleNode total (merkleTreeHeight total) 0 ⟨hashes, 0, flags, 0⟩
  bailIf ((cursor.flagIndex + 7) / 8 ≠ flags.length ∨ cursor.hashIndex ≠ hashes.length) (.message "invalid merkle proof")
  if root ≠ header.merkleRoot then .ok none else .ok (some (header, matched, total))

/-! ### The recursions are the general ones -/

theorem getElem?_merkleLevels {fuel : ℕ} {leaves : List Txid} (some_ : leaves ≠ []) (enough : leaves.length ≤ fuel + 1)
    (inside : ∀ k < height, 1 < width leaves.length k) :
    (merkleLevels fuel leaves)[height]? = some (level hashPair height leaves) := by
  induction height generalizing fuel leaves with
  | zero =>
    cases fuel with
    | zero => rfl
    | succ fuel =>
      rw [merkleLevels]
      split <;> rfl
  | succ height ih =>
    have more := inside 0 (Nat.succ_pos _)
    rw [width_zero] at more
    cases fuel with
    | zero => omega
    | succ fuel =>
      have length := @length_layer _ hashPair leaves
      rw [merkleLevels, if_pos more, getElem?_cons_succ, merkleLayer_eq, level]
      apply ih
      · intro empty
        rw [empty, length_nil] at length
        omega
      · omega
      · intro k below
        have upper := inside (k + 1) (by omega)
        rwa [← @length_level _ hashPair, level, length_level] at upper

omit [Library] in
theorem take_min_sub {start size : ℕ} (same : wanted.length = total) :
    (wanted.drop start).take (min (start + size) total - start) = (wanted.drop start).take size := by
  rw [take_eq_take_iff, length_drop, same]
  omega

theorem collectMerkleNodes_eq {xs : List Txid} {levels : List (List Txid)}
    (same : wanted.length = xs.length) (built : ∀ k ≤ height, levels[k]? = some (level hashPair k xs))
    {position : ℕ} (inside : position < width xs.length height) (bits : List Bool) (hashes : List Txid) :
    collectMerkleNodes xs.length levels wanted height position (bits, hashes) =
      (bits ++ (collect hashPair xs wanted height position).1,
        hashes ++ (collect hashPair xs wanted height position).2) := by
  induction height generalizing position bits hashes with
  | zero =>
    have zeroth := built 0 le_rfl
    have any := any_portion same 0 position
    rw [width_zero] at inside
    rw [pow_zero, Nat.mul_one] at any
    simp only [collectMerkleNodes, collect, take_min_sub same, any, getD_eq_getElem?_getD, zeroth, Option.getD_some,
      level, getElem?_eq_getElem inside, Option.toList_some]
  | succ height ih =>
    have lower : ∀ k ≤ height, levels[k]? = some (level hashPair k xs) := fun k below => built k (by omega)
    have here := built (height + 1) le_rfl
    have any := any_portion same (height + 1) position
    rw [width_succ] at inside
    have node : position < (level hashPair (height + 1) xs).length := by
      rw [length_level, width_succ]
      exact inside
    simp only [collectMerkleNodes, collect, Nat.shiftLeft_eq, Nat.one_mul, take_min_sub same, ← any,
      merkleTreeWidth_eq, Nat.mul_comm position 2]
    by_cases some_ : (portion xs wanted (height + 1) position).any (·.2) = true
    · simp only [some_, Bool.not_true, Bool.false_eq_true, if_false, if_true]
      rw [ih lower (show 2 * position < width xs.length height by omega)]
      by_cases both : 2 * position + 1 < width xs.length height
      · simp only [if_pos both]
        rw [ih lower both]
        simp only [append_assoc, cons_append, nil_append]
      · simp only [if_neg both, append_assoc, cons_append, nil_append, append_nil]
    · rw [Bool.not_eq_true] at some_
      simp only [some_, Bool.not_false, if_true, Bool.false_eq_true, if_false, getD_eq_getElem?_getD, here,
        Option.getD_some, getElem?_eq_getElem node, Option.toList_some]

omit [Library] in
theorem toOption_bind {ε α β : Type} (x : Except ε α) (f : α → Except ε β) :
    (x >>= f).toOption = x.toOption.bind fun a => (f a).toOption := by
  cases x <;> rfl

def MerkleCursor.after (cursor : MerkleCursor) (e : Extracted Txid) : (Txid × List Txid) × MerkleCursor :=
  ((e.root, e.matched.map Prod.fst), { cursor with flagIndex := e.bitsUsed, hashIndex := e.hashesUsed })

theorem extractMerkleNode_eq (total height position : ℕ) (cursor : MerkleCursor) :
    (extractMerkleNode total height position cursor).toOption =
      (extract hashPair (bitAt cursor.flags) (cursor.hashes[·]?) total height position cursor.flagIndex
        cursor.hashIndex).map cursor.after := by
  induction height generalizing position cursor with
  | zero =>
    rw [extractMerkleNode, extract, MerkleCursor.takeBit]
    cases bitAt cursor.flags cursor.flagIndex with
    | none => rfl
    | some bit =>
      simp only [okOr, ok_bind, Option.bind_eq_bind, Option.bind_some, MerkleCursor.takeHash]
      cases cursor.hashes[cursor.hashIndex]? with
      | none => rfl
      | some hash => cases bit <;> rfl
  | succ height ih =>
    rw [extractMerkleNode, extract, MerkleCursor.takeBit]
    cases bitAt cursor.flags cursor.flagIndex with
    | none => rfl
    | some bit =>
      simp only [okOr, ok_bind, Option.bind_eq_bind, Option.bind_some]
      cases bit with
      | false =>
        simp only [Bool.not_false, if_true, Bool.false_eq_true, if_false, MerkleCursor.takeHash]
        cases cursor.hashes[cursor.hashIndex]? <;> rfl
      | true =>
        simp only [Bool.not_true, Bool.false_eq_true, if_false, if_true, merkleTreeWidth_eq, Nat.mul_comm position 2]
        rw [toOption_bind, ih]
        dsimp only
        cases extract hashPair (bitAt cursor.flags) (cursor.hashes[·]?) total height (2 * position)
            (cursor.flagIndex + 1) cursor.hashIndex with
        | none => rfl
        | some left =>
          simp only [Option.map_some, Option.bind_some, MerkleCursor.after]
          split
          case isFalse => rfl
          case isTrue =>
            rw [toOption_bind, ih]
            dsimp only
            cases extract hashPair (bitAt cursor.flags) (cursor.hashes[·]?) total height (2 * position + 1)
                left.bitsUsed left.hashesUsed with
            | none => rfl
            | some right =>
              simp only [Option.map_some, Option.bind_some, MerkleCursor.after, bailIf]
              split
              case isTrue => rfl
              case isFalse =>
                simp only [ok_bind, Except.toOption, Option.map_some, MerkleCursor.after, map_append]

omit [Library] in
theorem toOption_eq_some {ε α : Type} {x : Except ε α} {a : α} : x.toOption = some a ↔ x = .ok a := by
  cases x <;> simp [Except.toOption]

/-! ### Proofs are exact -/

theorem root_at_merkleTreeHeight {txids : List Txid} (rooted : recursiveRoot hashPair txids = some root) :
    (level hashPair (merkleTreeHeight txids.length) txids)[0]? = some root := by
  obtain ⟨top, below⟩ := merkleTreeHeight_spec txids.length
  rw [← rooted]
  refine (recursiveRoot_eq_level (width_le_one_iff.mpr top) fun j lower => ?_).symm
  rw [← not_le, width_le_one_iff]
  have := below j lower
  omega

omit [Library] in
theorem merkleTreeHeight_le (small : total ≤ maxMerkleProofTransactions) : merkleTreeHeight total ≤ 15 := by
  by_contra tall
  have wide := (merkleTreeHeight_spec total).2 15 (by omega)
  have : maxMerkleProofTransactions = 16666 := by decide
  omega

theorem extract_listed {leaves : List ℕ} (some_ : leaves ≠ []) (same : wanted.length = leaves.length)
    (distinct : ∀ k, twins (level hashPair k leaves) = false)
    (rooted : recursiveRoot hashPair leaves = some root) :
    let listed := collect hashPair leaves wanted (merkleTreeHeight leaves.length) 0
    extract hashPair (bitAt (packBits listed.1)) (listed.2[·]?) leaves.length (merkleTreeHeight leaves.length) 0 0 0 =
      some ⟨root, chosen (leaves.zipIdx.zip wanted), listed.1.length, listed.2.length⟩ := by
  intro listed
  have inside : 0 < width leaves.length (merkleTreeHeight leaves.length) := by
    rw [width_merkleTreeHeight (length_pos_iff.mpr some_)]
    exact Nat.one_pos
  obtain ⟨node, atRoot, run⟩ := @extract_collect _ hashPair _ (bitAt (packBits listed.1)) (listed.2[·]?) leaves
    wanted same _ _ 0 0 (fun k _ => distinct k) inside
    (fun i below => by rw [Nat.zero_add]; exact bitAt_packBits below) (fun i _ => by rw [Nat.zero_add])
  rw [root_at_merkleTreeHeight rooted, Option.some.injEq] at atRoot
  rw [run, portion_root (merkleTreeHeight_spec leaves.length).1, atRoot, Nat.zero_add, Nat.zero_add]

theorem extractMerkleNode_collect {txids : List Txid} {requested : List Txid} (some_ : txids ≠ [])
    (distinct : ∀ k, twins (level hashPair k txids) = false) {root : ℕ}
    (rooted : recursiveRoot hashPair txids = some root) :
    let listed := collect hashPair txids (txids.map fun txid => decide (txid ∈ requested))
      (merkleTreeHeight txids.length) 0
    extractMerkleNode txids.length (merkleTreeHeight txids.length) 0 ⟨listed.2, 0, packBits listed.1, 0⟩ =
      .ok ((root, txids.filter fun txid => decide (txid ∈ requested)),
        ⟨listed.2, listed.2.length, packBits listed.1, listed.1.length⟩) := by
  intro listed
  have names : txids.zipIdx.map Prod.fst = txids := zipIdx_map_fst 0 txids
  have matched : (chosen (txids.zipIdx.zip (txids.map fun txid => decide (txid ∈ requested)))).map Prod.fst =
      txids.filter fun txid => decide (txid ∈ requested) := by
    have whole := chosen_zip_map txids.zipIdx id fun entry => decide (entry.1 ∈ requested)
    rw [map_id, map_id, ← Function.comp_def (fun txid => decide (txid ∈ requested)) Prod.fst, ← map_map,
      names] at whole
    rw [whole, ← filter_map, names]
  rw [← toOption_eq_some, extractMerkleNode_eq, extract_listed some_ (length_map _) distinct rooted, Option.map_some,
    MerkleCursor.after, matched]

theorem serializeMerkleProof_eq (some_ : block.txids ≠ []) (requested : List Txid) :
    let listed := collect hashPair block.txids (block.txids.map fun txid => decide (txid ∈ requested))
      (merkleTreeHeight block.txids.length) 0
    serializeMerkleProof block requested = .ok (block.header.serialize ++ (leBytes 4 block.txids.length ++
      (compactSize listed.2.length ++ (listed.2.flatMap (leBytes 32) ++
        (compactSize (packBits listed.1).length ++ packBits listed.1))))) := by
  intro listed
  have positive := length_pos_iff.mpr some_
  have built : ∀ k ≤ merkleTreeHeight block.txids.length,
      (merkleLevels block.txids.length block.txids)[k]? = some (level hashPair k block.txids) := by
    intro k inside
    refine getElem?_merkleLevels some_ (by omega) fun j lower => ?_
    rw [← not_le, width_le_one_iff]
    have := (merkleTreeHeight_spec block.txids.length).2 j (by omega)
    omega
  have top : 0 < width block.txids.length (merkleTreeHeight block.txids.length) := by
    rw [width_merkleTreeHeight positive]
    exact Nat.one_pos
  have collected := collectMerkleNodes_eq (length_map fun txid => decide (txid ∈ requested)) built top [] []
  refine guard_pass some_ ?_
  dsimp only
  rw [collected]
  rfl

theorem parseMerkleProof_serialize {requested : List Txid} (fits : block.header.Fits)
    (some_ : block.txids ≠ []) (small : block.txids.length ≤ maxMerkleProofTransactions)
    (distinct : ∀ k, twins (level hashPair k block.txids) = false)
    (wide : ∀ k ≤ merkleTreeHeight block.txids.length, ∀ hash ∈ level hashPair k block.txids, hash < 2 ^ 256)
    (rooted : recursiveRoot hashPair block.txids = some block.header.merkleRoot) :
    ∃ bytes, serializeMerkleProof block requested = .ok bytes ∧
      parseMerkleProof bytes =
        .ok (some (block.header, block.txids.filter (fun txid => decide (txid ∈ requested)), block.txids.length)) := by
  refine ⟨_, serializeMerkleProof_eq some_ requested, ?_⟩
  have positive := length_pos_iff.mpr some_
  have limit : maxMerkleProofTransactions = 16666 := by decide
  have top : 0 < width block.txids.length (merkleTreeHeight block.txids.length) := by
    rw [width_merkleTreeHeight positive]
    exact Nat.one_pos
  have extracted := @extractMerkleNode_collect _ block.txids requested some_ distinct _ rooted
  have hashCount := @length_collect_hashes _ hashPair block.txids
    (block.txids.map fun txid => decide (txid ∈ requested)) (length_map _) _ _ top
  have bitCount := @length_collect_bits _ hashPair block.txids
    (block.txids.map fun txid => decide (txid ∈ requested)) (merkleTreeHeight block.txids.length) 0
  have nodes := @mem_collect_hashes _ hashPair block.txids
    (block.txids.map fun txid => decide (txid ∈ requested)) (merkleTreeHeight block.txids.length) 0
  have leaves : (portion block.txids (block.txids.map fun txid => decide (txid ∈ requested))
      (merkleTreeHeight block.txids.length) 0).length = block.txids.length := by
    rw [portion_root (merkleTreeHeight_spec block.txids.length).1, length_zip, length_zipIdx, length_map,
      Nat.min_self]
  have few : 2 ^ (merkleTreeHeight block.txids.length + 1) ≤ 2 ^ 16 :=
    Nat.pow_le_pow_right two_pos (by have := merkleTreeHeight_le small; omega)
  rw [leaves] at hashCount
  revert extracted hashCount bitCount nodes
  generalize collect hashPair block.txids (block.txids.map fun txid => decide (txid ∈ requested))
    (merkleTreeHeight block.txids.length) 0 = listed
  intro extracted hashCount bitCount nodes
  have hashes : ∀ hash ∈ listed.2, ∀ rest, proofLe 32 (leBytes 32 hash ++ rest) = .ok (hash, rest) := by
    intro hash member rest
    obtain ⟨k, inside, inLevel⟩ := nodes member
    exact proofLe_leBytes ((wide k inside hash inLevel).trans_eq (by norm_num)) rest
  have flags : (packBits listed.1).length = (listed.1.length + 7) / 8 := length_packBits _
  have header := Header.length_serialize block.header
  have last := proofBytes_append (packBits listed.1) []
  rw [append_nil] at last
  refine guard_pass ?_ ?_
  · simp only [length_append, header, length_leBytes]
    omega
  rw [take_append_of_le_length header.ge, take_of_length_le header.le, ← header, drop_left]
  refine bind_pass (required_of_read _ (append_nil block.header.serialize ▸ Header.read_serialize fits [])) ?_
  refine bind_pass (proofLe_leBytes (by omega) _) ?_
  refine guard_pass (by omega) ?_
  refine bind_pass (proofCompactSize_compactSize (by omega) _) ?_
  refine guard_pass (by omega) ?_
  refine bind_pass (parseMany_flatMap listed.2 hashes _) ?_
  refine bind_pass (proofCompactSize_compactSize (by omega) _) ?_
  refine guard_pass (by omega) ?_
  refine bind_pass last ?_
  refine bind_pass extracted ?_
  refine guard_pass (by simp only [flags]; omega) ?_
  rw [if_neg (not_not.mpr rfl)]

theorem parseMerkleProof_ok {bytes : Bytes} {header : Header} {matched : List Txid}
    (accepted : parseMerkleProof bytes = .ok (some (header, matched, total))) :
    ∃ bit hash e, extract hashPair bit hash total (merkleTreeHeight total) 0 0 0 = some e ∧
      e.root = header.merkleRoot ∧ matched = e.matched.map Prod.fst := by
  obtain ⟨-, accepted⟩ := guard_ok accepted
  obtain ⟨⟨found, _⟩, -, accepted⟩ := bind_ok accepted
  obtain ⟨⟨count, rest⟩, -, accepted⟩ := bind_ok accepted
  obtain ⟨-, accepted⟩ := guard_ok accepted
  obtain ⟨⟨hashCount, rest⟩, -, accepted⟩ := bind_ok accepted
  obtain ⟨-, accepted⟩ := guard_ok accepted
  obtain ⟨⟨hashes, rest⟩, -, accepted⟩ := bind_ok accepted
  obtain ⟨⟨flagCount, rest⟩, -, accepted⟩ := bind_ok accepted
  obtain ⟨-, accepted⟩ := guard_ok accepted
  obtain ⟨⟨flags, _⟩, -, accepted⟩ := bind_ok accepted
  obtain ⟨⟨⟨root, leaves⟩, cursor⟩, run, accepted⟩ := bind_ok accepted
  obtain ⟨-, accepted⟩ := guard_ok accepted
  split at accepted
  · cases accepted
  rename_i same
  cases accepted
  rw [← toOption_eq_some, extractMerkleNode_eq, Option.map_eq_some_iff] at run
  obtain ⟨e, extracted, after⟩ := run
  cases after
  exact ⟨_, _, e, extracted, not_not.mp same, rfl⟩

/-- Proofs are exact in both directions: what the builder writes for a block is read back with the requested
transactions, and what the verifier accepts for a block names transactions of it. -/
theorem merkleProof_exact : (∀ (block : Block) (requested : List Txid), block.header.Fits → block.txids ≠ [] →
      block.txids.length ≤ maxMerkleProofTransactions →
      (∀ k, twins (level hashPair k block.txids) = false) →
      (∀ k ≤ merkleTreeHeight block.txids.length, ∀ hash ∈ level hashPair k block.txids, hash < 2 ^ 256) →
      recursiveRoot hashPair block.txids = some block.header.merkleRoot →
      ∃ bytes, serializeMerkleProof block requested = .ok bytes ∧
        parseMerkleProof bytes = .ok (some (block.header,
          block.txids.filter (fun txid => decide (txid ∈ requested)), block.txids.length))) ∧
    (Function.Injective2 hashPair → ∀ (block : Block) (bytes : Bytes) (matched : List Txid),
      recursiveRoot hashPair block.txids = some block.header.merkleRoot →
      parseMerkleProof bytes = .ok (some (block.header, matched, block.txids.length)) →
      ∀ txid ∈ matched, txid ∈ block.txids) := by
  refine ⟨fun block requested => parseMerkleProof_serialize, ?_⟩
  intro injective block bytes matched rooted accepted txid member
  obtain ⟨bit, hash, e, run, root, rfl⟩ := parseMerkleProof_ok accepted
  have node := root_at_merkleTreeHeight rooted
  rw [← root] at node
  obtain ⟨entry, listed, rfl⟩ := mem_map.mp member
  exact mem_of_getElem? (extract_sound injective run node entry listed)

end tree

def sampleProven : Block :=
  ⟨⟨1, 0, Nat.pair (Nat.pair 1001 1002) (Nat.pair 1003 1003), 0, 0, 1⟩,
    [⟨1, 1, [], []⟩, ⟨1, 2, [], []⟩, ⟨1, 3, [], []⟩]⟩

/-- The second of three transactions is proven, and what is proven is in the block. -/
theorem merkleProof_exact_sample : let _ : Library := { Library.sample with hashPair := Nat.pair }
    ∃ bytes, serializeMerkleProof sampleProven [1002] = .ok bytes ∧
      parseMerkleProof bytes = .ok (some (sampleProven.header, [1002], 3)) ∧ ∀ txid ∈ [1002], txid ∈ sampleProven.txids := by
  intro library
  have root : width sampleProven.txids.length 2 ≤ 1 := by decide
  have rooted : recursiveRoot hashPair sampleProven.txids = some sampleProven.header.merkleRoot := by
    rw [recursiveRoot_eq_level root (by decide)]
    decide +kernel
  have distinct : ∀ k, twins (level hashPair k sampleProven.txids) = false := by
    intro k
    match k with
    | 0 => decide +kernel
    | 1 => decide +kernel
    | k + 2 =>
      apply twins_of_short
      rw [length_level, width_le_one_iff]
      exact (width_le_one_iff.mp root).trans (Nat.pow_le_pow_right two_pos (by omega))
  obtain ⟨bytes, written, read⟩ := merkleProof_exact.1 sampleProven [1002]
    ⟨by decide, by decide, by decide +kernel, by decide, by decide, by decide⟩ (by decide) (by decide) distinct
    (by decide +kernel) rooted
  have found : parseMerkleProof bytes = .ok (some (sampleProven.header, [1002], sampleProven.txids.length)) := read
  exact ⟨bytes, written, found,
    merkleProof_exact.2 (fun a b c d => Nat.pair_eq_pair.mp) sampleProven bytes [1002] rooted found⟩

end BitcoindRs
