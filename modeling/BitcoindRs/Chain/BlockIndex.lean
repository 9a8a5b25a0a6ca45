import BitcoindRs.Chain.State
import BitcoindRs.Data.Ancestry

/-!
The block index as a forest: every indexed block knows its parent, its height and an ancestor further down, and the
walk over skip pointers finds the ancestor that the walk over parents finds.
-/

namespace BitcoindRs
open FMap Ancestry List ChainState
variable [Library]
variable {world : Set Header} {genesis : BlockHash} {active : ActiveChain}

namespace BlockIndex
variable {index : BlockIndex} {hash : BlockHash} {node : BlockNode}

def parentOf (index : BlockIndex) (hash : BlockHash) : Option BlockHash :=
  (index.lookup hash).map (·.header.prevBlockhash)

def heightOf (index : BlockIndex) (hash : BlockHash) : Option ℕ := (index.lookup hash).map (·.height)

section
omit [Library]

theorem parentOf_eq (found : index.lookup hash = some node) :
    parentOf index hash = some node.header.prevBlockhash := by rw [parentOf, found, Option.map_some]

theorem heightOf_eq (found : index.lookup hash = some node) :
    heightOf index hash = some node.height := by rw [heightOf, found, Option.map_some]

theorem heightOf_some {height : ℕ} (ranked : heightOf index hash = some height) :
    ∃ node, index.lookup hash = some node ∧ node.height = height := Option.map_eq_some_iff.mp ranked

end

/-- The block `n` steps back along `prev_blockhash`. -/
def back (index : BlockIndex) (n : ℕ) (hash : BlockHash) : Option BlockHash := climb (parentOf index) n hash

/-- Entries are filed under their hash, genesis alone has height zero, a block stands one above its parent, and the
skip pointer is the ancestor at the skip height. -/
structure Linked (world : Set Header) (genesis : BlockHash) (index : BlockIndex) : Prop where
  keyed : ∀ hash node, index.lookup hash = some node → blockHash node.header = hash ∧ node.header ∈ world
  root : ∀ hash node, index.lookup hash = some node → (node.height = 0 ↔ hash = genesis)
  graded : Graded (heightOf index) (parentOf index)
  skip : ∀ hash node, index.lookup hash = some node → node.skip = if node.height = 0 then none
    else back index (node.height - blockIndexSkipHeight node.height) hash

end BlockIndex

/-- The hashes of the active chain are those of its headers, each of which names the one before it. -/
structure ActiveChain.Linked (world : Set Header) (genesis : BlockHash) (active : ActiveChain) : Prop where
  hashed : active.hashes = active.headers.map blockHash
  world : ∀ header ∈ active.headers, header ∈ world
  root : ∀ i hash, active.hashes[i]? = some hash → (i = 0 ↔ hash = genesis)
  linked : ∀ i header, active.headers[i + 1]? = some header → active.hashes[i]? = some header.prevBlockhash

theorem ActiveChain.Linked.push {header : Header} {count : ℕ}
    (chain : active.Linked world genesis) (known : header ∈ world)
    (root : active.hashes = [] ↔ blockHash header = genesis)
    (next : ∀ i, active.hashes.length = i + 1 → active.hashes[i]? = some header.prevBlockhash) :
    (active.push (blockHash header) header count).Linked world genesis := by
  have lengths : active.headers.length = active.hashes.length := by rw [chain.hashed, length_map]
  refine ⟨?_, ?_, ?_, ?_⟩
  · show active.hashes ++ [_] = (active.headers ++ [_]).map _
    rw [map_append, ← chain.hashed]
    rfl
  · intro other member
    rcases mem_append.mp member with old | new
    · exact chain.world other old
    · exact mem_singleton.mp new ▸ known
  · intro i hash listed
    change (active.hashes ++ [blockHash header])[i]? = some hash at listed
    by_cases inside : i < active.hashes.length
    · rw [getElem?_append_left inside] at listed
      exact chain.root i hash listed
    · rw [getElem?_append_right (by omega), getElem?_singleton] at listed
      split at listed
      · cases listed
        rw [← root, ← length_eq_zero_iff]
        omega
      · cases listed
  · intro i other listed
    change (active.headers ++ [header])[i + 1]? = some other at listed
    show (active.hashes ++ [blockHash header])[i]? = _
    by_cases inside : i + 1 < active.headers.length
    · rw [getElem?_append_left inside] at listed
      rw [getElem?_append_left (by omega)]
      exact chain.linked i other listed
    · obtain ⟨bound, _⟩ := List.getElem?_eq_some_iff.mp listed
      rw [length_append, length_singleton] at bound
      have here : active.headers.length = i + 1 := by omega
      rw [getElem?_append_right (by omega), here, Nat.sub_self] at listed
      cases listed
      rw [getElem?_append_left (by omega)]
      exact next i (by omega)

theorem ActiveChain.Linked.truncate
    (chain : active.Linked world genesis) (length : ℕ) : (active.truncate length).Linked world genesis := by
  refine ⟨?_, ?_, ?_, ?_⟩
  · show active.hashes.take length = (active.headers.take length).map _
    rw [chain.hashed, map_take]
  · exact fun header member => chain.world header (mem_of_mem_take member)
  · intro i hash listed
    change (active.hashes.take length)[i]? = some hash at listed
    rw [getElem?_take] at listed
    split at listed
    · exact chain.root i hash listed
    · cases listed
  · intro i header listed
    change (active.headers.take length)[i + 1]? = some header at listed
    show (active.hashes.take length)[i]? = _
    rw [getElem?_take] at listed ⊢
    split at listed
    · rename_i inside
      rw [if_pos (by omega)]
      exact chain.linked i header listed
    · cases listed

theorem ActiveChain.Linked.of_hashes
    {headers : List Header} (collisionFree : Set.InjOn blockHash world) (chain : active.Linked world genesis)
    (known : ∀ header ∈ headers, header ∈ world) (same : active.hashes = headers.map blockHash)
    (counts totals : List ℕ) : (ActiveChain.mk active.hashes headers counts totals).Linked world genesis := by
  have equal : headers = active.headers := by
    refine ext_getElem? fun i => ?_
    have hashes := congrArg (fun list : List BlockHash => list[i]?) (same.symm.trans chain.hashed)
    simp only [getElem?_map] at hashes
    rcases left : headers[i]? with _ | a <;> rcases right : active.headers[i]? with _ | b
    · rfl
    · rw [left, right] at hashes
      cases hashes
    · rw [left, right] at hashes
      cases hashes
    · rw [left, right, Option.map_some, Option.map_some, Option.some.injEq] at hashes
      rw [collisionFree (known a (mem_of_getElem? left)) (chain.world b (mem_of_getElem? right)) hashes]
  subst equal
  exact ⟨chain.hashed, chain.world, chain.root, chain.linked⟩

namespace ChainState
open BlockIndex

omit [Library] in
theorem invertLowestOne_le (value : ℕ) : invertLowestOne value ≤ value - 1 := Nat.and_le_right

omit [Library] in
theorem blockIndexSkipHeight_lt {height : ℕ} (positive : 0 < height) : blockIndexSkipHeight height < height := by
  unfold blockIndexSkipHeight
  split
  · exact positive
  · split
    · have inner := invertLowestOne_le (height - 1)
      have outer := invertLowestOne_le (invertLowestOne (height - 1))
      omega
    · have bound := invertLowestOne_le height
      omega

section walk
variable {world : Set Header} {genesis : BlockHash} {index : BlockIndex} {active : ActiveChain}
variable {hash : BlockHash} {node : BlockNode} {target : ℕ}

theorem back_active (collisionFree : Set.InjOn blockHash world) (linked : Linked world genesis index)
    (chain : active.Linked world genesis) {n : ℕ}
    (found : index.lookup hash = some node) (here : active.hashes[node.height]? = some hash) (below : n ≤ node.height) :
    back index n hash = active.hashes[node.height - n]? := by
  induction n generalizing hash node with
  | zero => exact here.symm
  | succ n ih =>
    obtain ⟨k, height⟩ : ∃ k, node.height = k + 1 := ⟨node.height - 1, by omega⟩
    obtain ⟨p, above, rankedParent⟩ := linked.graded hash k (by rw [heightOf_eq found, height])
    obtain ⟨parent, foundParent, heightParent⟩ := heightOf_some rankedParent
    rw [parentOf_eq found, Option.some.injEq] at above
    rw [chain.hashed, getElem?_map, Option.map_eq_some_iff] at here
    obtain ⟨header, listed, hashed⟩ := here
    obtain ⟨hashedNode, known⟩ := linked.keyed hash node found
    have same : header = node.header :=
      collisionFree (chain.world header (mem_of_getElem? listed)) known (hashed.trans hashedNode.symm)
    have hereParent : active.hashes[parent.height]? = some p := by
      rw [heightParent, ← above, ← same]
      exact chain.linked k header (by rw [← height]; exact listed)
    rw [back, climb_succ_of_parent n (parentOf_eq found), above]
    have rest : back index n p = active.hashes[parent.height - n]? := ih foundParent hereParent (by omega)
    rw [show node.height - (n + 1) = parent.height - n by omega]
    exact rest

theorem back_back (linked : Linked world genesis index) {middle : ℕ}
    (found : index.lookup hash = some node) (upper : middle ≤ node.height) (lower : target ≤ middle) :
    ∃ between midNode, back index (node.height - middle) hash = some between ∧ index.lookup between = some midNode ∧
      midNode.height = middle ∧ back index (node.height - target) hash = back index (midNode.height - target) between := by
  obtain ⟨between, reached, ranked⟩ := linked.graded.climb (heightOf_eq found) (Nat.sub_le node.height middle)
  obtain ⟨midNode, foundMid, heightMid⟩ := heightOf_some ranked
  have heightMid' : midNode.height = middle := by omega
  refine ⟨between, midNode, reached, foundMid, heightMid', ?_⟩
  rw [back, show node.height - target = (node.height - middle) + (midNode.height - target) by omega, climb_add, reached]
  rfl

theorem ancestorHashFrom_eq (collisionFree : Set.InjOn blockHash world) (linked : Linked world genesis index)
    (chain : active.Linked world genesis) {fuel : ℕ}
    (found : index.lookup hash = some node) (below : target ≤ node.height) (enough : node.height - target ≤ fuel) :
    ancestorHashFrom active.hashes index target fuel hash node.height = back index (node.height - target) hash := by
  induction fuel generalizing hash node with
  | zero =>
    have arrived : node.height = target := by omega
    rw [ancestorHashFrom, if_pos arrived, arrived, Nat.sub_self]
    rfl
  | succ fuel ih =>
    rw [ancestorHashFrom]
    split
    · rename_i reached
      have arrived : node.height = target := by omega
      rw [if_pos arrived, arrived, Nat.sub_self]
      rfl
    rename_i higher
    split
    · rename_i here
      rw [back_active collisionFree linked chain found here (Nat.sub_le _ _)]
      congr 1
      omega
    rw [found]
    dsimp only
    have stored := linked.skip hash node found
    rw [if_neg (by omega)] at stored
    have skipBelow := blockIndexSkipHeight_lt (show 0 < node.height by omega)
    split
    · rename_i useSkip
      -- The pointer is used only when it does not overshoot the target.
      have above : target ≤ blockIndexSkipHeight node.height := by
        simp only [Bool.and_eq_true, Bool.or_eq_true, beq_iff_eq, decide_eq_true_eq] at useSkip
        omega
      obtain ⟨between, midNode, reached, foundMid, heightMid, rest⟩ := back_back linked found skipBelow.le above
      rw [stored, reached, rest]
      dsimp only
      rw [← heightMid]
      exact ih foundMid (by omega) (by omega)
    · obtain ⟨between, midNode, reached, foundMid, heightMid, rest⟩ :=
        back_back linked found (Nat.sub_le node.height 1) (show target ≤ node.height - 1 by omega)
      rw [back, show node.height - (node.height - 1) = 0 + 1 by omega, climb_succ_of_parent 0 (parentOf_eq found),
        climb_zero, Option.some.injEq] at reached
      rw [rest, reached, ← heightMid]
      exact ih foundMid (by omega) (by omega)

theorem ancestorHash_eq {st : ChainState} (collisionFree : Set.InjOn blockHash world)
    (linked : Linked world genesis st.blockIndex) (chain : st.active.Linked world genesis)
     (found : st.blockIndex.lookup hash = some node) (target : ℕ) :
    st.ancestorHash hash target =
      if node.height < target then none else back st.blockIndex (node.height - target) hash := by
  rw [ancestorHash, found]
  dsimp only
  split
  · rfl
  · rename_i below
    exact ancestorHashFrom_eq collisionFree linked chain found (by omega) (by omega)

end walk

end ChainState

namespace BlockIndex
section insertion
variable {world : Set Header} {genesis : BlockHash} {index : BlockIndex} {header : Header} {parent : BlockNode}

/-- An entry may be filed in a linked index if it replaces none with another height or parent, and if its own height
and skip pointer are those its parent gives. -/
theorem Linked.insertNode (linked : Linked world genesis index) {node : BlockNode} (known : node.header ∈ world)
    (extension : Extends (heightOf index) (parentOf index) (heightOf (index.insert (blockHash node.header) node))
      (parentOf (index.insert (blockHash node.header) node)))
    (root : node.height = 0 ↔ blockHash node.header = genesis)
    (graded : ∀ n, node.height = n + 1 → heightOf index node.header.prevBlockhash = some n)
    (skip : node.skip = if node.height = 0 then none
      else back index (node.height - 1 - blockIndexSkipHeight node.height) node.header.prevBlockhash) :
    Linked world genesis (index.insert (blockHash node.header) node) := by
  have inserted : (index.insert (blockHash node.header) node).lookup (blockHash node.header) = some node :=
    Finmap.lookup_insert _
  have cases_ : ∀ hash found, (index.insert (blockHash node.header) node).lookup hash = some found →
      (hash = blockHash node.header ∧ found = node) ∨ index.lookup hash = some found := by
    intro hash found present
    rw [lookup_insert_ite] at present
    split at present
    · rename_i same
      exact .inl ⟨same, (Option.some.inj present).symm⟩
    · exact .inr present
  constructor
  · intro hash found present
    obtain ⟨rfl, rfl⟩ | old := cases_ hash found present
    · exact ⟨rfl, known⟩
    · exact linked.keyed hash found old
  · intro hash found present
    obtain ⟨rfl, rfl⟩ | old := cases_ hash found present
    · exact root
    · exact linked.root hash found old
  · intro hash n ranked
    obtain ⟨found, present, height⟩ := heightOf_some ranked
    obtain ⟨rfl, rfl⟩ | old := cases_ hash found present
    · exact ⟨_, parentOf_eq inserted, extension.keepsRank _ n (graded n height)⟩
    · have rankedOld : heightOf index hash = some (n + 1) := by rw [heightOf_eq old, height]
      obtain ⟨p, above, rankedParent⟩ := linked.graded hash n rankedOld
      exact ⟨p, (extension.keepsParent hash _ rankedOld).trans above, extension.keepsRank p n rankedParent⟩
  · intro hash found present
    obtain ⟨rfl, rfl⟩ | old := cases_ hash found present
    · rw [skip]
      split
      · rfl
      · rename_i positive
        have skipBelow := blockIndexSkipHeight_lt (Nat.pos_of_ne_zero positive)
        obtain ⟨n, height⟩ : ∃ n, found.height = n + 1 := ⟨found.height - 1, by omega⟩
        rw [back, back, show found.height - blockIndexSkipHeight found.height =
          (found.height - 1 - blockIndexSkipHeight found.height) + 1 by omega,
          climb_succ_of_parent _ (parentOf_eq inserted)]
        exact (extension.climb linked.graded (graded n height) (by omega)).symm
    · rw [linked.skip hash found old]
      split
      · rfl
      · exact (extension.climb linked.graded (heightOf_eq old) (Nat.sub_le _ _)).symm

omit [Library] in
theorem extends_insert {hash : BlockHash} {node : BlockNode}
    (agrees : ∀ old, index.lookup hash = some old → old.header = node.header ∧ old.height = node.height) :
    Extends (heightOf index) (parentOf index) (heightOf (index.insert hash node)) (parentOf (index.insert hash node)) := by
  have same : ∀ other n, heightOf index other = some n → heightOf (index.insert hash node) other = some n ∧
      parentOf (index.insert hash node) other = parentOf index other := by
    intro other n ranked
    obtain ⟨old, present, rfl⟩ := heightOf_some ranked
    by_cases here : other = hash
    · subst here
      obtain ⟨headers, heights⟩ := agrees old present
      have inserted : (index.insert other node).lookup other = some node := Finmap.lookup_insert _
      rw [heightOf_eq inserted, parentOf_eq inserted, parentOf_eq present, headers, heights]
      exact ⟨rfl, rfl⟩
    · rw [heightOf, parentOf, parentOf, lookup_insert_ite, if_neg here]
      exact ⟨ranked, rfl⟩
  exact ⟨fun other n ranked => (same other n ranked).1, fun other n ranked => (same other n ranked).2⟩

theorem Linked.height_eq (collisionFree : Set.InjOn blockHash world) (linked : Linked world genesis index)
    (known : header ∈ world) (found : index.lookup header.prevBlockhash = some parent)
    (notGenesis : blockHash header ≠ genesis) {old : BlockNode}
    (present : index.lookup (blockHash header) = some old) :
    old.header = header ∧ old.height = parent.height + 1 := by
  obtain ⟨hashed, knownOld⟩ := linked.keyed _ old present
  have headers : old.header = header := collisionFree knownOld known hashed
  have positive : old.height ≠ 0 := fun zero => notGenesis ((linked.root _ old present).mp zero)
  obtain ⟨k, heightOld⟩ : ∃ k, old.height = k + 1 := ⟨old.height - 1, by omega⟩
  obtain ⟨p, above, rankedParent⟩ := linked.graded _ k (by rw [heightOf_eq present, heightOld])
  rw [parentOf_eq present, Option.some.injEq, headers] at above
  rw [← above, heightOf_eq found, Option.some.injEq] at rankedParent
  exact ⟨headers, by omega⟩

def childNode (index : BlockIndex) (header : Header) (parent : BlockNode) (work : ℕ) : BlockNode :=
  ⟨header, parent.height + 1, work,
    back index (parent.height - blockIndexSkipHeight (parent.height + 1)) header.prevBlockhash⟩

theorem childNode_eq {st : ChainState} (collisionFree : Set.InjOn blockHash world)
    (linked : Linked world genesis st.blockIndex) (chain : st.active.Linked world genesis)
    (found : st.blockIndex.lookup header.prevBlockhash = some parent) (work : ℕ) :
    (⟨header, parent.height + 1, work,
      st.ancestorHash header.prevBlockhash (blockIndexSkipHeight (parent.height + 1))⟩ : BlockNode) =
      childNode st.blockIndex header parent work := by
  have below : blockIndexSkipHeight (parent.height + 1) < parent.height + 1 :=
    blockIndexSkipHeight_lt (Nat.succ_pos _)
  rw [ancestorHash_eq collisionFree linked chain found, if_neg (by omega)]
  rfl

section
variable (collisionFree : Set.InjOn blockHash world)
include collisionFree

theorem Linked.extends_child (linked : Linked world genesis index)
    (known : header ∈ world) (found : index.lookup header.prevBlockhash = some parent)
    (notGenesis : blockHash header ≠ genesis) (work : ℕ) :
    Extends (heightOf index) (parentOf index)
      (heightOf (index.insert (blockHash header) (childNode index header parent work)))
      (parentOf (index.insert (blockHash header) (childNode index header parent work))) :=
  extends_insert fun _ present => linked.height_eq collisionFree known found notGenesis present

theorem Linked.insertChild (linked : Linked world genesis index)
    (known : header ∈ world) (found : index.lookup header.prevBlockhash = some parent)
    (notGenesis : blockHash header ≠ genesis) (work : ℕ) :
    Linked world genesis (index.insert (blockHash header) (childNode index header parent work)) := by
  refine linked.insertNode (show (childNode index header parent work).header ∈ world from known)
    (linked.extends_child collisionFree known found notGenesis work) ?_ ?_ ?_
  · exact ⟨fun zero => absurd zero (Nat.succ_ne_zero _), fun same => absurd same notGenesis⟩
  · intro n height
    rw [← Nat.succ.inj (show parent.height + 1 = n + 1 from height)]
    exact heightOf_eq found
  · exact (if_neg (Nat.succ_ne_zero parent.height)).symm

theorem Linked.extends_genesis (linked : Linked world genesis index)
    (known : header ∈ world) (isGenesis : blockHash header = genesis) (work : ℕ) :
    Extends (heightOf index) (parentOf index)
      (heightOf (index.insert (blockHash header) ⟨header, 0, work, none⟩))
      (parentOf (index.insert (blockHash header) ⟨header, 0, work, none⟩)) := by
  refine extends_insert fun old present => ?_
  obtain ⟨hashed, knownOld⟩ := linked.keyed _ old present
  exact ⟨collisionFree knownOld known hashed, (linked.root _ old present).mpr isGenesis⟩

theorem Linked.insertGenesis (linked : Linked world genesis index)
    (known : header ∈ world) (isGenesis : blockHash header = genesis) (work : ℕ) :
    Linked world genesis (index.insert (blockHash header) ⟨header, 0, work, none⟩) := by
  refine linked.insertNode (show (BlockNode.mk header 0 work none).header ∈ world from known)
    (linked.extends_genesis collisionFree known isGenesis work) ?_ ?_ rfl
  · exact iff_of_true rfl isGenesis
  · exact fun n height => absurd height (Nat.succ_ne_zero n).symm

end

end insertion
end BlockIndex

end BitcoindRs
