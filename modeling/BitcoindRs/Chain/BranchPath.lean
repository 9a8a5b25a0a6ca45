import BitcoindRs.Chain.HeaderChecks
import BitcoindRs.Data.Loop

/-!
The path from genesis to an indexed block, by a walk over its parents or over those that a known path does not cover,
and the block where it leaves the active chain, by bisection.
-/

namespace BitcoindRs
open FMap Ancestry BlockIndex List

namespace ChainState

/-- The blocks from `cursor` back to genesis; a walk longer than the index goes round in circles. -/
def walkBack (index : BlockIndex) : ℕ → BlockHash → Option (List BlockHash)
  | 0, _ => none
  | fuel + 1, cursor => match index.lookup cursor with
    | none => none
    | some node =>
      if node.height = 0 then some [cursor]
      else (walkBack index fuel node.header.prevBlockhash).map (cursor :: ·)

def blockHashesToHash (st : ChainState) (hash : BlockHash) : Option (List BlockHash) :=
  match st.blockIndex.lookup hash with
  | none => none
  | some node =>
    if st.active.hashes[node.height]? = some hash then some (st.active.hashes.take (node.height + 1))
    else (walkBack st.blockIndex (st.blockIndex.keys.card + 1) hash).map List.reverse

/-- The length of the part that `cached` covers, and the blocks above it back from `cursor`. -/
def walkBackTo (index : BlockIndex) (cached : List BlockHash) : ℕ → BlockHash → Option (ℕ × List BlockHash)
  | 0, _ => none
  | fuel + 1, cursor => match index.lookup cursor with
    | none => none
    | some node =>
      if cached[node.height]? = some cursor then some (node.height + 1, [])
      else if node.height = 0 then some (0, [cursor])
      else (walkBackTo index cached fuel node.header.prevBlockhash).map fun walked => (walked.1, cursor :: walked.2)

def blockHashesToHashReusingPath (st : ChainState) (hash : BlockHash) (cached : List BlockHash) : Option (List BlockHash) :=
  match st.blockIndex.lookup hash with
  | none => none
  | some target =>
    if cached[target.height]? = some hash then some (cached.take (target.height + 1))
    else (walkBackTo st.blockIndex cached (st.blockIndex.keys.card + 1) hash).map fun walked =>
      cached.take walked.1 ++ walked.2.reverse

/-- One round of the search between `low`, where the chains agree, and `high`, above which they do not. -/
def searchStep (agrees : ℕ → Bool) (range : ℕ × ℕ) : Option (ℕ × ℕ) :=
  if range.1 < range.2 then
    let middle := range.1 + (range.2 - range.1 + 1) / 2
    if agrees middle then some (middle, range.2) else some (range.1, middle - 1)
  else none

def commonActiveHeightForHashPath (st : ChainState) (path : List BlockHash) : ℕ :=
  let commonEnd := min path.length st.active.hashes.length - 1
  let agrees := fun height => path[height]? == st.active.hashes[height]?
  if st.active.hashes = [] then 0
  else if path = [] ∨ agrees 0 = false then 0
  else if agrees commonEnd then min commonEnd (2 ^ 32 - 1)
  else min (Loop.run (searchStep agrees) (fun range => range.2 - range.1) (0, commonEnd)).1 (2 ^ 32 - 1)

def PathTo (index : BlockIndex) (n : ℕ) (hash : BlockHash) (path : List BlockHash) : Prop :=
  path.length = n + 1 ∧ ∀ i ≤ n, path[i]? = back index (n - i) hash

variable {index : BlockIndex} {st : ChainState} {hash : BlockHash} {path cached : List BlockHash} {n : ℕ}

theorem PathTo.unique {other : List BlockHash} (first : PathTo index n hash path) (second : PathTo index n hash other) :
    path = other := by
  refine ext_getElem? fun i => ?_
  by_cases inside : i ≤ n
  · rw [first.2 i inside, second.2 i inside]
  · rw [getElem?_eq_none (by have := first.1; omega), getElem?_eq_none (by have := second.1; omega)]

theorem pathTo_root : PathTo index 0 hash [hash] := by
  refine ⟨rfl, ?_⟩
  intro i inside
  obtain rfl : i = 0 := by omega
  rfl

theorem PathTo.child {parent : BlockHash} (above : parentOf index hash = some parent) (known : PathTo index n parent path) :
    PathTo index (n + 1) hash (path ++ [hash]) := by
  refine ⟨by rw [length_append, known.1, length_singleton], ?_⟩
  intro i inside
  by_cases last : i = n + 1
  · subst last
    rw [getElem?_append_right (by rw [known.1]), known.1, Nat.sub_self]
    rfl
  · rw [getElem?_append_left (by rw [known.1]; omega), known.2 i (by omega), show n + 1 - i = n - i + 1 by omega]
    exact (climb_succ_of_parent _ above).symm

theorem PathTo.take {i : ℕ} {block : BlockHash} (known : PathTo index n hash path) (inside : i ≤ n)
    (listed : path[i]? = some block) : PathTo index i block (path.take (i + 1)) := by
  refine ⟨by rw [length_take, known.1]; omega, ?_⟩
  intro j below
  have reached := known.2 i inside
  rw [listed] at reached
  rw [getElem?_take_of_lt (by omega), known.2 j (by omega), back, show n - j = (n - i) + (i - j) by omega, climb_add]
  rw [back] at reached
  rw [← reached]
  rfl

section
variable (graded : Graded (heightOf index) (parentOf index))
include graded

theorem PathTo.height (known : PathTo index n hash path)
    (ranked : heightOf index hash = some n) {i : ℕ} {block : BlockHash} (listed : path[i]? = some block) :
    i ≤ n ∧ heightOf index block = some i := by
  have inside : i ≤ n := by
    have bound := (List.getElem?_eq_some_iff.mp listed).1
    rw [known.1] at bound
    omega
  obtain ⟨ancestor, reached, rankedAncestor⟩ := graded.climb ranked (Nat.sub_le n i)
  rw [known.2 i inside, back, reached, Option.some.injEq] at listed
  rw [← listed, rankedAncestor]
  exact ⟨inside, congrArg some (Nat.sub_sub_self inside)⟩

theorem walkBack_eq {fuel : ℕ} (ranked : heightOf index hash = some n)
    (enough : n < fuel) : ∃ walked, walkBack index fuel hash = some walked ∧ PathTo index n hash walked.reverse := by
  induction n generalizing hash fuel with
  | zero =>
    obtain ⟨node, found, height⟩ := heightOf_some ranked
    obtain ⟨fuel, rfl⟩ : ∃ rest, fuel = rest + 1 := ⟨fuel - 1, by omega⟩
    exact ⟨[hash], by simp [walkBack, found, height], pathTo_root⟩
  | succ n ih =>
    obtain ⟨node, found, height⟩ := heightOf_some ranked
    obtain ⟨fuel, rfl⟩ : ∃ rest, fuel = rest + 1 := ⟨fuel - 1, by omega⟩
    obtain ⟨parent, above, rankedParent⟩ := graded hash n ranked
    obtain ⟨walked, rest, known⟩ := ih rankedParent (Nat.lt_of_succ_lt_succ enough)
    have step := above
    rw [parentOf_eq found, Option.some.injEq] at step
    refine ⟨hash :: walked, by simp [walkBack, found, height, step, rest], ?_⟩
    rw [reverse_cons]
    exact known.child above

theorem walkBackTo_eq {fuel : ℕ}
    (covers : ∀ i block, heightOf index block = some i → cached[i]? = some block → PathTo index i block (cached.take (i + 1)))
    (ranked : heightOf index hash = some n) (enough : n < fuel) :
    ∃ walked, walkBackTo index cached fuel hash = some walked ∧
      PathTo index n hash (cached.take walked.1 ++ walked.2.reverse) := by
  induction n generalizing hash fuel with
  | zero =>
    obtain ⟨node, found, height⟩ := heightOf_some ranked
    obtain ⟨fuel, rfl⟩ : ∃ rest, fuel = rest + 1 := ⟨fuel - 1, by omega⟩
    by_cases here : cached[0]? = some hash
    · refine ⟨(1, []), by simp [walkBackTo, found, height, here], ?_⟩
      simpa using covers 0 hash ranked here
    · exact ⟨(0, [hash]), by simp [walkBackTo, found, height, here], by simpa using pathTo_root⟩
  | succ n ih =>
    obtain ⟨node, found, height⟩ := heightOf_some ranked
    obtain ⟨fuel, rfl⟩ : ∃ rest, fuel = rest + 1 := ⟨fuel - 1, by omega⟩
    by_cases here : cached[n + 1]? = some hash
    · refine ⟨(n + 2, []), by simp [walkBackTo, found, height, here], ?_⟩
      simpa using covers (n + 1) hash ranked here
    · obtain ⟨parent, above, rankedParent⟩ := graded hash n ranked
      obtain ⟨walked, rest, known⟩ := ih rankedParent (Nat.lt_of_succ_lt_succ enough)
      have step := above
      rw [parentOf_eq found, Option.some.injEq] at step
      refine ⟨(walked.1, hash :: walked.2), by simp [walkBackTo, found, height, here, step, rest], ?_⟩
      rw [reverse_cons, ← append_assoc]
      exact known.child above

theorem heightOf_lt_card (ranked : heightOf index hash = some n) : n < index.keys.card + 1 := by
  refine Nat.lt_succ_of_lt (graded.rank_lt_card ?_ ranked)
  intro block m placed
  obtain ⟨node, found, -⟩ := heightOf_some placed
  exact Finmap.mem_keys.mpr (Finmap.mem_of_lookup_eq_some found)

end

theorem searchStep_lowers (agrees : ℕ → Bool) (range next : ℕ × ℕ) (taken : searchStep agrees range = some next) :
    next.2 - next.1 < range.2 - range.1 := by
  unfold searchStep at taken
  split at taken
  · dsimp only at taken
    split at taken <;> cases taken <;> dsimp only <;> omega
  · cases taken

theorem search_isGreatest {agrees : ℕ → Bool} {bound : ℕ} (start : agrees 0 = true)
    (closed : ∀ i j, i ≤ j → j ≤ bound → agrees j = true → agrees i = true) :
    IsGreatest {i | i ≤ bound ∧ agrees i = true}
      (Loop.run (searchStep agrees) (fun range => range.2 - range.1) (0, bound)).1 := by
  let Between : ℕ × ℕ → Prop := fun range => range.1 ≤ range.2 ∧ range.2 ≤ bound ∧ agrees range.1 = true ∧
    ∀ i ≤ bound, agrees i = true → i ≤ range.2
  have stopped := Loop.run_stopped (searchStep_lowers agrees) (0, bound)
  have between : Between (Loop.run (searchStep agrees) (fun range => range.2 - range.1) (0, bound)) := by
    refine Loop.run_induction ?_ ⟨Nat.zero_le _, le_rfl, start, fun _ inside _ => inside⟩
    rintro ⟨low, high⟩ next ⟨ordered, inside, here, above⟩ taken
    dsimp only at ordered inside here above
    unfold searchStep at taken
    split at taken
    · dsimp only at taken
      split at taken <;> cases taken
      · rename_i agreed
        exact ⟨by dsimp only; omega, inside, agreed, above⟩
      · rename_i apart
        refine ⟨by dsimp only; omega, by dsimp only; omega, here, ?_⟩
        intro i low agreed
        by_contra far
        exact apart (closed _ i (by dsimp only at far; omega) low agreed)
    · cases taken
  obtain ⟨ordered, inside, here, above⟩ := between
  refine ⟨⟨ordered.trans inside, here⟩, ?_⟩
  rintro i ⟨low, agreed⟩
  refine (above i low agreed).trans ?_
  unfold searchStep at stopped
  split at stopped
  · dsimp only at stopped
    split at stopped <;> cases stopped
  · rename_i met
    exact Nat.le_of_not_lt met

variable [Library] {world : Set Header}

section
variable (collisionFree : Set.InjOn blockHash world)
include collisionFree

theorem Indexed.pathTo_active (indexed : Indexed world st)
    (listed : st.active.hashes[n]? = some hash) : PathTo st.blockIndex n hash (st.active.hashes.take (n + 1)) := by
  obtain ⟨node, found, rfl⟩ := heightOf_some (indexed.placed n hash listed)
  have bound := (List.getElem?_eq_some_iff.mp listed).1
  refine ⟨by rw [length_take]; omega, ?_⟩
  intro i inside
  rw [back_active collisionFree indexed.index indexed.active found listed (Nat.sub_le _ i),
    getElem?_take_of_lt (by omega), Nat.sub_sub_self inside]

theorem blockHashesToHash_pathTo (indexed : Indexed world st) (ranked : heightOf st.blockIndex hash = some n) :
    ∃ path, st.blockHashesToHash hash = some path ∧ PathTo st.blockIndex n hash path := by
  obtain ⟨node, found, rfl⟩ := heightOf_some ranked
  rw [blockHashesToHash, found]
  dsimp only
  split
  · rename_i listed
    exact ⟨_, rfl, indexed.pathTo_active collisionFree listed⟩
  · obtain ⟨walked, back, known⟩ := walkBack_eq indexed.index.graded ranked (heightOf_lt_card indexed.index.graded ranked)
    exact ⟨walked.reverse, by rw [back]; rfl, known⟩

theorem blockHashesToHash_indexed (indexed : Indexed world st) (returned : st.blockHashesToHash hash = some path) :
    ∃ n, heightOf st.blockIndex hash = some n ∧ PathTo st.blockIndex n hash path := by
  rcases found : st.blockIndex.lookup hash with _ | node
  · rw [blockHashesToHash, found] at returned
    cases returned
  · obtain ⟨same, again, known⟩ := blockHashesToHash_pathTo collisionFree indexed (heightOf_eq found)
    rw [returned, Option.some.injEq] at again
    exact ⟨node.height, heightOf_eq found, again ▸ known⟩

end

variable (collisionFree : Set.InjOn blockHash world)
include collisionFree

/-- Two indexes of the same headers agree on the ancestors of a block that both have. -/
theorem PathTo.transfer {genesis : BlockHash} {index' : BlockIndex}
    (linked : Linked world genesis index) (linked' : Linked world genesis index') (known : PathTo index n hash path)
    (ranked : heightOf index hash = some n) (ranked' : heightOf index' hash = some n) : PathTo index' n hash path := by
  obtain ⟨node, found, height⟩ := heightOf_some ranked
  obtain ⟨node', found', -⟩ := heightOf_some ranked'
  obtain ⟨m, rankedM, -, entries⟩ := linked.sameAncestry collisionFree linked' found found'
  obtain rfl : m = n := Option.some.inj (rankedM.symm.trans ranked)
  refine ⟨known.1, ?_⟩
  intro i inside
  rw [known.2 i inside]
  obtain ⟨a, reached, rankedA⟩ := linked.graded.climb ranked (Nat.sub_le m i)
  obtain ⟨a', reached', rankedA'⟩ := linked'.graded.climb ranked' (Nat.sub_le m i)
  obtain ⟨nodeA, foundA, -⟩ := heightOf_some rankedA
  obtain ⟨nodeA', foundA', -⟩ := heightOf_some rankedA'
  have same := entries (m - i) (Nat.sub_le m i)
  rw [ancestorEntry, ancestorEntry, back, back, reached, reached', Option.bind_some, Option.bind_some, foundA, foundA',
    Option.map_some, Option.map_some, Option.some.injEq, Prod.mk.injEq] at same
  rw [back, back, reached, reached', ← (linked.keyed _ _ foundA).1, ← (linked'.keyed _ _ foundA').1, same.1]

theorem blockHashesToHashReusingPath_pathTo {earlier : ChainState} {other : BlockHash} (indexed : Indexed world st) (before : Indexed world earlier)
    (network : earlier.networkGenesisHash = st.networkGenesisHash) (returned : earlier.blockHashesToHash other = some cached)
    (ranked : heightOf st.blockIndex hash = some n) :
    ∃ path, st.blockHashesToHashReusingPath hash cached = some path ∧ PathTo st.blockIndex n hash path := by
  obtain ⟨m, rankedOther, whole⟩ := blockHashesToHash_indexed collisionFree before returned
  have covers : ∀ i block, heightOf st.blockIndex block = some i → cached[i]? = some block →
      PathTo st.blockIndex i block (cached.take (i + 1)) := by
    intro i block placed listed
    obtain ⟨inside, placedBefore⟩ := whole.height before.index.graded rankedOther listed
    refine (whole.take inside listed).transfer collisionFree before.index ?_ placedBefore placed
    rw [network]
    exact indexed.index
  obtain ⟨node, found, rfl⟩ := heightOf_some ranked
  rw [blockHashesToHashReusingPath, found]
  dsimp only
  split
  · rename_i listed
    exact ⟨_, rfl, covers _ _ ranked listed⟩
  · obtain ⟨walked, back, known⟩ :=
      walkBackTo_eq indexed.index.graded covers ranked (heightOf_lt_card indexed.index.graded ranked)
    exact ⟨_, by rw [back]; rfl, known⟩

theorem agreement_closed (indexed : Indexed world st)
    (known : PathTo st.blockIndex n hash path) {i j : ℕ} (below : i ≤ j) (inside : j < min path.length st.active.hashes.length)
    (agreed : path[j]? = st.active.hashes[j]?) : path[i]? = st.active.hashes[i]? := by
  have short := known.1
  obtain ⟨block, listed⟩ : ∃ block, path[j]? = some block := ⟨_, getElem?_eq_getElem (by omega)⟩
  have prefixes := (known.take (by omega) listed).unique
    (indexed.pathTo_active collisionFree (agreed.symm.trans listed))
  have both := congrArg (fun list : List BlockHash => list[i]?) prefixes
  simpa only [getElem?_take_of_lt (show i < j + 1 by omega)] using both

theorem commonActiveHeight_isGreatest (indexed : Indexed world st)
    (started : st.active.hashes ≠ []) (ranked : heightOf st.blockIndex hash = some n) (small : n < 2 ^ 32)
    (known : PathTo st.blockIndex n hash path) :
    IsGreatest {height | ∃ block ∈ path, block ∈ st.active.hashes ∧ heightOf st.blockIndex block = some height}
      (st.commonActiveHeightForHashPath path) := by
  have length := known.1
  have positive := List.length_pos_of_ne_nil started
  let commonEnd := min path.length st.active.hashes.length - 1
  let agrees : ℕ → Bool := fun height => path[height]? == st.active.hashes[height]?
  have same : {height | ∃ block ∈ path, block ∈ st.active.hashes ∧ heightOf st.blockIndex block = some height} =
      {height | height ≤ commonEnd ∧ agrees height = true} := by
    ext height
    constructor
    · rintro ⟨block, inPath, inChain, placed⟩
      obtain ⟨i, listed⟩ := List.mem_iff_getElem?.mp inPath
      obtain ⟨j, active⟩ := List.mem_iff_getElem?.mp inChain
      obtain rfl : i = height :=
        Option.some.inj ((known.height indexed.index.graded ranked listed).2.symm.trans placed)
      obtain rfl : j = i := Option.some.inj ((indexed.placed j block active).symm.trans placed)
      have inside := (List.getElem?_eq_some_iff.mp listed).1
      have inside' := (List.getElem?_eq_some_iff.mp active).1
      exact ⟨by simp only [commonEnd]; omega, beq_iff_eq.mpr (listed.trans active.symm)⟩
    · rintro ⟨inside, agreed⟩
      simp only [commonEnd] at inside
      obtain ⟨block, listed⟩ : ∃ block, path[height]? = some block := ⟨_, List.getElem?_eq_getElem (by omega)⟩
      refine ⟨block, List.mem_of_getElem? listed, List.mem_of_getElem? ((beq_iff_eq.mp agreed).symm.trans listed), ?_⟩
      exact (known.height indexed.index.graded ranked listed).2
  have closed : ∀ i j, i ≤ j → j ≤ commonEnd → agrees j = true → agrees i = true := by
    intro i j below inside agreed
    refine beq_iff_eq.mpr (agreement_closed collisionFree indexed known below ?_ (beq_iff_eq.mp agreed))
    simp only [commonEnd] at inside
    omega
  have start : agrees 0 = true := by
    obtain ⟨first, listed⟩ : ∃ first, path[0]? = some first := ⟨_, List.getElem?_eq_getElem (by omega)⟩
    obtain ⟨root, active⟩ : ∃ root, st.active.hashes[0]? = some root := ⟨_, List.getElem?_eq_getElem positive⟩
    obtain ⟨node, found, zero⟩ := heightOf_some (known.height indexed.index.graded ranked listed).2
    have genesis := (indexed.index.root first node found).mp zero
    refine beq_iff_eq.mpr (listed.trans (Eq.trans ?_ active.symm))
    rw [genesis, (indexed.active.root 0 root active).mp rfl]
  have bounded : ∀ height ≤ commonEnd, min height (2 ^ 32 - 1) = height := by
    intro height inside
    simp only [commonEnd] at inside
    omega
  have nonempty : path ≠ [] := List.ne_nil_of_length_pos (by omega)
  have result : IsGreatest {height | height ≤ commonEnd ∧ agrees height = true} (st.commonActiveHeightForHashPath path) := by
    unfold commonActiveHeightForHashPath
    rw [if_neg started, if_neg (by simp only [nonempty, false_or]; exact fun apart => Bool.noConfusion (apart.symm.trans start))]
    split
    · rename_i agreed
      rw [bounded commonEnd le_rfl]
      exact ⟨⟨le_rfl, agreed⟩, fun height member => member.1⟩
    · have greatest := search_isGreatest start closed
      rw [bounded _ greatest.1.1]
      exact greatest
  rw [same]
  exact result

omit collisionFree

/-- Heights are `u32` in the index. The path that is passed in may come from any other time, or another node, with the
same genesis block. -/
theorem branch_paths_exact (collisionFree : Set.InjOn blockHash world) (indexed : Indexed world st)
    (started : st.active.hashes ≠ []) (narrow : ∀ hash n, heightOf st.blockIndex hash = some n → n < 2 ^ 32) :
    (∀ hash n, heightOf st.blockIndex hash = some n → ∃ path, st.blockHashesToHash hash = some path ∧
      path.length = n + 1 ∧ (∀ i ≤ n, path[i]? = back st.blockIndex (n - i) hash) ∧
      IsGreatest {height | ∃ block ∈ path, block ∈ st.active.hashes ∧ heightOf st.blockIndex block = some height}
        (st.commonActiveHeightForHashPath path) ∧
      ∀ earlier : ChainState, Indexed world earlier → earlier.networkGenesisHash = st.networkGenesisHash →
        ∀ other cached, earlier.blockHashesToHash other = some cached →
          st.blockHashesToHashReusingPath hash cached = some path) ∧
    st.medianTimePast = st.medianTimePastForParent st.bestHash := by
  refine ⟨?_, medianTimePast_eq collisionFree indexed started⟩
  intro hash n ranked
  obtain ⟨path, returned, known⟩ := blockHashesToHash_pathTo collisionFree indexed ranked
  refine ⟨path, returned, known.1, known.2, ?_, ?_⟩
  · exact commonActiveHeight_isGreatest collisionFree indexed started ranked (narrow hash n ranked) known
  · intro earlier before network other cached passed
    obtain ⟨again, reused, same⟩ :=
      blockHashesToHashReusingPath_pathTo collisionFree indexed before network passed ranked
    rw [reused, same.unique known]

omit [Library] in
/-- Two blocks on top of genesis, and a path to one of them passed in for the other. -/
theorem branch_paths_exact_fork : let _ := Library.sample
    let st := ((sample ∅).acceptHeadersInternal [⟨1, 0, 0, 1, 0, 1⟩, ⟨1, 0, 0, 1, 0, 2⟩]).2
    ∃ cached path, st.blockHashesToHash 1 = some cached ∧ st.blockHashesToHash 2 = some path ∧
      st.blockHashesToHashReusingPath 2 cached = some path ∧
      IsGreatest {height | ∃ block ∈ path, block ∈ st.active.hashes ∧ heightOf st.blockIndex block = some height}
        (st.commonActiveHeightForHashPath path) := by
  intro _ st
  let headers : List Header := [⟨1, 0, 0, 0, 0, 0⟩, ⟨1, 0, 0, 1, 0, 1⟩, ⟨1, 0, 0, 1, 0, 2⟩]
  have distinct : ∀ a ∈ headers, ∀ b ∈ headers, a.nonce = b.nonce → a = b := by decide
  have collisionFree : Set.InjOn blockHash {header | header ∈ headers} := fun a left b right => distinct a left b right
  have genesis : Indexed {header | header ∈ headers} (sample ∅) := by
    refine indexed_genesis collisionFree mem_cons_self rfl rfl rfl rfl ?_ rfl
    intro hash block stored
    rw [sample, lookup_insert_ite] at stored
    split at stored
    · cases stored
      exact ⟨Eq.symm ‹_›, mem_cons_self⟩
    · simp at stored
  have started : (sample ∅).active.hashes ≠ [] := cons_ne_nil _ _
  have kept : Kept {header | header ∈ headers} (sample ∅) st := acceptHeadersInternal_kept collisionFree _ genesis
    (genesis.rooted started) fun header member => mem_cons_of_mem _ member
  have few : st.blockIndex.keys.card = 3 := by decide +kernel
  have narrow : ∀ hash n, heightOf st.blockIndex hash = some n → n < 2 ^ 32 := by
    intro hash n ranked
    have bound := heightOf_lt_card kept.indexed.index.graded ranked
    omega
  have paths := (branch_paths_exact collisionFree kept.indexed (kept.started started) narrow).1
  obtain ⟨cached, first, -⟩ := paths 1 1 (by decide +kernel)
  obtain ⟨path, second, -, -, common, reused⟩ := paths 2 1 (by decide +kernel)
  exact ⟨cached, path, first, second, reused st kept.indexed rfl 1 cached first, common⟩

end ChainState

end BitcoindRs
