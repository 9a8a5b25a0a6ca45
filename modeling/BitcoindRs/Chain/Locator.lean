import BitcoindRs.Chain.BranchPath
import BitcoindRs.Chain.Bip30

/-!
Block locators: what a node says about its chain when it asks for headers, and what the other node sends back.
-/

namespace BitcoindRs
open FMap Ancestry BlockIndex List

namespace ChainState
variable {fork : ℕ} {asker : ChainState} {locator : List BlockHash}

/-- The rest of the locator from a block on, after `pushed` entries. The height bounds the rounds. -/
def locatorFrom (st : ChainState) : ℕ → ℕ → ℕ → BlockHash → ℕ → List BlockHash
  | 0, _, _, hash, _ => [hash]
  | fuel + 1, pushed, step, hash, height =>
    if height = 0 then [hash]
    else
      let step := if 10 < pushed + 1 then min (step * 2) (2 ^ 32 - 1) else step
      match st.ancestorHash hash (height - step) with
      | none => [hash]
      | some ancestor => hash :: locatorFrom st fuel (pushed + 1) step ancestor (height - step)

def blockLocatorHashes (st : ChainState) : List BlockHash :=
  match st.blockIndex.lookup st.bestHash with
  | none => []
  | some tip => st.locatorFrom tip.height 0 1 st.bestHash tip.height

def blockLocatorHashesFrom (st : ChainState) (startHash : BlockHash) : List BlockHash :=
  match st.blockIndex.lookup startHash with
  | none => st.blockLocatorHashes
  | some start => st.locatorFrom start.height 0 1 startHash start.height

def forkHeight (st : ChainState) (hash : BlockHash) : Option ℕ :=
  match st.blockIndex.lookup hash with
  | none => none
  | some node =>
    if st.active.hashes[node.height]? = some hash then some node.height
    else if st.height ≤ node.height ∧ st.ancestorHash hash st.height = some st.bestHash then some st.height
    else none

def stopLength (st : ChainState) (stopHash : BlockHash) : ℕ :=
  if stopHash = 0 then st.active.hashes.length
  else match st.blockIndex.lookup stopHash with
    | none => st.active.hashes.length
    | some node => if st.active.hashes[node.height]? = some stopHash then node.height + 1 else st.active.hashes.length

def headersAfterLocator (st : ChainState) (locator : List BlockHash) (stopHash : BlockHash) : List Header :=
  if locator = [] then []
  else
    let start := match locator.findSome? st.forkHeight with
      | none => 0
      | some height => height + 1
    let stop := min (st.stopLength stopHash) st.active.headers.length
    if stop ≤ start then [] else ((st.active.headers.take stop).drop start).take 2000

variable [Library] {world : Set Header} {st : ChainState} {hash stop : BlockHash} {n : ℕ}

/-! ### The locator -/

/-- Ancestors of a block, from the block itself down to genesis, the first ten one apart and then at distances that double. -/
def IsLocator (st : ChainState) (n : ℕ) (hash : BlockHash) (locator : List BlockHash) : Prop :=
  locator.getLast? = some st.networkGenesisHash ∧
  ∃ heights : List ℕ, heights.head? = some n ∧ heights.Pairwise (· > ·) ∧
    List.Forall₂ (fun entry height => height ≤ n ∧ back st.blockIndex (n - height) hash = some entry) locator heights ∧
    ∀ i upper lower, heights[i]? = some upper → heights[i + 1]? = some lower → lower = upper - 2 ^ (i - 9)

omit [Library] in
theorem step_doubles (pushed : ℕ) :
    (if 10 < pushed + 1 then min (min (2 ^ (pushed - 1 - 9)) (2 ^ 32 - 1) * 2) (2 ^ 32 - 1) else min (2 ^ (pushed - 1 - 9)) (2 ^ 32 - 1)) =
      min (2 ^ (pushed - 9)) (2 ^ 32 - 1) := by
  split
  · rw [show pushed - 9 = pushed - 1 - 9 + 1 by omega, pow_succ]
    omega
  · rw [show pushed - 1 - 9 = 0 by omega, show pushed - 9 = 0 by omega]

variable (collisionFree : Set.InjOn blockHash world)

variable (indexed : Indexed world st)

include indexed in
include collisionFree in
theorem locatorFrom_spec {fuel : ℕ}
    (pushed : ℕ) (ranked : heightOf st.blockIndex hash = some n) (enough : n ≤ fuel) (small : n < 2 ^ 32) :
    let locator := st.locatorFrom fuel pushed (min (2 ^ (pushed - 1 - 9)) (2 ^ 32 - 1)) hash n
    locator.getLast? = some st.networkGenesisHash ∧ ∃ heights : List ℕ, heights.head? = some n ∧
      heights.Pairwise (· > ·) ∧
      List.Forall₂ (fun entry height => height ≤ n ∧ back st.blockIndex (n - height) hash = some entry) locator heights ∧
      ∀ i upper lower, heights[i]? = some upper → heights[i + 1]? = some lower → lower = upper - 2 ^ (pushed + i - 9) := by
  have root : n = 0 → hash = st.networkGenesisHash := by
    intro zero
    obtain ⟨node, found, height⟩ := heightOf_some ranked
    exact (indexed.index.root hash node found).mp (height.trans zero)
  have single : n = 0 → List.Forall₂ (fun entry height => height ≤ n ∧ back st.blockIndex (n - height) hash = some entry)
      [hash] [n] := by
    rintro rfl
    exact .cons ⟨le_rfl, rfl⟩ .nil
  induction fuel generalizing hash n pushed with
  | zero =>
    have zero : n = 0 := by omega
    exact ⟨congrArg some (root zero), [n], rfl, pairwise_singleton _ _, single zero, by simp⟩
  | succ fuel ih =>
    by_cases zero : n = 0
    · rw [locatorFrom, if_pos zero]
      exact ⟨congrArg some (root zero), [n], rfl, pairwise_singleton _ _, single zero, by simp⟩
    obtain ⟨node, found, rfl⟩ := heightOf_some ranked
    have positive : 0 < 2 ^ (pushed - 9) := Nat.two_pow_pos _
    obtain ⟨target, lowered⟩ : ∃ target, target = node.height - min (2 ^ (pushed - 9)) (2 ^ 32 - 1) := ⟨_, rfl⟩
    have spaced : target = node.height - 2 ^ (pushed - 9) := by omega
    obtain ⟨ancestor, reached, rankedAncestor⟩ := indexed.index.graded.climb ranked (Nat.sub_le node.height target)
    have below : target < node.height := by omega
    rw [Nat.sub_sub_self below.le] at rankedAncestor
    have walked : st.ancestorHash hash target = some ancestor := by
      rw [ancestorHash_eq collisionFree indexed.index indexed.active found, if_neg (by omega)]
      exact reached
    obtain ⟨last, heights, first, ordered, placed, steps⟩ :=
      ih (pushed + 1) rankedAncestor (by omega) (by omega)
        (fun zero => by
          obtain ⟨nodeA, foundA, heightA⟩ := heightOf_some rankedAncestor
          exact (indexed.index.root ancestor nodeA foundA).mp (heightA.trans zero))
        (fun zero => by rw [zero]; exact .cons ⟨le_rfl, rfl⟩ .nil)
    rw [Nat.add_sub_cancel] at last placed
    rw [locatorFrom, if_neg zero]
    dsimp only
    rw [step_doubles, ← lowered, walked]
    dsimp only
    obtain ⟨heights, rfl⟩ : ∃ rest, heights = target :: rest := by
      cases heights with
      | nil => cases first
      | cons head rest => exact ⟨rest, by rw [Option.some.inj first]⟩
    refine ⟨?_, node.height :: target :: heights, rfl, ?_, .cons ⟨le_rfl, by rw [Nat.sub_self]; rfl⟩ ?_, ?_⟩
    · rw [getLast?_cons, last]
      rfl
    · refine pairwise_cons.mpr ⟨?_, ordered⟩
      intro height member
      rcases mem_cons.mp member with rfl | later
      · exact below
      · exact ((pairwise_cons.mp ordered).1 height later).trans below
    · refine placed.imp ?_
      rintro entry height ⟨inside, reachedEntry⟩
      refine ⟨by omega, ?_⟩
      rw [back, show node.height - height = (node.height - target) + (target - height) by omega, climb_add, reached]
      exact reachedEntry
    · intro i upper lower listed next
      cases i with
      | zero =>
        cases listed
        cases next
        exact spaced
      | succ i =>
        rw [show pushed + (i + 1) - 9 = pushed + 1 + i - 9 by omega]
        exact steps i upper lower listed next

include indexed in
include collisionFree in
theorem blockLocatorHashesFrom_isLocator (ranked : heightOf st.blockIndex hash = some n) (small : n < 2 ^ 32) :
    IsLocator st n hash (st.blockLocatorHashesFrom hash) := by
  obtain ⟨node, found, rfl⟩ := heightOf_some ranked
  have spec := locatorFrom_spec collisionFree indexed 0 ranked le_rfl small
  simp only [Nat.zero_add] at spec
  rw [IsLocator, blockLocatorHashesFrom, found]
  exact spec

/-! ### The answer -/

/-- The entry is on the active chain, or its ancestor at the height of the tip is the tip. -/
def Anchored (st : ChainState) (entry : BlockHash) (fork : ℕ) : Prop :=
  st.active.hashes[fork]? = some entry ∨
    fork = st.height ∧ ∃ n, heightOf st.blockIndex entry = some n ∧ st.height < n ∧
      back st.blockIndex (n - st.height) entry = some st.bestHash

/-- Where the first entry that qualifies puts the fork, or genesis. -/
def ForkOf (st : ChainState) (locator : List BlockHash) (fork : ℕ) : Prop :=
  (∃ before entry after, locator = before ++ entry :: after ∧ (∀ other ∈ before, ∀ height, ¬ Anchored st other height) ∧
    Anchored st entry fork) ∨
  (∀ entry ∈ locator, ∀ height, ¬ Anchored st entry height) ∧ fork = 0

/-- At most 2000 headers of the active chain from the one above the fork on, each naming the one before it. There are fewer
only at the tip or at the stop hash. -/
structure RunAfter (st : ChainState) (fork : ℕ) (stop : BlockHash) (run : List Header) : Prop where
  short : run.length ≤ 2000
  listed : ∀ i < run.length, run[i]? = st.active.headers[fork + 1 + i]?
  linked : ∀ i header, run[i]? = some header → st.active.hashes[fork + i]? = some header.prevBlockhash
  stops : ∀ i header, stop ≠ 0 → run[i]? = some header → blockHash header = stop → i + 1 = run.length
  complete : run.length = 2000 ∨ fork + 1 + run.length = st.active.headers.length ∨
    ∃ height, st.active.hashes[height]? = some stop ∧ (height = fork + run.length ∨ height < fork ∧ run = [])

include indexed in
include collisionFree in
theorem forkHeight_iff (started : st.active.hashes ≠ []) : st.forkHeight hash = some fork ↔ Anchored st hash fork := by
  have tip := (indexed.tip started).1
  rcases found : st.blockIndex.lookup hash with _ | node
  · have absent : heightOf st.blockIndex hash = none := by rw [heightOf, found, Option.map_none]
    rw [forkHeight, found]
    refine iff_of_false (by simp) ?_
    rintro (listed | ⟨-, n, ranked, -⟩)
    · rw [indexed.placed _ _ listed] at absent
      cases absent
    · rw [ranked] at absent
      cases absent
  · have ranked := heightOf_eq found
    rw [forkHeight, found]
    dsimp only
    split
    · rename_i listed
      rw [Option.some.injEq]
      constructor
      · rintro rfl
        exact .inl listed
      · rintro (also | ⟨-, n, rankedN, above, -⟩)
        · exact Option.some.inj (ranked.symm.trans (indexed.placed _ _ also))
        · have inside := (List.getElem?_eq_some_iff.mp listed).1
          have same := Option.some.inj (ranked.symm.trans rankedN)
          rw [height] at above
          omega
    · rename_i apart
      have off : st.active.hashes[fork]? ≠ some hash := by
        intro listed
        rw [← Option.some.inj (ranked.symm.trans (indexed.placed _ _ listed))] at listed
        exact apart listed
      rw [Anchored, or_iff_right off, ancestorHash_eq collisionFree indexed.index indexed.active found]
      by_cases extends_ : st.height ≤ node.height ∧
          (if node.height < st.height then none else back st.blockIndex (node.height - st.height) hash) = some st.bestHash
      · rw [if_pos extends_]
        obtain ⟨reaches, reached⟩ := extends_
        rw [if_neg (by omega)] at reached
        have above : st.height ≠ node.height := by
          intro same
          rw [same, Nat.sub_self, back, climb_zero] at reached
          rw [← same, tip, Option.some.injEq] at apart
          exact apart (Option.some.inj reached).symm
        rw [Option.some.injEq]
        exact ⟨fun same => ⟨same.symm, node.height, ranked, by omega, reached⟩, fun anchored => anchored.1.symm⟩
      · rw [if_neg extends_]
        refine iff_of_false (by simp) ?_
        rintro ⟨-, n, rankedN, above, reached⟩
        obtain rfl := Option.some.inj (ranked.symm.trans rankedN)
        exact extends_ ⟨above.le, by rw [if_neg (by omega)]; exact reached⟩

include indexed in
theorem stopLength_cases (stop : BlockHash) :
    (st.stopLength stop = st.active.hashes.length ∧ (stop = 0 ∨ stop ∉ st.active.hashes)) ∨
      stop ≠ 0 ∧ ∃ height, st.active.hashes[height]? = some stop ∧ st.stopLength stop = height + 1 := by
  unfold stopLength
  split
  · rename_i zero
    exact .inl ⟨rfl, .inl zero⟩
  rename_i named
  rcases found : st.blockIndex.lookup stop with _ | node
  · refine .inl ⟨rfl, .inr ?_⟩
    intro member
    obtain ⟨i, listed⟩ := mem_iff_getElem?.mp member
    have placed := indexed.placed i stop listed
    rw [heightOf, found] at placed
    cases placed
  · dsimp only
    split
    · rename_i listed
      exact .inr ⟨named, node.height, listed, rfl⟩
    · rename_i apart
      refine .inl ⟨rfl, .inr ?_⟩
      intro member
      obtain ⟨i, listed⟩ := mem_iff_getElem?.mp member
      obtain rfl := Option.some.inj ((heightOf_eq found).symm.trans (indexed.placed i stop listed))
      exact apart listed

def answerFrom (st : ChainState) (start : ℕ) (stop : BlockHash) : List Header :=
  ((st.active.headers.take (min (st.stopLength stop) st.active.headers.length)).drop start).take 2000

omit [Library] in
theorem headersAfterLocator_eq (some_ : locator ≠ []) (stop : BlockHash) : st.headersAfterLocator locator stop =
      st.answerFrom ((locator.findSome? st.forkHeight).elim 0 (· + 1)) stop := by
  have start : (match locator.findSome? st.forkHeight with | none => 0 | some height => height + 1) =
      (locator.findSome? st.forkHeight).elim 0 (· + 1) := by
    cases locator.findSome? st.forkHeight <;> rfl
  rw [headersAfterLocator, if_neg some_, start]
  dsimp only
  split
  · rename_i beyond
    rw [answerFrom, drop_eq_nil_of_le (by rw [length_take]; omega), take_nil]
  · rfl

include indexed in
theorem answerFrom_runAfter (inside : fork < st.active.hashes.length) (stop : BlockHash) :
    RunAfter st fork stop (st.answerFrom (fork + 1) stop) := by
  have lengths : st.active.headers.length = st.active.hashes.length := by rw [indexed.active.hashed, length_map]
  obtain ⟨limit, bounded⟩ : ∃ limit, limit = min (st.stopLength stop) st.active.headers.length := ⟨_, rfl⟩
  have length : (st.answerFrom (fork + 1) stop).length = min 2000 (limit - (fork + 1)) := by
    rw [answerFrom, length_take, length_drop, length_take, ← bounded]
    omega
  have listed : ∀ i < (st.answerFrom (fork + 1) stop).length,
      (st.answerFrom (fork + 1) stop)[i]? = st.active.headers[fork + 1 + i]? := by
    intro i below
    rw [length] at below
    rw [answerFrom, getElem?_take_of_lt (by omega), getElem?_drop, ← bounded, getElem?_take_of_lt (by omega)]
  have present : ∀ i header, (st.answerFrom (fork + 1) stop)[i]? = some header →
      i < (st.answerFrom (fork + 1) stop).length ∧ st.active.headers[fork + 1 + i]? = some header := by
    intro i header found
    have below := (List.getElem?_eq_some_iff.mp found).1
    exact ⟨below, (listed i below).symm.trans found⟩
  refine ⟨by omega, listed, ?_, ?_, ?_⟩
  · intro i header found
    refine indexed.active.linked (fork + i) header ?_
    rw [show fork + i + 1 = fork + 1 + i by omega]
    exact (present i header found).2
  · intro i header named found same
    obtain ⟨below, placed⟩ := present i header found
    have hashes : st.active.hashes[fork + 1 + i]? = some stop := by
      rw [indexed.active.hashed, getElem?_map, placed, Option.map_some, same]
    have ranked := indexed.placed _ _ hashes
    rcases stopLength_cases indexed stop with ⟨-, zero | absent⟩ | ⟨-, height, there, stopped⟩
    · exact absurd zero named
    · exact absurd (mem_of_getElem? hashes) absent
    · have here := Option.some.inj (ranked.symm.trans (indexed.placed _ _ there))
      omega
  · rcases stopLength_cases indexed stop with ⟨whole, -⟩ | ⟨-, height, there, stopped⟩
    · omega
    · have below := (List.getElem?_eq_some_iff.mp there).1
      by_cases full : (st.answerFrom (fork + 1) stop).length = 2000
      · exact .inl full
      · refine .inr (.inr ⟨height, there, ?_⟩)
        by_cases above : fork ≤ height
        · exact .inl (by omega)
        · exact .inr ⟨by omega, eq_nil_of_length_eq_zero (by omega)⟩

omit [Library] in
theorem Anchored.inside (started : st.active.hashes ≠ []) (anchored : Anchored st hash fork) :
    fork < st.active.hashes.length := by
  rcases anchored with listed | ⟨rfl, -⟩
  · exact (List.getElem?_eq_some_iff.mp listed).1
  · have positive := length_pos_of_ne_nil started
    rw [height]
    omega

include indexed in
include collisionFree in
theorem headersAfterLocator_iff (started : st.active.hashes ≠ []) (some_ : locator ≠ []) (stop : BlockHash) :
    ∃ fork, ForkOf st locator fork ∧ (RunAfter st fork stop (st.headersAfterLocator locator stop) ↔
      ∃ entry ∈ locator, ∃ height, Anchored st entry height) := by
  rw [headersAfterLocator_eq some_]
  rcases first : locator.findSome? st.forkHeight with _ | fork
  · have none_ : ∀ entry ∈ locator, ∀ height, ¬ Anchored st entry height := by
      intro entry member height anchored
      have nothing := findSome?_eq_none_iff.mp first entry member
      rw [(forkHeight_iff collisionFree indexed started).mpr anchored] at nothing
      cases nothing
    refine ⟨0, .inr ⟨none_, rfl⟩, iff_of_false ?_ (by rintro ⟨entry, member, height, anchored⟩; exact none_ entry member height anchored)⟩
    -- The answer begins with genesis itself.
    intro run
    have lengths : st.active.headers.length = st.active.hashes.length := by rw [indexed.active.hashed, length_map]
    have positive := length_pos_of_ne_nil started
    have room : 0 < st.stopLength stop := by
      rcases stopLength_cases indexed stop with ⟨whole, -⟩ | ⟨-, height, -, stopped⟩ <;> omega
    have begins : (st.answerFrom 0 stop)[0]? = st.active.headers[0]? := by
      rw [answerFrom, getElem?_take_of_lt (by omega), drop_zero, getElem?_take_of_lt (by omega)]
    have second := run.listed 0 (by
      rw [Option.elim_none, answerFrom, length_take, length_drop, length_take]
      omega)
    rw [Option.elim_none, begins] at second
    have hashes : st.active.hashes[0]? = st.active.hashes[1]? := by
      rw [indexed.active.hashed, getElem?_map, getElem?_map, second]
    obtain ⟨genesis, listed⟩ : ∃ genesis, st.active.hashes[0]? = some genesis := ⟨_, getElem?_eq_getElem positive⟩
    have root := (indexed.active.root 0 genesis listed).mp rfl
    exact absurd ((indexed.active.root 1 genesis (hashes.symm.trans listed)).mpr root) one_ne_zero
  · obtain ⟨before, entry, after, rfl, here, earlier⟩ := findSome?_eq_some_iff.mp first
    have anchored := (forkHeight_iff collisionFree indexed started).mp here
    refine ⟨fork, .inl ⟨before, entry, after, rfl, ?_, anchored⟩, ?_⟩
    · intro other member height also
      have nothing := earlier other member
      rw [(forkHeight_iff collisionFree indexed started).mpr also] at nothing
      cases nothing
    · exact iff_of_true (answerFrom_runAfter indexed (anchored.inside started) stop) ⟨entry, by simp, fork, anchored⟩

/-! ### Two nodes -/

include collisionFree

include indexed

/-- A node that has a block of the active chain of another has all blocks below it. -/
theorem has_active_below
    (asking : Indexed world asker) (network : asker.networkGenesisHash = st.networkGenesisHash) {i : ℕ} {block : BlockHash}
    (listed : st.active.hashes[fork]? = some hash) (known : heightOf asker.blockIndex hash = some n) (below : i ≤ fork)
    (listedBlock : st.active.hashes[i]? = some block) : heightOf asker.blockIndex block = some i := by
  have linked := asking.index
  rw [network] at linked
  obtain ⟨node, found, height⟩ := heightOf_some (indexed.placed fork hash listed)
  obtain ⟨node', found', height'⟩ := heightOf_some known
  have same := (indexed.index.same_node collisionFree linked found found').2
  obtain rfl : n = fork := by omega
  have path := (indexed.pathTo_active collisionFree listed).transfer collisionFree indexed.index linked
    (indexed.placed n hash listed) known
  refine (path.height linked.graded known ?_).2
  rw [getElem?_take_of_lt (by omega)]
  exact listedBlock

theorem anchored_known (asking : Indexed world asker) (network : asker.networkGenesisHash = st.networkGenesisHash)
    (started : st.active.hashes ≠ []) (anchored : Anchored st hash fork) (known : heightOf asker.blockIndex hash = some n) :
    ∃ block, st.active.hashes[fork]? = some block ∧ heightOf asker.blockIndex block = some fork := by
  have linked := asking.index
  rw [network] at linked
  rcases anchored with listed | ⟨rfl, m, ranked, above, reached⟩
  · refine ⟨hash, listed, ?_⟩
    exact has_active_below collisionFree indexed asking network listed known le_rfl listed
  · refine ⟨st.bestHash, (indexed.tip started).1, ?_⟩
    obtain ⟨node, found, height⟩ := heightOf_some ranked
    obtain ⟨node', found', height'⟩ := heightOf_some known
    have same := (indexed.index.same_node collisionFree linked found found').2
    obtain rfl : n = m := by omega
    obtain ⟨path, -, whole⟩ := blockHashesToHash_pathTo collisionFree indexed ranked
    have path := whole.transfer collisionFree indexed.index linked ranked known
    refine (path.height linked.graded known ?_).2
    rw [whole.2 st.height above.le]
    exact reached

theorem headers_connect (started : st.active.hashes ≠ []) (asking : Indexed world asker)
    (network : asker.networkGenesisHash = st.networkGenesisHash) (ranked : heightOf asker.blockIndex hash = some n)
    (small : n < 2 ^ 32) {missing : BlockHash} (listed : missing ∈ st.active.hashes)
    (lacks : asker.blockIndex.lookup missing = none) (open_ : stop = 0 ∨ asker.blockIndex.lookup stop = none) :
    ∃ header, (st.headersAfterLocator (asker.blockLocatorHashesFrom hash) stop).head? = some header ∧
      (asker.blockIndex.lookup header.prevBlockhash).isSome = true := by
  obtain ⟨last, heights, -, -, placed, -⟩ := blockLocatorHashesFrom_isLocator collisionFree asking ranked small
  have some_ : asker.blockLocatorHashesFrom hash ≠ [] := by
    intro nothing
    rw [nothing] at last
    cases last
  have positive := length_pos_of_ne_nil started
  obtain ⟨root, first⟩ : ∃ root, st.active.hashes[0]? = some root := ⟨_, getElem?_eq_getElem positive⟩
  have genesis : st.forkHeight st.networkGenesisHash = some 0 := by
    refine (forkHeight_iff collisionFree indexed started).mpr (.inl ?_)
    rw [first, (indexed.active.root 0 root first).mp rfl]
  obtain ⟨fork, found⟩ : ∃ fork, (asker.blockLocatorHashesFrom hash).findSome? st.forkHeight = some fork := by
    refine Option.isSome_iff_exists.mp (findSome?_isSome_iff.mpr ⟨_, mem_of_getLast? last, ?_⟩)
    rw [network, genesis]
    rfl
  obtain ⟨before, entry, after, shape, here, -⟩ := findSome?_eq_some_iff.mp found
  have anchored := (forkHeight_iff collisionFree indexed started).mp here
  obtain ⟨m, knownEntry⟩ : ∃ m, heightOf asker.blockIndex entry = some m := by
    have member : entry ∈ asker.blockLocatorHashesFrom hash := by
      rw [shape]
      simp
    obtain ⟨height, -, inside, reached⟩ := Result.forall₂_mem_right placed.flip member
    obtain ⟨same, climbed, rankedEntry⟩ := asking.index.graded.climb ranked (Nat.sub_le n height)
    rw [back, climbed, Option.some.injEq] at reached
    exact ⟨_, reached ▸ rankedEntry⟩
  obtain ⟨block, active, knownBlock⟩ := anchored_known collisionFree indexed asking network started anchored knownEntry
  have later : ∀ other, asker.blockIndex.lookup other = none → ∀ i, st.active.hashes[i]? = some other → fork < i := by
    intro other absent i at_
    by_contra low
    have there := has_active_below collisionFree indexed asking network active knownBlock (Nat.le_of_not_lt low) at_
    rw [heightOf, absent] at there
    cases there
  obtain ⟨j, at_⟩ := mem_iff_getElem?.mp listed
  have beyond := later missing lacks j at_
  have inside := (List.getElem?_eq_some_iff.mp at_).1
  have lengths : st.active.headers.length = st.active.hashes.length := by rw [indexed.active.hashed, length_map]
  have room : fork + 1 < st.stopLength stop := by
    rcases stopLength_cases indexed stop with ⟨whole, -⟩ | ⟨named, height, there, stopped⟩
    · omega
    · have above := later stop (open_.resolve_left named) height there
      omega
  obtain ⟨header, next⟩ : ∃ header, st.active.headers[fork + 1]? = some header := ⟨_, getElem?_eq_getElem (by omega)⟩
  refine ⟨header, ?_, ?_⟩
  · rw [headersAfterLocator_eq some_, found, Option.elim_some, answerFrom, head?_take, if_neg (by omega), head?_drop,
      getElem?_take_of_lt (by omega)]
    exact next
  · have parent := indexed.active.linked fork header next
    rw [active, Option.some.injEq] at parent
    obtain ⟨node, foundNode, -⟩ := heightOf_some knownBlock
    rw [← parent, foundNode]
    rfl

omit indexed

omit collisionFree

/-- The answer is the run that the locator asks for exactly if an entry of the locator qualifies. A node that asks with a
locator of its own gets a header that connects, as long as it lacks a block of the other's active chain. -/
theorem locators_exact_iff (collisionFree : Set.InjOn blockHash world) (indexed : Indexed world st)
    (started : st.active.hashes ≠ []) :
    (∀ hash n, heightOf st.blockIndex hash = some n → n < 2 ^ 32 → IsLocator st n hash (st.blockLocatorHashesFrom hash)) ∧
    (∀ locator stop, locator ≠ [] → ∃ fork, ForkOf st locator fork ∧
      (RunAfter st fork stop (st.headersAfterLocator locator stop) ↔ ∃ entry ∈ locator, ∃ height, Anchored st entry height)) ∧
    ∀ (asker : ChainState) (hash : BlockHash) (n : ℕ) (stop missing : BlockHash), Indexed world asker →
      asker.networkGenesisHash = st.networkGenesisHash → heightOf asker.blockIndex hash = some n → n < 2 ^ 32 →
      missing ∈ st.active.hashes → asker.blockIndex.lookup missing = none → (stop = 0 ∨ asker.blockIndex.lookup stop = none) →
      ∃ header, (st.headersAfterLocator (asker.blockLocatorHashesFrom hash) stop).head? = some header ∧
        (asker.blockIndex.lookup header.prevBlockhash).isSome = true := by
  refine ⟨?_, ?_, ?_⟩
  · intro hash n ranked small
    exact blockLocatorHashesFrom_isLocator collisionFree indexed ranked small
  · intro locator stop some_
    exact headersAfterLocator_iff collisionFree indexed started some_ stop
  · intro asker hash n stop missing asking network ranked small listed lacks open_
    exact headers_connect collisionFree indexed started asking network ranked small listed lacks open_

omit [Library] in
/-- A node at genesis asks one that has two blocks more. -/
theorem locators_exact_sample : let _ := Library.sample
    ∃ header, ((sampleTestnet 2).headersAfterLocator ((sampleTestnet 0).blockLocatorHashesFrom 0) 0).head? = some header ∧
      ((sampleTestnet 0).blockIndex.lookup header.prevBlockhash).isSome = true := by
  intro _
  obtain ⟨indexed, hashes, -⟩ := sampleTestnet_spec 2 (by decide)
  obtain ⟨asking, -, -⟩ := sampleTestnet_spec 0 (by decide)
  have started : (sampleTestnet 2).active.hashes ≠ [] := by
    rw [hashes]
    simp
  exact (locators_exact_iff sampleWorld_injOn indexed started).2.2 (sampleTestnet 0) 0 0 0 (sampleHash 2) asking rfl
    (by decide +kernel) (by decide) (by decide +kernel) (by decide +kernel) (.inl rfl)

omit [Library] in
/-- Nothing in the locator is known, and the answer begins with genesis. -/
theorem headers_begin_with_genesis : let _ := Library.sample
    (sampleTestnet 2).forkHeight 99 = none ∧
      ((sampleTestnet 2).headersAfterLocator [99] 0).head? = (sampleTestnet 2).active.headers[0]? ∧
      ((sampleTestnet 2).headersAfterLocator [99] 0).head? ≠ (sampleTestnet 2).active.headers[1]? := by
  decide +kernel

end ChainState

end BitcoindRs
