import BitcoindRs.Chain.Indexed
import BitcoindRs.Consensus.Target

/-!
The target a block must meet. The code walks the block index from the parent; the rules of the network are stated on
the headers from the parent back to genesis.
-/

namespace BitcoindRs
open FMap Ancestry BlockIndex List Target
variable [Library]

namespace ChainState

/-- The loop over blocks of minimum difficulty; every iteration goes to the parent, which bounds their number. -/
def lastHarderTarget (network : Network) (index : BlockIndex) : ℕ → BlockHash → Option ℕ
  | 0, _ => none
  | fuel + 1, cursor => match index.lookup cursor with
    | none => none
    | some node =>
      if node.height % difficultyAdjustmentInterval network = 0 ∨
          fromCompact node.header.bits ≠ maxAttainable network then
        some (fromCompact node.header.bits)
      else lastHarderTarget network index fuel node.header.prevBlockhash

/-- `none` where the code panics on a block that is not indexed. -/
def expectedTargetForParent (st : ChainState) (parentHash : BlockHash) (candidateTime : ℕ) : Option ℕ := do
  let network := st.config.params.network
  let parentNode ← st.blockIndex.lookup parentHash
  let height := parentNode.height + 1
  let previous := parentNode.header
  let interval := difficultyAdjustmentInterval network
  if network.noPowRetargeting then return fromCompact previous.bits
  if height % interval ≠ 0 then
    if network.allowMinDifficultyBlocks ∧ candidateTime > min (previous.time + powTargetSpacing * 2) (2 ^ 32 - 1) then
      return maxAttainable network
    if network.allowMinDifficultyBlocks ∧ fromCompact previous.bits = maxAttainable network then
      return (lastHarderTarget network st.blockIndex (parentNode.height + 1) parentHash).getD
        (fromCompact previous.bits)
    return fromCompact previous.bits
  let firstHash ← st.ancestorHash parentHash (height - interval)
  let first ← st.blockIndex.lookup firstHash
  let timespan := previous.time - first.header.time
  let baseBits := if network = .testnet4 then first.header.bits else previous.bits
  return fromCompact (fromNextWorkRequired network baseBits timespan)

end ChainState

namespace Pow

/-- The bits of the last block that is not of minimum difficulty, or of the first of the period or the chain; the
branch starts at the tip and ends at genesis. -/
def lastHarderBits (network : Network) : List Header → ℕ
  | [] => limitBits network
  | header :: below =>
    if below ≠ [] ∧ below.length % difficultyAdjustmentInterval network ≠ 0 ∧ header.bits = limitBits network then
      lastHarderBits network below
    else header.bits

/-- The time a period took, within a factor of four of the intended one. -/
def clampedTimespan (last first : Header) : ℤ :=
  max (powTargetTimespan / 4) (min ((last.time : ℤ) - first.time) (powTargetTimespan * 4))

def calculateNextWorkRequired (network : Network) (last first : Header) : ℕ :=
  if network.noPowRetargeting then last.bits
  else
    let base := if network = .testnet4 then first.bits else last.bits
    retarget network base (clampedTimespan last first).toNat

def getNextWorkRequired (network : Network) (branch : List Header) (time : ℕ) : ℕ :=
  match branch with
  | [] => limitBits network
  | last :: _ =>
    let interval := difficultyAdjustmentInterval network
    if branch.length % interval ≠ 0 then
      if network.allowMinDifficultyBlocks then
        if time > last.time + powTargetSpacing * 2 then limitBits network
        else lastHarderBits network branch
      else last.bits
    else calculateNextWorkRequired network last (branch.getD (interval - 1) last)

end Pow

namespace BlockIndex
variable {hash : BlockHash} {node : BlockNode}

def lineage (index : BlockIndex) : ℕ → BlockHash → List Header
  | 0, _ => []
  | count + 1, cursor => match index.lookup cursor with
    | none => []
    | some node => node.header :: lineage index count node.header.prevBlockhash

def branchOf (index : BlockIndex) (hash : BlockHash) : List Header :=
  match index.lookup hash with
  | none => []
  | some node => lineage index (node.height + 1) hash

variable {world : Set Header} {genesis : BlockHash} {index : BlockIndex}

omit [Library] in
theorem branchOf_eq (found : index.lookup hash = some node) :
    branchOf index hash = node.header :: lineage index node.height node.header.prevBlockhash := by
  rw [branchOf, found]
  simp only [lineage, found]

theorem Linked.parent (linked : Linked world genesis index) {height : ℕ}
    (found : index.lookup hash = some node) (above : node.height = height + 1) :
    ∃ parent, index.lookup node.header.prevBlockhash = some parent ∧ parent.height = height ∧
      branchOf index hash = node.header :: branchOf index node.header.prevBlockhash := by
  obtain ⟨p, linkedTo, ranked⟩ := linked.graded hash height (by rw [heightOf_eq found, above])
  rw [parentOf_eq found, Option.some.injEq] at linkedTo
  subst linkedTo
  obtain ⟨parent, present, same⟩ := heightOf_some ranked
  refine ⟨parent, present, same, ?_⟩
  rw [branchOf_eq found, above, ← same, branchOf, present]

theorem Linked.length_branchOf (linked : Linked world genesis index)
    (found : index.lookup hash = some node) : (branchOf index hash).length = node.height + 1 := by
  induction height : node.height generalizing hash node with
  | zero =>
    rw [branchOf_eq found, height]
    rfl
  | succ below ih =>
    obtain ⟨parent, present, same, branch⟩ := linked.parent found height
    rw [branch, length_cons, ih present same]

theorem Linked.getElem?_branchOf (linked : Linked world genesis index) {ancestor : BlockHash}
    {ancestorNode : BlockNode} (found : index.lookup hash = some node) {n : ℕ} (inside : n ≤ node.height)
    (reached : back index n hash = some ancestor) (present : index.lookup ancestor = some ancestorNode) :
    (branchOf index hash)[n]? = some ancestorNode.header := by
  induction n generalizing hash node with
  | zero =>
    rw [back, climb_zero, Option.some.injEq] at reached
    subst reached
    rw [found, Option.some.injEq] at present
    rw [branchOf_eq found, present]
    rfl
  | succ n ih =>
    obtain ⟨below, height⟩ := Nat.exists_eq_add_of_lt inside
    obtain ⟨parent, parentFound, same, branch⟩ := linked.parent found (show node.height = n + below + 1 by omega)
    rw [back, climb_succ_of_parent n (parentOf_eq found)] at reached
    rw [branch, getElem?_cons_succ]
    exact ih parentFound (by omega) reached

def Includes (index' index : BlockIndex) : Prop :=
  ∀ hash node, index.lookup hash = some node →
    ∃ node', index'.lookup hash = some node' ∧ node'.header = node.header ∧ node'.height = node.height

theorem Linked.branchOf_includes (linked : Linked world genesis index) {index' : BlockIndex}
    (linked' : Linked world genesis index') (includes : Includes index' index)
    (found : index.lookup hash = some node) : branchOf index' hash = branchOf index hash := by
  obtain ⟨node', found', header, height'⟩ := includes hash node found
  induction height : node.height generalizing hash node node' with
  | zero =>
    rw [branchOf_eq found, branchOf_eq found', header, height', height]
    rfl
  | succ below ih =>
    obtain ⟨parent, present, same, branch⟩ := linked.parent found height
    obtain ⟨-, -, -, branch'⟩ := linked'.parent found' (height'.trans height)
    obtain ⟨parent', present', headers, heights⟩ := includes _ parent present
    rw [branch, branch', header, ih present parent' present' headers heights same]

/-- Every indexed header has the target that the rules require on top of its parent, in the compact form of that
target; genesis has the limit. -/
def TargetsRequired (network : Network) (index : BlockIndex) : Prop :=
  ∀ hash node, index.lookup hash = some node →
    if node.height = 0 then node.header.bits = limitBits network
    else
      let target := fromCompact
        (Pow.getNextWorkRequired network (branchOf index node.header.prevBlockhash) node.header.time)
      fromCompact node.header.bits = target ∧ node.header.bits = toCompactLossy target

namespace TargetsRequired

variable {network : Network}

omit [Library] in
theorem canonical (required : TargetsRequired network index) (found : index.lookup hash = some node) :
    toCompactLossy (fromCompact node.header.bits) = node.header.bits := by
  have own := required hash node found
  split at own
  · rw [own, fromCompact_limitBits]
    rfl
  · rw [own.1, ← own.2]

omit [Library] in
theorem limit_iff (required : TargetsRequired network index) (found : index.lookup hash = some node) :
    fromCompact node.header.bits = maxAttainable network ↔ node.header.bits = limitBits network := by
  constructor
  · intro limit
    rw [← required.canonical found, limit]
    rfl
  · intro limit
    rw [limit, fromCompact_limitBits]

end TargetsRequired

end BlockIndex

namespace Pow

variable {network : Network} {branch : List Header}

omit [Library] in
theorem lastHarderBits_of_limit (limit : ∀ header ∈ branch, header.bits = limitBits network) :
    lastHarderBits network branch = limitBits network := by
  induction branch with
  | nil => rfl
  | cons header below ih =>
    rw [lastHarderBits]
    split
    · exact ih fun other member => limit other (mem_cons_of_mem _ member)
    · exact limit header mem_cons_self

omit [Library] in
theorem getNextWorkRequired_of_limit (fixed : network.noPowRetargeting = true)
    (limit : ∀ header ∈ branch, header.bits = limitBits network) (time : ℕ) :
    getNextWorkRequired network branch time = limitBits network := by
  cases branch with
  | nil => rfl
  | cons last below =>
    have tip := limit last mem_cons_self
    simp only [getNextWorkRequired, calculateNextWorkRequired, fixed, if_true, tip,
      lastHarderBits_of_limit limit, ite_self]

end Pow

namespace BlockIndex.TargetsRequired

variable {world : Set Header} {genesis : BlockHash} {index : BlockIndex} {network : Network}

theorem constant (required : TargetsRequired network index) (linked : Linked world genesis index)
    (fixed : network.noPowRetargeting = true) {hash : BlockHash} {node : BlockNode}
    (found : index.lookup hash = some node) :
    ∀ header ∈ branchOf index hash, header.bits = limitBits network := by
  induction height : node.height generalizing hash node with
  | zero =>
    intro header member
    have own := required hash node found
    rw [branchOf_eq found, height] at member
    rw [mem_singleton.mp member]
    simpa only [height, if_true] using own
  | succ below ih =>
    obtain ⟨parent, present, same, branch⟩ := linked.parent found height
    have own := required hash node found
    rw [if_neg (by omega)] at own
    have before := ih present same
    rw [Pow.getNextWorkRequired_of_limit fixed before, fromCompact_limitBits] at own
    intro header member
    rw [branch] at member
    rcases mem_cons.mp member with rfl | older
    · exact own.2
    · exact before header older

theorem extend (required : TargetsRequired network index) (linked : Linked world genesis index) {index' : BlockIndex}
    (linked' : Linked world genesis index') (includes : Includes index' index)
    (added : ∀ hash node, index'.lookup hash = some node → index.lookup hash = none →
      ∃ parent, index.lookup node.header.prevBlockhash = some parent ∧ node.height ≠ 0 ∧
        let target := fromCompact
          (Pow.getNextWorkRequired network (branchOf index node.header.prevBlockhash) node.header.time)
        fromCompact node.header.bits = target ∧ node.header.bits = toCompactLossy target) :
    TargetsRequired network index' := by
  intro hash node found
  cases old : index.lookup hash with
  | none =>
    obtain ⟨parent, present, above, required⟩ := added hash node found old
    rw [if_neg above, linked.branchOf_includes linked' includes present]
    exact required
  | some before =>
    obtain ⟨after, found', header, height⟩ := includes hash before old
    cases found.symm.trans found'
    have own := required hash before old
    rw [← header, ← height] at own
    split
    case isTrue root => rwa [if_pos root] at own
    case isFalse above =>
      obtain ⟨below, height⟩ := Nat.exists_eq_succ_of_ne_zero (height ▸ above)
      obtain ⟨parent, present, -, -⟩ := linked.parent old height
      rw [if_neg above] at own
      rw [linked.branchOf_includes linked' includes (header ▸ present)]
      exact own

end BlockIndex.TargetsRequired

namespace ChainState

variable {world : Set Header} {st : ChainState} {network : Network}

theorem lastHarderTarget_eq {index : BlockIndex} {genesis : BlockHash} (required : TargetsRequired network index)
    (linked : Linked world genesis index) {hash : BlockHash} {node : BlockNode}
    (found : index.lookup hash = some node) :
    lastHarderTarget network index (node.height + 1) hash =
      some (fromCompact (Pow.lastHarderBits network (branchOf index hash))) := by
  induction height : node.height generalizing hash node with
  | zero =>
    rw [branchOf_eq found, height]
    simp [lastHarderTarget, found, height, lineage, Pow.lastHarderBits]
  | succ below ih =>
    obtain ⟨parent, present, same, branch⟩ := linked.parent found height
    have length := linked.length_branchOf present
    have nonempty : branchOf index node.header.prevBlockhash ≠ [] := by
      rw [branchOf_eq present]
      exact cons_ne_nil _ _
    have limit := required.limit_iff found
    rw [lastHarderTarget, found, branch, Pow.lastHarderBits]
    dsimp only
    rw [height, length, same]
    by_cases stop : (below + 1) % difficultyAdjustmentInterval network = 0 ∨
        fromCompact node.header.bits ≠ maxAttainable network
    · rw [if_pos stop, if_neg]
      tauto
    · rw [if_neg stop, if_pos]
      · exact ih present same
      · tauto

omit [Library] in
theorem clampedTimespan_eq (last first : Header) : (Pow.clampedTimespan last first).toNat =
      min (max (last.time - first.time) (powTargetTimespan >>> 2)) (powTargetTimespan <<< 2) := by
  have low : powTargetTimespan >>> 2 = 302400 := by decide
  have high : powTargetTimespan <<< 2 = 4838400 := by decide
  have value : powTargetTimespan = 1209600 := by decide
  rw [Pow.clampedTimespan, low, high, value]
  omega

theorem expectedTargetForParent_eq (collisionFree : Set.InjOn blockHash world) (indexed : Indexed world st)
    (required : TargetsRequired st.config.params.network st.blockIndex) {parentHash : BlockHash} {node : BlockNode}
    (found : st.blockIndex.lookup parentHash = some node) {time : ℕ} (small : time < 2 ^ 32) :
    st.expectedTargetForParent parentHash time = some (fromCompact
      (Pow.getNextWorkRequired st.config.params.network (branchOf st.blockIndex parentHash) time)) := by
  have linked := indexed.index
  have length := linked.length_branchOf found
  have branch := branchOf_eq found
  simp only [expectedTargetForParent, found, Option.bind_eq_bind, Option.bind_some, Option.pure_def]
  by_cases fixed : st.config.params.network.noPowRetargeting = true
  · have limits := required.constant linked fixed found
    have tip : node.header.bits = limitBits st.config.params.network :=
      limits node.header (by rw [branch]; exact mem_cons_self)
    rw [if_pos fixed, Pow.getNextWorkRequired_of_limit fixed limits, tip]
  rw [if_neg fixed]
  simp only [Pow.getNextWorkRequired, branch]
  rw [← branch, length]
  by_cases inside : (node.height + 1) % difficultyAdjustmentInterval st.config.params.network ≠ 0
  · rw [if_pos inside, if_pos inside]
    by_cases minimum : st.config.params.network.allowMinDifficultyBlocks = true
    · by_cases late : time > node.header.time + powTargetSpacing * 2
      · rw [if_pos ⟨minimum, by omega⟩, if_pos minimum, if_pos late, fromCompact_limitBits]
      · rw [if_neg (fun both => late (by omega)), if_pos minimum, if_neg late]
        have walked := lastHarderTarget_eq required linked found
        split
        case isTrue => rw [walked, Option.getD_some]
        case isFalse harder =>
          have stays : Pow.lastHarderBits st.config.params.network (branchOf st.blockIndex parentHash) =
              node.header.bits := by
            rw [branch, Pow.lastHarderBits, if_neg]
            rintro ⟨-, -, limit⟩
            exact harder ⟨minimum, (required.limit_iff found).mpr limit⟩
          rw [stays]
    · simp [minimum]
  · rw [if_neg inside, if_neg inside]
    have positive : 0 < difficultyAdjustmentInterval st.config.params.network := by
      unfold difficultyAdjustmentInterval
      split <;> decide
    have full : difficultyAdjustmentInterval st.config.params.network ≤ node.height + 1 :=
      Nat.le_of_dvd (Nat.succ_pos _) (Nat.dvd_of_mod_eq_zero (not_not.mp inside))
    obtain ⟨first, firstNode, reached, firstFound, firstHeight, -⟩ := back_back linked found
      (show node.height + 1 - difficultyAdjustmentInterval st.config.params.network ≤ node.height by omega) le_rfl
    have listed := linked.getElem?_branchOf found (Nat.sub_le _ _) reached firstFound
    rw [ancestorHash_eq collisionFree linked indexed.active found, if_neg (by omega), reached, Option.bind_some,
      firstFound, Option.bind_some, fromNextWorkRequired, if_neg fixed, Pow.calculateNextWorkRequired,
      if_neg fixed, getD_eq_getElem?_getD,
      show difficultyAdjustmentInterval st.config.params.network - 1 =
        node.height - (node.height + 1 - difficultyAdjustmentInterval st.config.params.network) by omega,
      listed, Option.getD_some, clampedTimespan_eq]

def meetsExpectedTarget (header : Header) (expected : ℕ) : Bool :=
  fromCompact header.bits = expected ∧ header.bits = toCompactLossy expected

/-- How the block index comes about: from genesis, by headers that pass the comparison with the target expected on
top of their parent, while the rest of the state moves. -/
inductive TargetRun (world : Set Header) : ChainState → Prop
  | start {st : ChainState} (indexed : Indexed world st) (rooted : st.Rooted)
      (genesis : ∀ hash node, st.blockIndex.lookup hash = some node →
        node.height = 0 ∧ node.header.bits = limitBits st.config.params.network) : TargetRun world st
  | header {st : ChainState} {header : Header} {parent : BlockNode} {expected : ℕ} (run : TargetRun world st)
      (known : header ∈ world) (small : header.time < 2 ^ 32)
      (fresh : st.blockIndex.lookup (blockHash header) = none)
      (found : st.blockIndex.lookup header.prevBlockhash = some parent)
      (target : st.expectedTargetForParent header.prevBlockhash header.time = some expected)
      (meets : meetsExpectedTarget header expected = true) : TargetRun world (st.indexChild header parent)
  | elsewhere {st st' : ChainState} (run : TargetRun world st) (indexed : Indexed world st')
      (sameNetwork : st'.config.params.network = st.config.params.network)
      (kept : Includes st'.blockIndex st.blockIndex) (nothingNew : Includes st.blockIndex st'.blockIndex) :
      TargetRun world st'

theorem indexChild_includes {header : Header} {parent : BlockNode}
    (fresh : st.blockIndex.lookup (blockHash header) = none) :
    Includes (st.indexChild header parent).blockIndex st.blockIndex := by
  intro hash node found
  refine ⟨node, ?_, rfl, rfl⟩
  rw [indexChild, lookup_insert_ite, if_neg]
  · exact found
  · rintro rfl
    rw [fresh] at found
    cases found

theorem TargetRun.required (collisionFree : Set.InjOn blockHash world) (run : TargetRun world st) :
    Indexed world st ∧ st.Rooted ∧ TargetsRequired st.config.params.network st.blockIndex := by
  induction run with
  | start indexed rooted genesis =>
    refine ⟨indexed, rooted, fun hash node found => ?_⟩
    obtain ⟨root, limit⟩ := genesis hash node found
    rw [if_pos root]
    exact limit
  | @header st header parent expected run known small fresh found target meets ih =>
    obtain ⟨indexed, rooted, required⟩ := ih
    have kept := indexed.insertChild collisionFree known found (rooted.ne_genesis fresh)
    refine ⟨kept.indexed, kept.rooted rooted, ?_⟩
    refine required.extend indexed.index kept.indexed.index (indexChild_includes fresh) fun hash node new unknown => ?_
    rw [indexChild, lookup_insert_ite] at new
    split at new
    case isFalse =>
      rw [unknown] at new
      cases new
    case isTrue =>
      cases new
      refine ⟨parent, found, Nat.succ_ne_zero _, ?_⟩
      rw [expectedTargetForParent_eq collisionFree indexed required found small, Option.some.injEq] at target
      rw [target]
      simpa only [meetsExpectedTarget, decide_eq_true_eq] using meets
  | @elsewhere st st' run indexed' sameNetwork kept nothingNew ih =>
    obtain ⟨indexed, rooted, required⟩ := ih
    have genesis : st'.networkGenesisHash = st.networkGenesisHash := by
      rw [networkGenesisHash, sameNetwork, networkGenesisHash]
    refine ⟨indexed', ?_, ?_⟩
    · obtain ⟨node, found, height⟩ := heightOf_some rooted
      obtain ⟨node', found', -, height'⟩ := kept _ node found
      rw [Rooted, genesis, heightOf_eq found', height', height]
    · rw [sameNetwork]
      refine required.extend indexed.index (genesis ▸ indexed'.index) kept fun hash node new unknown => ?_
      obtain ⟨_, found, -, -⟩ := nothingNew hash node new
      rw [unknown] at found
      cases found

/-- On every branch of every index the node builds, the code's target is the one the network's rules require. -/
theorem expectedTarget_follows_rules (collisionFree : Set.InjOn blockHash world) (run : TargetRun world st)
    {parentHash : BlockHash} {node : BlockNode} (found : st.blockIndex.lookup parentHash = some node) {time : ℕ}
    (small : time < 2 ^ 32) :
    st.expectedTargetForParent parentHash time = some (fromCompact
      (Pow.getNextWorkRequired st.config.params.network (branchOf st.blockIndex parentHash) time)) := by
  obtain ⟨indexed, -, required⟩ := run.required collisionFree
  exact expectedTargetForParent_eq collisionFree indexed required found small

/-- A library whose genesis block has the limit of testnet as its target. -/
@[reducible] def Difficulty.sampleLibrary : Library :=
  { Library.sample with genesisBlock := fun _ => ⟨⟨1, 0, 0, 0, 0x1d00ffff, 0⟩, []⟩ }

def Difficulty.sampleState : ChainState :=
  { sample ∅ with
    config := { sampleConfig with params := .forNetwork .testnet }
    blockIndex := (∅ : BlockIndex).insert 0 ⟨⟨1, 0, 0, 0, 0x1d00ffff, 0⟩, 0, 1, none⟩
    active := ⟨[0], [⟨1, 0, 0, 0, 0x1d00ffff, 0⟩], [1], [1]⟩
    bodies := ∅ }

omit [Library] in
/-- A late block and a timely one on top of genesis. -/
theorem expectedTarget_follows_rules_sample : let _ := Difficulty.sampleLibrary
    Difficulty.sampleState.expectedTargetForParent 0 1201 = some (0xFFFF <<< 208) ∧
    Difficulty.sampleState.expectedTargetForParent 0 600 = some (fromCompact (Pow.getNextWorkRequired .testnet
      (branchOf Difficulty.sampleState.blockIndex 0) 600)) := by
  intro _
  have collisionFree : Set.InjOn blockHash ({⟨1, 0, 0, 0, 0x1d00ffff, 0⟩} : Set Header) :=
    Set.injOn_singleton _ _
  have indexed : Indexed {⟨1, 0, 0, 0, 0x1d00ffff, 0⟩} Difficulty.sampleState :=
    indexed_genesis collisionFree rfl rfl rfl rfl rfl (fun _ _ stored => by simp [Difficulty.sampleState] at stored) rfl
  have run : TargetRun {⟨1, 0, 0, 0, 0x1d00ffff, 0⟩} Difficulty.sampleState := by
    refine .start indexed (indexed.rooted (cons_ne_nil _ _)) fun hash node found => ?_
    rw [Difficulty.sampleState, lookup_insert_ite] at found
    split at found
    · cases found
      exact ⟨rfl, by decide +kernel⟩
    · simp at found
  have found : Difficulty.sampleState.blockIndex.lookup 0 = some ⟨⟨1, 0, 0, 0, 0x1d00ffff, 0⟩, 0, 1, none⟩ := by decide
  refine ⟨?_, expectedTarget_follows_rules collisionFree run found (by decide)⟩
  rw [expectedTarget_follows_rules collisionFree run found (by decide)]
  decide +kernel

end ChainState

end BitcoindRs
