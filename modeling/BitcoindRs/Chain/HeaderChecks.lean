import BitcoindRs.Chain.Reload

/-! The checks of a header read its ancestors only. -/

namespace BitcoindRs
open Result FMap Ancestry BlockIndex List
variable [Library]

namespace BlockIndex
variable {world : Set Header} {genesis : BlockHash} {index index' : BlockIndex}

section
variable (collisionFree : Set.InjOn blockHash world) (linked : Linked world genesis index)
  (linked' : Linked world genesis index') {hash : BlockHash} {node node' : BlockNode}
  (found : index.lookup hash = some node) (found' : index'.lookup hash = some node')
include collisionFree linked linked' found found'

theorem Linked.same_node : node.header = node'.header ∧ node.height = node'.height := by
  have same : ∀ hash node node', index.lookup hash = some node → index'.lookup hash = some node' →
      node.header = node'.header := fun hash node node' found found' =>
    collisionFree (linked.keyed hash node found).2 (linked'.keyed hash node' found').2
      ((linked.keyed hash node found).1.trans (linked'.keyed hash node' found').1.symm)
  refine ⟨same hash node node' found found', ?_⟩
  -- Both heights are zero at genesis, and one above those of the common parent elsewhere.
  induction height : node.height generalizing hash node node' with
  | zero => exact ((linked'.root hash node' found').mpr ((linked.root hash node found).mp height)).symm
  | succ k ih =>
    have positive : node'.height ≠ 0 := fun zero => by
      have root := (linked.root hash node found).mpr ((linked'.root hash node' found').mp zero)
      omega
    obtain ⟨k', height'⟩ : ∃ k', node'.height = k' + 1 := ⟨node'.height - 1, by omega⟩
    obtain ⟨p, above, ranked⟩ := linked.graded hash k (by rw [heightOf_eq found, height])
    obtain ⟨p', above', ranked'⟩ := linked'.graded hash k' (by rw [heightOf_eq found', height'])
    rw [parentOf_eq found, Option.some.injEq] at above
    rw [parentOf_eq found', Option.some.injEq, ← same hash node node' found found', above] at above'
    subst above'
    obtain ⟨parent, foundParent, heightParent⟩ := heightOf_some ranked
    obtain ⟨parent', foundParent', heightParent'⟩ := heightOf_some ranked'
    have equal := ih foundParent foundParent' heightParent
    omega

def ancestorEntry (index : BlockIndex) (n : ℕ) (hash : BlockHash) : Option (Header × ℕ) :=
  (back index n hash).bind fun ancestor => (index.lookup ancestor).map fun node => (node.header, node.height)

def SameAncestry (index index' : BlockIndex) (hash : BlockHash) : Prop :=
  ∃ height, heightOf index hash = some height ∧ heightOf index' hash = some height ∧
    ∀ n ≤ height, ancestorEntry index n hash = ancestorEntry index' n hash

theorem Linked.same_parent (positive : 0 < node.height) :
    ∃ parent parent', index.lookup node.header.prevBlockhash = some parent ∧
      index'.lookup node.header.prevBlockhash = some parent' ∧ node.height = parent.height + 1 := by
  obtain ⟨headers, heights⟩ := linked.same_node collisionFree linked' found found'
  obtain ⟨k, height⟩ : ∃ k, node.height = k + 1 := ⟨node.height - 1, by omega⟩
  obtain ⟨p, above, ranked⟩ := linked.graded hash k (by rw [heightOf_eq found, height])
  obtain ⟨p', above', ranked'⟩ := linked'.graded hash k (by rw [heightOf_eq found', ← heights, height])
  rw [parentOf_eq found, Option.some.injEq] at above
  rw [parentOf_eq found', Option.some.injEq, ← headers] at above'
  subst above above'
  obtain ⟨parent, foundParent, rank⟩ := heightOf_some ranked
  obtain ⟨parent', foundParent', -⟩ := heightOf_some ranked'
  exact ⟨parent, parent', foundParent, foundParent', by rw [height, rank]⟩

theorem Linked.sameAncestry : SameAncestry index index' hash := by
  obtain ⟨headers, heights⟩ := linked.same_node collisionFree linked' found found'
  refine ⟨node.height, heightOf_eq found, by rw [heightOf_eq found', heights], fun n below => ?_⟩
  induction n generalizing hash node node' with
  | zero =>
    rw [ancestorEntry, ancestorEntry, back, back, climb_zero, climb_zero, Option.bind_some, Option.bind_some, found,
      found', Option.map_some, Option.map_some, headers, heights]
  | succ n ih =>
    obtain ⟨parent, parent', foundParent, foundParent', height⟩ := linked.same_parent collisionFree linked' found found' (by omega)
    obtain ⟨headersParent, heightsParent⟩ := linked.same_node collisionFree linked' foundParent foundParent'
    have rest := ih foundParent foundParent' headersParent heightsParent (by omega)
    rw [ancestorEntry, ancestorEntry, back, back] at rest ⊢
    rw [climb_succ_of_parent n (parentOf_eq found), climb_succ_of_parent n (parentOf_eq found'), ← headers]
    exact rest

end

end BlockIndex

namespace ChainState
variable {world : Set Header} {genesis : BlockHash} {index index' : BlockIndex} {st st' : ChainState}

variable (collisionFree : Set.InjOn blockHash world)

include collisionFree in
theorem ancestorTimes_eq (linked : Linked world genesis index)
    (linked' : Linked world genesis index') (count : ℕ) {hash : BlockHash} {node node' : BlockNode}
    (found : index.lookup hash = some node) (found' : index'.lookup hash = some node') :
    ancestorTimes index count hash = ancestorTimes index' count hash := by
  induction count generalizing hash node node' with
  | zero => rfl
  | succ count ih =>
    obtain ⟨headers, heights⟩ := linked.same_node collisionFree linked' found found'
    rw [ancestorTimes, ancestorTimes, found, found']
    dsimp only
    rw [headers, heights]
    split
    · rfl
    · rename_i positive
      obtain ⟨parent, parent', foundParent, foundParent', -⟩ := linked.same_parent collisionFree linked' found found' (by omega)
      rw [headers] at foundParent foundParent'
      rw [ih foundParent foundParent']

def ReadsAncestors (config : NodeConfig) : Prop :=
  ∀ index index' parentHash header, SameAncestry index index' parentHash →
    config.headerContext index parentHash header = config.headerContext index' parentHash header

def Checked (world : Set Header) (config : NodeConfig) (header : Header) : Prop :=
  ∃ st : ChainState, Indexed world st ∧ st.config = config ∧
    (∃ parent, st.blockIndex.lookup header.prevBlockhash = some parent) ∧
    st.validateHeaderContext header header.prevBlockhash (st.medianTimePastForParent header.prevBlockhash) = .ok ()

include collisionFree in
theorem Checked.again {config : NodeConfig} {header : Header} {parent : BlockNode} (reads : ReadsAncestors config)
    (checked : Checked world config header) (indexed : Indexed world st) (sameConfig : st.config = config)
    (found : st.blockIndex.lookup header.prevBlockhash = some parent) :
    st.validateHeaderContext header header.prevBlockhash (st.medianTimePastForParent header.prevBlockhash) = .ok () := by
  obtain ⟨before, indexedBefore, configBefore, ⟨parentBefore, foundBefore⟩, passed⟩ := checked
  have linked := indexed.index
  have linkedBefore := indexedBefore.index
  rw [networkGenesisHash, sameConfig] at linked
  rw [networkGenesisHash, configBefore] at linkedBefore
  have context : st.config.headerContext st.blockIndex header.prevBlockhash header =
      before.config.headerContext before.blockIndex header.prevBlockhash header := by
    rw [sameConfig, configBefore]
    exact reads _ _ _ _ (linked.sameAncestry collisionFree linkedBefore found foundBefore)
  have times : st.medianTimePastForParent header.prevBlockhash = before.medianTimePastForParent header.prevBlockhash := by
    rw [medianTimePastForParent, ancestorTimes_eq collisionFree linked linkedBefore 11 found foundBefore,
      medianTimePastForParent]
  unfold validateHeaderContext at passed ⊢
  rw [times, context]
  exact passed

omit [Library] in
theorem medianOf_perm {times times' : List ℕ} (same : times.Perm times') : medianOf times = medianOf times' := by
  have sorted : times.insertionSort (· ≤ ·) = times'.insertionSort (· ≤ ·) := by
    refine List.Perm.eq_of_pairwise ?_ (pairwise_insertionSort (· ≤ ·) times)
      (pairwise_insertionSort (· ≤ ·) times') ?_
    · exact fun a b _ _ below above => Nat.le_antisymm below above
    · exact (perm_insertionSort _ times).trans (same.trans (perm_insertionSort _ times').symm)
  rw [medianOf, medianOf, sorted, same.length_eq]

include collisionFree in
theorem ancestorTimes_active (indexed : Indexed world st)
    (count : ℕ) {i : ℕ} {hash : BlockHash} (listed : st.active.hashes[i]? = some hash) :
    ancestorTimes st.blockIndex count hash =
      ((st.active.headers.take (i + 1)).reverse.take count).map (·.time) := by
  induction count generalizing i hash with
  | zero => rfl
  | succ count ih =>
    obtain ⟨node, found, rfl⟩ := heightOf_some (indexed.placed i hash listed)
    obtain ⟨hashed, known⟩ := indexed.index.keyed hash node found
    have here := listed
    rw [indexed.active.hashed, getElem?_map, Option.map_eq_some_iff] at here
    obtain ⟨header, listedHeader, hashedHeader⟩ := here
    have same : header = node.header := collisionFree
      (indexed.active.world header (mem_of_getElem? listedHeader)) known (hashedHeader.trans hashed.symm)
    have taken : st.active.headers.take (node.height + 1) = st.active.headers.take node.height ++ [header] := by
      rw [take_add_one, listedHeader, Option.toList_some]
    rw [ancestorTimes, found]
    dsimp only
    rw [taken, reverse_append, reverse_singleton, singleton_append, take_succ_cons, map_cons,
      same]
    congr 1
    split
    · rename_i zero
      rw [zero, take_zero, reverse_nil, take_nil, map_nil]
    · rename_i positive
      obtain ⟨k, height⟩ : ∃ k, node.height = k + 1 := ⟨node.height - 1, by omega⟩
      rw [height] at listedHeader ⊢
      have before := indexed.active.linked k header listedHeader
      rw [same] at before
      exact ih before

include collisionFree in
theorem medianTimePast_eq (indexed : Indexed world st)
    (started : st.active.hashes ≠ []) : st.medianTimePast = st.medianTimePastForParent st.bestHash := by
  have tip := (indexed.tip started).1
  have lengths : st.active.headers.length = st.active.hashes.length := by rw [indexed.active.hashed, length_map]
  have positive := length_pos_of_ne_nil started
  have all : st.height + 1 = st.active.headers.length := by
    rw [height]
    omega
  rw [medianTimePast, medianTimePastForParent, ancestorTimes_active collisionFree indexed 11 tip, all, take_length]
  apply medianOf_perm
  refine List.Perm.map _ ?_
  have turned : (st.active.headers.reverse.take 11).reverse = st.active.headers.drop (st.active.headers.length - 11) := by
    rw [reverse_take, reverse_reverse, length_reverse]
  rw [← turned]
  exact reverse_perm _

end ChainState

end BitcoindRs
