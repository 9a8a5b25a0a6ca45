import BitcoindRs.Chain.Indexed

/-!
When a block is exempt from the duplicate-transaction rule: the shortcut over the active chain against the ancestor
of the block's own parent.
-/

namespace BitcoindRs
open FMap BlockIndex
variable [Library]

namespace ChainState

def ancestorAt (index : BlockIndex) (hash : BlockHash) (target : ℕ) : Option BlockHash :=
  (index.lookup hash).bind fun node => if node.height < target then none else back index (node.height - target) hash

def descendsFromBip34 (st : ChainState) (parentHash : BlockHash) : Prop :=
  ∃ expected, bip34ActivationHash st.config.params.network = some expected ∧
    ancestorAt st.blockIndex parentHash st.config.params.buried.bip34 = some expected

/-- The parent is an active block below the BIP34 height of an active chain that has the canonical block there. -/
def forksBelowBip34 (st : ChainState) (parentHash : BlockHash) : Prop :=
  ∃ node expected, bip34ActivationHash st.config.params.network = some expected ∧
    st.blockIndex.lookup parentHash = some node ∧ st.active.hashes[node.height]? = some parentHash ∧
    node.height < st.config.params.buried.bip34 ∧
    st.active.hashes[st.config.params.buried.bip34]? = some expected

variable {world : Set Header} {st : ChainState}

variable (collisionFree : Set.InjOn blockHash world)

include collisionFree in
theorem ancestorHash_eq_ancestorAt (indexed : Indexed world st)
    (hash : BlockHash) (target : ℕ) : st.ancestorHash hash target = ancestorAt st.blockIndex hash target := by
  cases found : st.blockIndex.lookup hash with
  | none => simp only [ancestorHash, ancestorAt, found, Option.bind_none]
  | some node =>
    rw [ancestorHash_eq collisionFree indexed.index indexed.active found, ancestorAt, found, Option.bind_some]

omit [Library] in
theorem isActiveBlock_iff {hash : BlockHash} : st.isActiveBlock hash = true ↔
    ∃ node, st.blockIndex.lookup hash = some node ∧ st.active.hashes[node.height]? = some hash := by
  rw [isActiveBlock]
  cases found : st.blockIndex.lookup hash with
  | none => simp
  | some node => simp

include collisionFree in
theorem ancestorAt_active (indexed : Indexed world st)
    {hash : BlockHash} {node : BlockNode} {target : ℕ} (found : st.blockIndex.lookup hash = some node)
    (here : st.active.hashes[node.height]? = some hash) (above : target ≤ node.height) :
    ancestorAt st.blockIndex hash target = st.active.hashes[target]? := by
  rw [ancestorAt, found, Option.bind_some, if_neg (by omega),
    back_active collisionFree indexed.index indexed.active found here (Nat.sub_le _ _)]
  congr 1
  omega

include collisionFree in
theorem enforceBip30_eq_false_iff (indexed : Indexed world st)
    {height : ℕ} {blockHash parentHash : BlockHash} (low : height < bip34ImpliesBip30Limit) :
    st.enforceBip30 height blockHash parentHash = false ↔
      isBip30Repeat st.config.params.network height blockHash = true ∨ st.descendsFromBip34 parentHash ∨
        st.forksBelowBip34 parentHash := by
  rw [enforceBip30, if_neg (by omega)]
  split
  case isTrue repeated => exact iff_of_true rfl (.inl repeated)
  case isFalse fresh =>
    rw [or_iff_right fresh]
    cases canonical : bip34ActivationHash st.config.params.network with
    | none => simp [descendsFromBip34, forksBelowBip34, canonical]
    | some expected =>
      simp only [descendsFromBip34, forksBelowBip34, canonical, Option.some.injEq,
        ancestorHash_eq_ancestorAt collisionFree indexed]
      split
      case isTrue shortcut =>
        obtain ⟨active, atHeight⟩ := shortcut
        obtain ⟨node, found, here⟩ := isActiveBlock_iff.mp active
        refine iff_of_true rfl ?_
        by_cases below : node.height < st.config.params.buried.bip34
        · exact .inr ⟨node, expected, rfl, found, here, below, atHeight⟩
        · refine .inl ⟨expected, rfl, ?_⟩
          rw [ancestorAt_active collisionFree indexed found here (Nat.le_of_not_lt below)]
          exact atHeight
      case isFalse walked =>
        have noFork : ¬ ∃ node e, expected = e ∧ st.blockIndex.lookup parentHash = some node ∧
            st.active.hashes[node.height]? = some parentHash ∧ node.height < st.config.params.buried.bip34 ∧
            st.active.hashes[st.config.params.buried.bip34]? = some e := by
          rintro ⟨node, _, rfl, found, here, -, atHeight⟩
          exact walked ⟨isActiveBlock_iff.mpr ⟨node, found, here⟩, atHeight⟩
        rw [or_iff_left noFork]
        cases ancestorAt st.blockIndex parentHash st.config.params.buried.bip34 with
        | none => simp
        | some ancestor => simp

omit [Library] in
theorem forksBelowBip34_not_descends {parentHash : BlockHash} (forks : st.forksBelowBip34 parentHash) :
    ¬ st.descendsFromBip34 parentHash := by
  obtain ⟨node, _, _, found, _, below, _⟩ := forks
  rintro ⟨_, _, ancestor⟩
  rw [ancestorAt, found, Option.bind_some, if_pos below] at ancestor
  cases ancestor

/-- The rule is skipped for exactly the repeats and the descendants of the canonical block, unless the shortcut
answers for a parent that is not above that block. -/
theorem enforceBip30_exact_iff (collisionFree : Set.InjOn blockHash world) (indexed : Indexed world st)
    {height : ℕ} {blockHash parentHash : BlockHash} (low : height < bip34ImpliesBip30Limit) :
    (st.enforceBip30 height blockHash parentHash = false ↔
      isBip30Repeat st.config.params.network height blockHash = true ∨ st.descendsFromBip34 parentHash) ↔
    (isBip30Repeat st.config.params.network height blockHash = true ∨ ¬ st.forksBelowBip34 parentHash) := by
  rw [enforceBip30_eq_false_iff collisionFree indexed low]
  have apart : st.forksBelowBip34 parentHash → ¬ st.descendsFromBip34 parentHash := forksBelowBip34_not_descends
  tauto

def extend (st : ChainState) (header : Header) : ChainState :=
  match st.blockIndex.lookup header.prevBlockhash with
  | none => st
  | some parent => { st.indexChild header parent with active := st.active.push (blockHash header) header 1 }

include collisionFree in
theorem Indexed.extend (indexed : Indexed world st)
    (started : st.active.hashes ≠ []) {header : Header} (known : header ∈ world) (next : header.prevBlockhash = st.bestHash)
    (notGenesis : blockHash header ≠ st.networkGenesisHash) :
    Indexed world (st.extend header) ∧ (st.extend header).active.hashes = st.active.hashes ++ [blockHash header] ∧
      (st.extend header).config = st.config := by
  obtain ⟨tip, ranked⟩ := indexed.tip started
  rw [← next] at tip ranked
  obtain ⟨parent, found, height⟩ := heightOf_some ranked
  have kept := indexed.insertChild collisionFree known found notGenesis
  simp only [ChainState.extend, found]
  refine ⟨⟨⟨kept.indexed.index, ?_, kept.indexed.bodies, kept.indexed.snapshot⟩, ?_⟩, rfl, rfl⟩
  · refine kept.indexed.active.push known (iff_of_false started notGenesis) fun i length => ?_
    have length : st.active.hashes.length = i + 1 := length
    rw [ChainState.height, length] at tip
    exact tip
  · apply placed_push kept.indexed.placed
    have positive := List.length_pos_of_ne_nil started
    rw [heightOf, indexChild, Finmap.lookup_insert, Option.map_some, height]
    show some (st.active.hashes.length - 1 + 1) = some st.active.hashes.length
    congr 1
    omega

def sampleHash (height : ℕ) : ℕ :=
  if height = 21111 then 0x0000000023b3a96d3484e5abb3755c413e7d41500f8e2a5c3f0dd01299cd8ef8 else height

def sampleHeader (height : ℕ) : Header := ⟨1, sampleHash (height - 1), 0, 0, 0, sampleHash height⟩

def sampleTestnet : ℕ → ChainState
  | 0 => { sample ∅ with config := { sampleConfig with params := .forNetwork .testnet } }
  | height + 1 => @extend Library.sample (sampleTestnet height) (sampleHeader (height + 1))

omit [Library] in
theorem sampleHash_inj {a b : ℕ} (small : a ≤ 21111) (small' : b ≤ 21111) (same : sampleHash a = sampleHash b) :
    a = b := by
  unfold sampleHash at same
  split at same <;> split at same <;> omega

def sampleWorld : Set Header := {header | ∃ i ≤ 21111, header = sampleHeader i}

section
omit [Library]

theorem sampleWorld_injOn : let _ := Library.sample
    Set.InjOn blockHash sampleWorld := by
  rintro _ _ ⟨i, smallI, rfl⟩ _ ⟨j, smallJ, rfl⟩ same
  rw [sampleHash_inj smallI smallJ same]

theorem sampleTestnet_spec (height : ℕ) (small : height ≤ 21111) : let _ := Library.sample
    Indexed sampleWorld (sampleTestnet height) ∧
      (sampleTestnet height).active.hashes = (List.range (height + 1)).map sampleHash ∧
      (sampleTestnet height).config.params = .forNetwork .testnet := by
  intro _
  have collisionFree := sampleWorld_injOn
  induction height with
  | zero =>
    have known : (Library.genesisBlock .testnet).header ∈ sampleWorld :=
      ⟨0, Nat.zero_le _, by decide⟩
    refine ⟨indexed_genesis collisionFree known rfl rfl rfl rfl ?_ rfl, rfl, rfl⟩
    intro hash block stored
    rw [sampleTestnet, sample, lookup_insert_ite] at stored
    split at stored
    · cases stored
      exact ⟨Eq.symm ‹_›, known⟩
    · simp at stored
  | succ height ih =>
    obtain ⟨indexed, hashes, params⟩ := ih (by omega)
    have started : (sampleTestnet height).active.hashes ≠ [] := by
      rw [hashes]
      simp
    have tip : (sampleTestnet height).bestHash = sampleHash height := by
      rw [bestHash, hashes, List.range_succ, List.map_append]
      simp
    have fresh : sampleHash (height + 1) ≠ 0 := fun zero =>
      absurd (sampleHash_inj small (Nat.zero_le _) (zero.trans (by decide))) (Nat.succ_ne_zero height)
    obtain ⟨next, grown, config⟩ := indexed.extend collisionFree started ⟨height + 1, small, rfl⟩ tip.symm fresh
    refine ⟨next, ?_, ?_⟩
    · rw [sampleTestnet, grown, hashes, @List.range_succ (height + 1), List.map_append]
      rfl
    · rw [sampleTestnet, config, params]

theorem sampleTestnet_hashes {i : ℕ} (inside : i ≤ 21111) :
    (sampleTestnet 21111).active.hashes[i]? = some (sampleHash i) := by
  obtain ⟨-, hashes, -⟩ := sampleTestnet_spec 21111 le_rfl
  rw [hashes, List.getElem?_map, List.getElem?_range (by omega), Option.map_some]

theorem sampleTestnet_placed {i : ℕ} (inside : i ≤ 21111) :
    heightOf (sampleTestnet 21111).blockIndex (sampleHash i) = some i := by
  let _ := Library.sample
  obtain ⟨indexed, -, -⟩ := sampleTestnet_spec 21111 le_rfl
  exact indexed.placed i _ (sampleTestnet_hashes inside)

/-- A block on top of the canonical chain at the BIP34 height. -/
theorem enforceBip30_exact_sample : let _ := Library.sample
    (sampleTestnet 21111).enforceBip30 21112 30000 (sampleHash 21111) = false ↔
      isBip30Repeat (sampleTestnet 21111).config.params.network 21112 30000 = true ∨
        (sampleTestnet 21111).descendsFromBip34 (sampleHash 21111) := by
  intro _
  obtain ⟨indexed, -, params⟩ := sampleTestnet_spec 21111 le_rfl
  refine (enforceBip30_exact_iff sampleWorld_injOn indexed (by decide)).mpr (.inr ?_)
  rintro ⟨node, -, -, found, -, below, -⟩
  have height := sampleTestnet_placed le_rfl
  rw [heightOf_eq found, Option.some.injEq] at height
  rw [height, params] at below
  exact absurd below (by decide)

/-- A second block at height 2 of testnet skips the rule once the active chain has reached the BIP34 height. -/
theorem enforceBip30_skipped : let _ := Library.sample
    Indexed sampleWorld (sampleTestnet 21111) ∧
      (sampleTestnet 21111).enforceBip30 2 30000 (sampleHash 1) = false ∧
      isBip30Repeat (sampleTestnet 21111).config.params.network 2 30000 = false ∧
      ancestorAt (sampleTestnet 21111).blockIndex (sampleHash 1) (sampleTestnet 21111).config.params.buried.bip34 =
        none := by
  intro _
  obtain ⟨indexed, -, params⟩ := sampleTestnet_spec 21111 le_rfl
  obtain ⟨node, found, height⟩ := heightOf_some (sampleTestnet_placed (show 1 ≤ 21111 by omega))
  have below : node.height < (sampleTestnet 21111).config.params.buried.bip34 := by
    rw [height, params]
    decide
  refine ⟨indexed, ?_, ?_, ?_⟩
  · rw [enforceBip30_eq_false_iff sampleWorld_injOn indexed (by decide)]
    refine .inr (.inr ⟨node, sampleHash 21111, ?_, found, ?_, below, ?_⟩)
    · rw [params]
      rfl
    · rw [height]
      exact sampleTestnet_hashes (by omega)
    · rw [params]
      exact sampleTestnet_hashes le_rfl
  · rw [params]
    rfl
  · rw [ancestorAt, found, Option.bind_some, if_pos below]

end

end ChainState

end BitcoindRs
