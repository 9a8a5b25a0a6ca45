import BitcoindRs.Mempool.Minable

/-! The topology of version 3 transactions. -/

namespace BitcoindRs
open Relation Worklist Checked Result List DisconnectedTransactionPool
variable [Library] [PolicyLibrary]

namespace Mempool

variable {pool : Mempool} {view : ChainView} {depth : Txid → ℕ}
variable {tx : Transaction} {q left : Mempool} {txid other child a b : Txid} {options : AcceptOptions} {version : ℤ}
variable {vsize : ℕ} {allowDescendantReplacement : Bool} {candidate : Candidate}

def HasVersion (pool : Mempool) (txid : Txid) (version : ℤ) : Prop :=
  ∃ entry, pool.entries.lookup txid = some entry ∧ entry.transaction.version = version

def DependsOn (pool : Mempool) : Txid → Txid → Prop := TransGen fun child parent => parent ∈ pool.parents child

/-- What the checks keep: families of a parent and a child, all of version 3. -/
structure Families (pool : Mempool) : Prop where
  alike : ∀ child parent, parent ∈ pool.parents child → (pool.HasVersion parent trucVersion ↔ pool.HasVersion child trucVersion)
  oneParent : ∀ child a b, pool.HasVersion child trucVersion → a ∈ pool.parents child → b ∈ pool.parents child → a = b
  shallow : ∀ child parent above, pool.HasVersion child trucVersion → parent ∈ pool.parents child → above ∉ pool.parents parent
  oneChild : ∀ parent a b, pool.HasVersion parent trucVersion → parent ∈ pool.parents a → parent ∈ pool.parents b → a = b
  small : ∀ txid entry, pool.entries.lookup txid = some entry → entry.transaction.version = trucVersion →
    entry.vsize ≤ trucMaxVsize ∧ (pool.parents txid ≠ [] → entry.vsize ≤ trucChildMaxVsize)

/-! ### Entries that leave -/

omit [Library] [PolicyLibrary] in
theorem hasVersion_iff {entry : MempoolEntry} (found : pool.entries.lookup txid = some entry) :
    pool.HasVersion txid version ↔ entry.transaction.version = version := by
  constructor
  · rintro ⟨other, there, same⟩
    rw [found] at there
    cases there
    exact same
  · exact fun same => ⟨entry, found, same⟩

def Within (p q : Mempool) : Prop := ∀ txid entry, q.entries.lookup txid = some entry → p.entries.lookup txid = some entry

theorem Leaves.within {p : Mempool} (leaves : Leaves p q) : Within p q := fun _ _ => leaves.entries

section
omit [Library] [PolicyLibrary]

theorem Within.parents {p : Mempool} (within : Within p q) {parent : Txid} (linked : parent ∈ q.parents child) :
    parent ∈ p.parents child := by
  obtain ⟨entry, found, spends, inside⟩ := mem_parents.mp linked
  obtain ⟨other, there⟩ := contains_iff.mp inside
  exact mem_parents.mpr ⟨entry, within child entry found, spends, contains_iff.mpr ⟨other, within parent other there⟩⟩

theorem Within.absent {p : Mempool} (within : Within p q) (gone : p.contains txid = false) : q.contains txid = false := by
  by_contra inside
  obtain ⟨entry, found⟩ := contains_iff.mp (Bool.eq_true_of_not_eq_false inside)
  rw [contains_iff.mpr ⟨entry, within txid entry found⟩] at gone
  cases gone

theorem Within.hasVersion {p : Mempool} (within : Within p q) (inside : q.contains txid = true) :
    q.HasVersion txid version ↔ p.HasVersion txid version := by
  obtain ⟨entry, found⟩ := contains_iff.mp inside
  rw [hasVersion_iff found, hasVersion_iff (within txid entry found)]

theorem Families.within (families : Families pool) (within : Within pool q) : Families q := by
  have before : ∀ {txid}, q.HasVersion txid trucVersion → pool.HasVersion txid trucVersion :=
    fun ⟨entry, found, same⟩ => ⟨entry, within _ entry found, same⟩
  constructor
  · intro child parent linked
    obtain ⟨entry, found, -, inside⟩ := mem_parents.mp linked
    rw [within.hasVersion inside, within.hasVersion (contains_iff.mpr ⟨entry, found⟩)]
    exact families.alike child parent (within.parents linked)
  · exact fun child a b young left right => families.oneParent child a b (before young) (within.parents left) (within.parents right)
  · exact fun child parent above young linked higher =>
      families.shallow child parent above (before young) (within.parents linked) (within.parents higher)
  · exact fun parent a b young left right => families.oneChild parent a b (before young) (within.parents left) (within.parents right)
  · intro txid entry found young
    obtain ⟨bounded, child⟩ := families.small txid entry (within txid entry found) young
    refine ⟨bounded, fun some_ => child ?_⟩
    obtain ⟨parent, linked⟩ := exists_mem_of_ne_nil _ some_
    exact ne_nil_of_mem (within.parents linked)

end

theorem Families.leaves (families : Families pool) (leaves : Leaves pool q) : Families q :=
  families.within leaves.within

/-! ### The check of a transaction -/

variable [HashOrder ℕ]

omit [Library] [PolicyLibrary] in
theorem mem_ancestors : other ∈ pool.ancestors txid ↔
    pool.contains txid = true ∧ other ≠ txid ∧ Reaches pool.parents txid other :=
  mem_others fun _ _ member => parents_subset member

omit [Library] [PolicyLibrary] [HashOrder ℕ] in
theorem mem_parentIds {parent : Txid} :
    parent ∈ pool.parentIds tx ↔ parent ∈ tx.inputTxids ∧ pool.contains parent = true := by
  rw [parentIds, mem_eraseDups, mem_filter]

/-- What the check says about the entries a version 3 transaction spends. -/
structure Joins (pool : Mempool) (tx : Transaction) (vsize : ℕ) (allowDescendantReplacement : Bool) : Prop where
  bounded : vsize ≤ trucMaxVsize
  oneParent : ∀ a b, a ∈ pool.parentIds tx → b ∈ pool.parentIds tx → a = b
  top : ∀ parent ∈ pool.parentIds tx, pool.ancestors parent = []
  small : ∀ parent ∈ pool.parentIds tx, vsize ≤ trucChildMaxVsize
  childless : allowDescendantReplacement = false → ∀ parent ∈ pool.parentIds tx, pool.descendants parent = []

omit [PolicyLibrary] [HashOrder ℕ] in
theorem checkTrucParents_ok (run : (pool.parentIds tx).forM (pool.checkTrucParent tx) = .ok ())
    {parent : Txid} (spends : parent ∈ pool.parentIds tx) :
    pool.HasVersion parent trucVersion ↔ tx.version = trucVersion := by
  obtain ⟨entry, found⟩ := contains_iff.mp (mem_parentIds.mp spends).2
  have passed := forM_ok_iff.mp run parent spends
  rw [checkTrucParent, found] at passed
  rw [hasVersion_iff found]
  dsimp only at passed
  by_cases young : tx.version = trucVersion <;> by_cases old : entry.transaction.version = trucVersion <;> simp_all

omit [PolicyLibrary] in
theorem checkTrucChild_ok {parent : Txid}
    (run : pool.checkTrucChild tx vsize allowDescendantReplacement parent = .ok ()) :
    pool.ancestors parent = [] ∧ vsize ≤ trucChildMaxVsize ∧
      (allowDescendantReplacement = false → pool.descendants parent = []) := by
  unfold checkTrucChild at run
  obtain ⟨few, run⟩ := guard_ok run
  obtain ⟨small, run⟩ := guard_ok run
  have alone := bailIf_ok.mp run
  unfold trucAncestorLimit at few
  unfold trucDescendantLimit at alone
  refine ⟨length_eq_zero_iff.mp (by omega), not_lt.mp small, fun counted => length_eq_zero_iff.mp ?_⟩
  by_contra some_
  exact alone ⟨counted, by omega⟩

omit [PolicyLibrary] in
theorem checkTrucPolicyWithReplacement_ok
    (run : pool.checkTrucPolicyWithReplacement tx vsize allowDescendantReplacement = .ok ()) :
    (∀ parent ∈ pool.parentIds tx, pool.HasVersion parent trucVersion ↔ tx.version = trucVersion) ∧
      (tx.version = trucVersion → Joins pool tx vsize allowDescendantReplacement) := by
  unfold checkTrucPolicyWithReplacement at run
  obtain ⟨⟨⟩, parents, run⟩ := bind_ok run
  refine ⟨fun parent spends => checkTrucParents_ok parents spends, fun young => ?_⟩
  rw [if_neg (not_not.mpr young)] at run
  obtain ⟨bounded, run⟩ := guard_ok run
  obtain ⟨few, run⟩ := guard_ok run
  rcases ids : pool.parentIds tx with _ | ⟨parent, rest⟩
  · refine ⟨not_lt.mp bounded, ?_, ?_, ?_, ?_⟩ <;> simp [ids]
  · rw [ids] at run few
    obtain ⟨top, small, childless⟩ := checkTrucChild_ok run
    have alone : rest = [] := by
      unfold trucAncestorLimit at few
      rw [length_cons] at few
      exact length_eq_zero_iff.mp (by omega)
    have only : ∀ a, a ∈ pool.parentIds tx → a = parent := by
      intro a member
      rwa [ids, alone, mem_singleton] at member
    refine ⟨not_lt.mp bounded, fun a b left right => (only a left).trans (only b right).symm, ?_, fun _ _ => small, ?_⟩
    · intro a member
      rwa [only a member]
    · intro counted a member
      rw [only a member]
      exact childless counted

/-! ### Entering -/

def Outside (view : ChainView) (pool : Mempool) : Prop :=
  ∀ outpoint coin, view.utxo.lookup outpoint = some coin → pool.contains outpoint.txid = false

structure Trim (depth : Txid → ℕ) (view : ChainView) (pool : Mempool) : Prop where
  sound : Sound depth view pool
  enforced : pool.policy.trucPolicy = .enforce
  outside : Outside view pool
  families : Families pool

omit [HashOrder ℕ] in
theorem Outside.leaves (outside : Outside view pool) (leaves : Leaves pool q) : Outside view q :=
  fun outpoint coin found => leaves.within.absent (outside outpoint coin found)

theorem Admits.policy (admits : Admits view tx options pool q) :
    q.policy = { pool.policy with requireStandard := q.policy.requireStandard } := by
  obtain ⟨roomy, candidate, entering, -, rfl⟩ := admits.entering
  rw [insertEntry_eq]
  exact entering.out.leaves.policy

theorem Trim.withdraws (trim : Trim depth view pool) (out : Withdraws pool q) : Trim depth view q :=
  ⟨trim.sound.withdraws out, (congrArg MempoolPolicy.trucPolicy out.leaves.policy).trans trim.enforced,
    trim.outside.leaves out.leaves, trim.families.leaves out.leaves⟩

omit [PolicyLibrary] [HashOrder ℕ] in
theorem hasVersion_insertEntry {recordSequence : Bool}
    (fresh : pool.entries.lookup candidate.entry.transaction.computeTxid = none) :
    (pool.insertEntry candidate recordSequence).HasVersion txid version ↔
      txid = candidate.entry.transaction.computeTxid ∧ candidate.entry.transaction.version = version ∨ pool.HasVersion txid version := by
  unfold HasVersion
  simp only [lookup_insertEntry fresh]
  constructor
  · rintro ⟨entry, ⟨rfl, rfl⟩ | before, same⟩
    · exact .inl ⟨rfl, same⟩
    · exact .inr ⟨entry, before, same⟩
  · rintro (⟨rfl, same⟩ | ⟨entry, before, same⟩)
    · exact ⟨candidate.entry, .inl ⟨rfl, rfl⟩, same⟩
    · exact ⟨entry, .inr before, same⟩

omit [PolicyLibrary] [HashOrder ℕ] in
theorem Families.insertEntry (families : Families pool) (recordSequence : Bool)
    (fresh : pool.entries.lookup candidate.entry.transaction.computeTxid = none)
    (unclaimed : Unclaimed pool candidate.entry.transaction)
    (alike : ∀ parent ∈ pool.parentIds candidate.entry.transaction,
      pool.HasVersion parent trucVersion ↔ candidate.entry.transaction.version = trucVersion)
    (joins : candidate.entry.transaction.version = trucVersion →
      candidate.entry.vsize ≤ trucMaxVsize ∧
      (∀ a b, a ∈ pool.parentIds candidate.entry.transaction → b ∈ pool.parentIds candidate.entry.transaction → a = b) ∧
      ∀ parent ∈ pool.parentIds candidate.entry.transaction, candidate.entry.vsize ≤ trucChildMaxVsize ∧
        (∀ above, above ∉ pool.parents parent) ∧ ∀ child, parent ∉ pool.parents child) :
    Families (pool.insertEntry candidate recordSequence) := by
  have linked_iff : ∀ {parent child}, parent ∈ (pool.insertEntry candidate recordSequence).parents child ↔
      parent ∈ pool.parents child ∨ child = candidate.entry.transaction.computeTxid ∧
        parent ∈ pool.parentIds candidate.entry.transaction := by
    intro parent child
    rw [mem_parents_insertEntry fresh unclaimed, mem_parentIds]
  have different : ∀ {txid}, pool.contains txid = true → txid ≠ candidate.entry.transaction.computeTxid := by
    rintro txid inside rfl
    obtain ⟨_, there⟩ := contains_iff.mp inside
    rw [fresh] at there
    cases there
  have old : ∀ {txid}, pool.contains txid = true →
      ((pool.insertEntry candidate recordSequence).HasVersion txid trucVersion ↔ pool.HasVersion txid trucVersion) := by
    intro txid inside
    rw [hasVersion_insertEntry fresh]
    exact or_iff_right fun ⟨same, _⟩ => different inside same
  have new : (pool.insertEntry candidate recordSequence).HasVersion candidate.entry.transaction.computeTxid trucVersion ↔
      candidate.entry.transaction.version = trucVersion := by
    rw [hasVersion_insertEntry fresh]
    constructor
    · rintro (⟨-, same⟩ | ⟨_, there, -⟩)
      · exact same
      · rw [fresh] at there
        cases there
    · exact fun same => .inl ⟨rfl, same⟩
  have ends : ∀ {child parent}, parent ∈ pool.parents child → pool.contains child = true ∧ pool.contains parent = true := by
    intro child parent linked
    obtain ⟨entry, found, -, inside⟩ := mem_parents.mp linked
    exact ⟨contains_iff.mpr ⟨entry, found⟩, inside⟩
  constructor
  · intro child parent linked
    rcases linked_iff.mp linked with before | ⟨rfl, spends⟩
    · obtain ⟨childInside, parentInside⟩ := ends before
      rw [old childInside, old parentInside]
      exact families.alike child parent before
    · rw [new, old (mem_parentIds.mp spends).2]
      exact alike parent spends
  · intro child a b young left right
    rcases linked_iff.mp left with before | ⟨rfl, spends⟩
    · obtain ⟨childInside, -⟩ := ends before
      rcases linked_iff.mp right with before' | ⟨same, -⟩
      · exact families.oneParent child a b ((old childInside).mp young) before before'
      · exact absurd same (different childInside)
    · rcases linked_iff.mp right with before' | ⟨-, spends'⟩
      · exact absurd rfl (different (ends before').1)
      · exact (joins (new.mp young)).2.1 a b spends spends'
  · intro child parent above young linked higher
    rcases linked_iff.mp linked with before | ⟨rfl, spends⟩
    · obtain ⟨childInside, parentInside⟩ := ends before
      rcases linked_iff.mp higher with higher | ⟨same, -⟩
      · exact families.shallow child parent above ((old childInside).mp young) before higher
      · exact different parentInside same
    · rcases linked_iff.mp higher with higher | ⟨same, -⟩
      · exact ((joins (new.mp young)).2.2 parent spends).2.1 above higher
      · exact different (mem_parentIds.mp spends).2 same
  · intro parent a b young left right
    rcases linked_iff.mp left with before | ⟨rfl, spends⟩
    · have parentInside := (ends before).2
      rcases linked_iff.mp right with before' | ⟨rfl, spends⟩
      · exact families.oneChild parent a b ((old parentInside).mp young) before before'
      · have joined := (alike parent spends).mp ((old parentInside).mp young)
        exact absurd before (((joins joined).2.2 parent spends).2.2 a)
    · have parentInside := (mem_parentIds.mp spends).2
      rcases linked_iff.mp right with before' | ⟨rfl, -⟩
      · have joined := (alike parent spends).mp ((old parentInside).mp young)
        exact absurd before' (((joins joined).2.2 parent spends).2.2 b)
      · rfl
  · intro txid entry found young
    rcases (lookup_insertEntry fresh).mp found with ⟨rfl, rfl⟩ | before
    · refine ⟨(joins young).1, fun some_ => ?_⟩
      obtain ⟨parent, linked⟩ := exists_mem_of_ne_nil _ some_
      rcases linked_iff.mp linked with before | ⟨-, spends⟩
      · exact absurd rfl (different (ends before).1)
      · exact ((joins young).2.2 parent spends).1
    · obtain ⟨bounded, child⟩ := families.small txid entry before young
      refine ⟨bounded, fun some_ => child ?_⟩
      obtain ⟨parent, linked⟩ := exists_mem_of_ne_nil _ some_
      rcases linked_iff.mp linked with old | ⟨same, -⟩
      · exact ne_nil_of_mem old
      · exact absurd same (different (contains_iff.mpr ⟨entry, before⟩))

section
omit [Library] [PolicyLibrary]

omit [HashOrder ℕ] in
theorem Families.alike_of_dependsOn (families : Families pool) (path : pool.DependsOn a b) :
    pool.HasVersion b trucVersion ↔ pool.HasVersion a trucVersion := by
  induction path with
  | single linked => exact families.alike _ _ linked
  | tail _ linked ih => exact (families.alike _ _ linked).trans ih

omit [HashOrder ℕ] in
theorem Families.direct (families : Families pool) (young : pool.HasVersion a trucVersion) (path : pool.DependsOn a b) :
    b ∈ pool.parents a := by
  obtain ⟨parent, near, rest⟩ := TransGen.head'_iff.mp path
  rcases rest.cases_head with same | ⟨above, far, -⟩
  · rwa [← same]
  · exact absurd far (families.shallow a parent above young near)

omit [HashOrder ℕ] in
theorem Families.descendants (families : Families pool) (young : pool.HasVersion txid trucVersion)
    (left : pool.DependsOn a txid) (right : pool.DependsOn b txid) : a = b :=
  families.oneChild txid a b young (families.direct ((families.alike_of_dependsOn left).mp young) left)
    (families.direct ((families.alike_of_dependsOn right).mp young) right)

theorem Families.descendant (families : Families pool) (linked : Linked pool) {parent : Txid}
    (young : pool.HasVersion parent trucVersion) (spends : parent ∈ pool.parents child) (below : other ∈ pool.descendants parent) :
    other = child := by
  obtain ⟨-, different, path⟩ := mem_descendants.mp below
  refine families.descendants young ?_ (.single spends)
  rcases reflTransGen_iff_eq_or_transGen.mp path with same | path
  · exact absurd same different
  · exact transGen_swap.mp (path.lift id fun _ _ edge => linked.mem_children.mp edge)

end

omit [Library] [PolicyLibrary] [HashOrder ℕ] in
theorem Grounded.irreflexive (grounded : Grounded depth pool) {parent : Txid} (linked : parent ∈ pool.parents child) :
    parent ≠ child := by
  rintro rfl
  obtain ⟨entry, found, spends, -⟩ := mem_parents.mp linked
  exact lt_irrefl _ (grounded parent entry found parent spends)

omit [Library] [PolicyLibrary] [HashOrder ℕ] in
theorem Outside.parent {parent : Txid} (outside : Outside view pool)
    (ready : left.minable view tx = true) (spends : parent ∈ tx.inputTxids) (inside : pool.contains parent = true) :
    left.contains parent = true := by
  obtain ⟨outpoint, listed, rfl⟩ := Transaction.mem_inputTxids.mp spends
  have covered := minable_covered ready listed
  unfold Covered at covered
  rcases there : left.entries.lookup outpoint.txid with _ | entry
  · rw [there] at covered
    obtain ⟨coin, found, -⟩ := covered
    rw [outside outpoint coin found] at inside
    cases inside
  · exact contains_iff.mpr ⟨entry, there⟩

omit [PolicyLibrary] in
theorem checkTopology_truc {checked : Checked} (kind : Ordinary options)
    (enforced : pool.policy.trucPolicy = .enforce) (topology : pool.checkTopology tx checked options = .ok ()) :
    pool.checkTrucPolicyWithReplacement tx checked.vsize options.allowTrucDescendantReplacement = .ok () := by
  unfold checkTopology at topology
  obtain ⟨⟨⟩, -, topology⟩ := bind_ok topology
  obtain ⟨⟨⟩, truc, -⟩ := bind_ok topology
  rw [kind.1, kind.2.1, checkTrucPolicy, enforced] at truc
  exact truc

theorem Trim.taken {entered : Mempool} (trim : Trim depth view pool)
    (out : Withdraws pool left) (kind : Ordinary options) (genuine : Genuine depth view tx)
    (admits : Admits view tx options left entered)
    (replaced : options.allowTrucDescendantReplacement = true → ∃ parent ∈ tx.inputTxids,
      ∃ conflict ∈ pool.descendants parent, left.contains conflict = false) : Trim depth view entered := by
  have before := trim.withdraws out
  have unclaimed := before.sound.unclaimed genuine admits
  have sound := before.sound.admits genuine admits
  have enforced := (congrArg MempoolPolicy.trucPolicy admits.policy).trans before.enforced
  cases admits with
  | @enter decayed roomy checked addedAt tuned _ passed topology room =>
    have passed := checkTransaction_ok passed
    have tunedTrim := before.withdraws (.tuned tuned)
    have making := (withdraws_makeRoom decayed tx (decayed.candidate view tx addedAt checked).memoryUsage options).1
    rw [room] at making
    have roomyTrim := tunedTrim.withdraws making
    have within := making.leaves.within
    have fewer : ∀ parent ∈ roomy.parentIds tx, parent ∈ decayed.parentIds tx := by
      intro parent spends
      obtain ⟨listed, inside⟩ := mem_parentIds.mp spends
      exact mem_parentIds.mpr ⟨listed, making.leaves.contains inside⟩
    have fresh : roomy.entries.lookup tx.computeTxid = none := by
      rcases found : roomy.entries.lookup tx.computeTxid with _ | entry
      · rfl
      · have early := within _ _ found
        rw [tuned.entries, passed.fresh] at early
        cases early
    obtain ⟨alike, joins⟩ := checkTrucPolicyWithReplacement_ok (checkTopology_truc kind tunedTrim.enforced topology)
    refine ⟨sound, enforced, ?outside, ?families⟩
    case outside =>
      intro outpoint coin found
      by_contra inside
      rw [Bool.not_eq_false, contains_insertEntry] at inside
      rcases inside with same | inside
      · rw [passed.notInChain outpoint (genuine.outputs outpoint coin found same)] at found
        cases found
      · rw [roomyTrim.outside outpoint coin found] at inside
        cases inside
    case families =>
      refine roomyTrim.families.insertEntry _ fresh ?_ ?_ ?_
      · exact unclaimed.leaves ((Withdraws.tuned tuned).trans making).leaves
      · intro parent spends
        rw [within.hasVersion (mem_parentIds.mp spends).2]
        exact alike parent (fewer parent spends)
      · intro young
        have joins := joins young
        refine ⟨joins.bounded, fun a b left right => joins.oneParent a b (fewer a left) (fewer b right), fun parent spends => ?_⟩
        have spends := fewer parent spends
        refine ⟨joins.small parent spends, fun above higher => ?_, fun child lower => ?_⟩
        · have higher := within.parents higher
          have listed : above ∈ decayed.ancestors parent := mem_ancestors.mpr
            ⟨(mem_parentIds.mp spends).2, tunedTrim.sound.grounded.irreflexive higher, .single higher⟩
          rw [joins.top parent spends] at listed
          cases listed
        · rcases allowed : options.allowTrucDescendantReplacement with _ | _
          · have lower := within.parents lower
            have listed : child ∈ decayed.descendants parent := mem_descendants.mpr
              ⟨(mem_parentIds.mp spends).2, (tunedTrim.sound.grounded.irreflexive lower).symm,
                .single (tunedTrim.sound.linked.mem_children.mpr lower)⟩
            rw [joins.childless allowed parent spends] at listed
            cases listed
          · -- The one descendant that the parent had has been replaced.
            obtain ⟨other, listed, conflict, below, gone⟩ := replaced allowed
            have inside := trim.outside.parent passed.minable listed (mem_descendants.mp below).1
            have same : other = parent := joins.oneParent other parent (mem_parentIds.mpr ⟨listed, by rwa [tuned.contains]⟩) spends
            rw [same] at below
            have leaves : Leaves pool decayed := (out.trans (.tuned tuned)).leaves
            have early := leaves.within.parents (within.parents lower)
            have version := (leaves.within.hasVersion (mem_parentIds.mp spends).2).mp ((alike parent spends).mpr young)
            rw [trim.families.descendant trim.sound.linked version early below] at gone
            obtain ⟨entry, found, -⟩ := mem_parents.mp (within.parents lower)
            rw [← tuned.contains, contains_iff.mpr ⟨entry, found⟩] at gone
            cases gone

theorem Trim.offer (trim : Trim depth view pool) (genuine : Genuine depth view tx)
    (offer : Offer Ordinary view tx pool q) : Trim depth view q := by
  cases offer with
  | declined out => exact trim.withdraws out
  | taken out kind admits tuned replaced => exact (trim.taken out kind genuine admits replaced).withdraws (.tuned tuned)

/-! ### Blocks -/

omit [HashOrder ℕ] in
theorem contains_removeConfirmed (pool : Mempool) (now : ℕ) (block : Block) (confirmed : txid ∈ block.txids) :
    (pool.removeConfirmed now block).contains txid = false := by
  have loop : ∀ (txs : List Transaction) (pool : Mempool), (txs.foldl (fun pool tx =>
      let pool := pool.removeWithNotification tx.computeTxid false
      { pool with priorities := pool.priorities.erase tx.computeTxid }) pool).contains txid =
      (decide (txid ∉ txs.map Transaction.computeTxid) && pool.contains txid) := by
    intro txs
    induction txs with
    | nil => simp
    | cons tx txs ih =>
      intro pool
      rw [foldl_cons, ih]
      show (_ && (pool.removeWithNotification tx.computeTxid false).contains txid) = _
      rw [contains_removeWithNotification]
      by_cases same : txid = tx.computeTxid <;> simp [same]
  have listed : txid ∈ block.txdata.map Transaction.computeTxid := confirmed
  have gone := loop block.txdata pool
  rw [decide_eq_false (not_not.mpr listed), Bool.false_and] at gone
  exact gone

theorem connectBlocks_within (now : ℕ) (blocks : List Block) (state : Mempool × List MempoolChange) :
    Within state.1 (blocks.foldl (connectBlock now) state).1 ∧
      ∀ block ∈ blocks, ∀ txid ∈ block.txids, (blocks.foldl (connectBlock now) state).1.contains txid = false := by
  induction blocks generalizing state with
  | nil => exact ⟨fun _ _ found => found, fun _ listed => absurd listed not_mem_nil⟩
  | cons block blocks ih =>
    obtain ⟨within, gone⟩ := ih (connectBlock now state block)
    have first : Leaves state.1 ((state.1.removeConflicts block).removeConfirmed now block) :=
      (withdraws_removeConflicts state.1 block).leaves.trans (leaves_removeConfirmed _ now block)
    refine ⟨fun txid entry found => first.entries (within txid entry found), fun other listed txid confirmed => ?_⟩
    rcases mem_cons.mp listed with rfl | later
    · exact within.absent (contains_removeConfirmed _ now other confirmed)
    · exact gone other later txid confirmed

theorem reconcileBlocks_connect (pool : Mempool) (view : ChainView) (now : ℕ) (activated : List Block) (manualInvalidation : Bool) :
    (pool.reconcileBlocks view now activated [] manualInvalidation).1 = (activated.foldl (connectBlock now) (pool, [])).1 := by
  have empty : (activated.foldl removeForBlock
      (([] : List Block).foldl queueDisconnected (pool, {})).2).takeOldestFirst.filter (fun tx => tx.isCoinbase = false) = [] := by
    refine eq_nil_iff_forall_not_mem.mpr fun tx listed => ?_
    have offered : tx ∈ ([] : List Block).flatMap (·.txdata) := restored_offered (fun _ member => member) listed
    cases offered
  have nothing : ∀ pool' : Mempool, restore view now pool' (activated.foldl removeForBlock {}) = pool' := by
    intro pool'
    unfold restore
    rw [show (activated.foldl removeForBlock {}).takeOldestFirst.filter _ = [] from empty]
    rfl
  cases manualInvalidation with
  | true => exact nothing _
  | false => exact nothing _

theorem reconcile_connect (pool : Mempool) (view : ChainView) (now : ℕ) (activated : List Block) (manualInvalidation : Bool) :
    Within pool (pool.reconcile view now activated [] manualInvalidation).1 ∧
      ∀ block ∈ activated, ∀ txid ∈ block.txids,
        (pool.reconcile view now activated [] manualInvalidation).1.contains txid = false := by
  obtain ⟨within, gone⟩ := connectBlocks_within now activated (pool, [])
  rw [← reconcileBlocks_connect pool view now activated manualInvalidation] at within gone
  unfold reconcile
  generalize pool.reconcileBlocks view now activated [] manualInvalidation = moved at within gone
  have out : Leaves moved.1.rebuildChildrenIndex (moved.1.rebuildChildrenIndex.removeForReorg view).enforceSizeLimit :=
    ((withdraws_removeForReorg _ view).trans (withdraws_enforceSizeLimit _)).leaves
  constructor
  · exact fun txid entry found => within txid entry (out.entries found)
  · exact fun block listed txid confirmed => out.within.absent (gone block listed txid confirmed)

theorem Feeds.policy {offered : Transaction → Prop} {state state' : Mempool × List MempoolChange}
    (feeds : Feeds offered view state state') :
    state'.1.policy = { state.1.policy with requireStandard := state'.1.policy.requireStandard } := by
  induction feeds with
  | refl => rfl
  | tail _ step ih =>
    cases step with
    | edit edit =>
      cases edit with
      | leave leave => rw [Leaves.policy (.single leave), ih]
      | enter _ _ admits => rw [admits.policy, ih]
      | rebuild => exact ih
    | take p handed => exact ih

/-! ### Runs -/

/-- A pool under enforcement whose chain only grows: new coins of the chain come from the activated blocks. -/
inductive Growing (depth : Txid → ℕ) : ChainView → Mempool → Prop
  | new (view : ChainView) (policy : MempoolPolicy) (enforced : policy.trucPolicy = .enforce) (maxBytes : ℕ)
      (electrumIndexEnabled : Bool) (now : ℕ) : Growing depth view (Mempool.new policy maxBytes electrumIndexEnabled now)
  | maintain {view : ChainView} {pool : Mempool} (growing : Growing depth view pool) (operation : Operation)
      (upkeep : operation.maintains = true) (genuine : ∀ tx ∈ operation.offered, Genuine depth view tx) :
      Growing depth view (pool.perform ⟨view, operation⟩).1
  | connect {view : ChainView} {pool : Mempool} (growing : Growing depth view pool) (next : ChainView) (now : ℕ)
      (activated : List Block) (manualInvalidation : Bool)
      (coins : ∀ outpoint coin, next.utxo.lookup outpoint = some coin →
        (∃ old, view.utxo.lookup outpoint = some old) ∨ ∃ block ∈ activated, outpoint.txid ∈ block.txids) :
      Growing depth next (pool.reconcile next now activated [] manualInvalidation).1

theorem Growing.kept (growing : Growing depth view pool) : Kept depth view pool := by
  induction growing with
  | new view policy _ maxBytes electrumIndexEnabled now => exact .new view policy maxBytes electrumIndexEnabled now
  | maintain _ operation upkeep genuine ih => exact ih.maintain operation upkeep genuine
  | connect _ next now activated manualInvalidation _ ih =>
    exact ih.reconcile next now activated [] manualInvalidation fun _ none_ => absurd none_ not_mem_nil

theorem Growing.trim (growing : Growing depth view pool) : Trim depth view pool := by
  induction growing with
  | new view policy enforced maxBytes electrumIndexEnabled now =>
    have nobody : ∀ {child parent}, parent ∉ (Mempool.new policy maxBytes electrumIndexEnabled now).parents child := by
      intro child parent linked
      obtain ⟨_, found, -⟩ := mem_parents.mp linked
      cases found
    exact ⟨(Kept.new view policy maxBytes electrumIndexEnabled now).sound, enforced, fun _ _ _ => rfl,
      ⟨fun _ _ linked => absurd linked nobody, fun _ _ _ _ linked => absurd linked nobody,
        fun _ _ _ _ linked => absurd linked nobody, fun _ _ _ _ linked => absurd linked nobody, nofun⟩⟩
  | maintain _ operation upkeep genuine ih =>
    refine perform_maintains upkeep (fun p q trim out => trim.withdraws out) ?rebuild ?log ih
      (fun tx listed p q trim offer => trim.offer (genuine tx listed) offer)
    case rebuild =>
      exact fun p trim => ⟨trim.sound.rebuild, trim.enforced, trim.outside, trim.families.within fun _ _ found => found⟩
    case log =>
      exact fun p trim => ⟨trim.sound.taken, trim.enforced, trim.outside, trim.families.within fun _ _ found => found⟩
  | @connect view pool growing next now activated manualInvalidation coins ih =>
    obtain ⟨within, gone⟩ := reconcile_connect pool next now activated manualInvalidation
    have feeds : Feeds _ next (pool, []) _ := reconcile_delivers pool now activated [] manualInvalidation []
    refine ⟨(growing.connect next now activated manualInvalidation coins).kept.sound, (congrArg MempoolPolicy.trucPolicy feeds.policy).trans ih.enforced, ?_,
      ih.families.within within⟩
    intro outpoint coin found
    rcases coins outpoint coin found with ⟨old, there⟩ | ⟨block, listed, confirmed⟩
    · exact within.absent (ih.outside outpoint old there)
    · exact gone block listed outpoint.txid confirmed

/-- In every pool under enforcement that has not seen a reorganisation, a version 3 entry has at most one ancestor and one
descendant, its parents and children have version 3, and it is within the size limits. -/
theorem truc_topology (growing : Growing depth view pool) {txid : Txid} {entry : MempoolEntry}
    (found : pool.entries.lookup txid = some entry) (young : entry.transaction.version = trucVersion) :
    (∀ a b, pool.DependsOn txid a → pool.DependsOn txid b → a = b) ∧
    (∀ a b, pool.DependsOn a txid → pool.DependsOn b txid → a = b) ∧
    (∀ parent ∈ pool.parents txid, pool.HasVersion parent trucVersion) ∧
    (∀ child, txid ∈ pool.parents child → pool.HasVersion child trucVersion) ∧
    entry.vsize ≤ trucMaxVsize ∧ (pool.parents txid ≠ [] → entry.vsize ≤ trucChildMaxVsize) := by
  have families := growing.trim.families
  have version : pool.HasVersion txid trucVersion := (hasVersion_iff found).mpr young
  refine ⟨?_, fun a b => families.descendants version, ?_, ?_, families.small txid entry found young⟩
  · exact fun a b left right =>
      families.oneParent txid a b version (families.direct version left) (families.direct version right)
  · exact fun parent linked => (families.alike txid parent linked).mpr version
  · exact fun child linked => (families.alike child txid linked).mp version

omit [Library] [PolicyLibrary] [HashOrder ℕ] in
/-- A version 3 payment and its child. -/
theorem truc_topology_sample : let _ := Library.sample
    let _ := PolicyLibrary.sample
    let _ := BlockHash.sampleOrder
    let view := sampleView [sampleOldCoin 7 0 100000]
    let parent : Transaction := { sampleSpend 1 [⟨7, 0⟩] [50000, 40000] with version := 3 }
    let child : Transaction := { sampleSpend 2 [⟨1001, 0⟩] [30000, 10000] with version := 3 }
    let pool := (((samplePool { trucPolicy := .enforce } 5000).perform ⟨view, .accept 0 parent⟩).1.perform ⟨view, .accept 0 child⟩).1
    1001 ∈ pool.parents 1002 ∧ ∀ a b, pool.DependsOn 1002 a → pool.DependsOn 1002 b → a = b := by
  intro _ _ _ view parent child pool
  have first : Growing id view ((samplePool { trucPolicy := .enforce } 5000).perform ⟨view, .accept 0 parent⟩).1 := by
    refine .maintain (.new view { trucPolicy := .enforce } rfl 5000 false 0) (.accept 0 parent) rfl fun other listed => ?_
    rw [mem_singleton.mp listed]
    exact genuine_sample (by decide +kernel)
  have growing : Growing id view pool := by
    refine first.maintain (.accept 0 child) rfl fun other listed => ?_
    rw [mem_singleton.mp listed]
    exact genuine_sample (by decide +kernel)
  have present : (pool.entries.lookup 1002).map (·.transaction) = some child := by decide +kernel
  obtain ⟨entry, found, same⟩ := Option.map_eq_some_iff.mp present
  refine ⟨by decide +kernel, (truc_topology growing found ?_).1⟩
  rw [same]
  rfl

omit [Library] [PolicyLibrary] [HashOrder ℕ] in
theorem Grounded.dependsOn (grounded : Grounded depth pool) (path : pool.DependsOn other txid) :
    pool.contains other = true ∧ pool.contains txid = true ∧ depth txid < depth other := by
  have edge : ∀ {child parent}, parent ∈ pool.parents child →
      pool.contains child = true ∧ pool.contains parent = true ∧ depth parent < depth child := by
    intro child parent linked
    obtain ⟨entry, found, spends, inside⟩ := mem_parents.mp linked
    exact ⟨contains_iff.mpr ⟨entry, found⟩, inside, grounded child entry found parent spends⟩
  induction path with
  | single linked => exact edge linked
  | tail _ linked ih => exact ⟨ih.1, (edge linked).2.1, (edge linked).2.2.trans ih.2.2⟩

/-- In every pool that is kept up with the chain, the walks along the child index and the inputs find exactly the entries
that depend on one another. -/
theorem kept_walks_exact (kept : Kept depth view pool) (txid other : Txid) :
    (other ∈ pool.descendants txid ↔ pool.DependsOn other txid) ∧
      (other ∈ pool.ancestors txid ↔ pool.DependsOn txid other) := by
  obtain ⟨-, linked, -, grounded⟩ := kept.sound
  have flipped : (fun parent child => child ∈ pool.children parent) = Function.swap fun child parent =>
      parent ∈ pool.parents child := funext₂ fun _ _ => propext linked.mem_children
  have below := @Grounded.dependsOn pool depth txid other grounded
  have above := @Grounded.dependsOn pool depth other txid grounded
  rw [mem_descendants, mem_ancestors, Reaches, Reaches, flipped, reflTransGen_iff_eq_or_transGen, transGen_swap,
    reflTransGen_iff_eq_or_transGen]
  change (_ ∧ _ ∧ (_ ∨ pool.DependsOn other txid) ↔ _) ∧ (_ ∧ _ ∧ (_ ∨ pool.DependsOn txid other) ↔ _)
  grind

omit [Library] [PolicyLibrary] [HashOrder ℕ] in
theorem kept_walks_exact_sample : let _ := Library.sample
    let _ := PolicyLibrary.sample
    let _ := BlockHash.sampleOrder
    let accept := fun (pool : Mempool) tx => (pool.perform ⟨sampleView [sampleOldCoin 7 0 100000], .accept 0 tx⟩).1
    (accept (accept (samplePool {} 5000) (sampleSpend 1 [⟨7, 0⟩] [50000, 40000]))
      (sampleSpend 2 [⟨1001, 0⟩] [30000, 10000])).DependsOn 1002 1001 := by
  intro _ _ _ accept
  refine (kept_walks_exact (show Kept id _ _ from
    .maintain (.maintain (.new _ {} 5000 false 0) (.accept 0 _) rfl ?_) (.accept 0 _) rfl ?_) 1001 1002).1.mp (by decide +kernel)
  all_goals
    intro other listed
    rw [mem_singleton.mp listed]
    exact genuine_sample (by decide +kernel)

end Mempool

end BitcoindRs
