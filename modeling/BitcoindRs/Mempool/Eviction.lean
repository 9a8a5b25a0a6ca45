import BitcoindRs.Mempool.Offer

/-! What making room costs. -/

namespace BitcoindRs
open Relation Checked Result Worklist
variable [Library] [PolicyLibrary] [HashOrder ℕ]

namespace Mempool
variable {pool after p q : Mempool} {view : ChainView} {now additionalMemory addedAt : ℕ} {tx : Transaction}
variable {guarded : Finset Txid} {error : MempoolError} {options : AcceptOptions}

/-! ### Admission up to the point where room is made -/

def settled (pool : Mempool) : Mempool :=
  { pool with rollingMinFeeSatPerKvb := ⟨0⟩, rollingFeeLastUpdated := 0, blockSinceLastRollingFeeBump := false }

omit [Library] [PolicyLibrary] [HashOrder ℕ] in
theorem settled_contains (same : q.settled = p.settled) (txid : Txid) : q.contains txid = p.contains txid := by
  show q.settled.contains txid = p.settled.contains txid
  rw [same]

def feeRead (pool : Mempool) (now : ℕ) (options : AcceptOptions) : Mempool :=
  if options.enforceFeeRate then pool.decayRollingMinFee now else pool

omit [Library] [HashOrder ℕ] in
theorem settled_feeRead (pool : Mempool) (now : ℕ) (options : AcceptOptions) : (pool.feeRead now options).settled = pool.settled := by
  rw [feeRead]
  split
  · rw [decayRollingMinFee]
    split <;> rfl
  · rfl

def prepared (pool : Mempool) (view : ChainView) (now : ℕ) (tx : Transaction) (options : AcceptOptions) : Option Checked :=
  match pool.checkTransaction view tx options with
  | .error _ => none
  | .ok checked =>
    let pool := pool.feeRead now options
    let floor := if pool.trucMinRelayException tx options then pool.getMinFeeSatPerKvb else pool.minFeeSatPerKvb
    if options.enforceFeeRate = true ∧ feeRateMeets checked.modifiedFeeSat checked.vsize floor = false then none
    else match pool.checkTopology tx checked options with
      | .error _ => none
      | .ok () => some checked

theorem acceptAtWithSequence_stages (pool : Mempool) (view : ChainView) (now : ℕ) (tx : Transaction) (addedAt : ℕ)
    (options : AcceptOptions) : match pool.prepared view now tx options with
    | none => ∃ error q, pool.acceptAtWithSequence view now tx addedAt options = (.error error, q) ∧ q.settled = pool.settled
    | some checked =>
      let decayed := pool.feeRead now options
      let candidate := decayed.candidate view tx addedAt checked
      pool.acceptAtWithSequence view now tx addedAt options = match decayed.makeRoom tx candidate.memoryUsage options with
        | (.error error, roomy) => (.error error, roomy)
        | (.ok (), roomy) => (.ok tx.computeTxid, roomy.insertEntry candidate options.recordSequence) := by
  have settled := settled_feeRead pool now options
  unfold prepared acceptAtWithSequence
  rcases pool.checkTransaction view tx options with error | checked
  · exact ⟨error, pool, rfl, rfl⟩
  · dsimp only
    rw [← feeRead]
    generalize pool.feeRead now options = decayed at settled ⊢
    generalize (if decayed.trucMinRelayException tx options = true then decayed.getMinFeeSatPerKvb
      else decayed.minFeeSatPerKvb) = floor
    by_cases low : options.enforceFeeRate = true ∧ feeRateMeets checked.modifiedFeeSat checked.vsize floor = false
    · rw [if_pos low, if_pos low]
      exact ⟨_, decayed, rfl, settled⟩
    · rw [if_neg low, if_neg low]
      rcases decayed.checkTopology tx checked options with error | ⟨⟩
      · exact ⟨error, decayed, rfl, settled⟩
      · rfl

/-! ### The packages that go -/

/-- The packages that the loop of `ensure_space` evicts, in order. -/
def evictions (additionalMemory : ℕ) (guarded : Finset Txid) : ℕ → Mempool → List Eviction
  | 0, _ => []
  | rounds + 1, pool =>
    if usize (pool.dynamicMemoryUsage + additionalMemory) ≤ pool.maxBytes then []
    else match pool.lowestEvictionPackage guarded with
      | none => []
      | some eviction => eviction :: evictions additionalMemory guarded rounds (pool.evict eviction)

theorem contains_evict_iff (pool : Mempool) (eviction : Eviction) (txid : Txid) :
    (pool.evict eviction).contains txid = true ↔ pool.contains txid = true ∧ txid ∉ eviction.package := by
  rw [evict, contains_removeAll, Bool.and_eq_true, decide_eq_true_iff, HashOrder.mem, and_comm]
  rfl

theorem contains_ensureSpaceLoop (additionalMemory : ℕ) (guarded : Finset Txid) (rounds : ℕ) (pool : Mempool) (txid : Txid) :
    (ensureSpaceLoop additionalMemory guarded rounds pool).2.contains txid = true ↔
      pool.contains txid = true ∧ ∀ eviction ∈ evictions additionalMemory guarded rounds pool, txid ∉ eviction.package := by
  induction rounds generalizing pool with
  | zero => simp [ensureSpaceLoop, evictions]
  | succ rounds ih =>
    rw [ensureSpaceLoop, evictions]
    split
    · simp
    · rcases lowest : pool.lowestEvictionPackage guarded with _ | eviction
      · simp
      · dsimp only
        rw [ih, contains_evict_iff, List.forall_mem_cons, and_assoc]

theorem evictions_inside {rounds : ℕ} {eviction : Eviction}
    (listed : eviction ∈ evictions additionalMemory guarded rounds pool) :
    eviction.txid ∈ eviction.package ∧ ∀ txid ∈ eviction.package, pool.contains txid = true := by
  induction rounds generalizing pool with
  | zero => cases listed
  | succ rounds ih =>
    rw [evictions] at listed
    split at listed
    · cases listed
    · rcases lowest : pool.lowestEvictionPackage guarded with _ | first
      · rw [lowest] at listed
        cases listed
      · rw [lowest] at listed
        rcases List.mem_cons.mp listed with rfl | later
        · have evictable := lowestEvictionPackage_evictable lowest
          rw [evictable.package]
          refine ⟨(mem_evictionPackage evictable.inside).mpr .refl, fun txid member => ?_⟩
          rcases ((mem_evictionPackage evictable.inside).mp member).cases_tail with rfl | ⟨_, -, last⟩
          · exact evictable.inside
          · exact contains_iff_mem.mpr (children_subset last)
        · obtain ⟨own, inside⟩ := ih later
          exact ⟨own, fun txid member => ((contains_evict_iff pool first txid).mp (inside txid member)).1⟩

theorem evictions_disjoint (additionalMemory : ℕ) (guarded : Finset Txid) (rounds : ℕ) (pool : Mempool) :
    (evictions additionalMemory guarded rounds pool).Pairwise fun first second => Disjoint first.package second.package := by
  induction rounds generalizing pool with
  | zero => exact .nil
  | succ rounds ih =>
    rw [evictions]
    split
    · exact .nil
    · rcases pool.lowestEvictionPackage guarded with _ | eviction
      · exact .nil
      · refine .cons (fun later listed => ?_) (ih _)
        rw [Finset.disjoint_right]
        intro txid member
        exact ((contains_evict_iff pool eviction txid).mp ((evictions_inside listed).2 txid member)).2

/-! ### Rejections -/

/-- Whether admission evicts a package before anything else can stop it. -/
def startsEvicting (pool : Mempool) (view : ChainView) (now : ℕ) (tx : Transaction) (options : AcceptOptions) : Bool :=
  match pool.prepared view now tx options with
  | none => false
  | some checked =>
    let pool := pool.feeRead now options
    let memoryUsage := (pool.candidate view tx now checked).memoryUsage
    options.enforceMempoolPolicy ∧ memoryUsage ≤ pool.maxBytes ∧ pool.maxBytes < usize (pool.dynamicMemoryUsage + memoryUsage) ∧
      (pool.lowestEvictionPackage (pool.ancestorsForTransaction tx)).isSome

theorem ensureSpace_idle
    (idle : ¬ (additionalMemory ≤ pool.maxBytes ∧ pool.maxBytes < usize (pool.dynamicMemoryUsage + additionalMemory) ∧
      (pool.lowestEvictionPackage guarded).isSome = true)) : (pool.ensureSpace additionalMemory guarded).2 = pool := by
  rw [ensureSpace]
  split
  · rfl
  · rename_i small
    cases pool.entries.keys.card with
    | zero => rfl
    | succ rounds =>
      rw [ensureSpaceLoop]
      split
      · rfl
      · rename_i full
        rcases lowest : pool.lowestEvictionPackage guarded with _ | eviction
        · rfl
        · exact absurd ⟨not_lt.mp small, not_le.mp full, by rw [lowest]; rfl⟩ idle

theorem ensureSpace_evicts
    (small : additionalMemory ≤ pool.maxBytes) (full : pool.maxBytes < usize (pool.dynamicMemoryUsage + additionalMemory))
    (some_ : (pool.lowestEvictionPackage guarded).isSome = true) :
    ∃ txid, pool.contains txid = true ∧ (pool.ensureSpace additionalMemory guarded).2.contains txid = false := by
  obtain ⟨eviction, lowest⟩ := Option.isSome_iff_exists.mp some_
  have evictable := lowestEvictionPackage_evictable lowest
  refine ⟨eviction.txid, evictable.inside, ?_⟩
  rw [ensureSpace, if_neg (not_lt.mpr small)]
  obtain ⟨rounds, card⟩ : ∃ rounds, pool.entries.keys.card = rounds + 1 :=
    Nat.exists_eq_succ_of_ne_zero (Finset.card_ne_zero_of_mem (contains_iff_mem.mp evictable.inside))
  rw [card, Bool.eq_false_iff, ne_eq, contains_ensureSpaceLoop]
  rintro ⟨-, spared⟩
  refine spared eviction ?_ ?_
  · rw [evictions, if_neg (not_le.mpr full), lowest]
    exact List.mem_cons_self
  · rw [evictable.package, mem_evictionPackage evictable.inside]

theorem acceptAtWithSequence_rejected
    (rejected : pool.acceptAtWithSequence view now tx now options = (.error error, after)) :
    (pool.startsEvicting view now tx options = true → ∃ txid, pool.contains txid = true ∧ after.contains txid = false) ∧
      (pool.startsEvicting view now tx options = false → after.settled = pool.settled) := by
  have stages := acceptAtWithSequence_stages pool view now tx now options
  have settled := settled_feeRead pool now options
  unfold startsEvicting
  rcases ready : pool.prepared view now tx options with _ | checked
  · rw [ready] at stages
    obtain ⟨_, q, outcome, same⟩ := stages
    rw [rejected] at outcome
    cases outcome
    exact ⟨nofun, fun _ => same⟩
  · rw [ready, rejected] at stages
    dsimp only at stages ⊢
    generalize ((pool.feeRead now options).candidate view tx now checked) = candidate at stages ⊢
    generalize pool.feeRead now options = decayed at stages settled ⊢
    have after_eq : after = (decayed.makeRoom tx candidate.memoryUsage options).2 := by
      rcases room : decayed.makeRoom tx candidate.memoryUsage options with ⟨made, roomy⟩
      rw [room] at stages
      cases made with
      | error _ => cases stages; rfl
      | ok _ => cases stages
    rw [after_eq, makeRoom, decide_eq_true_iff, decide_eq_false_iff_not]
    constructor
    · rintro ⟨policy, small, full, some_⟩
      obtain ⟨txid, inside, gone⟩ := ensureSpace_evicts small full some_
      rw [if_pos policy]
      exact ⟨txid, (settled_contains settled txid).symm.trans inside, gone⟩
    · intro idle
      split
      · rename_i policy
        rw [ensureSpace_idle fun busy => idle ⟨policy, busy⟩]
        exact settled
      · exact settled

theorem settled_replaceWithConflicts {conflicts : List Txid} {siblingEviction : Bool}
    (rejected : pool.replaceWithConflicts view now tx addedAt conflicts siblingEviction = (.error error, after)) : after = pool := by
  unfold replaceWithConflicts at rejected
  split at rejected
  · cases rejected
    rfl
  · dsimp only at rejected
    split at rejected
    · split at rejected <;> cases rejected <;> rfl
    · split at rejected <;> cases rejected
      rfl

theorem acceptWithSibling_rejected {allowSiblingEviction : Bool}
    (rejected : pool.acceptWithSibling view now tx allowSiblingEviction = (.error error, after)) :
    ∃ first, pool.acceptAtWithOptions view now tx now true true = (.error first, after) := by
  rw [acceptWithSibling] at rejected
  rcases outcome : pool.acceptAtWithOptions view now tx now true true with ⟨result, tried⟩
  rw [outcome] at rejected
  have kept : ∀ {conflicts siblingEviction},
      tried.replaceWithConflicts view now tx now conflicts siblingEviction = (.error error, after) → tried = after :=
    fun run => (settled_replaceWithConflicts run).symm
  cases result with
  | ok _ => cases rejected
  | error first =>
    refine ⟨first, ?_⟩
    suffices same : tried = after by rw [same]
    split at rejected
    · rename_i same
      cases same
      dsimp only at rejected
      split at rejected
      · split at rejected
        · exact kept rejected
        · exact kept rejected
      · exact kept rejected
    · rename_i same
      cases same
      split at rejected
      · cases rejected
        rfl
      · split at rejected
        · exact kept rejected
        · split at rejected
          · exact kept rejected
          · cases rejected
            rfl
    · cases rejected
      rfl

/-- The ways in which transactions are offered to the pool. -/
inductive Admission
  | single (tx : Transaction) (allowSiblingEviction : Bool)
  | nonstandard (tx : Transaction)
  | package (txs : List Transaction)
  | reorg (tx : Transaction)

def submit (pool : Mempool) (view : ChainView) (now : ℕ) : Admission → Except MempoolError Unit × Mempool
  | .single tx allowSiblingEviction =>
    let (result, after) := pool.acceptWithSibling view now tx allowSiblingEviction
    (result.map fun _ => (), after)
  | .nonstandard tx =>
    let (result, after) := pool.acceptWithStandardPolicyDisabled view now tx
    (result.map fun _ => (), after)
  | .package txs =>
    let (result, after) := pool.acceptPackage view now txs
    (result.map fun _ => (), after)
  | .reorg tx =>
    let (result, after) := pool.acceptReorg view now tx now
    (result.map fun _ => (), after)

/-- Whether an admission evicts packages from the pool itself, and not from a copy, while it can still fail. -/
def evictsInPlace (pool : Mempool) (view : ChainView) (now : ℕ) : Admission → Bool
  | .single tx _ => pool.startsEvicting view now tx ⟨true, true, true, true, true, false, true, true⟩
  | .nonstandard tx => { pool with policy := { pool.policy with requireStandard := false } }.startsEvicting view now tx
      ⟨true, true, true, true, true, false, true, true⟩
  | .package _ => false
  | .reorg tx => pool.startsEvicting view now tx ⟨false, true, false, false, true, false, false, false⟩

omit [Library] [PolicyLibrary] [HashOrder ℕ] in
theorem map_error {α ε : Type} {result : Except ε α} {error : ε} (failed : result.map (fun _ => ()) = .error error) :
    result = .error error := by
  cases result with
  | ok _ => cases failed
  | error _ => cases failed; rfl

omit [Library] [PolicyLibrary] [HashOrder ℕ] in
theorem settled_iff_of_split {evicts : Bool}
    (split : (evicts = true → ∃ txid, p.contains txid = true ∧ q.contains txid = false) ∧ (evicts = false → q.settled = p.settled)) :
    q.settled = p.settled ↔ evicts = false := by
  cases evicts with
  | false => exact ⟨fun _ => rfl, split.2⟩
  | true =>
    obtain ⟨txid, inside, gone⟩ := split.1 rfl
    refine ⟨fun same => ?_, nofun⟩
    rw [settled_contains same, inside] at gone
    cases gone

/-- Two payments, of 598 bytes each in the pool, and a child of the first that takes 631. -/
def sampleFull (maxBytes : ℕ) : Mempool :=
  letI := Library.sample
  letI := PolicyLibrary.sample
  letI := BlockHash.sampleOrder
  let view := sampleView [sampleOldCoin 7 0 100000, sampleOldCoin 8 0 100000]
  (((samplePool {} maxBytes).accept view 0 (sampleSpend 1 [⟨7, 0⟩] [50000, 40000])).2.accept view 0
    (sampleSpend 2 [⟨8, 0⟩] [50000, 40000])).2

def sampleChild : Transaction := sampleSpend 3 [⟨1001, 0⟩] [10000, 10000, 10000]

def evictionsFor (pool : Mempool) (view : ChainView) (now : ℕ) (tx : Transaction) (addedAt : ℕ) (options : AcceptOptions) :
    List Eviction := match pool.prepared view now tx options with
  | none => []
  | some checked =>
    let pool := pool.feeRead now options
    if options.enforceMempoolPolicy then
      evictions (pool.candidate view tx addedAt checked).memoryUsage (pool.ancestorsForTransaction tx) pool.entries.keys.card pool
    else []

theorem evictionsFor_spec (pool : Mempool) (view : ChainView) (now : ℕ) (tx : Transaction) (addedAt : ℕ) (options : AcceptOptions) :
    (∀ eviction ∈ pool.evictionsFor view now tx addedAt options, eviction.txid ∈ eviction.package) ∧
      (pool.evictionsFor view now tx addedAt options).Pairwise fun first second => Disjoint first.package second.package := by
  unfold evictionsFor
  split
  · exact ⟨nofun, .nil⟩
  · dsimp only
    split
    · exact ⟨fun _ listed => (evictions_inside listed).1, evictions_disjoint _ _ _ _⟩
    · exact ⟨nofun, .nil⟩

/-- Whether a package pays a higher rate than a transaction of the pool pays together with its ancestors. -/
def Eviction.outbids (eviction : Eviction) (pool : Mempool) (tx : Transaction) : Bool :=
  let package := insert tx.computeTxid (pool.ancestorsForTransaction tx)
  pool.packageFee package * eviction.vsize < eviction.fee * pool.packageVsize package

theorem displaced_iff
    (accepted : pool.acceptAtWithSequence view now tx addedAt options = (.ok tx.computeTxid, after)) (txid : Txid) :
    pool.contains txid = true ∧ after.contains txid = false ↔
      ∃ eviction ∈ pool.evictionsFor view now tx addedAt options, txid ∈ eviction.package := by
  have fresh : pool.contains tx.computeTxid = false := by
    rcases acceptAtWithSequence_cases accepted with ⟨_, failed, -⟩ | ⟨-, admits⟩
    · cases failed
    · cases admits with
      | enter _ _ passed _ _ =>
        rw [contains, (checkTransaction_ok passed).fresh]
        rfl
  have stages := acceptAtWithSequence_stages pool view now tx addedAt options
  have settled := settled_feeRead pool now options
  unfold evictionsFor
  rcases ready : pool.prepared view now tx options with _ | checked
  · rw [ready] at stages
    obtain ⟨_, q, outcome, -⟩ := stages
    rw [accepted] at outcome
    cases outcome
  · rw [ready, accepted] at stages
    dsimp only at stages ⊢
    rw [← settled_contains settled] at fresh ⊢
    generalize candidate_eq : (pool.feeRead now options).candidate view tx addedAt checked = candidate at stages ⊢
    have entered : candidate.entry.transaction = tx := by rw [← candidate_eq]; rfl
    generalize pool.feeRead now options = decayed at stages fresh ⊢
    rcases room : decayed.makeRoom tx candidate.memoryUsage options with ⟨_ | _, roomy⟩
    · rw [room] at stages
      cases stages
    · rw [room] at stages
      obtain rfl := (Prod.mk.inj stages).2
      rw [← Bool.not_eq_true, contains_insertEntry, entered, not_or]
      rw [makeRoom] at room
      split at room
      · rename_i policy
        rw [ensureSpace] at room
        split at room
        · cases room
        · have kept := contains_ensureSpaceLoop candidate.memoryUsage (decayed.ancestorsForTransaction tx)
            decayed.entries.keys.card decayed txid
          rw [room] at kept
          rw [if_pos policy, kept]
          constructor
          · rintro ⟨inside, -, out⟩
            by_contra spared
            exact out ⟨inside, fun eviction listed member => spared ⟨eviction, listed, member⟩⟩
          · rintro ⟨eviction, listed, member⟩
            have inside := (evictions_inside listed).2 txid member
            refine ⟨inside, fun same => ?_, fun stays => stays.2 eviction listed member⟩
            rw [same, fresh] at inside
            cases inside
      · rename_i policy
        cases room
        rw [if_neg policy]
        constructor
        · rintro ⟨inside, -, out⟩
          exact absurd inside out
        · rintro ⟨_, listed, -⟩
          cases listed

end Mempool

end BitcoindRs
