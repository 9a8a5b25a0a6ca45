import BitcoindRs.Mempool.Removal

/-! What an offer of a transaction does to the pool. -/

namespace BitcoindRs
open Relation Checked Result List
variable [Library] [PolicyLibrary]

namespace Mempool
variable {tx : Transaction} {pool p q r candidate : Mempool} {now addedAt : ℕ} {options : AcceptOptions}
variable {txs : List Transaction} {view : ChainView} {single usePackageFeerate : Bool} {st st' : PackageProgress}

/-- What the input loop has established about the outpoints it has passed. -/
structure Resolved (pool : Mempool) (view : ChainView) (outpoints : List OutPoint) (inputs : ResolvedInputs) : Prop where
  seen : ∀ outpoint, outpoint ∈ inputs.seen ↔ outpoint ∈ outpoints
  distinct : outpoints.Nodup
  unspent : ∀ outpoint ∈ outpoints, pool.spent.lookup outpoint = none
  found : outpoints.mapM (pool.previousEntry view) = .ok inputs.previousEntries
  total : inputs.inputTotal ≤ maxMoney

omit [Library] [PolicyLibrary] in
theorem resolveInput_ok {st st' : ResolvedInputs} {outpoint : OutPoint}
    {passed : List OutPoint} (resolved : Resolved pool view passed st) (run : pool.resolveInput view st outpoint = .ok st') :
    Resolved pool view (passed ++ [outpoint]) st' := by
  unfold resolveInput at run
  obtain ⟨new, run⟩ := guard_ok run
  rcases free : pool.spent.lookup outpoint with _ | conflict
  · rw [free] at run
    obtain ⟨entry, previous, run⟩ := bind_ok run
    obtain ⟨total, -, run⟩ := bind_ok run
    obtain ⟨bounded, run⟩ := guard_ok run
    cases run
    constructor
    · intro other
      rw [Finset.mem_insert, mem_append, mem_singleton, resolved.seen, or_comm]
    · refine nodup_append.mpr ⟨resolved.distinct, nodup_singleton _, ?_⟩
      intro a early b last same
      rw [mem_singleton.mp last] at same
      exact new ((resolved.seen outpoint).mpr (same ▸ early))
    · intro other member
      rcases mem_append.mp member with early | last
      · exact resolved.unspent other early
      · rwa [mem_singleton.mp last]
    · rw [mapM_append]
      exact bind_pass resolved.found (bind_pass (bind_pass previous rfl) rfl)
    · exact not_lt.mp bounded
  · rw [free] at run
    cases run

/-- What a transaction that passes its own checks is known to satisfy. -/
structure Passed (pool : Mempool) (view : ChainView) (tx : Transaction) (checked : Checked) : Prop where
  fresh : pool.entries.lookup tx.computeTxid = none
  notInChain : ∀ outpoint ∈ tx.outpoints, view.utxo.lookup outpoint = none
  distinct : tx.prevouts.Nodup
  unspent : ∀ outpoint ∈ tx.prevouts, pool.spent.lookup outpoint = none
  minable : pool.minable view tx = true
  sigops : ∃ sigopCost ≤ maxStandardTxSigopsCost, checked.adjustedWeight = max tx.weight (satMulU64 sigopCost pool.policy.bytesPerSigop)
  vsize : checked.vsize = satAddU64 checked.adjustedWeight 3 / 4
  modifiedFee : checked.modifiedFeeSat = satI64 (min checked.feeSat (2 ^ 63 - 1) + pool.feeDelta tx.computeTxid)
  outputs : checked.previousOutputs.length = tx.input.length
  paid : checked.feeSat ≤ maxMoney

omit [PolicyLibrary] in
theorem checkShape_ok (run : pool.checkShape view tx options = .ok ()) :
    pool.entries.lookup tx.computeTxid = none ∧ ∀ outpoint ∈ tx.outpoints, view.utxo.lookup outpoint = none := by
  unfold checkShape duplicateError at run
  rcases fresh : pool.entries.lookup tx.computeTxid with _ | existing
  · rw [fresh] at run
    obtain ⟨outside, -⟩ := guard_ok run
    refine ⟨rfl, fun outpoint member => ?_⟩
    by_contra present
    exact outside (any_eq_true.mpr ⟨outpoint, member, Option.isSome_iff_ne_none.mpr present⟩)
  · rw [fresh] at run
    cases run

omit [Library] [PolicyLibrary] in
theorem mapError_ok {α ε ε' : Type} {x : Except ε α} {f : ε → ε'} {a : α} (h : x.mapError f = .ok a) : x = .ok a := by
  cases x with
  | error e => cases h
  | ok b => cases h; rfl

theorem checkTransaction_ok {checked : Checked}
    (run : pool.checkTransaction view tx options = .ok checked) : Passed pool view tx checked := by
  unfold checkTransaction at run
  obtain ⟨⟨⟩, shape, run⟩ := bind_ok run
  obtain ⟨inputs, loop, run⟩ := bind_ok run
  obtain ⟨fresh, notInChain⟩ := checkShape_ok shape
  have resolved : Resolved pool view tx.prevouts inputs :=
    foldlM_invariant (Resolved pool view) (fun _ _ _ _ => resolveInput_ok) loop
      ⟨fun _ => by simp, nodup_nil, fun _ none_ => absurd none_ not_mem_nil, rfl, Nat.zero_le _⟩
  obtain ⟨-, -, run⟩ := bind_ok run
  obtain ⟨⟨⟩, final, run⟩ := bind_ok run
  obtain ⟨total, -, run⟩ := bind_ok run
  obtain ⟨-, run⟩ := guard_ok run
  obtain ⟨few, run⟩ := guard_ok run
  obtain ⟨-, -, run⟩ := bind_ok run
  obtain ⟨-, -, run⟩ := bind_ok run
  obtain ⟨-, run⟩ := guard_ok run
  obtain ⟨-, run⟩ := guard_ok run
  obtain ⟨-, run⟩ := guard_ok run
  obtain ⟨-, -, run⟩ := bind_ok run
  obtain ⟨-, run⟩ := guard_ok run
  cases run
  refine ⟨fresh, notInChain, resolved.distinct, resolved.unspent, ?_, ⟨_, not_lt.mp few, rfl⟩, rfl, rfl, ?_, ?_⟩
  · rw [minable, resolved.found]
    dsimp only
    rw [mapError_ok final]
    rfl
  · rw [length_map, (mapM_ok_iff.mp resolved.found).length_eq.symm, Transaction.prevouts, length_map]
  · exact (Nat.sub_le _ _).trans resolved.total

variable [HashOrder ℕ]

/-- The transaction passes all checks, room is made for it and it enters. -/
inductive Admits (view : ChainView) (tx : Transaction) (options : AcceptOptions) (p : Mempool) : Mempool → Prop
  | enter {decayed roomy : Mempool} {checked : Checked} {addedAt : ℕ} (tuned : Tuned p decayed)
      (priorities : decayed.priorities = p.priorities) (passed : p.checkTransaction view tx options = .ok checked)
      (topology : decayed.checkTopology tx checked options = .ok ())
      (room : decayed.makeRoom tx (decayed.candidate view tx addedAt checked).memoryUsage options = (.ok (), roomy)) :
      Admits view tx options p (roomy.insertEntry (decayed.candidate view tx addedAt checked) options.recordSequence)

theorem withdraws_makeRoom (pool : Mempool) (tx : Transaction) (memoryUsage : ℕ) (options : AcceptOptions) :
    Withdraws pool (pool.makeRoom tx memoryUsage options).2 ∧
      ∀ txid ∈ pool.ancestorsForTransaction tx, (pool.makeRoom tx memoryUsage options).2.contains txid = pool.contains txid := by
  rw [makeRoom]
  split
  · exact withdraws_ensureSpace pool _ _
  · exact ⟨.refl pool, fun _ _ => rfl⟩

omit [Library] [HashOrder ℕ] in
theorem tuned_decayRollingMinFee (pool : Mempool) (now : ℕ) :
    Tuned pool (pool.decayRollingMinFee now) ∧ (pool.decayRollingMinFee now).priorities = pool.priorities := by
  rw [decayRollingMinFee]
  split
  · exact ⟨.refl pool, rfl⟩
  · exact ⟨⟨rfl, rfl, fun _ listed => .inl listed, fun _ => rfl⟩, rfl⟩

theorem acceptAtWithSequence_cases {after : Mempool} {result : Except MempoolError Txid}
    (run : pool.acceptAtWithSequence view now tx addedAt options = (result, after)) :
    (∃ error, result = .error error ∧ Withdraws pool after) ∨
      result = .ok tx.computeTxid ∧ Admits view tx options pool after := by
  unfold acceptAtWithSequence at run
  rcases passed : pool.checkTransaction view tx options with error | checked
  · rw [passed] at run
    cases run
    exact .inl ⟨error, rfl, .refl pool⟩
  · rw [passed] at run
    dsimp only at run
    have tuned : ∀ decayed, decayed = (if options.enforceFeeRate = true then pool.decayRollingMinFee now else pool) →
        Tuned pool decayed ∧ decayed.priorities = pool.priorities := by
      rintro decayed rfl
      split
      · exact tuned_decayRollingMinFee pool now
      · exact ⟨.refl pool, rfl⟩
    generalize decay : (if options.enforceFeeRate = true then pool.decayRollingMinFee now else pool) = decayed at run
    obtain ⟨tuned, priorities⟩ := tuned decayed decay.symm
    generalize (if decayed.trucMinRelayException tx options = true then decayed.getMinFeeSatPerKvb
      else decayed.minFeeSatPerKvb) = floor at run
    split at run
    · cases run
      exact .inl ⟨_, rfl, .tuned tuned⟩
    · rcases topology : decayed.checkTopology tx checked options with error | ⟨⟩
      · rw [topology] at run
        cases run
        exact .inl ⟨error, rfl, .tuned tuned⟩
      · rw [topology] at run
        dsimp only at run
        have out := (withdraws_makeRoom decayed tx (decayed.candidate view tx addedAt checked).memoryUsage options).1
        rcases room : decayed.makeRoom tx (decayed.candidate view tx addedAt checked).memoryUsage options with ⟨made, roomy⟩
        rw [room] at run out
        cases made with
        | error error =>
          cases run
          exact .inl ⟨error, rfl, (Withdraws.tuned tuned).trans out⟩
        | ok _ =>
          cases run
          exact .inr ⟨rfl, .enter tuned priorities passed topology room⟩

/-- The options of everything but restoration, and those of restoration. -/
def Ordinary (options : AcceptOptions) : Prop :=
  options.enforceMempoolPolicy = true ∧ options.enforceTrucPolicy = true ∧ options.recordSequence = true

/-- Ordinary, and the transaction answers for the dust it leaves by itself. -/
def Checking (options : AcceptOptions) : Prop := Ordinary options ∧ options.checkEphemeralSpends = true

def Restoring (options : AcceptOptions) : Prop :=
  options.enforceMempoolPolicy = true ∧ options.recordSequence = true

/-- Entries leave with their dependents; then the transaction enters, unless it is turned down. Where a descendant of its
parent is not counted, that descendant has left. -/
inductive Offer (standing : AcceptOptions → Prop) (view : ChainView) (tx : Transaction) (p : Mempool) : Mempool → Prop
  | declined {q : Mempool} (out : Withdraws p q) : Offer standing view tx p q
  | taken {left entered q : Mempool} {options : AcceptOptions} (out : Withdraws p left) (kind : standing options)
      (admits : Admits view tx options left entered) (tuned : Tuned entered q)
      (replaced : options.allowTrucDescendantReplacement = true → ∃ parent ∈ tx.inputTxids,
        ∃ conflict ∈ p.descendants parent, left.contains conflict = false) : Offer standing view tx p q

/-- Offers one after another. -/
inductive Offers (standing : AcceptOptions → Prop) (view : ChainView) : List Transaction → Mempool → Mempool → Prop
  | done {p q : Mempool} (out : Withdraws p q) : Offers standing view [] p q
  | next {p m q : Mempool} {tx : Transaction} {txs : List Transaction} (offer : Offer standing view tx p m)
      (rest : Offers standing view txs m q) : Offers standing view (tx :: txs) p q

variable {standing : AcceptOptions → Prop} {view : ChainView}

theorem Offer.after (out : Withdraws p q) (offer : Offer standing view tx q r) : Offer standing view tx p r := by
  cases offer with
  | declined rest => exact .declined (out.trans rest)
  | taken rest kind admits tuned replaced =>
    refine .taken (out.trans rest) kind admits tuned fun allowed => ?_
    obtain ⟨parent, spends, conflict, below, gone⟩ := replaced allowed
    exact ⟨parent, spends, conflict, out.leaves.mem_descendants_of below, gone⟩

theorem Offer.tuned (offer : Offer standing view tx p q) (tuned : Tuned q r) : Offer standing view tx p r := by
  cases offer with
  | declined out => exact .declined (out.trans (.tuned tuned))
  | taken out kind admits early replaced => exact .taken out kind admits (early.trans tuned) replaced

theorem Offer.ordinary (offer : Offer Checking view tx p q) : Offer Ordinary view tx p q := by
  cases offer with
  | declined out => exact .declined out
  | taken out kind admits tuned replaced => exact .taken out kind.1 admits tuned replaced

theorem Offers.after (out : Withdraws p q) (offers : Offers standing view txs q r) : Offers standing view txs p r := by
  cases offers with
  | done rest => exact .done (out.trans rest)
  | next offer rest => exact .next (offer.after out) rest

theorem Offers.before (offers : Offers standing view txs p q) (out : Withdraws q r) : Offers standing view txs p r := by
  induction offers with
  | done early => exact .done (early.trans out)
  | next offer _ ih => exact .next offer (ih out)

theorem Offers.maintains {P : Mempool → Prop} (out : ∀ p q, P p → Withdraws p q → P q)
    (offer : ∀ tx ∈ txs, ∀ p q, P p → Offer standing view tx p q → P q) (before : P p) (offers : Offers standing view txs p q) :
    P q := by
  induction offers with
  | done rest => exact out _ _ before rest
  | next first _ ih =>
    obtain ⟨one, rest⟩ := forall_mem_cons.mp offer
    exact ih rest (one _ _ before first)

theorem acceptAtWithSequence_offer
    (kind : standing options) (counted : options.allowTrucDescendantReplacement = false) :
    Offer standing view tx pool (pool.acceptAtWithSequence view now tx addedAt options).2 := by
  rcases acceptAtWithSequence_cases (rfl : pool.acceptAtWithSequence view now tx addedAt options = (_, _)) with
    ⟨_, -, out⟩ | ⟨-, admits⟩
  · exact .declined out
  · exact .taken (.refl pool) kind admits (.refl _) fun allowed => by rw [counted] at allowed; cases allowed

theorem Admits.tuned_relaySequence (admits : Admits view tx options p q) :
    Tuned q { q with relaySequences := q.relaySequences.insert tx.computeTxid 0 } := by
  have listed : (q.relaySequences.lookup tx.computeTxid).isSome = true := by
    cases admits with
    | enter _ _ _ _ _ =>
      rw [insertEntry_eq]
      exact (congrArg Option.isSome (FMap.lookup_insert_ite _ _ _ _)).trans (congrArg Option.isSome (if_pos rfl))
  refine ⟨rfl, rfl, fun _ listed => .inl listed, fun txid => ?_⟩
  show ((q.relaySequences.insert tx.computeTxid 0).lookup txid).isSome = _
  rw [FMap.lookup_insert_ite]
  split
  · rename_i same
    rw [same, listed]
    rfl
  · rfl

theorem acceptReorg_offer (pool : Mempool) (now addedAt : ℕ) (tx : Transaction) :
    Offer Restoring view tx pool (pool.acceptReorg view now tx addedAt).2 := by
  rw [acceptReorg]
  rcases outcome : pool.acceptAtWithSequence view now tx addedAt ⟨false, true, false, false, true, false, false, false⟩
    with ⟨result, after⟩
  rcases acceptAtWithSequence_cases outcome with ⟨_, rfl, out⟩ | ⟨rfl, admits⟩
  · exact .declined out
  · exact .taken (.refl pool) ⟨rfl, rfl⟩ admits admits.tuned_relaySequence nofun

theorem replaceWithConflicts_offer {conflicts : List Txid}
    {siblingEviction : Bool} (direct : ∀ conflict ∈ pool.conflictsFor tx, conflict ∈ conflicts) :
    Offer Checking view tx pool (pool.replaceWithConflicts view now tx addedAt conflicts siblingEviction).2 := by
  unfold replaceWithConflicts
  split
  · exact .declined (.refl pool)
  · dsimp only
    split
    · split <;> exact .declined (.refl pool)
    · rename_i txid candidate admitted
      split
      · exact .declined (.refl pool)
      · rcases acceptAtWithSequence_cases admitted with ⟨_, failed, -⟩ | ⟨-, admits⟩
        · cases failed
        · refine .taken (withdraws_conflicts pool conflicts) ⟨⟨rfl, rfl, rfl⟩, rfl⟩ admits (.refl _) fun allowed => ?_
          obtain ⟨conflict, member, allowed⟩ := any_eq_true.mp allowed
          obtain ⟨parent, spends, allowed⟩ := any_eq_true.mp allowed
          rw [Bool.and_eq_true, decide_eq_true_eq] at allowed
          refine ⟨parent, spends, conflict, allowed.2, ?_⟩
          have removed : conflict ∈ HashOrder.elements (pool.conflictsAndDescendants conflicts) :=
            (HashOrder.mem _ _).mpr (mem_conflictsAndDescendants.mpr ⟨conflict, direct conflict member, .refl⟩)
          rw [contains_removeAll, decide_eq_false (not_not.mpr removed), Bool.false_and]

theorem replace_offer (pool : Mempool) (now addedAt : ℕ) (tx : Transaction) :
    Offer Checking view tx pool (pool.replace view now tx addedAt).2 :=
  replaceWithConflicts_offer fun _ member => member

theorem acceptWithSibling_offer (pool : Mempool) (now : ℕ) (tx : Transaction) (allowSiblingEviction : Bool) :
    Offer Checking view tx pool (pool.acceptWithSibling view now tx allowSiblingEviction).2 := by
  have first : Offer Checking view tx pool (pool.acceptAtWithOptions view now tx now true true).2 :=
    acceptAtWithSequence_offer ⟨⟨rfl, rfl, rfl⟩, rfl⟩ rfl
  rw [acceptWithSibling]
  rcases outcome : pool.acceptAtWithOptions view now tx now true true with ⟨result, after⟩
  rw [outcome] at first
  rcases acceptAtWithSequence_cases outcome with ⟨error, rfl, out⟩ | ⟨rfl, -⟩
  · split
    · rename_i same
      cases same
      dsimp only
      split
      · split
        · exact (replace_offer after now now tx).after out
        · exact (replaceWithConflicts_offer fun _ member => mem_append_left _ member).after out
      · exact (replace_offer after now now tx).after out
    · rename_i same
      cases same
      split
      · exact first
      · split
        · exact (replace_offer after now now tx).after out
        · rename_i unconflicted
          split
          · refine (replaceWithConflicts_offer fun conflict member => ?_).after out
            rw [not_not.mp unconflicted] at member
            exact absurd member not_mem_nil
          · exact first
    · exact first
  · exact first

theorem accept_offer (pool : Mempool) (now : ℕ) (tx : Transaction) : Offer Checking view tx pool (pool.accept view now tx).2 :=
  acceptWithSibling_offer pool now tx true

omit [Library] [PolicyLibrary] [HashOrder ℕ] in
theorem tuned_requireStandard (pool : Mempool) (on : Bool) :
    Tuned pool { pool with policy := { pool.policy with requireStandard := on } } :=
  ⟨rfl, rfl, fun _ listed => .inl listed, fun _ => rfl⟩

theorem acceptWithStandardPolicyDisabled_offer (pool : Mempool) (now : ℕ) (tx : Transaction) :
    Offer Checking view tx pool (pool.acceptWithStandardPolicyDisabled view now tx).2 :=
  ((acceptWithSibling_offer _ now tx true).after (.tuned (tuned_requireStandard pool false))).tuned
    (tuned_requireStandard _ _)

theorem acceptMember_offer (run : acceptMember view now single usePackageFeerate st tx = .ok st') :
    Offer Ordinary view tx st.candidate st'.candidate := by
  unfold acceptMember at run
  split at run
  · cases run
    exact .declined (.refl _)
  · have offer : Offer Ordinary view tx st.candidate
        (if single = true then st.candidate.acceptWithSibling view now tx false
          else st.candidate.acceptAtWithPolicy view now tx now (!usePackageFeerate) (!usePackageFeerate)).2 := by
      split
      · exact (acceptWithSibling_offer _ now tx false).ordinary
      · exact acceptAtWithSequence_offer ⟨rfl, rfl, rfl⟩ rfl
    dsimp only at run
    split at run
    · cases run
    · rename_i txid candidate admitted
      obtain ⟨entry, -, run⟩ := bind_ok run
      cases run
      rwa [admitted] at offer

theorem acceptMembers_offers (run : txs.foldlM (acceptMember view now single usePackageFeerate) st = .ok st') :
    Offers Ordinary view txs st.candidate st'.candidate := by
  induction txs generalizing st with
  | nil =>
    cases run
    exact .done (.refl _)
  | cons tx txs ih =>
    obtain ⟨m, first, rest⟩ := foldlM_cons_ok run
    exact .next (acceptMember_offer first) (ih rest)

theorem removePackageConflicts_withdraws {conflicts : PackageConflicts}
    (run : candidate.removePackageConflicts txs = .ok conflicts) : Withdraws candidate conflicts.candidate := by
  unfold removePackageConflicts at run
  obtain ⟨-, run⟩ := guard_ok run
  obtain ⟨-, run⟩ := guard_ok run
  obtain ⟨-, -, run⟩ := bind_ok run
  split at run
  · cases run
    exact .refl candidate
  · obtain ⟨-, -, run⟩ := bind_ok run
    cases run
    exact withdraws_conflicts candidate _

theorem acceptPackageInnerUnbounded_offers {after : Mempool} {accepted : List Txid}
    (run : pool.acceptPackageInnerUnbounded candidate view now txs = .ok (accepted, after)) :
    Offers Ordinary view txs candidate after ∧ validateEphemeralSpends txs after = .ok () := by
  unfold acceptPackageInnerUnbounded at run
  obtain ⟨-, run⟩ := guard_ok run
  split at run
  · cases run
  · dsimp only at run
    obtain ⟨conflicts, cleared, run⟩ := bind_ok run
    obtain ⟨st, members, run⟩ := bind_ok run
    obtain ⟨-, run⟩ := guard_ok run
    obtain ⟨-, -, run⟩ := bind_ok run
    obtain ⟨-, run⟩ := guard_ok run
    obtain ⟨⟨⟩, swept, run⟩ := bind_ok run
    cases run
    have out : Withdraws candidate conflicts.candidate := by
      unfold clearConflicts at cleared
      split at cleared
      · exact removePackageConflicts_withdraws cleared
      · cases cleared
        exact .refl candidate
    refine ⟨((acceptMembers_offers members).after out).before ?_, mapError_ok swept⟩
    split
    · exact .tuned (tuned_decayRollingMinFee _ now).1
    · exact .refl _

omit [Library] [PolicyLibrary] [HashOrder ℕ] in
theorem tuned_maxBytes (pool : Mempool) (maxBytes : ℕ) : Tuned pool { pool with maxBytes } :=
  ⟨rfl, rfl, fun _ listed => .inl listed, fun _ => rfl⟩

/-- The members are offered one by one, the dust of the whole package is checked, and then the pool may be trimmed. -/
theorem acceptPackage_staged (pool : Mempool) (view : ChainView) (now : ℕ) (txs : List Transaction) :
    (pool.acceptPackage view now txs).2 = pool ∨ ∃ staged, Offers Ordinary view txs pool staged ∧
      validateEphemeralSpends txs staged = .ok () ∧ Withdraws staged (pool.acceptPackage view now txs).2 := by
  rw [acceptPackage]
  rcases inner : pool.acceptPackageInner pool view now txs with error | ⟨accepted, after⟩
  · exact .inl rfl
  · refine .inr ?_
    unfold acceptPackageInner at inner
    split at inner
    · obtain ⟨offers, swept⟩ := acceptPackageInnerUnbounded_offers inner
      exact ⟨after, offers, swept, .refl after⟩
    · obtain ⟨⟨ids, staged⟩, unbounded, inner⟩ := bind_ok inner
      obtain ⟨-, inner⟩ := guard_ok inner
      cases inner
      obtain ⟨offers, swept⟩ := acceptPackageInnerUnbounded_offers unbounded
      exact ⟨staged, offers.after (.tuned (tuned_maxBytes pool _)), swept,
        (Withdraws.tuned (tuned_maxBytes staged _)).trans (withdraws_enforceSizeLimit _)⟩

theorem restore_offers (pool : Mempool) (now : ℕ) (queue : DisconnectedTransactionPool) :
    Offers Restoring view (queue.takeOldestFirst.filter fun tx => tx.isCoinbase = false) pool (restore view now pool queue) := by
  have loop : ∀ (txs : List Transaction) (pool : Mempool),
      Offers Restoring view txs pool (txs.foldl (fun pool tx => (pool.acceptReorg view now tx now).2) pool) := by
    intro txs
    induction txs with
    | nil => exact fun pool => .done (.refl pool)
    | cons tx txs ih => exact fun pool => .next (acceptReorg_offer pool now now tx) (ih _)
  exact loop _ pool

end Mempool

end BitcoindRs
