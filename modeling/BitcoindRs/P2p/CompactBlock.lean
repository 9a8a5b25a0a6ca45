import BitcoindRs.Consensus.Transactions

/-!
Compact blocks: a block announced by short ids of its transactions, some of them sent in full, and put together again from
transactions that the node already has.
-/

namespace BitcoindRs
open Result FMap List

structure PrefilledTransaction where
  idx : ℕ
  tx : Transaction

structure HeaderAndShortIds where
  header : Header
  nonce : ℕ
  shortIds : List ℕ
  prefilledTxs : List PrefilledTransaction

inductive CompactError where
  | unsupportedVersion (version : ℕ)
  | countOverflow
  | invalidCount
  | prefilledIndexOverflow
  | invalidPrefilledIndex
  | shortIdCountInconsistent
  | tooManyShortIds
deriving DecidableEq, Repr

namespace CompactBlock

abbrev Slots := List (Option Transaction) × ℕ

def placePrefilled (count : ℕ) (slots : Slots) (prefilled : PrefilledTransaction) : Except CompactError Slots := do
  let index := slots.2 + prefilled.idx
  bailIf (2 ^ 64 ≤ index) .prefilledIndexOverflow
  bailIf (count ≤ index ∨ slots.1[index]?.join.isSome) .invalidPrefilledIndex
  .ok (slots.1.set index (some prefilled.tx), min (index + 1) (2 ^ 64 - 1))

/-- Two different transactions with one short id rule each other out. -/
def addCompactCandidate (shortId : Transaction → ℕ) (candidates : FMap ℕ (Option Transaction)) (tx : Transaction) :
    FMap ℕ (Option Transaction) :=
  match candidates.lookup (shortId tx) with
  | none => candidates.insert (shortId tx) (some tx)
  | some known => if known = some tx then candidates else candidates.insert (shortId tx) none

/-- The loop over the slots from an index on, with the short ids that are left. -/
def fillSlots (candidates : FMap ℕ (Option Transaction)) : ℕ → List (Option Transaction) → List ℕ →
    Except CompactError (List (Option Transaction) × List ℕ)
  | _, [], [] => .ok ([], [])
  | _, [], _ :: _ => .error .tooManyShortIds
  | index, some tx :: slots, ids => (fillSlots candidates (index + 1) slots ids).map fun filled => (some tx :: filled.1, filled.2)
  | _, none :: _, [] => .error .shortIdCountInconsistent
  | index, none :: slots, id :: ids => (fillSlots candidates (index + 1) slots ids).map fun filled =>
    match candidates.lookup id with
    | some (some candidate) => (some candidate :: filled.1, filled.2)
    | _ => (none :: filled.1, index :: filled.2)

/-- `shortId` is the keyed hash of the witness id, for the keys of a header and a nonce; `known` are the transactions of
the pool and then the extra ones. -/
def reconstructCompactBlock (shortId : Header → ℕ → Transaction → ℕ) (compact : HeaderAndShortIds) (known : List Transaction)
    (version : ℕ) : Except CompactError (List (Option Transaction) × List ℕ) := do
  bailIf (version ≠ 2) (.unsupportedVersion version)
  let transactionCount := compact.shortIds.length + compact.prefilledTxs.length
  bailIf (2 ^ 64 ≤ transactionCount) .countOverflow
  bailIf (transactionCount = 0 ∨ 1000000 < transactionCount) .invalidCount
  let placed ← compact.prefilledTxs.foldlM (placePrefilled transactionCount) (List.replicate transactionCount none, 0)
  let candidates := known.foldl (addCompactCandidate (shortId compact.header compact.nonce)) ∅
  fillSlots candidates 0 placed.1 compact.shortIds

def prefilledIndexes : ℕ → List PrefilledTransaction → List ℕ
  | _, [] => []
  | last, prefilled :: rest => (last + prefilled.idx) :: prefilledIndexes (last + prefilled.idx + 1) rest

theorem placePrefilled_ok {count : ℕ} {slots slots' : Slots} {prefilled : PrefilledTransaction}
    (placed : placePrefilled count slots prefilled = .ok slots') (small : count < 2 ^ 64) :
    slots.2 + prefilled.idx < count ∧ slots' = (slots.1.set (slots.2 + prefilled.idx) (some prefilled.tx), slots.2 + prefilled.idx + 1) := by
  obtain ⟨-, placed⟩ := guard_ok placed
  obtain ⟨inside, placed⟩ := guard_ok placed
  push Not at inside
  refine ⟨inside.1, ?_⟩
  rw [← Except.ok.inj placed, Nat.min_eq_left (by omega)]

/-- In every message that gets past the prefilled transactions, they go to distinct slots of the block, and stay. -/
theorem prefilled_placed {count : ℕ} {prefilled : List PrefilledTransaction} {slots slots' : Slots} (small : count < 2 ^ 64)
    (length : slots.1.length = count) (placed : prefilled.foldlM (placePrefilled count) slots = .ok slots') :
    (∀ index < slots.2, slots'.1[index]? = slots.1[index]?) ∧ (prefilledIndexes slots.2 prefilled).Pairwise (· < ·) ∧
      (∀ index ∈ prefilledIndexes slots.2 prefilled, slots.2 ≤ index ∧ index < count) ∧
      List.Forall₂ (fun index (sent : PrefilledTransaction) => slots'.1[index]? = some (some sent.tx))
        (prefilledIndexes slots.2 prefilled) prefilled := by
  induction prefilled generalizing slots with
  | nil =>
    cases placed
    exact ⟨fun _ _ => rfl, .nil, by simp [prefilledIndexes], .nil⟩
  | cons first rest ih =>
    rw [foldlM_cons] at placed
    obtain ⟨next, one, more⟩ := bind_ok placed
    obtain ⟨inside, rfl⟩ := placePrefilled_ok one small
    obtain ⟨kept, increasing, within, filled⟩ := ih (by simpa using length) more
    dsimp only at kept increasing within filled
    rw [prefilledIndexes]
    refine ⟨?_, ?_, ?_, .cons ?_ filled⟩
    · intro index low
      rw [kept index (by omega), getElem?_set_ne (by omega)]
    · refine pairwise_cons.mpr ⟨fun index later => ?_, increasing⟩
      have := (within index later).1
      omega
    · intro index member
      rcases mem_cons.mp member with rfl | later
      · omega
      · have := within index later
        omega
    · rw [kept _ (by omega), getElem?_set_self (by omega)]

section candidates
variable {shortId : Transaction → ℕ} {known : List Transaction} {id : ℕ}

def candidates (shortId : Transaction → ℕ) (known : List Transaction) : FMap ℕ (Option Transaction) :=
  known.foldl (addCompactCandidate shortId) ∅

def verdict : List Transaction → Option (Option Transaction)
  | [] => none
  | tx :: rest => some (if rest.all (· = tx) then some tx else none)

theorem lookup_candidates : (candidates shortId known).lookup id = verdict (known.filter (shortId · = id)) := by
  induction known using List.reverseRecOn with
  | nil => rfl
  | append_singleton known last ih =>
    have one : candidates shortId (known ++ [last]) = addCompactCandidate shortId (candidates shortId known) last := by
      simp [candidates]
    rw [one, addCompactCandidate, filter_append]
    by_cases own : shortId last = id
    · subst own
      rcases shared : known.filter (shortId · = shortId last) with _ | ⟨first, rest⟩
      · rw [shared] at ih
        simp [ih, verdict]
      · rw [shared] at ih
        by_cases same : last = first
        · subst same
          cases agree : rest.all (· = last) <;> simp [ih, verdict, agree]
        · cases agree : rest.all (· = first) <;> simp [ih, verdict, agree, same, Ne.symm same]
    · rw [filter_cons_of_neg (by simpa using own), filter_nil, append_nil, ← ih]
      split
      · rw [lookup_insert_ite, if_neg (Ne.symm own)]
      · split
        · rfl
        · rw [lookup_insert_ite, if_neg (Ne.symm own)]

/-- A short id stands for a transaction when it is the only known one with it. -/
theorem lookup_candidates_some {tx : Transaction} : (candidates shortId known).lookup id = some (some tx) ↔
    tx ∈ known ∧ shortId tx = id ∧ ∀ other ∈ known, shortId other = id → other = tx := by
  have alone : ∀ l, verdict l = some (some tx) ↔ tx ∈ l ∧ ∀ other ∈ l, other = tx := by
    rintro (_ | ⟨first, rest⟩)
    · simp [verdict]
    · simp only [verdict, Option.some.injEq, Option.ite_none_right_eq_some, all_eq_true, decide_eq_true_eq,
        forall_mem_cons]
      constructor
      · rintro ⟨agree, rfl⟩
        exact ⟨mem_cons_self, rfl, agree⟩
      · rintro ⟨-, rfl, agree⟩
        exact ⟨agree, rfl⟩
  rw [lookup_candidates, alone]
  simp [mem_filter, and_assoc]

end candidates

section honest
variable (shortId : Transaction → ℕ) (chosen : ℕ → Bool)

/-- The short ids and the transactions sent in full, for those from `index` on; `last` follows the last one sent. -/
def announce : ℕ → ℕ → List Transaction → List ℕ × List PrefilledTransaction
  | _, _, [] => ([], [])
  | index, last, tx :: rest =>
    if chosen index then ((announce (index + 1) (index + 1) rest).1, ⟨index - last, tx⟩ :: (announce (index + 1) (index + 1) rest).2)
    else (shortId tx :: (announce (index + 1) last rest).1, (announce (index + 1) last rest).2)

theorem announce_length (index last : ℕ) (txs : List Transaction) :
    (announce shortId chosen index last txs).1.length + (announce shortId chosen index last txs).2.length = txs.length := by
  induction txs generalizing index last with
  | nil => rfl
  | cons tx txs ih =>
    rw [announce]
    split
    · have := ih (index + 1) (index + 1)
      simp only [length_cons]
      omega
    · have := ih (index + 1) last
      simp only [length_cons]
      omega

theorem place_announced {count : ℕ} (small : count < 2 ^ 64) (txs : List Transaction) (placed : List (Option Transaction))
    (last : ℕ) (low : last ≤ placed.length) (total : placed.length + txs.length = count) :
    ∃ last', (announce shortId chosen placed.length last txs).2.foldlM (placePrefilled count)
        (placed ++ List.replicate txs.length none, last) =
      .ok (placed ++ (txs.zipIdx placed.length).map fun p => if chosen p.2 then some p.1 else none, last') := by
  induction txs generalizing placed last with
  | nil => exact ⟨last, rfl⟩
  | cons tx txs ih =>
    have shape : ∀ slot, placed ++ slot :: List.replicate txs.length none = placed ++ [slot] ++ List.replicate txs.length none :=
      fun slot => by simp
    have size : ∀ slot : Option Transaction, (placed ++ [slot]).length = placed.length + 1 := fun slot => by simp
    rw [length_cons] at total
    rw [announce, length_cons, replicate_succ, zipIdx_cons, map_cons]
    split
    · rename_i sent
      obtain ⟨last', more⟩ := ih (placed ++ [some tx]) (placed.length + 1) (by simp) (by simp; omega)
      refine ⟨last', ?_⟩
      have step : placePrefilled count (placed ++ none :: List.replicate txs.length none, last) ⟨placed.length - last, tx⟩ =
          .ok (placed ++ [some tx] ++ List.replicate txs.length none, placed.length + 1) := by
        unfold placePrefilled
        dsimp only
        rw [Nat.add_sub_cancel' low, set_append_right _ _ (Nat.le_refl _), Nat.sub_self, set_cons_zero, shape (some tx),
          Nat.min_eq_left (by omega)]
        refine guard_pass (by omega) (guard_pass ?_ rfl)
        simp
        omega
      rw [foldlM_cons, step]
      rw [size] at more
      simpa [append_assoc] using more
    · obtain ⟨last', more⟩ := ih (placed ++ [none]) last (by simp; omega) (by simp; omega)
      refine ⟨last', ?_⟩
      rw [shape]
      rw [size] at more
      simpa [append_assoc] using more

theorem fill_announced (candidates : FMap ℕ (Option Transaction)) (index last : ℕ) (txs : List Transaction) :
    fillSlots candidates index ((txs.zipIdx index).map fun p => if chosen p.2 then some p.1 else none)
        (announce shortId chosen index last txs).1 =
      .ok ((txs.zipIdx index).map fun p => if chosen p.2 then some p.1 else (candidates.lookup (shortId p.1)).join,
        ((txs.zipIdx index).filter fun p => !chosen p.2 && (candidates.lookup (shortId p.1)).join.isNone).map Prod.snd) := by
  induction txs generalizing index last with
  | nil => rfl
  | cons tx txs ih =>
    rw [announce, zipIdx_cons, map_cons, map_cons]
    cases sent : chosen index with
    | true => simp [fillSlots, ih, Except.map, sent]
    | false =>
      simp only [Bool.false_eq_true, if_false, fillSlots, ih, Except.map]
      rcases found : candidates.lookup (shortId tx) with _ | _ | candidate <;> simp [sent, found]

end honest

def compactBlock (shortId : Header → ℕ → Transaction → ℕ) (chosen : ℕ → Bool) (block : Block) (nonce : ℕ) : HeaderAndShortIds :=
  ⟨block.header, nonce, (announce (shortId block.header nonce) chosen 0 0 block.txdata).1,
    (announce (shortId block.header nonce) chosen 0 0 block.txdata).2⟩

def fillMissing (own : List Transaction) (slots : List (Option Transaction)) (missing : List ℕ) : List (Option Transaction) :=
  slots.zipIdx.map fun slot => if slot.2 ∈ missing then own[slot.2]? else slot.1

/-- The comparison of the header's hash with itself that follows never fails. -/
def completeCompactBlock (compact : HeaderAndShortIds) (slots : List (Option Transaction)) : Option Block :=
  (slots.mapM id).map fun txdata => ⟨compact.header, txdata⟩

/-- The transaction that a slot ends up with once the block's own transactions have been asked for. -/
def completed (candidates : FMap ℕ (Option Transaction)) (shortId : Transaction → ℕ) (chosen : ℕ → Bool) (p : Transaction × ℕ) :
    Transaction :=
  if chosen p.2 then p.1 else (candidates.lookup (shortId p.1)).join.getD p.1

theorem fillMissing_eq (candidates : FMap ℕ (Option Transaction)) (shortId : Transaction → ℕ) (chosen : ℕ → Bool)
    (txs : List Transaction) :
    fillMissing txs (txs.zipIdx.map fun p => if chosen p.2 then some p.1 else (candidates.lookup (shortId p.1)).join)
        ((txs.zipIdx.filter fun p => !chosen p.2 && (candidates.lookup (shortId p.1)).join.isNone).map Prod.snd) =
      (txs.zipIdx.map (completed candidates shortId chosen)).map some := by
  apply ext_getElem?
  intro i
  simp only [fillMissing, getElem?_map, getElem?_zipIdx, Option.map_map]
  rcases found : txs[i]? with _ | tx
  · rfl
  · have absent : i ∈ (txs.zipIdx.filter fun p => !chosen p.2 && (candidates.lookup (shortId p.1)).join.isNone).map Prod.snd ↔
        chosen i = false ∧ (candidates.lookup (shortId tx)).join = none := by
      simp only [mem_map, mem_filter, mem_zipIdx_iff_getElem?, Bool.and_eq_true, Bool.not_eq_true',
        Option.isNone_iff_eq_none]
      constructor
      · rintro ⟨⟨other, j⟩, ⟨stored, free⟩, rfl⟩
        rw [found] at stored
        cases stored
        exact free
      · intro free
        exact ⟨(tx, i), ⟨found, free⟩, rfl⟩
    simp only [Option.map_some, Function.comp_apply, Nat.zero_add, absent, completed, found]
    cases chosen i with
    | true => simp
    | false => rcases (candidates.lookup (shortId tx)).join with _ | candidate <;> simp

theorem mapM_id_some (txs : List Transaction) : (txs.map some).mapM id = some txs := by
  induction txs with
  | nil => rfl
  | cons tx txs ih => simp [mapM_cons, ih]

theorem reconstruct_announced (shortId : Header → ℕ → Transaction → ℕ) (chosen : ℕ → Bool) (block : Block) (nonce : ℕ)
    (known : List Transaction) (some_ : 0 < block.txdata.length) (few : block.txdata.length ≤ 1000000) :
    reconstructCompactBlock shortId (compactBlock shortId chosen block nonce) known 2 =
      .ok (block.txdata.zipIdx.map fun p => if chosen p.2 then some p.1
          else ((candidates (shortId block.header nonce) known).lookup (shortId block.header nonce p.1)).join,
        (block.txdata.zipIdx.filter fun p => !chosen p.2 &&
          ((candidates (shortId block.header nonce) known).lookup (shortId block.header nonce p.1)).join.isNone).map Prod.snd) := by
  have count := announce_length (shortId block.header nonce) chosen 0 0 block.txdata
  obtain ⟨last, placed⟩ := place_announced (shortId block.header nonce) chosen (show block.txdata.length < 2 ^ 64 by omega)
    block.txdata [] 0 (Nat.le_refl 0) (by simp)
  unfold reconstructCompactBlock compactBlock
  dsimp only
  rw [count]
  refine guard_pass (by simp) (guard_pass (by omega) (guard_pass (by omega) (bind_pass placed ?_)))
  exact fill_announced (shortId block.header nonce) chosen _ 0 0 block.txdata

theorem fillSlots_keeps {candidates : FMap ℕ (Option Transaction)} {index : ℕ} {slots filled : List (Option Transaction)}
    {ids missing : List ℕ} (done : fillSlots candidates index slots ids = .ok (filled, missing)) :
    ∀ (i : ℕ) (tx : Transaction), slots[i]? = some (some tx) → filled[i]? = some (some tx) := by
  induction slots generalizing index ids filled missing with
  | nil => simp
  | cons slot slots ih =>
    intro i tx stored
    rcases slot with _ | first
    · rcases ids with _ | ⟨id, ids⟩
      · cases done
      · rw [fillSlots] at done
        rcases rest : fillSlots candidates (index + 1) slots ids with _ | ⟨filled', missing'⟩
        · rw [rest] at done
          cases done
        · rw [rest] at done
          rcases i with _ | i
          · cases stored
          · have kept := ih rest i tx stored
            simp only [Except.map, Except.ok.injEq] at done
            split at done <;> cases done <;> exact kept
    · rw [fillSlots] at done
      rcases rest : fillSlots candidates (index + 1) slots ids with _ | ⟨filled', missing'⟩
      · rw [rest] at done
        cases done
      · rw [rest] at done
        cases done
        rcases i with _ | i
        · exact stored
        · exact ih rest i tx stored

/-- For every block, choice of transactions to send in full and known transactions of which none outside the block has the
short id of one inside: the block comes out, once the missing transactions are filled in, exactly when no slot has a known
transaction of the block other than its own as the only known one with its short id. For every message whatever, the
prefilled transactions are in distinct slots of the block. -/
theorem compact_block_exact_iff (shortId : Header → ℕ → Transaction → ℕ) (known : List Transaction) :
    (∀ (chosen : ℕ → Bool) (block : Block) (nonce : ℕ), 0 < block.txdata.length → block.txdata.length ≤ 1000000 →
      (∀ tx ∈ known, ∀ own ∈ block.txdata, shortId block.header nonce tx = shortId block.header nonce own → tx ∈ block.txdata) →
      ∃ filled missing, reconstructCompactBlock shortId (compactBlock shortId chosen block nonce) known 2 = .ok (filled, missing) ∧
        (completeCompactBlock (compactBlock shortId chosen block nonce) (fillMissing block.txdata filled missing) = some block ↔
          ∀ i own, block.txdata[i]? = some own → chosen i = false → ∀ other ∈ block.txdata, other ∈ known →
            shortId block.header nonce other = shortId block.header nonce own →
            (∀ tx ∈ known, shortId block.header nonce tx = shortId block.header nonce own → tx = other) → other = own)) ∧
    ∀ (compact : HeaderAndShortIds) (version : ℕ) (filled : List (Option Transaction)) (missing : List ℕ),
      reconstructCompactBlock shortId compact known version = .ok (filled, missing) →
      (prefilledIndexes 0 compact.prefilledTxs).Pairwise (· < ·) ∧
      (∀ index ∈ prefilledIndexes 0 compact.prefilledTxs, index < compact.shortIds.length + compact.prefilledTxs.length) ∧
      List.Forall₂ (fun index (sent : PrefilledTransaction) => filled[index]? = some (some sent.tx))
        (prefilledIndexes 0 compact.prefilledTxs) compact.prefilledTxs := by
  constructor
  · intro chosen block nonce some_ few foreign
    refine ⟨_, _, reconstruct_announced shortId chosen block nonce known some_ few, ?_⟩
    rw [fillMissing_eq, completeCompactBlock, mapM_id_some, Option.map_some, Option.some.injEq]
    have shape : (⟨block.header, block.txdata.zipIdx.map (completed (candidates (shortId block.header nonce) known)
          (shortId block.header nonce) chosen)⟩ : Block) = block ↔
        ∀ i own, block.txdata[i]? = some own → completed (candidates (shortId block.header nonce) known)
          (shortId block.header nonce) chosen (own, i) = own := by
      constructor
      · intro same i own stored
        have here := congrArg (fun b : Block => b.txdata[i]?) same
        simpa [stored] using here
      · intro same
        have all : block.txdata.zipIdx.map (completed (candidates (shortId block.header nonce) known)
            (shortId block.header nonce) chosen) = block.txdata := by
          apply ext_getElem?
          intro i
          rcases stored : block.txdata[i]? with _ | own
          · simp [stored]
          · simp [stored, same i own stored]
        rw [all]
    refine shape.trans (forall₃_congr fun i own stored => ?_)
    rw [completed]
    cases sent : chosen i with
    | true => simp
    | false =>
      simp only [Bool.false_eq_true, if_false, true_imp_iff]
      constructor
      · intro kept other _ member same unique
        rw [lookup_candidates_some.mpr ⟨member, same, unique⟩] at kept
        exact kept
      · intro alone
        rcases found : (candidates (shortId block.header nonce) known).lookup (shortId block.header nonce own) with _ | _ | other
        · rfl
        · rfl
        · obtain ⟨member, same, unique⟩ := lookup_candidates_some.mp found
          exact alone other (foreign other member own (mem_of_getElem? stored) same) member same unique
  · intro compact version filled missing done
    obtain ⟨-, done⟩ := guard_ok done
    obtain ⟨fits, done⟩ := guard_ok done
    obtain ⟨-, done⟩ := guard_ok done
    obtain ⟨placed, prefilled, done⟩ := bind_ok done
    obtain ⟨-, increasing, within, stored⟩ := prefilled_placed (by omega) (by simp) prefilled
    exact ⟨increasing, fun index member => (within index member).2,
      stored.imp fun index sent there => fillSlots_keeps done index sent.tx there⟩

def sampleTwins : Block := ⟨⟨1, 0, 0, 0, 0, 0⟩, [sampleSpend 1 [⟨7, 0⟩] [1], sampleSpend 2 [⟨8, 0⟩] [1]]⟩

/-- The one that is known takes both slots, and nothing is asked for. -/
theorem compact_block_twin_misplaced : (∀ tx ∈ [sampleSpend 1 [⟨7, 0⟩] [1]], tx ∈ sampleTwins.txdata) ∧
      reconstructCompactBlock (fun _ _ _ => 0) (compactBlock (fun _ _ _ => 0) (fun _ => false) sampleTwins 0)
        [sampleSpend 1 [⟨7, 0⟩] [1]] 2 = .ok ([some (sampleSpend 1 [⟨7, 0⟩] [1]), some (sampleSpend 1 [⟨7, 0⟩] [1])], []) ∧
      completeCompactBlock (compactBlock (fun _ _ _ => 0) (fun _ => false) sampleTwins 0) (fillMissing sampleTwins.txdata
        [some (sampleSpend 1 [⟨7, 0⟩] [1]), some (sampleSpend 1 [⟨7, 0⟩] [1])] []) ≠ some sampleTwins := by
  refine ⟨by decide, ?_, by decide⟩
  decide +kernel

end CompactBlock

end BitcoindRs
