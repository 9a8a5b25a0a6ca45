import BitcoindRs.Consensus.Multisig
import BitcoindRs.Consensus.Script

/-! The filters of light peers, and that a filtered block leaves out no transaction that spends a matched output. -/

namespace BitcoindRs
open Codec List

def rotateLeft32 (word : UInt32) (k : UInt32) : UInt32 := word <<< k ||| word >>> (32 - k)

def murmurMix (bytes : Bytes) : UInt32 := rotateLeft32 (UInt32.ofNat (leNat bytes) * 0xcc9e2d51) 15 * 0x1b873593

/-- The rounds over whole words, with the bytes behind them. -/
def murmurWords : UInt32 → Bytes → UInt32 × Bytes
  | hash, a :: b :: c :: d :: rest => murmurWords (rotateLeft32 (hash ^^^ murmurMix [a, b, c, d]) 13 * 5 + 0xe6546b64) rest
  | hash, tail => (hash, tail)

def murmurHash3 (seed : UInt32) (data : Bytes) : UInt32 :=
  let (hash, tail) := murmurWords seed data
  let hash := if tail = [] then hash else hash ^^^ murmurMix tail
  let hash := hash ^^^ UInt32.ofNat data.length
  let hash := (hash ^^^ hash >>> 16) * 0x85ebca6b
  let hash := (hash ^^^ hash >>> 13) * 0xc2b2ae35
  hash ^^^ hash >>> 16

inductive BloomFlags where
  | none
  | all
  | pubkeyOnly
deriving DecidableEq, Repr

structure BloomFilter where
  data : Bytes
  hashFuncs : ℕ
  tweak : UInt32
  flags : BloomFlags
deriving DecidableEq, Repr

def setBit (data : Bytes) (bit : ℕ) : Bytes := data.modify (bit / 8) (· ||| 1 <<< UInt8.ofNat (bit % 8))

def testBit (data : Bytes) (bit : ℕ) : Bool := data.getD (bit / 8) 0 &&& 1 <<< UInt8.ofNat (bit % 8) != 0

def OutPoint.serialize (outpoint : OutPoint) : Bytes := leBytes 32 outpoint.txid ++ leBytes 4 outpoint.vout

def isCoreP2pk (script : Script) : Bool :=
  let paysTo (keyLen : ℕ) := script.getLast? = some 0xac && isCorePubkeySize ((script.drop 1).take keyLen)
  match script.length, script.head? with
  | 35, some 0x21 => paysTo 33
  | 67, some 0x41 => paysTo 65
  | _, _ => false

namespace BloomFilter

/-- The positions of the bits of a value. -/
def bits (filter : BloomFilter) (value : Bytes) : List ℕ :=
  let bitCount := min (filter.data.length * 8) (2 ^ 64 - 1)
  (List.range filter.hashFuncs).map fun index =>
    (murmurHash3 (UInt32.ofNat index * 0xfba4c795 + filter.tweak) value).toNat % bitCount

def insert (filter : BloomFilter) (value : Bytes) : BloomFilter :=
  if filter.data = [] then filter else { filter with data := (filter.bits value).foldl setBit filter.data }

def contains (filter : BloomFilter) (value : Bytes) : Bool :=
  filter.data = [] || (filter.bits value).all (testBit filter.data)

def containsScriptData (filter : BloomFilter) (script : Script) : Bool :=
  (script.instructions.takeWhile (·.isSome)).any fun
    | some (.pushBytes data) => data != [] && filter.contains data
    | _ => false

def shouldUpdate (filter : BloomFilter) (script : Script) : Bool := match filter.flags with
  | .all => true
  | .pubkeyOnly => isCoreP2pk script || (coreMultisigSolution script).isSome
  | .none => false

/-- One round of the loop over the outputs. -/
def scanOutput (txid : Txid) (state : BloomFilter × Bool) (output : TxOut × ℕ) : BloomFilter × Bool :=
  let (filter, _) := state
  if filter.containsScriptData output.1.scriptPubkey then
    (if filter.shouldUpdate output.1.scriptPubkey then filter.insert (OutPoint.serialize ⟨txid, output.2 % 2 ^ 32⟩) else filter, true)
  else state

def scanOutputs (filter : BloomFilter) (txid : Txid) (outputs : List TxOut) : BloomFilter × Bool :=
  outputs.zipIdx.foldl (scanOutput txid) (filter, filter.contains (leBytes 32 txid))

variable [Library]

def isRelevantAndUpdate (filter : BloomFilter) (tx : Transaction) : BloomFilter × Bool :=
  if filter.data = [] then (filter, true)
  else
    let (filter, matched) := filter.scanOutputs tx.computeTxid tx.output
    (filter, matched || tx.input.any fun input =>
      filter.contains input.previousOutput.serialize || filter.containsScriptData input.scriptSig)

def matchTransaction (state : BloomFilter × List Txid) (tx : Transaction) : BloomFilter × List Txid :=
  let (filter, relevant) := state.1.isRelevantAndUpdate tx
  (filter, if relevant then state.2 ++ [tx.computeTxid] else state.2)

def matchedTransactionIds (filter : BloomFilter) (block : Block) : BloomFilter × List Txid :=
  block.txdata.foldl matchTransaction (filter, [])

end BloomFilter

theorem testBit_eq (data : Bytes) (b : ℕ) : testBit data b = (data.getD (b / 8) 0).toNat.testBit (b % 8) := by
  have bytes : ∀ byte : UInt8, ∀ k < 8, (byte &&& 1 <<< UInt8.ofNat k != 0) = byte.toNat.testBit k := forall_byte (by decide +kernel)
  exact bytes _ _ (Nat.mod_lt b (by decide))

theorem testBit_setBit {data : Bytes} {bit b : ℕ} :
    testBit (setBit data bit) b = true ↔ testBit data b = true ∨ b = bit ∧ b / 8 < data.length := by
  have masks : ∀ k < 8, ∀ j < 8, ((1 : UInt8) <<< UInt8.ofNat k).toNat.testBit j = decide (k = j) := by decide +kernel
  rw [testBit_eq, testBit_eq, setBit, getD_eq_getElem?_getD, getD_eq_getElem?_getD, getElem?_modify]
  rcases found : data[b / 8]? with _ | byte
  · have outside := getElem?_eq_none_iff.mp found
    simp [Nat.not_lt.mpr outside]
  · obtain ⟨inside, -⟩ := List.getElem?_eq_some_iff.mp found
    have position : b = bit ↔ bit / 8 = b / 8 ∧ bit % 8 = b % 8 := by omega
    simp only [Option.map_eq_map, Option.map_some, Option.getD_some, inside, and_true, position]
    split <;> rename_i same
    · rw [UInt8.toNat_or, Nat.testBit_or, masks _ (Nat.mod_lt bit (by decide)) _ (Nat.mod_lt b (by decide))]
      simp [same]
    · simp [same]

theorem testBit_foldl {bits : List ℕ} {data : Bytes} {b : ℕ} :
    testBit (bits.foldl setBit data) b = true ↔ testBit data b = true ∨ b ∈ bits ∧ b / 8 < data.length := by
  induction bits generalizing data with
  | nil => simp
  | cons bit bits ih =>
    rw [foldl_cons, ih, testBit_setBit, setBit, length_modify, mem_cons, or_assoc, or_and_right]

namespace BloomFilter
variable {filter before after : BloomFilter} {value : Bytes}

theorem bits_inside (some_ : filter.data ≠ []) : ∀ b ∈ filter.bits value, b / 8 < filter.data.length := by
  intro b member
  obtain ⟨index, -, rfl⟩ := mem_map.mp member
  have positive := length_pos_iff.mpr some_
  have small := Nat.mod_lt (murmurHash3 (UInt32.ofNat index * 0xfba4c795 + filter.tweak) value).toNat
    (show 0 < min (filter.data.length * 8) (2 ^ 64 - 1) by omega)
  omega

/-- The second filter has every bit of the first. -/
structure Grows (before after : BloomFilter) : Prop where
  length : after.data.length = before.data.length
  bits : after.bits = before.bits
  flags : after.flags = before.flags
  kept : ∀ b, testBit before.data b = true → testBit after.data b = true

theorem Grows.refl (filter : BloomFilter) : Grows filter filter := ⟨rfl, rfl, rfl, fun _ known => known⟩

theorem Grows.trans {last : BloomFilter} (first : Grows before after) (second : Grows after last) : Grows before last :=
  ⟨second.length.trans first.length, second.bits.trans first.bits, second.flags.trans first.flags,
    fun b known => second.kept b (first.kept b known)⟩

theorem Grows.contains (grows : Grows before after) (known : before.contains value = true) : after.contains value = true := by
  simp only [BloomFilter.contains, Bool.or_eq_true, decide_eq_true_eq, all_eq_true, grows.bits] at known ⊢
  refine known.imp ?_ fun all b member => grows.kept b (all b member)
  rw [← length_eq_zero_iff, ← length_eq_zero_iff, grows.length]
  exact id

theorem grows_insert (filter : BloomFilter) (value : Bytes) : Grows filter (filter.insert value) := by
  have length : ∀ bits data, (foldl setBit data bits).length = data.length := by
    intro bits
    induction bits with
    | nil => exact fun _ => rfl
    | cons bit bits ih => exact fun data => (ih _).trans (length_modify ..)
  unfold insert
  split
  · exact .refl filter
  · refine ⟨length _ _, ?_, rfl, fun b known => testBit_foldl.mpr (.inl known)⟩
    funext other
    simp only [BloomFilter.bits, length]

theorem contains_insert (filter : BloomFilter) (value : Bytes) : (filter.insert value).contains value = true := by
  have grows := grows_insert filter value
  by_cases empty : filter.data = []
  · simp [insert, BloomFilter.contains, empty]
  · rw [BloomFilter.contains, grows.bits, Bool.or_eq_true, all_eq_true]
    refine .inr fun b member => ?_
    rw [insert, if_neg empty]
    exact testBit_foldl.mpr (.inr ⟨member, bits_inside empty b member⟩)

theorem grows_foldl {α σ : Type} {step : σ → α → σ} (view : σ → BloomFilter) (grows : ∀ s a, Grows (view s) (view (step s a)))
    (xs : List α) (s : σ) : Grows (view s) (view (xs.foldl step s)) := by
  induction xs generalizing s with
  | nil => exact .refl _
  | cons a xs ih => exact (grows s a).trans (ih _)

variable {txid : Txid} {state : BloomFilter × Bool} {output : TxOut} {index : ℕ}

theorem grows_scanOutput (state : BloomFilter × Bool) (output : TxOut × ℕ) : Grows state.1 (scanOutput txid state output).1 := by
  unfold scanOutput
  dsimp only
  split
  · split
    · exact grows_insert ..
    · exact .refl _
  · exact .refl _

theorem grows_scanOutputs (filter : BloomFilter) (txid : Txid) (outputs : List TxOut) : Grows filter (filter.scanOutputs txid outputs).1 :=
  grows_foldl Prod.fst grows_scanOutput outputs.zipIdx (filter, _)

theorem contains_scanOutput (found : state.1.containsScriptData output.scriptPubkey = true)
    (update : state.1.shouldUpdate output.scriptPubkey = true) :
    (scanOutput txid state (output, index)).1.contains (OutPoint.serialize ⟨txid, index⟩) = true := by
  have bytes : ∀ m n : ℕ, m % 256 = n % 256 → UInt8.ofNat m = UInt8.ofNat n := fun m n same => by
    rw [← UInt8.toNat_inj, UInt8.toNat_ofNat', UInt8.toNat_ofNat', same]
  have wrapped : leBytes 4 (index % 2 ^ 32) = leBytes 4 index := by
    simp only [leBytes, cons.injEq, and_true]
    exact ⟨bytes _ _ (by omega), bytes _ _ (by omega), bytes _ _ (by omega), bytes _ _ (by omega)⟩
  rw [scanOutput, if_pos found, if_pos update, OutPoint.serialize, wrapped]
  exact contains_insert ..

variable [Library]

theorem grows_isRelevantAndUpdate (filter : BloomFilter) (tx : Transaction) : Grows filter (filter.isRelevantAndUpdate tx).1 := by
  unfold isRelevantAndUpdate
  split
  · exact .refl filter
  · exact grows_scanOutputs filter tx.computeTxid tx.output

theorem relevant_of_contains {tx : Transaction} {input : TxIn} (listed : input ∈ tx.input)
    (known : filter.contains input.previousOutput.serialize = true) : (filter.isRelevantAndUpdate tx).2 = true := by
  unfold isRelevantAndUpdate
  split
  · rfl
  · have later := (grows_scanOutputs filter tx.computeTxid tx.output).contains known
    simp only [Bool.or_eq_true, any_eq_true]
    exact .inr ⟨input, listed, .inl later⟩

theorem contains_isRelevantAndUpdate {tx : Transaction} {front back : List TxOut} (outputs : tx.output = front ++ output :: back)
    (found : (filter.scanOutputs tx.computeTxid front).1.containsScriptData output.scriptPubkey = true) (update : filter.shouldUpdate output.scriptPubkey = true) :
    (filter.isRelevantAndUpdate tx).1.contains (OutPoint.serialize ⟨tx.computeTxid, front.length⟩) = true := by
  unfold isRelevantAndUpdate
  split
  · rename_i empty
    simp [BloomFilter.contains, empty]
  · dsimp only
    rw [outputs, scanOutputs, zipIdx_append, foldl_append, zipIdx_cons, foldl_cons, Nat.zero_add]
    refine (grows_foldl Prod.fst grows_scanOutput _ _).contains (contains_scanOutput found ?_)
    have same : (filter.scanOutputs tx.computeTxid front).1.flags = filter.flags := (grows_scanOutputs ..).flags
    rw [shouldUpdate, ← same] at update
    exact update

/-- A value is inserted, or a transaction is matched. -/
def perform (filter : BloomFilter) : Bytes ⊕ Transaction → BloomFilter
  | .inl value => filter.insert value
  | .inr tx => (filter.isRelevantAndUpdate tx).1

theorem grows_perform (filter : BloomFilter) : ∀ call, Grows filter (filter.perform call)
  | .inl value => grows_insert filter value
  | .inr tx => grows_isRelevantAndUpdate filter tx

theorem matched_foldl (txs : List Transaction) (state : BloomFilter × List Txid) :
    ∀ id ∈ state.2, id ∈ (txs.foldl matchTransaction state).2 := by
  induction txs generalizing state with
  | nil => exact fun _ => id
  | cons tx txs ih =>
    refine fun id member => ih _ id ?_
    unfold matchTransaction
    dsimp only
    split
    · exact mem_append_left _ member
    · exact member

/-- What was inserted stays in, and behind a transaction whose output matched, the spender of that output is matched. -/
theorem bloom_never_misses (filter : BloomFilter) :
    (∀ calls value later, ((calls ++ .inl value :: later).foldl perform filter).contains value = true) ∧
    ∀ header earlier tx between spender rest front output back,
      let start := (filter.matchedTransactionIds ⟨header, earlier⟩).1
      tx.output = front ++ output :: back → (start.scanOutputs tx.computeTxid front).1.containsScriptData output.scriptPubkey = true →
      (filter.flags = .all ∨ filter.flags = .pubkeyOnly ∧
        (isCoreP2pk output.scriptPubkey = true ∨ (coreMultisigSolution output.scriptPubkey).isSome = true)) →
      (∃ input ∈ spender.input, input.previousOutput = ⟨tx.computeTxid, front.length⟩) →
      ((filter.matchedTransactionIds ⟨header, earlier ++ tx :: between⟩).1.isRelevantAndUpdate spender).2 = true ∧
        spender.computeTxid ∈ (filter.matchedTransactionIds ⟨header, earlier ++ tx :: (between ++ spender :: rest)⟩).2 := by
  constructor
  · intro calls value later
    rw [foldl_append, foldl_cons]
    exact (grows_foldl id grows_perform later _).contains (contains_insert _ value)
  · intro header earlier tx between spender rest front output back start outputs found flags spends
    obtain ⟨input, listed, spent⟩ := spends
    have step : ∀ state tx, Grows state.1 (matchTransaction state tx).1 := fun state tx => grows_isRelevantAndUpdate state.1 tx
    have update : start.shouldUpdate output.scriptPubkey = true := by
      have same : start.flags = filter.flags := (grows_foldl Prod.fst step earlier (filter, [])).flags
      rw [shouldUpdate, same]
      rcases flags with all | ⟨keys, bare⟩
      · rw [all]
      · rw [keys, Bool.or_eq_true]
        exact bare
    have known := (grows_foldl Prod.fst step between (matchTransaction (filter.matchedTransactionIds ⟨header, earlier⟩) tx)).contains
      (contains_isRelevantAndUpdate outputs found update)
    rw [← spent] at known
    have relevant := relevant_of_contains listed known
    simp only [matchedTransactionIds, foldl_append, foldl_cons] at relevant ⊢
    refine ⟨relevant, matched_foldl rest _ _ ?_⟩
    rw [matchTransaction]
    simp [relevant]

end BloomFilter

end BitcoindRs
