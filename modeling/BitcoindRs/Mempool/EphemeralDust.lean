import BitcoindRs.Mempool.Truc

/-!
Ephemeral dust. A transaction that enters alone is checked against its parents; the members of a package enter unchecked
and are checked together at the end.
-/

namespace BitcoindRs
open Result List
variable [Library] [PolicyLibrary] [HashOrder ℕ]

namespace Mempool
variable {pool q : Mempool} {view : ChainView} {tx : Transaction} {txs : List Transaction} {options : AcceptOptions}
variable {depth : Txid → ℕ} {body : Txid → List OutPoint × List TxOut} {loose : Txid → Prop}

/-- An identifier commits to what its transaction spends and pays. -/
structure Authentic (depth : Txid → ℕ) (body : Txid → List OutPoint × List TxOut) (view : ChainView) (tx : Transaction) : Prop where
  genuine : Genuine depth view tx
  named : body tx.computeTxid = (tx.prevouts, tx.output)

/-- Entries that spend an output of another entry spend all its dust, except the loose ones. -/
structure Swept (depth : Txid → ℕ) (body : Txid → List OutPoint × List TxOut) (view : ChainView) (loose : Txid → Prop)
    (pool : Mempool) : Prop where
  sound : Sound depth view pool
  named : ∀ txid entry, pool.entries.lookup txid = some entry → body txid = (entry.transaction.prevouts, entry.transaction.output)
  tied : ∀ child spender parent entry, ¬ loose child → pool.entries.lookup child = some spender →
    pool.entries.lookup parent = some entry → parent ∈ spender.transaction.inputTxids → ∀ vout output,
      entry.transaction.output[vout]? = some output → isDustOutputWithFee output pool.policy.dustRelayFeeSatPerKvb = true →
        ⟨parent, vout⟩ ∈ spender.transaction.prevouts

omit [PolicyLibrary] [HashOrder ℕ] in
theorem Swept.within (swept : Swept depth body view loose pool) (within : Within pool q) {next : ChainView}
    (sound : Sound depth next q) (policy : q.policy = { pool.policy with requireStandard := q.policy.requireStandard }) :
    Swept depth body next loose q where
  sound := sound
  named txid entry found := swept.named txid entry (within txid entry found)
  tied child spender parent entry bound there found spends vout output paid dust := by
    rw [policy] at dust
    exact swept.tied child spender parent entry bound (within _ _ there) (within _ _ found) spends vout output paid dust

theorem Swept.withdraws (swept : Swept depth body view loose pool) (out : Withdraws pool q) : Swept depth body view loose q :=
  swept.within out.leaves.within (swept.sound.withdraws out) out.leaves.policy

omit [PolicyLibrary] [HashOrder ℕ] in
theorem validateEphemeralSpends_ok (run : validateEphemeralSpends txs pool = .ok ())
    (named : ∀ other ∈ txs, body other.computeTxid = (other.prevouts, other.output)) (listed : tx ∈ txs) {parent : Txid}
    {entry : MempoolEntry} (found : pool.entries.lookup parent = some entry)
    (known : body parent = (entry.transaction.prevouts, entry.transaction.output)) (spends : parent ∈ tx.inputTxids) {vout : ℕ}
    {output : TxOut} (paid : entry.transaction.output[vout]? = some output)
    (dust : isDustOutputWithFee output pool.policy.dustRelayFeeSatPerKvb = true) : ⟨parent, vout⟩ ∈ tx.prevouts := by
  by_contra unspent
  have clean := bailIf_ok.mp run
  refine clean (any_eq_true.mpr ⟨tx, listed, ?_⟩)
  have source : ∃ other, (txs.reverse.find? fun other => other.computeTxid = parent).or
      ((pool.entries.lookup parent).map (·.transaction)) = some other ∧ other.output = entry.transaction.output := by
    cases member : txs.reverse.find? fun other => other.computeTxid = parent with
    | none => exact ⟨entry.transaction, by rw [found]; rfl, rfl⟩
    | some other =>
      have same : other.computeTxid = parent := by simpa using find?_some member
      have body := named other (mem_reverse.mp (mem_of_find?_eq_some member))
      rw [same, known] at body
      exact ⟨other, rfl, (Prod.mk.inj body).2.symm⟩
  obtain ⟨other, source, same⟩ := source
  have left : (⟨parent, vout⟩ : OutPoint) ∈ pool.unspentDust txs tx := by
    refine mem_filter.mpr ⟨mem_flatMap.mpr ⟨parent, mem_eraseDups.mpr spends, ?_⟩, by simpa using unspent⟩
    dsimp only
    rw [source]
    exact mem_map.mpr ⟨(output, vout), mem_filter.mpr ⟨mk_mem_zipIdx_iff_getElem?.mpr (same ▸ paid), dust⟩, rfl⟩
  rw [Bool.not_eq_true', isEmpty_eq_false_iff]
  exact ne_nil_of_mem left

theorem Swept.admits (swept : Swept depth body view loose pool) (authentic : Authentic depth body view tx)
    (checked : loose tx.computeTxid ∨ Checking options) (admits : Admits view tx options pool q) : Swept depth body view loose q := by
  have unclaimed := swept.sound.unclaimed authentic.genuine admits
  have sound := swept.sound.admits authentic.genuine admits
  have policy := admits.policy
  cases admits with
  | @enter decayed roomy passedChecks addedAt tuned _ passed topology room =>
    have out := (withdraws_makeRoom decayed tx (decayed.candidate view tx addedAt passedChecks).memoryUsage options).1
    rw [room] at out
    have early := swept.withdraws (.tuned tuned)
    have before := early.withdraws out
    have claimless := unclaimed.leaves ((Withdraws.tuned tuned).trans out).leaves
    have fresh : roomy.entries.lookup tx.computeTxid = none := by
      rcases there : roomy.entries.lookup tx.computeTxid with _ | entry
      · rfl
      · have old := out.leaves.entries there
        rw [tuned.entries, (checkTransaction_ok passed).fresh] at old
        cases old
    refine ⟨sound, fun txid entry found => ?named, ?tied⟩
    case named =>
      rcases (lookup_insertEntry fresh).mp found with ⟨rfl, rfl⟩ | old
      · exact authentic.named
      · exact before.named txid entry old
    case tied =>
      intro child spender parent entry bound there found spends vout output paid dust
      rw [policy] at dust
      -- Nothing spends the newcomer, so it can only be the child.
      rcases (lookup_insertEntry fresh).mp found with ⟨rfl, -⟩ | found
      · rcases (lookup_insertEntry fresh).mp there with ⟨-, rfl⟩ | there
        · exact absurd spends claimless.1
        · exact absurd spends (claimless.2 child spender there)
      · rcases (lookup_insertEntry fresh).mp there with ⟨rfl, rfl⟩ | there
        · have kind := checked.resolve_left bound
          unfold checkTopology at topology
          obtain ⟨⟨⟩, run, -⟩ := bind_ok topology
          rw [kind.1.1, kind.2] at run
          have older := out.leaves.entries found
          refine validateEphemeralSpends_ok run ?_ (mem_singleton_self tx) older (early.named parent entry older) spends paid ?_
          · intro other listed
            rw [mem_singleton.mp listed]
            exact authentic.named
          · rw [tuned.policy]
            exact dust
        · refine before.tied child spender parent entry bound there found spends vout output paid ?_
          rw [out.leaves.policy, tuned.policy]
          exact dust

theorem Swept.offer {standing : AcceptOptions → Prop} (swept : Swept depth body view loose pool)
    (authentic : Authentic depth body view tx) (checked : ∀ options, standing options → loose tx.computeTxid ∨ Checking options)
    (offer : Offer standing view tx pool q) : Swept depth body view loose q := by
  cases offer with
  | declined out => exact swept.withdraws out
  | taken out kind admits tuned _ => exact ((swept.withdraws out).admits authentic (checked _ kind) admits).withdraws (.tuned tuned)

theorem Swept.acceptPackage (swept : Swept depth body view (fun _ => False) pool)
    (authentic : ∀ tx ∈ txs, Authentic depth body view tx) (now : ℕ) :
    Swept depth body view (fun _ => False) (pool.acceptPackage view now txs).2 := by
  rcases acceptPackage_staged pool view now txs with same | ⟨staged, offers, checked, trimmed⟩
  · rwa [same]
  have members : Swept depth body view (· ∈ txs.map Transaction.computeTxid) staged := by
    refine offers.maintains (fun p q swept out => swept.withdraws out) ?_
      ⟨swept.sound, swept.named, fun child spender parent entry _ => swept.tied child spender parent entry id⟩
    exact fun tx listed p q swept offer => swept.offer (authentic tx listed) (fun _ _ => .inl (mem_map_of_mem listed)) offer
  refine Swept.withdraws ⟨members.sound, members.named, ?_⟩ trimmed
  intro child spender parent entry _ there found spends vout output paid dust
  by_cases listed : child ∈ txs.map Transaction.computeTxid
  · -- What the pool has under the identifier of a member spends what the member spends.
    obtain ⟨tx, member, rfl⟩ := mem_map.mp listed
    have alike := (authentic tx member).named.symm.trans (members.named _ spender there)
    rw [Prod.mk.injEq] at alike
    rw [Transaction.mem_inputTxids, ← alike.1, ← Transaction.mem_inputTxids] at spends
    rw [← alike.1]
    exact validateEphemeralSpends_ok checked (fun other listed => (authentic other listed).named) member found
      (members.named parent entry found) spends paid dust
  · exact members.tied child spender parent entry listed there found spends vout output paid dust

/-- A pool whose chain only grows. -/
inductive Forward (depth : Txid → ℕ) (body : Txid → List OutPoint × List TxOut) : ChainView → Mempool → Prop
  | new (view : ChainView) (policy : MempoolPolicy) (maxBytes : ℕ) (electrumIndexEnabled : Bool) (now : ℕ) :
      Forward depth body view (Mempool.new policy maxBytes electrumIndexEnabled now)
  | maintain {view : ChainView} {pool : Mempool} (forward : Forward depth body view pool) (operation : Operation)
      (upkeep : operation.maintains = true) (authentic : ∀ tx ∈ operation.offered, Authentic depth body view tx) :
      Forward depth body view (pool.perform ⟨view, operation⟩).1
  | connect {view : ChainView} {pool : Mempool} (forward : Forward depth body view pool) (next : ChainView) (now : ℕ)
      (activated : List Block) (manualInvalidation : Bool) :
      Forward depth body next (pool.reconcile next now activated [] manualInvalidation).1

theorem Forward.swept (forward : Forward depth body view pool) : Swept depth body view (fun _ => False) pool := by
  induction forward with
  | new view policy maxBytes electrumIndexEnabled now =>
    exact ⟨(Kept.new view policy maxBytes electrumIndexEnabled now).sound, nofun, nofun⟩
  | maintain _ operation upkeep authentic ih =>
    refine perform_checks upkeep (fun p q swept out => swept.withdraws out) ?rebuild ?log ih
      (fun tx listed p q swept offer => swept.offer (authentic tx listed) (fun _ kind => .inr kind) offer) ?package
    case rebuild => exact fun p swept => ⟨swept.sound.rebuild, swept.named, swept.tied⟩
    case log => exact fun p swept => ⟨swept.sound.taken, swept.named, swept.tied⟩
    case package =>
      rintro now txs rfl
      exact ih.acceptPackage authentic now
  | @connect view pool _ next now activated manualInvalidation ih =>
    have sound := sound_reconcile ih.sound.coherent ih.sound.grounded next now activated [] manualInvalidation
      fun _ none_ => absurd none_ not_mem_nil
    have feeds : Feeds _ next (pool, []) _ := reconcile_delivers pool now activated [] manualInvalidation []
    exact ih.within (reconcile_connect pool next now activated manualInvalidation).1 sound feeds.policy

/-- In every pool that has not seen a reorganisation, an entry that spends an output of another one spends all its dust. -/
theorem ephemeral_dust_swept (forward : Forward depth body view pool) {child parent : Txid} {spender entry : MempoolEntry}
    (there : pool.entries.lookup child = some spender) (found : pool.entries.lookup parent = some entry)
    (spends : parent ∈ spender.transaction.inputTxids) {vout : ℕ} {output : TxOut}
    (paid : entry.transaction.output[vout]? = some output)
    (dust : isDustOutputWithFee output pool.policy.dustRelayFeeSatPerKvb = true) : ⟨parent, vout⟩ ∈ spender.transaction.prevouts :=
  forward.swept.tied child spender parent entry id there found spends vout output paid dust

omit [Library] [PolicyLibrary] [HashOrder ℕ] in
/-- A package of a payment with an output of 100 satoshi and its child. -/
theorem ephemeral_dust_swept_package : let _ := Library.sample
    let _ := PolicyLibrary.sample
    let _ := BlockHash.sampleOrder
    let view := sampleView [sampleOldCoin 7 0 100000]
    let parent := sampleSpend 1 [⟨7, 0⟩] [90000, 100]
    let child := sampleSpend 2 [⟨1001, 0⟩, ⟨1001, 1⟩] [50000]
    let pool := ((samplePool {} 5000).perform ⟨view, .acceptPackage 0 [parent, child]⟩).1
    pool.contains 1002 = true ∧ ⟨1001, 1⟩ ∈ child.prevouts := by
  intro _ _ _ view parent child pool
  have forward : Forward id (fun txid => if txid = 1001 then (parent.prevouts, parent.output) else (child.prevouts, child.output))
      view pool := by
    refine .maintain (.new view {} 5000 false 0) (.acceptPackage 0 [parent, child]) rfl fun tx listed => ?_
    rcases mem_pair.mp listed with rfl | rfl
    · exact ⟨genuine_sample (by decide +kernel), by decide +kernel⟩
    · exact ⟨genuine_sample (by decide +kernel), by decide +kernel⟩
  have lower : (pool.entries.lookup 1002).map (·.transaction) = some child := by decide +kernel
  have upper : (pool.entries.lookup 1001).map (·.transaction) = some parent := by decide +kernel
  obtain ⟨spender, there, swept⟩ := Option.map_eq_some_iff.mp lower
  obtain ⟨entry, found, same⟩ := Option.map_eq_some_iff.mp upper
  refine ⟨contains_iff.mpr ⟨spender, there⟩, ?_⟩
  have spends : 1001 ∈ spender.transaction.inputTxids := by rw [swept]; decide +kernel
  have paid : entry.transaction.output[1]? = some ⟨100, [0x51]⟩ := by rw [same]; rfl
  rw [← swept]
  exact ephemeral_dust_swept forward there found spends paid (by decide +kernel)

end Mempool

end BitcoindRs
