import BitcoindRs.Mempool.Offer

/-! The operations of the pool, runs of them, and the steps that every operation is made of. -/

namespace BitcoindRs
open Relation Result List DisconnectedTransactionPool
variable [Library] [PolicyLibrary] [HashOrder ℕ]

namespace Mempool
variable {tx : Transaction} {p q pool : Mempool} {queue : DisconnectedTransactionPool} {block : Block}
variable {blocks : List Block}

inductive Operation where
  | accept (now : ℕ) (tx : Transaction)
  | acceptWithStandardPolicyDisabled (now : ℕ) (tx : Transaction)
  | acceptPackage (now : ℕ) (transactions : List Transaction)
  /-- Admissions of a reorganisation and the rebuilding of the child index. -/
  | restore (now : ℕ) (queue : DisconnectedTransactionPool)
  | remove (txid : Txid)
  | removeRecursive (txid : Txid)
  | removeConfirmed (now : ℕ) (block : Block)
  | removeConflicts (block : Block)
  | removeForReorg
  | clearExpired (now age : ℕ)
  | revalidate (now : ℕ)
  | reconcile (now : ℕ) (activated disconnected : List Block) (manualInvalidation : Bool)
  | enforceSizeLimit
  | setMaxBytes (maxBytes : ℕ)
  | prioritise (txid : Txid) (feeDelta : ℤ)
  | addUnbroadcast (txid : Txid)
  | removeUnbroadcast (txid : Txid)
  | load (now expiry : ℕ) (options : MempoolLoadOptions) (saved : List SavedEntry) (deltas : List (Txid × ℤ))
      (unbroadcast : List Txid)
  | takeChanges

/-- The transactions that an operation may let in, besides those that are in the pool already. -/
def Operation.offered : Operation → List Transaction
  | .accept _ tx | .acceptWithStandardPolicyDisabled _ tx => [tx]
  | .acceptPackage _ transactions => transactions
  | .restore _ queue => queue.transactions
  | .reconcile _ _ disconnected _ => disconnected.flatMap (·.txdata)
  | .load _ _ _ saved _ _ => saved.map (·.transaction)
  | _ => []

/-- An operation on the pool while the chain is in some state. -/
structure Event where
  view : ChainView
  operation : Operation

/-- The pool after an event, and the changes that the event hands over. -/
def perform (pool : Mempool) (event : Event) : Mempool × List MempoolChange := match event.operation with
  | .accept now tx => ((pool.accept event.view now tx).2, [])
  | .acceptWithStandardPolicyDisabled now tx => ((pool.acceptWithStandardPolicyDisabled event.view now tx).2, [])
  | .acceptPackage now transactions => ((pool.acceptPackage event.view now transactions).2, [])
  | .restore now queue => ((Mempool.restore event.view now pool queue).rebuildChildrenIndex, [])
  | .remove txid => (pool.remove txid, [])
  | .removeRecursive txid => (pool.removeRecursive txid, [])
  | .removeConfirmed now block => (pool.removeConfirmed now block, [])
  | .removeConflicts block => (pool.removeConflicts block, [])
  | .removeForReorg => (pool.removeForReorg event.view, [])
  | .clearExpired now age => (pool.clearExpired now age, [])
  | .revalidate now => (pool.revalidate event.view now, [])
  | .reconcile now activated disconnected manualInvalidation =>
    pool.reconcile event.view now activated disconnected manualInvalidation
  | .enforceSizeLimit => (pool.enforceSizeLimit, [])
  | .setMaxBytes maxBytes => (pool.setMaxBytes maxBytes, [])
  | .prioritise txid feeDelta => (pool.prioritise txid feeDelta, [])
  | .addUnbroadcast txid => (pool.addUnbroadcast txid, [])
  | .removeUnbroadcast txid => (pool.removeUnbroadcast txid, [])
  | .load now expiry options saved deltas unbroadcast =>
    (pool.load event.view now expiry options saved deltas unbroadcast, [])
  | .takeChanges => pool.takeChanges.swap

def feed (state : Mempool × List MempoolChange) (event : Event) : Mempool × List MempoolChange :=
  ((state.1.perform event).1, state.2 ++ (state.1.perform event).2)

def run (pool : Mempool) (events : List Event) : Mempool × List MempoolChange := events.foldl feed (pool, [])

/-! ### Steps -/

/-- What changes the pool: an entry leaves, one of the offered transactions enters, or the child index is built anew. -/
inductive Edit (offered : Transaction → Prop) (view : ChainView) (p : Mempool) : Mempool → Prop
  | leave {q : Mempool} (leave : Leave p q) : Edit offered view p q
  | enter {q : Mempool} {tx : Transaction} {options : AcceptOptions} (one : offered tx) (recorded : options.recordSequence = true)
      (admits : Admits view tx options p q) : Edit offered view p q
  | rebuild : Edit offered view p p.rebuildChildrenIndex

/-- An edit, or the changes are handed over. -/
inductive Feed (offered : Transaction → Prop) (view : ChainView) : Mempool × List MempoolChange → Mempool × List MempoolChange → Prop
  | edit {p q : Mempool} {handed : List MempoolChange} (edit : Edit offered view p q) : Feed offered view (p, handed) (q, handed)
  | take (p : Mempool) (handed : List MempoolChange) :
      Feed offered view (p, handed) ({ p with changes := [] }, handed ++ p.changes)

variable {offered : Transaction → Prop} {view : ChainView}

abbrev Edits (offered : Transaction → Prop) (view : ChainView) : Mempool → Mempool → Prop := ReflTransGen (Edit offered view)

abbrev Feeds (offered : Transaction → Prop) (view : ChainView) :
    Mempool × List MempoolChange → Mempool × List MempoolChange → Prop := ReflTransGen (Feed offered view)

theorem Leaves.edits (leaves : Leaves p q) : Edits offered view p q := leaves.lift id fun _ _ => .leave

/-- The steps lead to a pool and hand changes over, after those that were handed over before. -/
def Delivers (offered : Transaction → Prop) (view : ChainView) (p : Mempool) (result : Mempool × List MempoolChange) : Prop :=
  ∀ handed, Feeds offered view (p, handed) (result.1, handed ++ result.2)

variable {result : Mempool × List MempoolChange}

theorem Edits.delivers (edits : Edits offered view p q) : Delivers offered view p (q, []) := by
  intro handed
  rw [append_nil]
  exact edits.lift (·, handed) fun _ _ => .edit

theorem Delivers.edits (early : Delivers offered view p result) (late : Edits offered view result.1 q) :
    Delivers offered view p (q, result.2) :=
  fun handed => (early handed).trans (late.lift (·, handed ++ result.2) fun _ _ => .edit)

theorem Delivers.take (early : Delivers offered view p result) :
    Delivers offered view p ({ result.1 with changes := [] }, result.2 ++ result.1.changes) := by
  intro handed
  have taken : Feed offered view _ _ := .take result.1 (handed ++ result.2)
  rw [append_assoc] at taken
  exact (early handed).tail taken

theorem Tuned.edits (tuned : Tuned p q) : Edits offered view p q := .single (.leave (.tune tuned))

theorem Withdraws.edits (out : Withdraws p q) : Edits offered view p q := out.leaves.edits

variable {standing : AcceptOptions → Prop}

theorem Offer.edits (records : ∀ options, standing options → options.recordSequence = true)
    (one : offered tx) (offer : Offer standing view tx p q) : Edits offered view p q := by
  cases offer with
  | declined out => exact out.edits
  | taken out kind admits tuned _ =>
    exact (out.edits.tail (.enter one (records _ kind) admits)).trans tuned.edits

theorem Offers.edits (records : ∀ options, standing options → options.recordSequence = true) {txs : List Transaction}
    (all : ∀ tx ∈ txs, offered tx) (offers : Offers standing view txs p q) : Edits offered view p q := by
  induction offers with
  | done out => exact out.edits
  | next offer _ ih =>
    obtain ⟨one, rest⟩ := forall_mem_cons.mp all
    exact (offer.edits records one).trans (ih rest)

section
omit [Library] [PolicyLibrary] [HashOrder ℕ]

theorem Ordinary.records (options : AcceptOptions) (kind : Ordinary options) : options.recordSequence = true := kind.2.2

theorem Checking.records (options : AcceptOptions) (kind : Checking options) : options.recordSequence = true := kind.1.2.2

theorem Restoring.records (options : AcceptOptions) (kind : Restoring options) : options.recordSequence = true := kind.2

theorem tuned_prioritise (pool : Mempool) (txid : Txid) (feeDelta : ℤ) : Tuned pool (pool.prioritise txid feeDelta) :=
  ⟨rfl, rfl, fun _ listed => .inl listed, fun _ => rfl⟩

theorem tuned_addUnbroadcast (pool : Mempool) (txid : Txid) : Tuned pool (pool.addUnbroadcast txid) := by
  rw [addUnbroadcast]
  split
  · rename_i inside
    refine ⟨rfl, rfl, fun other listed => ?_, fun _ => rfl⟩
    rcases Finset.mem_insert.mp listed with rfl | listed
    · exact .inr inside
    · exact .inl listed
  · exact .refl pool

theorem tuned_removeUnbroadcast (pool : Mempool) (txid : Txid) : Tuned pool (pool.removeUnbroadcast txid) :=
  ⟨rfl, rfl, fun _ listed => .inl (Finset.mem_of_mem_erase listed), fun _ => rfl⟩

end

theorem load_offers (pool : Mempool) (now expiry : ℕ) (options : MempoolLoadOptions) (saved : List SavedEntry)
    (deltas : List (Txid × ℤ)) (unbroadcast : List Txid) :
    ∃ loaded, pool.load view now expiry options saved deltas unbroadcast = loaded.rebuildChildrenIndex ∧
      Offers Checking view (saved.map (·.transaction)) pool loaded := by
  have each : ∀ (pool : Mempool) (item : SavedEntry),
      Offer Checking view item.transaction pool (loadEntry view now expiry options pool item) := by
    intro pool item
    have first : Withdraws pool (prioritiseSaved options pool item) := by
      rw [prioritiseSaved]
      split
      · exact .tuned (tuned_prioritise _ _ _)
      · exact .refl pool
    rw [loadEntry]
    generalize (if options.useCurrentTime = true then now else item.addedAt) = addedAt
    split
    · have offer : Offer Checking view item.transaction _
          ((prioritiseSaved options pool item).acceptAt view now item.transaction addedAt).2 :=
        acceptAtWithSequence_offer ⟨⟨rfl, rfl, rfl⟩, rfl⟩ rfl
      exact offer.after first
    · exact .declined first
  have loop : ∀ (saved : List SavedEntry) (pool : Mempool),
      Offers Checking view (saved.map (·.transaction)) pool (saved.foldl (loadEntry view now expiry options) pool) := by
    intro saved
    induction saved with
    | nil => exact fun pool => .done (.refl pool)
    | cons item saved ih => exact fun pool => .next (each pool item) (ih _)
  have prioritised : ∀ (deltas : List (Txid × ℤ)) (pool : Mempool), Withdraws pool (pool.prioritiseAll deltas) :=
    withdraws_foldl fun pool delta => .tuned (tuned_prioritise pool delta.1 delta.2)
  have listed : ∀ (unbroadcast : List Txid) (pool : Mempool), Withdraws pool (unbroadcast.foldl addUnbroadcast pool) :=
    withdraws_foldl fun pool txid => .tuned (tuned_addUnbroadcast pool txid)
  refine ⟨_, rfl, ?_⟩
  exact ((loop saved pool).before (prioritised _ _)).before (listed _ _)

/-! ### Reconciliation -/

section
omit [HashOrder ℕ]

theorem mem_queue {other : Transaction} (member : other ∈ (queue.queue tx).transactions) :
    other ∈ queue.transactions ∨ other = tx := by
  rw [DisconnectedTransactionPool.queue] at member
  split at member
  · exact .inl member
  · simpa using member

theorem mem_trim {transactions : List Transaction} {txids : Finset Txid} {memoryUsage : ℕ}
    (member : tx ∈ (trim transactions txids memoryUsage).2.transactions) : tx ∈ transactions := by
  induction transactions generalizing txids memoryUsage with
  | nil => exact member
  | cons first rest ih =>
    rw [trim] at member
    split at member
    · exact member
    · exact mem_cons_of_mem _ (ih member)

theorem mem_addBlock
    (member : tx ∈ (queue.addBlock block).2.transactions) : tx ∈ queue.transactions ∨ tx ∈ block.txdata := by
  have loop : ∀ (txs : List Transaction) (queue : DisconnectedTransactionPool),
      tx ∈ (txs.foldl DisconnectedTransactionPool.queue queue).transactions → tx ∈ queue.transactions ∨ tx ∈ txs := by
    intro txs
    induction txs with
    | nil => exact fun queue member => .inl member
    | cons first rest ih =>
      intro queue member
      rcases ih _ member with early | late
      · rcases mem_queue early with old | rfl
        · exact .inl old
        · exact .inr mem_cons_self
      · exact .inr (mem_cons_of_mem _ late)
  rcases loop _ queue (mem_trim member) with old | new
  · exact .inl old
  · exact .inr (mem_reverse.mp new)

theorem mem_removeForBlock (member : tx ∈ (queue.removeForBlock block).transactions) : tx ∈ queue.transactions := by
  have each : ∀ (queue : DisconnectedTransactionPool) (other : Transaction),
      tx ∈ (queue.removeTransaction other).transactions → tx ∈ queue.transactions := by
    intro queue other member
    rw [removeTransaction] at member
    split at member
    · split at member
      · exact member
      · exact mem_of_mem_eraseP member
    · exact member
  have loop : ∀ (txs : List Transaction) (queue : DisconnectedTransactionPool),
      tx ∈ (txs.foldl removeTransaction queue).transactions → tx ∈ queue.transactions := by
    intro txs
    induction txs with
    | nil => exact fun queue member => member
    | cons first rest ih => exact fun queue member => each queue first (ih _ member)
  exact loop block.txdata queue member

end

theorem removeTransactions_withdraws (pool : Mempool) (txs : List Transaction) : Withdraws pool (pool.removeTransactions txs) := by
  unfold removeTransactions
  apply withdraws_foldl
  intro pool tx
  apply withdraws_removeRecursive

theorem removeDisconnected_withdraws (pool : Mempool) (blocks : List Block) : Withdraws pool (pool.removeDisconnected blocks) := by
  unfold removeDisconnected
  apply withdraws_foldl
  intro pool block
  apply removeTransactions_withdraws

theorem queueAllDisconnected_withdraws (blocks : List Block) (state : Mempool × DisconnectedTransactionPool) :
    Withdraws state.1 (blocks.foldl queueDisconnected state).1 := by
  induction blocks generalizing state with
  | nil => exact .refl _
  | cons block blocks ih =>
    exact (removeTransactions_withdraws state.1 (state.2.addBlock block).1).trans (ih (queueDisconnected state block))

theorem mem_queueAllDisconnected {state : Mempool × DisconnectedTransactionPool}
    (member : tx ∈ (blocks.foldl queueDisconnected state).2.transactions) :
    tx ∈ state.2.transactions ∨ ∃ block ∈ blocks, tx ∈ block.txdata := by
  induction blocks generalizing state with
  | nil => exact .inl member
  | cons block blocks ih =>
    rcases ih member with early | ⟨other, listed, inside⟩
    · rcases mem_addBlock early with old | new
      · exact .inl old
      · exact .inr ⟨block, mem_cons_self, new⟩
    · exact .inr ⟨other, mem_cons_of_mem _ listed, inside⟩

theorem restored_offered {disconnected activated : List Block} (some_ : ∀ block ∈ blocks, block ∈ disconnected)
    (listed : tx ∈ (activated.foldl removeForBlock
      (blocks.foldl queueDisconnected (pool, {})).2).takeOldestFirst.filter fun tx => tx.isCoinbase = false) :
    tx ∈ disconnected.flatMap (·.txdata) := by
  have kept : ∀ (activated : List Block) (queue : DisconnectedTransactionPool),
      tx ∈ (activated.foldl removeForBlock queue).transactions → tx ∈ queue.transactions := by
    intro activated
    induction activated with
    | nil => exact fun queue member => member
    | cons block activated ih => exact fun queue member => mem_removeForBlock (ih _ member)
  have queued := kept _ _ (mem_reverse.mp (mem_filter.mp listed).1)
  rcases mem_queueAllDisconnected queued with none_ | ⟨block, member, inside⟩
  · cases none_
  · exact mem_flatMap.mpr ⟨block, some_ block member, inside⟩

theorem connectBlock_delivers (now : ℕ) (early : Delivers offered view p result) (block : Block) :
    Delivers offered view p (connectBlock now result block) := by
  have out : Leaves result.1 ((result.1.removeConflicts block).removeConfirmed now block) :=
    (withdraws_removeConflicts result.1 block).leaves.trans (leaves_removeConfirmed _ now block)
  exact (early.edits out.edits).take

theorem connectBlocks_delivers (now : ℕ) (blocks : List Block) (early : Delivers offered view p result) :
    Delivers offered view p (blocks.foldl (connectBlock now) result) :=
  foldlRecOn blocks (connectBlock now) early fun _ early block _ => connectBlock_delivers now early block

section
variable (pool : Mempool) (now : ℕ) (activated disconnected : List Block) (manualInvalidation : Bool)

theorem reconcileReorg_delivers :
    Delivers (· ∈ disconnected.flatMap (·.txdata)) view pool (pool.reconcileReorg view now activated disconnected) := by
  have queued := queueAllDisconnected_withdraws disconnected.reverse (pool, {})
  refine (connectBlocks_delivers now activated queued.edits.delivers).edits ?_
  refine (restore_offers _ now _).edits Restoring.records fun tx listed => ?_
  exact restored_offered (fun block member => mem_reverse.mp member) listed

theorem reconcileInvalidation_delivers :
    Delivers (· ∈ disconnected.flatMap (·.txdata)) view pool (pool.reconcileInvalidation view now activated disconnected) := by
  refine (connectBlocks_delivers now activated (Edits.delivers .refl)).edits ?_
  have queued := queueAllDisconnected_withdraws (disconnected.reverse.take 10)
    ((activated.foldl (connectBlock now) (pool, [])).1, {})
  refine (queued.trans (removeDisconnected_withdraws _ _)).edits.trans ((restore_offers _ now _).edits Restoring.records ?_)
  exact fun tx listed => restored_offered (fun block member => mem_reverse.mp (mem_of_mem_take member)) listed

theorem reconcileBlocks_delivers : Delivers (· ∈ disconnected.flatMap (·.txdata)) view pool
    (pool.reconcileBlocks view now activated disconnected manualInvalidation) := by
  unfold reconcileBlocks
  split
  · exact reconcileInvalidation_delivers pool now activated disconnected
  · exact reconcileReorg_delivers pool now activated disconnected

theorem reconcile_delivers : Delivers (· ∈ disconnected.flatMap (·.txdata)) view pool
    (pool.reconcile view now activated disconnected manualInvalidation) := by
  have early : Delivers _ view pool _ := reconcileBlocks_delivers pool now activated disconnected manualInvalidation
  rw [reconcile]
  generalize pool.reconcileBlocks view now activated disconnected manualInvalidation = moved at early
  have late : Edits (· ∈ disconnected.flatMap (·.txdata)) view moved.1
      (moved.1.rebuildChildrenIndex.removeForReorg view).enforceSizeLimit :=
    ((ReflTransGen.single .rebuild).trans (withdraws_removeForReorg _ view).edits).trans (withdraws_enforceSizeLimit _).edits
  exact (early.edits late).take

end

theorem perform_delivers (pool : Mempool) (event : Event) (other : ∀ now, event.operation ≠ .revalidate now) :
    Delivers (· ∈ event.operation.offered) event.view pool (pool.perform event) := by
  obtain ⟨view, operation⟩ := event
  have edited : ∀ {q : Mempool}, Edits (· ∈ operation.offered) view pool q →
      Delivers (· ∈ operation.offered) view pool (q, []) := Edits.delivers
  cases operation with
  | accept now tx => exact edited ((accept_offer pool now tx).edits Checking.records (mem_singleton_self tx))
  | acceptWithStandardPolicyDisabled now tx =>
    exact edited ((acceptWithStandardPolicyDisabled_offer pool now tx).edits Checking.records (mem_singleton_self tx))
  | acceptPackage now txs =>
    refine edited (q := (pool.acceptPackage view now txs).2) ?_
    rcases acceptPackage_staged pool view now txs with same | ⟨staged, offers, -, out⟩
    · rw [same]
    · exact (offers.before out).edits Ordinary.records fun _ member => member
  | restore now queue =>
    refine edited (((restore_offers pool now queue).edits Restoring.records fun tx member => ?_).tail .rebuild)
    exact mem_reverse.mp (mem_filter.mp member).1
  | remove txid => exact edited (.single (.leave (.remove txid true)))
  | removeRecursive txid => exact edited (withdraws_removeRecursive pool txid).edits
  | removeConfirmed now block => exact edited (leaves_removeConfirmed pool now block).edits
  | removeConflicts block => exact edited (withdraws_removeConflicts pool block).edits
  | removeForReorg => exact edited (withdraws_removeForReorg pool view).edits
  | clearExpired now age => exact edited (withdraws_clearExpired pool now age).edits
  | revalidate now => exact absurd rfl (other now)
  | reconcile now activated disconnected manualInvalidation =>
    exact reconcile_delivers pool now activated disconnected manualInvalidation
  | enforceSizeLimit => exact edited (withdraws_enforceSizeLimit pool).edits
  | setMaxBytes maxBytes => exact edited (tuned_maxBytes pool _).edits
  | prioritise txid feeDelta => exact edited (tuned_prioritise pool txid feeDelta).edits
  | addUnbroadcast txid => exact edited (tuned_addUnbroadcast pool txid).edits
  | removeUnbroadcast txid => exact edited (tuned_removeUnbroadcast pool txid).edits
  | load now expiry options saved deltas unbroadcast =>
    obtain ⟨loaded, same, offers⟩ : ∃ loaded, pool.load view now expiry options saved deltas unbroadcast = _ ∧
      Offers Checking view _ _ _ := load_offers pool now expiry options saved deltas unbroadcast
    refine edited (q := pool.load view now expiry options saved deltas unbroadcast) ?_
    rw [same]
    exact (offers.edits Checking.records fun _ member => member).tail .rebuild
  | takeChanges => exact fun handed => .single (.take pool handed)

/-! ### Upkeep -/

/-- The operations that leave no entry without the entries it spends. -/
def Operation.maintains : Operation → Bool
  | .restore _ _ | .remove _ | .removeConfirmed _ _ | .revalidate _ | .reconcile _ _ _ _ => false
  | _ => true

section
variable {P : Mempool → Prop} {operation : Operation} (upkeep : operation.maintains = true)
  (out : ∀ p q, P p → Withdraws p q → P q) (rebuild : ∀ p, P p → P p.rebuildChildrenIndex)
  (log : ∀ p, P p → P { p with changes := [] }) (before : P pool)
include upkeep out rebuild log before

theorem perform_checks (offer : ∀ tx ∈ operation.offered, ∀ p q, P p → Offer Checking view tx p q → P q)
    (package : ∀ now txs, operation = .acceptPackage now txs → P (pool.acceptPackage view now txs).2) :
    P (pool.perform ⟨view, operation⟩).1 := by
  have tuned : ∀ {p q}, P p → Tuned p q → P q := fun before tuned => out _ _ before (.tuned tuned)
  cases operation with
  | accept now tx => exact offer tx (mem_singleton_self tx) _ _ before (accept_offer pool now tx)
  | acceptWithStandardPolicyDisabled now tx =>
    exact offer tx (mem_singleton_self tx) _ _ before (acceptWithStandardPolicyDisabled_offer pool now tx)
  | acceptPackage now txs => exact package now txs rfl
  | removeRecursive txid => exact out _ _ before (withdraws_removeRecursive pool txid)
  | removeConflicts block => exact out _ _ before (withdraws_removeConflicts pool block)
  | removeForReorg => exact out _ _ before (withdraws_removeForReorg pool view)
  | clearExpired now age => exact out _ _ before (withdraws_clearExpired pool now age)
  | enforceSizeLimit => exact out _ _ before (withdraws_enforceSizeLimit pool)
  | setMaxBytes maxBytes => exact tuned before (tuned_maxBytes pool _)
  | prioritise txid feeDelta => exact tuned before (tuned_prioritise pool txid feeDelta)
  | addUnbroadcast txid => exact tuned before (tuned_addUnbroadcast pool txid)
  | removeUnbroadcast txid => exact tuned before (tuned_removeUnbroadcast pool txid)
  | takeChanges => exact log pool before
  | load now expiry options saved deltas unbroadcast =>
    obtain ⟨loaded, same, each⟩ : ∃ loaded, pool.load view now expiry options saved deltas unbroadcast = _ ∧
      Offers Checking view _ _ _ := load_offers pool now expiry options saved deltas unbroadcast
    show P (pool.load view now expiry options saved deltas unbroadcast)
    rw [same]
    exact rebuild loaded (each.maintains out offer before)
  | restore | remove | removeConfirmed | revalidate | reconcile => cases upkeep

theorem perform_maintains (offer : ∀ tx ∈ operation.offered, ∀ p q, P p → Offer Ordinary view tx p q → P q) :
    P (pool.perform ⟨view, operation⟩).1 := by
  refine perform_checks upkeep out rebuild log before (fun tx listed p q holds one => offer tx listed p q holds one.ordinary) ?_
  rintro now txs rfl
  rcases acceptPackage_staged pool view now txs with same | ⟨staged, offers, -, trimmed⟩
  · rwa [same]
  · exact (offers.before trimmed).maintains out offer before

end

end Mempool

end BitcoindRs
