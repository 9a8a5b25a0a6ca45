import BitcoindRs.Mempool.Confirmed

/-! The order of the transactions of disconnected blocks. -/

namespace BitcoindRs
open Checked List
variable [Library] [PolicyLibrary]

namespace DisconnectedTransactionPool
variable {queue : DisconnectedTransactionPool} {chain : List Block} {line transactions txs : List Transaction} {block : Block}

def usage (transactions : List Transaction) : ℕ := (transactions.map disconnectedTransactionMemoryUsage).sum

theorem foldl_queue_eq (exact_ : queue.Exact)
    (distinct : ((queue.transactions ++ txs).map Transaction.computeTxid).Nodup) (fits : queue.memoryUsage + usage txs < u64Bound) :
    (txs.foldl DisconnectedTransactionPool.queue queue).transactions = queue.transactions ++ txs ∧
      (txs.foldl DisconnectedTransactionPool.queue queue).memoryUsage = queue.memoryUsage + usage txs := by
  induction txs generalizing queue with
  | nil => simp [usage]
  | cons tx txs ih =>
    have fresh : tx.computeTxid ∉ queue.txids := by
      rw [exact_.txids]
      intro listed
      rw [map_append, map_cons] at distinct
      exact (nodup_append.mp distinct).2.2 _ listed _ mem_cons_self rfl
    have sum : usage (tx :: txs) = disconnectedTransactionMemoryUsage tx + usage txs := by simp [usage]
    have one : queue.queue tx = ⟨queue.transactions ++ [tx], insert tx.computeTxid queue.txids,
        queue.memoryUsage + disconnectedTransactionMemoryUsage tx⟩ := by
      rw [DisconnectedTransactionPool.queue, if_neg fresh, usize, Nat.min_eq_left (by rw [usizeMax]; omega)]
    obtain ⟨listed, memory⟩ := @ih (queue.queue tx) (exact_.queue tx) (by rw [one]; simpa using distinct) (by
      rw [one]
      dsimp only
      omega)
    rw [foldl_cons, listed, memory, one, sum]
    exact ⟨append_assoc _ _ _, Nat.add_assoc _ _ _⟩

/-- What leaves is the front of the queue, and the memory of the rest is left. -/
theorem trim_eq (transactions : List Transaction) (txids : Finset Txid) :
    (trim transactions txids (usage transactions)).1 ++ (trim transactions txids (usage transactions)).2.transactions = transactions ∧
      (trim transactions txids (usage transactions)).2.memoryUsage =
        usage (trim transactions txids (usage transactions)).2.transactions := by
  induction transactions generalizing txids with
  | nil => exact ⟨rfl, rfl⟩
  | cons tx rest ih =>
    have less : usage (tx :: rest) - disconnectedTransactionMemoryUsage tx = usage rest := by simp [usage]
    rw [trim]
    split
    · exact ⟨rfl, rfl⟩
    · rw [less]
      obtain ⟨listed, memory⟩ := ih (txids.erase tx.computeTxid)
      exact ⟨congrArg (tx :: ·) listed, memory⟩

omit [PolicyLibrary] in
theorem eraseP_eq_filter {txid : Txid} (distinct : (transactions.map Transaction.computeTxid).Nodup) :
    transactions.eraseP (·.computeTxid = txid) = transactions.filter (·.computeTxid ≠ txid) := by
  induction transactions with
  | nil => rfl
  | cons tx rest ih =>
    rw [map_cons, nodup_cons] at distinct
    by_cases same : tx.computeTxid = txid
    · rw [eraseP_cons_of_pos (by simpa using same), filter_cons_of_neg (by simpa using same), filter_eq_self.mpr]
      intro other member
      exact decide_eq_true fun equal => distinct.1 (same ▸ equal ▸ mem_map_of_mem member)
    · rw [eraseP_cons_of_neg (by simpa using same), filter_cons_of_pos (by simpa using same), ih distinct.2]

theorem removeTransaction_eq (exact_ : queue.Exact) (memory : queue.memoryUsage = usage queue.transactions) (tx : Transaction) :
    (queue.removeTransaction tx).transactions = queue.transactions.filter (·.computeTxid ≠ tx.computeTxid) ∧
      (queue.removeTransaction tx).memoryUsage = usage (queue.removeTransaction tx).transactions := by
  unfold removeTransaction
  by_cases queued : tx.computeTxid ∈ queue.txids
  · rw [if_pos queued]
    obtain ⟨found, listed, same⟩ := mem_map.mp ((exact_.txids _).mp queued)
    dsimp only
    split
    · rename_i search
      exact absurd (decide_eq_true same) (find?_eq_none.mp search found listed)
    · rename_i removed search
      obtain ⟨equal, before, after, parts, apart⟩ := find?_eq_some_iff_append.mp search
      refine ⟨eraseP_eq_filter exact_.distinct, ?_⟩
      rw [memory, parts, eraseP_append_right _ fun other member => by simpa using apart other member,
        eraseP_cons_of_pos (p := fun other : Transaction => other.computeTxid = tx.computeTxid) equal]
      simp only [usage, map_append, map_cons, sum_append, sum_cons]
      omega
  · rw [if_neg queued]
    refine ⟨(filter_eq_self.mpr fun other member => ?_).symm, memory⟩
    rw [decide_eq_true_eq]
    intro same
    rw [exact_.txids, ← same] at queued
    exact queued (mem_map_of_mem member)

theorem foldl_removeTransaction_eq (exact_ : queue.Exact) (memory : queue.memoryUsage = usage queue.transactions) :
    (txs.foldl removeTransaction queue).Exact ∧
      (txs.foldl removeTransaction queue).transactions =
        queue.transactions.filter (fun tx => tx.computeTxid ∉ txs.map Transaction.computeTxid) ∧
      (txs.foldl removeTransaction queue).memoryUsage = usage (txs.foldl removeTransaction queue).transactions := by
  induction txs generalizing queue with
  | nil => exact ⟨exact_, by simp, memory⟩
  | cons tx txs ih =>
    obtain ⟨filtered, left⟩ := removeTransaction_eq exact_ memory tx
    obtain ⟨after, rest, total⟩ := ih (exact_.removeTransaction tx).1 left
    refine ⟨after, ?_, total⟩
    rw [foldl_cons, rest, filtered, filter_filter]
    refine filter_congr fun other _ => ?_
    simp [Bool.and_comm]

/-- A transaction that is no coinbase spends an output of another. -/
def Spends (child parent : Transaction) : Prop :=
  child.isCoinbase = false ∧ parent.computeTxid ∈ child.prevouts.map OutPoint.txid

def chainTransactions (chain : List Block) : List Transaction := chain.flatMap Block.txdata

/-- Every input of a transaction comes from an earlier transaction of the chain, and no two have the same txid. -/
structure Ordered (chain : List Block) : Prop where
  distinct : ((chainTransactions chain).map Transaction.computeTxid).Nodup
  parents : ∀ before tx after, chainTransactions chain = before ++ tx :: after → tx.isCoinbase = false →
    ∀ o ∈ tx.prevouts, o.txid ∈ before.map Transaction.computeTxid

/-- The active chain, the transactions that have left it and not come back, in the order of the chain they left, and the
queue, as blocks are disconnected from the tip and others are connected. -/
inductive Reached : List Block → List Transaction → DisconnectedTransactionPool → Prop
  | start {chain : List Block} (ordered : Ordered chain) : Reached chain [] {}
  | disconnect {chain : List Block} {block : Block} {line : List Transaction} {queue : DisconnectedTransactionPool}
      (before : Reached (chain ++ [block]) line queue) (fits : queue.memoryUsage + usage block.txdata < u64Bound) :
      Reached chain (block.txdata ++ line) (queue.addBlock block).2
  | connect {chain : List Block} {block : Block} {line : List Transaction} {queue : DisconnectedTransactionPool}
      (before : Reached chain line queue) (ordered : Ordered (chain ++ [block])) :
      Reached (chain ++ [block]) (line.filter fun tx => tx.computeTxid ∉ block.txdata.map Transaction.computeTxid)
        (queue.removeForBlock block)

omit [PolicyLibrary] in
theorem Ordered.not_spends (ordered : Ordered chain) :
    (chainTransactions chain).Pairwise fun earlier later => ¬Spends earlier later := by
  have loop : ∀ before rest, chainTransactions chain = before ++ rest → rest.Pairwise fun earlier later => ¬Spends earlier later := by
    intro before rest parts
    induction rest generalizing before with
    | nil => exact .nil
    | cons tx rest ih =>
      refine .cons (fun later member => ?_) (ih (before ++ [tx]) (by simp [parts]))
      rintro ⟨spending, spent⟩
      obtain ⟨o, listed, same⟩ := mem_map.mp spent
      have earlier := ordered.parents before tx rest parts spending o listed
      have distinct := ordered.distinct
      rw [parts, map_append, nodup_append] at distinct
      rw [same] at earlier
      exact distinct.2.2 _ earlier _ (mem_map_of_mem (mem_cons_of_mem _ member)) rfl
  exact loop [] _ rfl

structure Kept (chain : List Block) (line : List Transaction) (queue : DisconnectedTransactionPool) : Prop where
  exact_ : queue.Exact
  memory : queue.memoryUsage = usage queue.transactions
  order : queue.takeOldestFirst <+: line
  distinct : ((chainTransactions chain ++ line).map Transaction.computeTxid).Nodup
  parents : (chainTransactions chain ++ line).Pairwise fun earlier later => ¬Spends earlier later

omit [Library] [PolicyLibrary] in
theorem chainTransactions_append (chain : List Block) (block : Block) :
    chainTransactions (chain ++ [block]) = chainTransactions chain ++ block.txdata := by
  simp [chainTransactions]

/-- The queue grows at its end, oldest first, and loses its front. -/
theorem addBlock_eq (exact_ : queue.Exact) (memory : queue.memoryUsage = usage queue.transactions)
    (distinct : ((block.txdata ++ queue.takeOldestFirst).map Transaction.computeTxid).Nodup)
    (fits : queue.memoryUsage + usage block.txdata < u64Bound) :
    (queue.addBlock block).2.takeOldestFirst ++ (queue.addBlock block).1.reverse = block.txdata ++ queue.takeOldestFirst ∧
      (queue.addBlock block).2.memoryUsage = usage (queue.addBlock block).2.transactions := by
  have same : usage block.txdata.reverse = usage block.txdata := by simp [usage, map_reverse, sum_reverse]
  obtain ⟨listed, total⟩ := @foldl_queue_eq _ _ queue block.txdata.reverse exact_ (by
    rw [← nodup_reverse, ← map_reverse]
    simpa [takeOldestFirst] using distinct) (by rwa [same])
  have sum : (block.txdata.reverse.foldl DisconnectedTransactionPool.queue queue).memoryUsage =
      usage (block.txdata.reverse.foldl DisconnectedTransactionPool.queue queue).transactions := by
    rw [total, listed, memory]
    simp [usage]
  unfold addBlock
  dsimp only
  rw [sum]
  obtain ⟨parts, left⟩ := trim_eq (block.txdata.reverse.foldl DisconnectedTransactionPool.queue queue).transactions
    (block.txdata.reverse.foldl DisconnectedTransactionPool.queue queue).txids
  refine ⟨?_, left⟩
  rw [takeOldestFirst, ← reverse_append, parts, listed, reverse_append, reverse_reverse, takeOldestFirst]

theorem Reached.kept (reached : Reached chain line queue) : Kept chain line queue := by
  induction reached with
  | start ordered =>
    exact ⟨⟨nodup_nil, fun _ => by simp⟩, rfl, nil_prefix, by simpa using ordered.distinct, by simpa using ordered.not_spends⟩
  | @disconnect chain block line queue before fits ih =>
    obtain ⟨exact_, memory, order, distinct, parents⟩ := ih
    rw [chainTransactions_append, append_assoc] at distinct parents
    have own : ((block.txdata ++ queue.takeOldestFirst).map Transaction.computeTxid).Nodup := by
      refine List.Nodup.sublist ?_ (List.Nodup.of_append_right (map_append ▸ distinct))
      exact ((List.Sublist.refl _).append order.sublist).map _
    obtain ⟨parts, left⟩ := addBlock_eq exact_ memory own fits
    refine ⟨exact_.addBlock block, left, ?_, distinct, parents⟩
    exact (prefix_append _ _).trans (parts ▸ (prefix_append_right_inj _).mpr order)
  | @connect chain block line queue before ordered ih =>
    obtain ⟨exact_, memory, order, distinct, parents⟩ := ih
    obtain ⟨after, filtered, left⟩ := @foldl_removeTransaction_eq _ _ queue block.txdata exact_ memory
    have disjoint : ∀ txid ∈ (chainTransactions (chain ++ [block])).map Transaction.computeTxid, ∀ tx ∈ line,
        tx.computeTxid ∉ block.txdata.map Transaction.computeTxid → txid ≠ tx.computeTxid := by
      intro txid listed tx left outside same
      rw [chainTransactions_append, map_append, mem_append] at listed
      rcases listed with below | new
      · rw [map_append, nodup_append] at distinct
        exact distinct.2.2 _ below _ (mem_map_of_mem left) same
      · exact outside (same ▸ new)
    refine ⟨after, left, ?_, ?_, ?_⟩
    · rw [takeOldestFirst, removeForBlock, filtered, ← filter_reverse]
      exact order.filter _
    · rw [map_append, nodup_append]
      refine ⟨ordered.distinct, ?_, fun txid listed other kept => ?_⟩
      · exact (List.Nodup.of_append_right (map_append ▸ distinct)).sublist (filter_sublist.map _)
      · obtain ⟨tx, member, rfl⟩ := mem_map.mp kept
        obtain ⟨member, outside⟩ := mem_filter.mp member
        exact disjoint txid listed tx member (by simpa using outside)
    · rw [pairwise_append]
      refine ⟨ordered.not_spends, (pairwise_append.mp parents).2.1.sublist filter_sublist, ?_⟩
      intro child listed parent kept
      rintro ⟨spending, spent⟩
      obtain ⟨member, outside⟩ := mem_filter.mp kept
      obtain ⟨o, input, same⟩ := mem_map.mp spent
      obtain ⟨before, rest, parts⟩ := append_of_mem listed
      have earlier := ordered.parents before child rest parts spending o input
      refine disjoint o.txid ?_ parent member (by simpa using outside) same
      rw [parts, map_append]
      exact mem_append_left _ earlier

omit [Library] [PolicyLibrary]

end DisconnectedTransactionPool

end BitcoindRs
