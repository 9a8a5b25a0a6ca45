import BitcoindRs.Chain.BlockIndex
import BitcoindRs.Data.MerkleTower

/-! Proofs of headers under a checkpoint. -/

namespace BitcoindRs
open Merkle List
variable [Library]

structure HeaderMerkleCache where
  checkpointHash : BlockHash
  checkpoint : ℕ
  levels : List (List BlockHash)

namespace HeaderMerkleCache
variable {hash : BlockHash} {checkpoint : ℕ} {hashes : List BlockHash} {cache : HeaderMerkleCache}

def buildLevels : ℕ → List BlockHash → List (List BlockHash)
  | 0, layer => [layer]
  | fuel + 1, layer =>
    if 1 < layer.length then layer :: buildLevels fuel (Merkle.layer hashPair layer) else [layer]

def fromHashes (checkpointHash : BlockHash) (checkpoint : ℕ) (hashes : List BlockHash) : Except Error HeaderMerkleCache :=
  if hashes = [] then .error (.message "cannot build an empty header proof")
  else .ok ⟨checkpointHash, checkpoint, buildLevels hashes.length hashes⟩

def appendHash (cache : HeaderMerkleCache) (hash : BlockHash) : HeaderMerkleCache where
  checkpointHash := hash
  checkpoint := min (cache.checkpoint + 1) (2 ^ 32 - 1)
  levels := match cache.levels with
    | [] => []
    | leaves :: uppers => (leaves ++ [hash]) :: extendAbove hashPair (leaves ++ [hash]) uppers

omit [Library] in
def proof (cache : HeaderMerkleCache) (height : ℕ) : Except Error (List BlockHash × BlockHash) :=
  match cache.levels with
  | [] => .error (.message "header merkle cache has no leaves")
  | leaves :: uppers =>
    if leaves.length ≤ height then .error (.message "header height exceeds checkpoint")
    else match (leaves :: uppers).getLast?.bind List.head? with
      | none => .error (.message "header merkle cache has no root")
      | some root => .ok (branch (leaves :: uppers) height, root)

def refresh (headers : List Header) (cache : Option HeaderMerkleCache) (checkpoint : ℕ) (checkpointHash : BlockHash) :
    Except Error HeaderMerkleCache :=
  let build := fromHashes checkpointHash checkpoint ((headers.take (checkpoint + 1)).map blockHash)
  match cache with
  | none => build
  | some cached =>
    let canExtend := cached.checkpoint < checkpoint ∧
      headers[cached.checkpoint]?.map blockHash = some cached.checkpointHash
    let reuse := cached.checkpoint = checkpoint ∧ cached.checkpointHash = checkpointHash
    if ¬ reuse ∧ ¬ canExtend then build
    else if canExtend then
      .ok (((headers.drop (cached.checkpoint + 1)).take (checkpoint - cached.checkpoint)).foldl
        (fun cache header => cache.appendHash (blockHash header)) cached)
    else .ok cached

def headerMerkleProof (headers : List Header) (cache : Option HeaderMerkleCache) (height checkpoint : ℕ) :
    Except Error (List BlockHash × BlockHash) × Option HeaderMerkleCache :=
  if checkpoint < height then (.error (.message "checkpoint height must not precede requested height"), cache)
  else match headers[checkpoint]? with
    | none => (.error (.message "checkpoint height out of range"), cache)
    | some header => match refresh headers cache checkpoint (blockHash header) with
      | .error error => (.error error, cache)
      | .ok fresh => (fresh.proof height, some fresh)

theorem buildLevels_tower {fuel : ℕ} {hashes : List BlockHash} (some_ : 0 < hashes.length) (enough : hashes.length ≤ fuel + 1) :
    ∃ uppers, buildLevels fuel hashes = hashes :: uppers ∧ IsTower hashPair (hashes :: uppers) := by
  induction fuel generalizing hashes with
  | zero => exact ⟨[], rfl, by show hashes.length = 1; omega⟩
  | succ fuel ih =>
    rw [buildLevels]
    split
    · rename_i several
      have length := @length_layer _ hashPair hashes
      obtain ⟨uppers, built, tower⟩ := @ih (layer hashPair hashes) (by omega) (by omega)
      exact ⟨layer hashPair hashes :: uppers, by rw [built], several, rfl, tower⟩
    · exact ⟨[], rfl, by show hashes.length = 1; omega⟩

theorem fromHashes_ok (built : fromHashes hash checkpoint hashes = .ok cache) :
    cache.checkpointHash = hash ∧ cache.checkpoint = checkpoint ∧
      ∃ uppers, cache.levels = hashes :: uppers ∧ IsTower hashPair (hashes :: uppers) := by
  unfold fromHashes at built
  split at built
  · cases built
  · rename_i some_
    cases built
    exact ⟨rfl, rfl, buildLevels_tower (length_pos_of_ne_nil some_) (Nat.le_succ _)⟩

theorem appendHash_eq (next : BlockHash)
    (small : checkpoint + 1 < 2 ^ 32) (built : fromHashes hash checkpoint hashes = .ok cache) :
    fromHashes next (checkpoint + 1) (hashes ++ [next]) = .ok (cache.appendHash next) := by
  obtain ⟨-, counted, uppers, levels, tower⟩ := fromHashes_ok built
  have some_ : 0 < hashes.length := by
    cases uppers with
    | nil =>
      have single : hashes.length = 1 := tower
      omega
    | cons upper uppers => exact Nat.zero_lt_of_lt tower.1
  have grows : Grows hashes (hashes ++ [next]) := by
    refine ⟨?_, some_, by simp, by simp⟩
    rw [length_append, length_singleton, Nat.add_sub_cancel, take_append_of_le_length le_rfl]
  have extended := extendAbove_tower tower grows (by rw [length_append, length_singleton]; omega)
  obtain ⟨whole, complete, again⟩ := @buildLevels_tower _ (hashes ++ [next]).length (hashes ++ [next]) (by simp) (Nat.le_succ _)
  rw [fromHashes, if_neg (by simp), complete, again.unique extended, appendHash, levels, counted,
    min_eq_left (by omega)]

section requests
variable {world : Set Header} {genesis : BlockHash} {chain other : ActiveChain}
variable {checkpoint height : ℕ} {hash : BlockHash} {cache : HeaderMerkleCache} {hashes : List BlockHash}

variable (collisionFree : Set.InjOn blockHash world)

include collisionFree in
/-- Two chains that have the same block at a height have the same blocks below it. -/
theorem take_eq_of_hash (left : chain.Linked world genesis)
    (right : other.Linked world genesis) {i : ℕ} (here : chain.hashes[i]? = some hash)
    (there : other.hashes[i]? = some hash) : chain.hashes.take (i + 1) = other.hashes.take (i + 1) := by
  induction i generalizing hash with
  | zero => rw [take_add_one, take_add_one, here, there, take_zero, take_zero]
  | succ i ih =>
    obtain ⟨header, listed, hashed⟩ : ∃ header, chain.headers[i + 1]? = some header ∧ blockHash header = hash := by
      rw [left.hashed, getElem?_map] at here
      exact Option.map_eq_some_iff.mp here
    obtain ⟨header', listed', hashed'⟩ : ∃ header, other.headers[i + 1]? = some header ∧ blockHash header = hash := by
      rw [right.hashed, getElem?_map] at there
      exact Option.map_eq_some_iff.mp there
    obtain rfl := collisionFree (left.world _ (mem_of_getElem? listed)) (right.world _ (mem_of_getElem? listed'))
      (hashed.trans hashed'.symm)
    have below := ih (left.linked i _ listed) (right.linked i _ listed')
    rw [take_add_one (i := i + 1), here, take_add_one (i := i + 1), there, below]

def Exact (world : Set Header) (genesis : BlockHash) (cache : HeaderMerkleCache) : Prop :=
  cache.checkpoint < 2 ^ 32 ∧ ∃ chain : ActiveChain, chain.Linked world genesis ∧
    chain.hashes[cache.checkpoint]? = some cache.checkpointHash ∧
    fromHashes cache.checkpointHash cache.checkpoint (chain.hashes.take (cache.checkpoint + 1)) = .ok cache

include collisionFree in
theorem Exact.rebuild (exact_ : Exact world genesis cache) (linked : chain.Linked world genesis)
    (here : chain.hashes[cache.checkpoint]? = some cache.checkpointHash) :
    fromHashes cache.checkpointHash cache.checkpoint (chain.hashes.take (cache.checkpoint + 1)) = .ok cache := by
  obtain ⟨-, other, linkedOther, there, built⟩ := exact_
  rw [take_eq_of_hash collisionFree linked linkedOther here there]
  exact built

theorem foldl_appendHash (headers : List Header) (small : checkpoint + headers.length < 2 ^ 32)
    (built : fromHashes hash checkpoint hashes = .ok cache) :
    fromHashes ((headers.map blockHash).getLastD hash) (checkpoint + headers.length)
      (hashes ++ headers.map blockHash) = .ok (headers.foldl (fun cache header => cache.appendHash (blockHash header)) cache) := by
  induction headers generalizing hash checkpoint hashes cache with
  | nil => simpa using built
  | cons header headers ih =>
    rw [length_cons] at small
    have rest := ih (by omega) (appendHash_eq (blockHash header) (show checkpoint + 1 < 2 ^ 32 by omega) built)
    rw [append_assoc, singleton_append] at rest
    rw [length_cons, show checkpoint + (headers.length + 1) = checkpoint + 1 + headers.length by omega, map_cons,
      getLastD_cons]
    exact rest

include collisionFree in
theorem refresh_eq (linked : chain.Linked world genesis)
    {cache : Option HeaderMerkleCache} (exact_ : ∀ cached, cache = some cached → Exact world genesis cached)
    {header : Header} (listed : chain.headers[checkpoint]? = some header) (small : checkpoint < 2 ^ 32) :
    ∃ fresh, refresh chain.headers cache checkpoint (blockHash header) = .ok fresh ∧
      refresh chain.headers none checkpoint (blockHash header) = .ok fresh ∧ Exact world genesis fresh := by
  have inside := (List.getElem?_eq_some_iff.mp listed).1
  have hashes : chain.hashes[checkpoint]? = some (blockHash header) := by
    rw [linked.hashed, getElem?_map, listed, Option.map_some]
  have taken : (chain.headers.take (checkpoint + 1)).map blockHash = chain.hashes.take (checkpoint + 1) := by
    rw [linked.hashed, map_take]
  obtain ⟨fresh, built⟩ : ∃ fresh, fromHashes (blockHash header) checkpoint (chain.hashes.take (checkpoint + 1)) = .ok fresh := by
    refine ⟨_, if_neg fun nothing => ?_⟩
    have length := congrArg List.length (taken.trans nothing)
    simp only [length_map, length_take, length_nil] at length
    omega
  obtain ⟨sameHash, sameHeight, -⟩ := fromHashes_ok built
  have good : Exact world genesis fresh := by
    refine ⟨sameHeight ▸ small, chain, linked, ?_, ?_⟩ <;> rw [sameHash, sameHeight]
    · exact hashes
    · exact built
  have scratch : refresh chain.headers none checkpoint (blockHash header) = .ok fresh := by
    rw [refresh, taken]
    exact built
  refine ⟨fresh, ?_, scratch, good⟩
  cases cache with
  | none => exact scratch
  | some cached =>
    have cachedExact := exact_ cached rfl
    rw [refresh, taken]
    split
    · exact built
    · rename_i usable
      split
      · rename_i canExtend
        obtain ⟨below, there⟩ := canExtend
        rw [← getElem?_map, ← linked.hashed] at there
        have length : ((chain.headers.drop (cached.checkpoint + 1)).take (checkpoint - cached.checkpoint)).length =
            checkpoint - cached.checkpoint := by
          rw [length_take, length_drop]
          omega
        have extended := foldl_appendHash
          ((chain.headers.drop (cached.checkpoint + 1)).take (checkpoint - cached.checkpoint)) (by omega)
          (cachedExact.rebuild collisionFree linked there)
        have whole : chain.hashes.take (cached.checkpoint + 1) ++
            ((chain.headers.drop (cached.checkpoint + 1)).take (checkpoint - cached.checkpoint)).map blockHash =
            chain.hashes.take (checkpoint + 1) := by
          rw [map_take, map_drop, ← linked.hashed, ← take_add]
          congr 1
          omega
        have last : (((chain.headers.drop (cached.checkpoint + 1)).take (checkpoint - cached.checkpoint)).map
            blockHash).getLastD cached.checkpointHash = blockHash header := by
          rw [getLastD_eq_getLast?, getLast?_eq_getElem?, length_map, length, getElem?_map,
            getElem?_take_of_lt (by omega), getElem?_drop,
            show cached.checkpoint + 1 + (checkpoint - cached.checkpoint - 1) = checkpoint by omega, listed]
          rfl
        rw [length, show cached.checkpoint + (checkpoint - cached.checkpoint) = checkpoint by omega, whole, last, built] at extended
        exact extended.symm
      · rename_i short
        have reuse : cached.checkpoint = checkpoint ∧ cached.checkpointHash = blockHash header := by
          by_contra other
          exact usable ⟨other, short⟩
        have again := cachedExact.rebuild collisionFree linked (by rw [reuse.1, reuse.2]; exact hashes)
        rw [reuse.1, reuse.2, built] at again
        exact again.symm

theorem proof_ascends
    {leaf : BlockHash} (built : fromHashes hash checkpoint hashes = .ok cache) (listed : hashes[height]? = some leaf) :
    ∃ branch root, cache.proof height = .ok (branch, root) ∧ ascend hashPair leaf height branch = root := by
  obtain ⟨-, -, uppers, levels, tower⟩ := fromHashes_ok built
  have inside := (List.getElem?_eq_some_iff.mp listed).1
  rw [proof, levels]
  dsimp only
  rw [if_neg (by omega), ascend_branch tower listed]
  exact ⟨_, _, rfl, rfl⟩

/-- A request while a chain is the active one. -/
structure Request where
  chain : ActiveChain
  height : ℕ
  checkpoint : ℕ

def answers (cache : Option HeaderMerkleCache) : List Request → List (Except Error (List BlockHash × BlockHash))
  | [] => []
  | request :: rest =>
    let answer := headerMerkleProof request.chain.headers cache request.height request.checkpoint
    answer.1 :: answers answer.2 rest

def Request.scratch (request : Request) : Except Error (List BlockHash × BlockHash) :=
  (headerMerkleProof request.chain.headers none request.height request.checkpoint).1

include collisionFree in
theorem headerMerkleProof_eq (linked : chain.Linked world genesis)
    {cache : Option HeaderMerkleCache} (exact_ : ∀ cached, cache = some cached → Exact world genesis cached)
     (small : checkpoint < 2 ^ 32) :
    (headerMerkleProof chain.headers cache height checkpoint).1 = (headerMerkleProof chain.headers none height checkpoint).1 ∧
    ∀ cached, (headerMerkleProof chain.headers cache height checkpoint).2 = some cached → Exact world genesis cached := by
  unfold headerMerkleProof
  split
  · exact ⟨rfl, exact_⟩
  · rcases listed : chain.headers[checkpoint]? with _ | header
    · exact ⟨rfl, exact_⟩
    · obtain ⟨fresh, kept, scratch, good⟩ := refresh_eq collisionFree linked exact_ listed small
      dsimp only
      rw [kept, scratch]
      refine ⟨rfl, ?_⟩
      rintro cached same
      cases same
      exact good

include collisionFree in
theorem answers_eq {cache : Option HeaderMerkleCache}
    (exact_ : ∀ cached, cache = some cached → Exact world genesis cached) {requests : List Request}
    (linked : ∀ request ∈ requests, request.chain.Linked world genesis ∧ request.checkpoint < 2 ^ 32) :
    answers cache requests = requests.map Request.scratch := by
  induction requests generalizing cache with
  | nil => rfl
  | cons request rest ih =>
    obtain ⟨chained, small⟩ := linked request mem_cons_self
    obtain ⟨same, kept⟩ := headerMerkleProof_eq collisionFree chained exact_ small
    rw [answers, map_cons, ih kept fun later member => linked later (mem_cons_of_mem _ member)]
    exact congrArg (· :: _) same

theorem scratch_ascends {request : Request} (below : request.height ≤ request.checkpoint)
    (inside : request.checkpoint < request.chain.headers.length) :
    ∃ branch root header, request.scratch = .ok (branch, root) ∧ request.chain.headers[request.height]? = some header ∧
      ascend hashPair (blockHash header) request.height branch = root := by
  obtain ⟨header, listed⟩ : ∃ header, request.chain.headers[request.height]? = some header :=
    ⟨_, getElem?_eq_getElem (by omega)⟩
  have leaf : ((request.chain.headers.take (request.checkpoint + 1)).map blockHash)[request.height]? =
      some (blockHash header) := by
    rw [getElem?_map, getElem?_take_of_lt (by omega), listed, Option.map_some]
  have some_ : (request.chain.headers.take (request.checkpoint + 1)).map blockHash ≠ [] := by
    intro nothing
    rw [nothing] at leaf
    cases leaf
  obtain ⟨branch, root, proved, climbs⟩ := proof_ascends (if_neg some_) leaf
  refine ⟨branch, root, header, ?_, listed, climbs⟩
  rw [Request.scratch, headerMerkleProof, if_neg (by omega), getElem?_eq_getElem inside]
  dsimp only
  rw [refresh, fromHashes, if_neg some_]
  exact proved

end requests

/-- Heights are `u32`. The chain may be another one at each request, as long as it is linked. -/
theorem header_merkle_cache_exact {world : Set Header} (genesis : BlockHash) (collisionFree : Set.InjOn blockHash world) :
    (∀ hash checkpoint hashes cache next, checkpoint + 1 < 2 ^ 32 → fromHashes hash checkpoint hashes = .ok cache →
      fromHashes next (checkpoint + 1) (hashes ++ [next]) = .ok (cache.appendHash next)) ∧
    ∀ requests : List Request, (∀ request ∈ requests, request.chain.Linked world genesis ∧ request.checkpoint < 2 ^ 32) →
      answers none requests = requests.map Request.scratch ∧
      ∀ request ∈ requests, request.height ≤ request.checkpoint → request.checkpoint < request.chain.headers.length →
        ∃ branch root header, request.scratch = .ok (branch, root) ∧ request.chain.headers[request.height]? = some header ∧
          ascend hashPair (blockHash header) request.height branch = root := by
  refine ⟨?_, ?_⟩
  · intro hash checkpoint hashes cache next small built
    exact appendHash_eq next small built
  · intro requests linked
    refine ⟨answers_eq collisionFree (fun cached nothing => by cases nothing) linked, ?_⟩
    intro request member below inside
    exact scratch_ascends below inside

def sampleChain (fork : ℕ) : ActiveChain where
  hashes := [0, fork]
  headers := [⟨1, 0, 0, 0, 0, 0⟩, ⟨1, 0, 0, 1, 0, fork⟩]
  txCounts := []
  txTotals := []

omit [Library] in
/-- A proof at genesis, one at height 1, and one after another block has taken its place. -/
theorem header_merkle_cache_reorg : let _ := Library.sample
    let requests : List Request := [⟨sampleChain 1, 0, 0⟩, ⟨sampleChain 1, 0, 1⟩, ⟨sampleChain 2, 0, 1⟩]
    answers none requests = requests.map Request.scratch ∧ requests.map Request.scratch =
      [.ok ([], 0), .ok ([1], 1), .ok ([2], 2)] := by
  intro _ requests
  let headers : List Header := [⟨1, 0, 0, 0, 0, 0⟩, ⟨1, 0, 0, 1, 0, 1⟩, ⟨1, 0, 0, 1, 0, 2⟩]
  have distinct : ∀ a ∈ headers, ∀ b ∈ headers, a.nonce = b.nonce → a = b := by decide
  have collisionFree : Set.InjOn blockHash {header | header ∈ headers} := fun a left b right => distinct a left b right
  have linked : ∀ fork ∈ [1, 2], (sampleChain fork).Linked {header | header ∈ headers} 0 := by
    intro fork member
    refine ⟨rfl, ?_, ?_, ?_⟩
    · intro header listed
      rcases mem_pair.mp member with rfl | rfl <;> revert listed <;> revert header <;> decide
    · intro i hash listed
      match i, listed with
      | 0, listed => exact ⟨fun _ => (Option.some.inj listed).symm, fun _ => rfl⟩
      | 1, listed =>
        cases listed
        rcases mem_pair.mp member with rfl | rfl <;> decide
    · intro i header listed
      match i, listed with
      | 0, listed =>
        cases listed
        rfl
  refine ⟨((header_merkle_cache_exact 0 collisionFree).2 requests ?_).1, by decide +kernel⟩
  intro request member
  have forks : ∃ fork ∈ [1, 2], request.chain = sampleChain fork ∧ request.checkpoint ≤ 1 := by
    simp only [requests, mem_cons, not_mem_nil, or_false] at member
    rcases member with rfl | rfl | rfl <;> simp
  obtain ⟨fork, listed, same, small⟩ := forks
  rw [same]
  exact ⟨linked fork listed, by omega⟩

end HeaderMerkleCache

end BitcoindRs
