import BitcoindRs.Mempool.Diagrams

/-! Chunking builds the least concave majorant of the prefix sums. -/

namespace BitcoindRs
open Checked Polyline List
variable {start txs : List FeeChunk} {fees sizes : ℕ} {groups : List (List FeeChunk)}

def chunkOf (group : List FeeChunk) : FeeChunk := (rise group, run group)

/-- A group of transactions none of whose prefixes pays more than the whole. -/
structure Chorded (group : List FeeChunk) : Prop where
  wide : 0 < run group
  below : ∀ start, start <+: group → (rise start : ℚ) ≤ rate (chunkOf group) * run start

variable {group left right : List FeeChunk}

theorem run_le_of_start (begins : start <+: group) : run start ≤ run group := by
  obtain ⟨rest, rfl⟩ := begins
  rw [run_append]
  omega

theorem prefix_append_cases (begins : start <+: left ++ right) :
    start <+: left ∨ ∃ rest, start = left ++ rest ∧ rest <+: right := by
  rcases prefix_or_prefix_of_prefix begins (prefix_append left right) with short | ⟨rest, rfl⟩
  · exact .inl short
  · exact .inr ⟨rest, rfl, (prefix_append_right_inj left).mp begins⟩

theorem Chorded.total (h : Chorded group) : rate (chunkOf group) * run group = rise group := rate_mul h.wide

/-- Two groups of which the second pays more make one: the chord of both is between the two. -/
theorem Chorded.append (h : Chorded left) (h' : Chorded right) (steeper : rate (chunkOf left) < rate (chunkOf right)) :
    Chorded (left ++ right) := by
  have wide := h.wide
  have wide' := h'.wide
  have whole := h.total
  have whole' := h'.total
  have both : rate (chunkOf (left ++ right)) * (run left + run right) = rise left + rise right := by
    have := @rate_mul (chunkOf (left ++ right)) (by simp [chunkOf]; omega)
    simpa [chunkOf] using this
  obtain ⟨c, chord⟩ : ∃ c, rate (chunkOf (left ++ right)) = c := ⟨_, rfl⟩
  have first : (0 : ℚ) < run left := by exact_mod_cast wide
  have second : (0 : ℚ) < run right := by exact_mod_cast wide'
  rw [chord] at both
  have low : rate (chunkOf left) ≤ c := by nlinarith
  have high : c ≤ rate (chunkOf right) := by nlinarith
  refine ⟨by simp; omega, ?_⟩
  intro start begins
  rw [chord]
  rcases prefix_append_cases begins with short | ⟨rest, rfl, inside⟩
  · exact (h.below start short).trans (mul_le_mul_of_nonneg_right low (by positivity))
  · have part := h'.below rest inside
    have left' : (run rest : ℚ) ≤ run right := by exact_mod_cast run_le_of_start inside
    have tail : c * (run right - run rest) ≤ rate (chunkOf right) * (run right - run rest) :=
      mul_le_mul_of_nonneg_right high (by linarith)
    push_cast [rise_append, run_append]
    linarith

theorem abs_rise_le (group : List FeeChunk) : |rise group| ≤ absFees group := by
  induction group with
  | nil => simp [rise, absFees]
  | cons chunk rest ih =>
    have triangle := abs_add_le chunk.1 (rise rest)
    rw [rise_cons, absFees, map_cons, sum_cons, ← absFees, Nat.cast_add, Int.natCast_natAbs]
    linarith

@[simp] theorem absFees_append (xs ys : List FeeChunk) : absFees (xs ++ ys) = absFees xs + absFees ys := by simp [absFees]

/-- Chunks of groups that lie in one list of transactions within the range. -/
theorem compareFeeRate_chunks (small : fees * sizes < 2 ^ 127) (h : Chorded left) (h' : Chorded right)
    (bounded : absFees left + absFees right ≤ fees) (narrow : run left + run right ≤ sizes) :
    compareFeeRate (chunkOf left).1 (chunkOf left).2 (chunkOf right).1 (chunkOf right).2 = .lt ↔
      rate (chunkOf left) < rate (chunkOf right) := by
  have product : ∀ {xs ys : List FeeChunk}, absFees xs ≤ fees → run ys ≤ sizes → |rise xs * run ys| < 2 ^ 127 := by
    intro xs ys few short
    rw [abs_mul, Nat.abs_cast]
    calc |rise xs| * run ys ≤ fees * sizes := by
          refine mul_le_mul ((abs_rise_le xs).trans ?_) ?_ (by positivity) (by positivity)
          · exact_mod_cast few
          · exact_mod_cast short
      _ < 2 ^ 127 := by exact_mod_cast small
  have first : (0 : ℚ) < run left := by exact_mod_cast h.wide
  have second : (0 : ℚ) < run right := by exact_mod_cast h'.wide
  simp only [chunkOf, rate]
  rw [compareFeeRate_eq h.wide h'.wide (product (by omega) (by omega)) (product (by omega) (by omega)), compare_lt_iff_lt,
    div_lt_div_iff₀ first second]
  exact_mod_cast Iff.rfl

/-- A stack of groups, the last one on top. -/
structure Stacked (groups : List (List FeeChunk)) (txs : List FeeChunk) : Prop where
  listed : groups.reverse.flatten = txs
  chorded : ∀ group ∈ groups, Chorded group
  falling : groups.Pairwise fun later earlier => rate (chunkOf later) ≤ rate (chunkOf earlier)

theorem Stacked.merge (h : Stacked groups txs)
    (chorded : Chorded group) (small : fees * sizes < 2 ^ 127) (fits : sizes < u64Bound)
    (bounded : absFees (txs ++ group) ≤ fees) (narrow : run (txs ++ group) ≤ sizes) :
    ∃ next, mergeChunk (chunkOf group) (groups.map chunkOf) = next.map chunkOf ∧ Stacked next (txs ++ group) := by
  induction groups generalizing txs group with
  | nil =>
    obtain rfl := h.listed
    exact ⟨[group], rfl, by simp, by simpa using chorded, pairwise_singleton _ _⟩
  | cons top groups ih =>
    obtain ⟨topChorded, restChorded⟩ := forall_mem_cons.mp h.chorded
    obtain ⟨topFalling, restFalling⟩ := pairwise_cons.mp h.falling
    have listed : groups.reverse.flatten ++ top = txs := by simpa using h.listed
    have bounded' := bounded
    have narrow' := narrow
    rw [← listed] at bounded' narrow'
    simp only [absFees_append, run_append] at bounded' narrow'
    have rates := compareFeeRate_chunks small topChorded chorded (by omega) (by omega)
    rw [map_cons, mergeChunk]
    split
    · rename_i less
      have steeper := rates.mp less
      have fee : satI128 ((chunkOf top).1 + (chunkOf group).1) = (chunkOf (top ++ group)).1 := by
        have first := abs_rise_le (top ++ group)
        have one : 1 ≤ sizes := by
          have := chorded.wide
          omega
        have few : fees < 2 ^ 127 := lt_of_le_of_lt (Nat.le_mul_of_pos_right _ one) small
        rw [absFees_append] at first
        simp only [chunkOf, ← rise_append]
        exact satI128_of_abs (lt_of_le_of_lt first (by exact_mod_cast lt_of_le_of_lt (by omega) few))
      have size : satAddU64 (chunkOf top).2 (chunkOf group).2 = (chunkOf (top ++ group)).2 := by
        simp only [chunkOf, run_append]
        exact satAddU64_of_lt (by omega)
      rw [fee, size]
      obtain ⟨next, merged, stacked⟩ := ih ⟨rfl, restChorded, restFalling⟩ (topChorded.append chorded steeper)
        (by simp only [absFees_append]; omega) (by simp only [run_append]; omega)
      rw [← append_assoc, listed] at stacked
      exact ⟨next, merged, stacked⟩
    · rename_i stays
      have flatter := not_lt.mp (mt rates.mpr stays)
      refine ⟨group :: top :: groups, rfl, by simp [← listed], ?_, ?_⟩
      · exact forall_mem_cons.mpr ⟨chorded, h.chorded⟩
      · refine pairwise_cons.mpr ⟨forall_mem_cons.mpr ⟨flatter, ?_⟩, h.falling⟩
        intro earlier member
        exact flatter.trans (topFalling earlier member)

/-- The chunks of a sequence of transactions, given by modified fee and size. -/
def chunksOf (txs : List FeeChunk) : List FeeChunk :=
  (txs.foldl (fun chunks tx => appendFeerateChunk chunks tx.1 tx.2) []).reverse

theorem chorded_single {tx : FeeChunk} (positive : 0 < tx.2) : Chorded [tx] := by
  refine ⟨by simpa [run] using positive, ?_⟩
  intro start begins
  have whole : chunkOf [tx] = tx := by simp [chunkOf, rise, run]
  rw [whole]
  rcases prefix_cons_iff.mp begins with rfl | ⟨rest, rfl, inside⟩
  · simp [rise, run]
  · rw [prefix_nil.mp inside]
    simpa [rise, run] using (rate_mul positive).ge

theorem chunksOf_stacked (positive : ∀ tx ∈ txs, 0 < tx.2) (small : absFees txs * run txs < 2 ^ 127)
    (fits : run txs < u64Bound) : ∃ groups, chunksOf txs = (groups.map chunkOf).reverse ∧ Stacked groups txs := by
  have general : ∀ rest passed groups, txs = passed ++ rest → Stacked groups passed → ∃ next,
      rest.foldl (fun chunks tx => appendFeerateChunk chunks tx.1 tx.2) (groups.map chunkOf) = next.map chunkOf ∧ Stacked next txs := by
    intro rest
    induction rest with
    | nil =>
      intro passed groups shape stacked
      rw [append_nil] at shape
      exact ⟨groups, rfl, shape ▸ stacked⟩
    | cons tx rest ih =>
      intro passed groups shape stacked
      have wide : 0 < tx.2 := positive tx (by rw [shape]; simp)
      have split : txs = passed ++ [tx] ++ rest := by simpa using shape
      have bounded : absFees (passed ++ [tx]) ≤ absFees txs := by
        rw [split, absFees_append _ rest]
        omega
      have narrow : run (passed ++ [tx]) ≤ run txs := by
        rw [split, run_append _ rest]
        omega
      obtain ⟨next, merged, stacked⟩ := stacked.merge (chorded_single wide) small fits bounded narrow
      have whole : chunkOf [tx] = tx := by simp [chunkOf, rise, run]
      rw [whole] at merged
      rw [foldl_cons, appendFeerateChunk, if_neg (by omega), merged]
      exact ih (passed ++ [tx]) next split stacked
  obtain ⟨groups, folded, stacked⟩ := general txs [] [] rfl ⟨rfl, by simp, .nil⟩
  exact ⟨groups, by rw [chunksOf, ← folded]; rfl, stacked⟩

/-- The line of the chunks is above the prefix sums of all groups. -/
theorem rise_le_height (chorded : ∀ group ∈ groups, Chorded group)
    (begins : start <+: groups.flatten) : (rise start : ℚ) ≤ height (groups.map chunkOf) (run start) := by
  induction groups generalizing start with
  | nil =>
    rw [prefix_nil.mp begins]
    simp [rise, run]
  | cons group groups ih =>
    obtain ⟨first, chorded⟩ := forall_mem_cons.mp chorded
    rcases prefix_append_cases begins with short | ⟨rest, rfl, inside⟩
    · rw [map_cons, height_inside (by exact_mod_cast run_le_of_start short)]
      exact first.below start short
    · have later := ih chorded inside
      have past : ((chunkOf group).2 : ℚ) ≤ run (group ++ rest) := by
        simp [chunkOf]
      rw [map_cons, height_past first.wide past]
      simp only [chunkOf, rise_append, run_append]
      push_cast
      rw [add_sub_cancel_left]
      linarith

theorem chunks_total (groups : List (List FeeChunk)) :
    rise (groups.map chunkOf) = rise groups.flatten ∧ run (groups.map chunkOf) = run groups.flatten := by
  induction groups with
  | nil => exact ⟨rfl, rfl⟩
  | cons group groups ih =>
    rw [map_cons, flatten_cons, rise_cons, run_cons, rise_append, run_append, ih.1, ih.2]
    exact ⟨rfl, rfl⟩

/-- The chunks have falling rates, are those of consecutive groups, and their line is the least concave one above the
prefix sums. -/
theorem chunksOf_least_concave {txs : List FeeChunk} (positive : ∀ tx ∈ txs, 0 < tx.2) (small : absFees txs * run txs < 2 ^ 127)
    (fits : run txs < u64Bound) :
    ((chunksOf txs).Pairwise fun a b => rate b ≤ rate a) ∧
      (∃ groups : List (List FeeChunk), groups.flatten = txs ∧ chunksOf txs = groups.map chunkOf) ∧
      (rise (chunksOf txs) = rise txs ∧ run (chunksOf txs) = run txs) ∧
      ConcaveOn ℚ (Set.Icc 0 (run txs : ℚ)) (height (chunksOf txs)) ∧
      (∀ start, start <+: txs → (rise start : ℚ) ≤ height (chunksOf txs) (run start)) ∧
      ∀ f : ℚ → ℚ, ConcaveOn ℚ (Set.Icc 0 (run txs : ℚ)) f → (∀ start, start <+: txs → (rise start : ℚ) ≤ f (run start)) →
        ∀ x ∈ Set.Icc 0 (run txs : ℚ), height (chunksOf txs) x ≤ f x := by
  obtain ⟨stack, made, stacked⟩ := chunksOf_stacked positive small fits
  obtain ⟨groups, shape⟩ : ∃ groups, groups = stack.reverse := ⟨_, rfl⟩
  have made : chunksOf txs = groups.map chunkOf := by rw [made, shape, map_reverse]
  have listed : groups.flatten = txs := by rw [shape]; exact stacked.listed
  have chorded : ∀ group ∈ groups, Chorded group := by
    intro group member
    exact stacked.chorded group (by simpa [shape] using member)
  have wide : ∀ chunk ∈ chunksOf txs, 0 < chunk.2 := by
    intro chunk member
    rw [made] at member
    obtain ⟨group, inside, rfl⟩ := mem_map.mp member
    exact (chorded group inside).wide
  have falling : (chunksOf txs).Pairwise fun a b => rate b ≤ rate a := by
    rw [made, shape, pairwise_map, pairwise_reverse]
    exact stacked.falling
  have total := chunks_total groups
  rw [← made, listed] at total
  have concave := concaveOn_height wide falling
  rw [total.2] at concave
  refine ⟨falling, ⟨groups, listed, made⟩, total, concave, ?_, ?_⟩
  · intro start begins
    rw [made]
    exact rise_le_height chorded (by rwa [listed])
  · intro f concave above x inside
    refine height_le_of_concave wide (by rwa [total.2]) ?_ inside.1 (by rw [total.2]; exact inside.2)
    intro before after cut
    -- a vertex is the end of some of the groups
    rw [made] at cut
    obtain ⟨first, second, parts, rfl, _⟩ := map_eq_append_iff.mp cut
    have end_ := chunks_total first
    rw [end_.1, end_.2]
    exact above first.flatten ⟨second.flatten, by rw [← flatten_append, ← parts, listed]⟩

theorem chunksOf_least_concave_merged : chunksOf [(1, 2), (-1, 1), (9, 3)] = [(9, 6)] ∧
      height (chunksOf [(1, 2), (-1, 1), (9, 3)]) (2 : ℕ) ≥ rise [(1, 2)] := by
  obtain ⟨_, _, _, _, above, _⟩ := @chunksOf_least_concave [(1, 2), (-1, 1), (9, 3)] (by decide) (by decide) (by decide)
  exact ⟨by decide, above [(1, 2)] ⟨_, rfl⟩⟩

/-- Sizes that leave the range of the source lose what is over it. -/
theorem chunksOf_saturates :
    chunksOf [(0, 2 ^ 63), (1, 2 ^ 63)] = [(1, 2 ^ 64 - 1)] ∧ run [(0, 2 ^ 63), (1, 2 ^ 63)] = 2 ^ 64 := by
  decide

end BitcoindRs
