import BitcoindRs.Consensus.Structure
import BitcoindRs.Data.Merkle

/-! The transaction Merkle root and the search for equal siblings. -/

namespace BitcoindRs
open List Merkle
variable [Library]

theorem merkleLayer_eq (xs : List ℕ) : merkleLayer xs = layer hashPair xs := by
  induction xs using merkleLayer.induct with
  | case1 => rfl
  | case2 x => rfl
  | case3 x y rest ih => rw [merkleLayer, layer, ih]

omit [Library] in
theorem layerMutated_eq_none {xs : List ℕ} : layerMutated xs = none ↔ twins xs = false := by
  induction xs using twins.induct with
  | case1 x y rest ih =>
    rw [layerMutated, twins]
    by_cases same : x = y
    · simp [same]
    · simp [same, ih]
  | case2 xs short =>
    rcases xs with _ | ⟨x, _ | ⟨y, rest⟩⟩
    · simp [layerMutated, twins]
    · simp [layerMutated, twins]
    · exact absurd rfl (short x y rest)

theorem go_spec {fuel : ℕ} {layer : List ℕ} {mutated : Option Txid} (enough : layer.length ≤ fuel + 1) (some_ : layer ≠ []) :
    ∃ height root, level hashPair height layer = [root] ∧
      (∀ k < height, 1 < (level hashPair k layer).length) ∧
      (merkleRootAndMutatedTxid.go fuel layer mutated).1 = some root ∧
      ((merkleRootAndMutatedTxid.go fuel layer mutated).2 = none ↔
        mutated = none ∧ ∀ k < height, twins (level hashPair k layer) = false) ∧
      (merkleRootAndMutatedTxid.go fuel layer mutated).1 = recursiveRoot hashPair layer := by
  induction fuel generalizing layer mutated with
  | zero =>
    obtain ⟨root, rfl⟩ : ∃ root, layer = [root] := length_eq_one_iff.mp (by
      have := length_pos_iff.mpr some_
      omega)
    refine ⟨0, root, rfl, nofun, rfl, by simp [merkleRootAndMutatedTxid.go], ?_⟩
    rw [recursiveRoot]
    rfl
  | succ fuel ih =>
    rw [merkleRootAndMutatedTxid.go, recursiveRoot]
    by_cases single : layer.length ≤ 1
    · obtain ⟨root, rfl⟩ : ∃ root, layer = [root] := length_eq_one_iff.mp (by
        have := length_pos_iff.mpr some_
        omega)
      exact ⟨0, root, rfl, nofun, rfl, by simp, rfl⟩
    · rw [if_neg single, if_pos (not_le.mp single), paired_padded, merkleLayer_eq]
      have shorter := @length_layer _ hashPair layer
      obtain ⟨height, root, top, tall, first, second, same⟩ :=
        @ih (Merkle.layer hashPair layer) (mutated.or (layerMutated layer)) (by omega) fun none_ => by
          rw [none_, length_nil] at shorter
          omega
      refine ⟨height + 1, root, top, ?_, first, ?_, same⟩
      · intro k small
        cases k with
        | zero => exact not_le.mp single
        | succ k => exact tall k (by omega)
      · rw [second, Option.or_eq_none_iff, layerMutated_eq_none]
        constructor
        · rintro ⟨⟨before, here⟩, above⟩
          refine ⟨before, fun k small => ?_⟩
          cases k with
          | zero => exact here
          | succ k => exact above k (by omega)
        · rintro ⟨before, all⟩
          exact ⟨⟨before, all 0 height.succ_pos⟩, fun k small => all (k + 1) (by omega)⟩

theorem validateMerkleRoot_ok {block : Block} {txids : List Txid} (valid : validateMerkleRoot block txids = .ok ()) :
    txids ≠ [] ∧ recursiveRoot hashPair txids = some block.header.merkleRoot ∧
      ∀ k, twins (level hashPair k txids) = false := by
  unfold validateMerkleRoot at valid
  obtain ⟨root, valid⟩ := Result.guard_ok valid
  rw [not_not] at root
  have some_ : txids ≠ [] := by
    rintro rfl
    cases root
  obtain ⟨height, top, single, -, -, second, same⟩ := @go_spec _ txids.length txids none (by omega) some_
  refine ⟨some_, same.symm.trans root, fun k => ?_⟩
  have clean : (merkleRootAndMutatedTxid.go txids.length txids none).2 = none := by
    cases mutated : (merkleRootAndMutatedTxid.go txids.length txids none).2 with
    | none => rfl
    | some txid =>
      rw [mutated] at valid
      cases valid
  rcases Nat.lt_or_ge k height with below | above
  · exact (second.mp clean).2 k below
  · obtain ⟨extra, rfl⟩ := Nat.exists_eq_add_of_le' above
    apply twins_of_short
    rw [level_add, single, length_level, width_le_one_iff]
    exact Nat.one_le_two_pow

theorem merkleRoot_eq_recursiveRoot {ids : List Txid} (some_ : ids ≠ []) :
    (merkleRootAndMutatedTxid ids).1 = recursiveRoot hashPair ids := by
  obtain ⟨-, -, -, -, -, -, same⟩ := @go_spec _ ids.length ids none (by omega) some_
  exact same

/-- Of two different lists with one root, one is found to be mutated, if pairs can be read back from their hash and no
identifier is a hash of a pair of either tree. The root is the one of padded layers. -/
theorem merkle_mutation_detected (injective : Function.Injective2 hashPair) :
    (∀ xs ys : List Txid, xs ≠ [] → ys ≠ [] → xs ≠ ys →
      (∀ txid ∈ xs ++ ys, ¬ Merkle.Inner hashPair xs txid ∧ ¬ Merkle.Inner hashPair ys txid) →
      (merkleRootAndMutatedTxid xs).1 = (merkleRootAndMutatedTxid ys).1 →
      (merkleRootAndMutatedTxid xs).2 ≠ none ∨ (merkleRootAndMutatedTxid ys).2 ≠ none) ∧
    ∀ xs : List Txid, xs ≠ [] → (merkleRootAndMutatedTxid xs).1 = recursiveRoot hashPair xs := by
  constructor
  · intro xs ys left right different apart same
    by_contra neither
    rw [not_or, not_not, not_not] at neither
    obtain ⟨j, root, top, tall, first, second, -⟩ := @go_spec _ xs.length xs none (by omega) left
    obtain ⟨k, root', top', tall', first', second', -⟩ := @go_spec _ ys.length ys none (by omega) right
    have roots : root' = root := Option.some.inj (first'.symm.trans (same.symm.trans first))
    subst roots
    have clean := (second.mp neither.1).2
    have clean' := (second'.mp neither.2).2
    rcases Nat.lt_trichotomy j k with lower | rfl | higher
    · obtain ⟨txid, member⟩ := exists_mem_of_ne_nil xs left
      exact (apart txid (mem_append_left _ member)).2
        (inner_of_lower injective lower clean clean' top top' tall' txid member)
    · exact different (level_injective injective j clean clean' (top.trans top'.symm))
    · obtain ⟨txid, member⟩ := exists_mem_of_ne_nil ys right
      exact (apart txid (mem_append_right _ member)).1
        (inner_of_lower injective higher clean' clean top' top tall txid member)
  · exact fun xs some_ => merkleRoot_eq_recursiveRoot some_

omit [Library] in
/-- Repeating the last of three transactions keeps the root and is found. -/
theorem merkle_mutation_sample : let _ : Library := { Library.sample with hashPair := Nat.pair }
    (merkleRootAndMutatedTxid [1, 2, 3]).1 = (merkleRootAndMutatedTxid [1, 2, 3, 3]).1 ∧
      ((merkleRootAndMutatedTxid [1, 2, 3]).2 ≠ none ∨ (merkleRootAndMutatedTxid [1, 2, 3, 3]).2 ≠ none) := by
  intro library
  have same : (merkleRootAndMutatedTxid [1, 2, 3]).1 = (merkleRootAndMutatedTxid [1, 2, 3, 3]).1 := by decide +kernel
  have low : ∀ xs : List ℕ, xs.length ≤ 4 → ∀ txid, Merkle.Inner Nat.pair xs txid →
      txid ∈ level Nat.pair 1 xs ++ level Nat.pair 2 xs := by
    rintro xs short txid ⟨k, tall, member⟩
    match k with
    | 0 => exact mem_append_left _ member
    | 1 => exact mem_append_right _ member
    | k + 2 =>
      have fits : xs.length ≤ 2 ^ (k + 2) := short.trans (Nat.pow_le_pow_right two_pos (by omega : 2 ≤ k + 2))
      rw [length_level] at tall
      exact absurd (width_le_one_iff.mpr fits) (not_le.mpr tall)
  refine ⟨same, (merkle_mutation_detected fun a b c d => ?_).1 [1, 2, 3] [1, 2, 3, 3] (by decide) (by decide) (by decide) ?_ same⟩
  · exact Nat.pair_eq_pair.mp
  · intro txid member
    constructor
    · intro inner
      exact absurd (low _ (by decide) txid inner) (by clear inner; revert txid; decide +kernel)
    · intro inner
      exact absurd (low _ (by decide) txid inner) (by clear inner; revert txid; decide +kernel)

end BitcoindRs
