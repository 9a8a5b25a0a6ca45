import BitcoindRs.Data.Finmap
import Mathlib.Data.List.Sort

/-!
Iteration over hash sets and hash maps. The order is unspecified, so it is a parameter: code that iterates is verified
for every order.
-/

/-- An iteration order for hash sets and hash maps with elements or keys of a type. -/
class HashOrder (α : Type) where
  elements : Finset α → List α
  nodup : ∀ s, (elements s).Nodup
  mem : ∀ s a, a ∈ elements s ↔ a ∈ s

namespace HashOrder
open List
variable {α : Type}

@[reducible] def ofKey (key : α → ℕ) (injective : Function.Injective key) : HashOrder α :=
  have sorted : ∀ l : List α, (l.insertionSort fun a b => key a ≤ key b).Pairwise fun a b => key a ≤ key b :=
    fun l =>
      have : Std.Total fun a b => key a ≤ key b := ⟨fun a b => Nat.le_total _ _⟩
      have : IsTrans α fun a b => key a ≤ key b := ⟨fun _ _ _ => Nat.le_trans⟩
      pairwise_insertionSort _ l
  let sort : Multiset α → List α := Quot.lift (fun l => l.insertionSort fun a b => key a ≤ key b) fun l l' same => by
    refine List.Perm.eq_of_pairwise ?_ (sorted l) (sorted l') ?_
    · exact fun a b _ _ below above => injective (Nat.le_antisymm below above)
    · exact (perm_insertionSort _ l).trans (same.trans (perm_insertionSort _ l').symm)
  { elements := fun s => sort s.1
    nodup := fun s => by
      obtain ⟨⟨l⟩, distinct⟩ := s
      exact (perm_insertionSort _ l).nodup_iff.mpr distinct
    mem := fun s a => by
      obtain ⟨⟨l⟩, distinct⟩ := s
      exact (perm_insertionSort _ l).mem_iff }

end HashOrder

namespace FMap
open List
variable {α β : Type} [DecidableEq α] [HashOrder α]

def toList (m : FMap α β) : List (α × β) :=
  (HashOrder.elements m.keys).filterMap fun k => (m.lookup k).map (k, ·)

theorem mem_toList {m : FMap α β} {kv : α × β} : kv ∈ m.toList ↔ m.lookup kv.1 = some kv.2 := by
  rw [toList, mem_filterMap]
  constructor
  · rintro ⟨k, -, found⟩
    obtain ⟨v, present, rfl⟩ := Option.map_eq_some_iff.mp found
    exact present
  · intro present
    refine ⟨kv.1, (HashOrder.mem _ _).mpr ?_, by rw [present]; rfl⟩
    exact Finmap.mem_keys.mpr ((mem_iff_lookup m kv.1).mpr (by rw [present]; exact Option.some_ne_none _))

theorem toList_keys_nodup (m : FMap α β) : (m.toList.map Prod.fst).Nodup := by
  rw [toList, map_filterMap]
  refine (HashOrder.nodup m.keys).filterMap ?_
  intro k k' v found found'
  simp only [Option.map_map, Option.mem_def, Option.map_eq_some_iff] at found found'
  obtain ⟨_, _, rfl⟩ := found
  obtain ⟨_, _, rfl⟩ := found'
  rfl

theorem mem_toList_keys {m : FMap α β} {k : α} : k ∈ m.toList.map Prod.fst ↔ m.lookup k ≠ none := by
  rw [mem_map]
  constructor
  · rintro ⟨kv, present, rfl⟩
    rw [mem_toList.mp present]
    exact Option.some_ne_none _
  · intro present
    obtain ⟨v, found⟩ := Option.ne_none_iff_exists'.mp present
    exact ⟨(k, v), mem_toList.mpr found, rfl⟩

theorem lastWrite_toList (m : FMap α β) (k : α) : lastWrite m.toList k = m.lookup k := by
  rcases found : m.lookup k with _ | v
  · rw [lastWrite_eq_none, mem_toList_keys, not_not]
    exact found
  · exact lastWrite_of_mem m.toList_keys_nodup (mem_toList.mpr (show m.lookup (k, v).1 = some (k, v).2 from found))

omit [HashOrder α] in
theorem lookup_insertAll_empty {kvs : List (α × β)} (k : α) : (insertAll ∅ kvs).lookup k = lastWrite kvs k := by
  rw [lookup_insertAll]
  cases lastWrite kvs k <;> simp

end FMap
