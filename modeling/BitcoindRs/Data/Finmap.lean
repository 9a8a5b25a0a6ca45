import Mathlib.Data.Finmap
import Mathlib.Algebra.Order.BigOperators.Group.List
import Mathlib.Algebra.Order.BigOperators.Group.Multiset
import Mathlib.Tactic

/-!
Bulk updates of finite maps with one value type, and the total of a measure over the values of a map.
-/

/-- A finite map whose values all have one type. -/
abbrev FMap (α : Type*) (β : Type*) := Finmap fun _ : α => β

namespace FMap
open List Finmap
variable {α β : Type*} [DecidableEq α]
variable {kvs : List (α × β)} {j : α} {ks js : List α} {v : β} {ε : Type}

theorem lookup_insert_ite (m : FMap α β) (k j : α) (v : β) :
    (m.insert k v).lookup j = if j = k then some v else m.lookup j := by
  split
  · rename_i same
    rw [same, lookup_insert]
  · rename_i other
    exact lookup_insert_of_ne m other

theorem lookup_erase_ite (m : FMap α β) (k j : α) : (m.erase k).lookup j = if j = k then none else m.lookup j := by
  split
  · rename_i same
    rw [same, lookup_erase]
  · rename_i other
    exact lookup_erase_ne other

@[simp] theorem lookup_empty' (j : α) : (∅ : FMap α β).lookup j = none := lookup_empty j

theorem insert_erase_self (m : FMap α β) (k : α) (v : β) (present : m.lookup k = some v) :
    (m.erase k).insert k v = m := by
  apply ext_lookup
  intro j
  simp only [lookup_insert_ite, lookup_erase_ite]
  split
  · rename_i same
    rw [same, present]
  · rfl

theorem erase_insert_self (m : FMap α β) (k : α) (v : β) (absent : m.lookup k = none) : (m.insert k v).erase k = m := by
  apply ext_lookup
  intro j
  simp only [lookup_insert_ite, lookup_erase_ite]
  split
  · rename_i same
    rw [same, absent]
  · rfl

theorem mem_iff_lookup (m : FMap α β) (k : α) : k ∈ m ↔ m.lookup k ≠ none := by
  rw [← lookup_isSome, Option.isSome_iff_ne_none]

theorem notMem_iff_lookup (m : FMap α β) (k : α) : k ∉ m ↔ m.lookup k = none := by
  rw [mem_iff_lookup, not_not]

def eraseAll (m : FMap α β) (ks : List α) : FMap α β := ks.foldl (fun m k => m.erase k) m

def insertAll (m : FMap α β) (kvs : List (α × β)) : FMap α β := kvs.foldl (fun m kv => m.insert kv.1 kv.2) m

def lastWrite : List (α × β) → α → Option β
  | [], _ => none
  | (k, v) :: rest, j => (lastWrite rest j).or (if j = k then some v else none)

@[simp] theorem eraseAll_nil (m : FMap α β) : eraseAll m [] = m := rfl

@[simp] theorem eraseAll_cons (m : FMap α β) (k : α) (ks : List α) :
    eraseAll m (k :: ks) = eraseAll (m.erase k) ks := rfl
@[simp] theorem insertAll_nil (m : FMap α β) : insertAll m [] = m := rfl
@[simp] theorem insertAll_cons (m : FMap α β) (kv : α × β) (kvs : List (α × β)) :
    insertAll m (kv :: kvs) = insertAll (m.insert kv.1 kv.2) kvs := rfl

theorem eraseAll_append (m : FMap α β) (xs ys : List α) :
    eraseAll m (xs ++ ys) = eraseAll (eraseAll m xs) ys := List.foldl_append

theorem insertAll_append (m : FMap α β) (xs ys : List (α × β)) :
    insertAll m (xs ++ ys) = insertAll (insertAll m xs) ys := List.foldl_append

theorem lookup_eraseAll (m : FMap α β) (ks : List α) (j : α) :
    (eraseAll m ks).lookup j = if j ∈ ks then none else m.lookup j := by
  induction ks generalizing m with
  | nil => simp
  | cons k ks ih =>
    rw [eraseAll_cons, ih, lookup_erase_ite]
    by_cases here : j = k <;> by_cases later : j ∈ ks <;> simp [here, later]

theorem lookup_insertAll (m : FMap α β) (kvs : List (α × β)) (j : α) :
    (insertAll m kvs).lookup j = (lastWrite kvs j).or (m.lookup j) := by
  induction kvs generalizing m with
  | nil => rfl
  | cons kv kvs ih =>
    rw [insertAll_cons, ih, lookup_insert_ite, lastWrite, Option.or_assoc]
    split <;> rfl

theorem lookup_foldl_insert (m : FMap α β) (ks : List α) (v : β) (j : α) :
    (ks.foldl (fun m k => m.insert k v) m).lookup j = if j ∈ ks then some v else m.lookup j := by
  induction ks generalizing m with
  | nil => simp
  | cons k ks ih =>
    rw [foldl_cons, ih, lookup_insert_ite]
    by_cases later : j ∈ ks <;> simp [later]

theorem lastWrite_append (xs ys : List (α × β)) (j : α) :
    lastWrite (xs ++ ys) j = (lastWrite ys j).or (lastWrite xs j) := by
  induction xs with
  | nil => simp [lastWrite]
  | cons x xs ih => rw [cons_append, lastWrite, ih, lastWrite, Option.or_assoc]

theorem lastWrite_mem (h : lastWrite kvs j = some v) : (j, v) ∈ kvs := by
  induction kvs with
  | nil => cases h
  | cons kv kvs ih =>
    rw [lastWrite, Option.or_eq_some_iff] at h
    rcases h with later | ⟨-, here⟩
    · exact mem_cons_of_mem _ (ih later)
    · split at here
      · rename_i same
        cases here
        rw [same]
        exact mem_cons_self
      · cases here

theorem lastWrite_eq_none : lastWrite kvs j = none ↔ j ∉ kvs.map Prod.fst := by
  induction kvs with
  | nil => simp [lastWrite]
  | cons kv kvs ih => simp [lastWrite, Option.or_eq_none_iff, ih, not_or, and_comm]

theorem lastWrite_of_mem (distinct : (kvs.map Prod.fst).Nodup) (present : (j, v) ∈ kvs) : lastWrite kvs j = some v := by
  induction kvs with
  | nil => cases present
  | cons kv kvs ih =>
    rw [map_cons, nodup_cons] at distinct
    rw [lastWrite]
    rcases mem_cons.mp present with rfl | later
    · rw [lastWrite_eq_none.mpr distinct.1]
      simp
    · rw [ih distinct.2 later, Option.some_or]

theorem lastWrite_isSome : (∃ v, lastWrite kvs j = some v) ↔ j ∈ kvs.map Prod.fst := by
  rw [← Option.isSome_iff_exists, Option.isSome_iff_ne_none, ne_eq, lastWrite_eq_none, not_not]

theorem lastWrite_filter (p : α → Bool) (kvs : List (α × β)) (j : α) :
    lastWrite (kvs.filter fun kv => p kv.1) j = if p j then lastWrite kvs j else none := by
  induction kvs with
  | nil => simp [lastWrite]
  | cons kv kvs ih =>
    by_cases keep : p kv.1 <;> by_cases same : j = kv.1 <;> by_cases mine : p j <;>
      simp_all [lastWrite]

theorem insertAll_reverse (m : FMap α β) (distinct : (kvs.map Prod.fst).Nodup) :
    insertAll m kvs.reverse = insertAll m kvs := by
  apply ext_lookup
  intro j
  have same : lastWrite kvs.reverse j = lastWrite kvs j := by
    have distinct' : (kvs.reverse.map Prod.fst).Nodup := by rwa [map_reverse, nodup_reverse]
    cases found : lastWrite kvs j with
    | none =>
      rw [lastWrite_eq_none] at found ⊢
      simpa using found
    | some v => exact lastWrite_of_mem distinct' (by simpa using lastWrite_mem found)
  rw [lookup_insertAll, lookup_insertAll, same]

theorem eraseAll_superset (m : FMap α β) (sub : ∀ k ∈ ks, k ∈ js)
    (absent : ∀ j ∈ js, j ∉ ks → m.lookup j = none) : eraseAll m js = eraseAll m ks := by
  apply ext_lookup
  intro j
  rw [lookup_eraseAll, lookup_eraseAll]
  by_cases small : j ∈ ks
  · rw [if_pos small, if_pos (sub j small)]
  · rw [if_neg small]
    split
    · rename_i large
      exact (absent j large small).symm
    · rfl

theorem eraseAll_congr (m : FMap α β) (same : ∀ k, k ∈ ks ↔ k ∈ js) : eraseAll m ks = eraseAll m js :=
  eraseAll_superset m (fun k member => (same k).mpr member) fun k member other => absurd ((same k).mp member) other

theorem foldlM_erase_present (missing : α → ε) (m : FMap α β) (distinct : ks.Nodup)
    (present : ∀ k ∈ ks, m.lookup k ≠ none) :
    ks.foldlM (fun m k => if m.lookup k = none then Except.error (missing k) else .ok (m.erase k)) m =
      .ok (eraseAll m ks) := by
  induction ks generalizing m with
  | nil => rfl
  | cons k ks ih =>
    rw [nodup_cons] at distinct
    rw [foldlM_cons, if_neg (present k mem_cons_self)]
    refine ih (m.erase k) distinct.2 fun j member => ?_
    rw [lookup_erase_ite, if_neg (fun same : j = k => distinct.1 (same ▸ member))]
    exact present j (mem_cons_of_mem _ member)

theorem foldlM_insert_absent (occupied : α → ε) (m : FMap α β)
    (distinct : (kvs.map Prod.fst).Nodup) (absent : ∀ k ∈ kvs.map Prod.fst, m.lookup k = none) :
    kvs.foldlM (fun m kv => if m.lookup kv.1 ≠ none then Except.error (occupied kv.1) else .ok (m.insert kv.1 kv.2)) m =
      .ok (insertAll m kvs) := by
  induction kvs generalizing m with
  | nil => rfl
  | cons kv kvs ih =>
    rw [map_cons, nodup_cons] at distinct
    rw [foldlM_cons, if_neg (not_not.mpr (absent kv.1 mem_cons_self))]
    refine ih (m.insert kv.1 kv.2) distinct.2 fun j member => ?_
    rw [lookup_insert_ite, if_neg (fun same : j = kv.1 => distinct.1 (same ▸ member))]
    exact absent j (mem_cons_of_mem _ member)

def total (f : β → ℕ) (m : FMap α β) : ℕ := (m.entries.map fun e => f e.2).sum

def totalOf (f : β → ℕ) (kvs : List (α × β)) : ℕ := (kvs.map fun kv => f kv.2).sum

variable (f : β → ℕ)

section
omit [DecidableEq α]

@[simp] theorem totalOf_nil : totalOf f ([] : List (α × β)) = 0 := rfl

@[simp] theorem total_empty : total f (∅ : FMap α β) = 0 := rfl

@[simp] theorem totalOf_cons (kv : α × β) (kvs : List (α × β)) :
    totalOf f (kv :: kvs) = f kv.2 + totalOf f kvs := by simp [totalOf]
omit [DecidableEq α] in
@[simp] theorem totalOf_append (xs ys : List (α × β)) :
    totalOf f (xs ++ ys) = totalOf f xs + totalOf f ys := by simp [totalOf]

end

theorem total_insert_fresh (m : FMap α β) (k : α) (v : β) (absent : m.lookup k = none) :
    total f (m.insert k v) = total f m + f v := by
  rw [total, entries_insert_of_notMem ((notMem_iff_lookup m k).mpr absent), Multiset.map_cons,
    Multiset.sum_cons, total, Nat.add_comm]

theorem total_erase (m : FMap α β) (k : α) (v : β) (present : m.lookup k = some v) :
    total f (m.erase k) + f v = total f m := by
  have split := total_insert_fresh f (m.erase k) k v (lookup_erase k m)
  rw [insert_erase_self m k v present] at split
  exact split.symm

theorem erase_absent (m : FMap α β) (k : α) (absent : m.lookup k = none) : m.erase k = m := by
  apply ext_lookup
  intro j
  rw [lookup_erase_ite]
  split
  · rename_i same
    rw [same, absent]
  · rfl

theorem total_erase_le (m : FMap α β) (k : α) : total f (m.erase k) ≤ total f m := by
  cases found : m.lookup k with
  | none => rw [erase_absent m k found]
  | some v => exact Nat.le.intro (total_erase f m k v found)

theorem insert_erase (m : FMap α β) (k : α) (v : β) : (m.erase k).insert k v = m.insert k v := by
  apply ext_lookup
  intro j
  simp only [lookup_insert_ite, lookup_erase_ite]
  split <;> rfl

theorem total_insert_le (m : FMap α β) (k : α) (v : β) : total f (m.insert k v) ≤ total f m + f v := by
  rw [← insert_erase, total_insert_fresh f _ k v (lookup_erase k m)]
  exact Nat.add_le_add_right (total_erase_le f m k) _

theorem total_insertAll_le (m : FMap α β) (kvs : List (α × β)) :
    total f (insertAll m kvs) ≤ total f m + totalOf f kvs := by
  induction kvs generalizing m with
  | nil => simp
  | cons kv kvs ih =>
    have first := total_insert_le f m kv.1 kv.2
    have rest := ih (m.insert kv.1 kv.2)
    rw [insertAll_cons, totalOf_cons]
    omega

theorem total_eraseAll_le (m : FMap α β) (kvs : List (α × β)) (distinct : (kvs.map Prod.fst).Nodup)
    (present : ∀ kv ∈ kvs, m.lookup kv.1 = some kv.2) (ks : List α) (cover : ∀ kv ∈ kvs, kv.1 ∈ ks) :
    total f (eraseAll m ks) + totalOf f kvs ≤ total f m := by
  induction kvs generalizing m with
  | nil =>
    simp only [totalOf_nil, Nat.add_zero]
    clear cover present
    induction ks generalizing m with
    | nil => exact le_rfl
    | cons k ks ih => exact (ih _).trans (total_erase_le f m k)
  | cons kv kvs ih =>
    rw [map_cons, nodup_cons] at distinct
    have stored := present kv mem_cons_self
    have others : ∀ other ∈ kvs, (m.erase kv.1).lookup other.1 = some other.2 := by
      intro other member
      have different : other.1 ≠ kv.1 := fun same => distinct.1 (same ▸ mem_map_of_mem member)
      rw [lookup_erase_ite, if_neg different]
      exact present other (mem_cons_of_mem _ member)
    have rest := ih (m.erase kv.1) distinct.2 others fun other member => cover other (mem_cons_of_mem _ member)
    have same : eraseAll (m.erase kv.1) ks = eraseAll m ks := by
      apply ext_lookup
      intro j
      rw [lookup_eraseAll, lookup_eraseAll, lookup_erase_ite]
      have covered := cover kv mem_cons_self
      split
      · rfl
      · split
        · rename_i missing here
          exact absurd (here ▸ covered) missing
        · rfl
    have freed := total_erase f m kv.1 kv.2 stored
    rw [same] at rest
    rw [totalOf_cons]
    omega

omit [DecidableEq α] in
theorem totalOf_le_of_subset {xs ys : List (α × β)} (distinct : (xs.map Prod.fst).Nodup) (sub : xs ⊆ ys) :
    totalOf f xs ≤ totalOf f ys := by
  obtain ⟨zs, perm, sublist⟩ := List.Nodup.subperm (List.Nodup.of_map _ distinct) sub
  rw [totalOf, ← (perm.map _).sum_eq]
  exact (sublist.map _).sum_le_sum fun _ _ => Nat.zero_le _

omit [DecidableEq α] in
theorem totalOf_filter_add (p : α × β → Bool) (kvs : List (α × β)) :
    totalOf f (kvs.filter p) + totalOf f (kvs.filter fun kv => !p kv) = totalOf f kvs := by
  induction kvs with
  | nil => rfl
  | cons kv kvs ih =>
    cases keep : p kv <;> simp [keep] <;> omega

end FMap
