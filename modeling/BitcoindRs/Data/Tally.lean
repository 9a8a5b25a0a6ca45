import BitcoindRs.Data.Finmap

/-! The number of values of a finite map that have a property. -/

namespace FMap
variable {α β : Type} [DecidableEq α] {m : FMap α β} {p q r : β → Bool} {k : α} {v : β}

def tally (p : β → Bool) (m : FMap α β) : ℕ := total (fun v => (p v).toNat) m

theorem total_congr {f g : β → ℕ} (same : ∀ k v, m.lookup k = some v → f v = g v) : total f m = total g m := by
  unfold total
  refine congrArg Multiset.sum (Multiset.map_congr rfl ?_)
  rintro ⟨k, v⟩ member
  exact same k v (Finmap.mem_lookup_iff.mpr member)

omit [DecidableEq α] in
theorem total_sum {ι : Type} (s : Finset ι) (f : ι → β → ℕ) (m : FMap α β) :
    total (fun v => ∑ i ∈ s, f i v) m = ∑ i ∈ s, total (f i) m := by
  simp only [total]
  exact Multiset.sum_map_sum_map m.entries s.val

theorem tally_congr (same : ∀ k v, m.lookup k = some v → p v = q v) : tally p m = tally q m := by
  apply total_congr
  intro k v stored
  rw [same k v stored]

theorem sum_tally_congr {ι κ : Type} (s : Finset ι) (t : Finset κ) (part : ι → β → Bool) (piece : κ → β → Bool)
    (parts : ∀ k v, m.lookup k = some v → ∑ i ∈ s, (part i v).toNat = ∑ j ∈ t, (piece j v).toNat) :
    ∑ i ∈ s, tally (part i) m = ∑ j ∈ t, tally (piece j) m := by
  simp only [tally]
  rw [← total_sum, ← total_sum]
  exact total_congr parts

theorem tally_sum {ι : Type} (s : Finset ι) (part : ι → β → Bool)
    (parts : ∀ k v, m.lookup k = some v → ∑ i ∈ s, (part i v).toNat = (p v).toNat) : ∑ i ∈ s, tally (part i) m = tally p m := by
  rw [sum_tally_congr s Finset.univ part (fun _ : Unit => p) (by simpa using parts)]
  simp

theorem tally_split (parts : ∀ k v, m.lookup k = some v → (p v).toNat = (q v).toNat + (r v).toNat) :
    tally p m = tally q m + tally r m := by
  have both := @tally_sum _ _ _ m p Bool Finset.univ (fun side => if side then q else r) (by
    intro k v stored
    rw [parts k v stored]
    simp)
  rw [← both]
  simp

omit [DecidableEq α] in
@[simp] theorem tally_empty : tally p (∅ : FMap α β) = 0 := rfl

theorem tally_insert (p : β → Bool) (v : β) (absent : m.lookup k = none) : tally p (m.insert k v) = tally p m + (p v).toNat :=
  total_insert_fresh _ m k v absent

theorem tally_erase (p : β → Bool) (present : m.lookup k = some v) : tally p (m.erase k) + (p v).toNat = tally p m :=
  total_erase _ m k v present

theorem tally_pos (present : m.lookup k = some v) (holds : p v = true) : 0 < tally p m := by
  rw [← tally_erase p present, holds]
  exact Nat.succ_pos _

theorem tally_eq_zero (none_ : ∀ k v, m.lookup k = some v → p v = false) : tally p m = 0 := by
  rw [tally, @total_congr _ _ _ m _ (fun _ => 0) fun k v stored => by rw [none_ k v stored]; rfl]
  simp [total]

theorem tally_lt (present : m.lookup k = some v) (fewer : ∀ k v, m.lookup k = some v → p v = true → q v = true)
    (fails : p v = false) (holds : q v = true) : tally p m < tally q m := by
  rw [@tally_split _ _ _ m q p (fun v => q v && !p v) fun k v stored => ?_]
  · exact Nat.lt_add_of_pos_right (tally_pos present (by simp [fails, holds]))
  · rcases first : p v with _ | _
    · simp
    · simp [fewer k v stored first]

omit [DecidableEq α] in
theorem tally_true (m : FMap α β) : tally (fun _ => true) m = m.keys.card := by
  have keys : m.keys.card = m.entries.card := Multiset.card_map _ _
  simp [tally, total, keys]

theorem tally_le_card (p : β → Bool) (m : FMap α β) : tally p m ≤ m.keys.card := by
  rw [← tally_true, @tally_split _ _ _ m (fun _ => true) p (fun v => !p v) fun k v _ => by cases p v <;> rfl]
  exact Nat.le_add_right _ _

end FMap
