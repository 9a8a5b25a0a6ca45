import BitcoindRs.Data.Finmap

/-! Maps from keys to non-empty sets of values, as relations. -/

namespace FMap
variable {κ α : Type} [DecidableEq κ]
variable {k key : κ} {a b : α}

/-- The values under the keys are a relation, and no key stands for an empty set. -/
structure Represents (m : FMap κ (Finset α)) (R : κ → α → Prop) : Prop where
  related : ∀ key a, (∃ values, m.lookup key = some values ∧ a ∈ values) ↔ R key a
  nonempty : ∀ key, m.lookup key ≠ some ∅

variable {m : FMap κ (Finset α)} {R S : κ → α → Prop}

theorem Represents.congr (represents : Represents m R) (same : ∀ key a, R key a ↔ S key a) : Represents m S :=
  ⟨fun key a => (represents.related key a).trans (same key a), represents.nonempty⟩

theorem represents_empty : Represents (∅ : FMap κ (Finset α)) fun _ _ => False :=
  ⟨fun _ _ => by simp, fun _ => by simp⟩

theorem Represents.lookup (represents : Represents m R) {key : κ} {values : Finset α} (found : m.lookup key = some values)
    (a : α) : a ∈ values ↔ R key a := by
  rw [← represents.related]
  exact ⟨fun member => ⟨values, found, member⟩, fun ⟨other, same, member⟩ => by rw [found] at same; cases same; exact member⟩

theorem Represents.lookup_none (represents : Represents m R) : m.lookup key = none ↔ ∀ a, ¬ R key a := by
  constructor
  · intro absent a related
    obtain ⟨_, found, -⟩ := (represents.related key a).mpr related
    rw [absent] at found
    cases found
  · intro nothing
    rcases found : m.lookup key with _ | values
    · rfl
    · have empty : values = ∅ := Finset.eq_empty_of_forall_notMem fun a member =>
        nothing a ((represents.lookup found a).mp member)
      rw [empty] at found
      exact absurd found (represents.nonempty key)

theorem Represents.erase (represents : Represents m R) (key : κ) :
    Represents (m.erase key : FMap κ (Finset α)) fun k b => R k b ∧ k ≠ key := by
  constructor
  · intro k b
    rw [lookup_erase_ite, ← represents.related k b]
    split <;> simp_all
  · intro k
    rw [lookup_erase_ite]
    split
    · simp
    · exact represents.nonempty k

variable [DecidableEq α]

def record (m : FMap κ (Finset α)) (key : κ) (a : α) : FMap κ (Finset α) :=
  m.insert key (insert a ((m.lookup key).getD ∅))

def discard (m : FMap κ (Finset α)) (key : κ) (a : α) : FMap κ (Finset α) := match m.lookup key with
  | none => m
  | some values => if values.erase a = ∅ then m.erase key else m.insert key (values.erase a)

theorem Represents.record (represents : Represents m R) (key : κ) (a : α) :
    Represents (m.record key a) fun k b => R k b ∨ k = key ∧ b = a := by
  constructor
  · intro k b
    rw [FMap.record, lookup_insert_ite, ← represents.related k b]
    split
    · rename_i same
      subst same
      cases m.lookup k <;> simp [or_comm]
    · rename_i other
      simp [other]
  · intro k
    rw [FMap.record, lookup_insert_ite]
    split
    · simp
    · exact represents.nonempty k

theorem Represents.discard (represents : Represents m R) (key : κ) (a : α) :
    Represents (m.discard key a) fun k b => R k b ∧ ¬ (k = key ∧ b = a) := by
  unfold FMap.discard
  rcases found : m.lookup key with _ | values
  · refine represents.congr fun k b => ⟨fun related => ⟨related, ?_⟩, fun both => both.1⟩
    rintro ⟨rfl, -⟩
    exact represents.lookup_none.mp found b related
  · have member := represents.lookup found
    dsimp only
    split
    · rename_i last
      have only : ∀ b, R key b → b = a := by
        intro b related
        by_contra other
        have inside : b ∈ values.erase a := Finset.mem_erase.mpr ⟨other, (member b).mpr related⟩
        rw [last] at inside
        exact Finset.notMem_empty b inside
      constructor
      · intro k b
        rw [lookup_erase_ite, ← represents.related k b]
        split
        · rename_i same
          subst same
          constructor
          · rintro ⟨_, none_, -⟩
            cases none_
          · rintro ⟨related, other⟩
            exact absurd ⟨rfl, only b ((represents.related k b).mp related)⟩ other
        · rename_i other
          simp [other]
      · intro k
        rw [lookup_erase_ite]
        split
        · simp
        · exact represents.nonempty k
    · rename_i some_
      constructor
      · intro k b
        rw [lookup_insert_ite, ← represents.related k b]
        split
        · rename_i same
          subst same
          simp [found, and_comm]
        · rename_i other
          simp [other]
      · intro k
        rw [lookup_insert_ite]
        split
        · simpa using some_
        · exact represents.nonempty k

theorem discard_keeps (other : b ≠ a)
    (listed : ∃ values, m.lookup k = some values ∧ b ∈ values) : ∃ values, (m.discard key a).lookup k = some values ∧ b ∈ values := by
  obtain ⟨values, there, member⟩ := listed
  unfold FMap.discard
  split
  · exact ⟨values, there, member⟩
  · rename_i siblings found
    by_cases same : k = key
    · subst same
      rw [there] at found
      cases found
      have stays : b ∈ values.erase a := Finset.mem_erase.mpr ⟨other, member⟩
      rw [if_neg (Finset.ne_empty_of_mem stays), lookup_insert_ite, if_pos rfl]
      exact ⟨_, rfl, stays⟩
    · split
      · rw [lookup_erase_ite, if_neg same]
        exact ⟨values, there, member⟩
      · rw [lookup_insert_ite, if_neg same]
        exact ⟨values, there, member⟩

theorem discardAll_keeps (keys : List κ) (other : b ≠ a) (listed : ∃ values, m.lookup k = some values ∧ b ∈ values) :
    ∃ values, (keys.foldl (fun m key => m.discard key a) m).lookup k = some values ∧ b ∈ values := by
  induction keys generalizing m with
  | nil => exact listed
  | cons key keys ih => exact ih (discard_keeps other listed)

theorem discard_only
    (listed : ∃ values, (m.discard key a).lookup k = some values ∧ b ∈ values) : ∃ values, m.lookup k = some values ∧ b ∈ values := by
  obtain ⟨values, there, member⟩ := listed
  unfold FMap.discard at there
  split at there
  · exact ⟨values, there, member⟩
  · rename_i siblings found
    split at there
    · rw [lookup_erase_ite] at there
      split at there
      · cases there
      · exact ⟨values, there, member⟩
    · rw [lookup_insert_ite] at there
      split at there
      · rename_i same
        cases there
        exact ⟨siblings, same ▸ found, Finset.mem_of_mem_erase member⟩
      · exact ⟨values, there, member⟩

theorem discardAll_only (keys : List κ)
    (listed : ∃ values, (keys.foldl (fun m key => m.discard key a) m).lookup k = some values ∧ b ∈ values) :
    ∃ values, m.lookup k = some values ∧ b ∈ values := by
  induction keys generalizing m with
  | nil => exact listed
  | cons key keys ih => exact discard_only (ih listed)

theorem Represents.recordAll (represents : Represents m R) (keys : List κ) (a : α) :
    Represents (keys.foldl (fun m key => m.record key a) m) fun k b => R k b ∨ k ∈ keys ∧ b = a := by
  induction keys generalizing m R with
  | nil => exact represents.congr fun _ _ => by simp
  | cons key keys ih =>
    refine (ih (represents.record key a)).congr fun k b => ?_
    rw [List.mem_cons]
    tauto

theorem Represents.discardAll (represents : Represents m R) (keys : List κ) (a : α) :
    Represents (keys.foldl (fun m key => m.discard key a) m) fun k b => R k b ∧ ¬ (k ∈ keys ∧ b = a) := by
  induction keys generalizing m R with
  | nil => exact represents.congr fun _ _ => by simp
  | cons key keys ih =>
    refine (ih (represents.discard key a)).congr fun k b => ?_
    rw [List.mem_cons]
    tauto

end FMap
