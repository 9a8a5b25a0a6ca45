import BitcoindRs.Data.Finmap

/-! A ledger is a list of entries, each of which consumes some key–value pairs of a finite map and creates others. -/

namespace Ledger
open FMap List
variable {α β : Type*} [DecidableEq α]

structure Entry (α β : Type*) where
  spends : List (α × β)
  creates : List (α × β)

def spends (l : List (Entry α β)) : List (α × β) := l.flatMap Entry.spends

def creates (l : List (Entry α β)) : List (α × β) := l.flatMap Entry.creates

abbrev keys (kvs : List (α × β)) : List α := kvs.map Prod.fst

section basics
omit [DecidableEq α]

@[simp] theorem spends_nil : spends ([] : List (Entry α β)) = [] := rfl

@[simp] theorem creates_nil : creates ([] : List (Entry α β)) = [] := rfl

@[simp] theorem spends_cons (e : Entry α β) (l : List (Entry α β)) : spends (e :: l) = e.spends ++ spends l := rfl
@[simp] theorem creates_cons (e : Entry α β) (l : List (Entry α β)) : creates (e :: l) = e.creates ++ creates l := rfl
@[simp] theorem spends_append (xs ys : List (Entry α β)) : spends (xs ++ ys) = spends xs ++ spends ys :=
  flatMap_append
@[simp] theorem creates_append (xs ys : List (Entry α β)) : creates (xs ++ ys) = creates xs ++ creates ys :=
  flatMap_append

theorem snoc_split {γ : Type*} {l before after : List γ} {e x : γ} (shape : l ++ [e] = before ++ x :: after) :
    (before = l ∧ x = e) ∨ ∃ front, l = before ++ x :: front := by
  rcases eq_nil_or_concat after with rfl | ⟨front, last, rfl⟩
  · obtain ⟨rfl, same⟩ := append_inj' shape rfl
    cases same
    exact .inl ⟨rfl, rfl⟩
  · rw [concat_eq_append, ← cons_append, ← append_assoc] at shape
    exact .inr ⟨front, (append_inj' shape rfl).1⟩

theorem forall₂_getElem? {γ δ : Type} {R : γ → δ → Prop} {xs : List γ} {ys : List δ} (related : List.Forall₂ R xs ys)
    {i : ℕ} {x : γ} (found : xs[i]? = some x) : ∃ y, ys[i]? = some y ∧ R x y := by
  induction related generalizing i with
  | nil => simp at found
  | cons head _ ih =>
    cases i with
    | zero =>
      rw [getElem?_cons_zero] at found
      cases found
      exact ⟨_, rfl, head⟩
    | succ i => exact ih found

theorem mem_keys_filter (p : α → Bool) {kvs : List (α × β)} {k : α} :
    k ∈ keys (kvs.filter fun kv => p kv.1) ↔ k ∈ keys kvs ∧ p k = true := by
  simp only [keys, mem_map, mem_filter]
  constructor
  · rintro ⟨kv, ⟨member, holds⟩, rfl⟩
    exact ⟨⟨kv, member, rfl⟩, holds⟩
  · rintro ⟨⟨kv, member, rfl⟩, holds⟩
    exact ⟨kv, ⟨member, holds⟩, rfl⟩

theorem mem_spends {l : List (Entry α β)} {kv : α × β} : kv ∈ spends l ↔ ∃ e ∈ l, kv ∈ e.spends := mem_flatMap

end basics

variable {base m : FMap α β} {l xs ys : List (Entry α β)} {e : Entry α β} {kv : α × β}

/-- What an entry after `before` sees at a key: the newest creation, and the map under it otherwise. -/
def visible (base : FMap α β) (before : List (Entry α β)) (k : α) : Option β :=
  (lastWrite (creates before) k).or (base.lookup k)

/-- Every entry consumes pairs it sees, and no key is consumed twice. -/
structure Valid (base : FMap α β) (l : List (Entry α β)) : Prop where
  distinct : (keys (spends l)).Nodup
  resolved : ∀ before e after, l = before ++ e :: after → ∀ kv ∈ e.spends, visible base before kv.1 = some kv.2

theorem Valid.front (valid : Valid base (xs ++ ys)) : Valid base xs where
  distinct := by
    have distinct := valid.distinct
    rw [spends_append, keys, map_append] at distinct
    exact (nodup_append.mp distinct).1
  resolved before e after shape := valid.resolved before e (after ++ ys) (by simp [shape])

theorem Valid.last (valid : Valid base (l ++ [e])) :
    ∀ kv ∈ e.spends, visible base l kv.1 = some kv.2 := valid.resolved l e [] rfl

theorem Valid.snoc (valid : Valid base l)
    (distinct : (keys e.spends).Nodup) (unspent : ∀ k ∈ keys e.spends, k ∉ keys (spends l))
    (resolved : ∀ kv ∈ e.spends, visible base l kv.1 = some kv.2) : Valid base (l ++ [e]) where
  distinct := by
    rw [spends_append, keys, map_append, nodup_append]
    refine ⟨valid.distinct, by simpa [spends] using distinct, ?_⟩
    rintro k earlier _ later rfl
    exact unspent k (by simpa [spends] using later) earlier
  resolved before x after shape := by
    rcases snoc_split shape with ⟨rfl, rfl⟩ | ⟨front, rfl⟩
    · exact resolved
    · exact valid.resolved before x front rfl

theorem Valid.nil (base : FMap α β) : Valid base ([] : List (Entry α β)) where
  distinct := nodup_nil
  resolved before e after shape := by simp at shape

theorem Valid.origin (valid : Valid base l)
    (spent : kv ∈ spends l) : base.lookup kv.1 = some kv.2 ∨ kv ∈ creates l := by
  obtain ⟨e, member, consumed⟩ := mem_spends.mp spent
  obtain ⟨before, after, rfl⟩ := append_of_mem member
  have seen := valid.resolved before e after rfl kv consumed
  rw [visible, Option.or_eq_some_iff] at seen
  rcases seen with created | ⟨-, stored⟩
  · exact .inr (by simp [lastWrite_mem created])
  · exact .inl stored

/-- Remove everything the ledger consumes, then write what `extra` and the ledger create and the ledger leaves. -/
def net (base : FMap α β) (extra : List (α × β)) (l : List (Entry α β)) : FMap α β :=
  insertAll (eraseAll base (keys (spends l))) ((extra ++ creates l).filter fun kv => kv.1 ∉ keys (spends l))

theorem lookup_net (base : FMap α β) (extra : List (α × β)) (l : List (Entry α β)) (k : α) :
    (net base extra l).lookup k =
      if k ∈ keys (spends l) then none else (lastWrite (extra ++ creates l) k).or (base.lookup k) := by
  rw [net, lookup_insertAll, lookup_eraseAll, lastWrite_filter fun k => decide (k ∉ keys (spends l))]
  by_cases spent : k ∈ keys (spends l) <;> simp [spent]

theorem total_net_le (f : β → ℕ) (valid : Valid base l) (extra : List (α × β)) :
    total f (net base extra l) + totalOf f (spends l) ≤ total f base + totalOf f extra + totalOf f (creates l) := by
  classical
  -- Split the consumed pairs into those of the map and those the ledger created itself.
  let old := (spends l).filter fun kv => base.lookup kv.1 = some kv.2
  let new := (spends l).filter fun kv => !decide (base.lookup kv.1 = some kv.2)
  have parts : totalOf f old + totalOf f new = totalOf f (spends l) := totalOf_filter_add f _ _
  have freed : total f (eraseAll base (keys (spends l))) + totalOf f old ≤ total f base := by
    apply total_eraseAll_le f base old
    · exact valid.distinct.sublist (filter_sublist.map _)
    · intro kv member
      simpa using (mem_filter.mp member).2
    · exact fun kv member => mem_map_of_mem (mem_of_mem_filter member)
  have reused : totalOf f new ≤ totalOf f ((creates l).filter fun kv => kv.1 ∈ keys (spends l)) := by
    apply totalOf_le_of_subset f
    · exact valid.distinct.sublist (filter_sublist.map _)
    · intro kv member
      obtain ⟨spent, notStored⟩ := mem_filter.mp member
      rcases valid.origin spent with stored | created
      · simp [stored] at notStored
      · exact mem_filter.mpr ⟨created, by simpa using ⟨_, spent⟩⟩
  have written := total_insertAll_le f (eraseAll base (keys (spends l)))
    ((extra ++ creates l).filter fun kv => kv.1 ∉ keys (spends l))
  have kept := totalOf_filter_add f (fun kv => decide (kv.1 ∈ keys (spends l))) (creates l)
  have kept' := totalOf_filter_add f (fun kv => decide (kv.1 ∈ keys (spends l))) extra
  rw [filter_append, totalOf_append] at written
  simp only [decide_not] at written kept kept'
  rw [net, filter_append]
  simp only [decide_not]
  omega

def step (m : FMap α β) (e : Entry α β) : FMap α β := insertAll (eraseAll m (keys e.spends)) e.creates

def run (base : FMap α β) (l : List (Entry α β)) : FMap α β := l.foldl step base

/-- Take one entry back: drop what it created, then write back what it consumed. -/
def unstep (m : FMap α β) (e : Entry α β) : FMap α β := insertAll (eraseAll m (keys e.creates)) e.spends

theorem run_snoc (base : FMap α β) (l : List (Entry α β)) (e : Entry α β) : run base (l ++ [e]) = step (run base l) e := by
  simp [run]

/-- A ledger creates every key at most once and none that the map already has. -/
structure Fresh (base : FMap α β) (l : List (Entry α β)) : Prop where
  distinct : (keys (creates l)).Nodup
  absent : ∀ k ∈ keys (creates l), base.lookup k = none

theorem Fresh.front (fresh : Fresh base (xs ++ ys)) : Fresh base xs where
  distinct := by
    have distinct := fresh.distinct
    rw [creates_append, keys, map_append] at distinct
    exact (nodup_append.mp distinct).1
  absent k member := fresh.absent k (by simp only [creates_append, keys, map_append, mem_append]; exact .inl member)

theorem Fresh.unseen (fresh : Fresh base (l ++ [e])) {k : α}
    (created : k ∈ keys e.creates) (before : List (Entry α β)) (early : ∀ x ∈ before, x ∈ l) :
    visible base before k = none := by
  have distinct := fresh.distinct
  rw [creates_append, keys, map_append, nodup_append] at distinct
  have absent := fresh.absent k (by
    simp only [creates_append, keys, map_append, mem_append]
    exact .inr (by simpa [creates] using created))
  have none : k ∉ keys (creates before) := by
    intro member
    obtain ⟨kv, present, rfl⟩ := mem_map.mp member
    obtain ⟨x, inside, here⟩ := mem_flatMap.mp present
    exact distinct.2.2 kv.1 (mem_map_of_mem (mem_flatMap.mpr ⟨x, early x inside, here⟩)) kv.1
      (by simpa [creates] using created) rfl
  rw [visible, lastWrite_eq_none.mpr none, absent, Option.or_none]

theorem Fresh.notSpent (fresh : Fresh base (l ++ [e]))
    (valid : Valid base (l ++ [e])) {k : α} (created : k ∈ keys e.creates) : k ∉ keys (spends (l ++ [e])) := by
  intro spent
  obtain ⟨kv, member, rfl⟩ := mem_map.mp spent
  obtain ⟨x, inside, consumed⟩ := mem_spends.mp member
  obtain ⟨before, after, shape⟩ := append_of_mem inside
  have early : ∀ y ∈ before, y ∈ l := by
    intro y present
    rcases snoc_split shape with ⟨rfl, -⟩ | ⟨front, rfl⟩
    · exact present
    · exact mem_append_left _ present
  have seen := valid.resolved before x after shape kv consumed
  rw [fresh.unseen created before early] at seen
  cases seen

theorem lookup_run (valid : Valid base l) (fresh : Fresh base l) (k : α) :
    (run base l).lookup k = if k ∈ keys (spends l) then none else visible base l k := by
  induction l using List.reverseRecOn with
  | nil => simp [run, visible, lastWrite]
  | append_singleton l e ih =>
    have earlier := ih valid.front fresh.front
    rw [run_snoc, step, lookup_insertAll, lookup_eraseAll, earlier]
    have merge : visible base (l ++ [e]) k = (lastWrite e.creates k).or (visible base l k) := by
      rw [visible, creates_append, lastWrite_append, Option.or_assoc, visible]
      simp [creates]
    by_cases created : k ∈ keys e.creates
    · have unspent := fresh.notSpent valid created
      obtain ⟨v, written⟩ := lastWrite_isSome.mpr created
      rw [if_neg unspent, merge, written, Option.some_or, Option.some_or]
    · rw [merge, lastWrite_eq_none.mpr created, Option.none_or, Option.none_or]
      by_cases here : k ∈ keys e.spends <;> by_cases before : k ∈ keys (spends l) <;>
        simp [here, before]

theorem net_eq_run (valid : Valid base l) (fresh : Fresh base l) : net base [] l = run base l := by
  apply Finmap.ext_lookup
  intro k
  rw [lookup_net, lookup_run valid fresh, nil_append, visible]

theorem lookup_before_last (valid : Valid base (l ++ [e])) (fresh : Fresh base (l ++ [e])) :
    (∀ kv ∈ e.spends, (run base l).lookup kv.1 = some kv.2) ∧ ∀ k ∈ keys e.creates, (run base l).lookup k = none := by
  constructor
  · intro kv member
    have unspent : kv.1 ∉ keys (spends l) := by
      intro earlier
      have distinct := valid.distinct
      rw [spends_append, keys, map_append, nodup_append] at distinct
      exact distinct.2.2 kv.1 earlier kv.1 (mem_map_of_mem (by simpa [spends] using member)) rfl
    rw [lookup_run valid.front fresh.front, if_neg unspent]
    exact valid.last kv member
  · intro k member
    rw [lookup_run valid.front fresh.front, fresh.unseen member l fun _ h => h]
    simp

theorem unstep_step (distinct : (keys e.spends).Nodup)
    (stored : ∀ kv ∈ e.spends, m.lookup kv.1 = some kv.2) (absent : ∀ k ∈ keys e.creates, m.lookup k = none) :
    unstep (step m e) e = m := by
  apply Finmap.ext_lookup
  intro k
  rw [unstep, lookup_insertAll, lookup_eraseAll, step, lookup_insertAll, lookup_eraseAll]
  by_cases spent : k ∈ keys e.spends
  · obtain ⟨kv, member, rfl⟩ := mem_map.mp spent
    rw [lastWrite_of_mem distinct member, Option.some_or, stored kv member]
  · rw [lastWrite_eq_none.mpr spent, Option.none_or]
    by_cases created : k ∈ keys e.creates
    · rw [if_pos created, absent k created]
    · rw [if_neg created, lastWrite_eq_none.mpr created, if_neg spent, Option.none_or]

theorem lookup_step (stored : ∀ kv ∈ e.spends, m.lookup kv.1 = some kv.2)
    (absent : ∀ k ∈ keys e.creates, m.lookup k = none) :
    (∀ k ∈ keys e.spends, (step m e).lookup k = none) ∧ ∀ k ∈ keys e.creates, (step m e).lookup k ≠ none := by
  constructor
  · intro k member
    have notCreated : k ∉ keys e.creates := by
      intro created
      obtain ⟨kv, inside, rfl⟩ := mem_map.mp member
      have found := stored kv inside
      rw [absent kv.1 created] at found
      cases found
    rw [step, lookup_insertAll, lookup_eraseAll, lastWrite_eq_none.mpr notCreated, if_pos member, Option.none_or]
  · intro k member
    obtain ⟨v, written⟩ := lastWrite_isSome.mpr member
    rw [step, lookup_insertAll, written, Option.some_or]
    exact Option.some_ne_none v

theorem foldlM_unwind {ε γ : Type} {f : FMap α β → γ → Except ε (FMap α β)}
    {xs : List γ} (length : xs.length = l.length)
    (back : ∀ i x, xs[i]? = some x → f (run base (l.take (i + 1))) x = .ok (run base (l.take i))) :
    xs.reverse.foldlM f (run base l) = .ok base := by
  induction xs using List.reverseRecOn generalizing l with
  | nil =>
    cases l with
    | nil => rfl
    | cons _ _ => cases length
  | append_singleton xs x ih =>
    have count : xs.length + 1 = l.length := by simpa using length
    have last := back xs.length x (by simp)
    rw [count, take_length] at last
    rw [reverse_append, reverse_singleton, singleton_append, foldlM_cons, last]
    refine ih (by simp [← count]) ?_
    intro i y found
    have inside : i < xs.length := (List.getElem?_eq_some_iff.mp found).1
    have earlier := back i y (by rw [getElem?_append_left inside]; exact found)
    rwa [take_take, take_take, Nat.min_eq_left inside, Nat.min_eq_left inside.le]

theorem Valid.distinct_last (valid : Valid base (l ++ [e])) : (keys e.spends).Nodup := by
  have distinct := valid.distinct
  rw [spends_append, keys, map_append, nodup_append] at distinct
  simpa [spends] using distinct.2.1

end Ledger
