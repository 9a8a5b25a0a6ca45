import Mathlib.Data.Finset.Card
import Mathlib.Tactic

/-! Depth-first tours of a finite graph that list a node after the nodes it depends on. -/

/-- The nodes that are finished, those under way, and the finished ones in order. -/
structure Tour (α : Type) where
  visited : Finset α
  visiting : Finset α
  ordered : List α

namespace Tour
open List
variable {α : Type} [DecidableEq α]

def empty : Tour α := ⟨∅, ∅, []⟩

/-- Finish a node after everything it depends on. Nodes under way are distinct, so their number bounds the depth. -/
def visit (dependencies : α → List α) : ℕ → Tour α → α → Tour α
  | 0, tour, _ => tour
  | depth + 1, tour, a =>
    if a ∈ tour.visited ∨ a ∈ tour.visiting then tour
    else
      let inner := (dependencies a).foldl (visit dependencies depth) { tour with visiting := insert a tour.visiting }
      ⟨insert a inner.visited, inner.visiting.erase a, inner.ordered ++ [a]⟩

structure Lists (tour : Tour α) : Prop where
  nodup : tour.ordered.Nodup
  mem : ∀ a, a ∈ tour.ordered ↔ a ∈ tour.visited
  apart : ∀ a ∈ tour.visiting, a ∉ tour.visited

/-- A later state of a tour in which the same nodes are under way. -/
structure Continues (nodes : Finset α) (before after : Tour α) : Prop where
  lists : after.Lists
  visiting : after.visiting = before.visiting
  grows : before.visited ⊆ after.visited
  inside : ∀ a ∈ after.visited, a ∈ before.visited ∨ a ∈ nodes

variable {nodes : Finset α} {dependencies : α → List α}

section
omit [DecidableEq α]

theorem Continues.refl {tour : Tour α} (lists : tour.Lists) : Continues nodes tour tour :=
  ⟨lists, rfl, Finset.Subset.refl _, fun _ old => .inl old⟩

theorem Continues.trans {first second third : Tour α} (early : Continues nodes first second)
    (late : Continues nodes second third) : Continues nodes first third := by
  refine ⟨late.lists, late.visiting.trans early.visiting, early.grows.trans late.grows, fun a visited => ?_⟩
  rcases late.inside a visited with before | inside
  · exact early.inside a before
  · exact .inr inside

theorem Continues.foldl {step : Tour α → α → Tour α}
    (keeps : ∀ tour a, tour.Lists → a ∈ nodes → Continues nodes tour (step tour a)) {xs : List α}
    (inside : ∀ x ∈ xs, x ∈ nodes) {tour : Tour α} (lists : tour.Lists) : Continues nodes tour (xs.foldl step tour) := by
  induction xs generalizing tour with
  | nil => exact .refl lists
  | cons x xs ih =>
    have first := keeps tour x lists (inside x mem_cons_self)
    exact first.trans (ih (fun y later => inside y (mem_cons_of_mem _ later)) first.lists)

end

theorem visit_continues (closed : ∀ a, ∀ b ∈ dependencies a, b ∈ nodes) (depth : ℕ) {tour : Tour α} (lists : tour.Lists)
    {a : α} (here : a ∈ nodes) : Continues nodes tour (visit dependencies depth tour a) := by
  induction depth generalizing tour a with
  | zero => exact .refl lists
  | succ depth ih =>
    rw [visit]
    split
    · exact .refl lists
    rename_i fresh
    obtain ⟨unvisited, notUnderWay⟩ := not_or.mp fresh
    have started : ({ tour with visiting := insert a tour.visiting } : Tour α).Lists := by
      refine ⟨lists.nodup, lists.mem, fun b underWay => ?_⟩
      rcases Finset.mem_insert.mp underWay with rfl | old
      · exact unvisited
      · exact lists.apart b old
    have inner := Continues.foldl (fun tour b lists inside => ih lists inside) (closed a) started
    generalize (dependencies a).foldl (visit dependencies depth) { tour with visiting := insert a tour.visiting } = after at inner
    have stillFresh : a ∉ after.visited := inner.lists.apart a (by rw [inner.visiting]; exact Finset.mem_insert_self _ _)
    refine ⟨⟨?_, ?_, ?_⟩, ?_, ?_, ?_⟩
    · refine nodup_append.mpr ⟨inner.lists.nodup, nodup_singleton a, ?_⟩
      rintro b listed c same rfl
      rw [mem_singleton.mp same] at listed
      exact stillFresh ((inner.lists.mem a).mp listed)
    · intro b
      rw [mem_append, mem_singleton, inner.lists.mem, Finset.mem_insert, or_comm]
    · intro b underWay visited
      obtain ⟨other, underWay⟩ := Finset.mem_erase.mp underWay
      rcases Finset.mem_insert.mp visited with same | visited
      · exact other same
      · exact inner.lists.apart b underWay visited
    · show after.visiting.erase a = tour.visiting
      rw [inner.visiting]
      exact Finset.erase_insert notUnderWay
    · exact inner.grows.trans (Finset.subset_insert _ _)
    · intro b visited
      rcases Finset.mem_insert.mp visited with rfl | visited
      · exact .inr here
      · exact inner.inside b visited

theorem mem_visit (depth : ℕ) {tour : Tour α} {a : α} (idle : a ∉ tour.visiting) :
    a ∈ (visit dependencies (depth + 1) tour a).visited := by
  rw [visit]
  split
  · rename_i old
    exact old.resolve_right idle
  · exact Finset.mem_insert_self _ _

/-- A tour from every node of a list, the list being closed under dependencies. -/
def order (dependencies : α → List α) (starts : List α) : List α :=
  (starts.foldl (visit dependencies (starts.length + 1)) empty).ordered

theorem order_spec {starts : List α} (closed : ∀ a, ∀ b ∈ dependencies a, b ∈ starts) :
    (order dependencies starts).Nodup ∧ ∀ a, a ∈ order dependencies starts ↔ a ∈ starts := by
  have closed' : ∀ a, ∀ b ∈ dependencies a, b ∈ starts.toFinset := by
    intro a b depends
    exact mem_toFinset.mpr (closed a b depends)
  have run : ∀ (xs : List α), (∀ x ∈ xs, x ∈ starts.toFinset) → ∀ tour : Tour α, tour.Lists → tour.visiting = ∅ →
      Continues starts.toFinset tour (xs.foldl (visit dependencies (starts.length + 1)) tour) ∧
        ∀ x ∈ xs, x ∈ (xs.foldl (visit dependencies (starts.length + 1)) tour).visited := by
    intro xs
    induction xs with
    | nil => exact fun _ tour lists _ => ⟨.refl lists, fun _ none_ => absurd none_ not_mem_nil⟩
    | cons x xs ih =>
      intro inside tour lists idle
      have first := visit_continues closed' (starts.length + 1) lists (inside x mem_cons_self)
      obtain ⟨rest, all⟩ := ih (fun y later => inside y (mem_cons_of_mem _ later)) _ first.lists
        (first.visiting.trans idle)
      refine ⟨first.trans rest, fun y member => ?_⟩
      rcases mem_cons.mp member with rfl | later
      · exact rest.grows (mem_visit _ (by rw [idle]; exact Finset.notMem_empty _))
      · exact all y later
  obtain ⟨tour, all⟩ := run starts (fun _ member => mem_toFinset.mpr member) empty
    ⟨nodup_nil, fun _ => by simp [empty], fun _ none_ => absurd none_ (Finset.notMem_empty _)⟩ rfl
  refine ⟨tour.lists.nodup, fun a => ⟨fun listed => ?_, fun member => (tour.lists.mem a).mpr (all a member)⟩⟩
  rcases tour.inside a ((tour.lists.mem a).mp listed) with none_ | inside
  · exact absurd none_ (Finset.notMem_empty _)
  · exact mem_toFinset.mp inside

end Tour
