import Mathlib.Algebra.BigOperators.Group.Finset.Basic
import Mathlib.Logic.Relation
import Mathlib.Tactic

/-! Loops over a stack of nodes that collect what can be reached in a finite graph. -/

namespace Worklist
open Relation List
variable {α : Type} [DecidableEq α]
variable {xs : List α} {state : List α × Finset α}

abbrev Reaches (next : α → List α) : α → α → Prop := ReflTransGen fun a b => b ∈ next a

def sweep (next : α → List α) : ℕ → List α → Finset α → Finset α
  | _, [], seen => seen
  | 0, _ :: _, seen => seen
  | fuel + 1, a :: stack, seen =>
    if a ∈ seen then sweep next fuel stack seen else sweep next fuel ((next a).reverse ++ stack) (insert a seen)

def reach (nodes : Finset α) (next : α → List α) (start : List α) : Finset α :=
  sweep next (start.length + ∑ a ∈ nodes, (next a).length) start.reverse ∅

variable {next : α → List α} {nodes : Finset α} {fuel : ℕ} {stack : List α} {seen : Finset α} {a b : α}

theorem sweep_sound (collected : b ∈ sweep next fuel stack seen) : b ∈ seen ∨ ∃ a ∈ stack, Reaches next a b := by
  induction fuel, stack, seen using sweep.induct next with
  | case1 fuel seen => exact .inl (by simpa [sweep] using collected)
  | case2 a stack seen => exact .inl (by simpa [sweep] using collected)
  | case3 fuel a stack seen old ih =>
    rw [sweep, if_pos old] at collected
    rcases ih collected with before | ⟨c, waiting, path⟩
    · exact .inl before
    · exact .inr ⟨c, mem_cons_of_mem _ waiting, path⟩
  | case4 fuel a stack seen fresh ih =>
    rw [sweep, if_neg fresh] at collected
    rcases ih collected with before | ⟨c, waiting, path⟩
    · rcases Finset.mem_insert.mp before with rfl | before
      · exact .inr ⟨b, mem_cons_self, .refl⟩
      · exact .inl before
    · rcases mem_append.mp waiting with successor | waiting
      · exact .inr ⟨a, mem_cons_self, .head (mem_reverse.mp successor) path⟩
      · exact .inr ⟨c, mem_cons_of_mem _ waiting, path⟩

section
variable (closed : ∀ a, ∀ b ∈ next a, b ∈ nodes)
include closed

theorem sweep_complete (inside : ∀ a ∈ stack, a ∈ nodes)
    (enough : stack.length + ∑ a ∈ nodes \ seen, (next a).length ≤ fuel) :
    (∀ a ∈ seen, a ∈ sweep next fuel stack seen) ∧ (∀ a ∈ stack, a ∈ sweep next fuel stack seen) ∧
      ∀ a ∈ sweep next fuel stack seen, a ∈ seen ∨ ∀ b ∈ next a, b ∈ sweep next fuel stack seen := by
  induction fuel, stack, seen using sweep.induct next with
  | case1 fuel seen =>
    rw [sweep]
    exact ⟨fun _ old => old, fun _ none_ => absurd none_ not_mem_nil, fun _ old => .inl old⟩
  | case2 a stack seen =>
    rw [length_cons] at enough
    omega
  | case3 fuel a stack seen old ih =>
    rw [sweep, if_pos old]
    rw [length_cons] at enough
    obtain ⟨kept, waiting, done⟩ := ih (fun b later => inside b (mem_cons_of_mem _ later)) (by omega)
    refine ⟨kept, fun b member => ?_, done⟩
    rcases mem_cons.mp member with rfl | later
    · exact kept _ old
    · exact waiting b later
  | case4 fuel a stack seen fresh ih =>
    rw [sweep, if_neg fresh]
    have here : a ∈ nodes \ seen := Finset.mem_sdiff.mpr ⟨inside a mem_cons_self, fresh⟩
    have fewer := Finset.add_sum_erase (nodes \ seen) (fun b => (next b).length) here
    rw [← Finset.sdiff_insert] at fewer
    rw [length_cons] at enough
    have budget : ((next a).reverse ++ stack).length + ∑ b ∈ nodes \ insert a seen, (next b).length ≤ fuel := by
      rw [length_append, length_reverse]
      omega
    obtain ⟨kept, waiting, done⟩ := ih (fun b member => by
      rcases mem_append.mp member with successor | later
      · exact closed a b (mem_reverse.mp successor)
      · exact inside b (mem_cons_of_mem _ later)) budget
    refine ⟨fun b old => kept b (Finset.mem_insert_of_mem old), fun b member => ?_, fun b collected => ?_⟩
    · rcases mem_cons.mp member with rfl | later
      · exact kept _ (Finset.mem_insert_self _ _)
      · exact waiting b (mem_append_right _ later)
    · rcases done b collected with marked | all
      · rcases Finset.mem_insert.mp marked with rfl | old
        · exact .inr fun c successor => waiting c (mem_append_left _ (mem_reverse.mpr successor))
        · exact .inl old
      · exact .inr all

theorem mem_reach {start : List α} (inside : ∀ a ∈ start, a ∈ nodes) : b ∈ reach nodes next start ↔ ∃ a ∈ start, Reaches next a b := by
  constructor
  · intro collected
    rcases sweep_sound collected with none_ | ⟨a, waiting, path⟩
    · exact absurd none_ (Finset.notMem_empty b)
    · exact ⟨a, mem_reverse.mp waiting, path⟩
  · rintro ⟨a, begins, path⟩
    have budget : start.reverse.length + ∑ a ∈ nodes \ ∅, (next a).length ≤
        start.length + ∑ a ∈ nodes, (next a).length := by
      rw [length_reverse, Finset.sdiff_empty]
    obtain ⟨-, waiting, done⟩ := sweep_complete closed (fun a member => inside a (mem_reverse.mp member)) budget
    induction path with
    | refl => exact waiting a (mem_reverse.mpr begins)
    | tail _ successor ih =>
      rcases done _ ih with none_ | all
      · exact absurd none_ (Finset.notMem_empty _)
      · exact all _ successor

end

def mark (state : List α × Finset α) (a : α) : List α × Finset α :=
  if a ∈ state.2 then state else (a :: state.1, insert a state.2)

def spread (next : α → List α) : ℕ → List α → Finset α → Finset α
  | _, [], seen => seen
  | 0, _ :: _, seen => seen
  | fuel + 1, a :: stack, seen =>
    let state := (next a).foldl mark (stack, seen)
    spread next fuel state.1 state.2

theorem mem_foldl_mark : b ∈ (xs.foldl mark state).2 ↔ b ∈ state.2 ∨ b ∈ xs := by
  induction xs generalizing state with
  | nil => simp
  | cons x xs ih =>
    rw [foldl_cons, ih, mark, mem_cons]
    split
    · rename_i old
      constructor
      · rintro (before | later)
        · exact .inl before
        · exact .inr (.inr later)
      · rintro (before | rfl | later)
        · exact .inl before
        · exact .inl old
        · exact .inr later
    · rw [Finset.mem_insert]
      tauto

theorem mem_stack_foldl_mark : b ∈ (xs.foldl mark state).1 ↔ b ∈ state.1 ∨ b ∈ xs ∧ b ∉ state.2 := by
  induction xs generalizing state with
  | nil => simp
  | cons x xs ih =>
    rw [foldl_cons, ih, mark, mem_cons]
    split
    · rename_i old
      constructor
      · rintro (before | ⟨later, fresh⟩)
        · exact .inl before
        · exact .inr ⟨.inr later, fresh⟩
      · rintro (before | ⟨rfl | later, fresh⟩)
        · exact .inl before
        · exact absurd old fresh
        · exact .inr ⟨later, fresh⟩
    · rename_i new
      rw [Finset.mem_insert, mem_cons]
      constructor
      · rintro ((rfl | before) | ⟨later, fresh⟩)
        · exact .inr ⟨.inl rfl, new⟩
        · exact .inl before
        · exact .inr ⟨.inr later, fun old => fresh (.inr old)⟩
      · rintro (before | ⟨rfl | later, fresh⟩)
        · exact .inl (.inr before)
        · exact .inl (.inl rfl)
        · by_cases same : b = x
          · exact .inl (.inl same)
          · exact .inr ⟨later, by simp [same, fresh]⟩

theorem length_foldl_mark (inside : ∀ x ∈ xs, x ∈ nodes) (state : List α × Finset α) :
    (xs.foldl mark state).1.length + (nodes \ (xs.foldl mark state).2).card = state.1.length + (nodes \ state.2).card := by
  induction xs generalizing state with
  | nil => rfl
  | cons x xs ih =>
    rw [foldl_cons, ih fun y later => inside y (mem_cons_of_mem _ later), mark]
    split
    · rfl
    · rename_i fresh
      have here : x ∈ nodes \ state.2 := Finset.mem_sdiff.mpr ⟨inside x mem_cons_self, fresh⟩
      have fewer := Finset.card_erase_add_one here
      rw [← Finset.sdiff_insert] at fewer
      show state.1.length + 1 + (nodes \ insert x state.2).card = _
      omega

theorem spread_sound (collected : b ∈ spread next fuel stack seen) : b ∈ seen ∨ ∃ a ∈ stack, ∃ c ∈ next a, Reaches next c b := by
  induction fuel, stack, seen using spread.induct next with
  | case1 fuel seen => exact .inl (by simpa [spread] using collected)
  | case2 a stack seen => exact .inl (by simpa [spread] using collected)
  | case3 fuel a stack seen state ih =>
    rw [spread] at collected
    rcases ih collected with before | ⟨c, waiting, d, successor, path⟩
    · rcases mem_foldl_mark.mp before with before | successor
      · exact .inl before
      · exact .inr ⟨a, mem_cons_self, b, successor, .refl⟩
    · rcases mem_stack_foldl_mark.mp waiting with waiting | ⟨first, -⟩
      · exact .inr ⟨c, mem_cons_of_mem _ waiting, d, successor, path⟩
      · exact .inr ⟨a, mem_cons_self, c, first, .head successor path⟩

section
variable (closed : ∀ a, ∀ b ∈ next a, b ∈ nodes)
include closed

theorem spread_complete (enough : stack.length + (nodes \ seen).card ≤ fuel) :
    (∀ a ∈ seen, a ∈ spread next fuel stack seen) ∧
      (∀ a ∈ stack, ∀ b ∈ next a, b ∈ spread next fuel stack seen) ∧
      ∀ a ∈ spread next fuel stack seen, a ∈ seen ∨ ∀ b ∈ next a, b ∈ spread next fuel stack seen := by
  induction fuel, stack, seen using spread.induct next with
  | case1 fuel seen =>
    rw [spread]
    exact ⟨fun _ old => old, fun _ none_ => absurd none_ not_mem_nil, fun _ old => .inl old⟩
  | case2 a stack seen =>
    rw [length_cons] at enough
    omega
  | case3 fuel a stack seen state ih =>
    have size : state.1.length + (nodes \ state.2).card = stack.length + (nodes \ seen).card :=
      length_foldl_mark (closed a) (stack, seen)
    rw [length_cons] at enough
    obtain ⟨kept, waiting, done⟩ := ih (by omega)
    rw [spread]
    refine ⟨fun b old => kept b (mem_foldl_mark.mpr (.inl old)), fun b member c successor => ?_, fun b collected => ?_⟩
    · rcases mem_cons.mp member with rfl | later
      · exact kept c (mem_foldl_mark.mpr (.inr successor))
      · exact waiting b (mem_stack_foldl_mark.mpr (.inl later)) c successor
    · rcases done b collected with marked | all
      · rcases mem_foldl_mark.mp marked with old | first
        · exact .inl old
        · by_cases old : b ∈ seen
          · exact .inl old
          · exact .inr fun c successor => waiting b (mem_stack_foldl_mark.mpr (.inr ⟨first, old⟩)) c successor
      · exact .inr all

/-- The nodes that are marked and those behind the stack, if every marked node is on the stack. -/
theorem mem_spread (marked : ∀ a ∈ seen, a ∈ stack) (enough : stack.length + (nodes \ seen).card ≤ fuel) :
    b ∈ spread next fuel stack seen ↔ b ∈ seen ∨ ∃ a ∈ stack, ∃ c ∈ next a, Reaches next c b := by
  refine ⟨spread_sound, ?_⟩
  obtain ⟨kept, waiting, done⟩ := spread_complete closed enough
  rintro (old | ⟨a, listed, c, successor, path⟩)
  · exact kept b old
  · induction path with
    | refl => exact waiting a listed c successor
    | tail _ later ih =>
      rcases done _ ih with old | all
      · exact waiting _ (marked _ old) _ later
      · exact all _ later

theorem mem_spread_empty : b ∈ spread next (1 + nodes.card) [a] ∅ ↔ ∃ c ∈ next a, Reaches next c b := by
  rw [mem_spread closed (by simp) (by simp)]
  simp

theorem mem_spread_others :
    b ∈ spread (fun t => (next t).filter (· ≠ a)) (1 + nodes.card) [a] ∅ ↔ b ≠ a ∧ Reaches next a b := by
  rw [mem_spread_empty fun c d member => closed c d (mem_of_mem_filter member)]
  constructor
  · rintro ⟨c, first, path⟩
    obtain ⟨linked, other⟩ := mem_filter.mp first
    refine ⟨?_, .head linked (path.lift id fun _ _ member => mem_of_mem_filter member)⟩
    rcases path.cases_tail with rfl | ⟨_, -, last⟩
    · simpa using other
    · simpa using (mem_filter.mp last).2
  · rintro ⟨different, path⟩
    -- Cut the path at its last visit of the start.
    induction path with
    | refl => exact absurd rfl different
    | @tail c d _ linked ih =>
      have last : d ∈ (next c).filter (· ≠ a) := mem_filter.mpr ⟨linked, by simpa using different⟩
      by_cases same : c = a
      · rw [same] at last
        exact ⟨d, last, .refl⟩
      · obtain ⟨first, start, path⟩ := ih same
        exact ⟨first, start, path.tail last⟩

theorem mem_spread_self : b ∈ spread next (1 + nodes.card) [a] {a} ↔ Reaches next a b := by
  have budget : [a].length + (nodes \ {a}).card ≤ 1 + nodes.card := by
    rw [length_singleton]
    exact Nat.add_le_add_left (Finset.card_le_card Finset.sdiff_subset) 1
  rw [mem_spread closed (by simp) budget, Reaches, ReflTransGen.cases_head_iff, Finset.mem_singleton, @eq_comm _ b]
  simp

end

end Worklist
