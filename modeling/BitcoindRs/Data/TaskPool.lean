import Mathlib.Data.List.Nodup
import Mathlib.Data.List.Perm.Basic

/-! A pool of checks that workers run in any order. -/

/-- The spawned tasks by their fate; only the queue, the flag and the failure exist in a running program. -/
structure TaskPool (τ ε : Type) where
  queue : List τ
  interrupted : Bool
  failure : Option (ℕ × ε)
  passed : List τ
  skipped : List τ
  failed : List τ

namespace TaskPool
open List
variable {τ ε : Type}

def empty (interrupted : Bool) : TaskPool τ ε := ⟨[], interrupted, none, [], [], []⟩

def spawn (pool : TaskPool τ ε) (tasks : List τ) : TaskPool τ ε := { pool with queue := pool.queue ++ tasks }

def raise (pool : TaskPool τ ε) : TaskPool τ ε := { pool with interrupted := true }

def report (failure : Option (ℕ × ε)) (index : ℕ) (error : ε) : Option (ℕ × ε) :=
  if failure.all fun known => index < known.1 then some (index, error) else failure

def work (check : τ → Except ε Unit) (index : τ → ℕ) (pool : TaskPool τ ε) (position : ℕ) : TaskPool τ ε :=
  match pool.queue[position]? with
  | none => pool
  | some task =>
    let queue := pool.queue.eraseIdx position
    if pool.interrupted then { pool with queue, skipped := task :: pool.skipped }
    else match check task with
      | .ok () => { pool with queue, passed := task :: pool.passed }
      | .error error => { pool with queue, failed := task :: pool.failed, failure := report pool.failure (index task) error }

theorem work_interrupted (check : τ → Except ε Unit) (index : τ → ℕ) (pool : TaskPool τ ε) (position : ℕ) :
    (pool.work check index position).interrupted = pool.interrupted := by
  unfold work
  split
  · rfl
  dsimp only
  split
  · rfl
  split <;> rfl

theorem work_queue (check : τ → Except ε Unit) (index : τ → ℕ) (pool : TaskPool τ ε) (position : ℕ) :
    (pool.work check index position).queue = pool.queue.eraseIdx position := by
  unfold work
  split
  · rename_i none_
    rw [eraseIdx_of_length_le (getElem?_eq_none_iff.mp none_)]
  dsimp only
  split
  · rfl
  split <;> rfl

variable {check : τ → Except ε Unit} {index : τ → ℕ} {spawned : List τ} {pool : TaskPool τ ε}

/-- Every spawned task is in exactly one place, and the failure is the least one there has been. -/
structure Tracks (check : τ → Except ε Unit) (index : τ → ℕ) (spawned : List τ) (pool : TaskPool τ ε) : Prop where
  accounted : (pool.queue ++ (pool.passed ++ (pool.skipped ++ pool.failed))).Perm spawned
  passes : ∀ task ∈ pool.passed, check task = .ok ()
  fails : ∀ task ∈ pool.failed, ∃ known, pool.failure = some known ∧ known.1 ≤ index task
  failure : ∀ known, pool.failure = some known → ∃ task ∈ pool.failed, index task = known.1 ∧ check task = .error known.2
  quiet : pool.interrupted = false → pool.skipped = []

theorem Tracks.empty (interrupted : Bool) : Tracks check index [] (TaskPool.empty interrupted) :=
  ⟨.refl _, fun _ member => absurd member not_mem_nil, fun _ member => absurd member not_mem_nil,
    fun _ known => (by cases known), fun _ => rfl⟩

variable (tracks : Tracks check index spawned pool)

include tracks in
theorem Tracks.spawn (tasks : List τ) : Tracks check index (spawned ++ tasks) (pool.spawn tasks) := by
  refine ⟨?_, tracks.passes, tracks.fails, tracks.failure, tracks.quiet⟩
  show (pool.queue ++ tasks ++ (pool.passed ++ (pool.skipped ++ pool.failed))).Perm (spawned ++ tasks)
  rw [append_assoc]
  refine (List.Perm.append_left pool.queue perm_append_comm).trans ?_
  rw [← append_assoc]
  exact tracks.accounted.append_right tasks

include tracks in
theorem Tracks.raise : Tracks check index spawned pool.raise :=
  ⟨tracks.accounted, tracks.passes, tracks.fails, tracks.failure, fun quiet => by cases quiet⟩

theorem report_known (failure : Option (ℕ × ε)) (at_ : ℕ) (error : ε) :
    ∃ known, report failure at_ error = some known ∧ known.1 ≤ at_ ∧
      (∀ earlier, failure = some earlier → known.1 ≤ earlier.1) ∧
      (known = (at_, error) ∨ failure = some known) := by
  unfold report
  rcases failure with _ | earlier
  · exact ⟨(at_, error), rfl, Nat.le_refl at_, fun _ none_ => (by cases none_), .inl rfl⟩
  · by_cases less : at_ < earlier.1
    · refine ⟨(at_, error), if_pos (decide_eq_true less), Nat.le_refl at_, ?_, .inl rfl⟩
      rintro _ ⟨⟩
      exact Nat.le_of_lt less
    · refine ⟨earlier, if_neg (by simpa using less), Nat.le_of_not_lt less, ?_, .inr rfl⟩
      rintro _ ⟨⟩
      exact Nat.le_refl _

include tracks

theorem Tracks.work (position : ℕ) : Tracks check index spawned (pool.work check index position) := by
  unfold TaskPool.work
  split
  · exact tracks
  rename_i task taken
  obtain ⟨inside, rfl⟩ := List.getElem?_eq_some_iff.mp taken
  have moved : (pool.queue[position] :: pool.queue.eraseIdx position).Perm pool.queue :=
    getElem_cons_eraseIdx_perm inside
  -- The task goes from the queue to the list `before ++ after` is made of.
  have place : ∀ before after, (before ++ after).Perm (pool.passed ++ (pool.skipped ++ pool.failed)) →
      (pool.queue.eraseIdx position ++ (before ++ pool.queue[position] :: after)).Perm spawned := by
    intro before after rest
    refine List.Perm.trans ?_ tracks.accounted
    refine ((perm_middle.append_left _).trans perm_middle).trans ?_
    exact (moved.append_right _).trans (rest.append_left _)
  dsimp only
  split
  · rename_i interrupted
    refine ⟨?_, tracks.passes, tracks.fails, tracks.failure, fun quiet => ?_⟩
    · exact place pool.passed (pool.skipped ++ pool.failed) (.refl _)
    · rw [show pool.interrupted = false from quiet] at interrupted
      cases interrupted
  split
  · rename_i passed
    refine ⟨place [] _ (.refl _), fun task member => ?_, tracks.fails, tracks.failure, tracks.quiet⟩
    rcases mem_cons.mp member with rfl | earlier
    · exact passed
    · exact tracks.passes task earlier
  · rename_i error failed
    obtain ⟨known, reported, below, least, origin⟩ := report_known pool.failure (index pool.queue[position]) error
    refine ⟨?_, tracks.passes, fun task member => ?_, fun other some_ => ?_, tracks.quiet⟩
    · have placed := place (pool.passed ++ pool.skipped) pool.failed (by rw [append_assoc])
      rwa [append_assoc] at placed
    · refine ⟨known, reported, ?_⟩
      rcases mem_cons.mp member with rfl | earlier
      · exact below
      · obtain ⟨first, some_, lower⟩ := tracks.fails task earlier
        exact Nat.le_trans (least first some_) lower
    · obtain rfl : known = other := Option.some.inj (reported.symm.trans some_)
      rcases origin with rfl | old
      · exact ⟨_, mem_cons_self, rfl, failed⟩
      · obtain ⟨task, member, same, fails⟩ := tracks.failure known old
        exact ⟨task, mem_cons_of_mem _ member, same, fails⟩

theorem Tracks.joined (done : pool.queue = []) (fine : pool.failure = none) :
    (pool.passed ++ pool.skipped).Perm spawned := by
  have noFailure : pool.failed = [] := by
    rcases failed : pool.failed with _ | ⟨task, rest⟩
    · rfl
    · obtain ⟨known, some_, -⟩ := tracks.fails task (by rw [failed]; exact mem_cons_self)
      rw [fine] at some_
      cases some_
  have accounted := tracks.accounted
  rw [done, noFailure, append_nil, nil_append] at accounted
  exact accounted

theorem Tracks.joined_iff (done : pool.queue = [])
    (all : pool.skipped = []) : pool.failure = none ↔ ∀ task ∈ spawned, check task = .ok () := by
  constructor
  · intro fine task member
    have accounted := tracks.joined done fine
    rw [all, append_nil] at accounted
    exact tracks.passes task (accounted.mem_iff.mpr member)
  · intro passes
    by_contra failed
    obtain ⟨known, some_⟩ := Option.ne_none_iff_exists'.mp failed
    obtain ⟨task, member, -, fails⟩ := tracks.failure known some_
    have spawnedTask : task ∈ spawned := tracks.accounted.mem_iff.mp (by simp [member])
    rw [passes task spawnedTask] at fails
    cases fails

end TaskPool
