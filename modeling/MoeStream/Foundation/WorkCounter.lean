import Mathlib.Algebra.BigOperators.Group.List.Basic
import Mathlib.Algebra.GroupWithZero.Nat
import Mathlib.Data.List.Basic
import Mathlib.Data.List.Perm.Basic

/-!
# Workers that share a counter

Every worker takes the next task by an atomic increment of one counter, runs the
task, and returns once the counter has passed the last task.  Whatever the order
of the steps, the workers come to an end, and then every task has been run once.
-/

set_option autoImplicit false

namespace MoeStream.Foundation.WorkCounter

variable {α : Type}

/-- A worker is before its next increment, runs a task, or has returned. -/
inductive Worker (α : Type) where
  | idle
  | busy (task : α)
  | returned

def Worker.task : Worker α → Option α
  | .busy task => some task
  | _ => none

/-- The counter, the workers, and the tasks that have been run, the last one last. -/
structure State (α : Type) where
  next : Nat
  workers : List (Worker α)
  done : List α

/-- `n` workers before their first increment. -/
def State.start (α : Type) (n : Nat) : State α := ⟨0, List.replicate n .idle, []⟩

inductive Step (tasks : List α) : State α → State α → Prop
  | take {next : Nat} {pre post : List (Worker α)} {done : List α} (inside : next < tasks.length) :
      Step tasks ⟨next, pre ++ .idle :: post, done⟩
        ⟨next + 1, pre ++ .busy tasks[next] :: post, done⟩
  | finish {next : Nat} {pre post : List (Worker α)} {done : List α} {task : α} :
      Step tasks ⟨next, pre ++ .busy task :: post, done⟩
        ⟨next, pre ++ .idle :: post, done ++ [task]⟩
  | leave {next : Nat} {pre post : List (Worker α)} {done : List α} (past : tasks.length ≤ next) :
      Step tasks ⟨next, pre ++ .idle :: post, done⟩ ⟨next + 1, pre ++ .returned :: post, done⟩

inductive Run (tasks : List α) : Nat → State α → State α → Prop
  | refl (s : State α) : Run tasks 0 s s
  | step {k : Nat} {s s' s'' : State α} (run : Run tasks k s s') (step : Step tasks s' s'') :
      Run tasks (k + 1) s s''

def State.Joined (s : State α) : Prop := ∀ w ∈ s.workers, w = .returned

/-! ## Every task once -/

/-- The tasks below the counter have been run or are being run, and nobody
returns before the last of them is taken. -/
structure Inv (tasks : List α) (s : State α) : Prop where
  taken : (s.done ++ s.workers.filterMap Worker.task).Perm (tasks.take s.next)
  passed : Worker.returned ∈ s.workers → tasks.length ≤ s.next

theorem Inv.start (tasks : List α) (n : Nat) : Inv tasks (State.start α n) where
  taken := by
    have none : (List.replicate n (.idle : Worker α)).filterMap Worker.task = [] := by
      apply List.filterMap_eq_nil_iff.mpr
      intro w member
      rw [List.eq_of_mem_replicate member]
      rfl
    simp [State.start, none]
  passed := by
    intro member
    cases List.eq_of_mem_replicate member

/-- A worker that takes a task up puts it behind those that are run. -/
theorem filterMap_busy (pre post : List (Worker α)) (task : α) :
    ((pre ++ .busy task :: post).filterMap Worker.task).Perm
      ((pre ++ .idle :: post).filterMap Worker.task ++ [task]) := by
  simp only [List.filterMap_append, List.filterMap_cons, Worker.task, List.append_assoc]
  exact (List.perm_append_singleton task (post.filterMap Worker.task)).symm.append_left _

theorem mem_replace {pre post : List (Worker α)} {w w' : Worker α} (other : .returned ≠ w')
    (member : Worker.returned ∈ pre ++ w' :: post) : Worker.returned ∈ pre ++ w :: post := by
  rcases List.mem_append.mp member with before | after
  · exact List.mem_append_left _ before
  · rcases List.mem_cons.mp after with same | later
    · exact absurd same other
    · exact List.mem_append_right _ (List.mem_cons_of_mem _ later)

theorem Inv.step {tasks : List α} {s s' : State α} (inv : Inv tasks s) (step : Step tasks s s') :
    Inv tasks s' := by
  obtain ⟨taken, passed⟩ := inv
  cases step with
  | @take next pre post done inside =>
      refine ⟨?_, fun member => Nat.le_succ_of_le (passed (mem_replace (by simp) member))⟩
      calc (done ++ (pre ++ .busy tasks[next] :: post).filterMap Worker.task).Perm
            (done ++ ((pre ++ .idle :: post).filterMap Worker.task ++ [tasks[next]])) :=
            (filterMap_busy pre post _).append_left done
        List.Perm _ (tasks.take next ++ [tasks[next]]) := by
            rw [← List.append_assoc]
            exact taken.append_right _
        _ = tasks.take (next + 1) := (List.take_append_getElem inside)
  | @finish next pre post done task =>
      refine ⟨?_, fun member => passed (mem_replace (by simp) member)⟩
      refine List.Perm.trans ?_ taken
      rw [List.append_assoc]
      refine List.Perm.append_left done ?_
      exact (List.perm_append_comm.trans (filterMap_busy pre post task).symm)
  | @leave next pre post done past =>
      refine ⟨?_, fun _ => Nat.le_succ_of_le past⟩
      have all : tasks.take (next + 1) = tasks.take next := by
        rw [List.take_of_length_le past, List.take_of_length_le (Nat.le_succ_of_le past)]
      have none : (pre ++ .returned :: post).filterMap Worker.task =
          (pre ++ .idle :: post).filterMap Worker.task := by
        simp only [List.filterMap_append, List.filterMap_cons, Worker.task]
      dsimp only at taken ⊢
      rw [all, none]
      exact taken

theorem Inv.run {tasks : List α} {k : Nat} {s s' : State α} (inv : Inv tasks s)
    (run : Run tasks k s s') : Inv tasks s' := by
  induction run with
  | refl => exact inv
  | step _ step ih => exact (ih inv).step step

theorem Step.workers {tasks : List α} {s s' : State α} (step : Step tasks s s') :
    s'.workers.length = s.workers.length := by
  cases step <;> simp

theorem Run.workers {tasks : List α} {k : Nat} {s s' : State α} (run : Run tasks k s s') :
    s'.workers.length = s.workers.length := by
  induction run with
  | refl => rfl
  | step _ step ih => rw [step.workers, ih]

theorem joined_done {tasks : List α} {n k : Nat} {s : State α} (some : 0 < n)
    (run : Run tasks k (State.start α n) s) (joined : s.Joined) : s.done.Perm tasks := by
  obtain ⟨taken, passed⟩ := (Inv.start tasks n).run run
  have many : s.workers.length = n := by
    rw [run.workers]
    exact List.length_replicate
  have none : s.workers.filterMap Worker.task = [] := by
    apply List.filterMap_eq_nil_iff.mpr
    intro w member
    rw [joined w member]
    rfl
  have last : tasks.length ≤ s.next := by
    apply passed
    obtain ⟨w, member⟩ := List.exists_mem_of_length_pos (many ▸ some)
    rwa [← joined w member]
  rwa [none, List.append_nil, List.take_of_length_le last] at taken

/-! ## The end -/

def Worker.rank : Worker α → Nat
  | .idle => 1
  | .busy _ => 2
  | .returned => 0

def State.rank (tasks : List α) (s : State α) : Nat :=
  2 * (tasks.length - s.next) + (s.workers.map Worker.rank).sum

theorem Step.rank {tasks : List α} {s s' : State α} (step : Step tasks s s') :
    s'.rank tasks + 1 = s.rank tasks := by
  cases step with
  | take inside =>
      simp only [State.rank, List.map_append, List.map_cons, List.sum_append, List.sum_cons,
        Worker.rank]
      omega
  | finish =>
      simp only [State.rank, List.map_append, List.map_cons, List.sum_append, List.sum_cons,
        Worker.rank]
      omega
  | leave past =>
      simp only [State.rank, List.map_append, List.map_cons, List.sum_append, List.sum_cons,
        Worker.rank]
      omega

theorem Run.rank {tasks : List α} {k : Nat} {s s' : State α} (run : Run tasks k s s') :
    s'.rank tasks + k = s.rank tasks := by
  induction run with
  | refl => rfl
  | step _ step ih =>
      have one := step.rank
      omega

/-- No run has more steps than two for each task and one for each worker. -/
theorem run_bounded {tasks : List α} {n k : Nat} {s : State α}
    (run : Run tasks k (State.start α n) s) : k ≤ 2 * tasks.length + n := by
  have left := run.rank
  have all : (State.start α n).rank tasks = 2 * tasks.length + n := by
    simp [State.start, State.rank, Worker.rank]
  omega

theorem step_exists (tasks : List α) {s : State α} (unfinished : ¬s.Joined) :
    ∃ s', Step tasks s s' := by
  obtain ⟨next, workers, done⟩ := s
  simp only [State.Joined] at unfinished
  push Not at unfinished
  obtain ⟨w, member, active⟩ := unfinished
  obtain ⟨pre, post, rfl⟩ := List.append_of_mem member
  cases w with
  | idle =>
      rcases Nat.lt_or_ge next tasks.length with inside | past
      · exact ⟨_, .take inside⟩
      · exact ⟨_, .leave past⟩
  | busy task => exact ⟨_, .finish⟩
  | returned => exact absurd rfl active

theorem run_joins {tasks : List α} {k : Nat} {first s : State α} (run : Run tasks k first s) :
    ∃ k' s', Run tasks k' first s' ∧ s'.Joined := by
  induction left : s.rank tasks generalizing k s with
  | zero =>
      refine ⟨k, s, run, ?_⟩
      by_contra unfinished
      obtain ⟨s', step⟩ := step_exists tasks unfinished
      have less := step.rank
      omega
  | succ left ih =>
      by_cases joined : s.Joined
      · exact ⟨k, s, run, joined⟩
      · obtain ⟨s', step⟩ := step_exists tasks joined
        have less := step.rank
        exact ih (run.step step) (by omega)

end MoeStream.Foundation.WorkCounter
