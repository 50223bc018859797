import Mathlib.Data.Prod.Lex
import MoeStream.Arena.DenseServes
import MoeStream.Slab.Advances

/-!
# Loads of dense layers come to an end

Workers whose reads make progress bring their whole ranges.  The op and the thread
it waits for have less to do after each of their steps, and one of them can always
go on until the FFN may run.
-/

set_option autoImplicit false

namespace MoeStream

/-- Reads that make progress inside a range of a worker make it whole. -/
theorem Advances.rangeWhole {n : Nat} {pread : Nat → Nat → Int} (advances : Advances n pread)
    (nth : Nat) : RangeWhole pread nth n := by
  intro beg len listed
  have inside := workers_inside listed
  have worker : Advances len fun o => pread (beg + o) := by
    refine ⟨?_, fun o => advances.most (beg + o)⟩
    intro o left positive within
    exact advances.some (beg + o) left positive (by omega)
  exact worker.readLoop 0 len (Nat.zero_add len)

namespace Dense

variable {d : Arena} {preads : (DenseInfo → Nat → Nat → Int) → Prop} {s s' : State}

/-! ## While the FFN runs -/

theorem arena_byte (complete : ∀ pread, preads pread → d.Complete pread)
    (reachable : d.Reachable preads s) {il : Nat} (computing : s.phase = .computing il)
    {role : Role} {v : DenseInfo} (found : d.denseFfn il role = some v) {x : Nat}
    (inside : x < v.bytes) :
    s.mem (il % d.nbuf, v.arenaOff.getD 0 + x) = weightByte d.shards v x := by
  obtain ⟨view, shown, listed, valid, -⟩ := denseFfn_view found
  obtain ⟨w, registered, rfl⟩ := view_some shown
  obtain ⟨off, placed⟩ := viewFrom_placed listed valid
  have running : (s.protocol d).phase = .running il fun _ => True := by
    simp only [State.protocol, computing, Phase.user]
  rw [placed, Option.getD_some]
  exact (reachable_safe complete reachable).2.resident (i := ()) running trivial
    (mem_layerWrites.mpr ⟨_, v, off, x, shown, listed, placed, inside, rfl, rfl⟩)

theorem Step.beside (step : Step d preads s s') {il : Nat} (computing : s.phase = .computing il)
    (own : s'.phase.layer = s.phase.layer) : s'.phase = .computing il := by
  cases step with
  | start | fetch | note => exact computing
  | finish =>
      rw [computing] at own
      cases own
  | call current | load current | read current | record current | launch current =>
      rw [computing] at current
      cases current

theorem Phase.idle_of_layer {phase : Phase} (none : phase.layer = none) : phase = .idle := by
  cases phase with
  | idle => rfl
  | _ => cases none

/-! ## A load comes to its end -/

def Phase.rank : Phase → Nat
  | .idle => 0
  | .computing _ => 1
  | .loaded _ => 2
  | .reading _ _ => 3
  | .waiting _ => 4

def Phase.pending : Phase → List (ArenaCell × Byte)
  | .reading _ pending => pending
  | _ => []

def Thread.rank : Thread → Nat
  | .done _ => 0
  | .reading _ _ => 1
  | .kicked _ => 2

def Thread.pending : Thread → List (ArenaCell × Byte)
  | .reading _ pending => pending
  | _ => []

def State.size (s : State) : Nat ×ₗ Nat ×ₗ Nat :=
  toLex (s.phase.rank, toLex (s.thread.elim 0 Thread.rank,
    s.phase.pending.length + (s.thread.elim [] Thread.pending).length))

theorem Step.smaller (step : Step d preads s s') (own : s'.phase.layer = s.phase.layer) :
    s'.size < s.size := by
  simp only [State.size, Prod.Lex.toLex_lt_toLex]
  cases step with
  | call idle =>
      rw [idle] at own
      cases own
  | @load il pread waiting =>
      left
      cases d.denseLoadLayer il pread s.resident <;> simp [waiting, Phase.rank]
  | read reading =>
      right
      simp [reading, Phase.rank, Phase.pending]
  | record read =>
      left
      simp [read, Phase.rank]
  | launch loaded =>
      left
      simp [loaded, Phase.rank]
  | @start il pread kicked =>
      right
      cases d.denseLoadLayer il pread s.resident <;> simp [kicked, Thread.rank]
  | fetch reading =>
      right
      simp [reading, Thread.rank, Thread.pending]
  | note read =>
      right
      simp [read, Thread.rank]
  | finish computing =>
      rw [computing] at own
      cases own

@[simp] theorem layer_elim {il : Nat} (reads : Option (List (ArenaCell × Byte))) :
    (reads.elim (Phase.loaded il) (Phase.reading il)).layer = some il := by
  cases reads <;> rfl

/-- Until the FFN may run, the op or the thread it waits for can go on. -/
theorem load_onward {il : Nat} {pread : DenseInfo → Nat → Nat → Int} (io : preads pread)
    (at_work : s.phase.layer = some il) (before : s.phase ≠ .computing il) :
    ∃ s', Step d preads s s' ∧ s'.phase.layer = s.phase.layer := by
  cases phase : s.phase with
  | idle =>
      rw [phase] at at_work
      cases at_work
  | computing other =>
      rw [phase] at at_work before
      cases at_work
      exact absurd rfl before
  | loaded other => exact ⟨_, .launch phase, rfl⟩
  | reading other pending =>
      cases pending with
      | nil => exact ⟨_, .record phase, rfl⟩
      | cons w rest =>
          have next : s.phase = .reading other ([] ++ w :: rest) := phase
          exact ⟨_, .read next, rfl⟩
  | waiting other =>
      by_cases joined : Joined s.thread
      · exact ⟨_, .load phase joined io, layer_elim _⟩
      · cases thread : s.thread with
        | none =>
            rw [thread] at joined
            exact absurd trivial joined
        | some work =>
            rw [thread] at joined
            cases work with
            | done il => exact absurd trivial joined
            | kicked il => exact ⟨_, .start thread io, phase ▸ rfl⟩
            | reading il pending =>
                cases pending with
                | nil => exact ⟨_, .note thread, phase ▸ rfl⟩
                | cons w rest =>
                    have next : s.thread = some (.reading il ([] ++ w :: rest)) := thread
                    exact ⟨_, .fetch next, phase ▸ rfl⟩

end Dense

end MoeStream
