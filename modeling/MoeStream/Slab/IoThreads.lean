import Mathlib.Algebra.Order.Field.Rat
import Mathlib.Data.List.Induction
import MoeStream.Foundation.TryEach
import MoeStream.Foundation.Turns

/-!
# The number of I/O threads

Embedding of `io_threads_for_this_call` and `io_threads_record`: the candidates
take turns while bandwidth is measured, then the best of them stays.  Times are
exact; what the clock says at both ends of a call is an input.
-/

set_option autoImplicit false

namespace MoeStream

open Foundation.TryEach Foundation.Turns

def thCand : List Nat := [2, 4, 6, 8, 12, 16]

def thN : Nat := 6

/-- `40 * TH_N * 20`. -/
def thEnough : Nat := 40 * thN * 20

/-- A batch that was read: its bytes and the clock before and after. -/
structure IoCall where
  bytes : Nat
  began : ℚ
  ended : ℚ

def IoCall.dt (c : IoCall) : ℚ := c.ended - c.began

/-- The variables of the tuner, after those of `MOESTREAM_IO_THREADS`. -/
structure IoTuner where
  auto : Bool
  nthreads : Nat
  bytes : Nat → Nat := fun _ => 0
  time : Nat → ℚ := fun _ => 0
  cur : Nat := 0
  calls : Nat := 0
  settled : Bool := false

namespace IoTuner

variable (s : IoTuner) (c : IoCall)

/-- `io_threads_for_this_call`. -/
def forThisCall : Nat := if !s.auto || s.settled then s.nthreads else thCand.getD s.cur 0

def bandwidth (i : Nat) : ℚ := if 0 < s.time i then s.bytes i / s.time i else 0

/-- `bw` and `best` after the scan. -/
def best : ℚ × Nat :=
  Foundation.TryEach.best (0, 0) ((List.range thN).map fun i => (s.bandwidth i, i))

def sample : IoTuner :=
  if 0 < c.dt then
    { s with
      bytes := Function.update s.bytes s.cur (s.bytes s.cur + c.bytes)
      time := Function.update s.time s.cur (s.time s.cur + c.dt) }
  else s

/-- `io_threads_record`; the first argument of a call that is not timed is `0`. -/
def record : IoTuner :=
  if !s.auto || s.settled || decide (c.began ≤ 0) then s
  else
    let s' := s.sample c
    let calls := s.calls + 1
    let s' := { s' with
      calls := calls
      cur := if calls % 40 = 0 then (s.cur + 1) % thN else s.cur }
    if thEnough ≤ calls then { s' with nthreads := thCand.getD s'.best.2 0, settled := true }
    else s'

end IoTuner

def afterIo (auto : Bool) (nthreads : Nat) (calls : List IoCall) : IoTuner :=
  calls.foldl IoTuner.record { auto := auto, nthreads := nthreads }

/-! ## The samples -/

def timed (calls : List IoCall) : List IoCall := calls.filter fun c => !decide (c.began ≤ 0)

/-- Those that `i` was tried with, and that took time. -/
def samples (calls : List IoCall) (i : Nat) : List IoCall :=
  (taken (turn 40 thN) i calls).filter fun c => decide (0 < c.dt)

def measured (calls : List IoCall) (i : Nat) : ℚ :=
  let time := ((samples calls i).map IoCall.dt).sum
  if 0 < time then ((samples calls i).map IoCall.bytes).sum / time else 0

structure IoTuner.Measures (s : IoTuner) (run : List IoCall) : Prop where
  auto : s.auto = true
  unsettled : s.settled = false
  calls : s.calls = run.length
  cur : s.cur = turn 40 thN run.length
  bytes : ∀ i, s.bytes i = ((samples run i).map IoCall.bytes).sum
  time : ∀ i, s.time i = ((samples run i).map IoCall.dt).sum

variable {s : IoTuner} {nthreads : Nat} {run : List IoCall}

theorem samples_append (run : List IoCall) (c : IoCall) (i : Nat) :
    samples (run ++ [c]) i =
      samples run i ++ if turn 40 thN run.length = i ∧ 0 < c.dt then [c] else [] := by
  rw [samples, taken_append, List.filter_append, samples]
  by_cases own : turn 40 thN run.length = i
  · by_cases took : 0 < c.dt <;> simp [own, took]
  · simp [own]

namespace IoTuner

theorem Measures.bandwidth (measures : s.Measures run) (i : Nat) :
    s.bandwidth i = measured run i := by
  rw [IoTuner.bandwidth, measured, measures.bytes, measures.time]

theorem Measures.sample (measures : s.Measures run) (c : IoCall) :
    (s.sample c).auto = true ∧ (s.sample c).settled = false ∧
      (∀ i, (s.sample c).bytes i = ((samples (run ++ [c]) i).map IoCall.bytes).sum) ∧
      ∀ i, (s.sample c).time i = ((samples (run ++ [c]) i).map IoCall.dt).sum := by
  have added := samples_append run c
  rw [← measures.cur] at added
  rw [IoTuner.sample]
  by_cases took : 0 < c.dt
  · rw [if_pos took]
    refine ⟨measures.auto, measures.unsettled, fun i => ?_, fun i => ?_⟩
    · by_cases own : s.cur = i
      · subst own
        simp [added, took, measures.bytes]
      · simp [added, own, Ne.symm own, measures.bytes]
    · by_cases own : s.cur = i
      · subst own
        simp [added, took, measures.time]
      · simp [added, own, Ne.symm own, measures.time]
  · have same (i : Nat) : samples (run ++ [c]) i = samples run i := by simp [added, took]
    rw [if_neg took]
    simp only [same]
    exact ⟨measures.auto, measures.unsettled, measures.bytes, measures.time⟩

/-- One more call, before the tuner looks whether they are enough. -/
theorem Measures.counted (measures : s.Measures run) (c : IoCall) :
    ({ s.sample c with
        calls := s.calls + 1
        cur := if (s.calls + 1) % 40 = 0 then (s.cur + 1) % thN else s.cur } :
      IoTuner).Measures (run ++ [c]) := by
  obtain ⟨auto, unsettled, bytes, time⟩ := measures.sample c
  refine ⟨auto, unsettled, ?_, ?_, bytes, time⟩
  · rw [List.length_append, List.length_singleton, ← measures.calls]
  · rw [List.length_append, List.length_singleton, turn_succ, ← measures.cur, ← measures.calls]

/-! ## The best -/

theorem bandwidth_nonneg (s : IoTuner) (i : Nat) : 0 ≤ s.bandwidth i := by
  rw [bandwidth]
  split
  · rename_i took
    exact div_nonneg (Nat.cast_nonneg _) took.le
  · exact le_refl 0

theorem best_spec (s : IoTuner) :
    s.best.2 < thN ∧ ∀ i < thN, s.bandwidth i ≤ s.bandwidth s.best.2 := by
  have most := le_best (0, 0) ((List.range thN).map fun i => (s.bandwidth i, i))
  have high (i : Nat) (inside : i < thN) : s.bandwidth i ≤ s.best.1 :=
    most (s.bandwidth i, i) (List.mem_cons_of_mem _
      (List.mem_map.mpr ⟨i, List.mem_range.mpr inside, rfl⟩))
  rcases List.mem_cons.mp
    (best_mem (0, 0) ((List.range thN).map fun i => (s.bandwidth i, i))) with none | listed
  · -- no bandwidth is positive, and the first candidate is kept
    have best : s.best = (0, 0) := none
    rw [best] at high ⊢
    exact ⟨by decide, fun i inside => (high i inside).trans (s.bandwidth_nonneg 0)⟩
  · obtain ⟨i, inside, same⟩ := List.mem_map.mp listed
    have best : s.best = (s.bandwidth i, i) := same.symm
    rw [best] at high ⊢
    exact ⟨List.mem_range.mp inside, high⟩

/-! ## A run -/

structure After (s : IoTuner) (run : List IoCall) : Prop where
  measures : run.length < thEnough → s.Measures run
  settles : thEnough ≤ run.length → s.settled = true ∧ ∃ b < thN,
    s.nthreads = thCand.getD b 0 ∧
      ∀ i < thN, measured (run.take thEnough) i ≤ measured (run.take thEnough) b

theorem record_silent {c : IoCall} (silent : s.settled = true ∨ c.began ≤ 0) :
    s.record c = s := by
  rw [record, if_pos]
  rcases silent with settled | early
  · simp [settled]
  · simp [early]

theorem After.record (after : s.After run) {c : IoCall} (counts : ¬c.began ≤ 0) :
    (s.record c).After (run ++ [c]) := by
  by_cases enough : thEnough ≤ run.length
  · obtain ⟨settled, best⟩ := after.settles enough
    rw [record_silent (Or.inl settled)]
    refine ⟨fun few => ?_, fun _ => ⟨settled, ?_⟩⟩
    · rw [List.length_append] at few
      omega
    · rwa [List.take_append_of_le_length enough]
  · have measures := after.measures (Nat.lt_of_not_le enough)
    have counted := measures.counted c
    have length : (run ++ [c]).length = s.calls + 1 := by simp [measures.calls]
    rw [IoTuner.record, if_neg (by simp [measures.auto, measures.unsettled, counts])]
    by_cases last : thEnough ≤ s.calls + 1
    · have whole : (run ++ [c]).take thEnough = run ++ [c] :=
        List.take_of_length_le (by have few := measures.calls; omega)
      simp only [if_pos last]
      refine ⟨fun few => by omega, fun _ => ⟨rfl, _, (best_spec _).1, rfl, fun i inside => ?_⟩⟩
      rw [whole, ← counted.bandwidth, ← counted.bandwidth]
      exact (best_spec _).2 i inside
    · simp only [if_neg last]
      exact ⟨fun _ => counted, fun many => by omega⟩

theorem after_run (nthreads : Nat) (calls : List IoCall) :
    (afterIo true nthreads calls).After (timed calls) := by
  induction calls using List.reverseRecOn with
  | nil =>
      have none (i : Nat) : samples (timed []) i = [] := rfl
      refine ⟨fun _ => ⟨rfl, rfl, rfl, rfl, fun i => ?_, fun i => ?_⟩, fun many => ?_⟩
      · rw [none]
        rfl
      · rw [none]
        rfl
      · exact absurd many (by decide)
  | append_singleton calls c ih =>
      rw [afterIo, List.foldl_append, timed, List.filter_append]
      by_cases early : c.began ≤ 0
      · have dropped : [c].filter (fun c => !decide (c.began ≤ 0)) = [] := by simp [early]
        rw [dropped, List.append_nil, List.foldl_cons, List.foldl_nil, record_silent (Or.inr early)]
        exact ih
      · have kept : [c].filter (fun c => !decide (c.began ≤ 0)) = [c] := by simp [early]
        rw [kept, List.foldl_cons, List.foldl_nil]
        exact ih.record early

theorem settled_foldl (settled : s.settled = true) (more : List IoCall) :
    more.foldl IoTuner.record s = s := by
  induction more with
  | nil => rfl
  | cons c more ih => rw [List.foldl_cons, record_silent (Or.inl settled), ih]

theorem pinned_run (nthreads : Nat) (calls : List IoCall) :
    afterIo false nthreads calls = { auto := false, nthreads := nthreads } := by
  induction calls using List.reverseRecOn with
  | nil => rfl
  | append_singleton calls c ih =>
      rw [afterIo, List.foldl_append, ← afterIo, ih]
      rfl

end IoTuner

/-- In any run the candidates take turns of 40 timed calls, until each has had 800; from then
on every call gets a candidate whose bandwidth over those calls is the largest.  A number
that was set is never changed. -/
theorem io_threads_settle (nthreads : Nat) (calls : List IoCall) :
    ((timed calls).length < thEnough →
      (afterIo true nthreads calls).forThisCall =
        thCand.getD (turn 40 thN (timed calls).length) 0) ∧
    (thEnough ≤ (timed calls).length →
      (∀ i < thN, (taken (turn 40 thN) i ((timed calls).take thEnough)).length = 800) ∧
      ∃ b < thN,
        (∀ i < thN, measured ((timed calls).take thEnough) i ≤
          measured ((timed calls).take thEnough) b) ∧
        ∀ more, (afterIo true nthreads (calls ++ more)).forThisCall = thCand.getD b 0) ∧
    (afterIo false nthreads calls).forThisCall = nthreads := by
  have after := IoTuner.after_run nthreads calls
  refine ⟨fun few => ?_, fun enough => ⟨fun i inside => ?_, ?_⟩, ?_⟩
  · have measures := after.measures few
    simp [IoTuner.forThisCall, measures.auto, measures.unsettled, measures.cur]
  · rw [length_taken, List.length_take, Nat.min_eq_left enough]
    exact count_turn (by decide) inside 20
  · obtain ⟨settled, b, inside, threads, most⟩ := after.settles enough
    refine ⟨b, inside, most, fun more => ?_⟩
    rw [afterIo, List.foldl_append, ← afterIo, IoTuner.settled_foldl settled]
    simp [IoTuner.forThisCall, settled, threads]
  · rw [IoTuner.pinned_run]
    rfl

end MoeStream
