import MoeStream.Arena.DenseServes
import MoeStream.Foundation.DirectMapped

/-!
# The loads of the dense arena

Which layers a run reads, counted where `dense_load_layer` counts them.  The op
waits for the thread before it looks whether its layer is there, so whatever the
interleaving the loads are those of a store that is asked for each op's layer and
for the layer its thread was started for, one after the other.
-/

set_option autoImplicit false

namespace MoeStream.Dense

open Foundation.DirectMapped

variable {d : Arena} {preads : (DenseInfo → Nat → Nat → Int) → Prop}

/-! ## What a run loads -/

def State.calls (s s' : State) : List Nat :=
  match s.phase, s'.phase with
  | .idle, .waiting il => [il]
  | _, _ => []

def Phase.loads : Phase → Phase → List Nat
  | .reading il [], .loaded _ => [il]
  | _, _ => []

def Thread.loads : Option Thread → Option Thread → List Nat
  | some (.reading il []), some (.done _) => [il]
  | _, _ => []

/-- Where `g_dn_loads` is incremented. -/
def State.loads (s s' : State) : List Nat :=
  Phase.loads s.phase s'.phase ++ Thread.loads s.thread s'.thread

/-- Runs, with the layers of the ops that were called and the layers that were loaded. -/
inductive Run (d : Arena) (preads : (DenseInfo → Nat → Nat → Int) → Prop) (start : State) :
    List Nat → List Nat → State → Prop
  | refl : Run d preads start [] [] start
  | step {ops loads : List Nat} {s s' : State} (run : Run d preads start ops loads s)
      (next : Step d preads s s') :
      Run d preads start (ops ++ s.calls s') (loads ++ s.loads s') s'

/-! ## The accesses -/

def Arena.ahead (d : Arena) (il : Nat) : List Nat :=
  if (d.dnKick (il + 1)).isSome && (d.view (il + 1)).isSome then [il + 1] else []

def Arena.accesses (d : Arena) (ops : List Nat) : List Nat := ops.flatMap fun il => il :: d.ahead il

def Thread.due (d : Arena) : Thread → List Nat
  | .kicked il => if (d.view il).isSome then [il] else []
  | .reading il _ => [il]
  | .done _ => []

def Phase.due (d : Arena) : Phase → List Nat
  | .idle => []
  | .waiting il => il :: d.ahead il
  | .reading il _ => il :: d.ahead il
  | .loaded il => d.ahead il
  | .computing _ => []

def State.due (d : Arena) (s : State) : List Nat :=
  (s.thread.elim [] (Thread.due d)) ++ s.phase.due d

/-- The arena is where the accesses that are not due have left it; what is being read is
not there. -/
structure Linear (d : Arena) (ops loads : List Nat) (s : State) : Prop where
  asked : ∃ l, d.accesses ops = l ++ s.due d ∧ touches (· % d.nbuf) l = (s.resident, loads)
  user : ∀ {il pending}, s.phase = .reading il pending → s.resident (il % d.nbuf) ≠ some il
  helper : ∀ {il pending}, s.thread = some (.reading il pending) →
    s.resident (il % d.nbuf) ≠ some il

@[simp] theorem Phase.loads_self (phase : Phase) : Phase.loads phase phase = [] := by
  cases phase with
  | reading il pending => cases pending <;> rfl
  | _ => rfl

@[simp] theorem Thread.loads_self (thread : Option Thread) : Thread.loads thread thread = [] := by
  cases thread with
  | none => rfl
  | some thread =>
      cases thread with
      | reading il pending => cases pending <;> rfl
      | _ => rfl

@[simp] theorem Thread.loads_none (thread : Option Thread) : Thread.loads thread none = [] := by
  cases thread with
  | none => rfl
  | some thread =>
      cases thread with
      | reading il pending => cases pending <;> rfl
      | _ => rfl

section Labels

variable {s s' : State}

theorem State.calls_busy (busy : s.phase ≠ .idle) : s.calls s' = [] := by
  rw [State.calls]
  split
  · rename_i idle _
    exact absurd idle busy
  · rfl

theorem State.calls_thread (s : State) (mem : ArenaCell → Byte) (resident : Nat → Option Nat)
    (thread : Option Thread) : s.calls ⟨mem, resident, thread, s.phase⟩ = [] := by
  rw [State.calls]
  cases s.phase <;> rfl

theorem State.loads_op (s : State) (mem : ArenaCell → Byte) (resident : Nat → Option Nat)
    (phase : Phase) :
    s.loads ⟨mem, resident, s.thread, phase⟩ = Phase.loads s.phase phase := by
  rw [State.loads, Thread.loads_self, List.append_nil]

theorem State.loads_thread (s : State) (mem : ArenaCell → Byte) (resident : Nat → Option Nat)
    (thread : Option Thread) :
    s.loads ⟨mem, resident, thread, s.phase⟩ = Thread.loads s.thread thread := by
  rw [State.loads, Phase.loads_self, List.nil_append]

end Labels

theorem kick_due (d : Arena) (il : Nat) :
    (d.dnKick (il + 1)).elim [] (Thread.due d) = d.ahead il := by
  rcases dnKick_cases d (il + 1) with none | kicked
  · simp [none, Arena.ahead]
  · simp [kicked, Arena.ahead, Thread.due]

/-! ## One step -/

section Step

variable {ops loads : List Nat} {s s' : State}

theorem touches_hit {l : List Nat} {il : Nat}
    (asked : touches (· % d.nbuf) l = (s.resident, loads))
    (hit : s.resident (il % d.nbuf) = some il) :
    touches (· % d.nbuf) (l ++ [il]) = (s.resident, loads) := by
  rw [touches_append, asked]
  exact touch_hit hit

theorem touches_miss {l : List Nat} {il : Nat}
    (asked : touches (· % d.nbuf) l = (s.resident, loads))
    (miss : s.resident (il % d.nbuf) ≠ some il) :
    touches (· % d.nbuf) (l ++ [il]) =
      (Function.update s.resident (il % d.nbuf) (some il), loads ++ [il]) := by
  rw [touches_append, asked]
  exact touch_miss miss

theorem Step.linear (step : Step d preads s s') (formed : Formed d s)
    (linear : Linear d ops loads s) :
    Linear d (ops ++ s.calls s') (loads ++ s.loads s') s' := by
  obtain ⟨l, order, asked⟩ := linear.asked
  cases step with
  | @call il idle inserted =>
      have own : s.calls { s with phase := .waiting il } = [il] := by rw [State.calls, idle]
      rw [own, State.loads_op, idle]
      refine ⟨⟨l, ?_, ?_⟩, nofun, linear.helper⟩
      · rw [Arena.accesses, List.flatMap_append, ← Arena.accesses, order]
        simp [State.due, idle, Phase.due]
      · simpa [Phase.loads] using asked
  | @load il pread waiting wait io =>
      have finished : s.thread.elim [] (Thread.due d) = [] := by
        cases thread : s.thread with
        | none => rfl
        | some thread' =>
            rw [thread] at wait
            cases thread' with
            | done il => rfl
            | kicked il => exact wait.elim
            | reading il pending => exact wait.elim
      rw [State.calls_busy (by rw [waiting]; nofun), State.loads, waiting, Thread.loads_none,
        List.append_nil, List.append_nil]
      rw [State.due, finished, waiting] at order
      have silent : loads ++ Phase.loads (.waiting il)
          ((d.denseLoadLayer il pread s.resident).elim (.loaded il) (.reading il)) = loads :=
        List.append_nil loads
      rw [silent]
      cases result : d.denseLoadLayer il pread s.resident with
      | none =>
          have there := denseLoadLayer_hit result (formed.user (by rw [waiting]; rfl))
          refine ⟨⟨l ++ [il], ?_, touches_hit asked there⟩, nofun, nofun⟩
          rw [order]
          simp [State.due, Phase.due]
      | some pending =>
          refine ⟨⟨l, order, asked⟩, ?_, nofun⟩
          intro il' pending' reading
          cases reading
          exact (denseLoadLayer_eq_some.mp result).1
  | @read il first rest w reading =>
      have silent : Phase.loads (.reading il (first ++ w :: rest)) (.reading il (first ++ rest)) =
          [] := by cases first <;> rfl
      rw [State.calls_busy (by rw [reading]; nofun), State.loads_op, reading, silent,
        List.append_nil, List.append_nil]
      rw [State.due, reading] at order
      refine ⟨⟨l, order, asked⟩, ?_, linear.helper⟩
      intro il' pending' same
      cases same
      exact linear.user reading
  | @record il read =>
      have alone := formed.waited (by rw [read]; rfl)
      have one : Phase.loads (.reading il []) (.loaded il) = [il] := rfl
      rw [State.calls_busy (by rw [read]; nofun), State.loads_op, read, one, List.append_nil]
      rw [State.due, read, alone] at order
      refine ⟨⟨l ++ [il], ?_, touches_miss asked (linear.user read)⟩, nofun, ?_⟩
      · rw [order]
        simp [State.due, Phase.due, alone]
      · intro il' pending thread
        rw [alone] at thread
        cases thread
  | @launch il loaded =>
      have alone := formed.waited (by rw [loaded]; rfl)
      have silent :
          s.loads { s with thread := d.dnKick (il + 1), phase := .computing il } = [] := by
        rw [State.loads, loaded, alone]
        rfl
      rw [State.calls_busy (by rw [loaded]; nofun), silent, List.append_nil, List.append_nil]
      rw [State.due, loaded, alone] at order
      refine ⟨⟨l, ?_, asked⟩, nofun, ?_⟩
      · rw [order]
        simp [State.due, Phase.due, kick_due]
      · intro il' pending thread
        rcases dnKick_cases d (il + 1) with none | ⟨kicked, -⟩
        · rw [none] at thread
          cases thread
        · rw [kicked] at thread
          cases thread
  | @start il pread kicked io =>
      have user : ∀ {il pending}, s.phase = .reading il pending →
          s.resident (il % d.nbuf) ≠ some il := linear.user
      have silent (thread : Option Thread) : Thread.loads (some (.kicked il)) thread = [] := rfl
      rw [State.calls_thread, State.loads_thread, kicked, silent, List.append_nil,
        List.append_nil]
      rw [State.due, kicked] at order
      cases result : d.denseLoadLayer il pread s.resident with
      | none =>
          refine ⟨?_, user, nofun⟩
          by_cases shown : (d.view il).isSome
          · refine ⟨l ++ [il], ?_, touches_hit asked (denseLoadLayer_hit result shown)⟩
            rw [order]
            simp [State.due, Thread.due, shown]
          · refine ⟨l, ?_, asked⟩
            rw [order]
            simp [State.due, Thread.due, shown]
      | some pending =>
          have shown := denseLoadLayer_view result
          refine ⟨⟨l, ?_, asked⟩, user, ?_⟩
          · rw [order]
            simp [State.due, Thread.due, shown]
          · intro il' pending' thread
            cases thread
            exact (denseLoadLayer_eq_some.mp result).1
  | @fetch il first rest w reading =>
      have silent : Thread.loads (some (.reading il (first ++ w :: rest)))
          (some (.reading il (first ++ rest))) = [] := by cases first <;> rfl
      rw [State.calls_thread, State.loads_thread, reading, silent, List.append_nil,
        List.append_nil]
      rw [State.due, reading] at order
      refine ⟨⟨l, order, asked⟩, linear.user, ?_⟩
      intro il' pending' thread
      cases thread
      exact linear.helper reading
  | @note il read =>
      have one : Thread.loads (some (.reading il [])) (some (.done il)) = [il] := rfl
      rw [State.calls_thread, State.loads_thread, read, one, List.append_nil]
      rw [State.due, read] at order
      refine ⟨⟨l ++ [il], ?_, touches_miss asked (linear.helper read)⟩, ?_, nofun⟩
      · rw [order]
        simp [State.due, Thread.due]
      · -- the op does not read beside the thread
        intro il' pending reading
        have alone := formed.waited (by rw [reading]; rfl)
        rw [alone] at read
        cases read
  | @finish il computing =>
      have silent : Phase.loads (.computing il) .idle = [] := rfl
      rw [State.calls_busy (by rw [computing]; nofun), State.loads_op, computing, silent,
        List.append_nil, List.append_nil]
      rw [State.due, computing] at order
      exact ⟨⟨l, order, asked⟩, nofun, linear.helper⟩

end Step

/-! ## A run -/

section Runs

variable {mem : ArenaCell → Byte} {ops ops' loads loads' : List Nat} {start s s' : State}

theorem Run.formed (run : Run d preads (.start mem) ops loads s) : Formed d s := by
  induction run with
  | refl => exact start_formed mem
  | step run next ih => exact next.formed ih

theorem Run.linear (run : Run d preads (.start mem) ops loads s) : Linear d ops loads s := by
  induction run with
  | refl => exact ⟨⟨[], rfl, rfl⟩, nofun, nofun⟩
  | step run next ih => exact next.linear run.formed ih

theorem Run.shown (run : Run d preads (.start mem) ops loads s) :
    ∀ il ∈ ops, (d.view il).isSome := by
  induction run with
  | refl => nofun
  | @step ops loads s s' run next ih =>
      intro il member
      rcases List.mem_append.mp member with old | new
      · exact ih il old
      · refine (next.formed run.formed).user ?_
        rw [State.calls] at new
        split at new
        · rename_i waiting
          rw [waiting, List.mem_singleton.mp new]
          rfl
        · cases new

theorem Run.trans (run : Run d preads start ops loads s) (later : Run d preads s ops' loads' s') :
    Run d preads start (ops ++ ops') (loads ++ loads') s' := by
  induction later with
  | refl => simpa using run
  | step _ next ih =>
      rw [← List.append_assoc, ← List.append_assoc]
      exact ih.step next

/-- The layers of a graph that are asked for ahead are asked for next. -/
theorem ahead_next {L : Nat} (bound : d.nLayer = d.first + L) :
    ∀ il ∈ List.range' d.first L,
      d.ahead il = [] ∨ d.ahead il = [il + 1] ∧ il + 1 < d.first + L := by
  intro il member
  rw [Arena.ahead]
  split
  · rename_i both
    refine Or.inr ⟨rfl, ?_⟩
    by_contra last
    have none : d.dnKick (il + 1) = none := by
      rw [Arena.dnKick]
      split
      · rfl
      · rw [if_pos (Or.inr (by omega))]
    simp [none] at both
  · exact Or.inl rfl

/-! ## Runs there are -/

theorem Run.one (next : Step d preads s s') :
    Run d preads s (s.calls s') (s.loads s') s' := .step .refl next

theorem reads_run {il : Nat} (pending : List (ArenaCell × Byte)) {s : State}
    (reading : s.phase = .reading il pending) :
    ∃ s', Run d preads s [] [il] s' ∧ s'.phase = .loaded il ∧ s'.thread = s.thread := by
  induction pending generalizing s with
  | nil =>
      have record : Step d preads s { s with
          resident := Function.update s.resident (il % d.nbuf) (some il), phase := .loaded il } :=
        .record reading
      have run := Run.one record
      rw [State.calls_busy (by rw [reading]; nofun), State.loads_op, reading] at run
      exact ⟨_, run, rfl, rfl⟩
  | cons w rest ih =>
      have first : Step d preads s { s with
          mem := Function.update s.mem w.1 w.2, phase := .reading il ([] ++ rest) } :=
        .read reading
      have run := Run.one first
      have silent : Phase.loads (.reading il (w :: rest)) (.reading il ([] ++ rest)) = [] := rfl
      rw [State.calls_busy (by rw [reading]; nofun), State.loads_op, reading, silent] at run
      obtain ⟨s', later, loaded, same⟩ := ih (s := { s with
        mem := Function.update s.mem w.1 w.2, phase := .reading il ([] ++ rest) }) rfl
      exact ⟨s', run.trans later, loaded, same⟩

theorem fetches_run {il : Nat} (pending : List (ArenaCell × Byte)) {s : State}
    (reading : s.thread = some (.reading il pending)) :
    ∃ s', Run d preads s [] [il] s' ∧ s'.phase = s.phase ∧ Joined s'.thread := by
  induction pending generalizing s with
  | nil =>
      have note : Step d preads s { s with
          resident := Function.update s.resident (il % d.nbuf) (some il)
          thread := some (.done il) } := .note reading
      have run := Run.one note
      rw [State.calls_thread, State.loads_thread, reading] at run
      exact ⟨_, run, rfl, trivial⟩
  | cons w rest ih =>
      have first : Step d preads s { s with
          mem := Function.update s.mem w.1 w.2, thread := some (.reading il ([] ++ rest)) } :=
        .fetch reading
      have run := Run.one first
      have silent : Thread.loads (some (.reading il (w :: rest)))
          (some (.reading il ([] ++ rest))) = [] := rfl
      rw [State.calls_thread, State.loads_thread, reading, silent] at run
      obtain ⟨s', later, same, joined⟩ := ih (s := { s with
        mem := Function.update s.mem w.1 w.2, thread := some (.reading il ([] ++ rest)) }) rfl
      exact ⟨s', run.trans later, same, joined⟩

theorem thread_run {pread : DenseInfo → Nat → Nat → Int} (io : preads pread) {s : State} {il : Nat}
    (kicked : s.thread = some (.kicked il)) :
    ∃ loads s', Run d preads s [] loads s' ∧ s'.phase = s.phase ∧ Joined s'.thread := by
  have started : Step d preads s { s with
      thread := some ((d.denseLoadLayer il pread s.resident).elim (.done il) (.reading il)) } :=
    .start kicked io
  have run := Run.one started
  have silent (thread : Option Thread) : Thread.loads (some (.kicked il)) thread = [] := rfl
  rw [State.calls_thread, State.loads_thread, kicked, silent] at run
  cases result : d.denseLoadLayer il pread s.resident with
  | none =>
      rw [result] at run
      exact ⟨_, _, run, rfl, trivial⟩
  | some pending =>
      rw [result] at run
      have reads : ∃ s', Run d preads { s with thread := some (.reading il pending) } [] [il] s' ∧
          s'.phase = s.phase ∧ Joined s'.thread := fetches_run pending rfl
      obtain ⟨s', later, same, joined⟩ := reads
      exact ⟨_, s', run.trans later, same, joined⟩

theorem load_run {pread : DenseInfo → Nat → Nat → Int} (io : preads pread) {s : State} {il : Nat}
    (waiting : s.phase = .waiting il) (joined : Joined s.thread) :
    ∃ loads s', Run d preads s [] loads s' ∧ s'.phase = .loaded il ∧ s'.thread = none := by
  have load : Step d preads s { s with
      thread := none
      phase := (d.denseLoadLayer il pread s.resident).elim (.loaded il) (.reading il) } :=
    .load waiting joined io
  have run := Run.one load
  have silent (phase : Phase) : Phase.loads (.waiting il) phase ++ [] = [] := rfl
  rw [State.calls_busy (by rw [waiting]; nofun), State.loads, waiting, Thread.loads_none,
    silent] at run
  cases result : d.denseLoadLayer il pread s.resident with
  | none =>
      rw [result] at run
      exact ⟨_, _, run, rfl, rfl⟩
  | some pending =>
      rw [result] at run
      have reads : ∃ s', Run d preads { s with thread := none, phase := .reading il pending }
          [] [il] s' ∧ s'.phase = .loaded il ∧ s'.thread = none := reads_run pending rfl
      obtain ⟨s', later, loaded, alone⟩ := reads
      exact ⟨_, s', run.trans later, loaded, alone⟩

theorem op_run {pread : DenseInfo → Nat → Nat → Int} (io : preads pread) {s : State} {il : Nat}
    (idle : s.phase = .idle) (joined : Joined s.thread) (inserted : (d.view il).isSome) :
    ∃ loads s', Run d preads s [il] loads s' ∧ s'.phase = .idle ∧ Joined s'.thread := by
  have call : Step d preads s { s with phase := .waiting il } := .call idle inserted
  have called := Run.one call
  have own : s.calls { s with phase := .waiting il } = [il] := by rw [State.calls, idle]
  rw [own] at called
  have loads : ∃ loads s', Run d preads { s with phase := .waiting il } [] loads s' ∧
      s'.phase = .loaded il ∧ s'.thread = none := load_run io rfl joined
  obtain ⟨_, r, loading, loaded, _⟩ := loads
  have launch : Step d preads r { r with thread := d.dnKick (il + 1), phase := .computing il } :=
    .launch loaded
  have finish : Step d preads { r with thread := d.dnKick (il + 1), phase := .computing il }
      { r with thread := d.dnKick (il + 1), phase := .idle } := .finish rfl
  have launched := Run.one launch
  have finished := Run.one finish
  rw [State.calls_busy (by rw [loaded]; nofun)] at launched
  rw [State.calls_busy (by nofun)] at finished
  have run := ((called.trans loading).trans launched).trans finished
  rw [List.append_nil, List.append_nil, List.append_nil] at run
  rcases dnKick_cases d (il + 1) with none | ⟨kicked, -⟩
  · refine ⟨_, _, run, rfl, ?_⟩
    rw [none]
    trivial
  · have threads : ∃ loads s', Run d preads
        { r with thread := d.dnKick (il + 1), phase := .idle } [] loads s' ∧
          s'.phase = .idle ∧ Joined s'.thread := thread_run io kicked
    obtain ⟨_, s', later, same, ended⟩ := threads
    have whole := run.trans later
    rw [List.append_nil] at whole
    exact ⟨_, s', whole, same, ended⟩

theorem ops_run {pread : DenseInfo → Nat → Nat → Int} (io : preads pread)
    (mem : ArenaCell → Byte) (ops : List Nat) (shown : ∀ il ∈ ops, (d.view il).isSome) :
    ∃ loads s, Run d preads (.start mem) ops loads s ∧ s.phase = .idle ∧ Joined s.thread := by
  induction ops using List.reverseRecOn with
  | nil => exact ⟨[], _, .refl, rfl, trivial⟩
  | append_singleton ops il ih =>
      obtain ⟨_, s, run, idle, joined⟩ :=
        ih fun il' member => shown il' (List.mem_append_left _ member)
      obtain ⟨_, s', later, idle', joined'⟩ :=
        op_run io idle joined (shown il (by simp))
      exact ⟨_, s', run.trans later, idle', joined'⟩

/-! ## The loads of a run -/

/-- In every interleaving the layers that were loaded, in this order, are those an arena
loads that is asked for the layer of each op and the one its thread was started for.  So
`rounds` more graphs over the streamed layers load exactly the layers of which some other
took the buffer, and the thread never costs a load. -/
theorem dense_loads {mem : ArenaCell → Byte} {ops loads : List Nat} {s : State}
    (run : Run d preads (.start mem) ops loads s) (idle : s.phase = .idle)
    (joined : Joined s.thread) :
    loads = (touches (· % d.nbuf) (d.accesses ops)).2 ∧
      ∀ L rounds, d.nLayer = d.first + L →
        ops = (List.replicate (rounds + 1) (List.range' d.first L)).flatten →
          loads = (touches (· % d.nbuf) ops).2 ∧
            loads.length = L + rounds * min L (2 * (L - d.nbuf)) := by
  obtain ⟨l, order, asked⟩ := run.linear.asked
  have ended : s.due d = [] := by
    rw [State.due, idle]
    cases thread : s.thread with
    | none => rfl
    | some thread' =>
        rw [thread] at joined
        cases thread' with
        | done il => rfl
        | kicked il => exact joined.elim
        | reading il pending => exact joined.elim
  rw [ended, List.append_nil] at order
  rw [← order] at asked
  refine ⟨by rw [asked], ?_⟩
  rintro L rounds bound rfl
  have plain : touches (· % d.nbuf)
      (List.replicate (rounds + 1) (List.range' d.first L)).flatten = (s.resident, loads) := by
    rw [← asked, Arena.accesses, touches_ahead (ahead_next bound)]
  have counted := loads_rounds d.allocated d.first L rounds
  rw [plain] at counted
  exact ⟨by rw [plain], counted⟩

/-- Two graphs over two layers with two buffers load each layer once. -/
theorem dense_loads_pair : ∃ loads s, Run pairArena (fun pread => pread = fullReads)
    (.start fun _ => 255) [0, 1, 0, 1] loads s ∧ loads.length = 2 := by
  have shown : ∀ il ∈ [0, 1, 0, 1], (pairArena.view il).isSome := by decide
  have runs : ∃ loads s, Run pairArena (fun pread => pread = fullReads) (.start fun _ => 255)
      [0, 1, 0, 1] loads s ∧ s.phase = .idle ∧ Joined s.thread :=
    @ops_run pairArena (fun pread => pread = fullReads) fullReads rfl (fun _ => 255) _ shown
  obtain ⟨loads, s, run, idle, joined⟩ := runs
  exact ⟨loads, s, run, ((dense_loads run idle joined).2 2 1 rfl rfl).2⟩

end Runs

end MoeStream.Dense
