import Mathlib.Data.Prod.Lex
import MoeStream.Arena.PrefillServes
import MoeStream.Slab.Advances
import MoeStream.Slab.Exhaustion

/-!
# Loads that read inside the file

A load asks only for experts of its layer, so reads that bring those whole are as
good as reads that bring everything whole.
-/

set_option autoImplicit false

namespace MoeStream.Prefill

open Foundation Foundation.Writes

variable {a : Arena} {preads : (ReadJob → Nat → Nat → Int) → Prop} {s s' : State}

def Arena.Inside (a : Arena) (preads : (ReadJob → Nat → Nat → Int) → Prop) : Prop :=
  ∀ pread, preads pread → ∀ il L, a.layers il = some L → ∀ job : ReadJob,
    job.expert < L.gate.nExpert → Whole a.shards (L.role job.role) (pread job)

theorem loadLayerArena_expert {il : Nat} {L : LayerSlabs} {need : Option (Nat → Bool)}
    {g : Residency} (layer : a.layers il = some L) :
    ∀ job ∈ (a.loadLayerArena il need g).2, job.expert < L.gate.nExpert := by
  intro job listed
  simp only [Arena.loadLayerArena, layer] at listed
  obtain ⟨e, missing, listed⟩ := List.mem_flatMap.mp listed
  obtain ⟨role, -, rfl⟩ := List.mem_map.mp listed
  exact List.mem_range.mp (List.mem_filter.mp missing).1

theorem doRead_whole {α : Type} {shards : Shards} {si : SlabInfo} {pread : Nat → Nat → Int}
    (whole : Whole shards si pread) (e : Nat) (dst : Nat → α) :
    doRead shards si e dst pread = doRead shards si e dst fun _ left => left := by
  simp only [doRead]
  rw [whole.2, readLoop_full]

theorem reads_full (inside : a.Inside preads) {pread : ReadJob → Nat → Nat → Int}
    (io : preads pread) (il : Nat) (need : Option (Nat → Bool)) (g : Residency) :
    a.reads il pread (a.loadLayerArena il need g).2 =
      a.reads il fullReads (a.loadLayerArena il need g).2 := by
  cases layer : a.layers il with
  | none => simp [Arena.reads, layer]
  | some L =>
      simp only [Arena.reads, layer, Option.elim_some]
      apply List.flatMap_congr
      intro job listed
      exact doRead_whole (inside pread io il L layer job (loadLayerArena_expert layer job listed)) _ _

/-- A step whose reads bring the experts whole is a step whose reads are whole. -/
theorem Step.full (inside : a.Inside preads) (step : Step a preads s s') :
    Step a (fun pread => pread = fullReads) s s' := by
  cases step with
  | call idle inserted => exact .call idle inserted
  | load waiting wait io =>
      rw [reads_full inside io]
      exact .load waiting wait rfl
  | read loading => exact .read loading
  | launch loaded => exact .launch loaded
  | start kicked io =>
      rw [reads_full inside io]
      exact .start kicked rfl
  | fetch loading => exact .fetch loading
  | finish computing => exact .finish computing

theorem fullReads_complete (opened : ∀ il L, a.layers il = some L → ∀ role,
    a.shards.opened (L.role role).fileIdx = true) : a.Complete fullReads :=
  fun il L layer job => ⟨opened il L layer job.role, readLoop_full _⟩

def Sound (a : Arena) (s : State) : Prop :=
  Formed a s ∧ DoubleBuffer.Safe a.layout (s.protocol a)

theorem Sound.start (mem : ArenaCell → Byte) (prev : Nat → Option (Nat → Bool))
    (dst : Nat → Int) : Sound a (State.start mem prev dst) :=
  ⟨start_formed mem prev dst, DoubleBuffer.start_safe (fun _ => rfl) rfl rfl⟩

theorem Sound.step (sound : Sound a s) (opened : ∀ il L, a.layers il = some L → ∀ role,
    a.shards.opened (L.role role).fileIdx = true) (inside : a.Inside preads)
    (step : Step a preads s s') : Sound a s' := by
  have complete : ∀ pread, pread = fullReads → a.Complete pread := by
    rintro pread rfl
    exact fullReads_complete opened
  exact ⟨step.formed sound.1, ((step.full inside).protocol complete sound.1).safe sound.2⟩

theorem Ids.list_position {ids : Ids} {n : Nat} {e : Int} (position : ids.list[n]? = some e) :
    n / ids.ne0 < ids.ne1 ∧ n % ids.ne0 < ids.ne0 ∧ ids.at (n / ids.ne0) (n % ids.ne0) = e := by
  have bound : n < ids.ne1 * ids.ne0 := by
    rw [← Ids.list_length]
    exact (List.getElem?_eq_some_iff.mp position).1
  have width : 0 < ids.ne0 := by
    by_contra empty
    have none : ids.ne0 = 0 := by omega
    rw [none, Nat.mul_zero] at bound
    cases bound
  have row : n / ids.ne0 < ids.ne1 := (Nat.div_lt_iff_lt_mul width).mpr bound
  have column := Nat.mod_lt n width
  refine ⟨row, column, ?_⟩
  have element := ids.list_getElem row column
  have split : n / ids.ne0 * ids.ne0 + n % ids.ne0 = n := by
    rw [Nat.mul_comm]
    exact Nat.div_add_mod n ids.ne0
  rw [split] at element
  exact Option.some.inj (element.symm.trans position)

/-- While the multiplication runs, the index written for a position leads to its
expert. -/
theorem Sound.computing (sound : Sound a s) {call : Call} {L : LayerSlabs}
    (computing : s.phase = .computing call) (layer : a.layers call.il = some L) {n : Nat} {e : Int}
    (position : call.ids.list[n]? = some e) (low : 0 ≤ e) (high : e < L.gate.nExpert) (role : Role)
    {i : Nat} (inside : i < (L.role role).expertBytes) :
    s.mem (a.dst call.il L role (s.dst n).toNat i) =
      a.shards.expert (L.role role) e.toNat i := by
  obtain ⟨row, column, element⟩ := Ids.list_position position
  have split : n / call.ids.ne0 * call.ids.ne0 + n % call.ids.ne0 = n := by
    rw [Nat.mul_comm]
    exact Nat.div_add_mod n call.ids.ne0
  have copied : s.dst n = e := by
    have at_work : s.phase.call = some call := by rw [computing]; rfl
    have written := sound.1.copied at_work _ _ row column
    rw [split] at written
    rw [written, element]
  have named : call.ids.at (n / call.ids.ne0) (n % call.ids.ne0) = (e.toNat : Nat) := by
    rw [element, Int.toNat_of_nonneg low]
  have expert : e.toNat < L.gate.nExpert := by omega
  have wanted := wants_named layer row column named expert
  have running : (s.protocol a).phase = .running call.il (a.wants call.il (a.need call)) := by
    simp only [State.protocol, computing, Phase.user]
  rw [copied]
  exact sound.2.resident running wanted
    (mem_expertWrites.mpr ⟨L, layer, expert, role, i, inside, rfl, rfl⟩)

/-! ## A load comes to its end -/

def Phase.rank : Phase → Nat
  | .idle => 0
  | .computing _ => 1
  | .loading _ _ => 2
  | .waiting _ => 3

def Phase.pending : Phase → List (ArenaCell × Byte)
  | .loading _ pending => pending
  | _ => []

def Thread.rank : Thread → Nat
  | .kicked _ _ => 1
  | .loading _ _ => 0

def Thread.pending : Thread → List (ArenaCell × Byte)
  | .kicked _ _ => []
  | .loading _ pending => pending

def State.size (s : State) : Nat ×ₗ Nat ×ₗ Nat :=
  toLex (s.phase.rank, toLex (s.thread.elim 0 Thread.rank,
    s.phase.pending.length + (s.thread.elim [] Thread.pending).length))

theorem Step.smaller (step : Step a preads s s') (own : s'.phase.call = s.phase.call) :
    s'.size < s.size := by
  simp only [State.size, Prod.Lex.toLex_lt_toLex]
  cases step with
  | call idle =>
      rw [idle] at own
      cases own
  | load waiting =>
      left
      simp [waiting, Phase.rank]
  | read loading =>
      right
      simp [loading, Phase.rank, Phase.pending]
  | launch loaded =>
      left
      simp [loaded, Phase.rank]
  | start kicked =>
      right
      simp [kicked, Thread.rank]
  | fetch loading =>
      right
      simp [loading, Thread.rank, Thread.pending]
  | finish computing =>
      rw [computing] at own
      cases own

/-- While the op waits or reads, it or the thread it waits for can go on. -/
theorem load_onward {call : Call} {pread : ReadJob → Nat → Nat → Int} (io : preads pread)
    (at_work : s.phase.call = some call) (before : s.phase ≠ .computing call) :
    ∃ s', Step a preads s s' ∧ s'.phase.call = s.phase.call := by
  cases phase : s.phase with
  | idle =>
      rw [phase] at at_work
      cases at_work
  | computing other =>
      rw [phase] at at_work before
      cases at_work
      exact absurd rfl before
  | loading other pending =>
      cases pending with
      | nil => exact ⟨_, .launch phase, rfl⟩
      | cons w rest =>
          have next : s.phase = .loading other ([] ++ w :: rest) := phase
          exact ⟨_, .read next, rfl⟩
  | waiting other =>
      by_cases joined : a.overlapped → Joined s.thread
      · exact ⟨_, .load phase joined io, rfl⟩
      · obtain ⟨-, busy⟩ := Classical.not_imp.mp joined
        cases thread : s.thread with
        | none =>
            rw [thread] at busy
            exact absurd trivial busy
        | some work =>
            rw [thread] at busy
            cases work with
            | kicked il hint => exact ⟨_, .start thread io, phase ▸ rfl⟩
            | loading il pending =>
                cases pending with
                | nil => exact absurd rfl busy
                | cons w rest =>
                    have next : s.thread = some (.loading il ([] ++ w :: rest)) := thread
                    exact ⟨_, .fetch next, phase ▸ rfl⟩

theorem Step.beside (step : Step a preads s s') {call : Call}
    (computing : s.phase = .computing call)
    (own : s'.phase.call = s.phase.call) : s'.phase = .computing call := by
  cases step with
  | start | fetch => exact computing
  | finish =>
      rw [computing] at own
      cases own
  | call current | load current | read current | launch current =>
      rw [computing] at current
      cases current

theorem Phase.idle_of_call {phase : Phase} (none : phase.call = none) : phase = .idle := by
  cases phase with
  | idle => rfl
  | _ => cases none

end MoeStream.Prefill
