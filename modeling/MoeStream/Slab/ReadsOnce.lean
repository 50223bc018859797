import MoeStream.Foundation.WorkCounter
import MoeStream.Slab.Arrivals
import MoeStream.Slab.Serves

/-!
# Every pending miss is read once

Embedding of `run_reads_parallel`, and what the reads and uploads of the batch
loop of `ms_remap_fn` are, whatever the threads do: the loop ends, every role of
every pending expert is read once, to its mapped slot or to a part of the
staging buffer that is uploaded before the part is used again.
-/

set_option autoImplicit false

namespace MoeStream

open Foundation Foundation.FixedWidth Foundation.Writes

variable {hostPtr : Role → Nat → Bool} {cap : Nat}

/-! ## The workers -/

/-- The threads `run_reads_parallel` starts, if more than one. -/
def readThreads (jobs : List ReadJob) (nthreads : Int) : Int := min nthreads (i32 jobs.length)

/-- `run_reads_parallel`: the jobs in the order in which `do_read` returns. -/
inductive RunReadsParallel (jobs : List ReadJob) (nthreads : Int) : List ReadJob → Prop
  | empty (none : jobs = []) : RunReadsParallel jobs nthreads []
  | sequential (few : readThreads jobs nthreads ≤ 1) : RunReadsParallel jobs nthreads jobs
  | parallel {k : Nat} {s : WorkCounter.State ReadJob} (many : 1 < readThreads jobs nthreads)
      (run : WorkCounter.Run jobs k (.start ReadJob (readThreads jobs nthreads).toNat) s)
      (joined : s.Joined) : RunReadsParallel jobs nthreads s.done

theorem RunReadsParallel.perm {jobs log : List ReadJob} {nthreads : Int}
    (reads : RunReadsParallel jobs nthreads log) : log.Perm jobs := by
  cases reads with
  | empty none => rw [none]
  | sequential => exact List.Perm.refl _
  | parallel many run joined => exact WorkCounter.joined_done (by omega) run joined

/-- The reads in that order are an order in which the bytes of the batch arrive. -/
theorem RunReadsParallel.writes {jobs log : List ReadJob} {nthreads : Int}
    (reads : RunReadsParallel jobs nthreads log) (shards : Shards) (il maxb : Nat) (L : LayerSlabs)
    (pread : ReadJob → Nat → Nat → Int) :
    (log.flatMap (ReadJob.read shards il maxb L pread)).Perm
      (jobs.flatMap (ReadJob.read shards il maxb L pread)) :=
  reads.perm.flatMap_right _

theorem runReadsParallel_ends (jobs : List ReadJob) (nthreads : Int) :
    ∃ log, RunReadsParallel jobs nthreads log := by
  rcases lt_or_ge 1 (readThreads jobs nthreads) with many | few
  · have begun : WorkCounter.Run jobs 0 _ _ :=
      .refl (.start ReadJob (readThreads jobs nthreads).toNat)
    obtain ⟨k, s, run, joined⟩ := WorkCounter.run_joins begun
    exact ⟨s.done, .parallel many run joined⟩
  · exact ⟨jobs, .sequential few⟩

/-! ## The loop -/

/-- How the batch loop ends; `running` is left when the turns are used up. -/
inductive LoopEnd where
  | read
  | discarded (left : List (Nat × Nat))
  | running (left : List (Nat × Nat))
  deriving DecidableEq

def loopEnd (hostPtr : Role → Nat → Bool) (cap : Nat) : Nat → List (Nat × Nat) → LoopEnd
  | _, [] => .read
  | 0, left => .running left
  | turns + 1, pend =>
      let (jobs, left) := gather hostPtr cap pend 0
      if jobs = [] then .discarded pend else loopEnd hostPtr cap turns left

/-- What one batch leaves has no more needs than what it was given. -/
theorem gather_room {pend : List (Nat × Nat)}
    (room : 3 ≤ cap ∨ ∀ p ∈ pend, stageNeed hostPtr p.2 = 0) :
    3 ≤ cap ∨ ∀ p ∈ (gather hostPtr cap pend 0).2, stageNeed hostPtr p.2 = 0 := by
  obtain ⟨taken, split, -⟩ := gather_batch hostPtr cap pend 0
  apply room.imp_right
  intro direct p member
  apply direct p
  rw [split]
  exact List.mem_append_right taken member

/-- The loop reads all of `pend`; each turn takes at least one expert. -/
theorem loopEnd_read {turns : Nat} {pend : List (Nat × Nat)} (enough : pend.length ≤ turns)
    (room : 3 ≤ cap ∨ ∀ p ∈ pend, stageNeed hostPtr p.2 = 0) :
    loopEnd hostPtr cap turns pend = .read := by
  induction turns generalizing pend with
  | zero =>
      obtain rfl := List.length_eq_zero_iff.mp (Nat.le_zero.mp enough)
      unfold loopEnd
      rfl
  | succ turns ih =>
      cases pend with
      | nil =>
          unfold loopEnd
          rfl
      | cons first rest =>
          have busy := gather_busy (List.cons_ne_nil first rest) room
          have shorter := gather_shorter busy
          simp only [loopEnd]
          rw [if_neg busy]
          exact ih (by omega) (gather_room room)

theorem readBatches_turns (shards : Shards) (il maxb : Nat) (L : LayerSlabs) (io : Io)
    {turns : Nat} {pend : List (Nat × Nat)} (ended : loopEnd hostPtr cap turns pend = .read)
    (more batch : Nat) (mem : Memory) :
    readBatches shards il maxb L io hostPtr cap (turns + more) batch pend mem =
      readBatches shards il maxb L io hostPtr cap turns batch pend mem := by
  induction turns generalizing pend batch mem with
  | zero =>
      cases pend with
      | nil => cases more <;> rfl
      | cons first rest =>
          simp only [loopEnd] at ended
          cases ended
  | succ turns ih =>
      cases pend with
      | nil =>
          rw [Nat.add_right_comm]
          rfl
      | cons first rest =>
          rw [Nat.add_right_comm]
          simp only [loopEnd] at ended
          unfold readBatches
          dsimp only at ended ⊢
          split at ended
          · cases ended
          · rename_i busy
            rw [if_neg busy, if_neg busy, ih ended]

theorem jobBatches_targets {turns : Nat} {pend : List (Nat × Nat)}
    (ended : loopEnd hostPtr cap turns pend = .read) :
    (jobBatches hostPtr cap turns pend).flatten.map ReadJob.target = targets pend := by
  induction turns generalizing pend with
  | zero =>
      cases pend with
      | nil => rfl
      | cons first rest =>
          simp only [loopEnd] at ended
          cases ended
  | succ turns ih =>
      cases pend with
      | nil => rfl
      | cons first rest =>
          simp only [loopEnd] at ended
          unfold jobBatches
          dsimp only at ended ⊢
          split at ended
          · cases ended
          · rename_i busy
            rw [if_neg busy, List.flatten_cons, List.map_append, ih ended]
            exact gather_targets hostPtr cap (first :: rest) 0

theorem jobBatches_formed (turns : Nat) (pend : List (Nat × Nat)) :
    ∀ jobs ∈ jobBatches hostPtr cap turns pend, ∃ taken, Batch hostPtr cap taken jobs := by
  induction turns generalizing pend with
  | zero => exact fun jobs member => by cases member
  | succ turns ih =>
      cases pend with
      | nil => exact fun jobs member => by cases member
      | cons first rest =>
          obtain ⟨taken, -, formed, -⟩ := gather_batch hostPtr cap (first :: rest) 0
          simp only [jobBatches]
          split
          · exact fun jobs member => by cases member
          · intro jobs member
            rcases List.mem_cons.mp member with rfl | later
            · exact ⟨taken, formed⟩
            · exact ih _ jobs later

/-! ## Destinations -/

/-- `slab_host_ptr`: the bytes of a slot, when the buffer of the tensor is mapped
at its offset. -/
def slabHostPtr (zerocopy buffer : Bool) (vkHostPtr : Option (Nat → Bool)) (baseOff il : Nat)
    (role : Role) (si : SlabInfo) (slot : Nat) : Option (Nat → Cell) :=
  if zerocopy = false ∨ si.registered = false ∨ buffer = false then none
  else
    vkHostPtr.bind fun mapped =>
      if mapped (baseOff + slot * si.expertBytes) then
        some fun i => .slab il role (slot * si.expertBytes + i)
      else none

/-- The destinations of one batch with a staging buffer of `stage` bytes: a mapped
slot, or a part of the buffer that no other job of the batch uses. -/
structure Destinations (hostPtr : Role → Nat → Bool) (il maxb stage : Nat) (L : LayerSlabs)
    (jobs : List ReadJob) : Prop where
  direct : ∀ job ∈ jobs, hostPtr job.role job.slot = true → job.staged = none ∧
    ∀ i, job.dst il maxb (L.role job.role) i =
      .slab il job.role (job.slot * (L.role job.role).expertBytes + i)
  staged : ∀ job ∈ jobs, hostPtr job.role job.slot = false → ∃ part, job.staged = some part ∧
    part * maxb + (L.role job.role).expertBytes ≤ stage ∧
    ∀ i, job.dst il maxb (L.role job.role) i = .stage (part * maxb + i)
  apart : (jobs.filterMap ReadJob.staged).Pairwise fun part part' =>
    ∀ i i', i < maxb → i' < maxb → part * maxb + i ≠ part' * maxb + i'

theorem Batch.destinations {taken : List (Nat × Nat)} {jobs : List ReadJob} {maxb stage : Nat}
    {L : LayerSlabs} (formed : Batch hostPtr (stage / maxb) taken jobs) (il : Nat)
    (width : ∀ role, (L.role role).expertBytes ≤ maxb) :
    Destinations hostPtr il maxb stage L jobs where
  direct := by
    intro job member host
    have none := (formed.direct job member).mpr host
    exact ⟨none, ReadJob.dst_direct none il maxb _⟩
  staged := by
    intro job member host
    cases staged : job.staged with
    | none =>
        have direct := (formed.direct job member).mp staged
        rw [host] at direct
        cases direct
    | some part =>
        have inside := formed.inside job member part staged
        have room : (part + 1) * maxb ≤ stage :=
          (Nat.mul_le_mul_right maxb inside).trans (Nat.div_mul_le_self stage maxb)
        have own := width job.role
        rw [Nat.succ_mul] at room
        exact ⟨part, rfl, by omega, ReadJob.dst_staged staged il maxb _⟩
  apart := by
    apply formed.parts.imp
    intro part part' other i i' inside inside' same
    exact other (slot_inj inside inside' same).1

theorem Destinations.pointer {zerocopy buffer : Bool} {vkHostPtr : Option (Nat → Bool)}
    {baseOff : Role → Nat} {il maxb stage : Nat} {L : LayerSlabs} {jobs : List ReadJob}
    (destinations : Destinations
      (fun role slot => (slabHostPtr zerocopy buffer vkHostPtr (baseOff role) il role
        (L.role role) slot).isSome) il maxb stage L jobs) :
    ∀ job ∈ jobs, ∀ ptr, slabHostPtr zerocopy buffer vkHostPtr (baseOff job.role) il job.role
      (L.role job.role) job.slot = some ptr → job.dst il maxb (L.role job.role) = ptr := by
  intro job member ptr host
  have direct := (destinations.direct job member (by rw [host]; rfl)).2
  simp only [slabHostPtr] at host
  split at host
  · cases host
  · obtain ⟨mapped, -, host⟩ := Option.bind_eq_some_iff.mp host
    obtain ⟨-, same⟩ := Option.ite_none_right_eq_some.mp host
    rw [← Option.some.inj same]
    exact funext direct

/-! ## Reads and uploads -/

/-- A `do_read`, or the `ggml_backend_tensor_set` of a staged job. -/
inductive Event where
  | read (job : ReadJob)
  | tensorSet (job : ReadJob)
  deriving DecidableEq

def Event.readJob : Event → Option ReadJob
  | .read job => some job
  | .tensorSet _ => none

def Event.setJob : Event → Option ReadJob
  | .read _ => none
  | .tensorSet job => some job

def stagedJobs (jobs : List ReadJob) : List ReadJob := jobs.filter fun job => job.staged.isSome

/-- What the batches do, one after the other, each with threads as many as are
tried at the time. -/
inductive LoopRun : List (List ReadJob) → List Event → Prop
  | nil : LoopRun [] []
  | batch {jobs log : List ReadJob} {batches : List (List ReadJob)} {events : List Event}
      (nthreads : Int) (reads : RunReadsParallel jobs nthreads log)
      (rest : LoopRun batches events) :
      LoopRun (jobs :: batches)
        (log.map .read ++ (stagedJobs jobs).map .tensorSet ++ events)

theorem loopRun_exists (batches : List (List ReadJob)) : ∃ events, LoopRun batches events := by
  induction batches with
  | nil => exact ⟨[], .nil⟩
  | cons jobs batches ih =>
      obtain ⟨events, rest⟩ := ih
      obtain ⟨log, reads⟩ := runReadsParallel_ends jobs 1
      exact ⟨_, .batch 1 reads rest⟩

theorem LoopRun.reads {batches : List (List ReadJob)} {events : List Event}
    (run : LoopRun batches events) : (events.filterMap Event.readJob).Perm batches.flatten := by
  induction run with
  | nil => exact List.Perm.refl _
  | @batch jobs log batches events nthreads reads rest ih =>
      have own : (log.map Event.read).filterMap Event.readJob = log := by
        rw [List.filterMap_map]
        exact List.filterMap_some
      have none : ((stagedJobs jobs).map Event.tensorSet).filterMap Event.readJob = [] := by
        rw [List.filterMap_map]
        exact List.filterMap_eq_nil_iff.mpr fun _ _ => rfl
      rw [List.filterMap_append, List.filterMap_append, own, none, List.append_nil,
        List.flatten_cons]
      exact reads.perm.append ih

theorem LoopRun.sets {batches : List (List ReadJob)} {events : List Event}
    (run : LoopRun batches events) :
    events.filterMap Event.setJob = stagedJobs batches.flatten := by
  induction run with
  | nil => rfl
  | @batch jobs log batches events nthreads reads rest ih =>
      have none : (log.map Event.read).filterMap Event.setJob = [] := by
        rw [List.filterMap_map]
        exact List.filterMap_eq_nil_iff.mpr fun _ _ => rfl
      have own : ((stagedJobs jobs).map Event.tensorSet).filterMap Event.setJob =
          stagedJobs jobs := by
        rw [List.filterMap_map]
        exact List.filterMap_some
      rw [List.filterMap_append, List.filterMap_append, none, own, ih, List.nil_append]
      exact (List.filter_append _ _).symm

abbrev Parts := Nat → Option ReadJob

def Parts.read (parts : Parts) (job : ReadJob) : Parts :=
  match job.staged with
  | none => parts
  | some part => Function.update parts part (some job)

def UploadsOwn (parts : Parts) : List Event → Prop
  | [] => True
  | .read job :: events => UploadsOwn (parts.read job) events
  | .tensorSet job :: events =>
      (∃ part, job.staged = some part ∧ parts part = some job) ∧ UploadsOwn parts events

theorem uploadsOwn_reads (log : List ReadJob) (events : List Event) (parts : Parts) :
    UploadsOwn parts (log.map .read ++ events) ↔
      UploadsOwn (log.foldl Parts.read parts) events := by
  induction log generalizing parts with
  | nil => exact Iff.rfl
  | cons job log ih => exact ih (parts.read job)

theorem uploadsOwn_sets {jobs : List ReadJob} {events : List Event} {parts : Parts}
    (own : ∀ job ∈ jobs, ∃ part, job.staged = some part ∧ parts part = some job)
    (rest : UploadsOwn parts events) :
    UploadsOwn parts (jobs.map .tensorSet ++ events) := by
  induction jobs with
  | nil => exact rest
  | cons job jobs ih =>
      exact ⟨own job List.mem_cons_self, ih fun other member =>
        own other (List.mem_cons_of_mem job member)⟩

theorem Parts.reads_other {part : Nat} {log : List ReadJob}
    (other : part ∉ log.filterMap ReadJob.staged) (parts : Parts) :
    log.foldl Parts.read parts part = parts part := by
  induction log generalizing parts with
  | nil => rfl
  | cons job log ih =>
      rw [List.foldl_cons]
      cases staged : job.staged with
      | none =>
          rw [List.filterMap_cons_none staged] at other
          rw [ih other]
          simp only [Parts.read]
          rw [staged]
      | some part' =>
          rw [List.filterMap_cons_some staged] at other
          obtain ⟨fresh, other⟩ := not_or.mp (List.mem_cons.not.mp other)
          rw [ih other]
          simp only [Parts.read]
          rw [staged]
          exact Function.update_of_ne fresh _ _

/-- After the reads of a batch every part holds what its own job has read. -/
theorem Parts.reads_own {log : List ReadJob} (apart : (log.filterMap ReadJob.staged).Nodup)
    (parts : Parts) {job : ReadJob} (member : job ∈ log) {part : Nat}
    (staged : job.staged = some part) : log.foldl Parts.read parts part = some job := by
  induction log generalizing parts with
  | nil => cases member
  | cons first log ih =>
      rw [List.foldl_cons]
      rcases List.mem_cons.mp member with rfl | later
      · rw [List.filterMap_cons_some staged] at apart
        rw [Parts.reads_other (List.nodup_cons.mp apart).1]
        simp only [Parts.read]
        rw [staged]
        exact Function.update_self _ _ _
      · apply ih ?_ _ later
        exact apart.sublist ((List.sublist_cons_self first log).filterMap _)

theorem LoopRun.uploads {batches : List (List ReadJob)} {events : List Event}
    (run : LoopRun batches events)
    (apart : ∀ jobs ∈ batches, (jobs.filterMap ReadJob.staged).Nodup) (parts : Parts) :
    UploadsOwn parts events := by
  induction run generalizing parts with
  | nil => trivial
  | @batch jobs log batches events nthreads reads rest ih =>
      have same := reads.perm
      have nodup := (same.filterMap ReadJob.staged).nodup_iff.mpr (apart jobs List.mem_cons_self)
      rw [List.append_assoc, uploadsOwn_reads]
      apply uploadsOwn_sets
      · intro job member
        obtain ⟨listed, some⟩ := List.mem_filter.mp member
        obtain ⟨part, staged⟩ := Option.isSome_iff_exists.mp some
        exact ⟨part, staged, Parts.reads_own nodup parts (same.mem_iff.mpr listed) staged⟩
      · exact ih (fun jobs' member => apart jobs' (List.mem_cons_of_mem jobs member)) _

/-! ## The batches of a call -/

/-- What the batches of `pend` come to, whatever the threads do. -/
structure ReadOnce (hostPtr : Role → Nat → Bool) (il maxb stage : Nat) (L : LayerSlabs)
    (pend : List (Nat × Nat)) (batches : List (List ReadJob)) : Prop where
  targets : batches.flatten.map ReadJob.target = targets pend
  destinations : ∀ jobs ∈ batches, Destinations hostPtr il maxb stage L jobs
  runs : ∃ events, LoopRun batches events
  reads : ∀ events, LoopRun batches events →
    ((events.filterMap Event.readJob).map ReadJob.target).Perm (MoeStream.targets pend)
  sets : ∀ events, LoopRun batches events →
    (events.filterMap Event.setJob).map ReadJob.target =
      (MoeStream.targets pend).filter fun t => !hostPtr t.1 t.2.2
  uploads : ∀ events, LoopRun batches events → UploadsOwn (fun _ => none) events

theorem stagedJobs_targets {jobs : List ReadJob}
    (direct : ∀ job ∈ jobs, (job.staged = none ↔ hostPtr job.role job.slot)) :
    (stagedJobs jobs).map ReadJob.target =
      (jobs.map ReadJob.target).filter fun t => !hostPtr t.1 t.2.2 := by
  rw [List.filter_map]
  apply congrArg
  apply List.filter_congr
  intro job member
  have own := direct job member
  unfold ReadJob.target
  cases staged : job.staged with
  | none =>
      have host := own.mp staged
      simp [host]
  | some part =>
      have host := own.not.mp (by rw [staged]; exact Option.some_ne_none part)
      simp [host]

theorem jobBatches_once {turns il maxb stage : Nat} {L : LayerSlabs} {pend : List (Nat × Nat)}
    (width : ∀ role, (L.role role).expertBytes ≤ maxb)
    (ended : loopEnd hostPtr (stage / maxb) turns pend = .read) :
    ReadOnce hostPtr il maxb stage L pend (jobBatches hostPtr (stage / maxb) turns pend) := by
  have formed : ∀ jobs ∈ jobBatches hostPtr (stage / maxb) turns pend,
      ∃ taken, Batch hostPtr (stage / maxb) taken jobs := jobBatches_formed turns pend
  have all := jobBatches_targets ended
  refine ⟨all, ?_, loopRun_exists _, ?_, ?_, ?_⟩
  · intro jobs member
    obtain ⟨taken, batch⟩ := formed jobs member
    exact batch.destinations il width
  · intro events run
    rw [← all]
    exact run.reads.map _
  · intro events run
    rw [run.sets, ← all]
    apply stagedJobs_targets
    intro job member
    obtain ⟨jobs, batch, listed⟩ := List.mem_flatten.mp member
    obtain ⟨taken, formed⟩ := formed jobs batch
    exact formed.direct job listed
  · intro events run
    apply run.uploads
    intro jobs member
    obtain ⟨taken, batch⟩ := formed jobs member
    exact batch.parts

/-- The batch loop of `ms_remap_fn` ends without discarding anything and reads
every pending expert once, and `run_reads_parallel` runs every job once: in every
order of the workers' steps they come to an end, and then all jobs are done. -/
theorem reads_once (rt : Runtime) (s : State) (L : LayerSlabs) (positive : 0 < rt.maxb)
    (width : ∀ role, (L.role role).expertBytes ≤ rt.maxb)
    (stage : s.stage = 0 ∨ s.stage = rt.maxb * 3 * 32) (il : Nat) (pend : List (Nat × Nat))
    {turns : Nat} (enough : pend.length ≤ turns) (io : Io) (batch : Nat) (mem : Memory) :
    let stage := stageSize rt il s pend
    let cap := if rt.maxb = 0 then 0 else stage / rt.maxb
    let loop := fun turns =>
      readBatches rt.shards il rt.maxb L io (rt.hostPtr il) cap turns batch pend mem
    loopEnd (rt.hostPtr il) cap turns pend = .read ∧
      (∀ more, loop (turns + more) = loop turns) ∧
      ReadOnce (rt.hostPtr il) il rt.maxb stage L pend (loop turns).2 ∧
      ∀ (jobs : List ReadJob) (nthreads : Int),
        (∃ log, RunReadsParallel jobs nthreads log) ∧
        (∀ log, RunReadsParallel jobs nthreads log → log.Perm jobs) ∧
        ∀ n k st, WorkCounter.Run jobs k (.start ReadJob n) st →
          k ≤ 2 * jobs.length + n ∧ (st.Joined ∨ ∃ st', WorkCounter.Step jobs st st') := by
  intro allocated cap loop
  have capacity : cap = allocated / rt.maxb := if_neg (Nat.ne_of_gt positive)
  have room : 3 ≤ cap ∨ ∀ p ∈ pend, stageNeed (rt.hostPtr il) p.2 = 0 := by
    rcases (stage_room rt il s stage pend).2 with large | direct | zero
    · exact Or.inl large
    · exact Or.inr direct
    · omega
  have ended := loopEnd_read enough room
  refine ⟨ended, fun more => readBatches_turns rt.shards il rt.maxb L io ended more batch mem,
    ?_, ?_⟩
  · rw [readBatches_jobs, capacity]
    rw [capacity] at ended
    exact jobBatches_once width ended
  · intro jobs nthreads
    refine ⟨runReadsParallel_ends jobs nthreads, fun log reads => reads.perm, ?_⟩
    intro n k st run
    refine ⟨WorkCounter.run_bounded run, ?_⟩
    by_cases joined : st.Joined
    · exact Or.inl joined
    · exact Or.inr (WorkCounter.step_exists jobs joined)

/-- `reads_once` where nothing is mapped and an expert is pending twice. -/
theorem reads_once_pair :
    loopEnd (pairRuntime.hostPtr 0) 96 3 [(0, 0), (1, 1), (0, 0)] = .read := by
  have once := reads_once pairRuntime (State.start pairRuntime 2 fun _ => 0)
    { gate := { expertBytes := 1 } } Nat.one_pos (by intro role; cases role <;> decide)
    (Or.inl rfl) 0 [(0, 0), (1, 1), (0, 0)] (Nat.le_refl 3) Io.whole 0 fun _ => 0
  exact once.1

end MoeStream
