import MoeStream.Foundation.Parts
import MoeStream.Slab.Reads

/-!
# What the batch loop does to memory

A batch is a prefix of the pending experts.  Within it every role of every
expert is one job, the staged jobs have parts of their own inside the staging
buffer, and whatever the order of the bytes, after the uploads each slot of the
batch holds its expert and nothing else of the slabs has changed.
-/

set_option autoImplicit false

namespace MoeStream

open Foundation.Writes Foundation.Parts

variable {shards : Shards} {il maxb : Nat} {L : LayerSlabs} {io : Io}
  {hostPtr : Role → Nat → Bool}

/-! ## One batch -/

theorem expertJobs_staged (hostPtr : Role → Nat → Bool) (e slot : Nat) (roles : List Role)
    (si : Nat) :
    (expertJobs hostPtr e slot roles si).filterMap ReadJob.staged =
      List.range' si (roles.countP fun role => !hostPtr role slot) := by
  induction roles generalizing si with
  | nil => rfl
  | cons role roles ih =>
      simp only [expertJobs]
      cases host : hostPtr role slot with
      | true => simp [host, ih]
      | false => simp [host, ih, List.range'_succ]

theorem mem_expertJobs {e slot : Nat} {roles : List Role} {si : Nat} {job : ReadJob}
    (member : job ∈ expertJobs hostPtr e slot roles si) :
    job.expert = e ∧ job.slot = slot ∧ (job.staged = none ↔ hostPtr job.role slot) := by
  induction roles generalizing si with
  | nil => cases member
  | cons role roles ih =>
      simp only [expertJobs] at member
      split at member
      · rename_i host
        rcases List.mem_cons.mp member with rfl | later
        · exact ⟨rfl, rfl, by simp [host]⟩
        · exact ih later
      · rename_i host
        rcases List.mem_cons.mp member with rfl | later
        · exact ⟨rfl, rfl, by simp [host]⟩
        · exact ih later

theorem expertJobs_role (hostPtr : Role → Nat → Bool) (e slot si : Nat) {roles : List Role}
    {role : Role}
    (member : role ∈ roles) :
    ∃ job ∈ expertJobs hostPtr e slot roles si,
      job.role = role ∧ job.expert = e ∧ job.slot = slot := by
  induction roles generalizing si with
  | nil => cases member
  | cons first roles ih =>
      simp only [expertJobs]
      split
      · rcases List.mem_cons.mp member with rfl | later
        · exact ⟨_, List.mem_cons_self, rfl, rfl, rfl⟩
        · obtain ⟨job, listed, facts⟩ := ih si later
          exact ⟨job, List.mem_cons_of_mem _ listed, facts⟩
      · rcases List.mem_cons.mp member with rfl | later
        · exact ⟨_, List.mem_cons_self, rfl, rfl, rfl⟩
        · obtain ⟨job, listed, facts⟩ := ih (si + 1) later
          exact ⟨job, List.mem_cons_of_mem _ listed, facts⟩

theorem Role.mem_all (role : Role) : role ∈ Role.all := by
  cases role <;> simp [Role.all]

theorem stageNeed_le (hostPtr : Role → Nat → Bool) (slot : Nat) : stageNeed hostPtr slot ≤ 3 :=
  List.countP_le_length

/-- What a batch that took `taken` off the pending experts consists of. -/
structure Batch (hostPtr : Role → Nat → Bool) (cap : Nat) (taken : List (Nat × Nat))
    (jobs : List ReadJob) : Prop where
  every : ∀ e slot, (e, slot) ∈ taken → ∀ role, ∃ job ∈ jobs,
    job.role = role ∧ job.expert = e ∧ job.slot = slot
  only : ∀ job ∈ jobs, (job.expert, job.slot) ∈ taken
  direct : ∀ job ∈ jobs, (job.staged = none ↔ hostPtr job.role job.slot)
  parts : (jobs.filterMap ReadJob.staged).Nodup
  inside : ∀ job ∈ jobs, ∀ part, job.staged = some part → part < cap

theorem gather_batch (hostPtr : Role → Nat → Bool) (cap : Nat) (pend : List (Nat × Nat))
    (si : Nat) :
    ∃ taken,
      pend = taken ++ (gather hostPtr cap pend si).2 ∧
      Batch hostPtr cap taken (gather hostPtr cap pend si).1 ∧
      (∃ n, (gather hostPtr cap pend si).1.filterMap ReadJob.staged = List.range' si n ∧
        (n ≠ 0 → si + n ≤ cap)) ∧
      (taken = [] → pend = [] ∨
        (cap < si + 3 ∧ ∃ p ∈ pend, stageNeed hostPtr p.2 ≠ 0)) := by
  induction pend generalizing si with
  | nil =>
      exact ⟨[], rfl, ⟨by simp, by simp [gather], by simp [gather], by simp [gather],
        by simp [gather]⟩, ⟨0, rfl, by simp⟩, by simp⟩
  | cons first rest ih =>
      obtain ⟨e, slot⟩ := first
      unfold gather
      simp only
      split
      · rename_i full
        have small := stageNeed_le hostPtr slot
        exact ⟨[], rfl, ⟨by simp, by simp, by simp, by simp, by simp⟩, ⟨0, rfl, by simp⟩,
          fun _ => Or.inr ⟨by omega, (e, slot), List.mem_cons_self, full.1⟩⟩
      · rename_i room
        obtain ⟨taken, split, batch, ⟨n, parts, fits⟩, _⟩ :=
          ih (si + stageNeed hostPtr slot)
        have staged := expertJobs_staged hostPtr e slot Role.all si
        have joined : (expertJobs hostPtr e slot Role.all si ++
            (gather hostPtr cap rest (si + stageNeed hostPtr slot)).1).filterMap ReadJob.staged =
            List.range' si (stageNeed hostPtr slot + n) := by
          rw [List.filterMap_append, staged, parts]
          exact List.range'_append_1
        have bound : stageNeed hostPtr slot + n ≠ 0 → si + (stageNeed hostPtr slot + n) ≤ cap := by
          intro some
          by_cases zero : n = 0
          · subst zero
            omega
          · have := fits zero
            omega
        refine ⟨(e, slot) :: taken, ?_, ⟨?_, ?_, ?_, ?_, ?_⟩,
          ⟨stageNeed hostPtr slot + n, joined, bound⟩, by simp⟩
        · rw [List.cons_append, ← split]
        · intro e' slot' member role
          rcases List.mem_cons.mp member with same | later
          · cases same
            obtain ⟨job, listed, facts⟩ :=
              expertJobs_role hostPtr e slot si (Role.mem_all role)
            exact ⟨job, List.mem_append_left _ listed, facts⟩
          · obtain ⟨job, listed, facts⟩ := batch.every e' slot' later role
            exact ⟨job, List.mem_append_right _ listed, facts⟩
        · intro job member
          rcases List.mem_append.mp member with own | later
          · obtain ⟨sameExpert, sameSlot, _⟩ := mem_expertJobs own
            rw [sameExpert, sameSlot]
            exact List.mem_cons_self
          · exact List.mem_cons_of_mem _ (batch.only job later)
        · intro job member
          rcases List.mem_append.mp member with own | later
          · obtain ⟨_, sameSlot, direct⟩ := mem_expertJobs own
            rw [sameSlot]
            exact direct
          · exact batch.direct job later
        · rw [joined]
          exact List.nodup_range'
        · intro job member part staged
          have listed : part ∈ List.range' si (stageNeed hostPtr slot + n) := by
            rw [← joined]
            exact List.mem_filterMap.mpr ⟨job, member, staged⟩
          obtain ⟨low, high⟩ := List.mem_range'_1.mp listed
          have := bound (by omega)
          omega

/-! ## What the batches are for -/

def ReadJob.target (job : ReadJob) : Role × Nat × Nat := (job.role, job.expert, job.slot)

def targets (pend : List (Nat × Nat)) : List (Role × Nat × Nat) :=
  pend.flatMap fun p => Role.all.map fun role => (role, p)

@[simp] theorem targets_append (first second : List (Nat × Nat)) :
    targets (first ++ second) = targets first ++ targets second :=
  List.flatMap_append

theorem mem_targets {pend : List (Nat × Nat)} {role : Role} {p : Nat × Nat} :
    (role, p) ∈ targets pend ↔ p ∈ pend := by
  simp only [targets, List.mem_flatMap, List.mem_map]
  constructor
  · rintro ⟨q, member, role', -, same⟩
    rwa [← (Prod.mk.inj same).2]
  · intro member
    exact ⟨p, member, role, role.mem_all, rfl⟩

theorem expertJobs_targets (hostPtr : Role → Nat → Bool) (e slot : Nat) (roles : List Role)
    (si : Nat) : (expertJobs hostPtr e slot roles si).map ReadJob.target =
      roles.map fun role => (role, e, slot) := by
  induction roles generalizing si with
  | nil => rfl
  | cons role roles ih =>
      simp only [expertJobs]
      split
      · exact congrArg _ (ih si)
      · exact congrArg _ (ih (si + 1))

theorem gather_targets (hostPtr : Role → Nat → Bool) (cap : Nat) (pend : List (Nat × Nat))
    (si : Nat) : (gather hostPtr cap pend si).1.map ReadJob.target ++
      targets (gather hostPtr cap pend si).2 = targets pend := by
  induction pend generalizing si with
  | nil => rfl
  | cons first rest ih =>
      obtain ⟨e, slot⟩ := first
      simp only [gather]
      split
      · rfl
      · rw [List.map_append, expertJobs_targets, List.append_assoc, ih]
        rfl

theorem targets_nodup {pend : List (Nat × Nat)} (apart : (pend.map Prod.snd).Nodup) :
    ((targets pend).map fun t => (t.1, t.2.2)).Nodup := by
  induction pend with
  | nil => exact List.nodup_nil
  | cons p rest ih =>
      obtain ⟨fresh, apart⟩ := List.nodup_cons.mp apart
      rw [show p :: rest = [p] ++ rest from rfl, targets_append, List.map_append]
      apply List.Nodup.append ?_ (ih apart)
      · intro t own other
        obtain ⟨⟨role, q⟩, member, same⟩ := List.mem_map.mp own
        obtain ⟨⟨role', q'⟩, member', same'⟩ := List.mem_map.mp other
        have ofP := List.mem_singleton.mp (mem_targets.mp member)
        have ofRest := mem_targets.mp member'
        apply fresh
        apply List.mem_map.mpr ⟨q', ofRest, ?_⟩
        have slots : q'.2 = q.2 := (Prod.mk.inj (same'.trans same.symm)).2
        rw [slots, ofP]
      · simp [targets, Role.all]

theorem gather_single (hostPtr : Role → Nat → Bool) (cap : Nat) {pend : List (Nat × Nat)}
    (apart : (pend.map Prod.snd).Nodup) (si : Nat) :
    ∀ job ∈ (gather hostPtr cap pend si).1, ∀ other ∈ (gather hostPtr cap pend si).1,
      job.role = other.role → job.slot = other.slot → job = other := by
  have nodup := targets_nodup apart
  rw [← gather_targets hostPtr cap pend si, List.map_append, List.map_map] at nodup
  intro job member other listed role slot
  exact List.inj_on_of_nodup_map nodup.of_append_left member listed (Prod.ext role slot)

/-! ## The bytes of a batch -/

/-- Slot `slot` holds expert `e` in every role. -/
def Loaded (shards : Shards) (il : Nat) (L : LayerSlabs) (mem : Memory) (slot e : Nat) : Prop :=
  ∀ role i, i < (L.role role).expertBytes →
    mem (.slab il role (slot * (L.role role).expertBytes + i)) = shards.expert (L.role role) e i

def Io.Complete (io : Io) (shards : Shards) (L : LayerSlabs) : Prop :=
  ∀ job, Whole shards (L.role job.role) (io.pread job)

def Outside (il : Nat) (L : LayerSlabs) (slots : List Nat) : Cell → Prop
  | .slab il' role off => il' = il → ∀ slot ∈ slots, ∀ i, i < (L.role role).expertBytes →
      off ≠ slot * (L.role role).expertBytes + i
  | .stage _ => False

def Io.Fits (io : Io) (shards : Shards) (L : LayerSlabs) : Prop :=
  ∀ job, arrived shards (L.role job.role) (io.pread job) ≤ (L.role job.role).expertBytes

theorem Io.Complete.fits (complete : io.Complete shards L) : io.Fits shards L :=
  fun job => Nat.le_of_eq (complete job).arrived

theorem mem_read {job : ReadJob} {cell : Cell} {b : Byte} :
    (cell, b) ∈ job.read shards il maxb L io.pread ↔
      ∃ i, i < arrived shards (L.role job.role) (io.pread job) ∧
        cell = job.dst il maxb (L.role job.role) i ∧
        b = shards.expert (L.role job.role) job.expert i :=
  mem_doRead_arrived

def uploadWrites (il maxb : Nat) (L : LayerSlabs) (mem : Memory) (job : ReadJob) :
    List (Cell × Byte) :=
  match job.staged with
  | none => []
  | some part =>
      region (fun i => .slab il job.role (job.slot * (L.role job.role).expertBytes + i))
        (L.role job.role).expertBytes fun i => mem (.stage (part * maxb + i))

theorem upload_eq (mem : Memory) (job : ReadJob) :
    upload il maxb L mem job = applyWrites mem (uploadWrites il maxb L mem job) := by
  simp only [upload, uploadWrites]
  cases job.staged <;> rfl

theorem mem_uploadWrites {mem : Memory} {job : ReadJob} {cell : Cell} {b : Byte} :
    (cell, b) ∈ uploadWrites il maxb L mem job ↔
      ∃ part i, job.staged = some part ∧ i < (L.role job.role).expertBytes ∧
        cell = .slab il job.role (job.slot * (L.role job.role).expertBytes + i) ∧
        b = mem (.stage (part * maxb + i)) := by
  simp only [uploadWrites]
  split
  · rename_i direct
    simp [direct]
  · rename_i part staged
    rw [mem_region]
    constructor
    · rintro ⟨i, facts⟩
      exact ⟨part, i, staged, facts⟩
    · rintro ⟨part', i, same, facts⟩
      cases staged.symm.trans same
      exact ⟨i, facts⟩

/-- Uploads read the staging buffer as it was before the first of them. -/
theorem uploads_eq (jobs : List ReadJob) (mem : Memory) :
    jobs.foldl (upload il maxb L) mem =
      applyWrites mem (jobs.flatMap (uploadWrites il maxb L mem)) := by
  have general : ∀ (jobs : List ReadJob) (mem mem' : Memory),
      (∀ off, mem' (.stage off) = mem (.stage off)) →
      jobs.foldl (upload il maxb L) mem' =
        applyWrites mem' (jobs.flatMap (uploadWrites il maxb L mem)) := by
    intro jobs
    induction jobs with
    | nil => intro mem mem' _; rfl
    | cons job rest ih =>
        intro mem mem' stage
        have same : uploadWrites il maxb L mem' job = uploadWrites il maxb L mem job := by
          simp only [uploadWrites, stage]
        rw [List.foldl_cons, List.flatMap_cons, applyWrites_append, upload_eq, same]
        refine ih mem _ ?_
        intro off
        rw [applyWrites_other, stage]
        intro b written
        obtain ⟨part, i, _, _, cell, _⟩ := mem_uploadWrites.mp written
        cases cell
  exact general jobs mem mem fun _ => rfl

/-- Within a batch the destination of a byte says which job and byte it is. -/
theorem Batch.dst_inj {cap : Nat} {taken : List (Nat × Nat)} {jobs : List ReadJob}
    (formed : Batch hostPtr cap taken jobs) (width : ∀ role, (L.role role).expertBytes ≤ maxb)
    (once : ∀ e e' slot, (e, slot) ∈ taken → (e', slot) ∈ taken → e = e') {job other : ReadJob}
    (member : job ∈ jobs) (listed : other ∈ jobs) {i i' : Nat}
    (inside : i < (L.role job.role).expertBytes) (inside' : i' < (L.role other.role).expertBytes)
    (cell : job.dst il maxb (L.role job.role) i = other.dst il maxb (L.role other.role) i') :
    job = other ∧ i = i' := by
  have first := formed.only job member
  have second := formed.only other listed
  cases staged : job.staged with
  | none =>
      rw [ReadJob.dst_direct staged] at cell
      cases staged' : other.staged with
      | some part =>
          rw [ReadJob.dst_staged staged'] at cell
          cases cell
      | none =>
          simp only [ReadJob.dst_direct staged', Cell.slab.injEq, true_and] at cell
          obtain ⟨sameRole, offset⟩ := cell
          rw [← sameRole] at inside' offset
          obtain ⟨sameSlot, sameIndex⟩ := slot_inj inside inside' offset
          rw [← sameSlot] at second
          have sameExpert := once _ _ _ first second
          obtain ⟨role, e, slot, part⟩ := job
          obtain ⟨role', e', slot', part'⟩ := other
          simp only at sameRole sameExpert sameSlot staged staged'
          rw [sameRole, sameExpert, sameSlot, staged, staged']
          exact ⟨rfl, sameIndex⟩
  | some part =>
      rw [ReadJob.dst_staged staged] at cell
      cases staged' : other.staged with
      | none =>
          rw [ReadJob.dst_direct staged'] at cell
          cases cell
      | some part' =>
          simp only [ReadJob.dst_staged staged', Cell.stage.injEq] at cell
          obtain ⟨samePart, sameIndex⟩ := slot_inj
            (Nat.lt_of_lt_of_le inside (width job.role))
            (Nat.lt_of_lt_of_le inside' (width other.role)) cell
          rw [← samePart] at staged'
          exact ⟨eq_of_filterMap_nodup formed.parts member listed staged staged', sameIndex⟩

/-- What the reads of a batch leave in the cell that byte `i` of a job goes to:
the byte exactly if it arrives or was there before. -/
theorem batch_read_iff (il maxb batch : Nat) {cap : Nat} {taken : List (Nat × Nat)}
    {jobs : List ReadJob} (formed : Batch hostPtr cap taken jobs) (fits : io.Fits shards L)
    (width : ∀ role, (L.role role).expertBytes ≤ maxb)
    (once : ∀ e e' slot, (e, slot) ∈ taken → (e', slot) ∈ taken → e = e') (mem : Memory)
    {job : ReadJob} (member : job ∈ jobs) {i : Nat} (inside : i < (L.role job.role).expertBytes) :
    applyWrites mem (io.order batch (jobs.flatMap (ReadJob.read shards il maxb L io.pread)))
        (job.dst il maxb (L.role job.role) i) = shards.expert (L.role job.role) job.expert i ↔
      i < arrived shards (L.role job.role) (io.pread job) ∨
        mem (job.dst il maxb (L.role job.role) i) =
          shards.expert (L.role job.role) job.expert i := by
  -- the cell is written by this job only, and only as its byte `i`
  have source : ∀ b, (job.dst il maxb (L.role job.role) i, b) ∈
      io.order batch (jobs.flatMap (ReadJob.read shards il maxb L io.pread)) →
      i < arrived shards (L.role job.role) (io.pread job) ∧
        b = shards.expert (L.role job.role) job.expert i := by
    intro b written
    obtain ⟨other, listed, read⟩ := List.mem_flatMap.mp ((io.perm batch _).mem_iff.mp written)
    obtain ⟨i', reached, cell, value⟩ := mem_read.mp read
    have inside' := Nat.lt_of_lt_of_le reached (fits other)
    obtain ⟨rfl, rfl⟩ := formed.dst_inj width once member listed inside inside' cell
    exact ⟨reached, value⟩
  rw [applyWrites_agreed mem _ fun b written => (source b written).2]
  apply or_congr_left
  constructor
  · exact fun written => (source _ written).1
  · intro reached
    apply (io.perm batch _).mem_iff.mpr
    exact List.mem_flatMap.mpr ⟨job, member, mem_read.mpr ⟨i, reached, rfl, rfl⟩⟩

theorem Batch.apart {cap : Nat} {taken : List (Nat × Nat)} {jobs : List ReadJob}
    (formed : Batch hostPtr cap taken jobs) {cell : Cell}
    (outside : Outside il L (taken.map Prod.snd) cell) :
    ∀ job ∈ jobs, ∀ i, i < (L.role job.role).expertBytes →
      cell ≠ .slab il job.role (job.slot * (L.role job.role).expertBytes + i) := by
  rintro job member i inside rfl
  exact outside rfl job.slot (List.mem_map.mpr ⟨_, formed.only job member, rfl⟩) i inside rfl

theorem Batch.not_read {cap : Nat} {taken : List (Nat × Nat)} {jobs : List ReadJob}
    (formed : Batch hostPtr cap taken jobs) (fits : io.Fits shards L) {cell : Cell}
    (outside : Outside il L (taken.map Prod.snd) cell) (b : Byte) :
    (cell, b) ∉ jobs.flatMap (ReadJob.read shards il maxb L io.pread) := by
  intro written
  obtain ⟨job, member, read⟩ := List.mem_flatMap.mp written
  obtain ⟨i, reached, place, -⟩ := mem_read.mp read
  cases staged : job.staged with
  | none =>
      rw [ReadJob.dst_direct staged] at place
      exact formed.apart outside job member i (Nat.lt_of_lt_of_le reached (fits job)) place
  | some part =>
      rw [ReadJob.dst_staged staged] at place
      rw [place] at outside
      exact outside

theorem runBatch_outside {cap : Nat} {taken : List (Nat × Nat)} {jobs : List ReadJob}
    {batch : Nat} (formed : Batch hostPtr cap taken jobs) (fits : io.Fits shards L)
    (mem : Memory) {cell : Cell} (outside : Outside il L (taken.map Prod.snd) cell) :
    runBatch shards il maxb L io batch jobs mem cell = mem cell := by
  simp only [runBatch]
  rw [uploads_eq, applyWrites_other, applyWrites_other]
  · intro b written
    exact formed.not_read fits outside b ((io.perm batch _).mem_iff.mp written)
  · intro b written
    obtain ⟨job, member, upload⟩ := List.mem_flatMap.mp written
    obtain ⟨_, i, _, inside, place, _⟩ := mem_uploadWrites.mp upload
    exact formed.apart outside job member i inside place

end MoeStream
