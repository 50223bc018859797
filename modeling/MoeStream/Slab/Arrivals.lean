import MoeStream.Slab.Batches

/-!
# Reads that do not come back whole

A `pread` may come back short, at the end of the file or with an error, and a
shard may have no descriptor.  What a slot holds after the batch loop then
depends on every byte of its expert having arrived, or having stood in the
destination of its job before.
-/

set_option autoImplicit false

namespace MoeStream

open Foundation.Writes

variable {shards : Shards} {il maxb : Nat} {L : LayerSlabs} {io : Io}
  {hostPtr : Role → Nat → Bool} {cap : Nat}

theorem Io.fits (atMost : ∀ job, AtMost (io.pread job)) (shards : Shards) (L : LayerSlabs) :
    io.Fits shards L :=
  fun job => arrived_le (atMost job) shards (L.role job.role)

def Arrives (shards : Shards) (il maxb : Nat) (L : LayerSlabs)
    (pread : ReadJob → Nat → Nat → Int) (mem : Memory) (job : ReadJob) : Prop :=
  ∀ i, i < (L.role job.role).expertBytes →
    i < arrived shards (L.role job.role) (pread job) ∨
      mem (job.dst il maxb (L.role job.role) i) = shards.expert (L.role job.role) job.expert i

def delivered (shards : Shards) (il maxb : Nat) (L : LayerSlabs)
    (pread : ReadJob → Nat → Nat → Int) (mem : Memory) (jobs : List ReadJob) : Memory :=
  applyWrites mem (jobs.flatMap (ReadJob.read shards il maxb L pread))

def AllArrive (shards : Shards) (il maxb : Nat) (L : LayerSlabs)
    (pread : ReadJob → Nat → Nat → Int) : List (List ReadJob) → Memory → Prop
  | [], _ => True
  | jobs :: rest, mem => (∀ job ∈ jobs, Arrives shards il maxb L pread mem job) ∧
      AllArrive shards il maxb L pread rest (delivered shards il maxb L pread mem jobs)

theorem AllArrive.congr {pread : ReadJob → Nat → Nat → Int} {batches : List (List ReadJob)}
    {mem mem' : Memory}
    (same : ∀ jobs ∈ batches, ∀ job ∈ jobs, ∀ i, i < (L.role job.role).expertBytes →
      mem (job.dst il maxb (L.role job.role) i) = mem' (job.dst il maxb (L.role job.role) i)) :
    AllArrive shards il maxb L pread batches mem ↔
      AllArrive shards il maxb L pread batches mem' := by
  induction batches generalizing mem mem' with
  | nil => exact Iff.rfl
  | cons jobs rest ih =>
      apply and_congr
      · apply forall₂_congr
        intro job member
        apply forall₂_congr
        intro i inside
        rw [same jobs List.mem_cons_self job member i inside]
      · apply ih
        intro jobs' member job listed i inside
        exact applyWrites_congr (same jobs' (List.mem_cons_of_mem _ member) job listed i inside)

theorem Loaded.congr {mem mem' : Memory} {slot e : Nat}
    (same : ∀ role i, i < (L.role role).expertBytes →
      mem (.slab il role (slot * (L.role role).expertBytes + i)) =
        mem' (.slab il role (slot * (L.role role).expertBytes + i))) :
    Loaded shards il L mem slot e ↔ Loaded shards il L mem' slot e := by
  apply forall₂_congr
  intro role i
  apply forall_congr'
  intro inside
  rw [same role i inside]

theorem outside_slot {slots : List Nat} {slot : Nat} (other : slot ∉ slots) {role : Role} {i : Nat}
    (inside : i < (L.role role).expertBytes) :
    Outside il L slots (.slab il role (slot * (L.role role).expertBytes + i)) := by
  intro _ taken listed i' inside' same
  obtain ⟨rfl, -⟩ := slot_inj inside inside' same
  exact other listed

/-! ## One batch -/

section OneBatch

variable {taken : List (Nat × Nat)} {jobs : List ReadJob} {batch : Nat}
  (formed : Batch hostPtr cap taken jobs) (fits : io.Fits shards L)
  (width : ∀ role, (L.role role).expertBytes ≤ maxb)
  (once : ∀ e e' slot, (e, slot) ∈ taken → (e', slot) ∈ taken → e = e')
  (single : ∀ job ∈ jobs, ∀ other ∈ jobs, job.role = other.role → job.slot = other.slot →
    job = other)

include formed fits width once single

theorem runBatch_byte_iff (mem : Memory) {job : ReadJob} (member : job ∈ jobs) {i : Nat}
    (inside : i < (L.role job.role).expertBytes) :
    runBatch shards il maxb L io batch jobs mem
        (.slab il job.role (job.slot * (L.role job.role).expertBytes + i)) =
        shards.expert (L.role job.role) job.expert i ↔
      i < arrived shards (L.role job.role) (io.pread job) ∨
        mem (job.dst il maxb (L.role job.role) i) =
          shards.expert (L.role job.role) job.expert i := by
  have read := batch_read_iff il maxb batch formed fits width once mem member inside
  simp only [runBatch]
  rw [uploads_eq]
  generalize applyWrites mem (io.order batch (jobs.flatMap
    (ReadJob.read shards il maxb L io.pread))) = mid at read ⊢
  -- the byte is uploaded only by its own job
  have source : ∀ b, ((.slab il job.role (job.slot * (L.role job.role).expertBytes + i) : Cell), b)
      ∈ jobs.flatMap (uploadWrites il maxb L mid) →
      ∃ part, job.staged = some part ∧ b = mid (.stage (part * maxb + i)) := by
    intro b written
    obtain ⟨other, listed, upload⟩ := List.mem_flatMap.mp written
    obtain ⟨part, i', staged, inside', cell, value⟩ := mem_uploadWrites.mp upload
    simp only [Cell.slab.injEq, true_and] at cell
    obtain ⟨sameRole, offset⟩ := cell
    rw [← sameRole] at inside' offset
    obtain ⟨sameSlot, sameIndex⟩ := slot_inj inside inside' offset
    have same := single job member other listed sameRole sameSlot
    subst same
    exact ⟨part, staged, by rw [value, sameIndex]⟩
  cases staged : job.staged with
  | none =>
      simp only [ReadJob.dst_direct staged] at read ⊢
      rw [applyWrites_other, read]
      intro b written
      obtain ⟨part, some, -⟩ := source b written
      rw [staged] at some
      cases some
  | some part =>
      simp only [ReadJob.dst_staged staged] at read ⊢
      rw [← read]
      apply Eq.congr_left
      apply applyWrites_eq
      · apply List.mem_flatMap.mpr
        exact ⟨job, member, mem_uploadWrites.mpr ⟨part, i, staged, inside, rfl, rfl⟩⟩
      · intro b written
        obtain ⟨part', same, value⟩ := source b written
        cases staged.symm.trans same
        exact value

variable (il batch) in
theorem runBatch_loaded_iff (mem : Memory) :
    (∀ e slot, (e, slot) ∈ taken →
      Loaded shards il L (runBatch shards il maxb L io batch jobs mem) slot e) ↔
      ∀ job ∈ jobs, Arrives shards il maxb L io.pread mem job := by
  constructor
  · intro loaded job member i inside
    apply (runBatch_byte_iff formed fits width once single mem member inside).mp
    exact loaded _ _ (formed.only job member) job.role i inside
  · intro arrives e slot listed role i inside
    obtain ⟨job, member, rfl, rfl, rfl⟩ := formed.every e slot listed role
    apply (runBatch_byte_iff formed fits width once single mem member inside).mpr
    exact arrives job member i inside

omit single

/-- The staging buffer after a batch, whatever the order of its bytes. -/
theorem runBatch_stage (mem : Memory) (off : Nat) :
    runBatch shards il maxb L io batch jobs mem (.stage off) =
      delivered shards il maxb L io.pread mem jobs (.stage off) := by
  simp only [runBatch, delivered]
  rw [uploads_eq, applyWrites_other]
  · apply applyWrites_perm mem (io.perm batch _)
    intro b b' written written'
    obtain ⟨job, member, read⟩ := List.mem_flatMap.mp ((io.perm batch _).mem_iff.mp written)
    obtain ⟨job', member', read'⟩ := List.mem_flatMap.mp ((io.perm batch _).mem_iff.mp written')
    obtain ⟨i, reached, cell, value⟩ := mem_read.mp read
    obtain ⟨i', reached', cell', value'⟩ := mem_read.mp read'
    obtain ⟨rfl, rfl⟩ := formed.dst_inj width once member member'
      (Nat.lt_of_lt_of_le reached (fits job)) (Nat.lt_of_lt_of_le reached' (fits job'))
      (cell.symm.trans cell')
    rw [value, value']
  · intro b written
    obtain ⟨job, -, upload⟩ := List.mem_flatMap.mp written
    obtain ⟨_, _, _, _, cell, _⟩ := mem_uploadWrites.mp upload
    cases cell

omit width once in
theorem delivered_outside (mem : Memory) {cell : Cell}
    (outside : Outside il L (taken.map Prod.snd) cell) :
    delivered shards il maxb L io.pread mem jobs cell = mem cell :=
  applyWrites_other mem _ cell (formed.not_read fits outside)

/-- Before another batch its destinations are as the reads so far have left
them. -/
theorem runBatch_dst (mem : Memory) {job : ReadJob} (later : job.slot ∉ taken.map Prod.snd)
    {i : Nat} (inside : i < (L.role job.role).expertBytes) :
    runBatch shards il maxb L io batch jobs mem (job.dst il maxb (L.role job.role) i) =
      delivered shards il maxb L io.pread mem jobs (job.dst il maxb (L.role job.role) i) := by
  cases staged : job.staged with
  | none =>
      have outside : Outside il L (taken.map Prod.snd)
          (.slab il job.role (job.slot * (L.role job.role).expertBytes + i)) :=
        outside_slot later inside
      rw [ReadJob.dst_direct staged, runBatch_outside formed fits mem outside,
        delivered_outside formed fits mem outside]
  | some part =>
      rw [ReadJob.dst_staged staged]
      exact runBatch_stage formed fits width once mem _

end OneBatch

/-! ## All batches -/

def jobBatches (hostPtr : Role → Nat → Bool) (cap : Nat) :
    Nat → List (Nat × Nat) → List (List ReadJob)
  | 0, _ => []
  | _, [] => []
  | turns + 1, pend =>
      let (jobs, left) := gather hostPtr cap pend 0
      if jobs = [] then [] else jobs :: jobBatches hostPtr cap turns left

theorem readBatches_jobs (shards : Shards) (il maxb : Nat) (L : LayerSlabs) (io : Io)
    (turns batch : Nat) (pend : List (Nat × Nat)) (mem : Memory) :
    (readBatches shards il maxb L io hostPtr cap turns batch pend mem).2 =
      jobBatches hostPtr cap turns pend := by
  induction turns generalizing batch pend mem with
  | zero =>
      unfold readBatches jobBatches
      rfl
  | succ turns ih =>
      cases pend with
      | nil =>
          unfold readBatches jobBatches
          rfl
      | cons first rest =>
          simp only [readBatches, jobBatches]
          split
          · rfl
          · exact congrArg _ (ih (batch + 1) _ _)

theorem gather_busy {pend : List (Nat × Nat)} (some : pend ≠ [])
    (room : 3 ≤ cap ∨ ∀ p ∈ pend, stageNeed hostPtr p.2 = 0) :
    (gather hostPtr cap pend 0).1 ≠ [] := by
  intro idle
  obtain ⟨taken, split, formed, -, progress⟩ := gather_batch hostPtr cap pend 0
  have nothing : taken = [] := by
    cases taken with
    | nil => rfl
    | cons p rest =>
        obtain ⟨job, member, -⟩ := formed.every p.1 p.2 List.mem_cons_self .gate
        rw [idle] at member
        cases member
  rcases progress nothing with none | ⟨small, p, member, staged⟩
  · exact some none
  · rcases room with large | direct
    · omega
    · exact staged (direct p member)

theorem gather_idle (width : ∀ role, (L.role role).expertBytes ≤ maxb) {pend : List (Nat × Nat)}
    (some : pend ≠ [])
    (room : 3 ≤ cap ∨ (∀ p ∈ pend, stageNeed hostPtr p.2 = 0) ∨ maxb = 0)
    (idle : (gather hostPtr cap pend 0).1 = []) (role : Role) : (L.role role).expertBytes = 0 := by
  have empty : maxb = 0 := by
    rcases room with large | direct | zero
    · exact absurd idle (gather_busy some (Or.inl large))
    · exact absurd idle (gather_busy some (Or.inr direct))
    · exact zero
  have most := width role
  omega

theorem gather_shorter {pend : List (Nat × Nat)} (busy : (gather hostPtr cap pend 0).1 ≠ []) :
    (gather hostPtr cap pend 0).2.length < pend.length := by
  obtain ⟨taken, split, formed, -⟩ := gather_batch hostPtr cap pend 0
  have some : taken ≠ [] := by
    rintro rfl
    apply busy
    apply List.eq_nil_iff_forall_not_mem.mpr
    intro job member
    cases formed.only job member
  have positive := List.length_pos_iff.mpr some
  have lengths := congrArg List.length split
  rw [List.length_append] at lengths
  omega

/-- The batch loop leaves every pending expert in its slot exactly if all of its
reads arrive; it targets no other slot and leaves the rest of the slabs alone. -/
theorem readBatches_arrive (fits : io.Fits shards L)
    (width : ∀ role, (L.role role).expertBytes ≤ maxb) (turns batch : Nat)
    (pend : List (Nat × Nat)) (mem : Memory) (enough : pend.length ≤ turns)
    (apart : (pend.map Prod.snd).Nodup)
    (room : 3 ≤ cap ∨ (∀ p ∈ pend, stageNeed hostPtr p.2 = 0) ∨ maxb = 0) :
    let result := readBatches shards il maxb L io hostPtr cap turns batch pend mem
    ((∀ e slot, (e, slot) ∈ pend → Loaded shards il L result.1 slot e) ↔
        AllArrive shards il maxb L io.pread result.2 mem) ∧
      (∀ cell, Outside il L (pend.map Prod.snd) cell → result.1 cell = mem cell) ∧
      ∀ jobs ∈ result.2, ∀ job ∈ jobs, (job.expert, job.slot) ∈ pend := by
  induction turns generalizing batch pend mem with
  | zero =>
      have none : pend = [] := List.length_eq_zero_iff.mp (Nat.le_zero.mp enough)
      subst none
      simp [readBatches, AllArrive]
  | succ turns ih =>
      cases pend with
      | nil => simp [readBatches, AllArrive]
      | cons first rest =>
          obtain ⟨taken, split, formed, -⟩ := gather_batch hostPtr cap (first :: rest) 0
          simp only [readBatches]
          by_cases idle : (gather hostPtr cap (first :: rest) 0).1 = []
          · have empty := gather_idle width (List.cons_ne_nil first rest) room idle
            rw [if_pos idle]
            refine ⟨⟨fun _ => trivial, ?_⟩, fun _ _ => rfl, by simp⟩
            intro _ e slot _ role i inside
            rw [empty role] at inside
            cases inside
          · rw [if_neg idle]
            have shorter := gather_shorter idle
            have single := gather_single hostPtr cap apart 0
            generalize gather hostPtr cap (first :: rest) 0 = gathered at *
            obtain ⟨jobs, left⟩ := gathered
            dsimp only at split formed shorter single ⊢
            rw [split] at apart room shorter enough ⊢
            rw [List.map_append] at apart ⊢
            obtain ⟨takenApart, leftApart, disjoint⟩ := List.nodup_append.mp apart
            have once : ∀ e e' slot, (e, slot) ∈ taken → (e', slot) ∈ taken → e = e' := by
              intro e e' slot first second
              exact (Prod.mk.inj (List.inj_on_of_nodup_map takenApart first second rfl)).1
            obtain ⟨later, frame, inPend⟩ := ih (batch + 1) left
              (runBatch shards il maxb L io batch jobs mem) (by omega) leftApart
              (room.imp_right (Or.imp_left fun direct p member =>
                direct p (List.mem_append_right _ member)))
            refine ⟨?_, ?_, ?_⟩
            · simp only [List.mem_append, or_imp, forall_and]
              apply and_congr
              · rw [← runBatch_loaded_iff il batch formed fits width once single mem]
                apply forall₂_congr
                intro e slot
                apply forall_congr'
                intro listed
                apply Loaded.congr
                intro role i inside
                apply frame
                apply outside_slot ?_ inside
                exact fun other => disjoint slot (List.mem_map.mpr ⟨_, listed, rfl⟩) slot other rfl
              · apply later.trans
                apply AllArrive.congr
                intro jobs' member job listed i inside
                apply runBatch_dst formed fits width once mem ?_ inside
                intro earlier
                have own : job.slot ∈ left.map Prod.snd :=
                  List.mem_map.mpr ⟨_, inPend jobs' member job listed, rfl⟩
                exact disjoint _ earlier _ own rfl
            · intro cell outside
              cases cell with
              | stage off => exact absurd outside id
              | slab il' role off =>
                  rw [frame, runBatch_outside formed fits]
                  · exact fun same slot member => outside same slot (List.mem_append_left _ member)
                  · exact fun same slot member => outside same slot (List.mem_append_right _ member)
            · intro jobs' member job listed
              rcases List.mem_cons.mp member with same | member
              · subst same
                exact List.mem_append_left _ (formed.only job listed)
              · exact List.mem_append_right _ (inPend jobs' member job listed)

theorem Io.Complete.allArrive (complete : io.Complete shards L) (batches : List (List ReadJob))
    (mem : Memory) : AllArrive shards il maxb L io.pread batches mem := by
  induction batches generalizing mem with
  | nil => trivial
  | cons jobs rest ih =>
      refine ⟨?_, ih _⟩
      intro job _ i inside
      rw [(complete job).arrived]
      exact Or.inl inside

end MoeStream
