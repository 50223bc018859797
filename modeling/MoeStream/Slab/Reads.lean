import MoeStream.Foundation.Writes

/-!
# Reading experts into the slab

Embedding of the read path of `llama-moestream.cpp`: the registered tensors, one
`do_read`, the staging of misses that have no host pointer, and the batch loop
of `ms_remap_fn`.  The workers of `run_reads_parallel` perform their reads in
any order of single bytes.
-/

set_option autoImplicit false

namespace MoeStream

open Foundation.Writes

abbrev Byte := UInt8

inductive Role where
  | gate
  | up
  | down
  deriving DecidableEq

def Role.all : List Role := [.gate, .up, .down]

/-- A registered expert tensor; `registered` stands for a tensor pointer. -/
structure SlabInfo where
  registered : Bool := false
  fileOffset : Nat := 0
  expertBytes : Nat := 0
  nExpert : Nat := 0
  fileIdx : Nat := 0

structure LayerSlabs where
  gate : SlabInfo := {}
  up : SlabInfo := {}
  down : SlabInfo := {}
  ready : Bool := false

def LayerSlabs.role (L : LayerSlabs) : Role → SlabInfo
  | .gate => L.gate
  | .up => L.up
  | .down => L.down

inductive Cell where
  | slab (il : Nat) (role : Role) (off : Nat)
  | stage (off : Nat)
  deriving DecidableEq

abbrev Memory := Cell → Byte

structure Shards where
  opened : Nat → Bool
  byte : Nat → Nat → Byte

/-- Byte `i` of expert `e` of a tensor, in its shard. -/
def Shards.expert (shards : Shards) (si : SlabInfo) (e i : Nat) : Byte :=
  shards.byte si.fileIdx (si.fileOffset + e * si.expertBytes + i)

/-! ## One read -/

/-- The loop of `do_read`: `pread o left` is what one call returns; the result
is how far the reads got. -/
def readLoop (pread : Nat → Nat → Int) (o : Nat) : Nat → Nat
  | 0 => o
  | left + 1 =>
      let r := pread o (left + 1)
      if r ≤ 0 then o else readLoop pread (o + r.toNat) (left + 1 - r.toNat)
  termination_by left => left
  decreasing_by omega

@[simp] theorem readLoop_full (n : Nat) : readLoop (fun _ left => left) 0 n = n := by
  cases n with
  | zero => simp [readLoop]
  | succ n =>
      simp only [readLoop]
      rw [if_neg (by omega)]
      simp [readLoop]

@[simp] theorem readLoop_ended (o left : Nat) : readLoop (fun _ _ => 0) o left = o := by
  cases left with
  | zero => simp [readLoop]
  | succ left =>
      simp only [readLoop]
      rw [if_pos (Int.le_refl 0)]

/-- `do_read` of expert `e` of a tensor to the addresses `dst`. -/
def doRead {α : Type} (shards : Shards) (si : SlabInfo) (e : Nat) (dst : Nat → α)
    (pread : Nat → Nat → Int) : List (α × Byte) :=
  if shards.opened si.fileIdx then
    region dst (readLoop pread 0 si.expertBytes) (shards.expert si e)
  else []

/-- How many bytes of an expert `do_read` brings; none without a descriptor. -/
def arrived (shards : Shards) (si : SlabInfo) (pread : Nat → Nat → Int) : Nat :=
  if shards.opened si.fileIdx then readLoop pread 0 si.expertBytes else 0

@[simp] theorem arrived_ended (shards : Shards) (si : SlabInfo) :
    arrived shards si (fun _ _ => 0) = 0 := by
  simp only [arrived]
  rw [readLoop_ended]
  exact ite_self 0

theorem mem_doRead_arrived {α : Type} {shards : Shards} {si : SlabInfo} {e : Nat} {dst : Nat → α}
    {pread : Nat → Nat → Int} {cell : α} {b : Byte} :
    (cell, b) ∈ doRead shards si e dst pread ↔
      ∃ i, i < arrived shards si pread ∧ cell = dst i ∧ b = shards.expert si e i := by
  simp only [doRead, arrived]
  split
  · exact mem_region
  · simp

/-- A call of `pread` returns at most what it is asked for. -/
def AtMost (pread : Nat → Nat → Int) : Prop := ∀ o left, pread o left ≤ left

theorem readLoop_le {pread : Nat → Nat → Int} (atMost : AtMost pread) (o left : Nat) :
    readLoop pread o left ≤ o + left := by
  induction left using Nat.strong_induction_on generalizing o with
  | _ left ih =>
      cases left with
      | zero => simp [readLoop]
      | succ left =>
          have most := atMost o (left + 1)
          simp only [readLoop]
          split
          · omega
          · have rest := ih (left + 1 - (pread o (left + 1)).toNat) (by omega)
              (o + (pread o (left + 1)).toNat)
            omega

theorem arrived_le {pread : Nat → Nat → Int} (atMost : AtMost pread) (shards : Shards)
    (si : SlabInfo) : arrived shards si pread ≤ si.expertBytes := by
  have bound := readLoop_le atMost 0 si.expertBytes
  simp only [arrived]
  split <;> omega

def Whole (shards : Shards) (si : SlabInfo) (pread : Nat → Nat → Int) : Prop :=
  shards.opened si.fileIdx = true ∧ readLoop pread 0 si.expertBytes = si.expertBytes

theorem Whole.arrived {shards : Shards} {si : SlabInfo} {pread : Nat → Nat → Int}
    (whole : Whole shards si pread) : arrived shards si pread = si.expertBytes := by
  simp only [MoeStream.arrived]
  rw [if_pos whole.1, whole.2]

theorem mem_doRead {α : Type} {shards : Shards} {si : SlabInfo} {e : Nat} {dst : Nat → α}
    {pread : Nat → Nat → Int} (whole : Whole shards si pread) {cell : α} {b : Byte} :
    (cell, b) ∈ doRead shards si e dst pread ↔
      ∃ i, i < si.expertBytes ∧ cell = dst i ∧ b = shards.expert si e i := by
  rw [mem_doRead_arrived, whole.arrived]

/-- A read of one role of one expert, directly into its slot or, when the slot
has no host pointer, into a part of the staging buffer. -/
structure ReadJob where
  role : Role
  expert : Nat
  slot : Nat
  staged : Option Nat
  deriving DecidableEq

def ReadJob.dst (il maxb : Nat) (si : SlabInfo) (job : ReadJob) (i : Nat) : Cell :=
  match job.staged with
  | none => .slab il job.role (job.slot * si.expertBytes + i)
  | some part => .stage (part * maxb + i)

theorem ReadJob.dst_direct {job : ReadJob} (direct : job.staged = none) (il maxb : Nat)
    (si : SlabInfo) (i : Nat) :
    job.dst il maxb si i = .slab il job.role (job.slot * si.expertBytes + i) := by
  simp only [ReadJob.dst, direct]

theorem ReadJob.dst_staged {job : ReadJob} {part : Nat} (staged : job.staged = some part)
    (il maxb : Nat) (si : SlabInfo) (i : Nat) :
    job.dst il maxb si i = .stage (part * maxb + i) := by
  simp only [ReadJob.dst, staged]

def ReadJob.read (shards : Shards) (il maxb : Nat) (L : LayerSlabs)
    (pread : ReadJob → Nat → Nat → Int) (job : ReadJob) : List (Cell × Byte) :=
  let si := L.role job.role
  doRead shards si job.expert (job.dst il maxb si) (pread job)

/-! ## Batches -/

/-- How many parts of the staging buffer one expert needs. -/
def stageNeed (hostPtr : Role → Nat → Bool) (slot : Nat) : Nat :=
  Role.all.countP fun role => !hostPtr role slot

/-- The jobs of one expert, with staging parts from `si` on. -/
def expertJobs (hostPtr : Role → Nat → Bool) (e slot : Nat) : List Role → Nat → List ReadJob
  | [], _ => []
  | role :: roles, si =>
      if hostPtr role slot then
        ⟨role, e, slot, none⟩ :: expertJobs hostPtr e slot roles si
      else ⟨role, e, slot, some si⟩ :: expertJobs hostPtr e slot roles (si + 1)

def gather (hostPtr : Role → Nat → Bool) (cap : Nat) :
    List (Nat × Nat) → Nat → List ReadJob × List (Nat × Nat)
  | [], _ => ([], [])
  | (e, slot) :: rest, si =>
      let need := stageNeed hostPtr slot
      if need ≠ 0 ∧ cap < si + need then ([], (e, slot) :: rest)
      else
        let (jobs, left) := gather hostPtr cap rest (si + need)
        (expertJobs hostPtr e slot Role.all si ++ jobs, left)

/-- `ggml_backend_tensor_set` of a staged part to its slot. -/
def upload (il maxb : Nat) (L : LayerSlabs) (mem : Memory) (job : ReadJob) : Memory :=
  match job.staged with
  | none => mem
  | some part =>
      let eb := (L.role job.role).expertBytes
      applyWrites mem (region (fun i => .slab il job.role (job.slot * eb + i)) eb
        fun i => mem (.stage (part * maxb + i)))

/-- What the operating system decides in one call: the results of `pread` and,
batch by batch, the order in which the workers' bytes arrive. -/
structure Io where
  pread : ReadJob → Nat → Nat → Int
  order : Nat → List (Cell × Byte) → List (Cell × Byte)
  perm : ∀ batch ws, (order batch ws).Perm ws

def Io.whole : Io := ⟨fun _ _ left => left, fun _ ws => ws, fun _ _ => List.Perm.refl _⟩

def runBatch (shards : Shards) (il maxb : Nat) (L : LayerSlabs) (io : Io) (batch : Nat)
    (jobs : List ReadJob) (mem : Memory) : Memory :=
  jobs.foldl (upload il maxb L)
    (applyWrites mem (io.order batch (jobs.flatMap (ReadJob.read shards il maxb L io.pread))))

/-- The loop over `pend`; a batch without a job discards what is left.  Every
other batch takes at least one pending expert, so `pend.length` turns do. -/
def readBatches (shards : Shards) (il maxb : Nat) (L : LayerSlabs) (io : Io)
    (hostPtr : Role → Nat → Bool) (cap : Nat) :
    Nat → Nat → List (Nat × Nat) → Memory → Memory × List (List ReadJob)
  | 0, _, _, mem => (mem, [])
  | _, _, [], mem => (mem, [])
  | turns + 1, batch, pend, mem =>
      let (jobs, left) := gather hostPtr cap pend 0
      if jobs = [] then (mem, [])
      else
        let (mem, batches) := readBatches shards il maxb L io hostPtr cap turns (batch + 1) left
          (runBatch shards il maxb L io batch jobs mem)
        (mem, jobs :: batches)

end MoeStream
