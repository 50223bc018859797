import MoeStream.Inference.Total
import MoeStream.Loader.IdsFit

/-!
# A loaded model is served

`finalize` checks that every expert tensor lies inside the shard it claims.  With
a `pread` that makes progress inside a file, that is all the reads need, so a
model that passed the check is served whatever the pieces its reads come in.
-/

set_option autoImplicit false

namespace MoeStream

open Foundation
open Foundation.Refinement

namespace Program

variable {p : Program}

/-! ## Reads -/

/-- `pread` of the shards: it returns some of the bytes it is asked for when they
are in the file, and never more than it is asked for. -/
structure FileReads (p : Program) (pread : Nat → Nat → Nat → Int) : Prop where
  some : ∀ i file size, p.files[i]? = some file → file.size = some size →
    ∀ off count, 0 < count → off + count ≤ size → 0 < pread i off count
  most : ∀ i off count, pread i off count ≤ count

/-- The arguments `do_read` passes for a job. -/
def jobRead (L : LayerSlabs) (pread : Nat → Nat → Nat → Int) (job : ReadJob) (o left : Nat) : Int :=
  pread (L.role job.role).fileIdx
    ((L.role job.role).fileOffset + job.expert * (L.role job.role).expertBytes + o) left

/-- Results the reads of experts may have: each is one of some `pread`, which may
be another for every job. -/
def Read (p : Program) (reads : ReadJob → Nat → Nat → Int) : Prop :=
  (∀ job, AtMost (reads job)) ∧ ∀ il L, p.layers.find il = some L → ∀ job,
    job.expert < L.gate.nExpert → ∃ pread, p.FileReads pread ∧
      ∀ o left, o + left ≤ (L.role job.role).expertBytes →
        reads job o left = jobRead L pread job o left

theorem mem_slabs {il : Int} {L : LayerSlabs} (found : p.layers.find il = some L) (role : Role) :
    L.role role ∈ p.layers.slabs :=
  List.mem_flatMap.mpr ⟨(il, L), OrderedMap.find_mem found,
    List.mem_map.mpr ⟨role, Role.mem_all role, rfl⟩⟩

theorem found_role (complete : p.Complete) {il : Int} {L : LayerSlabs}
    (found : p.layers.find il = some L) (role : Role) : (L.role role).registered = true := by
  obtain ⟨some, known⟩ := p.registered.present il L found
  rw [← OrderedMap.get_of_find found] at known ⊢
  obtain ⟨t, member, slab⟩ := (p.registered.roles il some).mp known
  exact (p.registered.roles il role).mpr (complete t member il some slab role)

theorem found_ready (complete : p.Complete) {il : Int} {L : LayerSlabs}
    (found : p.layers.find il = some L) : L.ready = true := by
  have ready := p.registered.ready il
  rw [OrderedMap.get_of_find found] at ready
  exact ready.mpr (found_role complete found)

theorem found_experts (loadable : p.Loadable) (complete : p.Complete) {il : Int} {L : LayerSlabs}
    (found : p.layers.find il = some L) (role : Role) :
    (L.role role).nExpert = p.sizing.nExpert := by
  have known := found_role complete found role
  rw [← OrderedMap.get_of_find found] at known ⊢
  exact role_experts loadable known

/-- The check of `finalize` and progress inside a file make every read of an
expert whole. -/
theorem Read.inside (loadable : p.Loadable) (complete : p.Complete) (usable : p.usable = true)
    {reads : ReadJob → Nat → Nat → Int} (read : p.Read reads) {il : Int} {L : LayerSlabs}
    (found : p.layers.find il = some L) : ReadsInside p.runtime.shards L reads := by
  intro job expert
  have experts := found_experts loadable complete found
  have gate : L.gate.nExpert = p.sizing.nExpert := experts .gate
  have checked := usable
  simp only [Program.usable, Bool.and_eq_true, List.all_eq_true] at checked
  have valid := checked.2 _ (mem_slabs found job.role)
  simp only [validOffsets, found_role complete found job.role, Bool.not_true, Bool.false_or] at valid
  -- the tensor has a file, the file a size, and the tensor ends inside it
  cases file : p.files[(L.role job.role).fileIdx]? with
  | none =>
      rw [file] at valid
      cases valid
  | some shard =>
      rw [file] at valid
      cases known : shard.size with
      | none =>
          simp only [known] at valid
          cases valid
      | some size =>
          simp only [known, decide_eq_true_eq] at valid
          refine ⟨?_, ?_, read.1 job⟩
          · have bound := (List.getElem?_eq_some_iff.mp file).1
            simp only [runtime, usable, bound, decide_true, Bool.and_self]
          · intro o left positive within
            obtain ⟨pread, contract, agrees⟩ := read.2 il L found job expert
            rw [agrees o left within]
            apply contract.some _ shard size file known _ _ positive
            have last : (job.expert + 1) * (L.role job.role).expertBytes ≤
                (L.role job.role).nExpert * (L.role job.role).expertBytes :=
              Nat.mul_le_mul_right _ (by rw [experts]; omega)
            rw [Nat.add_mul, Nat.one_mul, Nat.mul_comm (L.role job.role).nExpert] at last
            omega

/-! ## The loaded model -/

structure Deployed (p : Program) : Prop where
  loadable : p.Loadable
  complete : p.Complete
  usable : p.usable = true
  noop : p.noop = 0
  unset : p.sweepTest = 0
  kept : ∀ il L, p.layers.find il = some L → il < p.dropFrom
  known : 0 < p.sizing.topK ∧ p.sizing.topK ≤ p.sizing.nExpert
  ubatch : p.sizing.maxUbatch < 2 ^ 16

theorem le_foldl_max (sizes : List Nat) (start : Nat) : start ≤ sizes.foldl max start ∧
    ∀ size ∈ sizes, size ≤ sizes.foldl max start := by
  induction sizes generalizing start with
  | nil => simp
  | cons size rest ih =>
      obtain ⟨low, later⟩ := ih (max start size)
      refine ⟨(Nat.le_max_left _ _).trans low, ?_⟩
      intro other member
      rcases List.mem_cons.mp member with rfl | member
      · exact (Nat.le_max_right _ _).trans low
      · exact later other member

theorem Deployed.product (deployed : p.Deployed) : Product p.runtime p.sizing.nExpert where
  enabled := rfl
  noop := deployed.noop
  zero := rfl
  positive := p.sizing.slots_pos
  slots := Sizing.slots_lt (deployed.loadable.narrow.trans (by decide))
  experts := deployed.loadable.narrow.trans (by decide)
  same := fun il L found => found_experts deployed.loadable deployed.complete found .gate
  kept := fun il L found => deployed.kept il L found
  width := by
    intro il L found role
    have listed : (L.role role).expertBytes ∈ p.layers.slabs.map SlabInfo.expertBytes :=
      List.mem_map.mpr ⟨_, mem_slabs found role, rfl⟩
    simp only [runtime, deployed.usable, if_true]
    exact (le_foldl_max _ 0).2 _ listed

theorem Deployed.remapped (deployed : p.Deployed) {il : Nat} {L : LayerSlabs}
    (found : p.layers.find il = some L) : p.runtime.remapped il = some L := by
  apply remapped_of_ready _ found (found_ready deployed.complete found)
  rw [deployed.noop]
  decide

theorem found_below {il : Nat} {L : LayerSlabs} (found : p.layers.find il = some L) :
    il < p.runtime.nCache := by
  obtain ⟨l, last, bound⟩ := p.registered.sorted.le_last (OrderedMap.find_mem found)
  simp only [runtime, last, Option.getD_some]
  omega

theorem Deployed.shaped (deployed : p.Deployed) {il : Nat} {L : LayerSlabs}
    (found : p.layers.find il = some L) (role : Role) : (L.role role).nExpert = L.gate.nExpert := by
  rw [found_experts deployed.loadable deployed.complete found role]
  exact (found_experts deployed.loadable deployed.complete found .gate).symm

/-- The arena `finalize` builds over the layers of the model. -/
def Deployed.arena (deployed : p.Deployed) (nbuf : Nat) (allocated : 0 < nbuf)
    (async prefetch : Bool) : Prefill.Arena where
  layers := fun il => p.layers.find il
  nLayer := p.runtime.nCache
  nbuf := nbuf
  async := async
  prefetch := prefetch
  shards := p.runtime.shards
  last := found_below
  allocated := allocated
  shaped := deployed.shaped

end Program

namespace Inference

open Program

variable {p : Program}

/-- A deployed model with its arena and the passes that are forced. -/
def System.of (p : Program) (arena : Prefill.Arena) (pfReady : Bool) (force : Option Int) :
    System :=
  ⟨p.runtime, arena, p.sizing, pfReady, force⟩

def Reads.of (p : Program) : Reads := ⟨p.Read, fun io => p.Read io.pread⟩

theorem read_whole (p : Program) : p.Read fun _ _ left => left := by
  refine ⟨fun _ _ left => Int.le_refl _, ?_⟩
  intro il L _ job _
  refine ⟨fun _ _ count => count, ⟨?_, fun _ _ count => Int.le_refl _⟩, fun _ _ _ => rfl⟩
  intro _ _ _ _ _ _ count positive _
  exact_mod_cast positive

variable {B X Y : Type} [AddZeroClass Y]

/-- The layers of the graph are layers of the model, its router names `top_k`
distinct experts, and the batches are those the sizes were made for. -/
structure Routes (p : Program) (net : Network B X Y) (pfReady : Bool) : Prop where
  layers : ∀ il ∈ net.layers, ∃ L, p.layers.find il = some L
  router : ∀ il x, TopK p.sizing (net.selected il x)
  tokens : pfReady = false → ∀ il x, (net.selected il x).ne1 ≤ p.sizing.maxUbatch

variable {net : Network B X Y}

theorem Deployed.fit (deployed : p.Deployed) {pfReady : Bool} (safe : p.sizing.Safe pfReady)
    (routes : Routes p net pfReady) (nbuf : Nat) (allocated : 0 < nbuf) (async prefetch : Bool)
    {force : Option Int} (forced : ∀ v ∈ force, v ≤ 8)
    (null : force.isSome → ∀ (il : Nat) L, p.layers.find il = some L → ∀ x n,
      net.ffn il x n (fun role => List.replicate (L.role role).expertBytes 0) = 0) :
    Fit net (System.of p (deployed.arena nbuf allocated async prefetch) pfReady force)
      (Reads.of p) where
  product := deployed.product
  whole := by
    intro il L found role
    exact found_role deployed.complete (remapped_layer found) role
  unset := deployed.unset
  slots := rfl
  narrow := deployed.loadable.narrow
  known := deployed.known
  safe := safe
  ubatch := deployed.ubatch
  forced := forced
  shards := rfl
  same := fun il L found => found
  layers := by
    intro il member
    obtain ⟨L, found⟩ := routes.layers il member
    exact ⟨L, deployed.remapped found⟩
  arena := by
    intro _ il member
    obtain ⟨L, found⟩ := routes.layers il member
    exact Option.isSome_iff_exists.mpr ⟨L, found⟩
  router := routes.router
  tokens := routes.tokens
  null := null
  arenaReads := by
    intro pread read il L found
    exact read.inside deployed.loadable deployed.complete deployed.usable found
  slabReads := by
    intro io read
    refine ⟨read.1, ?_⟩
    intro il L found
    exact read.inside deployed.loadable deployed.complete deployed.usable found
  answers := ⟨⟨_, read_whole p⟩, Io.whole, read_whole p⟩

/-- A model that passed the checks of the loader and of `finalize` computes, streamed,
what it computes with all its experts in memory: whatever the pieces the reads
come in, and in whatever order the graph, its multiplications, the load op and the
thread take their steps, every run ends, and ends with that result. -/
theorem deployed_computes (deployed : p.Deployed) {pfReady : Bool} (safe : p.sizing.Safe pfReady)
    (routes : Routes p net pfReady) (nbuf : Nat) (allocated : 0 < nbuf) (async prefetch : Bool)
    {force : Option Int} (forced : ∀ v ∈ force, v ≤ 8)
    (null : force.isSome → ∀ (il : Nat) L, p.layers.find il = some L → ∀ x n,
      net.ffn il x n (fun role => List.replicate (L.role role).expertBytes 0) = 0)
    (mem : Memory) (arena : ArenaCell → Byte) (prev : Nat → Option (Nat → Bool)) (dst : Nat → Int)
    (x : X) (batches : List B) :
    let sys := System.of p (deployed.arena nbuf allocated async prefetch) pfReady force
    Computes (Step net sys (Reads.of p)) Machine.progress
      (Machine.start sys p.sizing.nExpert mem (Prefill.State.start arena prev dst) x batches)
      ⟨(net.resident sys.weights).run x batches, [], []⟩ :=
  streamed_computes (Deployed.fit deployed safe routes nbuf allocated async prefetch forced null)
    mem arena prev dst x batches

/-! A layer of 128 experts in 64 slots, whose expert bytes are added up. -/

def halfProgram : Program := { splitProgram with sizing := ⟨128, 8, 0, 2, .fixed (1 / 2)⟩ }

theorem halfProgram_tensors : halfProgram.usable = true ∧
    (∀ t ∈ halfProgram.tensors, reduced halfProgram.sizing t = true ∧ t.ne2 = 128) ∧
    halfProgram.tensors.map (fun t => parseName t.name) =
      [some (0, .gate), some (0, .up), some (0, .down)] := by
  decide +kernel

theorem halfProgram_parsed {t : ExpertTensor} (member : t ∈ halfProgram.tensors) {il : Int}
    {role : Role} (parsed : parseName t.name = some (il, role)) : il = 0 := by
  have listed : some (il, role) ∈ halfProgram.tensors.map fun t => parseName t.name :=
    List.mem_map.mpr ⟨t, member, parsed⟩
  rw [halfProgram_tensors.2.2] at listed
  simp only [List.mem_cons, Option.some.injEq, Prod.mk.injEq, List.not_mem_nil, or_false] at listed
  rcases listed with same | same | same <;> exact same.1

theorem halfProgram_complete : halfProgram.Complete := by
  intro t member il role slab role'
  have zero := halfProgram_parsed member slab.2
  subst zero
  have parsed : some ((0 : Int), role') ∈ halfProgram.tensors.map fun t => parseName t.name := by
    rw [halfProgram_tensors.2.2]
    cases role' <;> simp
  obtain ⟨t', member', same⟩ := List.mem_map.mp parsed
  exact ⟨t', member', (halfProgram_tensors.2.1 t' member').1, same⟩

theorem halfProgram_deployed : halfProgram.Deployed where
  loadable := by
    refine ⟨fun t member _ => (halfProgram_tensors.2.1 t member).2, ?_, by decide⟩
    intro t member il role parsed
    rw [halfProgram_parsed member parsed]
    decide
  complete := halfProgram_complete
  usable := halfProgram_tensors.1
  noop := rfl
  unset := rfl
  kept := by
    intro il L found
    obtain ⟨role, known⟩ := halfProgram.registered.present il L found
    rw [← OrderedMap.get_of_find found] at known
    obtain ⟨t, member, slab⟩ := (halfProgram.registered.roles il role).mp known
    rw [halfProgram_parsed member slab.2]
    decide
  known := by decide
  ubatch := by decide

theorem packIds_topK {z : Sizing} (few : z.topK ≤ z.nExpert) (known : 0 < z.topK)
    (narrow : z.nExpert < 2 ^ 31) (n : Nat) :
    TopK z (packIds z.topK n fun p => p % z.nExpert) := by
  have positive : 0 < z.nExpert := by omega
  have below : ∀ p, p % z.nExpert < z.nExpert := fun p => Nat.mod_lt p positive
  have small : ∀ p, p % z.nExpert < 2 ^ 31 := fun p => (below p).trans narrow
  refine ⟨rfl, ?_, ?_⟩
  · intro j k _ _
    rw [packIds_at small]
    exact ⟨Int.natCast_nonneg _, by exact_mod_cast below _⟩
  · intro j k k' _ column column' same
    rw [packIds_at small, packIds_at small] at same
    have residues : (j * z.topK + k) % z.nExpert = (j * z.topK + k') % z.nExpert := by
      exact_mod_cast same
    have cancelled : Nat.ModEq z.nExpert k k' := Nat.ModEq.add_left_cancel' _ residues
    exact cancelled.eq_of_lt_of_lt (column.trans_le few) (column'.trans_le few)

def sumNetwork : Network Nat Nat Nat where
  layers := [0]
  feed := fun b _ => b
  selected := fun _ x => packIds 8 x fun p => p % 128
  ffn := fun _ _ _ matrices => ((Role.all.flatMap matrices).map UInt8.toNat).sum
  join := fun _ _ contributions => contributions.sum

theorem sumNetwork_routes : Routes halfProgram sumNetwork true where
  layers := by
    intro il member
    rw [List.mem_singleton.mp member]
    have parsed : some ((0 : Int), Role.gate) ∈
        halfProgram.tensors.map fun t => parseName t.name := by
      rw [halfProgram_tensors.2.2]
      exact List.mem_cons_self
    obtain ⟨t, member, same⟩ := List.mem_map.mp parsed
    exact find_slab member ⟨(halfProgram_tensors.2.1 t member).1, same⟩
  router := fun _ x => packIds_topK (by decide) (by decide) (by decide) x
  tokens := nofun

/-- A batch of 3 tokens in the slab and one of 300 in the arena. -/
theorem sumNetwork_computes :
    let sys := System.of halfProgram (halfProgram_deployed.arena 2 Nat.two_pos true true) true
      (some 2)
    Computes (Step sumNetwork sys (Reads.of halfProgram)) Machine.progress
      (Machine.start sys 128 (fun _ => 255)
        (Prefill.State.start (fun _ => 255) (fun _ => none) fun _ => 0) 0 [3, 300])
      ⟨(sumNetwork.resident sys.weights).run 0 [3, 300], [], []⟩ := by
  have safe : halfProgram.sizing.Safe true := by
    right
    right
    have slots : halfProgram.sizing.slots = 64 := by decide +kernel
    rw [slots]
    decide +kernel
  apply deployed_computes halfProgram_deployed safe sumNetwork_routes
  · simp
  · intro _ il L _ x n
    simp [sumNetwork, Role.all]

end Inference

end MoeStream
