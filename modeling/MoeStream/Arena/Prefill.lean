import Mathlib.Logic.Relation
import MoeStream.Slab.Remap

/-!
# The prefill arena

Embedding of the prefill path of `llama-moestream.cpp`: the arena layout left by
`finalize`, `load_layer_arena`, `pf_wait`, `pf_kick` and `ms_pfload_fn`.  The op
runs on the CPU, `mul_mat_id` on the GPU, and the thread of `pf_kick` beside
both; a state is between two single reads or writes of any of them.
-/

set_option autoImplicit false

namespace MoeStream

open Foundation.Writes

/-! ## Arena buffers -/

abbrev ArenaCell := Nat × Nat

/-- `lay_max`: one arena holds the largest of the layers below `n`. -/
def layMax (bytes : Nat → Option Nat) (n : Nat) : Nat :=
  (List.range n).foldl (fun largest il => (bytes il).elim largest (max largest)) 0

def pageUp (bytes : Nat) : Nat := (bytes + 4095) / 4096 * 4096

theorem le_pageUp (bytes : Nat) : bytes ≤ pageUp bytes := by
  simp only [pageUp]
  omega

theorem le_layMax {bytes : Nat → Option Nat} {n il size : Nat} (below : il < n)
    (present : bytes il = some size) : size ≤ layMax bytes n := by
  have grows : ∀ (ils : List Nat) (largest : Nat),
      largest ≤ ils.foldl (fun largest il => (bytes il).elim largest (max largest)) largest ∧
      (il ∈ ils →
        size ≤ ils.foldl (fun largest il => (bytes il).elim largest (max largest)) largest) := by
    intro ils
    induction ils with
    | nil => simp
    | cons first rest ih =>
        intro largest
        rw [List.foldl_cons]
        obtain ⟨low, later⟩ := ih ((bytes first).elim largest (max largest))
        have step : largest ≤ (bytes first).elim largest (max largest) := by
          cases bytes first with
          | none => exact le_refl largest
          | some other => exact le_max_left largest other
        refine ⟨step.trans low, ?_⟩
        intro member
        rcases List.mem_cons.mp member with rfl | member
        · apply le_trans ?_ low
          rw [present]
          exact le_max_right largest size
        · exact later member
  exact (grows (List.range n) 0).2 (List.mem_range.mpr below)

theorem next_apart {nbuf : Nat} (two : 2 ≤ nbuf) (il : Nat) : (il + 1) % nbuf ≠ il % nbuf := by
  intro same
  have difference := Nat.sub_mod_eq_zero_of_mod_eq same
  rw [Nat.add_sub_cancel_left, Nat.mod_eq_of_lt two] at difference
  cases difference

namespace Prefill

/-! ## The layout -/

/-- What is fixed once the arena is ready.  The loader checks every expert
tensor of a layer against the same expert count. -/
structure Arena where
  layers : Nat → Option LayerSlabs
  nLayer : Nat
  nbuf : Nat
  async : Bool
  prefetch : Bool
  shards : Shards
  last : ∀ {il L}, layers il = some L → il < nLayer
  allocated : 0 < nbuf
  shaped : ∀ {il L}, layers il = some L → ∀ role, (L.role role).nExpert = L.gate.nExpert

def tensorBytes (si : SlabInfo) : Nat := si.expertBytes * si.nExpert

def layerBytes (L : LayerSlabs) : Nat := tensorBytes L.gate + tensorBytes L.up + tensorBytes L.down

/-- `g_arena_bytes`: one arena holds the largest layer. -/
def Arena.arenaBytes (a : Arena) : Nat :=
  pageUp (layMax (fun il => (a.layers il).map layerBytes) a.nLayer)

/-- The running offset of `finalize` at each role. -/
def arenaOff (L : LayerSlabs) : Role → Nat
  | .gate => 0
  | .up => tensorBytes L.gate
  | .down => tensorBytes L.gate + tensorBytes L.up

/-- Where byte `i` of an expert is read to. -/
def Arena.dst (a : Arena) (il : Nat) (L : LayerSlabs) (role : Role) (e i : Nat) : ArenaCell :=
  (il % a.nbuf, arenaOff L role + e * (L.role role).expertBytes + i)

/-! ## The state -/

/-- `g_arena_layer` and `g_arena_have`. -/
structure Residency where
  arenaLayer : Nat → Option Nat
  arenaHave : Nat → Nat → Bool

structure Call where
  il : Nat
  ids : Ids

/-- The thread of `pf_kick`; a hint that is empty reads every expert. -/
inductive Thread where
  | kicked (il : Nat) (hint : Option (Nat → Bool))
  | loading (il : Nat) (pending : List (ArenaCell × Byte))

inductive Phase where
  | idle
  | waiting (call : Call)
  | loading (call : Call) (pending : List (ArenaCell × Byte))
  | computing (call : Call)

structure State where
  mem : ArenaCell → Byte
  residency : Residency
  prevUnion : Nat → Option (Nat → Bool)
  thread : Option Thread
  phase : Phase
  dst : Nat → Int

/-! ## Loading a layer -/

/-- `load_layer_arena` up to the reads; `need` is null for every expert. -/
def Arena.loadLayerArena (a : Arena) (il : Nat) (need : Option (Nat → Bool)) (g : Residency) :
    Residency × List ReadJob :=
  match a.layers il with
  | none => (g, [])
  | some L =>
      let bi := il % a.nbuf
      let kept : Nat → Bool := if g.arenaLayer bi = some il then g.arenaHave bi else fun _ => false
      let missing := (List.range L.gate.nExpert).filter fun e =>
        need.elim true (fun need => need e) && !kept e
      (⟨Function.update g.arenaLayer bi (some il),
        Function.update g.arenaHave bi fun e => kept e || decide (e ∈ missing)⟩,
        missing.flatMap fun e => Role.all.map fun role => ⟨role, e, 0, none⟩)

/-- `run_reads_parallel` of these jobs: what is written, in some order. -/
def Arena.reads (a : Arena) (il : Nat) (pread : ReadJob → Nat → Nat → Int) (jobs : List ReadJob) :
    List (ArenaCell × Byte) :=
  (a.layers il).elim [] fun L => jobs.flatMap fun job =>
    doRead a.shards (L.role job.role) job.expert (a.dst il L job.role job.expert) (pread job)

/-! ## The load op -/

def copyIds (ids : Ids) (dst : Nat → Int) : Nat → Int :=
  applyWrites dst <| (List.range ids.ne1).flatMap fun j =>
    region (fun k => j * ids.ne0 + k) ids.ne0 (ids.at j)

def Arena.useUnion (a : Arena) (il : Nat) : Bool :=
  (a.layers il).elim false fun L => decide (0 < L.gate.nExpert)

/-- `g_need`, the experts this batch references. -/
def gNeed (call : Call) (e : Nat) : Bool := decide ((e : Int) ∈ call.ids.list)

def Arena.need (a : Arena) (call : Call) : Option (Nat → Bool) :=
  if a.useUnion call.il then some (gNeed call) else none

def Arena.keepUnion (a : Arena) (call : Call) (prev : Nat → Option (Nat → Bool)) :
    Nat → Option (Nat → Bool) :=
  if a.useUnion call.il ∧ call.il < a.nLayer ∧ 256 ≤ call.ids.ne1 then
    Function.update prev call.il (some (gNeed call))
  else prev

def Arena.overlapped (a : Arena) : Bool := a.async && decide (2 ≤ a.nbuf)

/-- `pf_kick`, after its `pf_wait`. -/
def Arena.pfKick (a : Arena) (il : Nat) (prev : Nat → Option (Nat → Bool)) : Option Thread :=
  if ¬ a.overlapped then none
  else (a.layers il).elim none fun _ =>
    some (.kicked il (if a.prefetch ∧ il < a.nLayer then prev il else none))

def Joined : Option Thread → Prop
  | none => True
  | some (.kicked _ _) => False
  | some (.loading _ pending) => pending = []

/-- The thread `ms_pfload_fn` leaves behind it. -/
def Arena.leaves (a : Arena) (call : Call) (s : State) : Option Thread :=
  if a.overlapped ∧ 256 ≤ call.ids.ne1 then a.pfKick (call.il + 1) s.prevUnion else s.thread

/-- The steps of the op, of the thread and of the GPU in any interleaving.
`preads` are the results the reads may have.  The op is in the graph only for a
layer of the arena. -/
inductive Step (a : Arena) (preads : (ReadJob → Nat → Nat → Int) → Prop) : State → State → Prop
  | call {s call} (idle : s.phase = .idle) (inserted : (a.layers call.il).isSome) :
      Step a preads s { s with
        dst := copyIds call.ids s.dst
        prevUnion := a.keepUnion call s.prevUnion
        phase := .waiting call }
  | load {s call pread} (waiting : s.phase = .waiting call)
      (wait : a.overlapped → Joined s.thread) (io : preads pread) :
      Step a preads s { s with
        residency := (a.loadLayerArena call.il (a.need call) s.residency).1
        thread := if a.overlapped then none else s.thread
        phase := .loading call
          (a.reads call.il pread (a.loadLayerArena call.il (a.need call) s.residency).2) }
  | read {s call first rest w} (loading : s.phase = .loading call (first ++ w :: rest)) :
      Step a preads s { s with
        mem := Function.update s.mem w.1 w.2, phase := .loading call (first ++ rest) }
  | launch {s call} (loaded : s.phase = .loading call []) :
      Step a preads s { s with thread := a.leaves call s, phase := .computing call }
  | start {s il hint pread} (kicked : s.thread = some (.kicked il hint)) (io : preads pread) :
      Step a preads s { s with
        residency := (a.loadLayerArena il hint s.residency).1
        thread := some (.loading il
          (a.reads il pread (a.loadLayerArena il hint s.residency).2)) }
  | fetch {s il first rest w} (loading : s.thread = some (.loading il (first ++ w :: rest))) :
      Step a preads s { s with
        mem := Function.update s.mem w.1 w.2, thread := some (.loading il (first ++ rest)) }
  | finish {s call} (computing : s.phase = .computing call) :
      Step a preads s { s with phase := .idle }

/-- `finalize`: no arena holds a layer.  Which hints are kept is left open. -/
def State.start (mem : ArenaCell → Byte) (prev : Nat → Option (Nat → Bool)) (dst : Nat → Int) :
    State :=
  ⟨mem, ⟨fun _ => none, fun _ _ => false⟩, prev, none, .idle, dst⟩

def Arena.Reachable (a : Arena) (preads : (ReadJob → Nat → Nat → Int) → Prop) (s : State) : Prop :=
  ∃ mem prev dst, Relation.ReflTransGen (Step a preads) (State.start mem prev dst) s

end Prefill

end MoeStream
