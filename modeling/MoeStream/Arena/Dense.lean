import Mathlib.Logic.Relation
import MoeStream.Arena.Prefill
import MoeStream.Arena.RangeRead

/-!
# The dense arena

Embedding of dense FFN streaming: the arena tensors laid out by
`finalize_dense`, `dense_load_layer`, `dn_wait`, `dn_kick`, `ms_dnload_fn` and
`dense_ffn`.  The op runs on the CPU, the FFN on the GPU, and the thread of
`dn_kick` beside both.
-/

set_option autoImplicit false

namespace MoeStream.Dense

open Foundation.Writes

/-! ## The layout -/

/-- A claimed weight.  `arenaOff` is `none` as long as it has no arena tensor. -/
structure DenseInfo where
  arenaOff : Option Nat := none
  fileOffset : Nat := 0
  bytes : Nat := 0
  fileIdx : Nat := 0
  type : Int := 0
  role : Option Role := none
  ne0 : Nat := 0
  ne1 : Nat := 0
  valid : Bool := false

/-- The arena tensors of a layer, from offset `off` on. -/
def viewFrom : List DenseInfo → Nat → List DenseInfo
  | [], _ => []
  | m :: rest, off =>
      if m.valid then { m with arenaOff := some off } :: viewFrom rest (off + m.bytes)
      else {} :: viewFrom rest off

def weightBytes (w : List DenseInfo) : Nat :=
  (w.map fun m => if m.valid then m.bytes else 0).sum

/-- What is fixed once the dense arena is ready; `weights` is `g_dn_meta`. -/
structure Arena where
  weights : Nat → Option (List DenseInfo)
  bound : Nat
  nLayer : Nat
  first : Nat
  nbuf : Nat
  threads : Nat
  shards : Shards
  last : ∀ {il w}, weights il = some w → il < bound
  allocated : 0 < nbuf

/-- `g_dn_view`. -/
def Arena.view (d : Arena) (il : Nat) : Option (List DenseInfo) :=
  (d.weights il).bind fun w => if w = [] then none else some (viewFrom w 0)

/-- `g_dn_bytes_per`: one arena holds the largest layer. -/
def Arena.bytesPer (d : Arena) : Nat :=
  pageUp (layMax (fun il => (d.weights il).map weightBytes) d.bound)

/-- `dense_ffn`: the first arena tensor of the layer with the role. -/
def Arena.denseFfn (d : Arena) (il : Nat) (role : Role) : Option DenseInfo :=
  (d.view il).bind fun view => view.find? fun v => v.valid && v.role == some role

def Arena.streamed (d : Arena) (il : Nat) : Bool := decide (d.first ≤ il)

/-! ## The state -/

/-- The thread of `dn_kick`; `done` once `dense_load_layer` has returned. -/
inductive Thread where
  | kicked (il : Nat)
  | reading (il : Nat) (pending : List (ArenaCell × Byte))
  | done (il : Nat)

inductive Phase where
  | idle
  | waiting (il : Nat)
  | reading (il : Nat) (pending : List (ArenaCell × Byte))
  | loaded (il : Nat)
  | computing (il : Nat)

/-- `resident` is `g_dn_resident`. -/
structure State where
  mem : ArenaCell → Byte
  resident : Nat → Option Nat
  thread : Option Thread
  phase : Phase

/-! ## Loading a layer -/

def weightByte (shards : Shards) (m : DenseInfo) (x : Nat) : Byte :=
  shards.byte m.fileIdx (m.fileOffset + x)

def Arena.weightRead (d : Arena) (il : Nat) (pread : DenseInfo → Nat → Nat → Int)
    (m v : DenseInfo) : List (ArenaCell × Byte) :=
  match m.valid, v.arenaOff with
  | true, some off =>
      if d.shards.opened m.fileIdx then
        (denseReadRange (pread m) d.threads m.bytes (fun x => (il % d.nbuf, off + x))
          (weightByte d.shards m)).1
      else []
  | _, _ => []

/-- `dense_load_layer` up to its reads; `none` when it returns without reading. -/
def Arena.denseLoadLayer (d : Arena) (il : Nat) (pread : DenseInfo → Nat → Nat → Int)
    (resident : Nat → Option Nat) : Option (List (ArenaCell × Byte)) :=
  if resident (il % d.nbuf) = some il then none
  else
    match d.weights il, d.view il with
    | some w, some view => some ((w.zip view).flatMap fun (m, v) => d.weightRead il pread m v)
    | _, _ => none

/-! ## The load op -/

/-- `dn_kick`, after its `dn_wait`. -/
def Arena.dnKick (d : Arena) (il : Nat) : Option Thread :=
  if d.nbuf < 2 then none
  else if d.streamed il = false ∨ d.nLayer ≤ il then none
  else some (.kicked il)

def Joined : Option Thread → Prop
  | none => True
  | some (.done _) => True
  | some _ => False

/-- The steps of the op, of the thread and of the GPU in any interleaving.
`preads` are the results the reads may have.  The op is in the graph only for a
layer with arena tensors. -/
inductive Step (d : Arena) (preads : (DenseInfo → Nat → Nat → Int) → Prop) :
    State → State → Prop
  | call {s il} (idle : s.phase = .idle) (inserted : (d.view il).isSome) :
      Step d preads s { s with phase := .waiting il }
  | load {s il pread} (waiting : s.phase = .waiting il) (wait : Joined s.thread)
      (io : preads pread) :
      Step d preads s { s with
        thread := none
        phase := (d.denseLoadLayer il pread s.resident).elim (.loaded il) (.reading il) }
  | read {s il first rest w} (reading : s.phase = .reading il (first ++ w :: rest)) :
      Step d preads s { s with
        mem := Function.update s.mem w.1 w.2, phase := .reading il (first ++ rest) }
  | record {s il} (read : s.phase = .reading il []) :
      Step d preads s { s with
        resident := Function.update s.resident (il % d.nbuf) (some il), phase := .loaded il }
  | launch {s il} (loaded : s.phase = .loaded il) :
      Step d preads s { s with thread := d.dnKick (il + 1), phase := .computing il }
  | start {s il pread} (kicked : s.thread = some (.kicked il)) (io : preads pread) :
      Step d preads s { s with
        thread := some ((d.denseLoadLayer il pread s.resident).elim (.done il) (.reading il)) }
  | fetch {s il first rest w} (reading : s.thread = some (.reading il (first ++ w :: rest))) :
      Step d preads s { s with
        mem := Function.update s.mem w.1 w.2, thread := some (.reading il (first ++ rest)) }
  | note {s il} (read : s.thread = some (.reading il [])) :
      Step d preads s { s with
        resident := Function.update s.resident (il % d.nbuf) (some il), thread := some (.done il) }
  | finish {s il} (computing : s.phase = .computing il) :
      Step d preads s { s with phase := .idle }

/-- `finalize_dense`: no arena holds a layer. -/
def State.start (mem : ArenaCell → Byte) : State := ⟨mem, fun _ => none, none, .idle⟩

def Arena.Reachable (d : Arena) (preads : (DenseInfo → Nat → Nat → Int) → Prop) (s : State) :
    Prop :=
  ∃ mem, Relation.ReflTransGen (Step d preads) (State.start mem) s

end MoeStream.Dense
