import MoeStream.Arena.PrefillServes
import MoeStream.Foundation.Gather
import MoeStream.Inference.Network
import MoeStream.Slab.Advances
import MoeStream.Slab.Passes

/-!
# The streamed model

The graph as it is patched: for each layer with experts either the load op of the
prefill arena and one multiplication over the arena, or passes of the remap, each
followed by a multiplication over the slab.  A multiplication reads its weights
byte by byte, and the thread of `pf_kick` works beside all of it.
-/

set_option autoImplicit false

namespace MoeStream.Inference

open Foundation

structure System where
  rt : Runtime
  arena : Prefill.Arena
  sizing : Sizing
  pfReady : Bool
  force : Option Int

structure Reads where
  arena : (ReadJob → Nat → Nat → Int) → Prop
  slab : Io → Prop

namespace System

variable (sys : System)

/-- Whether `prefill_exps` returns the tensors of the arena. -/
def prefills (il nTokens : Nat) : Bool :=
  sys.pfReady && decide (sys.sizing.threshold < nTokens) && (sys.arena.layers il).isSome

def passes (ids : Ids) : Nat := sys.sizing.nPasses sys.force ids.ne1

def weights (il e : Nat) : Matrices := fun role =>
  (sys.rt.layers il).elim [] fun L =>
    (List.range (L.role role).expertBytes).map (sys.rt.shards.expert (L.role role) e)

end System

/-! ## Multiplications -/

abbrev Look := Nat × Role × Nat

abbrev Looks := Gather Look Byte

/-- All the bytes of a multiplication of `n` positions. -/
def looksOf (L : LayerSlabs) (n : Nat) : List Look :=
  (List.range n).flatMap fun n => Role.all.flatMap fun role =>
    (List.range (L.role role).expertBytes).map fun i => (n, role, i)

def Looks.start (L : LayerSlabs) (n : Nat) : Looks := ⟨looksOf L n, fun _ => 0⟩

/-- The matrices position `n` was multiplied by. -/
def Looks.matrices (L : LayerSlabs) (looks : Looks) (n : Nat) : Matrices := fun role =>
  (List.range (L.role role).expertBytes).map fun i => looks.seen (n, role, i)

def arenaLook (a : Prefill.Arena) (il : Nat) (L : LayerSlabs) (s : Prefill.State) : Look → Byte
  | (n, role, i) => s.mem (a.dst il L role (s.dst n).toNat i)

def slabLook (il : Nat) (L : LayerSlabs) (s : State) (out : List Int) : Look → Byte
  | (n, role, i) => s.mem (.slab il role ((out.getD n 0).toNat * (L.role role).expertBytes + i))

/-! ## The graph -/

/-- The node of the current layer that is next, or at work. -/
inductive Op (Y : Type) where
  | ready
  | loading (ids : Ids)
  | arena (ids : Ids) (looks : Looks)
  | pass (ids : Ids) (pass : Nat) (acc : Option (List Y))
  | slab (ids : Ids) (pass : Nat) (acc : Option (List Y)) (out : List Int) (looks : Looks)

structure Machine (B X Y : Type) where
  x : X
  todo : List Nat
  batches : List B
  slab : State
  arena : Prefill.State
  op : Op Y

/-- `ms_acc`: the first pass, then the sums. -/
def accumulate {Y : Type} [Add Y] (acc : Option (List Y)) (contrib : List Y) : List Y :=
  acc.elim contrib fun sums => List.zipWith (· + ·) sums contrib

variable {B X Y : Type}

/-- The steps of the graph, of the multiplications and of the thread. -/
inductive Step [Add Y] (net : Network B X Y) (sys : System) (reads : Reads) :
    Machine B X Y → Machine B X Y → Prop
  | feed {m b batches} (ready : m.op = .ready) (done : m.todo = [])
      (more : m.batches = b :: batches) :
      Step net sys reads m
        { m with x := net.feed b m.x, todo := net.layers, batches := batches }
  | insert {m il todo arena} (ready : m.op = .ready) (next : m.todo = il :: todo)
      (path : sys.prefills il (net.selected il m.x).ne1 = true)
      (call : Prefill.Step sys.arena reads.arena m.arena arena)
      (waiting : arena.phase = .waiting ⟨il, net.selected il m.x⟩) :
      Step net sys reads m
        { m with arena := arena, op := .loading (net.selected il m.x) }
  | work {m arena} (step : Prefill.Step sys.arena reads.arena m.arena arena)
      (own : arena.phase.call = m.arena.phase.call) :
      Step net sys reads m { m with arena := arena }
  | launch {m il L ids} (loading : m.op = .loading ids)
      (computing : m.arena.phase = .computing ⟨il, ids⟩) (layer : sys.arena.layers il = some L) :
      Step net sys reads m { m with op := .arena ids (.start L ids.list.length) }
  | fetch {m il todo L ids first look later seen}
      (at_work : m.op = .arena ids ⟨first ++ look :: later, seen⟩) (next : m.todo = il :: todo)
      (layer : sys.arena.layers il = some L) :
      Step net sys reads m { m with
        op := .arena ids ⟨first ++ later,
          Function.update seen look (arenaLook sys.arena il L m.arena look)⟩ }
  | finish {m il todo L ids seen arena} (done : m.op = .arena ids ⟨[], seen⟩)
      (next : m.todo = il :: todo) (layer : sys.arena.layers il = some L)
      (step : Prefill.Step sys.arena reads.arena m.arena arena) (idle : arena.phase = .idle) :
      Step net sys reads m { m with
        x := net.join il m.x
          (net.contributions il m.x ids.list fun n _ => Looks.matrices L ⟨[], seen⟩ n)
        todo := todo
        arena := arena
        op := .ready }
  | sweep {m il todo} (ready : m.op = .ready) (next : m.todo = il :: todo)
      (path : sys.prefills il (net.selected il m.x).ne1 = false) :
      Step net sys reads m { m with op := .pass (net.selected il m.x) 0 none }
  | remap {m il todo L ids pass acc io} (due : m.op = .pass ids pass acc)
      (next : m.todo = il :: todo) (layer : sys.rt.layers il = some L) (result : reads.slab io) :
      Step net sys reads m { m with
        slab := (remap sys.rt io m.slab ⟨il, pass, sys.passes ids, ids⟩).state
        op := .slab ids pass acc (remap sys.rt io m.slab ⟨il, pass, sys.passes ids, ids⟩).out
          (.start L ids.list.length) }
  | read {m il todo L ids pass acc out first look later seen}
      (at_work : m.op = .slab ids pass acc out ⟨first ++ look :: later, seen⟩)
      (next : m.todo = il :: todo) (layer : sys.rt.layers il = some L) :
      Step net sys reads m { m with
        op := .slab ids pass acc out ⟨first ++ later,
          Function.update seen look (slabLook il L m.slab out look)⟩ }
  | add {m il todo L ids pass acc out seen} (done : m.op = .slab ids pass acc out ⟨[], seen⟩)
      (next : m.todo = il :: todo) (layer : sys.rt.layers il = some L)
      (more : pass + 1 < sys.passes ids) :
      Step net sys reads m { m with
        op := .pass ids (pass + 1) (some (accumulate acc
          (net.contributions il m.x ids.list fun n _ => Looks.matrices L ⟨[], seen⟩ n))) }
  | join {m il todo L ids pass acc out seen} (done : m.op = .slab ids pass acc out ⟨[], seen⟩)
      (next : m.todo = il :: todo) (layer : sys.rt.layers il = some L)
      (last : ¬pass + 1 < sys.passes ids) :
      Step net sys reads m { m with
        x := net.join il m.x (accumulate acc
          (net.contributions il m.x ids.list fun n _ => Looks.matrices L ⟨[], seen⟩ n))
        todo := todo
        op := .ready }

def Machine.start (sys : System) (nExpert : Nat) (mem : Memory)
    (arena : Prefill.State) (x : X) (batches : List B) : Machine B X Y :=
  ⟨x, [], batches, .start sys.rt nExpert mem, arena, .ready⟩

def Machine.progress (m : Machine B X Y) : Progress B Nat X := ⟨m.x, m.todo, m.batches⟩

end MoeStream.Inference
