import MoeStream.Arena.DenseInside
import MoeStream.Foundation.Gather
import MoeStream.Foundation.Staged
import MoeStream.Graph.DensePlan

/-!
# The dense streamed model

The graphs of a model whose FFN weights are streamed, node by node: the load op
goes through the steps of the arena, an FFN reads its operands byte by byte, and
the thread of `dn_kick` works beside them.
-/

set_option autoImplicit false

namespace MoeStream.Dense

open Foundation

/-! ## An FFN at work -/

abbrev Look := Role × Nat

abbrev Looks := Gather Look Byte

abbrev Matrices := Role → Option (List Byte)

def Operand.bytes : Operand → Nat
  | .whole t => t.nbytes
  | .stub t => t.nbytes
  | .arena v => v.bytes

def Ffn.looks (f : Ffn) : List Look :=
  Role.all.flatMap fun role => (f.weight role).elim [] fun w =>
    (List.range w.bytes).map fun i => (role, i)

def Ffn.matrices (f : Ffn) (looks : Looks) : Matrices := fun role =>
  (f.weight role).map fun w => (List.range w.bytes).map fun i => looks.seen (role, i)

def fileByte (dev : Device) (t : DenseTensor) (i : Nat) : Byte := dev.byte t.fileIdx (t.offs + i)

/-- A byte of an operand; `junk` stands for what lies behind the rows of a stub. -/
def Operand.byte (dev : Device) (nbuf : Nat) (junk : DenseTensor → Nat → Byte) (s : State)
    (il i : Nat) : Operand → Byte
  | .whole t => fileByte dev t i
  | .stub t => junk t i
  | .arena v => s.mem (il % nbuf, v.arenaOff.getD 0 + i)

def Ffn.look (f : Ffn) (dev : Device) (nbuf : Nat) (junk : DenseTensor → Nat → Byte) (s : State)
    (il : Nat) : Look → Byte
  | (role, i) => (f.weight role).elim 0 (Operand.byte dev nbuf junk s il i)

def Model.matrices (m : Model) (dev : Device) (il : Nat) : Matrices := fun role =>
  (m.tensor il role).map fun t => (List.range t.nbytes).map (fileByte dev t)

namespace Inference

/-! ## What a model computes -/

/-- A model apart from its FFN weights: `x` is all it carries from one node to the
next, the KV cache and the place in the graph included. -/
structure Network (B X : Type) where
  /-- A batch and the nodes before its first layer. -/
  feed : B → X → X
  /-- The nodes of a layer up to its FFN. -/
  hidden : X → X
  ffn : Nat → X → Matrices → X

inductive Stage where
  | hidden
  | ffn (il : Nat)

def stages (layers : List Nat) : List Stage := layers.flatMap fun il => [.hidden, .ffn il]

/-- The model with its weights in memory; an input is a batch and the layers of its
graph. -/
def Network.resident {B X : Type} (net : Network B X) (weights : Nat → Matrices) :
    Staged (List Nat × B) Stage X where
  feed := fun b => net.feed b.2
  stages := fun b => stages b.1
  apply
    | .hidden => net.hidden
    | .ffn il => fun x => net.ffn il x (weights il)

/-! ## The graph -/

/-- The node that is at work.  An FFN has its input. -/
inductive Op (X : Type) where
  | ready
  | loading (il : Nat)
  | ffn (input : X) (looks : Looks)

/-- `values` are the outputs of the nodes of the graph so far, and `runs` the graphs
that are still to be run, each with the build it comes from and its batch. -/
structure Machine (B X : Type) where
  x : X
  values : List X
  todo : List Node
  runs : List ((Build × List Node) × B)
  arena : State
  op : Op X

variable {B X : Type}

/-- The steps of the graph, of the load op, of an FFN and of the thread. -/
inductive Step (net : Network B X) (m : Model) (dev : Device)
    (preads : (DenseInfo → Nat → Nat → Int) → Prop) (junk : DenseTensor → Nat → Byte) :
    Machine B X → Machine B X → Prop
  | feed {s run runs} (ready : s.op = .ready) (done : s.todo = []) (more : s.runs = run :: runs) :
      Step net m dev preads junk s
        { s with x := net.feed run.2 s.x, values := [], todo := run.1.2, runs := runs }
  | hidden {s todo} (ready : s.op = .ready) (next : s.todo = .hidden :: todo) :
      Step net m dev preads junk s
        { s with x := net.hidden s.x, values := s.values ++ [net.hidden s.x], todo := todo }
  | insert {s il input todo arena} (ready : s.op = .ready) (next : s.todo = .dnload il input :: todo)
      (call : Dense.Step (m.arena dev) preads s.arena arena) (waiting : arena.phase = .waiting il) :
      Step net m dev preads junk s { s with arena := arena, op := .loading il }
  | work {s arena} (step : Dense.Step (m.arena dev) preads s.arena arena)
      (own : arena.phase.layer = s.arena.phase.layer) :
      Step net m dev preads junk s { s with arena := arena }
  | loaded {s il input todo v} (loading : s.op = .loading il) (next : s.todo = .dnload il input :: todo)
      (computing : s.arena.phase = .computing il) (value : s.values[input]? = some v) :
      Step net m dev preads junk s
        { s with x := v, values := s.values ++ [v], todo := todo, op := .ready }
  | launch {s il f input todo v} (ready : s.op = .ready) (next : s.todo = .ffn il f input :: todo)
      (value : s.values[input]? = some v) :
      Step net m dev preads junk s { s with op := .ffn v ⟨f.looks, fun _ => 0⟩ }
  | read {s il f input todo v first look later seen}
      (at_work : s.op = .ffn v ⟨first ++ look :: later, seen⟩)
      (next : s.todo = .ffn il f input :: todo) :
      Step net m dev preads junk s { s with
        op := .ffn v ⟨first ++ later,
          Function.update seen look (f.look dev (m.arena dev).nbuf junk s.arena il look)⟩ }
  | plain {s il f input todo v seen} (done : s.op = .ffn v ⟨[], seen⟩)
      (next : s.todo = .ffn il f input :: todo) (idle : s.arena.phase = .idle) :
      Step net m dev preads junk s { s with
        x := net.ffn il v (f.matrices ⟨[], seen⟩)
        values := s.values ++ [net.ffn il v (f.matrices ⟨[], seen⟩)]
        todo := todo
        op := .ready }
  | finish {s il f input todo v seen arena} (done : s.op = .ffn v ⟨[], seen⟩)
      (next : s.todo = .ffn il f input :: todo)
      (step : Dense.Step (m.arena dev) preads s.arena arena)
      (at_work : s.arena.phase = .computing il) (idle : arena.phase = .idle) :
      Step net m dev preads junk s { s with
        x := net.ffn il v (f.matrices ⟨[], seen⟩)
        values := s.values ++ [net.ffn il v (f.matrices ⟨[], seen⟩)]
        todo := todo
        arena := arena
        op := .ready }

def Machine.start (mem : ArenaCell → Byte) (x : X) (runs : List ((Build × List Node) × B)) :
    Machine B X :=
  ⟨x, [], [], runs, .start mem, .ready⟩

def nodeStage : Node → Option Stage
  | .hidden => some .hidden
  | .dnload _ _ => none
  | .ffn il _ _ => some (.ffn il)

def Machine.progress (s : Machine B X) : Progress (List Nat × B) Stage X :=
  ⟨s.x, s.todo.filterMap nodeStage, s.runs.map fun run => (run.1.1.layers, run.2)⟩

end Inference

end MoeStream.Dense
