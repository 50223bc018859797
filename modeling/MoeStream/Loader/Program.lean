import MoeStream.Loader.Experts
import MoeStream.Slab.Outputs

/-!
# A loaded model

Embedding of `finalize` for the expert path and of the entry of `ms_remap_fn`,
over the tensors a model was loaded with.  `none` stands for a null pointer that
is dereferenced.
-/

set_option autoImplicit false

namespace MoeStream

open Foundation

/-- A shard as `open` and `fstat` see it. -/
structure ShardFile where
  opens : Bool
  size : Option Nat

/-- The tensors of a model and what `finalize` finds.  `files` is empty when the
path is unknown; `arena` is how many tensors the prefill arena takes before an
allocation fails, if the loop over them is reached at all. -/
structure Program where
  sizing : Sizing
  tensors : List ExpertTensor
  files : List ShardFile
  denseReady : Bool
  arena : Option Nat
  noop : Int
  dropFrom : Int
  sweepTest : Int
  byte : Nat → Nat → Byte
  hostPtr : Nat → Role → Nat → Bool

def Layers.slabs (layers : Layers) : List SlabInfo :=
  layers.flatMap fun p => Role.all.map p.2.role

/-- `g_layers.begin()->second.gate`. -/
def Layers.firstGate : Layers → SlabInfo
  | [] => {}
  | (_, L) :: _ => L.gate

def validOffsets (files : List ShardFile) (si : SlabInfo) : Bool :=
  !si.registered ||
    match files[si.fileIdx]? with
    | none => false
    | some file =>
        match file.size with
        | none => false
        | some size => decide (si.fileOffset + si.expertBytes * si.nExpert ≤ size)

namespace Program

variable (p : Program)

def layers : Layers := createTensors p.sizing p.tensors

def usable : Bool :=
  !p.files.isEmpty && p.files.all ShardFile.opens && p.layers.slabs.all (validOffsets p.files)

/-- The arena loop reads the shape of every tensor it reaches. -/
def arenaReads : Bool :=
  match p.arena with
  | none => true
  | some taken => (p.layers.slabs.take (taken + 1)).all SlabInfo.registered

/-- `n_expert` of `finalize`. -/
def nExpert : Nat := p.layers.firstGate.nExpert

/-- What the remap works with once `finalize` was called. -/
def runtime : Runtime where
  enabled := true
  noop := p.noop
  nCache := (p.layers.last.getD (-1) + 1).toNat
  layers := fun il => p.layers.find il
  nSlots := p.sizing.slots
  zeroSlot := p.sizing.slots
  maxb := if p.usable then (p.layers.slabs.map SlabInfo.expertBytes).foldl max 0 else 0
  dropFrom := p.dropFrom
  sweepTest := p.sweepTest
  shards := ⟨fun i => p.usable && decide (i < p.files.length), p.byte⟩
  hostPtr := p.hostPtr

end Program

/-- `g_enabled`, whether `g_cache` is filled, and the state of the slabs. -/
structure Session where
  enabled : Bool
  finalized : Bool
  slab : State

namespace Program

variable (p : Program)

def start (mem : Memory) : Session :=
  ⟨true, false, State.start p.runtime p.nExpert mem⟩

/-- `finalize`.  The caches are there before the first check that can fail. -/
def finalize (s : Session) : Option Session :=
  if p.layers = [] then some { s with enabled := p.denseReady }
  else if p.usable = false then some { s with enabled := false, finalized := true }
  else if p.arenaReads then some { s with finalized := true }
  else none

/-- `ms_remap_fn`, from its entry on.  `enabled` is not read again after
`finalize`; filling the zero slot needs the gate of the first layer. -/
def msRemap (io : Io) (s : Session) (call : Call) : Option (Session × List Int) :=
  if s.enabled = false ∨ p.noop = 1 then some (s, call.ids.list)
  else
    (if s.finalized then some s else p.finalize s).bind fun s =>
      if s.finalized = false then some (s, call.ids.list)
      else if (p.runtime.remapped call.il).isSome ∧ s.slab.zeroFilled = false ∧
        p.layers.firstGate.registered = false then none
      else
        let r := remap p.runtime io s.slab call
        some ({ s with slab := r.state }, r.out)

def run (mem : Memory) (calls : List (Io × Call)) : Option Session :=
  calls.foldlM (fun s c => (p.msRemap c.1 s c.2).map Prod.fst) (p.start mem)

def InRange (call : Call) : Prop := ∀ id ∈ call.ids.list, 0 ≤ id ∧ id < p.sizing.nExpert

/-- What the loader promises: one expert count, layer numbers that fit the user
data of a node, and expert numbers that fit an id. -/
structure Loadable : Prop where
  uniform : ∀ t ∈ p.tensors, reduced p.sizing t = true → t.ne2 = p.sizing.nExpert
  numbered : ∀ t ∈ p.tensors, ∀ il role, parseName t.name = some (il, role) →
    0 ≤ il ∧ il < 2 ^ 16
  narrow : p.sizing.nExpert < 2 ^ 31

end Program

end MoeStream
