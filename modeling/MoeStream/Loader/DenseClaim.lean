import MoeStream.Arena.DenseServes
import MoeStream.Foundation.FloatFormat
import MoeStream.Foundation.OrderedMap
import MoeStream.Loader.Names

/-!
# Claiming and substituting dense weights

Embedding of `dense_claim`, of the part of `create_tensor` that allocates a stub
and calls `register_dense`, of `finalize_dense` and of the substitution in
`build_ffn`.  The arena it sets up is the one of `MoeStream.Dense.Arena`.
-/

set_option autoImplicit false

namespace MoeStream.Dense

open Foundation
open Foundation.FixedWidth
open Foundation.FloatFormat

/-! ## Claiming -/

structure DenseTensor where
  name : List Char
  dims : Nat
  nbytes : Nat
  offs : Nat
  fileIdx : Nat
  type : Int
  ne0 : Nat
  ne1 : Nat

/-- What `dense_claim` reads: `MOESTREAM_DENSE_FRAC`, the metadata of the model,
the sizes of its files and the memory of the device.  `round` is what an operation
on doubles makes of its exact result. -/
structure Setting where
  enabled : Bool
  auto : Bool
  frac : ℚ
  nbuf : Nat
  threads : Nat
  nExpert : Int
  nLayer : Int
  scanTotal : Nat
  fileGib : ℚ
  deviceMem : Option (ℚ × ℚ)
  reserve : ℚ
  buffered : 0 < nbuf
  round : ℚ → ℚ := double

/-- `g_dn_nlayer`, `g_dn_first`, `g_dn_seen` and `g_dn_claimed`. -/
structure Claims where
  nlayer : Int := 0
  first : Int := -1
  seen : Bool := false
  claimed : List (List Char) := []

namespace Setting

variable (z : Setting)

/-- `ffn_gib`, from the index or, where it could not be read, from one weight. -/
def ffnGib (nbytes : Nat) : ℚ :=
  if z.scanTotal ≠ 0 then z.round (z.round z.scanTotal / 1073741824)
  else z.round (z.round (z.round (3 * z.nLayer) * z.round nbytes) / 1073741824)

/-- The fraction of the FFN that fits, `1` when the memory is unknown. -/
def autoFrac (nbytes : Nat) : ℚ :=
  let ffn := z.ffnGib nbytes
  let nonffn := max 0 (z.round (z.fileGib - ffn))
  let layer := z.round (ffn / z.nLayer)
  match z.deviceMem with
  | none => 1
  | some (total, used) =>
      let budget := z.round (z.round (total - z.reserve) - used)
      let forFfn := z.round (z.round (budget - nonffn) - z.round (z.nbuf * layer))
      if 0 < ffn then max 0 (min 1 (z.round (forFfn / ffn))) else 1

/-- The number of layers and the first one that is streamed, or `none` for
"off". -/
def resolve (nbytes : Nat) : Option (Int × Int) :=
  if 0 < z.nExpert ∨ z.nLayer ≤ 0 then none
  else
    let frac := if z.auto then z.autoFrac nbytes else z.frac
    if 1 ≤ frac then none
    else some (z.nLayer,
      min z.nLayer (max 0 (truncate (z.round (z.round (frac * z.nLayer) + 1 / 2)))))

/-- The split is decided at the first weight; `-1` layers stand for "off". -/
def decideSplit (nbytes : Nat) (s : Claims) : Claims :=
  if s.nlayer ≠ 0 then s
  else
    match z.resolve nbytes with
    | none => { s with nlayer := -1 }
    | some (nlayer, first) => { s with nlayer := nlayer, first := first }

def denseClaim (s : Claims) (t : DenseTensor) : Claims × Bool :=
  if z.enabled = false ∨ t.dims ≠ 2 then (s, false)
  else
    match parseDenseAny t.name t.nbytes with
    | none => (s, false)
    | some (il, _) =>
        let s := z.decideSplit t.nbytes s
        if s.nlayer < 0 then (s, false)
        else if 0 ≤ s.first ∧ s.first ≤ il then
          ({ s with seen := true, claimed := s.claimed ++ [t.name] }, true)
        else (s, false)

end Setting

/-! ## Loading -/

/-- What `register_dense` records of a weight. -/
def DenseTensor.info (t : DenseTensor) (role : Role) : DenseInfo where
  fileOffset := t.offs
  bytes := t.nbytes
  fileIdx := t.fileIdx
  type := t.type
  role := some role
  ne0 := t.ne0
  ne1 := t.ne1
  valid := true

/-- The claims and `g_dn_meta`. -/
structure Loaded where
  claims : Claims := {}
  weights : OrderedMap Int (List DenseInfo) := []

def registerDense (weights : OrderedMap Int (List DenseInfo)) (t : DenseTensor) :
    OrderedMap Int (List DenseInfo) :=
  match parseDenseAny t.name t.nbytes with
  | none => weights
  | some (il, role) => weights.modify il fun w => w ++ [t.info role]

def createDense (z : Setting) (s : Loaded) (t : DenseTensor) : Loaded :=
  let (claims, stub) := z.denseClaim s.claims t
  ⟨claims, if stub then registerDense s.weights t else s.weights⟩

structure Model where
  setting : Setting
  tensors : List DenseTensor

def Model.loaded (m : Model) : Loaded := m.tensors.foldl (createDense m.setting) {}

theorem createDense_sorted {z : Setting} {s : Loaded} (t : DenseTensor)
    (sorted : s.weights.Sorted) : (createDense z s t).weights.Sorted := by
  simp only [createDense, registerDense]
  split
  · split
    · exact sorted
    · exact sorted.modify
  · exact sorted

theorem Model.loaded_sorted (m : Model) : m.loaded.weights.Sorted := by
  simp only [Model.loaded]
  induction m.tensors using List.reverseRecOn with
  | nil => exact List.Pairwise.nil
  | append_singleton ts t ih =>
      rw [List.foldl_append]
      exact createDense_sorted t ih

/-! ## Setting up the arena -/

/-- What `finalize_dense` finds: which shards open, with their bytes, and which
allocations succeed.  `files` is empty when the path is unknown. -/
structure Device where
  files : List Bool
  byte : Nat → Nat → Byte
  vulkan : Bool
  buffer : Nat → Bool
  mapped : Nat → Bool
  context : Bool
  tensor : Int → Nat → Bool

def Model.arena (m : Model) (dev : Device) : Arena where
  weights := fun il => m.loaded.weights.find il
  bound := (m.loaded.weights.last.getD (-1) + 1).toNat
  nLayer := m.loaded.claims.nlayer.toNat
  first := m.loaded.claims.first.toNat
  nbuf := m.setting.nbuf
  threads := m.setting.threads
  shards := ⟨fun i => dev.files.getD i false, dev.byte⟩
  last := by
    intro il w found
    obtain ⟨l, last, bound⟩ := m.loaded_sorted.le_last (OrderedMap.find_mem found)
    rw [last]
    simp only [Option.getD_some]
    omega
  allocated := m.setting.buffered

/-- `g_dn_done` and `g_dn_ready`. -/
structure Setup where
  done : Bool := false
  ready : Bool := false

def Model.finalizeDense (m : Model) (dev : Device) (s : Setup) : Setup :=
  if s.done then s
  else
    { done := true
      ready := m.loaded.claims.seen && !m.loaded.weights.isEmpty && !dev.files.isEmpty &&
        dev.files.all id && dev.vulkan && decide (0 < (m.arena dev).bytesPer) &&
        (List.range m.setting.nbuf).all (fun i => dev.buffer i && dev.mapped i) && dev.context &&
        m.loaded.weights.all fun q => (List.range q.2.length).all (dev.tensor q.1) }

/-- `dense_ensure`, at the start of every graph with an FFN. -/
def Model.denseEnsure (m : Model) (dev : Device) (s : Setup) : Setup :=
  if s.done = false ∧ m.setting.enabled = true ∧ m.loaded.claims.seen = true then
    m.finalizeDense dev s
  else s

/-! ## Building a graph -/

inductive Operand where
  | whole (t : DenseTensor)
  | stub (t : DenseTensor)
  | arena (v : DenseInfo)

/-- The weights `build_ffn` multiplies by. -/
structure Ffn where
  gate : Option Operand
  up : Option Operand
  down : Option Operand

def Ffn.weight (f : Ffn) : Role → Option Operand
  | .gate => f.gate
  | .up => f.up
  | .down => f.down

/-- The weight the model has for a role: what `create_tensor` returned. -/
def Model.weight (m : Model) (il : Nat) (role : Role) : Option Operand :=
  (m.tensors.find? fun t =>
      decide (parseDenseAny t.name dnMinBytes = some ((il : Int), role))).map fun t =>
    if t.name ∈ m.loaded.claims.claimed then .stub t else .whole t

/-- The patch of `build_ffn`: both or none of the up and down weights are
replaced. -/
def Arena.substitute (d : Arena) (active : Bool) (il : Nat) (f : Ffn) : Ffn :=
  if active then
    match d.denseFfn il .up, d.denseFfn il .down with
    | some up, some down =>
        { gate :=
            match f.gate, d.denseFfn il .gate with
            | some _, some gate => some (.arena gate)
            | gate, _ => gate
          up := some (.arena up)
          down := some (.arena down) }
    | _, _ => f
  else f

/-- The FFN of a layer in a graph that is built when the set-up is `s`. -/
def Model.buildFfn (m : Model) (dev : Device) (s : Setup) (il : Nat) : Ffn :=
  (m.arena dev).substitute (m.setting.enabled && s.ready) il
    ⟨m.weight il .gate, m.weight il .up, m.weight il .down⟩

/-- The set-up in the graph after `builds` others. -/
def Model.setup (m : Model) (dev : Device) (builds : Nat) : Setup :=
  (m.denseEnsure dev)^[builds + 1] {}

/-- What the loader promises: no two tensors have one name or stand for one
weight, and layers are numbered from zero. -/
structure Model.Loadable (m : Model) : Prop where
  names : (m.tensors.map DenseTensor.name).Nodup
  single : ∀ t ∈ m.tensors, ∀ t' ∈ m.tensors, ∀ place,
    parseDenseAny t.name dnMinBytes = some place → parseDenseAny t'.name dnMinBytes = some place →
      t = t'
  numbered : ∀ t ∈ m.tensors, ∀ il role, parseDenseAny t.name dnMinBytes = some (il, role) → 0 ≤ il

end MoeStream.Dense
