import MoeStream.Cache.Model
import MoeStream.Slab.Reads

/-!
# The remap

Embedding of `ms_remap_fn`: expert ids become slots of the layer's slab, misses
are read before the op returns.  The trace, timing and statistics code of the
function is left out; the counters of slot outcomes are kept.
-/

set_option autoImplicit false

namespace MoeStream

open Foundation.FixedWidth

/-! ## The ids tensor -/

/-- A two-dimensional `I32` tensor, possibly a view. -/
structure Ids where
  ne0 : Nat
  ne1 : Nat
  nb0 : Nat
  nb1 : Nat
  data : Nat → Byte

def le32 (data : Nat → Byte) (off : Nat) : Nat :=
  (data off).toNat + 2 ^ 8 * (data (off + 1)).toNat + 2 ^ 16 * (data (off + 2)).toNat +
    2 ^ 24 * (data (off + 3)).toNat

/-- The element at column `k` of row `j`. -/
def Ids.at (a : Ids) (j k : Nat) : Int := i32 (le32 a.data (j * a.nb1 + k * a.nb0))

/-- All elements in the order in which `dst` stores them. -/
def Ids.list (a : Ids) : List Int :=
  (List.range a.ne1).flatMap fun j => (List.range a.ne0).map fun k => a.at j k

/-! ## Expert Sweep -/

def distinct (es : List Int) (nExpert : Nat) : List Nat :=
  (List.range nExpert).filter fun e => decide ((e : Int) ∈ es)

/-- `in_pass`: the experts pass `pass` of `np` owns. -/
def inPass (sweepTest : Int) (np pass : Nat) (distinct : List Nat) : List Nat :=
  if sweepTest = 2 ∨ sweepTest = 4 then distinct
  else if sweepTest = 1 then (if pass = 0 then distinct else [])
  else
    let per := (distinct.length + np - 1) / np
    let lo := min distinct.length (pass * per)
    let hi := min distinct.length (lo + per)
    (distinct.drop lo).take (hi - lo)

/-! ## The runtime -/

/-- What is fixed once the model is loaded: the switches, the registered layers,
the sizes, the shards and which slots have a host pointer. -/
structure Runtime where
  enabled : Bool
  noop : Int
  nCache : Nat
  layers : Nat → Option LayerSlabs
  nSlots : Nat
  zeroSlot : Nat
  maxb : Nat
  dropFrom : Int
  sweepTest : Int
  shards : Shards
  hostPtr : Nat → Role → Nat → Bool

structure State where
  cache : Nat → ExpertCache
  held : Nat → List Nat
  mem : Memory
  stage : Nat
  zeroFilled : Bool
  exhausted : Nat
  demand : Nat
  dropped : Nat

structure Call where
  il : Nat
  pass : Nat
  np : Nat
  ids : Ids

/-- The layer a call remaps; without one the ids pass through unchanged. -/
def Runtime.remapped (rt : Runtime) (il : Nat) : Option LayerSlabs :=
  if ¬rt.enabled ∨ rt.noop = 1 ∨ rt.nCache ≤ il then none
  else
    match rt.layers il with
    | none => none
    | some L => if L.ready then some L else none

/-- `ensure_zero_slot`: on the first call the last slot of every registered
tensor is filled with zeros. -/
def ensureZeroSlot (rt : Runtime) (s : State) : State :=
  if s.zeroFilled then s
  else
    { s with
      zeroFilled := true
      mem := fun cell =>
        match cell with
        | .slab il role off =>
            match rt.layers il with
            | none => s.mem cell
            | some L =>
                let si := L.role role
                if si.registered ∧ rt.zeroSlot * si.expertBytes ≤ off ∧
                  off < rt.zeroSlot * si.expertBytes + si.expertBytes then 0
                else s.mem cell
        | .stage _ => s.mem cell }

def heldBy (s : State) (il : Nat) : List Nat :=
  (List.range 8).flatMap fun pass => s.held (il * 8 + pass)

def releaseHeld (s : State) (il : Nat) : State :=
  { s with
    cache := Function.update s.cache il
      ((heldBy s il).foldl (fun c e => c.release 0 e) (s.cache il))
    held := fun key => if il * 8 ≤ key ∧ key < il * 8 + 8 then [] else s.held key }

/-! ## Placing the ids -/

structure Placing where
  cache : ExpertCache
  held : List Nat
  pend : List (Nat × Nat) := []
  out : List Int := []
  exhausted : Nat
  demand : Nat
  dropped : Nat

def LayerSlabs.bytes (L : LayerSlabs) : Nat :=
  L.gate.expertBytes + L.up.expertBytes + L.down.expertBytes

def place (rt : Runtime) (L : LayerSlabs) (il np : Nat) (owned : List Nat) (p : Placing)
    (e : Int) : Placing :=
  let zero := i32 rt.zeroSlot
  if 1 < np ∧ (e < 0 ∨ (L.gate.nExpert : Int) ≤ e ∨ e.toNat ∉ owned) then
    { p with out := p.out ++ [zero] }
  else if 0 ≤ e ∧ e < L.gate.nExpert then
    let (cache, hit, slot) := p.cache.acquire 0 e.toNat .demand
    if slot = NO_SLOT then
      { p with cache := cache, exhausted := p.exhausted + 1, out := p.out ++ [zero] }
    else if ¬hit ∧ rt.dropFrom ≤ il then
      { p with
        cache := cache.release 0 e.toNat
        demand := p.demand + 1
        dropped := p.dropped + 1
        out := p.out ++ [zero] }
    else
      { p with
        cache := if hit then cache else cache.markResident 0 e.toNat L.bytes
        pend := if ¬hit ∧ rt.noop ≠ 3 then p.pend ++ [(e.toNat, slot)] else p.pend
        demand := p.demand + 1
        held := p.held ++ [e.toNat]
        out := p.out ++ [i32 slot] }
  else { p with out := p.out ++ [zero] }

def placeAll (rt : Runtime) (L : LayerSlabs) (call : Call) (s : State) (es : List Int) :
    Placing :=
  es.foldl
    (place rt L call.il call.np
      (inPass rt.sweepTest call.np call.pass (distinct call.ids.list L.gate.nExpert)))
    { cache := s.cache call.il
      held := s.held (call.il * 8 + call.pass)
      exhausted := s.exhausted
      demand := s.demand
      dropped := s.dropped }

/-- `g_stage` is allocated when a read without a host pointer first appears. -/
def stageSize (rt : Runtime) (il : Nat) (s : State) (pend : List (Nat × Nat)) : Nat :=
  if s.stage = 0 ∧ rt.maxb ≠ 0 ∧ pend.any (fun p => decide (stageNeed (rt.hostPtr il) p.2 ≠ 0))
  then rt.maxb * 3 * 32
  else s.stage

/-- What a call leaves behind: the state, `dst`, and the jobs it ran by batch. -/
structure Remapped where
  state : State
  out : List Int
  batches : List (List ReadJob)

def prepare (rt : Runtime) (s : State) (il : Nat) : State :=
  releaseHeld (ensureZeroSlot rt s) il

/-- `ms_remap_fn`. -/
def remap (rt : Runtime) (io : Io) (s : State) (call : Call) : Remapped :=
  match rt.remapped call.il with
  | none => ⟨s, call.ids.list, []⟩
  | some L =>
      let s := prepare rt s call.il
      let p := placeAll rt L call s call.ids.list
      let stage := stageSize rt call.il s p.pend
      let cap := if rt.maxb = 0 then 0 else stage / rt.maxb
      let (mem, batches) := readBatches rt.shards call.il rt.maxb L io (rt.hostPtr call.il) cap
        p.pend.length 0 p.pend s.mem
      { state :=
          { cache := Function.update s.cache call.il p.cache
            held := Function.update s.held (call.il * 8 + call.pass) p.held
            mem := mem
            stage := stage
            zeroFilled := s.zeroFilled
            exhausted := p.exhausted
            demand := p.demand
            dropped := p.dropped }
        out := p.out
        batches := batches }

/-- The cache `finalize` gives each layer. -/
def cacheConfig (nExpert nSlots : Nat) : Config :=
  { nLayer := 1, nExpert := u32 nExpert, nSlot := nSlots, pinRatio := 0, layerQuotaAdapt := false }

/-- The state `finalize` leaves behind. -/
def State.start (rt : Runtime) (nExpert : Nat) (mem : Memory) : State where
  cache := fun _ => ExpertCache.init (cacheConfig nExpert rt.nSlots)
  held := fun _ => []
  mem := mem
  stage := 0
  zeroFilled := false
  exhausted := 0
  demand := 0
  dropped := 0

/-- A run of calls on one runtime, each with what the system decided in it. -/
def remaps (rt : Runtime) (s : State) (calls : List (Io × Call)) : State :=
  calls.foldl (fun s call => (remap rt call.1 s call.2).state) s

end MoeStream
