import Mathlib.Data.Rat.Floor
import MoeStream.Foundation.FloatFormat
import MoeStream.Foundation.RotatingScan

/-!
# The expert cache

Embedding of `expert_cache.hpp` and of the request path of `expert_cache.cpp`:
entries by dense id, the slot table, the per-layer S3-FIFO queues, the free
stack and the statistics.  A vector is a function on its indices; the free
stack is a list whose head is the back of the vector; a deque is a list with
its front first.  Statistics are unbounded counters.
-/

set_option autoImplicit false

namespace MoeStream

open Foundation.FixedWidth
open Foundation.FloatFormat
open Foundation.RotatingScan

/-- Why execution requested this expert; drives the admission decision. -/
inductive Origin where
  | demand
  | prefetchHigh
  | prefetchLow
  | sweep
  deriving DecidableEq

inductive Seg where
  | none
  | pinned
  | small
  | main
  deriving DecidableEq

structure CacheStats where
  hit : Nat := 0
  miss : Nat := 0
  hitPinned : Nat := 0
  hitSmall : Nat := 0
  hitMain : Nat := 0
  ghostHit : Nat := 0
  admitted : Nat := 0
  evict : Nat := 0
  bypass : Nat := 0
  promote : Nat := 0
  bytesFetched : Nat := 0

/-- `round` is what an operation on doubles makes of its exact result. -/
structure Config where
  nLayer : Nat := 40
  nExpert : Nat := 256
  nSlot : Nat := 0
  cacheFrac : ℚ := 1 / 4
  pinRatio : ℚ := 1 / 20
  ghostMult : Nat := 2
  layerQuotaAdapt : Bool := true
  quotaPeriod : Nat := 512
  quotaEta : ℚ := 1 / 10
  quotaMin : Nat := 8
  round : ℚ → ℚ := double

/-- `0xFFFFFFFF`, the slot of an entry that has none. -/
def NO_SLOT : Nat := 2 ^ 32 - 1

def FREQ_MAX : Nat := 3

structure Entry where
  slot : Nat := NO_SLOT
  rc : Nat := 0
  seg : Seg := .none
  resident : Bool := false
  freq : Nat := 0
  last : Nat := 0

/-- Per-layer queues; `ghost` holds evicted experts, without backing data. -/
structure LayerState where
  small : List Nat := []
  main : List Nat := []
  ghost : List Nat := []
  ghostHits : Nat := 0
  resident : Nat := 0
  pinned : Nat := 0

structure ExpertCache where
  cfg : Config
  nSlot : Nat
  ent : Nat → Entry
  slot : Nat → Nat
  lay : Nat → LayerState
  quota : Nat → Nat
  free : List Nat
  st : CacheStats
  step : Nat

namespace ExpertCache

/-! ## Construction -/

/-- Hand the remainder of the even split to the leading layers. -/
def handRemainder (nLayer : Nat) : Nat → Nat → (Nat → Nat) → Nat → Nat
  | 0, _, quota => quota
  | r + 1, l, quota =>
      handRemainder nLayer r (l + 1)
        (Function.update quota (l % nLayer) (quota (l % nLayer) + 1))

/-- `ExpertCache::ExpertCache`. -/
def init (cfg : Config) : ExpertCache :=
  let total := u32 (cfg.nLayer * cfg.nExpert)
  let nSlot :=
    if cfg.nSlot ≠ 0 then u32 cfg.nSlot
    else u32 (truncate (cfg.round (cfg.round (total * cfg.cacheFrac) + 1 / 2))).toNat
  { cfg := cfg
    nSlot := nSlot
    ent := fun _ => {}
    slot := fun _ => NO_SLOT
    lay := fun _ => {}
    quota := handRemainder cfg.nLayer (nSlot - nSlot / cfg.nLayer * cfg.nLayer) 0
      (fun _ => nSlot / cfg.nLayer)
    free := List.range nSlot
    st := {}
    step := 0 }

/-- `ent_.size()`, which is also the size of the slot table. -/
def total (c : ExpertCache) : Nat := c.cfg.nLayer * c.cfg.nExpert

def idx (c : ExpertCache) (l e : Nat) : Nat := l * c.cfg.nExpert + e

def entry (c : ExpertCache) (l e : Nat) : Entry := c.ent (c.idx l e)

def setEntry (c : ExpertCache) (l e : Nat) (en : Entry) : ExpertCache :=
  { c with ent := Function.update c.ent (c.idx l e) en }

def setTable (c : ExpertCache) (l e s : Nat) : ExpertCache :=
  { c with slot := Function.update c.slot (c.idx l e) s }

def setLayer (c : ExpertCache) (l : Nat) (ls : LayerState) : ExpertCache :=
  { c with lay := Function.update c.lay l ls }

end ExpertCache

/-! ## Eviction -/

/-- The queue a pass scans: SMALL first, then MAIN twice. -/
def LayerState.queue (ls : LayerState) (pass : Nat) : List Nat :=
  if pass = 0 then ls.small else ls.main

def LayerState.setQueue (ls : LayerState) (pass : Nat) (q : List Nat) : LayerState :=
  if pass = 0 then { ls with small := q } else { ls with main := q }

def LayerState.enqueue (ls : LayerState) (expert : Nat) (origin : Origin)
    (wasGhost : Bool) : LayerState × Seg :=
  if wasGhost then ({ ls with main := ls.main ++ [expert] }, .main)
  else if origin = .prefetchLow then ({ ls with small := expert :: ls.small }, .small)
  else ({ ls with small := ls.small ++ [expert] }, .small)

/-- `while (ghost.size() > gmax) ghost.pop_front()`. -/
def trimGhost (gmax : Nat) : List Nat → List Nat
  | [] => []
  | e :: rest => if gmax < (e :: rest).length then trimGhost gmax rest else e :: rest

namespace ExpertCache

/-- One turn of the scan: an entry in use is put back, and so, once for each
unit of frequency above one, is an entry of MAIN in pass 1. -/
def visit (c : ExpertCache) (layer pass : Nat) (ent : Nat → Entry) (e : Nat) :
    Visit (Nat → Entry) :=
  let en := ent (c.idx layer e)
  if 0 < en.rc then .keep ent
  else if pass = 1 ∧ 1 < en.freq then
    .keep (Function.update ent (c.idx layer e) { en with freq := en.freq - 1 })
  else .take

/-- The branch of `evict_one` that gives up the slot of `e`, already popped. -/
def evictEntry (c : ExpertCache) (layer e : Nat) : ExpertCache :=
  let en := c.entry layer e
  let ls := c.lay layer
  let c := { c with free := en.slot :: c.free }
  let c := c.setTable layer e NO_SLOT
  let c := c.setEntry layer e
    { en with slot := NO_SLOT, seg := .none, resident := false, freq := 0 }
  let c := c.setLayer layer
    { ls with
      resident := ls.resident - 1
      ghost := trimGhost (c.quota layer * c.cfg.ghostMult) (ls.ghost ++ [e]) }
  { c with st := { c.st with evict := c.st.evict + 1 } }

/-- One pass of `evict_one` over its queue. -/
def evictPass (c : ExpertCache) (layer pass : Nat) : ExpertCache × Bool :=
  let ls := c.lay layer
  let q := ls.queue pass
  match scan (c.visit layer pass) q.length c.ent q with
  | (ent, rest, none) =>
      (({ c with ent := ent }).setLayer layer (ls.setQueue pass rest), false)
  | (ent, rest, some e) =>
      ((({ c with ent := ent }).setLayer layer (ls.setQueue pass rest)).evictEntry layer e,
        true)

/-- Evict one entry of the layer; `true` on success. -/
def evictOne (c : ExpertCache) (layer : Nat) : ExpertCache × Bool :=
  match c.evictPass layer 0 with
  | (c, true) => (c, true)
  | (c, false) =>
      match c.evictPass layer 1 with
      | (c, true) => (c, true)
      | (c, false) => c.evictPass layer 2

/-! ## Slot allocation -/

/-- How far a layer is over its quota, in `int32_t`. -/
def overQuota (c : ExpertCache) (l : Nat) : Int :=
  i32 (i32 (c.lay l).resident - i32 (c.quota l))

/-- The layer furthest over its quota among those that hold something
evictable; `layer` itself when there is none. -/
def victimLayer (c : ExpertCache) (layer : Nat) : Nat :=
  ((List.range c.cfg.nLayer).foldl
    (fun (worst : Int × Nat) l =>
      if worst.1 < c.overQuota l ∧ (c.lay l).pinned < (c.lay l).resident then (c.overQuota l, l)
      else worst)
    (-2 ^ 31, layer)).2

/-- The part of `alloc_slot` after the layer's own quota was seen to. -/
def allocFree (c : ExpertCache) (layer : Nat) : ExpertCache × Nat :=
  match c.free with
  | s :: rest => ({ c with free := rest }, s)
  | [] =>
      match c.evictOne (c.victimLayer layer) with
      | (c, false) => (c, NO_SLOT)
      | (c, true) =>
          match c.free with
          | [] => (c, NO_SLOT)
          | s :: rest => ({ c with free := rest }, s)

/-- `alloc_slot`: evicts if the layer is at its quota or nothing is free. -/
def allocSlot (c : ExpertCache) (layer : Nat) : ExpertCache × Nat :=
  if c.quota layer ≤ (c.lay layer).resident then
    match c.evictOne layer with
    | (c, false) => (c, NO_SLOT)
    | (c, true) => c.allocFree layer
  else c.allocFree layer

/-! ## Requests -/

def promote (c : ExpertCache) (layer expert : Nat) : ExpertCache :=
  let en := c.entry layer expert
  let ls := c.lay layer
  if 2 ≤ en.freq ∧ expert ∈ ls.small then
    let c := c.setLayer layer
      { ls with small := ls.small.erase expert, main := ls.main ++ [expert] }
    let c := c.setEntry layer expert { en with seg := .main }
    { c with st := { c.st with promote := c.st.promote + 1 } }
  else c

/-- The hit branch of `acquire`. -/
def acquireHit (c : ExpertCache) (layer expert : Nat) : ExpertCache × Bool × Nat :=
  let old := c.entry layer expert
  let en := { old with
    freq := if old.freq < FREQ_MAX then old.freq + 1 else old.freq
    rc := u16 (old.rc + 1) }
  let c := { c with st := { c.st with hit := c.st.hit + 1 } }
  let c := c.setEntry layer expert en
  let c :=
    match en.seg with
    | .pinned => { c with st := { c.st with hitPinned := c.st.hitPinned + 1 } }
    | .small =>
        ({ c with st := { c.st with hitSmall := c.st.hitSmall + 1 } }).promote layer expert
    | .main => { c with st := { c.st with hitMain := c.st.hitMain + 1 } }
    | .none => c
  (c, true, en.slot)

def takeGhost (c : ExpertCache) (layer expert : Nat) : ExpertCache × Bool :=
  let ls := c.lay layer
  if expert ∈ ls.ghost then
    let c := c.setLayer layer
      { ls with ghost := ls.ghost.erase expert, ghostHits := u32 (ls.ghostHits + 1) }
    ({ c with st := { c.st with ghostHit := c.st.ghostHit + 1 } }, true)
  else (c, false)

/-- The end of the miss branch: slot `s` is the expert's. -/
def admitTo (c : ExpertCache) (layer expert : Nat) (origin : Origin) (wasGhost : Bool)
    (s : Nat) : ExpertCache :=
  let en := c.entry layer expert
  let queued := (c.lay layer).enqueue expert origin wasGhost
  let c := c.setTable layer expert s
  let c := c.setEntry layer expert
    { en with slot := s, rc := 1, resident := false, seg := queued.2 }
  let c := c.setLayer layer { queued.1 with resident := queued.1.resident + 1 }
  { c with st := { c.st with admitted := c.st.admitted + 1 } }

/-- The miss branch of `acquire`. -/
def acquireMiss (c : ExpertCache) (layer expert : Nat) (origin : Origin) :
    ExpertCache × Bool × Nat :=
  let c := { c with st := { c.st with miss := c.st.miss + 1 } }
  let c := c.setEntry layer expert { c.entry layer expert with freq := 1 }
  let (c, wasGhost) := c.takeGhost layer expert
  if origin = .sweep then
    ({ c with st := { c.st with bypass := c.st.bypass + 1 } }, false, NO_SLOT)
  else
    let (c, s) := c.allocSlot layer
    if s = NO_SLOT then (c, false, NO_SLOT)
    else (c.admitTo layer expert origin wasGhost s, false, s)

/-- Request `(layer, expert)`: the cache, whether it hit, and `*out_slot`.  A
slot is reserved on a miss too. -/
def acquire (c : ExpertCache) (layer expert : Nat) (origin : Origin) :
    ExpertCache × Bool × Nat :=
  let c := c.setEntry layer expert { c.entry layer expert with last := c.step }
  if (c.entry layer expert).seg ≠ .none then c.acquireHit layer expert
  else c.acquireMiss layer expert origin

def markResident (c : ExpertCache) (layer expert nbytes : Nat) : ExpertCache :=
  let en := c.entry layer expert
  if en.resident then c
  else
    let c := c.setEntry layer expert { en with resident := true }
    { c with st := { c.st with bytesFetched := c.st.bytesFetched + nbytes } }

def release (c : ExpertCache) (layer expert : Nat) : ExpertCache :=
  let en := c.entry layer expert
  if 0 < en.rc then c.setEntry layer expert { en with rc := en.rc - 1 } else c

end ExpertCache

end MoeStream
