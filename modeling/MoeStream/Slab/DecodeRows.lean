import MoeStream.Cache.Rows
import MoeStream.Slab.Recorded
import MoeStream.Slab.ReadsOnce

/-!
# A decode call is a row of requests

With one pass and every id an expert, a call releases what its layer held, serves
the ids as one row of requests to the layer's cache, and reads each admitted
expert once.
-/

set_option autoImplicit false

namespace MoeStream

open Foundation.FixedWidth
open ExpertCache

variable {rt : Runtime} {nExpert il : Nat} {L : LayerSlabs} {s : State} {call : Call} {io : Io}

/-! ## The positions -/

structure PlacedRow (L : LayerSlabs) (row : List Nat) (p q : Placing) : Prop where
  cache : q.cache = p.cache.requests 0 L.bytes row
  held : q.held = p.held ++ granted 0 L.bytes p.cache row
  pend : q.pend.length = p.pend.length + (answered 0 L.bytes p.cache row).count .admitted
  exhausted : q.exhausted = p.exhausted + (answered 0 L.bytes p.cache row).count .refused

theorem place_request {p : Placing} (single : p.cache.Single) (noop : rt.noop = 0)
    (kept : (il : Int) < rt.dropFrom) (owned : List Nat) {e : Nat}
    (inside : e < L.gate.nExpert) (experts : p.cache.cfg.nExpert = L.gate.nExpert) :
    PlacedRow L [e] p (place rt L il 1 owned p (e : Int)) := by
  have low : (0 : Int) ≤ e := Int.natCast_nonneg e
  have high : (e : Int) < L.gate.nExpert := by omega
  have back : (e : Int).toNat = e := Int.toNat_natCast e
  cases single.ok.replied single.layer (e := e) (by rw [experts]; exact inside) L.bytes with
  | hit found named outcome after =>
      rw [place_granted owned noop kept low high (by rw [back]; exact named), back]
      refine ⟨?_, ?_, ?_, ?_⟩
      · simp [requests, after, found]
      · simp [granted, outcome]
      · simp [answered, outcome, found]
      · simp [answered, outcome]
  | admitted missed named outcome after =>
      rw [place_granted owned noop kept low high (by rw [back]; exact named), back]
      refine ⟨?_, ?_, ?_, ?_⟩
      · simp [requests, after, missed]
      · simp [granted, outcome]
      · simp [answered, outcome, missed]
      · simp [answered, outcome]
  | refused missed unnamed outcome after =>
      rw [place_refused owned low high (by rw [back]; exact unnamed), back]
      refine ⟨?_, ?_, ?_, ?_⟩
      · simp [requests, after]
      · simp [granted, outcome]
      · simp [answered, outcome]
      · simp [answered, outcome]

theorem place_row {p : Placing} (single : p.cache.Single) (noop : rt.noop = 0)
    (kept : (il : Int) < rt.dropFrom) (owned : List Nat) (row : List Nat)
    (inside : ∀ e ∈ row, e < L.gate.nExpert) (experts : p.cache.cfg.nExpert = L.gate.nExpert) :
    PlacedRow L row p
      ((row.map fun e : Nat => (e : Int)).foldl (place rt L il 1 owned) p) := by
  induction row generalizing p with
  | nil => exact ⟨rfl, (List.append_nil _).symm, rfl, rfl⟩
  | cons e rest ih =>
      have here := inside e List.mem_cons_self
      have first := place_request single noop kept owned here experts
      obtain ⟨next, cfg⟩ := Single.request single (e := e) (by rw [experts]; exact here) L.bytes
      have cache : (place rt L il 1 owned p (e : Int)).cache = p.cache.request 0 L.bytes e :=
        first.cache
      have later := ih (p := place rt L il 1 owned p (e : Int)) (by rw [cache]; exact next)
        (fun k member => inside k (List.mem_cons_of_mem e member))
        (by rw [cache, cfg, experts])
      obtain ⟨sameCache, held, pend, exhausted⟩ := later
      rw [cache] at sameCache held pend exhausted
      refine ⟨sameCache, ?_, ?_, ?_⟩
      · rw [List.map_cons, List.foldl_cons, held, first.held, List.append_assoc]
        exact congrArg (p.held ++ ·) (congrArg (· ++ _) (List.append_nil _))
      · have split : (answered 0 L.bytes p.cache [e] ++
            answered 0 L.bytes (p.cache.request 0 L.bytes e) rest).count .admitted = _ :=
          List.count_append
        rw [List.map_cons, List.foldl_cons, pend, first.pend, Nat.add_assoc, ← split]
        rfl
      · have split : (answered 0 L.bytes p.cache [e] ++
            answered 0 L.bytes (p.cache.request 0 L.bytes e) rest).count .refused = _ :=
          List.count_append
        rw [List.map_cons, List.foldl_cons, exhausted, first.exhausted, Nat.add_assoc, ← split]
        rfl

/-! ## The reads -/

/-- What `g_io_bytes` gains by a call. -/
def Remapped.ioBytes (L : LayerSlabs) (r : Remapped) : Nat :=
  (r.batches.flatten.map fun job => (L.role job.role).expertBytes).sum

theorem targets_bytes (L : LayerSlabs) (pend : List (Nat × Nat)) :
    ((targets pend).map fun t => (L.role t.1).expertBytes).sum = L.bytes * pend.length := by
  induction pend with
  | nil => rfl
  | cons first rest ih =>
      have split : targets (first :: rest) =
          (Role.all.map fun role => (role, first)) ++ targets rest := rfl
      have one : ((Role.all.map fun role => (role, first)).map fun t =>
          (L.role t.1).expertBytes).sum = L.bytes := (Nat.add_assoc _ _ _).symm
      rw [split, List.map_append, List.sum_append, one, ih, List.length_cons, Nat.mul_succ,
        Nat.add_comm]

theorem remap_targets (io : Io) (positive : rt.maxb ≠ 0) (found : rt.remapped call.il = some L)
    (stage : s.stage = 0 ∨ s.stage = rt.maxb * 3 * 32) :
    (remap rt io s call).batches.flatten.map ReadJob.target =
      targets (placing rt L s call).pend := by
  have same : (prepare rt s call.il).stage = s.stage := (ensureZeroSlot_rest rt s).2.2
  have room := (stage_room rt call.il (prepare rt s call.il) (by rw [same]; exact stage)
    (placing rt L s call).pend).2
  have ended := loopEnd_read (Nat.le_refl _) (room.imp_right fun rest => rest.resolve_right positive)
  have jobs : (remap rt io s call).batches = jobBatches (rt.hostPtr call.il)
      (if rt.maxb = 0 then 0
        else stageSize rt call.il (prepare rt s call.il) (placing rt L s call).pend / rt.maxb)
      (placing rt L s call).pend.length (placing rt L s call).pend := by
    rw [remap_mapped io found]
    exact readBatches_jobs _ _ _ _ _ _ _ _ _
  rw [jobs]
  exact jobBatches_targets ended

theorem remap_reads (io : Io) (positive : rt.maxb ≠ 0) (found : rt.remapped call.il = some L)
    (stage : s.stage = 0 ∨ s.stage = rt.maxb * 3 * 32) :
    (remap rt io s call).ioBytes L = L.bytes * (placing rt L s call).pend.length := by
  rw [← targets_bytes, ← remap_targets io positive found stage, List.map_map]
  rfl

theorem remap_ioBytes (product : Product rt nExpert) (found : rt.remapped call.il = some L)
    (stage : s.stage = 0 ∨ s.stage = rt.maxb * 3 * 32) :
    (remap rt io s call).ioBytes L = L.bytes * (placing rt L s call).pend.length := by
  have width := product.width _ L (remapped_layer found)
  by_cases empty : rt.maxb = 0
  · have none : ∀ role, (L.role role).expertBytes = 0 := fun role => by
      have bound := width role
      omega
    have zero : L.bytes = 0 := by
      have gate := none .gate
      have up := none .up
      have down := none .down
      simp only [LayerSlabs.role] at gate up down
      simp only [LayerSlabs.bytes]
      omega
    rw [zero, Nat.zero_mul]
    apply List.sum_eq_zero
    intro n member
    obtain ⟨job, -, rfl⟩ := List.mem_map.mp member
    exact none job.role
  · exact remap_reads io empty found stage

/-! ## One call -/

/-- A decode call of `row`: one token, the only pass. -/
structure Call.Decodes (call : Call) (row : List Nat) : Prop where
  once : call.np = 1
  pass : call.pass = 0
  ids : call.ids.list = row.map fun e : Nat => (e : Int)

structure CalledRow (L : LayerSlabs) (row : List Nat) (before : ExpertCache) (il : Nat)
    (r : Remapped) : Prop where
  cache : r.state.cache il = before.requests 0 L.bytes row
  held : heldBy r.state il = granted 0 L.bytes before row
  bytes : r.ioBytes L = L.bytes * (answered 0 L.bytes before row).count .admitted

theorem remap_row (io : Io) (counted : Counted rt nExpert s call.il) (product : Product rt nExpert)
    (found : rt.remapped call.il = some L)
    (stage : s.stage = 0 ∨ s.stage = rt.maxb * 3 * 32) {row : List Nat}
    (decodes : call.Decodes row) (inside : ∀ e ∈ row, e < nExpert) :
    CalledRow L row ((prepare rt s call.il).cache call.il) call.il (remap rt io s call) := by
  have layer := remapped_layer found
  have experts := product.same _ L layer
  have released := counted.released
  have eighth : call.pass < 8 := by
    rw [decodes.pass]
    decide
  have placed : PlacedRow L row (placeAll rt L call (prepare rt s call.il) [])
      (placing rt L s call) := by
    have served := place_row (p := placeAll rt L call (prepare rt s call.il) []) released.single
      product.noop (product.kept _ L layer)
      (inPass rt.sweepTest 1 call.pass (distinct call.ids.list L.gate.nExpert)) row
      (by rw [experts]; exact inside) (released.experts.trans experts.symm)
    simp only [placing, placeAll]
    rw [decodes.once]
    simp only [placeAll] at served
    rw [List.foldl_nil, ← decodes.ids] at served
    exact served
  obtain ⟨cache, held, -⟩ := remap_own (s := s) io found eighth
  have empty : (placeAll rt L call (prepare rt s call.il) []).held = [] :=
    prepare_held rt s eighth
  refine ⟨cache.trans placed.cache, ?_, ?_⟩
  · rw [held, placed.held, empty]
    rfl
  · rw [remap_ioBytes product found stage, placed.pend]
    exact congrArg (L.bytes * ·) (Nat.zero_add _)

theorem remap_stage (io : Io) (stage : s.stage = 0 ∨ s.stage = rt.maxb * 3 * 32) :
    (remap rt io s call).state.stage = 0 ∨
      (remap rt io s call).state.stage = rt.maxb * 3 * 32 := by
  cases found : rt.remapped call.il with
  | none =>
      rw [remap_unmapped io found]
      exact stage
  | some L =>
      have same : (prepare rt s call.il).stage = s.stage := (ensureZeroSlot_rest rt s).2.2
      rw [remap_mapped io found]
      exact (stage_room rt call.il (prepare rt s call.il) (by rw [same]; exact stage) _).1

theorem prepare_own (rt : Runtime) (s : State) (j : Nat) :
    (prepare rt s j).cache j = (s.cache j).releases 0 (heldBy s j) := by
  obtain ⟨cache, held, -⟩ := ensureZeroSlot_rest rt s
  have same : heldBy (ensureZeroSlot rt s) j = heldBy s j :=
    heldBy_congr fun pass _ => by rw [held]
  simp only [prepare, releaseHeld]
  rw [Function.update_self, same, cache]
  rfl

/-! ## Counters -/

/-- A call together with `g_io_bytes`. -/
def remapIo (rt : Runtime) (r : State × Nat) (call : Io × Call) : State × Nat :=
  let q := remap rt call.1 r.1 call.2
  (q.state, r.2 + ((rt.remapped call.2.il).map fun L => q.ioBytes L).getD 0)

/-- The sums `report` prints, over all caches. -/
def State.hits (rt : Runtime) (s : State) : Nat :=
  ∑ il ∈ Finset.range rt.nCache, (s.cache il).st.hit

def State.misses (rt : Runtime) (s : State) : Nat :=
  ∑ il ∈ Finset.range rt.nCache, (s.cache il).st.miss

theorem sum_exchanged {m i : Nat} {f g : Nat → Nat} (inside : i < m)
    (others : ∀ j, j ≠ i → g j = f j) :
    ∑ j ∈ Finset.range m, g j + f i = ∑ j ∈ Finset.range m, f j + g i := by
  have member := Finset.mem_range.mpr inside
  rw [← Finset.add_sum_erase _ g member, ← Finset.add_sum_erase _ f member,
    Finset.sum_congr rfl fun j listed => others j (Finset.ne_of_mem_erase listed),
    Nat.add_right_comm, Nat.add_comm (g i) (f i)]
  exact Nat.add_right_comm _ _ _

theorem sum_changed {m i k : Nat} {f g : Nat → Nat} (inside : i < m)
    (others : ∀ j, j ≠ i → g j = f j) (own : g i = f i + k) :
    ∑ j ∈ Finset.range m, g j = ∑ j ∈ Finset.range m, f j + k := by
  have exchanged := sum_exchanged inside others
  rw [own, Nat.add_left_comm, Nat.add_comm (f i)] at exchanged
  exact Nat.add_right_cancel exchanged

end MoeStream
