import MoeStream.Foundation.LruStamps
import MoeStream.Learn.MissRatio
import MoeStream.Trace.Predicts

/-!
# The measured curve and the simulated cache

Embedding of `sim_lru` of the policy comparison.  The curve the runtime measures
while it decodes the tokens of a trace has, at every number of slots, the hit rate
that `sim_lru` finds for the trace.
-/

set_option autoImplicit false

namespace MoeStream.ExpertTrace

open ExpertCache Foundation Foundation.FixedWidth Foundation.LruStack

/-! ## The simulation -/

/-- `last` and `resident` by layer, and the counters. -/
structure LruSim where
  last : Nat → Nat → Nat
  resident : Nat → Nat
  clock : Nat
  hit : Nat
  miss : Nat

/-- One position of `sim_lru`; the victim of a cache of no slots is expert 0. -/
def lruRequest (nExpert slots : Nat) (r : LruSim) (l e : Nat) : LruSim :=
  if nExpert ≤ e then r
  else if r.last l e ≠ 0 then
    { r with
      clock := r.clock + 1
      hit := r.hit + 1
      last := Function.update r.last l (Function.update (r.last l) e (r.clock + 1)) }
  else
    let evicted :=
      if slots ≤ r.resident l then
        (Function.update (r.last l) (oldest (2 ^ 64 - 1) (List.range nExpert) (r.last l) 0) 0,
          u32 (r.resident l + (2 ^ 32 - 1)))
      else (r.last l, r.resident l)
    { last := Function.update r.last l (Function.update evicted.1 e (r.clock + 1))
      resident := Function.update r.resident l (u32 (evicted.2 + 1))
      clock := r.clock + 1
      hit := r.hit
      miss := r.miss + 1 }

def Trace.touches (tr : Trace) : List (Nat × Nat) :=
  (List.range tr.nToken).flatMap fun t =>
    (List.range tr.nMoe).flatMap fun l => (tr.row t l).map fun e => (l, e)

/-- `sim_lru`, which returns the hits over hits and misses. -/
def simLru (tr : Trace) (slots : Nat) : LruSim :=
  tr.touches.foldl (fun r t => lruRequest tr.nExpertSim slots r t.1 t.2)
    { last := fun _ _ => 0, resident := fun _ => 0, clock := 0, hit := 0, miss := 0 }

/-- The simulation after the touches `ts`: a cache for each layer. -/
structure Simulated (n nExpert slots : Nat) (ts : List (Nat × Nat)) (r : LruSim) : Prop where
  layers : ∀ l, LruStack.Holds slots (List.range nExpert) ⟨r.last l, r.resident l⟩ r.clock
    (LruStack.run slots (accesses l ts)).1
  clock : r.clock = ts.length
  hit : r.hit = ∑ l ∈ Finset.range n, hits slots (accesses l ts)
  total : r.hit + r.miss = ts.length

variable {n nExpert slots l e : Nat} {ts : List (Nat × Nat)} {r : LruSim}

theorem lruRequest_table (inside : e < nExpert) (holds : r.resident l ≤ slots)
    (positive : 0 < slots)
    (width : slots < 2 ^ 32) :
    let t : Table Nat := ⟨r.last l, r.resident l⟩
    let t' := t.access slots (2 ^ 64 - 1) (List.range nExpert) 0 r.clock e
    (lruRequest nExpert slots r l e).last = Function.update r.last l t'.last ∧
      (lruRequest nExpert slots r l e).resident = Function.update r.resident l t'.held := by
  have known : ¬nExpert ≤ e := Nat.not_le_of_lt inside
  intro t t'
  simp only [lruRequest]
  rw [if_neg known]
  by_cases found : r.last l e ≠ 0
  · have after : t' = { t with last := Function.update t.last e (r.clock + 1) } := if_pos found
    rw [if_pos found, after]
    exact ⟨rfl, (Function.update_eq_self l r.resident).symm⟩
  · rw [if_neg found]
    by_cases full : slots ≤ r.resident l
    · have after : t' = _ := (if_neg found).trans (if_pos full)
      have less : u32 (r.resident l + (2 ^ 32 - 1)) = r.resident l - 1 := by
        simp only [u32]
        omega
      have back : u32 (r.resident l - 1 + 1) = r.resident l - 1 + 1 := u32_eq (by omega)
      rw [after]
      simp only [full, if_true, less, back]
      exact ⟨rfl, rfl⟩
    · have after : t' = _ := (if_neg found).trans (if_neg full)
      have next : u32 (r.resident l + 1) = r.resident l + 1 := u32_eq (by omega)
      rw [after]
      simp only [full, if_false, next]
      exact ⟨rfl, rfl⟩

theorem lruRequest_counts (slots : Nat) (r : LruSim) (l : Nat) (inside : e < nExpert) :
    (lruRequest nExpert slots r l e).clock = r.clock + 1 ∧
      (lruRequest nExpert slots r l e).hit = r.hit + (if r.last l e ≠ 0 then 1 else 0) ∧
      (lruRequest nExpert slots r l e).hit + (lruRequest nExpert slots r l e).miss =
        r.hit + r.miss + 1 := by
  have known : ¬nExpert ≤ e := Nat.not_le_of_lt inside
  simp only [lruRequest]
  rw [if_neg known]
  by_cases found : r.last l e ≠ 0
  · rw [if_pos found, if_pos found]
    exact ⟨rfl, rfl, Nat.add_right_comm _ _ _⟩
  · rw [if_neg found, if_neg found]
    exact ⟨rfl, rfl, rfl⟩

theorem hits_append (c : Nat) (ks : List Nat) (k : Nat) :
    hits c (ks ++ [k]) = hits c ks + if k ∈ (LruStack.run c ks).1 then 1 else 0 := by
  simp only [hits]
  rw [LruStack.run_append]
  dsimp only
  split <;> rfl

theorem Simulated.step (simulated : Simulated n nExpert slots ts r) (layer : l < n)
    (inside : e < nExpert) (positive : 0 < slots) (width : slots < 2 ^ 32)
    (room : ts.length < 2 ^ 64 - 1) :
    Simulated n nExpert slots (ts ++ [(l, e)]) (lruRequest nExpert slots r l e) := by
  have own := simulated.layers l
  have table := lruRequest_table (r := r) (l := l) inside
    ((Nat.le_of_eq own.held).trans own.fits) positive width
  obtain ⟨last, resident⟩ := table
  obtain ⟨clock, hit, total⟩ := lruRequest_counts slots r l inside
  have tick : r.clock < 2 ^ 64 - 1 := by
    rw [simulated.clock]
    exact room
  refine ⟨?_, ?_, ?_, ?_⟩
  · intro l'
    rw [last, resident, clock]
    by_cases same : l' = l
    · subst same
      rw [Function.update_self, Function.update_self, accesses_own, LruStack.run_append]
      exact own.access positive (List.mem_range.mpr inside) tick
    · rw [Function.update_of_ne same, Function.update_of_ne same, accesses_other ts same]
      exact (simulated.layers l').mono (Nat.le_succ _)
  · rw [clock, simulated.clock, List.length_append, List.length_singleton]
  · rw [hit, simulated.hit]
    apply (sum_grows layer ?_ ?_).symm
    · rw [accesses_own, hits_append]
      exact congrArg _ (if_congr (own.stamped.present e) rfl rfl)
    · intro l' other
      rw [accesses_other ts other]
  · rw [total, simulated.total, List.length_append, List.length_singleton]

theorem Simulated.run (positive : 0 < slots) (width : slots < 2 ^ 32)
    (inside : ∀ t ∈ ts, t.1 < n ∧ t.2 < nExpert) (room : ts.length < 2 ^ 64 - 1) :
    Simulated n nExpert slots ts (ts.foldl (fun r t => lruRequest nExpert slots r t.1 t.2)
      { last := fun _ _ => 0, resident := fun _ => 0, clock := 0, hit := 0, miss := 0 }) := by
  induction ts using List.reverseRecOn with
  | nil => exact ⟨fun _ => LruStack.Holds.start _ _, rfl, Finset.sum_const_zero.symm, rfl⟩
  | append_singleton ts t ih =>
      rw [List.length_append, List.length_singleton] at room
      obtain ⟨layer, small⟩ := inside t (List.mem_append_right _ (List.mem_singleton.mpr rfl))
      rw [List.foldl_append, List.foldl_cons, List.foldl_nil]
      exact (ih (fun t' member => inside t' (List.mem_append_left _ member)) (by omega)).step layer
        small positive width (by omega)

/-! ## The runtime -/

def callTouches (rt : Runtime) (call : Call) : List (Nat × Nat) :=
  match rt.remapped call.il with
  | none => []
  | some L =>
      call.ids.list.filterMap fun e : Int =>
        if 0 ≤ e ∧ e < L.gate.nExpert ∧ (1 < call.np → e.toNat ∈ inPass rt.sweepTest call.np
          call.pass (distinct call.ids.list L.gate.nExpert)) then some (call.il, e.toNat)
        else none

variable {rt : Runtime} {eb : Nat} {il : Nat → Nat} {tr : Trace}

theorem callTouches_decodes (call : Call) {L : LayerSlabs} (found : rt.remapped call.il = some L)
    {row : List Nat} (decodes : call.Decodes row) (inside : ∀ e ∈ row, e < L.gate.nExpert) :
    callTouches rt call = row.map fun e => (call.il, e) := by
  simp only [callTouches]
  rw [found]
  dsimp only
  rw [decodes.once]
  have asks : ∀ e ∈ row, (0 : Int) ≤ e ∧ (e : Int) < L.gate.nExpert := fun e member => by
    have small := inside e member
    omega
  calc call.ids.list.filterMap _ = row.filterMap fun e => some (call.il, e) := by
        rw [decodes.ids, List.filterMap_map]
        apply List.filterMap_congr
        intro e member
        exact if_pos ⟨(asks e member).1, (asks e member).2, fun several =>
          absurd several (Nat.lt_irrefl 1)⟩
    _ = row.map fun e => (call.il, e) := by rw [List.filterMap_eq_map']

/-- The touches of a decoded trace are those of the trace, on the layers of the
graph. -/
theorem decodeCalls_touches (product : Product rt nExpert) (placed : Placed rt eb tr.nMoe il)
    (inside : ∀ t l, ∀ e ∈ tr.row t l, e < nExpert) (io : Nat → Nat → Io) {ids : Nat → Nat → Ids}
    (decoded : ∀ t l, t < tr.nToken → l < tr.nMoe →
      (ids t l).list = (tr.row t l).map fun e : Nat => (e : Int)) :
    (decodeCalls tr il io ids).flatMap (fun c => callTouches rt c.2) =
      tr.touches.map fun t => (il t.1, t.2) := by
  simp only [decodeCalls, Trace.touches]
  rw [List.flatMap_assoc, List.map_flatMap]
  apply List.flatMap_congr
  intro t token
  rw [List.flatMap_map, List.map_flatMap]
  apply List.flatMap_congr
  intro l member
  have layer := List.mem_range.mp member
  obtain ⟨L, found, -⟩ := placed.layer l layer
  have experts := product.same _ L (remapped_layer found)
  rw [List.map_map]
  exact callTouches_decodes ⟨il l, 0, 1, ids t l⟩ found
    ⟨rfl, rfl, decoded t l (List.mem_range.mp token) layer⟩
    (by rw [experts]; exact inside t l)

theorem Trace.touches_inside {t : Nat × Nat} (member : t ∈ tr.touches) :
    t.1 < tr.nMoe ∧ t.2 < tr.nExpertSim := by
  obtain ⟨g, -, later⟩ := List.mem_flatMap.mp member
  obtain ⟨l, layer, listed⟩ := List.mem_flatMap.mp later
  obtain ⟨e, expert, rfl⟩ := List.mem_map.mp listed
  exact ⟨List.mem_range.mp layer, Trace.row_lt expert⟩

theorem accesses_map (apart : ∀ k l, k < n → l < n → il k = il l → k = l)
    (inside : ∀ t ∈ ts, t.1 < n) (layer : l < n) :
    accesses (il l) (ts.map fun t => (il t.1, t.2)) = accesses l ts := by
  simp only [accesses]
  rw [List.filter_map, List.map_map]
  have same : ts.filter ((fun t : Nat × Nat => t.1 == il l) ∘ fun t => (il t.1, t.2)) =
      ts.filter fun t => t.1 == l := by
    apply List.filter_congr
    intro t member
    apply Bool.eq_iff_iff.mpr
    simp only [Function.comp_apply, beq_iff_eq]
    exact ⟨apart _ _ (inside t member) layer, fun own => by rw [own]⟩
  rw [same]
  rfl

/-- The sums over the layers of the graph and over those of the trace. -/
theorem sum_accesses (apart : ∀ k l, k < n → l < n → il k = il l → k = l)
    (inside : ∀ t ∈ ts, t.1 < n) {m : Nat} (below : ∀ l, l < n → il l < m) (c : Nat) :
    ∑ j ∈ Finset.range m, hits c (accesses j (ts.map fun t => (il t.1, t.2))) =
      ∑ l ∈ Finset.range n, hits c (accesses l ts) := by
  have image : (Finset.range n).image il ⊆ Finset.range m := by
    intro j listed
    obtain ⟨l, layer, rfl⟩ := Finset.mem_image.mp listed
    exact Finset.mem_range.mpr (below l (Finset.mem_range.mp layer))
  rw [← Finset.sum_subset image, Finset.sum_image]
  · apply Finset.sum_congr rfl
    intro l layer
    rw [accesses_map apart inside (Finset.mem_range.mp layer)]
  · intro k first l second same
    exact apart k l (Finset.mem_range.mp first) (Finset.mem_range.mp second) same
  · -- a layer of the graph without experts is never touched
    intro j _ outside
    have none : accesses j (ts.map fun t => (il t.1, t.2)) = [] := by
      apply List.map_eq_nil_iff.mpr
      apply List.filter_eq_nil_iff.mpr
      intro t listed own
      obtain ⟨t', member, rfl⟩ := List.mem_map.mp listed
      apply outside
      rw [← beq_iff_eq.mp own]
      exact Finset.mem_image_of_mem il (Finset.mem_range.mpr (inside t' member))
    rw [none]
    rfl

/-- The curve the runtime measures while it decodes a trace is what `sim_lru` finds
for the trace, at every number of slots. -/
theorem measured_simLru {file : ByteReader.Bytes} (loaded : loadTrace file = some tr)
    (product : Product rt tr.nExpert) (placed : Placed rt eb tr.nMoe il)
    (io : Nat → Nat → Io) {ids : Nat → Nat → Ids}
    (decoded : ∀ t l, t < tr.nToken → l < tr.nMoe →
      (ids t l).list = (tr.row t l).map fun e : Nat => (e : Int))
    (room : tr.touches.length < 2 ^ 64 - 1) (positive : 0 < slots) (bound : slots ≤ tr.nExpert) :
    let m := (Mrc.start rt.nCache tr.nExpert).touches
      ((decodeCalls tr il io ids).flatMap fun c => callTouches rt c.2)
    let r := simLru tr slots
    (hitRates id m.histogram m.total tr.nExpert)[slots]? =
      some ((r.hit : ℚ) / ((r.hit + r.miss : Nat) : ℚ)) := by
  have experts : tr.nExpert = tr.nExpertSim := Trace.nExpert_eq (loadTrace_some loaded).2
  have inside := fun t (member : t ∈ tr.touches) => Trace.touches_inside member
  have below : ∀ l, l < tr.nMoe → il l < rt.nCache := fun l layer => by
    obtain ⟨L, found, -⟩ := placed.layer l layer
    exact remapped_lt found
  have width := product.experts
  have touched := decodeCalls_touches product placed
    (by rw [experts]; exact fun t l e member => Trace.row_lt member) io decoded
  have simulated : Simulated tr.nMoe tr.nExpertSim slots tr.touches (simLru tr slots) :=
    Simulated.run positive (by omega) inside room
  have range : ∀ t ∈ tr.touches.map (fun t => (il t.1, t.2)),
      t.1 < rt.nCache ∧ t.2 < tr.nExpert := by
    intro t listed
    obtain ⟨t', member, rfl⟩ := List.mem_map.mp listed
    rw [experts]
    exact ⟨below _ (inside t' member).1, (inside t' member).2⟩
  have exact := (Exact.touches range).lru fun t member => (range t member).2
  intro m r
  have same : m = (Mrc.start rt.nCache tr.nExpert).touches
      (tr.touches.map fun t => (il t.1, t.2)) := by rw [← touched]
  rw [same, exact.rates slots bound, List.length_map,
    sum_accesses placed.apart (fun t member => (inside t member).1) below]
  have hit : r.hit = _ := simulated.hit
  have total : r.hit + r.miss = _ := simulated.total
  rw [total, hit]

/-- With one slot the two experts of a token always evict each other. -/
theorem measured_simLru_pair :
    let m := (Mrc.start 1 2).touches
      ((decodeCalls pairTrace (fun _ => 0) (fun _ _ => Io.whole) fun _ _ => pairCall.ids).flatMap
        fun c => callTouches pairRuntime c.2)
    (hitRates id m.histogram m.total 2)[1]? = some 0 ∧ (simLru pairTrace 1).hit = 0 := by
  have decoded : ∀ t, t < pairTrace.nToken → ∀ l, l < pairTrace.nMoe →
      pairCall.ids.list = (pairTrace.row t l).map fun e : Nat => (e : Int) := by decide
  have measured := @measured_simLru 1 pairRuntime 3 (fun _ => 0) pairTrace pairFile rfl
    pairRuntime_product pairTrace_placed (fun _ _ => Io.whole) (fun _ _ => pairCall.ids)
    (fun t l token => decoded t token l) (by decide) Nat.one_pos (by decide)
  have none : (simLru pairTrace 1).hit = 0 := by decide
  intro m
  refine ⟨measured.trans ?_, none⟩
  rw [none, Nat.cast_zero, zero_div]

end MoeStream.ExpertTrace
