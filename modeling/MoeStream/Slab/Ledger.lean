import MoeStream.Slab.DecodeRows

/-!
# The counters of a run

What `report` prints is booked in four places: the caches count hits and misses,
the loop over the positions counts demand, drops and exhaustion, the batch loop
counts reads and bytes.  In every run the books agree.
-/

set_option autoImplicit false

namespace MoeStream

open ExpertCache

variable {rt : Runtime} {nExpert : Nat} {L : LayerSlabs} {s : State} {call : Call} {p q : Placing}
  {e : Int}

/-! ## The loop over the positions -/

/-- From `p` to `q` every position that asked is booked as demand or exhaustion,
and all demand as a hit, a drop or a pending read. -/
structure Booked (L : LayerSlabs) (p q : Placing) : Prop where
  asked : q.cache.st.hit + q.cache.st.miss + (p.demand + p.exhausted) =
    p.cache.st.hit + p.cache.st.miss + (q.demand + q.exhausted)
  served : q.cache.st.hit + q.dropped + q.pend.length + p.demand =
    p.cache.st.hit + p.dropped + p.pend.length + q.demand
  bytes : q.cache.st.bytesFetched + L.bytes * p.pend.length =
    p.cache.st.bytesFetched + L.bytes * q.pend.length

theorem Booked.refl (L : LayerSlabs) (p : Placing) : Booked L p p := ⟨rfl, rfl, rfl⟩

theorem Booked.trans {r : Placing} (first : Booked L p q) (later : Booked L q r) :
    Booked L p r where
  asked := by
    have before := first.asked
    have after := later.asked
    omega
  served := by
    have before := first.served
    have after := later.served
    omega
  bytes := by
    have before := first.bytes
    have after := later.bytes
    omega

theorem Ok.missed_counts {c : ExpertCache} {k : Nat} (ok : c.Ok) (layer : 0 < c.cfg.nLayer)
    (inside : k < c.cfg.nExpert) (missed : (c.acquire 0 k .demand).2.1 = false) :
    (c.acquire 0 k .demand).1.st.hit = c.st.hit ∧
      (c.acquire 0 k .demand).1.st.miss = c.st.miss + 1 ∧
      (c.acquire 0 k .demand).1.st.bytesFetched = c.st.bytesFetched := by
  have absent : (c.entry 0 k).seg = .none := by
    by_contra present
    rw [(acquire_present present .demand).1] at missed
    cases missed
  obtain ⟨-, hit, miss, bytes, -⟩ := ok.acquireMiss_gained layer inside
  rw [acquire_eq, if_neg (not_not.mpr absent)]
  exact ⟨hit, miss, bytes⟩

theorem Housed.books (housed : Housed rt nExpert p.cache) (experts : L.gate.nExpert = nExpert)
    (loads : rt.noop ≠ 3) (asks : Asks rt L call e) :
    Booked L p (MoeStream.step rt L call p e) := by
  have single := housed.single
  have ok := single.ok
  have inside : e.toNat < p.cache.cfg.nExpert := by
    have low := asks.1
    have high := asks.2.1
    rw [housed.experts]
    omega
  have gained := ok.request_gained single.layer inside L.bytes
  have missed := Ok.missed_counts ok single.layer inside
  rw [step_asks asks]
  cases ok.replied single.layer inside L.bytes with
  | hit found named outcome after =>
      rw [outcome, after] at gained
      have hit : _ = p.cache.st.hit + 1 := gained.hit
      have miss : _ = p.cache.st.miss := gained.miss
      have bytes : _ = p.cache.st.bytesFetched := gained.bytes
      have read : ¬(¬(p.cache.acquire 0 e.toNat .demand).2.1 = true ∧ rt.noop ≠ 3) :=
        fun both => both.1 found
      rw [if_neg named, if_neg fun dropped => dropped.1 found, if_pos found, if_neg read]
      refine ⟨?_, ?_, ?_⟩
      · simp only [hit, miss]
        omega
      · simp only [hit]
        omega
      · simp only [bytes]
  | admitted absent named outcome after =>
      have miss : ¬(p.cache.acquire 0 e.toNat .demand).2.1 = true := by
        rw [absent]
        nofun
      rw [if_neg named]
      by_cases drops : rt.dropFrom ≤ (call.il : Int)
      · -- the reserved slot stays empty: nothing is pending and nothing fetched
        rw [if_pos ⟨miss, drops⟩]
        obtain ⟨hit, miss, bytes⟩ := missed absent
        have st := (release_dropped (l := 0) (c := (p.cache.acquire 0 e.toNat .demand).1)
          (e := e.toNat) (by
            rw [(ok.acquire single.layer inside .demand).1.cfg]
            exact inside)).st
        refine ⟨?_, ?_, ?_⟩
        · simp only [st, hit, miss]
          omega
        · simp only [st, hit]
          omega
        · simp only [st, bytes]
      · rw [outcome, after] at gained
        have hit : _ = p.cache.st.hit := gained.hit
        have misses : _ = p.cache.st.miss + 1 := gained.miss
        have bytes : _ = p.cache.st.bytesFetched + L.bytes * 1 := gained.bytes
        rw [if_neg fun dropped => drops dropped.2, if_neg miss, if_pos ⟨miss, loads⟩]
        refine ⟨?_, ?_, ?_⟩
        · simp only [hit, misses]
          omega
        · simp only [hit, List.length_append, List.length_singleton]
          omega
        · simp only [bytes, List.length_append, List.length_singleton, Nat.mul_add]
          omega
  | refused absent unnamed outcome after =>
      obtain ⟨hit, miss, bytes⟩ := missed absent
      rw [if_pos unnamed]
      refine ⟨?_, ?_, ?_⟩
      · simp only [hit, miss]
        omega
      · simp only [hit]
      · simp only [bytes]

theorem Standing.booked (standing : Standing rt nExpert s) (experts : L.gate.nExpert = nExpert)
    (loads : rt.noop ≠ 3) (call : Call) (es : List Int) :
    Booked L (MoeStream.placeAll rt L call s []) (MoeStream.placeAll rt L call s es) := by
  induction es using List.reverseRecOn with
  | nil => exact Booked.refl L _
  | append_singleton es e ih =>
      rw [placeAll_step]
      by_cases asks : Asks rt L call e
      · exact ih.trans ((standing.placeAll experts call es).1.books experts loads asks)
      · rw [step_silent asks]
        exact ih.trans ⟨rfl, rfl, rfl⟩

/-! ## A run -/

/-- `g_io_calls`, `g_io_bytes` and `g_zerocopy`. -/
structure IoCounts where
  calls : Nat := 0
  bytes : Nat := 0
  zerocopy : Nat := 0

def IoCounts.add (io : IoCounts) (L : LayerSlabs) (r : Remapped) : IoCounts where
  calls := io.calls + r.batches.flatten.length
  bytes := io.bytes + r.ioBytes L
  zerocopy := io.zerocopy + r.batches.flatten.countP fun job => job.staged.isNone

def remapCounted (rt : Runtime) (r : State × IoCounts) (call : Io × Call) : State × IoCounts :=
  let q := remap rt call.1 r.1 call.2
  (q.state, ((rt.remapped call.2.il).map fun L => r.2.add L q).getD r.2)

def remapsCounted (rt : Runtime) (s : State) (calls : List (Io × Call)) : State × IoCounts :=
  calls.foldl (remapCounted rt) (s, {})

def State.fetched (rt : Runtime) (s : State) : Nat :=
  ∑ il ∈ Finset.range rt.nCache, (s.cache il).st.bytesFetched

structure Balanced (rt : Runtime) (r : State × IoCounts) : Prop where
  asked : r.1.hits rt + r.1.misses rt = r.1.demand + r.1.exhausted
  served : r.2.calls + 3 * (r.1.hits rt + r.1.dropped) = 3 * r.1.demand
  bytes : r.1.fetched rt = r.2.bytes
  zerocopy : r.2.zerocopy ≤ r.2.calls

@[simp] theorem targets_length (pend : List (Nat × Nat)) :
    (targets pend).length = 3 * pend.length := by
  induction pend with
  | nil => rfl
  | cons first rest ih =>
      have split : targets (first :: rest) =
          (Role.all.map fun role => (role, first)) ++ targets rest := rfl
      rw [split, List.length_append, ih, List.length_map, List.length_cons]
      simp only [Role.all, List.length_cons, List.length_nil]
      omega

theorem prepare_counts (standing : Standing rt nExpert s) (il : Nat) :
    (∀ j, ((prepare rt s il).cache j).st = (s.cache j).st) ∧
      (prepare rt s il).demand = s.demand ∧ (prepare rt s il).exhausted = s.exhausted ∧
      (prepare rt s il).dropped = s.dropped := by
  refine ⟨?_, ?_, prepare_exhausted rt s il, ?_⟩
  · intro j
    by_cases own : j = il
    · subst own
      have inside : ∀ e ∈ heldBy s j, e < (s.cache j).cfg.nExpert := by
        intro e member
        obtain ⟨pass, -, listed⟩ := List.mem_flatMap.mp member
        rw [(standing.housed j).experts]
        exact standing.held _ e listed
      rw [prepare_own]
      exact (releases_dropped (l := 0) _ inside).st
    · rw [(prepare_other rt s own).1]
  · simp only [prepare, releaseHeld, ensureZeroSlot]
    split <;> rfl
  · simp only [prepare, releaseHeld, ensureZeroSlot]
    split <;> rfl

theorem remapped_inside {il : Nat} (found : rt.remapped il = some L) : il < rt.nCache := by
  simp only [Runtime.remapped] at found
  split at found
  · cases found
  · omega

/-- A call changes the counters of one cache: to what its positions leave. -/
theorem remap_sums (io : Io) (found : rt.remapped call.il = some L) (count : CacheStats → Nat) :
    ∑ j ∈ Finset.range rt.nCache, count ((remap rt io s call).state.cache j).st +
        count (s.cache call.il).st =
      ∑ j ∈ Finset.range rt.nCache, count (s.cache j).st +
        count (placing rt L s call).cache.st := by
  have others : ∀ j, j ≠ call.il → (remap rt io s call).state.cache j = s.cache j := by
    intro j other
    rw [remap_mapped io found]
    exact (Function.update_of_ne other _ _).trans (prepare_other rt s other).1
  have own : (remap rt io s call).state.cache call.il = (placing rt L s call).cache := by
    rw [remap_mapped io found]
    exact Function.update_self _ _ _
  rw [← own]
  exact sum_exchanged (f := fun j => count (s.cache j).st)
    (g := fun j => count ((remap rt io s call).state.cache j).st) (remapped_inside found)
    fun j other => by rw [others j other]

/-- The positions of a call are booked on top of the books before it. -/
theorem Standing.placed (standing : Standing rt nExpert s) (experts : L.gate.nExpert = nExpert)
    (loads : rt.noop ≠ 3) (call : Call) :
    Booked L { cache := s.cache call.il, held := [], exhausted := s.exhausted,
               demand := s.demand, dropped := s.dropped } (placing rt L s call) := by
  obtain ⟨st, demand, exhausted, dropped⟩ := prepare_counts standing call.il
  obtain ⟨asked, served, bytes⟩ :=
    (standing.prepare call.il).booked experts loads call call.ids.list
  have start : MoeStream.placeAll rt L call (MoeStream.prepare rt s call.il) [] =
      { cache := (MoeStream.prepare rt s call.il).cache call.il
        held := (MoeStream.prepare rt s call.il).held (call.il * 8 + call.pass)
        exhausted := s.exhausted
        demand := s.demand
        dropped := s.dropped } := by
    rw [← demand, ← exhausted, ← dropped]
    rfl
  rw [start] at asked served bytes
  simp only [st] at asked served bytes
  exact ⟨asked, served, bytes⟩

theorem Balanced.remap {r : State × IoCounts} (balanced : Balanced rt r)
    (standing : Standing rt nExpert r.1) (shaped : Shaped rt nExpert) (loads : rt.noop ≠ 3)
    (positive : rt.maxb ≠ 0) (stage : r.1.stage = 0 ∨ r.1.stage = rt.maxb * 3 * 32)
    (call : Io × Call) : Balanced rt (remapCounted rt r call) := by
  obtain ⟨io, call⟩ := call
  cases found : rt.remapped call.il with
  | none =>
      simp only [remapCounted, remap_unmapped io found, found, Option.map_none, Option.getD_none]
      exact balanced
  | some L =>
      have placed := standing.placed (shaped.same _ L (remapped_layer found)) loads call
      have hits := remap_sums (s := r.1) io found CacheStats.hit
      have misses := remap_sums (s := r.1) io found CacheStats.miss
      have fetched := remap_sums (s := r.1) io found CacheStats.bytesFetched
      have jobs : (MoeStream.remap rt io r.1 call).batches.flatten.length =
          3 * (placing rt L r.1 call).pend.length := by
        rw [← targets_length, ← remap_targets io positive found stage, List.length_map]
      have bytes := remap_reads io positive found stage
      have counted : remapCounted rt r (io, call) =
          ((MoeStream.remap rt io r.1 call).state, r.2.add L (MoeStream.remap rt io r.1 call)) := by
        simp only [remapCounted, found, Option.map_some, Option.getD_some]
      have state : (MoeStream.remap rt io r.1 call).state.demand =
            (placing rt L r.1 call).demand ∧
          (MoeStream.remap rt io r.1 call).state.exhausted = (placing rt L r.1 call).exhausted ∧
          (MoeStream.remap rt io r.1 call).state.dropped = (placing rt L r.1 call).dropped := by
        rw [remap_mapped io found]
        exact ⟨rfl, rfl, rfl⟩
      obtain ⟨demand, exhausted, dropped⟩ := state
      obtain ⟨asked, served, brought⟩ := placed
      obtain ⟨before, reads, same, direct⟩ := balanced
      dsimp only at asked
      simp only [List.length_nil, Nat.mul_zero, Nat.add_zero] at served brought
      simp only [State.hits, State.misses, State.fetched] at before reads same
      rw [counted]
      refine ⟨?_, ?_, ?_, ?_⟩
      · simp only [State.hits, State.misses, demand, exhausted]
        omega
      · simp only [State.hits, IoCounts.add, jobs, demand, dropped]
        omega
      · simp only [State.fetched, IoCounts.add, bytes]
        omega
      · exact Nat.add_le_add direct List.countP_le_length

/-- In every run, whatever the passes, drops and reads: hits and misses are the
demand and the exhaustion; the demand is hits, drops and three reads each for the
rest; the bytes the caches count are the bytes read. -/
theorem report_balances (shaped : Shaped rt nExpert) (loads : rt.noop ≠ 3) (positive : rt.maxb ≠ 0)
    (mem : Memory) (calls : List (Io × Call)) :
    Balanced rt (remapsCounted rt (State.start rt nExpert mem) calls) := by
  suffices carried : ∀ r : State × IoCounts, Balanced rt r → Standing rt nExpert r.1 →
      (r.1.stage = 0 ∨ r.1.stage = rt.maxb * 3 * 32) →
      Balanced rt (calls.foldl (remapCounted rt) r) by
    apply carried
    · refine ⟨?_, ?_, ?_, Nat.le_refl 0⟩
      · simp [State.hits, State.misses, State.start, init]
      · simp [State.hits, State.start, init]
      · simp [State.fetched, State.start, init]
    · exact Standing.start ⟨shaped.positive, shaped.slots⟩ shaped.experts mem
    · exact Or.inl rfl
  induction calls with
  | nil => exact fun r balanced _ _ => balanced
  | cons call rest ih =>
      intro r balanced standing stage
      apply ih _ (balanced.remap standing shaped loads positive stage call)
      · exact standing.remap call.1 call.2 fun L found => shaped.same _ L (remapped_layer found)
      · exact remap_stage call.1 stage

/-- A layer that drops its misses. -/
theorem report_balances_drop :
    Balanced dropRuntime (remapsCounted dropRuntime (State.start dropRuntime 2 fun _ => 0)
      [(Io.whole, twiceCall), (Io.ended, pairCall)]) :=
  report_balances dropRuntime_shaped (by decide) (by decide) (fun _ => 0)
    [(Io.whole, twiceCall), (Io.ended, pairCall)]

end MoeStream
