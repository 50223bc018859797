import MoeStream.Slab.Tally

/-!
# What the caches record

`ms_remap_fn` marks a missed expert resident before it is read, so a call leaves
behind a record that says more than the reads have brought when one of them
fails.  What is recorded is right after a call exactly if every byte it read has
arrived or was in place before.
-/

set_option autoImplicit false

namespace MoeStream

open Foundation.SeatTable
open Foundation.Writes
open ExpertCache

variable {rt : Runtime} {nExpert : Nat} {s : State} {il : Nat} {L : LayerSlabs} {io : Io}
  {call : Call}

/-- Every expert that a later `acquire` would find holds its bytes in the slot it
would be given. -/
def Recorded (rt : Runtime) (nExpert : Nat) (s : State) : Prop :=
  ∀ il L, rt.remapped il = some L → ∀ e, e < nExpert →
    ((s.cache il).acquire 0 e .demand).2.1 = true →
      Loaded rt.shards il L s.mem ((s.cache il).acquire 0 e .demand).2.2 e

/-- Every byte a call reads arrives, or is in place before. -/
def CallArrives (rt : Runtime) (io : Io) (s : State) (call : Call) : Prop :=
  ∀ L, rt.remapped call.il = some L →
    AllArrive rt.shards call.il rt.maxb L io.pread (remap rt io s call).batches s.mem

/-- What a call comes with, whatever its reads do: the pass is one of the eight
whose references are kept, and no expert is named 65536 times. -/
structure CallFits (nExpert : Nat) (call : Call) : Prop where
  pass : call.pass < 8
  few : ∀ e : Nat, e < nExpert → call.ids.list.count (e : Int) < 2 ^ 16

/-- What holds between calls, whatever the reads do. -/
structure Kept (rt : Runtime) (nExpert : Nat) (s : State) : Prop where
  layer : ∀ il L, rt.remapped il = some L → Counted rt nExpert s il
  stage : s.stage = 0 ∨ s.stage = rt.maxb * 3 * 32

/-! ## Seats -/

theorem Counted.found_iff (counted : Counted rt nExpert s il) {e : Nat} (inside : e < nExpert)
    {slot : Nat} : (s.cache il).table.seat e = some slot ↔
      ((s.cache il).acquire 0 e .demand).2.1 = true ∧
        ((s.cache il).acquire 0 e .demand).2.2 = slot := by
  have bound : (s.cache il).idx 0 e < (s.cache il).total :=
    idx_lt_total _ counted.single.layer (by rw [counted.experts]; exact inside)
  rw [idx_zero] at bound
  have seat : (s.cache il).table.seat e = ((s.cache il).entry 0 e).held := by
    rw [table_seat bound]
    simp only [ExpertCache.entry, ExpertCache.seats]
    rw [idx_zero]
  rw [seat, Entry.held_some]
  constructor
  · rintro ⟨present, rfl⟩
    exact acquire_present present .demand
  · rintro ⟨hit, rfl⟩
    have present : ((s.cache il).entry 0 e).seg ≠ .none := by
      intro absent
      rw [acquire_absent absent] at hit
      cases hit
    exact ⟨present, (acquire_present present .demand).2.symm⟩

theorem Counted.seat_inside (counted : Counted rt nExpert s il) {e slot : Nat}
    (seated : (s.cache il).table.seat e = some slot) : e < nExpert ∧ slot < rt.nSlots := by
  refine ⟨?_, ?_⟩
  · by_contra outside
    have beyond : ¬e < (s.cache il).total := by
      rw [counted.single.total_eq, counted.experts]
      exact outside
    simp only [table, below] at seated
    rw [if_neg beyond] at seated
    cases seated
  · rw [← counted.slots]
    exact counted.single.ok.table_seat_lt seated

theorem Kept.recorded_iff (kept : Kept rt nExpert s) :
    Recorded rt nExpert s ↔ ∀ il L, rt.remapped il = some L → ∀ e slot,
      (s.cache il).table.seat e = some slot → Loaded rt.shards il L s.mem slot e := by
  apply forall₂_congr
  intro il L
  apply forall_congr'
  intro found
  have counted := kept.layer il L found
  constructor
  · intro recorded e slot seated
    have inside := (counted.seat_inside seated).1
    obtain ⟨hit, rfl⟩ := (counted.found_iff inside).mp seated
    exact recorded e inside hit
  · intro seats e inside hit
    exact seats e _ ((counted.found_iff inside).mpr ⟨hit, rfl⟩)

/-! ## One position -/

/-- A position that asks the cache does so in any pass as in the only one. -/
theorem step_asks_one {p : Placing} {e : Int} (asks : Asks rt L call e) :
    step rt L call p e = place rt L call.il 1
      (inPass rt.sweepTest call.np call.pass (distinct call.ids.list L.gate.nExpert)) p e := by
  have mine := asks.mine
  simp only [step, place, mine, Nat.lt_irrefl, false_and, if_false]

theorem PlacingOk.step {mem : Memory} {es : List Int} {p : Placing}
    (ok : PlacingOk rt L call.il mem es p) (noop : rt.noop = 0)
    (kept : (call.il : Int) < rt.dropFrom) (e : Int)
    (few : 0 ≤ e → e < L.gate.nExpert → es.count e + 1 < 2 ^ 16) :
    PlacingOk rt L call.il mem (es ++ [e]) (step rt L call p e) := by
  by_cases asks : Asks rt L call e
  · rw [step_asks_one asks]
    exact (ok.place noop kept _ e few).1
  · rw [step_silent asks]
    refine ⟨ok.single, ok.experts, ok.slots, ok.served, ok.heldIn, ?_, by simp [ok.length]⟩
    intro k
    rw [List.count_append]
    exact (ok.counted k).trans (Nat.le_add_right _ _)

theorem Ready.placeAll (ready : Ready rt L call s) (noop : rt.noop = 0)
    (kept : (call.il : Int) < rt.dropFrom) (es : List Int)
    (few : ∀ e : Int, 0 ≤ e → e < L.gate.nExpert → es.count e < 2 ^ 16) :
    PlacingOk rt L call.il s.mem es (placeAll rt L call s es) := by
  induction es using List.reverseRecOn with
  | nil => exact ready.placing
  | append_singleton es e ih =>
      obtain ⟨before, now⟩ := few_concat few
      rw [placeAll_step]
      exact (ih before).step noop kept e now

/-! ## One call -/

theorem Kept.start (product : Product rt nExpert) (mem : Memory) :
    Kept rt nExpert (State.start rt nExpert mem) := by
  have inv := start_inv product mem
  exact ⟨fun il L found => (inv.layer il L found).counted, inv.stage⟩

theorem Recorded.start (product : Product rt nExpert) (mem : Memory) :
    Recorded rt nExpert (State.start rt nExpert mem) := by
  apply (Kept.start product mem).recorded_iff.mpr
  intro il L found
  exact ((start_inv product mem).layer il L found).loaded

theorem Kept.remap (kept : Kept rt nExpert s) (product : Product rt nExpert) (io : Io)
    (callFits : CallFits nExpert call) : Kept rt nExpert (remap rt io s call).state := by
  refine ⟨?_, ?_⟩
  · intro il L found
    have layer := remapped_layer found
    exact (kept.layer il L found).remap io found (product.same _ L layer) (product.kept _ L layer)
      callFits.pass
  · cases found : rt.remapped call.il with
    | none =>
        rw [remap_unmapped io found]
        exact kept.stage
    | some L =>
        have stage : (prepare rt s call.il).stage = s.stage := (ensureZeroSlot_rest rt s).2.2
        simp only [MoeStream.remap, found]
        exact (stage_room rt call.il (prepare rt s call.il) (by rw [stage]; exact kept.stage) _).1

theorem Kept.remaps (kept : Kept rt nExpert s) (product : Product rt nExpert)
    (calls : List (Io × Call)) (callFits : ∀ c ∈ calls, CallFits nExpert c.2) :
    Kept rt nExpert (remaps rt s calls) := by
  induction calls generalizing s with
  | nil => exact kept
  | cons first rest ih =>
      apply ih (kept.remap product first.1 (callFits first List.mem_cons_self))
      exact fun c member => callFits c (List.mem_cons_of_mem first member)

theorem remap_outcome (product : Product rt nExpert) (kept : Kept rt nExpert s)
    (recorded : Recorded rt nExpert s) (callFits : CallFits nExpert call)
    (found : rt.remapped call.il = some L) (fits : io.Fits rt.shards L) :
    Outcome rt L io s call := by
  have layer := remapped_layer found
  have ready := (kept.layer _ L found).ready product layer
    (kept.recorded_iff.mp recorded _ L found) callFits.pass
  have experts := product.same _ L layer
  have placed := ready.placeAll product.noop (product.kept _ L layer) call.ids.list
    (few_ints (experts ▸ callFits.few))
  exact placed.outcome product found kept.stage fits

/-- The zero slot and the staging buffer are not what a call reads into. -/
theorem Outcome.before (outcome : Outcome rt L io s call) (product : Product rt nExpert)
    (layer : rt.layers call.il = some L) :
    AllArrive rt.shards call.il rt.maxb L io.pread (remap rt io s call).batches
        (prepare rt s call.il).mem ↔
      AllArrive rt.shards call.il rt.maxb L io.pread (remap rt io s call).batches s.mem := by
  apply AllArrive.congr
  intro jobs member job listed i inside
  have seated := (outcome.placed.served.dueSeat _ _ (outcome.jobs jobs member job listed)).1
  have small : job.slot < rt.nSlots := by
    rw [← outcome.placed.slots]
    exact outcome.placed.single.ok.table_seat_lt seated
  have same : ∀ L', rt.layers call.il = some L' → L' = L := fun L' other =>
    Option.some.inj (other.symm.trans layer)
  cases staged : job.staged with
  | none =>
      rw [ReadJob.dst_direct staged]
      apply ensureZeroSlot_mem product.zero small
      · intro L' other
        rw [same L' other]
        exact inside
      · intro L' other
        rw [same L' other]
  | some part =>
      rw [ReadJob.dst_staged staged]
      simp only [prepare, releaseHeld, ensureZeroSlot]
      cases s.zeroFilled <;> rfl

variable (s io call) in
/-- A call leaves no expert recorded that is not in place exactly if every byte
it read arrived or was in place before. -/
theorem remap_recorded_iff (product : Product rt nExpert) (kept : Kept rt nExpert s)
    (recorded : Recorded rt nExpert s) (callFits : CallFits nExpert call)
    (atMost : ∀ job, AtMost (io.pread job)) :
    Recorded rt nExpert (remap rt io s call).state ↔ CallArrives rt io s call := by
  have after := kept.remap product io callFits
  cases found : rt.remapped call.il with
  | none =>
      rw [remap_unmapped io found]
      refine ⟨fun _ L other => ?_, fun _ => recorded⟩
      rw [found] at other
      cases other
  | some L =>
      have layer := remapped_layer found
      have outcome := remap_outcome product kept recorded callFits found
        (Io.fits atMost rt.shards L)
      obtain ⟨cache, -⟩ := remap_own (s := s) io found callFits.pass
      have only : CallArrives rt io s call ↔
          AllArrive rt.shards call.il rt.maxb L io.pread (remap rt io s call).batches s.mem := by
        refine ⟨fun arrives => arrives L found, fun arrives L' other => ?_⟩
        cases found.symm.trans other
        exact arrives
      rw [only, ← outcome.before product layer, ← outcome.loaded, after.recorded_iff]
      constructor
      · intro seats e slot due
        apply seats call.il L found
        rw [cache]
        exact (outcome.placed.served.dueSeat e slot due).1
      · intro read il L' other e slot seated
        by_cases own : il = call.il
        · subst own
          cases found.symm.trans other
          rw [cache] at seated
          apply outcome.placed.served.finish read ?_ e slot seated
          intro k r unread loaded
          apply (Loaded.congr ?_).mpr loaded
          intro role i inside
          apply outcome.frame
          apply outside_slot ?_ inside
          intro listed
          obtain ⟨pair, member, same⟩ := List.mem_map.mp listed
          apply unread pair.1
          rw [← same]
          exact member
        · obtain ⟨sameCache, -⟩ := remap_other (s := s) io found callFits.pass own
          rw [sameCache] at seated
          have counted := kept.layer il L' other
          have before := kept.recorded_iff.mp recorded il L' other e slot seated
          have prepared := ensureZeroSlot_loaded product.zero (remapped_layer other)
            (counted.seat_inside seated).2 before
          apply (Loaded.congr ?_).mpr prepared
          intro role i inside
          apply outcome.frame
          exact fun same => absurd same own

/-- A call some of whose bytes do not arrive leaves an expert recorded that is
not in place. -/
theorem remap_not_recorded (product : Product rt nExpert) (kept : Kept rt nExpert s)
    (recorded : Recorded rt nExpert s) (callFits : CallFits nExpert call)
    (atMost : ∀ job, AtMost (io.pread job)) (found : rt.remapped call.il = some L)
    {batches : List (List ReadJob)} (issued : (remap rt io s call).batches = batches)
    (lost : ¬AllArrive rt.shards call.il rt.maxb L io.pread batches s.mem) :
    ¬Recorded rt nExpert (remap rt io s call).state := by
  intro after
  apply lost
  rw [← issued]
  exact (remap_recorded_iff s io call product kept recorded callFits atMost).mp after L found

/-! A call for two experts and one slot whose reads all meet the end of the file. -/

def Io.ended : Io := { Io.whole with pread := fun _ _ _ => 0 }

def pairStart : State := State.start pairRuntime 2 fun _ => 255

def pairLayer : LayerSlabs :=
  ⟨⟨true, 0, 1, 2, 0⟩, ⟨true, 2, 1, 2, 0⟩, ⟨true, 4, 1, 2, 0⟩, true⟩

theorem pair_remapped : pairRuntime.remapped pairCall.il = some pairLayer := rfl

theorem pair_pend : (placing pairRuntime pairLayer pairStart pairCall).pend = [(0, 0)] := by
  simp only [placing]
  rw [pairCall_ids]
  rfl

theorem pair_batches (io : Io) : (remap pairRuntime io pairStart pairCall).batches =
    [[⟨.gate, 0, 0, some 0⟩, ⟨.up, 0, 0, some 1⟩, ⟨.down, 0, 0, some 2⟩]] := by
  simp only [remap_mapped io pair_remapped, readBatches_jobs, pair_pend]
  rfl

theorem pairCall_fits : CallFits 2 pairCall := ⟨pairCall_ok.pass, pairCall_ok.few⟩

theorem pairStart_kept : Kept pairRuntime 2 pairStart :=
  Kept.start pairRuntime_product fun _ => 255

theorem pairStart_recorded : Recorded pairRuntime 2 pairStart :=
  Recorded.start pairRuntime_product fun _ => 255

theorem pair_unread :
    ¬Recorded pairRuntime 2 (remap pairRuntime Io.ended pairStart pairCall).state := by
  apply remap_not_recorded pairRuntime_product pairStart_kept pairStart_recorded pairCall_fits
    (fun _ _ left => Int.natCast_nonneg left) pair_remapped (pair_batches Io.ended)
  rintro ⟨first, -⟩
  have gate := first ⟨.gate, 0, 0, some 0⟩ List.mem_cons_self
  rcases gate 0 Nat.one_pos with read | before
  · exact absurd read (Nat.not_lt.mpr (Nat.le_of_eq (arrived_ended _ _)))
  · exact absurd before (by decide)

end MoeStream
