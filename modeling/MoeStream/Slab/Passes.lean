import MoeStream.Slab.Sweep

/-!
# What a pass multiplies by

A position of a pass is answered with a slot.  When the reads arrive and the
share of the pass fits, that slot holds the expert of the position if the pass
owns it, and the zeros of the null expert if it does not.
-/

set_option autoImplicit false

namespace MoeStream

open Foundation.FixedWidth Foundation.FloatFormat
open Foundation.SeatTable
open ExpertCache

variable {rt : Runtime} {nExpert : Nat} {s : State} {il : Nat} {L : LayerSlabs} {io : Io}
  {call : Call}

/-! ## How many passes -/

/-- `n_passes` for a batch of `nTokens`; `force` is `MOESTREAM_FORCE_PASSES`, `none`
when it is not set. -/
def Sizing.nPasses (z : Sizing) (force : Option Int) (nTokens : Nat) : Nat :=
  match force with
  | none => 1
  | some force =>
      if z.nExpert = 0 then 1
      else if 0 < force ∧ 8 < nTokens then force.toNat
      else if z.nExpert ≤ z.slots then 1
      else
        let tk := if 0 < z.topK then z.topK else if 0 < z.seenTopK then z.seenTopK else 8
        let u := unionOf z.nExpert tk nTokens
        max 1 (min ⌈double (double (double (u * double (110 / 100)) + tk) / z.slots)⌉.toNat 8)

theorem Sizing.nPasses_bounds (z : Sizing) {force : Option Int} (most : ∀ v ∈ force, v ≤ 8)
    (nTokens : Nat) : 1 ≤ z.nPasses force nTokens ∧ z.nPasses force nTokens ≤ 8 := by
  cases force with
  | none => simp [Sizing.nPasses]
  | some v =>
      have bound := most v rfl
      simp only [Sizing.nPasses]
      split
      · omega
      · split
        · omega
        · split <;> omega

/-! ## The null expert -/

/-- Slot `slot` holds zeros in every role. -/
def Zeros (il : Nat) (L : LayerSlabs) (mem : Memory) (slot : Nat) : Prop :=
  ∀ role i, i < (L.role role).expertBytes →
    mem (.slab il role (slot * (L.role role).expertBytes + i)) = 0

def NullZero (rt : Runtime) (s : State) : Prop :=
  s.zeroFilled = true → ∀ il L, rt.remapped il = some L → Zeros il L s.mem rt.zeroSlot

def Runtime.Whole (rt : Runtime) : Prop :=
  ∀ il L, rt.remapped il = some L → ∀ role, (L.role role).registered = true

theorem NullZero.start (rt : Runtime) (mem : Memory) :
    NullZero rt (State.start rt nExpert mem) := by
  intro filled
  cases filled

@[simp] theorem prepare_filled (rt : Runtime) (s : State) (il : Nat) :
    (prepare rt s il).zeroFilled = true := by
  simp only [prepare, releaseHeld, ensureZeroSlot]
  split
  · assumption
  · rfl

theorem NullZero.prepare (null : NullZero rt s) (whole : rt.Whole) (il : Nat) :
    NullZero rt (prepare rt s il) := by
  intro _ il' L found role i inside
  have mem : (MoeStream.prepare rt s il).mem = (ensureZeroSlot rt s).mem := rfl
  rw [mem]
  simp only [ensureZeroSlot]
  split
  · rename_i filled
    exact null filled il' L found role i inside
  · have known := whole il' L found role
    simp only [remapped_layer found]
    rw [if_pos ⟨known, by omega, by omega⟩]

theorem Outcome.zeros (outcome : Outcome rt L io s call) (product : Product rt nExpert)
    (found : rt.remapped call.il = some L) (null : NullZero rt s) (whole : rt.Whole) :
    NullZero rt (remap rt io s call).state := by
  intro _ il' L' found' role i inside
  have before := null.prepare whole call.il (prepare_filled rt s call.il) il' L' found' role i
  rw [outcome.frame]
  · exact before inside
  · rintro rfl
    cases found.symm.trans found'
    suffices outside : Outside call.il L ((placing rt L s call).pend.map Prod.snd)
        (.slab call.il role (rt.zeroSlot * (L.role role).expertBytes + i)) from outside rfl
    apply outside_slot ?_ inside
    intro listed
    obtain ⟨⟨e, slot⟩, member, same⟩ := List.mem_map.mp listed
    have seated := (outcome.placed.served.dueSeat e slot member).1
    have small := outcome.placed.single.ok.table_seat_lt seated
    have zero := product.zero
    rw [outcome.placed.slots] at small
    dsimp only at same
    omega

/-! ## The answers of a pass -/

/-- Placing the positions of any pass answers those that ask, and keeps the
answers standing. -/
theorem Ready.answered (ready : Ready rt L call s) (noop : rt.noop = 0)
    (kept : (call.il : Int) < rt.dropFrom) (es : List Int)
    (few : ∀ e : Int, 0 ≤ e → e < L.gate.nExpert → es.count e < 2 ^ 16) :
    ∀ n e, es[n]? = some e → Asks rt L call e →
      ∃ v, (MoeStream.placeAll rt L call s es).out[n]? = some v ∧
        Answered rt L (MoeStream.placeAll rt L call s es)
          (MoeStream.placeAll rt L call s (es.take n)).cache e v := by
  induction es using List.reverseRecOn with
  | nil => simp
  | append_singleton es k ih =>
      intro n e position asks
      obtain ⟨fewBefore, fewNow⟩ := few_concat few
      have placed := ready.placeAll noop kept es fewBefore
      rw [placeAll_step]
      by_cases last : n < es.length
      · rw [List.getElem?_append_left last] at position
        obtain ⟨v, written, earlier⟩ := ih fewBefore n e position asks
        rw [List.take_append_of_le_length (Nat.le_of_lt last)]
        by_cases own : Asks rt L call k
        · obtain ⟨-, ⟨w, grown, -⟩, keeps⟩ := placed.place noop kept
            (inPass rt.sweepTest call.np call.pass (distinct call.ids.list L.gate.nExpert)) k fewNow
          rw [step_asks_one own]
          refine ⟨v, ?_, ?_⟩
          · rw [grown, List.getElem?_append_left (by rw [placed.length]; exact last)]
            exact written
          · cases earlier with
            | seat value low high held seated =>
                obtain ⟨held', seated'⟩ := keeps _ _ held seated
                exact Answered.seat value low high held' seated'
            | null value why => exact Answered.null value why
        · rw [step_silent own]
          refine ⟨v, ?_, ?_⟩
          · dsimp only
            rw [List.getElem?_append_left (by rw [placed.length]; exact last)]
            exact written
          · cases earlier with
            | seat value low high held seated => exact Answered.seat value low high held seated
            | null value why => exact Answered.null value why
      · have bound : n < (es ++ [k]).length := (List.getElem?_eq_some_iff.mp position).1
        have index : n = es.length := by
          rw [List.length_append, List.length_singleton] at bound
          omega
        subst index
        rw [List.getElem?_append_right (Nat.le_refl _), Nat.sub_self] at position
        cases position
        obtain ⟨-, ⟨v, grown, answer⟩, -⟩ := placed.place noop kept
          (inPass rt.sweepTest call.np call.pass (distinct call.ids.list L.gate.nExpert)) k fewNow
        rw [step_asks_one asks, List.take_left]
        refine ⟨v, ?_, answer⟩
        rw [grown, ← placed.length, List.getElem?_append_right (Nat.le_refl _), Nat.sub_self]
        rfl

theorem mem_named {n : Nat} {es : List Int} {e : Int} (low : 0 ≤ e) (high : e < n)
    (listed : e ∈ es) : e.toNat ∈ named n es := by
  refine Finset.mem_filter.mpr ⟨Finset.mem_range.mpr (by omega), ?_⟩
  rw [Int.toNat_of_nonneg low]
  exact listed

theorem owned_only (unset : rt.sweepTest = 0) {ids : Ids} {np pass e : Nat} (single : ¬1 < np)
    (inside : pass < np) (member : e ∈ named L.gate.nExpert ids.list) :
    e ∈ rt.owned L ids np pass := by
  have positive : 0 < np := by omega
  obtain ⟨own, bound, mine⟩ := (exists_owned unset positive).mp member
  have same : own = pass := by omega
  rw [← same]
  exact mine

structure Steady (rt : Runtime) (nExpert : Nat) (s : State) : Prop where
  kept : Kept rt nExpert s
  recorded : Recorded rt nExpert s
  null : NullZero rt s

theorem Steady.start (product : Product rt nExpert) (mem : Memory) :
    Steady rt nExpert (State.start rt nExpert mem) :=
  ⟨Kept.start product mem, Recorded.start product mem, NullZero.start rt mem⟩

/-- What slot `slot` holds for expert `e` in a pass that owns `owned`. -/
def Holds (rt : Runtime) (il : Nat) (L : LayerSlabs) (mem : Memory) (owned : Finset Nat)
    (e slot : Nat) : Prop :=
  if e ∈ owned then Loaded rt.shards il L mem slot e else Zeros il L mem slot

/-- A call whose reads arrive leaves the caches and the zero slot right. -/
theorem Steady.remap (steady : Steady rt nExpert s) (product : Product rt nExpert)
    (whole : rt.Whole) (callFits : CallFits nExpert call)
    (atMost : ∀ job, AtMost (io.pread job)) (arrives : CallArrives rt io s call) :
    Steady rt nExpert (remap rt io s call).state := by
  obtain ⟨kept, recorded, null⟩ := steady
  refine ⟨kept.remap product io callFits, ?_, ?_⟩
  · exact (remap_recorded_iff s io call product kept recorded callFits atMost).mpr arrives
  · cases found : rt.remapped call.il with
    | none =>
        rw [remap_unmapped io found]
        exact null
    | some L =>
        exact (remap_outcome product kept recorded callFits found
          (Io.fits atMost rt.shards L)).zeros product found null whole

/-- Every position of a pass is answered with a slot that holds its expert if the
pass owns it, and zeros otherwise. -/
theorem Steady.answers (steady : Steady rt nExpert s) (product : Product rt nExpert)
    (whole : rt.Whole) (unset : rt.sweepTest = 0) (callFits : CallFits nExpert call)
    (inside : call.pass < call.np) (atMost : ∀ job, AtMost (io.pread job))
    (arrives : CallArrives rt io s call) (found : rt.remapped call.il = some L)
    (share : (named nExpert call.ids.list).card ⌈/⌉ call.np ≤ rt.nSlots)
    {n : Nat} {e : Int} (position : call.ids.list[n]? = some e) (low : 0 ≤ e)
    (high : e < nExpert) :
    ∃ slot, slot ≤ rt.nSlots ∧ (MoeStream.remap rt io s call).out[n]? = some (i32 slot) ∧
      Holds rt call.il L (MoeStream.remap rt io s call).state.mem
        (rt.owned L call.ids call.np call.pass) e.toNat slot := by
  have after := steady.remap product whole callFits atMost arrives
  obtain ⟨kept, recorded, null⟩ := steady
  have layer := remapped_layer found
  have experts := product.same _ L layer
  have undropped := product.kept _ L layer
  have counted := kept.layer _ L found
  have listed := List.mem_of_getElem? position
  by_cases owns : e.toNat ∈ rt.owned L call.ids call.np call.pass
  · have asks : Asks rt L call e := ⟨low, by omega, fun _ => List.mem_toFinset.mp owns⟩
    -- every position that asks is of the share of the pass
    have mine : ∀ k ∈ call.ids.list, Asks rt L call k →
        k.toNat ∈ rt.owned L call.ids call.np call.pass := by
      intro k member asking
      by_cases several : 1 < call.np
      · exact List.mem_toFinset.mpr (asking.2.2 several)
      · exact owned_only unset several inside (mem_named asking.1 asking.2.1 member)
    have few : (rt.owned L call.ids call.np call.pass).card ≤ rt.nSlots := by
      have part : (rt.owned L call.ids call.np call.pass).card ≤
          (named L.gate.nExpert call.ids.list).card ⌈/⌉ call.np := owned_card_le unset call.pass
      rw [experts] at part
      exact part.trans share
    have tallied := counted.tallied experts undropped callFits.pass (call.ids.list.take n)
      fun k member asking => mine k (List.mem_of_mem_take member) asking
    obtain ⟨-, slot, small, grown⟩ := tallied.served experts undropped few asks owns
    have answer := placeAll_answer rt L call (prepare rt s call.il) call.ids.list position grown
    have ready := counted.ready product layer (kept.recorded_iff.mp recorded _ L found)
      callFits.pass
    obtain ⟨v, written, answered⟩ := ready.answered product.noop undropped call.ids.list
      (few_ints (experts ▸ callFits.few)) n e position asks
    have value : v = i32 slot := Option.some.inj (written.symm.trans answer)
    refine ⟨slot, Nat.le_of_lt small, ?_, ?_⟩
    · rw [remap_mapped io found]
      exact answer
    · have width := product.slots
      have zero := product.zero
      have placed := (remap_outcome product kept recorded callFits found
        (Io.fits atMost rt.shards L)).placed
      cases answered with
      | null same why =>
          have equal := i32_inj (by omega) (by omega) (value.symm.trans same)
          omega
      | @seat slot' same low' high' held seated =>
          have small' : slot' < rt.nSlots := by
            rw [← placed.slots]
            exact placed.single.ok.table_seat_lt seated
          have equal := i32_inj (by omega) (by omega) (value.symm.trans same)
          subst equal
          rw [Holds, if_pos owns]
          apply after.kept.recorded_iff.mp after.recorded _ L found
          rw [(remap_own (s := s) io found callFits.pass).1]
          exact seated
  · have several : 1 < call.np := by
      by_contra single
      exact owns (owned_only unset single inside (mem_named low (by omega) listed))
    refine ⟨rt.zeroSlot, Nat.le_of_eq product.zero, ?_, ?_⟩
    · exact remap_foreign io found several position owns
    · rw [Holds, if_neg owns]
      apply after.null ?_ _ L found
      rw [remap_mapped io found]
      exact prepare_filled rt s call.il

end MoeStream
