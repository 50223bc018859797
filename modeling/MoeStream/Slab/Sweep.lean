import MoeStream.Foundation.Parts
import MoeStream.Slab.Exhaustion
import MoeStream.Slab.Recorded

/-!
# Expert Sweep

The passes of a sweep share out the experts of a batch, so a position is
answered by its expert in one of them and by the null expert in the others.
Before a pass the references of all passes of its layer are released, so it is
refused a slot only when its own share exceeds the slab.
-/

set_option autoImplicit false

namespace MoeStream

open Foundation.FixedWidth
open Foundation.Parts

/-! ## The shares -/

variable {rt : Runtime} {L : LayerSlabs} {ids : Ids} {np : Nat}

def Runtime.owned (rt : Runtime) (L : LayerSlabs) (ids : Ids) (np pass : Nat) : Finset Nat :=
  (inPass rt.sweepTest np pass (distinct ids.list L.gate.nExpert)).toFinset

theorem inPass_part {sweepTest : Int} (unset : sweepTest = 0) (np pass : Nat) (es : List Nat) :
    inPass sweepTest np pass es = part (es.length ⌈/⌉ np) pass es := by
  subst unset
  simp only [inPass, part, Nat.ceilDiv_eq_add_pred_div]
  rw [if_neg (by decide), if_neg (by decide)]
  generalize (es.length + np - 1) / np = per
  by_cases inside : pass * per ≤ es.length
  · rw [Nat.min_eq_right inside]
    apply List.take_eq_take_iff.mpr
    rw [List.length_drop]
    omega
  · have last : min es.length (pass * per) = es.length := Nat.min_eq_left (by omega)
    rw [last, List.drop_length, List.drop_eq_nil_of_le (by omega), List.take_nil, List.take_nil]

theorem distinct_nodup (es : List Int) (n : Nat) : (distinct es n).Nodup :=
  List.nodup_range.filter _

theorem distinct_toFinset (es : List Int) (n : Nat) : (distinct es n).toFinset = named n es := by
  ext e
  simp [distinct, named]

theorem distinct_length (es : List Int) (n : Nat) :
    (distinct es n).length = (named n es).card := by
  rw [← distinct_toFinset, List.toFinset_card_of_nodup (distinct_nodup es n)]

theorem mem_owned (unset : rt.sweepTest = 0) {pass e : Nat} :
    e ∈ rt.owned L ids np pass ↔
      e ∈ part ((named L.gate.nExpert ids.list).card ⌈/⌉ np) pass
        (distinct ids.list L.gate.nExpert) := by
  rw [Runtime.owned, inPass_part unset, distinct_length, List.mem_toFinset]

theorem owned_disjoint (unset : rt.sweepTest = 0) {i j : Nat} (different : i ≠ j) :
    Disjoint (rt.owned L ids np i) (rt.owned L ids np j) := by
  apply Finset.disjoint_left.mpr
  intro e first second
  exact parts_disjoint (distinct_nodup _ _) different ((mem_owned unset).mp first)
    ((mem_owned unset).mp second)

theorem exists_owned (unset : rt.sweepTest = 0) (positive : 0 < np) {e : Nat} :
    e ∈ named L.gate.nExpert ids.list ↔ ∃ pass, pass < np ∧ e ∈ rt.owned L ids np pass := by
  have enough : (distinct ids.list L.gate.nExpert).length ≤
      np * ((named L.gate.nExpert ids.list).card ⌈/⌉ np) := by
    rw [← distinct_length]
    exact length_le_ceil positive
  rw [← distinct_toFinset, List.mem_toFinset, mem_parts enough]
  simp only [mem_owned unset]

theorem owned_union (unset : rt.sweepTest = 0) (positive : 0 < np) :
    (Finset.range np).biUnion (rt.owned L ids np) = named L.gate.nExpert ids.list := by
  ext e
  rw [exists_owned unset positive]
  simp only [Finset.mem_biUnion, Finset.mem_range]

theorem owned_card_le (unset : rt.sweepTest = 0) (pass : Nat) :
    (rt.owned L ids np pass).card ≤ (named L.gate.nExpert ids.list).card ⌈/⌉ np := by
  rw [Runtime.owned, inPass_part unset, ← distinct_length]
  exact (List.toFinset_card_le _).trans (part_length_le _ _ _)

/-! ## One pass -/

variable {nExpert : Nat} {s : State} {call : Call} {e : Int}

/-- A position whose expert is not of the pass takes the null expert. -/
theorem remap_foreign (io : Io) (found : rt.remapped call.il = some L) (several : 1 < call.np)
    {n : Nat} (position : call.ids.list[n]? = some e)
    (foreign : e.toNat ∉ rt.owned L call.ids call.np call.pass) :
    (remap rt io s call).out[n]? = some (i32 rt.zeroSlot) := by
  rw [remap_mapped io found]
  apply placeAll_answer rt L call (prepare rt s call.il) call.ids.list position
  rw [step_silent]
  intro asks
  exact foreign (List.mem_toFinset.mpr (asks.2.2 several))

/-- A pass whose share fits into the slab refuses none of its positions. -/
theorem remap_share (io : Io) (counted : Counted rt nExpert s call.il)
    (found : rt.remapped call.il = some L) (experts : L.gate.nExpert = nExpert)
    (kept : (call.il : Int) < rt.dropFrom) (pass : call.pass < 8) (several : 1 < call.np)
    (few : (rt.owned L call.ids call.np call.pass).card ≤ rt.nSlots) :
    (remap rt io s call).state.exhausted = s.exhausted ∧
      ∀ (n : Nat) (e : Int), call.ids.list[n]? = some e → 0 ≤ e → e < nExpert →
        e.toNat ∈ rt.owned L call.ids call.np call.pass →
          ∃ slot, slot < rt.nSlots ∧ (remap rt io s call).out[n]? = some (i32 slot) := by
  have mine : ∀ k, Asks rt L call k → k.toNat ∈ rt.owned L call.ids call.np call.pass :=
    fun k asks => List.mem_toFinset.mpr (asks.2.2 several)
  constructor
  · rw [(remap_own io found pass).2.2]
    exact counted.unrefused experts kept pass few call.ids.list fun k _ => mine k
  · intro n e position low high member
    have asks : Asks rt L call e := by
      refine ⟨low, by omega, fun _ => ?_⟩
      exact List.mem_toFinset.mp member
    have tallied := counted.tallied experts kept pass (call.ids.list.take n) fun k _ => mine k
    obtain ⟨-, slot, small, answered⟩ := tallied.served experts kept few asks member
    refine ⟨slot, small, ?_⟩
    rw [remap_mapped io found]
    exact placeAll_answer rt L call (prepare rt s call.il) call.ids.list position answered

/-! ## A sweep -/

/-- The first `n` passes of a sweep over a layer. -/
def passes (io : Nat → Io) (il np : Nat) (ids : Ids) (n : Nat) : List (Io × Call) :=
  (List.range n).map fun pass => (io pass, ⟨il, pass, np, ids⟩)

def sweepPass (rt : Runtime) (io : Nat → Io) (il np : Nat) (ids : Ids) (s : State) (pass : Nat) :
    Remapped :=
  remap rt (io pass) (remaps rt s (passes io il np ids pass)) ⟨il, pass, np, ids⟩

/-- The `np` passes of a sweep that starts in `s`, each leaving `done pass`
behind, share out the batch and serve each of its positions once. -/
structure Reassembles (rt : Runtime) (nExpert : Nat) (L : LayerSlabs) (ids : Ids) (np : Nat)
    (s : State) (done : Nat → Remapped) : Prop where
  apart : ∀ i, i < np → ∀ j, j < np → i ≠ j →
    Disjoint (rt.owned L ids np i) (rt.owned L ids np j)
  whole : (Finset.range np).biUnion (rt.owned L ids np) = named nExpert ids.list
  share : ∀ pass, pass < np →
    (rt.owned L ids np pass).card ≤ (named nExpert ids.list).card ⌈/⌉ np
  once : ∀ (n : Nat) (e : Int), ids.list[n]? = some e → 0 ≤ e → e < nExpert →
    ∃ own, own < np ∧ ∀ pass, pass < np → pass ≠ own →
      (done pass).out[n]? = some (i32 rt.zeroSlot)
  fits : (named nExpert ids.list).card ⌈/⌉ np ≤ rt.nSlots → ∀ pass, pass < np →
    (done pass).state.exhausted = s.exhausted
  served : (named nExpert ids.list).card ⌈/⌉ np ≤ rt.nSlots →
    ∀ (n : Nat) (e : Int), ids.list[n]? = some e → 0 ≤ e → e < nExpert →
      ∃ own, own < np ∧
        (∃ slot, slot < rt.nSlots ∧ i32 slot ≠ i32 rt.zeroSlot ∧
          (done own).out[n]? = some (i32 slot)) ∧
        ∀ pass, pass < np → pass ≠ own → (done pass).out[n]? = some (i32 rt.zeroSlot)

theorem remaps_pass (rt : Runtime) (io : Nat → Io) (il np : Nat) (ids : Ids) (s : State)
    (n : Nat) : remaps rt s (passes io il np ids (n + 1)) =
      (sweepPass rt io il np ids s n).state := by
  simp only [remaps, passes, sweepPass, List.range_succ, List.map_append, List.foldl_append,
    List.map_cons, List.map_nil, List.foldl_cons, List.foldl_nil]

theorem Counted.passes {il : Nat} (counted : Counted rt nExpert s il)
    (found : rt.remapped il = some L) (experts : L.gate.nExpert = nExpert)
    (kept : (il : Int) < rt.dropFrom) (io : Nat → Io) {n : Nat} (eight : n ≤ 8) :
    Counted rt nExpert (MoeStream.remaps rt s (passes io il np ids n)) il := by
  apply counted.remaps found experts kept
  intro c member
  obtain ⟨pass, listed, rfl⟩ := List.mem_map.mp member
  have bound := List.mem_range.mp listed
  dsimp only
  omega

/-- A position is served by the pass that owns its expert, and by no other. -/
theorem exists_own_pass (unset : rt.sweepTest = 0) (several : 2 ≤ np) {il : Nat}
    (found : rt.remapped il = some L) (experts : L.gate.nExpert = nExpert) (io : Nat → Io)
    {n : Nat} (position : ids.list[n]? = some e) (low : 0 ≤ e) (high : e < nExpert) :
    ∃ own, own < np ∧ e.toNat ∈ rt.owned L ids np own ∧
      ∀ pass, pass < np → pass ≠ own →
        (sweepPass rt io il np ids s pass).out[n]? = some (i32 rt.zeroSlot) := by
  have member : e.toNat ∈ named L.gate.nExpert ids.list := by
    rw [experts]
    apply Finset.mem_filter.mpr
    refine ⟨Finset.mem_range.mpr (by omega), ?_⟩
    rw [Int.toNat_of_nonneg low]
    exact List.mem_of_getElem? position
  have positive : 0 < np := by omega
  obtain ⟨own, bound, mine⟩ := (exists_owned unset positive).mp member
  refine ⟨own, bound, mine, ?_⟩
  intro pass _ different
  have call : rt.remapped (Call.mk il pass np ids).il = some L := found
  apply remap_foreign (io pass) call several position
  intro foreign
  exact Finset.disjoint_left.mp (owned_disjoint unset different) foreign mine

/-- In any run of at most eight passes a call, the passes of a sweep reassemble
the batch. -/
theorem sweep_reassembles (shaped : Shaped rt nExpert) (unset : rt.sweepTest = 0) {il : Nat}
    (found : rt.remapped il = some L) (kept : (il : Int) < rt.dropFrom) (mem : Memory)
    (pre : List (Io × Call)) (eight : ∀ c ∈ pre, c.2.pass < 8) (ids : Ids)
    (several : 2 ≤ np) (most : np ≤ 8) (io : Nat → Io) :
    Reassembles rt nExpert L ids np (remaps rt (State.start rt nExpert mem) pre)
      (sweepPass rt io il np ids (remaps rt (State.start rt nExpert mem) pre)) := by
  have experts := shaped.same _ L (remapped_layer found)
  have counted := (Counted.start shaped mem il).remaps found experts kept pre eight
  generalize remaps rt (State.start rt nExpert mem) pre = s at counted ⊢
  have shares : ∀ pass, (rt.owned L ids np pass).card ≤
      (named nExpert ids.list).card ⌈/⌉ np := by
    intro pass
    rw [← experts]
    exact owned_card_le unset pass
  -- a pass of a sweep whose shares fit is itself served in full
  have pass : ∀ n, n < np → (named nExpert ids.list).card ⌈/⌉ np ≤ rt.nSlots →
      (sweepPass rt io il np ids s n).state.exhausted =
          (remaps rt s (passes io il np ids n)).exhausted ∧
        ∀ (i : Nat) (e : Int), ids.list[i]? = some e → 0 ≤ e → e < nExpert →
          e.toNat ∈ rt.owned L ids np n → ∃ slot, slot < rt.nSlots ∧
            (sweepPass rt io il np ids s n).out[i]? = some (i32 slot) := by
    intro n bound few
    have call : rt.remapped (Call.mk il n np ids).il = some L := found
    exact remap_share (io n) (counted.passes found experts kept io (by omega)) call experts kept
      (by dsimp only; omega) several ((shares n).trans few)
  refine ⟨fun i _ j _ => owned_disjoint unset, ?_, fun n _ => shares n, ?_, ?_, ?_⟩
  · rw [← experts]
    exact owned_union unset (by omega)
  · intro n e position low high
    obtain ⟨own, bound, -, others⟩ :=
      exists_own_pass (s := s) unset several found experts io position low high
    exact ⟨own, bound, others⟩
  · intro few n bound
    induction n with
    | zero => exact (pass 0 bound few).1
    | succ n ih =>
        rw [(pass (n + 1) bound few).1, remaps_pass]
        exact ih (by omega)
  · intro few n e position low high
    obtain ⟨own, bound, mine, others⟩ :=
      exists_own_pass (s := s) unset several found experts io position low high
    obtain ⟨slot, small, answered⟩ := (pass own bound few).2 n e position low high mine
    refine ⟨own, bound, ⟨slot, small, ?_, answered⟩, others⟩
    intro same
    have width := shaped.slots
    have zero := shaped.zero
    have equal : slot = rt.zeroSlot := i32_inj (by omega) (by omega) same
    omega

/-! Two experts and one slot, in two passes after a call in one. -/

theorem sweep_reassembles_pair :
    Reassembles pairRuntime 2 pairLayer pairCall.ids 2
      (remaps pairRuntime (State.start pairRuntime 2 fun _ => 255) [(Io.whole, pairCall)])
      (sweepPass pairRuntime (fun _ => Io.whole) 0 2 pairCall.ids
        (remaps pairRuntime (State.start pairRuntime 2 fun _ => 255) [(Io.whole, pairCall)])) :=
  sweep_reassembles pairRuntime_product.shaped rfl pair_remapped (by decide) (fun _ => 255)
    [(Io.whole, pairCall)] (by simp [pairCall]) pairCall.ids (by decide) (by decide)
    fun _ => Io.whole

end MoeStream
