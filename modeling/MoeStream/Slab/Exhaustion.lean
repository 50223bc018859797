import Mathlib.Data.Nat.ModEq
import MoeStream.Slab.Sizing
import MoeStream.Slab.Tally

/-!
# When the slab runs out of slots

A batch that names no more distinct experts than there are slots is served
whatever happened before, whether or not reads fail.  A batch whose first ids
are one more distinct expert than there are slots is not.  The number a batch
can name is the product of its tokens and `top_k`, so a configuration is safe
exactly when the largest batch routed to the slab stays within the slots.
-/

set_option autoImplicit false

namespace MoeStream

open Foundation.FixedWidth Foundation.FloatFormat

variable {rt : Runtime} {nExpert : Nat} {s : State} {L : LayerSlabs} {call : Call}

/-! ## A batch within the slots -/

/-- The loop after some positions of a batch that names only `es`. -/
structure Fitting (rt : Runtime) (nExpert : Nat) (es : Finset Nat) (exhausted : Nat)
    (p : Placing) : Prop where
  single : p.cache.Single
  experts : p.cache.cfg.nExpert = nExpert
  slots : p.cache.nSlot = rt.nSlots
  refs : ∀ e, p.cache.table.refs e ≤ p.held.count e
  heldIn : ∀ e ∈ p.held, e < nExpert ∧ e ∈ es
  same : p.exhausted = exhausted

def named (nExpert : Nat) (es : List Int) : Finset Nat :=
  (Finset.range nExpert).filter fun e => (e : Int) ∈ es

/-- Placing a batch that names no more experts than there are slots refuses
nobody. -/
theorem placing_fits (product : Product rt nExpert) (counted : Counted rt nExpert s call.il)
    (found : rt.remapped call.il = some L) (pass : call.pass < 8)
    (few : (named nExpert call.ids.list).card ≤ rt.nSlots) :
    Fitting rt nExpert (named nExpert call.ids.list) s.exhausted (placing rt L s call) := by
  have layer := remapped_layer found
  have experts := product.same _ L layer
  have kept := product.kept _ L layer
  have asked : ∀ e ∈ call.ids.list, Asks rt L call e → e.toNat ∈ named nExpert call.ids.list := by
    intro e listed asks
    obtain ⟨low, high, -⟩ := asks
    refine Finset.mem_filter.mpr ⟨Finset.mem_range.mpr (by omega), ?_⟩
    rw [Int.toNat_of_nonneg low]
    exact listed
  have tallied := counted.tallied experts kept pass call.ids.list asked
  exact ⟨tallied.housed.single, tallied.housed.experts, tallied.housed.slots, tallied.refs,
    tallied.heldIn, counted.unrefused experts kept pass few call.ids.list asked⟩

/-- One call within the slots: no slot runs out, and the next call may assume
the same. -/
theorem remap_fits (product : Product rt nExpert) (io : Io)
    (counted : ∀ il L, rt.remapped il = some L → Counted rt nExpert s il)
    (pass : call.pass < 8) (few : (named nExpert call.ids.list).card ≤ rt.nSlots) :
    (remap rt io s call).state.exhausted = s.exhausted ∧
      ∀ il L, rt.remapped il = some L → Counted rt nExpert (remap rt io s call).state il := by
  have next : ∀ il L, rt.remapped il = some L →
      Counted rt nExpert (remap rt io s call).state il := by
    intro il L found
    have layer := remapped_layer found
    exact (counted il L found).remap io found (product.same _ L layer) (product.kept _ L layer) pass
  refine ⟨?_, next⟩
  cases found : rt.remapped call.il with
  | none => rw [remap_unmapped io found]
  | some L =>
      exact (remap_own io found pass).2.2.trans
        (placing_fits product (counted _ L found) found pass few).same

theorem remaps_fit (product : Product rt nExpert)
    (counted : ∀ il L, rt.remapped il = some L → Counted rt nExpert s il)
    (calls : List (Io × Call)) (ok : ∀ c ∈ calls, c.2.pass < 8 ∧
      (named nExpert c.2.ids.list).card ≤ rt.nSlots) :
    (remaps rt s calls).exhausted = s.exhausted := by
  induction calls generalizing s with
  | nil => rfl
  | cons first rest ih =>
      obtain ⟨pass, few⟩ := ok first List.mem_cons_self
      obtain ⟨same, next⟩ := remap_fits product first.1 counted pass few
      have later := ih next fun c member => ok c (List.mem_cons_of_mem first member)
      exact later.trans same

/-! ## A batch beyond the slots -/

theorem place_counts {il : Nat} {p : Placing} (noop : rt.noop = 0)
    (kept : (il : Int) < rt.dropFrom) (owned : List Nat) {e : Int} (low : 0 ≤ e)
    (high : e < L.gate.nExpert) :
    (place rt L il 1 owned p e).exhausted = p.exhausted + 1 ∨
      ((place rt L il 1 owned p e).exhausted = p.exhausted ∧
        (place rt L il 1 owned p e).held = p.held ++ [e.toNat]) := by
  by_cases refused : (p.cache.acquire 0 e.toNat .demand).2.2 = NO_SLOT
  · left
    rw [place_refused owned low high refused]
  · right
    rw [place_granted owned noop kept low high refused]
    exact ⟨rfl, rfl⟩

theorem place_exhausted_le {il np : Nat} {p : Placing} (owned : List Nat) (e : Int) :
    p.exhausted ≤ (place rt L il np owned p e).exhausted := by
  simp only [place]
  split
  · exact Nat.le_refl _
  · split
    · split
      · exact Nat.le_succ _
      · split <;> exact Nat.le_refl _
    · exact Nat.le_refl _

theorem placeAll_exhausted_le (rt : Runtime) (L : LayerSlabs) (call : Call) (s : State)
    (es rest : List Int) :
    (placeAll rt L call s es).exhausted ≤ (placeAll rt L call s (es ++ rest)).exhausted := by
  induction rest using List.reverseRecOn with
  | nil => rw [List.append_nil]
  | append_singleton rest e ih =>
      rw [← List.append_assoc, placeAll_concat]
      exact ih.trans (place_exhausted_le _ e)

/-- In-range positions none of which ran out hold all their experts. -/
theorem placeAll_held (ready : Ready rt L call s) (noop : rt.noop = 0)
    (kept : (call.il : Int) < rt.dropFrom) (once : call.np = 1) (es : List Int)
    (inside : ∀ e ∈ es, 0 ≤ e ∧ e < L.gate.nExpert)
    (served : (placeAll rt L call s es).exhausted = s.exhausted) :
    (placeAll rt L call s es).held = es.map Int.toNat := by
  induction es using List.reverseRecOn with
  | nil => exact ready.released
  | append_singleton es e ih =>
      obtain ⟨low, high⟩ := inside e (List.mem_append_right _ (List.mem_singleton.mpr rfl))
      have least : s.exhausted ≤ (placeAll rt L call s es).exhausted :=
        placeAll_exhausted_le rt L call s [] es
      rw [placeAll_concat, once] at served ⊢
      rcases place_counts noop kept
        (inPass rt.sweepTest 1 call.pass (distinct call.ids.list L.gate.nExpert))
        low high (p := placeAll rt L call s es) with more | ⟨same, held⟩
      · rw [more] at served
        omega
      · rw [same] at served
        have before := ih (fun k member => inside k (List.mem_append_left _ member)) served
        rw [held, before, List.map_append]
        rfl

/-- One more distinct expert than there are slots cannot all be served. -/
theorem placeAll_spills (ready : Ready rt L call s) (noop : rt.noop = 0)
    (kept : (call.il : Int) < rt.dropFrom) (once : call.np = 1) {es : List Int}
    (inside : ∀ e ∈ es, 0 ≤ e ∧ e < L.gate.nExpert) (nodup : es.Nodup)
    (more : rt.nSlots < es.length) :
    s.exhausted < (placeAll rt L call s es).exhausted := by
  have least : s.exhausted ≤ (placeAll rt L call s es).exhausted :=
    placeAll_exhausted_le rt L call s [] es
  apply Nat.lt_of_le_of_ne least
  intro served
  have held := placeAll_held ready noop kept once es inside served.symm
  obtain ⟨placed, _⟩ := placeAll_ok ready noop kept once es (by
    intro e _ _
    have single := List.nodup_iff_count_le_one.mp nodup e
    omega)
  have distinctHeld : (es.map Int.toNat).Nodup := by
    apply List.Nodup.map_on ?_ nodup
    intro e member e' member' same
    have low := (inside e member).1
    have low' := (inside e' member').1
    omega
  have seated : (es.map Int.toNat).toFinset ⊆
      (Finset.range (placeAll rt L call s es).cache.total).filter
        fun i => (placeAll rt L call s es).cache.table.seat i ≠ none := by
    intro i listed
    have member : i ∈ (placeAll rt L call s es).held := by
      rw [held]
      exact List.mem_toFinset.mp listed
    apply Finset.mem_filter.mpr
    refine ⟨?_, placed.served.heldSeat i member⟩
    rw [Finset.mem_range, placed.single.total_eq, placed.experts]
    exact placed.heldIn i member
  have card := Finset.card_le_card seated
  have room := placed.single.seated_card
  rw [List.toFinset_card_of_nodup distinctHeld, List.length_map] at card
  have slots := placed.slots
  omega

/-- A first call whose ids begin with one more distinct expert than there are
slots leaves a position without a slot. -/
theorem remap_spills (product : Product rt nExpert) (mem : Memory) (io : Io)
    (found : rt.remapped call.il = some L) (once : call.np = 1) (pass : call.pass < 8)
    {es rest : List Int} (ids : call.ids.list = es ++ rest)
    (inside : ∀ e ∈ es, 0 ≤ e ∧ e < nExpert) (nodup : es.Nodup)
    (more : rt.nSlots < es.length) :
    0 < (remap rt io (State.start rt nExpert mem) call).state.exhausted := by
  have layer := remapped_layer found
  have inv := (start_inv product mem).layer _ L found
  have ready := prepare_ready product layer inv call rfl pass
  have experts := product.same _ L layer
  have spills := placeAll_spills ready product.noop (product.kept _ L layer) once
    (by rw [experts]; exact inside) nodup more
  have least := placeAll_exhausted_le rt L call
    (prepare rt (State.start rt nExpert mem) call.il) es rest
  rw [(remap_own io found pass).2.2]
  simp only [placing]
  rw [ids]
  omega

/-! ## The largest batch -/

def packIds (ne0 ne1 : Nat) (value : Nat → Nat) : Ids :=
  ⟨ne0, ne1, 4, 4 * ne0, fun off => UInt8.ofNat (value (off / 4) / 256 ^ (off % 4))⟩

theorem le32_pack {value : Nat → Nat} {p : Nat} (small : value p < 2 ^ 31) :
    le32 (fun off => UInt8.ofNat (value (off / 4) / 256 ^ (off % 4))) (4 * p) = value p := by
  have quotients : 4 * p / 4 = p ∧ (4 * p + 1) / 4 = p ∧ (4 * p + 2) / 4 = p ∧
      (4 * p + 3) / 4 = p := by omega
  have remainders : 4 * p % 4 = 0 ∧ (4 * p + 1) % 4 = 1 ∧ (4 * p + 2) % 4 = 2 ∧
      (4 * p + 3) % 4 = 3 := by omega
  simp only [le32, quotients, remainders, UInt8.toNat_ofNat']
  omega

theorem packIds_at {ne0 ne1 : Nat} {value : Nat → Nat} (small : ∀ p, value p < 2 ^ 31)
    (j k : Nat) : (packIds ne0 ne1 value).at j k = (value (j * ne0 + k) : Int) := by
  have place : j * (4 * ne0) + k * 4 = 4 * (j * ne0 + k) := by
    rw [Nat.mul_left_comm, Nat.mul_comm k, ← Nat.mul_add]
  simp only [Ids.at, packIds]
  rw [place, le32_pack (small _)]
  exact i32_eq (small _)

@[simp] theorem Ids.list_length (a : Ids) : a.list.length = a.ne1 * a.ne0 := by
  simp [Ids.list]

theorem packIds_list {ne0 ne1 : Nat} {value : Nat → Nat} (small : ∀ p, value p < 2 ^ 31) :
    (packIds ne0 ne1 value).list = (List.range (ne1 * ne0)).map fun p : Nat => (value p : Int) := by
  apply List.ext_getElem?
  intro p
  by_cases inside : p < ne1 * ne0
  · have width : 0 < ne0 := Nat.pos_of_ne_zero fun zero => by
      rw [zero, Nat.mul_zero] at inside
      exact absurd inside (Nat.not_lt_zero p)
    have column := Nat.mod_lt p width
    have row : p / ne0 < ne1 := (Nat.div_lt_iff_lt_mul width).mpr inside
    have split : p / ne0 * ne0 + p % ne0 = p := by
      rw [Nat.mul_comm]
      exact Nat.div_add_mod p ne0
    have element := (packIds ne0 ne1 value).list_getElem row column
    rw [packIds_at small] at element
    dsimp only [packIds] at element
    rw [split] at element
    rw [List.getElem?_map, List.getElem?_range inside]
    exact element
  · have length : (packIds ne0 ne1 value).list.length = ne1 * ne0 := Ids.list_length _
    rw [List.getElem?_eq_none (by omega), List.getElem?_eq_none (by simp; omega)]

/-- As many tokens as may go to the slab, each with the next `top_k` experts. -/
def largestCall (z : Sizing) (pfReady : Bool) (il : Nat) : Call :=
  ⟨il, 0, 1, packIds z.topK (z.limit pfReady) fun p => p % z.nExpert⟩

theorem largestCall_routed {z : Sizing} (known : 0 < z.topK) (few : z.topK ≤ z.nExpert)
    (narrow : z.nExpert ≤ 2 ^ 31) (pfReady : Bool) (il : Nat) :
    Routed z pfReady (largestCall z pfReady il) := by
  have positive : 0 < z.nExpert := by omega
  have below : ∀ p, p % z.nExpert < z.nExpert := fun p => Nat.mod_lt p positive
  have small : ∀ p, p % z.nExpert < 2 ^ 31 := fun p => (below p).trans_le narrow
  refine ⟨⟨rfl, rfl⟩, Nat.le_refl _, rfl, ?_, ?_⟩
  · intro j k _ _
    have bound := below (j * z.topK + k)
    simp only [largestCall]
    rw [packIds_at small]
    exact ⟨Int.natCast_nonneg _, by exact_mod_cast bound⟩
  · intro j k k' _ column column' same
    simp only [largestCall] at same column column'
    rw [packIds_at small, packIds_at small] at same
    have residues : (j * z.topK + k) % z.nExpert = (j * z.topK + k') % z.nExpert := by
      exact_mod_cast same
    have cancelled : Nat.ModEq z.nExpert k k' := Nat.ModEq.add_left_cancel' _ residues
    exact cancelled.eq_of_lt_of_lt (column.trans_le few) (column'.trans_le few)

/-- The largest batch of an unsafe configuration begins with one more expert
than there are slots. -/
theorem largestCall_ids {z : Sizing} (known : 0 < z.topK) (few : z.topK ≤ z.nExpert)
    (narrow : z.nExpert ≤ 2 ^ 31) {pfReady : Bool} (il : Nat)
    (beyond : z.slots < min z.nExpert (z.limit pfReady * z.topK)) :
    ∃ rest, (largestCall z pfReady il).ids.list =
      (List.range (z.slots + 1)).map (fun p : Nat => (p : Int)) ++ rest := by
  have positive : 0 < z.nExpert := by omega
  have small : ∀ p, p % z.nExpert < 2 ^ 31 := fun p => (Nat.mod_lt p positive).trans_le narrow
  obtain ⟨more, total⟩ : ∃ more, z.limit pfReady * z.topK = z.slots + 1 + more :=
    ⟨z.limit pfReady * z.topK - (z.slots + 1), by omega⟩
  simp only [largestCall]
  rw [packIds_list small, total, List.range_add, List.map_append]
  refine ⟨_, congrArg (· ++ _) (List.map_congr_left ?_)⟩
  intro p member
  have bound := List.mem_range.mp member
  rw [Nat.mod_eq_of_lt (by omega)]

/-! ## Safe configurations -/

theorem named_card {es : List Int} : (named nExpert es).card ≤ min nExpert es.length := by
  apply Nat.le_min.mpr
  constructor
  · have subset := Finset.card_filter_le (Finset.range nExpert) fun e => (e : Int) ∈ es
    rwa [Finset.card_range] at subset
  · have image : named nExpert es ⊆ (es.map Int.toNat).toFinset := by
      intro e member
      apply List.mem_toFinset.mpr
      exact List.mem_map.mpr ⟨(e : Int), (Finset.mem_filter.mp member).2, Int.toNat_natCast e⟩
    have card := (Finset.card_le_card image).trans (List.toFinset_card_le _)
    rwa [List.length_map] at card

theorem start_counted (product : Product rt nExpert) (mem : Memory) (il : Nat) (L : LayerSlabs)
    (found : rt.remapped il = some L) : Counted rt nExpert (State.start rt nExpert mem) il :=
  ((start_inv product mem).layer il L found).counted

/-- Every run of batches routed to the slab finds a slot for every expert it
names, exactly in the safe configurations. -/
theorem exhausted_never_iff {z : Sizing} (product : Product rt z.nExpert)
    (sized : rt.nSlots = z.slots) (known : 0 < z.topK) (few : z.topK ≤ z.nExpert)
    (narrow : z.nExpert ≤ 2 ^ 31) (pfReady : Bool) (mem : Memory) {il : Nat}
    (found : rt.remapped il = some L) :
    (∀ calls : List (Io × Call), (∀ c ∈ calls, Routed z pfReady c.2) →
      (remaps rt (State.start rt z.nExpert mem) calls).exhausted = 0) ↔ z.Safe pfReady := by
  rw [z.safe_iff known few]
  constructor
  · intro served
    by_contra beyond
    obtain ⟨rest, ids⟩ := largestCall_ids known few narrow il (Nat.lt_of_not_le beyond)
    have spills := remap_spills product mem Io.whole found rfl (Nat.succ_pos 7) ids
      (by
        intro e member
        obtain ⟨p, listed, rfl⟩ := List.mem_map.mp member
        have bound := List.mem_range.mp listed
        omega)
      (List.nodup_range.map Nat.cast_injective) (by simp [sized])
    have none := served [(Io.whole,
      largestCall z pfReady il)] (by
        intro c member
        rw [List.mem_singleton.mp member]
        exact largestCall_routed known few narrow pfReady il)
    exact absurd none (Nat.ne_of_gt spills)
  · intro within calls routed
    apply remaps_fit product (fun il L found => start_counted product mem il L found) calls
    intro c member
    have call := routed c member
    refine ⟨by rw [call.once.2]; decide, ?_⟩
    have card : (named z.nExpert c.2.ids.list).card ≤ _ := named_card
    have length := Ids.list_length c.2.ids
    rw [call.columns] at length
    have tokens := Nat.mul_le_mul_right z.topK call.tokens
    rw [sized]
    omega

/-! A model of 128 experts, 8 to a token, with `MOESTREAM_CACHE_FRAC=0.65`. -/

def coderSizing : Sizing := ⟨128, 8, 0, 2, .fixed (double (65 / 100))⟩

theorem coderSizing_sizes : coderSizing.slots = 83 ∧ coderSizing.threshold = 11 := by
  decide +kernel

def coderLayer : LayerSlabs :=
  ⟨⟨true, 0, 1, 128, 0⟩, ⟨true, 128, 1, 128, 0⟩, ⟨true, 256, 1, 128, 0⟩, true⟩

def coderRuntime : Runtime where
  enabled := true
  noop := 0
  nCache := 1
  layers := fun il => if il = 0 then some coderLayer else none
  nSlots := 83
  zeroSlot := 83
  maxb := 1
  dropFrom := 2 ^ 30
  sweepTest := 0
  shards := ⟨fun _ => true, fun _ off => UInt8.ofNat off⟩
  hostPtr := fun _ _ _ => true

theorem coderRuntime_layer {il : Nat} {L : LayerSlabs} (layer : coderRuntime.layers il = some L) :
    il = 0 ∧ L = coderLayer := by
  simp only [coderRuntime] at layer
  split at layer
  · rename_i first
    exact ⟨first, (Option.some.inj layer).symm⟩
  · cases layer

theorem coderRuntime_product : Product coderRuntime coderSizing.nExpert where
  enabled := rfl
  noop := rfl
  zero := rfl
  positive := by decide
  slots := by decide
  experts := by decide
  same := by
    intro il L layer
    rw [(coderRuntime_layer layer).2]
    rfl
  kept := by
    intro il L layer
    rw [(coderRuntime_layer layer).1]
    decide
  width := by
    intro il L layer role
    rw [(coderRuntime_layer layer).2]
    cases role <;> decide

/-- Eleven tokens, which the threshold sends to the slab, with eight experts
each, all of them different: one position finds no slot. -/
theorem coder_exhausted :
    Routed coderSizing true (largestCall coderSizing true 0) ∧
      (remap coderRuntime Io.whole
        (State.start coderRuntime 128 fun _ => 0) (largestCall coderSizing true 0)).state.exhausted
          ≠ 0 := by
  have known : 0 < coderSizing.topK := by decide
  have few : coderSizing.topK ≤ coderSizing.nExpert := by decide
  have narrow : coderSizing.nExpert ≤ 2 ^ 31 := by decide
  have slots : coderRuntime.nSlots = 83 := rfl
  have beyond : coderSizing.slots <
      min coderSizing.nExpert (coderSizing.limit true * coderSizing.topK) := by
    have limit : coderSizing.limit true = coderSizing.threshold := rfl
    rw [limit, coderSizing_sizes.1, coderSizing_sizes.2]
    decide
  refine ⟨largestCall_routed known few narrow true 0, ?_⟩
  obtain ⟨rest, ids⟩ := largestCall_ids known few narrow 0 beyond
  rw [coderSizing_sizes.1] at ids
  apply Nat.ne_of_gt
  apply remap_spills coderRuntime_product (fun _ => 0) _
    rfl rfl (Nat.succ_pos 7) ids
  · intro e member
    obtain ⟨p, listed, rfl⟩ := List.mem_map.mp member
    have bound := List.mem_range.mp listed
    have experts : coderSizing.nExpert = 128 := rfl
    omega
  · exact List.nodup_range.map Nat.cast_injective
  · simp [slots]

/-- Without the arena the same model is safe: two tokens name 16 experts. -/
theorem coder_served :
    (remaps coderRuntime (State.start coderRuntime coderSizing.nExpert fun _ => 0)
      [(Io.whole,
        largestCall coderSizing false 0)]).exhausted = 0 := by
  have known : 0 < coderSizing.topK := by decide
  have few : coderSizing.topK ≤ coderSizing.nExpert := by decide
  have narrow : coderSizing.nExpert ≤ 2 ^ 31 := by decide
  have safe : coderSizing.Safe false := by
    right
    rw [coderSizing_sizes.1]
    decide
  have found : coderRuntime.remapped 0 = some coderLayer := rfl
  apply (exhausted_never_iff coderRuntime_product coderSizing_sizes.1.symm known few narrow false
    (fun _ => 0) found).mpr safe
  intro c member
  rw [List.mem_singleton.mp member]
  exact largestCall_routed known few narrow false 0

end MoeStream
