import MoeStream.Slab.Placing

/-!
# The remap serves what it hands out

Between calls every layer satisfies `LayerInv`: the references of its cache are
those the layer holds, and every seat of the table holds its expert's bytes in
all three slabs.  A call re-establishes it for its own layer and cannot reach
the slabs of another.
-/

set_option autoImplicit false

namespace MoeStream

open Foundation.FixedWidth
open Foundation.SeatTable
open Foundation.Writes
open ExpertCache

variable {rt : Runtime} {nExpert : Nat} {s : State} {il : Nat} {L : LayerSlabs}

structure LayerInv (rt : Runtime) (nExpert : Nat) (s : State) (il : Nat) (L : LayerSlabs) :
    Prop where
  single : (s.cache il).Single
  experts : (s.cache il).cfg.nExpert = nExpert
  slots : (s.cache il).nSlot = rt.nSlots
  refs : ∀ e, (s.cache il).table.refs e = (heldBy s il).count e
  heldIn : ∀ e ∈ heldBy s il, e < nExpert
  loaded : ∀ e slot, (s.cache il).table.seat e = some slot →
    Loaded rt.shards il L s.mem slot e

structure Inv (rt : Runtime) (nExpert : Nat) (s : State) : Prop where
  layer : ∀ il L, rt.remapped il = some L → LayerInv rt nExpert s il L
  stage : s.stage = 0 ∨ s.stage = rt.maxb * 3 * 32

theorem remapped_layer (remapped : rt.remapped il = some L) : rt.layers il = some L := by
  simp only [Runtime.remapped] at remapped
  split at remapped
  · cases remapped
  · cases found : rt.layers il with
    | none => simp [found] at remapped
    | some L' =>
        simp only [found] at remapped
        split at remapped
        · exact remapped
        · cases remapped

theorem start_inv (product : Product rt nExpert) (mem : Memory) :
    Inv rt nExpert (State.start rt nExpert mem) := by
  refine ⟨fun il L _ => ?_, Or.inl rfl⟩
  have seats : ∀ i, (init (cacheConfig nExpert rt.nSlots)).table.seat i = none := by
    intro i
    unfold table below
    simp only
    split <;> rfl
  have refs : ∀ i, (init (cacheConfig nExpert rt.nSlots)).table.refs i = 0 := by
    intro i
    unfold table below
    simp only
    split <;> rfl
  have positive := product.positive
  refine ⟨Single.initial rfl, u32_eq product.experts, ?_, ?_, ?_, ?_⟩
  · unfold State.start init cacheConfig
    simp only
    rw [if_pos (by omega)]
    exact u32_eq product.slots
  · intro e
    rw [show heldBy (State.start rt nExpert mem) il = [] from rfl]
    exact refs e
  · simp [State.start, heldBy]
  · intro e slot seated
    rw [show (State.start rt nExpert mem).cache il = init (cacheConfig nExpert rt.nSlots) from rfl,
      seats] at seated
    cases seated

/-! ## Before the positions -/

theorem ensureZeroSlot_mem (zero : rt.zeroSlot = rt.nSlots) {role : Role} {slot i : Nat}
    (small : slot < rt.nSlots)
    (inside : ∀ L, rt.layers il = some L → i < (L.role role).expertBytes) (width : Nat)
    (same : ∀ L, rt.layers il = some L → width = (L.role role).expertBytes) :
    (ensureZeroSlot rt s).mem (.slab il role (slot * width + i)) =
      s.mem (.slab il role (slot * width + i)) := by
  simp only [ensureZeroSlot]
  split
  · rfl
  · simp only
    cases layer : rt.layers il with
    | none => rfl
    | some L =>
        have bound := inside L layer
        rw [same L layer]
        have below : slot * (L.role role).expertBytes + i <
            rt.zeroSlot * (L.role role).expertBytes := by
          rw [zero]
          calc slot * (L.role role).expertBytes + i
              < slot * (L.role role).expertBytes + (L.role role).expertBytes := by omega
            _ = (slot + 1) * (L.role role).expertBytes := (Nat.succ_mul _ _).symm
            _ ≤ rt.nSlots * (L.role role).expertBytes := Nat.mul_le_mul_right _ small
        simp only
        rw [if_neg]
        omega

theorem ensureZeroSlot_loaded (zero : rt.zeroSlot = rt.nSlots) (layer : rt.layers il = some L)
    {slot e : Nat} (small : slot < rt.nSlots) (loaded : Loaded rt.shards il L s.mem slot e) :
    Loaded rt.shards il L (ensureZeroSlot rt s).mem slot e := by
  intro role i inside
  have same : ∀ L', rt.layers il = some L' → L' = L := fun L' other =>
    Option.some.inj (other.symm.trans layer)
  rw [ensureZeroSlot_mem zero small]
  · exact loaded role i inside
  · intro L' other
    rw [same L' other]
    exact inside
  · intro L' other
    rw [same L' other]

theorem ensureZeroSlot_rest (rt : Runtime) (s : State) :
    (ensureZeroSlot rt s).cache = s.cache ∧ (ensureZeroSlot rt s).held = s.held ∧
      (ensureZeroSlot rt s).stage = s.stage := by
  simp only [ensureZeroSlot]
  split <;> exact ⟨rfl, rfl, rfl⟩

theorem heldBy_congr {s s' : State} (same : ∀ pass, pass < 8 →
    s'.held (il * 8 + pass) = s.held (il * 8 + pass)) : heldBy s' il = heldBy s il := by
  simp only [heldBy]
  refine List.flatMap_congr ?_
  intro pass member
  exact same pass (List.mem_range.mp member)

theorem prepare_other (rt : Runtime) (s : State) {il' : Nat} (different : il' ≠ il) :
    (prepare rt s il).cache il' = s.cache il' ∧ heldBy (prepare rt s il) il' = heldBy s il' := by
  obtain ⟨cache, held, _⟩ := ensureZeroSlot_rest rt s
  refine ⟨?_, ?_⟩
  · unfold prepare releaseHeld
    simp only
    rw [Function.update_of_ne different, cache]
  · refine heldBy_congr ?_
    intro pass bound
    unfold prepare releaseHeld
    simp only
    rw [if_neg (by omega), held]

theorem prepare_held (rt : Runtime) (s : State) {pass : Nat} (bound : pass < 8) :
    (prepare rt s il).held (il * 8 + pass) = [] := by
  unfold prepare releaseHeld
  simp only
  rw [if_pos (by omega)]

/-- What the cache of a layer and its held references are between calls. -/
structure Counted (rt : Runtime) (nExpert : Nat) (s : State) (il : Nat) : Prop where
  single : (s.cache il).Single
  experts : (s.cache il).cfg.nExpert = nExpert
  slots : (s.cache il).nSlot = rt.nSlots
  refs : ∀ e, (s.cache il).table.refs e ≤ (heldBy s il).count e
  heldIn : ∀ e ∈ heldBy s il, e < nExpert

theorem LayerInv.counted (inv : LayerInv rt nExpert s il L) : Counted rt nExpert s il :=
  ⟨inv.single, inv.experts, inv.slots, fun e => Nat.le_of_eq (inv.refs e), inv.heldIn⟩

structure Released (rt : Runtime) (nExpert : Nat) (before after : ExpertCache) : Prop where
  single : after.Single
  experts : after.cfg.nExpert = nExpert
  slots : after.nSlot = rt.nSlots
  idle : ∀ e, after.table.refs e = 0
  seats : after.table.seat = before.table.seat

theorem Counted.released (counted : Counted rt nExpert s il) :
    Released rt nExpert (s.cache il) ((prepare rt s il).cache il) := by
  obtain ⟨cache, held, _⟩ := ensureZeroSlot_rest rt s
  have inside : ∀ e ∈ heldBy s il, e < (s.cache il).cfg.nExpert := by
    intro e member
    rw [counted.experts]
    exact counted.heldIn e member
  have sameHeld : heldBy (ensureZeroSlot rt s) il = heldBy s il :=
    heldBy_congr fun pass _ => by rw [held]
  have released : (prepare rt s il).cache il =
      (heldBy s il).foldl (fun c e => c.release 0 e) (s.cache il) := by
    unfold prepare releaseHeld
    simp only
    rw [Function.update_self, sameHeld, cache]
  obtain ⟨ok, cfg, nSlot, quota, seat, refs⟩ :=
    counted.single.ok.releases counted.single.layer (heldBy s il) inside
  have index : (s.cache il).idx 0 = id := by
    funext e
    exact idx_zero _ e
  rw [released]
  refine ⟨counted.single.releases _ inside, ?_, ?_, ?_, seat⟩
  · rw [cfg, counted.experts]
  · rw [nSlot, counted.slots]
  · intro e
    have most := counted.refs e
    rw [refs, index, List.map_id]
    omega

variable {call : Call}

/-- A layer whose references are counted and whose seats hold their experts is
ready once the references of the last time are released. -/
theorem Counted.ready (counted : Counted rt nExpert s call.il) (product : Product rt nExpert)
    (layer : rt.layers call.il = some L)
    (loaded : ∀ e slot, (s.cache call.il).table.seat e = some slot →
      Loaded rt.shards call.il L s.mem slot e) (pass : call.pass < 8) :
    Ready rt L call (prepare rt s call.il) := by
  have released := counted.released
  refine ⟨released.single, ?_, released.slots, released.idle, prepare_held rt s pass, ?_⟩
  · rw [released.experts, product.same _ L layer]
  · intro e slot seated
    rw [released.seats] at seated
    have small : slot < rt.nSlots := by
      rw [← counted.slots]
      exact counted.single.ok.table_seat_lt seated
    exact ensureZeroSlot_loaded product.zero layer small (loaded e slot seated)

theorem prepare_ready (product : Product rt nExpert) (layer : rt.layers il = some L)
    (inv : LayerInv rt nExpert s il L) (call : Call) (own : call.il = il) (pass : call.pass < 8) :
    Ready rt L call (prepare rt s il) := by
  subst own
  exact inv.counted.ready product layer inv.loaded pass

/-! ## One call -/

/-- What a call of the product configuration comes with: one pass, fewer than
65536 references to any one expert, and reads that come back whole. -/
structure CallOk (rt : Runtime) (nExpert : Nat) (io : Io) (call : Call) : Prop where
  once : call.np = 1
  pass : call.pass < 8
  few : ∀ e : Nat, e < nExpert → call.ids.list.count (e : Int) < 2 ^ 16
  complete : ∀ L, rt.remapped call.il = some L → io.Complete rt.shards L

def placing (rt : Runtime) (L : LayerSlabs) (s : State) (call : Call) : Placing :=
  placeAll rt L call (prepare rt s call.il) call.ids.list

variable {io : Io}

theorem flatMap_one {β : Type} (f : Nat → List β) {n pass : Nat} (bound : pass < n)
    (others : ∀ q, q < n → q ≠ pass → f q = []) : (List.range n).flatMap f = f pass := by
  induction n with
  | zero => exact absurd bound (Nat.not_lt_zero pass)
  | succ n ih =>
      rw [List.range_succ, List.flatMap_append, List.flatMap_singleton]
      by_cases last : pass = n
      · subst last
        have none : (List.range pass).flatMap f = [] := by
          refine List.flatMap_eq_nil_iff.mpr ?_
          intro q member
          have small := List.mem_range.mp member
          exact others q (by omega) (by omega)
        rw [none, List.nil_append]
      · rw [ih (by omega) fun q small different => others q (by omega) different,
          others n (by omega) (Ne.symm last), List.append_nil]

theorem remap_mapped (io : Io) (found : rt.remapped call.il = some L) :
    remap rt io s call =
      let p := placing rt L s call
      let stage := stageSize rt call.il (prepare rt s call.il) p.pend
      let read := readBatches rt.shards call.il rt.maxb L io (rt.hostPtr call.il)
        (if rt.maxb = 0 then 0 else stage / rt.maxb) p.pend.length 0 p.pend
        (prepare rt s call.il).mem
      { state :=
          { cache := Function.update (prepare rt s call.il).cache call.il p.cache
            held := Function.update (prepare rt s call.il).held (call.il * 8 + call.pass) p.held
            mem := read.1
            stage := stage
            zeroFilled := (prepare rt s call.il).zeroFilled
            exhausted := p.exhausted
            demand := p.demand
            dropped := p.dropped }
        out := p.out
        batches := read.2 } := by
  simp only [remap, found]
  rfl

/-- The caches and references a call leaves, whatever its reads do. -/
theorem remap_own (io : Io) (found : rt.remapped call.il = some L) (pass : call.pass < 8) :
    (remap rt io s call).state.cache call.il = (placing rt L s call).cache ∧
      heldBy (remap rt io s call).state call.il = (placing rt L s call).held ∧
      (remap rt io s call).state.exhausted = (placing rt L s call).exhausted := by
  rw [remap_mapped io found]
  refine ⟨Function.update_self _ _ _, ?_, rfl⟩
  simp only [heldBy]
  rw [flatMap_one _ pass, Function.update_self]
  intro q bound different
  rw [Function.update_of_ne (by omega)]
  exact prepare_held rt s bound

theorem remap_other (io : Io) (found : rt.remapped call.il = some L) (pass : call.pass < 8)
    (own : il ≠ call.il) :
    (remap rt io s call).state.cache il = s.cache il ∧
      heldBy (remap rt io s call).state il = heldBy s il := by
  obtain ⟨cache, held⟩ := prepare_other rt s own
  rw [remap_mapped io found]
  refine ⟨?_, ?_⟩
  · rw [← cache]
    exact Function.update_of_ne own _ _
  · rw [← held]
    refine heldBy_congr ?_
    intro q bound
    exact Function.update_of_ne (by omega) _ _

theorem remap_unmapped (io : Io) (found : rt.remapped call.il = none) :
    (remap rt io s call).state = s := by
  simp only [remap, found]

theorem stage_room (rt : Runtime) (il : Nat) (s : State)
    (stage : s.stage = 0 ∨ s.stage = rt.maxb * 3 * 32)
    (pend : List (Nat × Nat)) :
    (stageSize rt il s pend = 0 ∨ stageSize rt il s pend = rt.maxb * 3 * 32) ∧
      (3 ≤ (if rt.maxb = 0 then 0 else stageSize rt il s pend / rt.maxb) ∨
        (∀ p ∈ pend, stageNeed (rt.hostPtr il) p.2 = 0) ∨ rt.maxb = 0) := by
  by_cases empty : rt.maxb = 0
  · refine ⟨?_, Or.inr (Or.inr empty)⟩
    simp only [stageSize]
    simp [empty] at stage ⊢
    exact stage
  · have parts : rt.maxb * 3 * 32 / rt.maxb = 96 := by
      rw [Nat.mul_assoc]
      exact Nat.mul_div_cancel_left _ (Nat.pos_of_ne_zero empty)
    rw [if_neg empty]
    simp only [stageSize]
    split
    · refine ⟨Or.inr rfl, Or.inl ?_⟩
      rw [parts]
      decide
    · rename_i untouched
      refine ⟨stage, ?_⟩
      rcases stage with none | allocated
      · refine Or.inr (Or.inl ?_)
        intro p member
        by_contra needed
        refine untouched ⟨none, empty, ?_⟩
        exact List.any_eq_true.mpr ⟨p, member, decide_eq_true needed⟩
      · refine Or.inl ?_
        rw [allocated, parts]
        decide

structure Outcome (rt : Runtime) (L : LayerSlabs) (io : Io) (s : State) (call : Call) : Prop where
  placed : PlacingOk rt L call.il (prepare rt s call.il).mem call.ids.list (placing rt L s call)
  stage : (remap rt io s call).state.stage = 0 ∨
    (remap rt io s call).state.stage = rt.maxb * 3 * 32
  loaded : (∀ e slot, (e, slot) ∈ (placing rt L s call).pend →
      Loaded rt.shards call.il L (remap rt io s call).state.mem slot e) ↔
    AllArrive rt.shards call.il rt.maxb L io.pread (remap rt io s call).batches
      (prepare rt s call.il).mem
  frame : ∀ cell, Outside call.il L ((placing rt L s call).pend.map Prod.snd) cell →
    (remap rt io s call).state.mem cell = (prepare rt s call.il).mem cell
  jobs : ∀ jobs ∈ (remap rt io s call).batches, ∀ job ∈ jobs,
    (job.expert, job.slot) ∈ (placing rt L s call).pend

theorem PlacingOk.outcome
    (placed : PlacingOk rt L call.il (prepare rt s call.il).mem call.ids.list (placing rt L s call))
    (product : Product rt nExpert) (found : rt.remapped call.il = some L)
    (stage : s.stage = 0 ∨ s.stage = rt.maxb * 3 * 32) (fits : io.Fits rt.shards L) :
    Outcome rt L io s call := by
  have same : (prepare rt s call.il).stage = s.stage := (ensureZeroSlot_rest rt s).2.2
  obtain ⟨sized, room⟩ := stage_room rt call.il (prepare rt s call.il)
    (by rw [same]; exact stage) (placing rt L s call).pend
  obtain ⟨read, frame, inPend⟩ := readBatches_arrive fits
    (product.width _ L (remapped_layer found)) (placing rt L s call).pend.length 0
    (placing rt L s call).pend (prepare rt s call.il).mem (Nat.le_refl _)
    placed.served.dueSeats room
  refine ⟨placed, ?_, ?_, ?_, ?_⟩ <;> rw [remap_mapped io found]
  · exact sized
  · exact read
  · exact frame
  · exact inPend

structure Called (rt : Runtime) (L : LayerSlabs) (s : State) (call : Call) (r : Remapped) :
    Prop where
  placed : PlacingOk rt L call.il (prepare rt s call.il).mem call.ids.list (placing rt L s call)
  answered : ∀ n e, call.ids.list[n]? = some e → ∃ v, r.out[n]? = some v ∧
    Answered rt L (placing rt L s call)
      (placeAll rt L call (prepare rt s call.il) (call.ids.list.take n)).cache e v
  stage : r.state.stage = 0 ∨ r.state.stage = rt.maxb * 3 * 32
  loaded : ∀ e slot, (placing rt L s call).cache.table.seat e = some slot →
    Loaded rt.shards call.il L r.state.mem slot e
  frame : ∀ il' role off, il' ≠ call.il →
    r.state.mem (.slab il' role off) = (prepare rt s call.il).mem (.slab il' role off)
  targets : ∀ jobs ∈ r.batches, ∀ job ∈ jobs, job.slot < rt.nSlots

theorem remap_called (product : Product rt nExpert) (inv : Inv rt nExpert s)
    (callOk : CallOk rt nExpert io call) (found : rt.remapped call.il = some L) :
    Called rt L s call (remap rt io s call) := by
  have layer := remapped_layer found
  have ready := prepare_ready product layer (inv.layer _ L found) call rfl callOk.pass
  have experts := product.same _ L layer
  obtain ⟨placed, answered⟩ := placeAll_ok ready product.noop (product.kept _ L layer)
    callOk.once call.ids.list (few_ints (experts ▸ callOk.few))
  have complete := callOk.complete L found
  have outcome := placed.outcome product found inv.stage complete.fits
  refine ⟨placed, ?_, outcome.stage, ?_, ?_, ?_⟩
  · rw [remap_mapped io found]
    exact answered
  · have read := outcome.loaded.mpr (complete.allArrive _ _)
    refine placed.served.finish read ?_
    intro e slot unread loaded role i inside
    refine (outcome.frame _ ?_).trans (loaded role i inside)
    intro _ other listed i' inside' same
    obtain ⟨sameSlot, _⟩ := slot_inj inside inside' same
    obtain ⟨pair, member, second⟩ := List.mem_map.mp listed
    refine unread pair.1 ?_
    rw [sameSlot, ← second]
    exact member
  · intro il' role off different
    exact outcome.frame _ fun same => absurd same different
  · intro jobs member job listed
    have seated := (placed.served.dueSeat _ _ (outcome.jobs jobs member job listed)).1
    have small := placed.single.ok.table_seat_lt seated
    rwa [placed.slots] at small

theorem remap_inv (product : Product rt nExpert) (inv : Inv rt nExpert s)
    (callOk : CallOk rt nExpert io call) : Inv rt nExpert (remap rt io s call).state := by
  cases found : rt.remapped call.il with
  | none =>
      rw [remap_unmapped io found]
      exact inv
  | some L =>
      have called := remap_called product inv callOk found
      refine ⟨?_, called.stage⟩
      intro il L' other
      by_cases own : il = call.il
      · subst own
        cases found.symm.trans other
        have placed := called.placed
        obtain ⟨cache, held, _⟩ := remap_own io found callOk.pass
        have experts := product.same _ L (remapped_layer found)
        refine ⟨?_, ?_, ?_, ?_, ?_, ?_⟩
        · rw [cache]
          exact placed.single
        · rw [cache, placed.experts, experts]
        · rw [cache]
          exact placed.slots
        · rw [cache, held]
          exact placed.served.refs
        · rw [held, ← experts]
          exact placed.heldIn
        · rw [cache]
          exact called.loaded
      · have before := inv.layer il L' other
        obtain ⟨sameCache, sameHeld⟩ := remap_other io found callOk.pass own
        refine ⟨?_, ?_, ?_, ?_, ?_, ?_⟩
        · rw [sameCache]
          exact before.single
        · rw [sameCache]
          exact before.experts
        · rw [sameCache]
          exact before.slots
        · rw [sameCache, sameHeld]
          exact before.refs
        · rw [sameHeld]
          exact before.heldIn
        · rw [sameCache]
          intro e slot seated role i inside
          have small : slot < rt.nSlots := by
            rw [← before.slots]
            exact before.single.ok.table_seat_lt seated
          rw [called.frame il role _ own]
          exact ensureZeroSlot_loaded product.zero (remapped_layer other) small
            (before.loaded e slot seated) role i inside

theorem remap_loaded (product : Product rt nExpert) (inv : Inv rt nExpert s)
    (callOk : CallOk rt nExpert io call) (layer : rt.layers il = some L) (own : il ≠ call.il)
    {slot e : Nat} (small : slot < rt.nSlots) (loaded : Loaded rt.shards il L s.mem slot e) :
    Loaded rt.shards il L (remap rt io s call).state.mem slot e := by
  cases found : rt.remapped call.il with
  | none =>
      rw [remap_unmapped io found]
      exact loaded
  | some L' =>
      have called := remap_called product inv callOk found
      intro role i inside
      rw [called.frame il role _ own]
      exact ensureZeroSlot_loaded product.zero layer small loaded role i inside

/-! ## Runs -/

theorem remaps_inv (product : Product rt nExpert) (inv : Inv rt nExpert s)
    (calls : List (Io × Call)) (ok : ∀ c ∈ calls, CallOk rt nExpert c.1 c.2) :
    Inv rt nExpert (remaps rt s calls) := by
  induction calls generalizing s with
  | nil => exact inv
  | cons first rest ih =>
      exact ih (remap_inv product inv (ok first List.mem_cons_self))
        fun c member => ok c (List.mem_cons_of_mem first member)

theorem remaps_loaded (product : Product rt nExpert) (inv : Inv rt nExpert s)
    (layer : rt.layers il = some L) (calls : List (Io × Call))
    (ok : ∀ c ∈ calls, CallOk rt nExpert c.1 c.2) (others : ∀ c ∈ calls, il ≠ c.2.il)
    {slot e : Nat} (small : slot < rt.nSlots) (loaded : Loaded rt.shards il L s.mem slot e) :
    Loaded rt.shards il L (remaps rt s calls).mem slot e := by
  induction calls generalizing s with
  | nil => exact loaded
  | cons first rest ih =>
      have okFirst := ok first List.mem_cons_self
      exact ih (remap_inv product inv okFirst)
        (fun c member => ok c (List.mem_cons_of_mem first member))
        (fun c member => others c (List.mem_cons_of_mem first member))
        (remap_loaded product inv okFirst layer (others first List.mem_cons_self) small loaded)

theorem Ids.list_getElem (a : Ids) {j k : Nat} (row : j < a.ne1) (column : k < a.ne0) :
    a.list[j * a.ne0 + k]? = some (a.at j k) := by
  have general : ∀ n, j < n → ((List.range n).flatMap fun j =>
      (List.range a.ne0).map fun k => a.at j k)[j * a.ne0 + k]? = some (a.at j k) := by
    intro n
    induction n with
    | zero => intro none; exact absurd none (Nat.not_lt_zero j)
    | succ n ih =>
        intro bound
        have length : ((List.range n).flatMap fun j =>
            (List.range a.ne0).map fun k => a.at j k).length = n * a.ne0 := by
          simp [List.length_flatMap]
        rw [List.range_succ, List.flatMap_append, List.flatMap_singleton]
        by_cases last : j = n
        · subst last
          rw [List.getElem?_append_right (by omega), length]
          simp [column]
        · have below : j * a.ne0 + k < n * a.ne0 := by
            calc j * a.ne0 + k < j * a.ne0 + a.ne0 := by omega
              _ = (j + 1) * a.ne0 := (Nat.succ_mul _ _).symm
              _ ≤ n * a.ne0 := Nat.mul_le_mul_right _ (by omega)
          rw [List.getElem?_append_left (by omega)]
          exact ih (by omega)
  exact general a.ne1 row

/-- What the outputs of one call mean, `after` being any later state in which
the layer has not been called again. -/
structure Serves (rt : Runtime) (nExpert : Nat) (L : LayerSlabs) (call : Call)
    (before after : State) (r : Remapped) : Prop where
  positions : ∀ j k, j < call.ids.ne1 → k < call.ids.ne0 →
    (∃ slot, slot < rt.nSlots ∧ r.out[j * call.ids.ne0 + k]? = some (i32 slot) ∧
      0 ≤ call.ids.at j k ∧ call.ids.at j k < nExpert ∧
      Loaded rt.shards call.il L after.mem slot (call.ids.at j k).toNat) ∨
    (r.out[j * call.ids.ne0 + k]? = some (i32 rt.zeroSlot) ∧
      (call.ids.at j k < 0 ∨ (nExpert : Int) ≤ call.ids.at j k ∨
        ((placeAll rt L call (prepare rt before call.il)
          (call.ids.list.take (j * call.ids.ne0 + k))).cache.acquire 0
            (call.ids.at j k).toNat .demand).2.2 = NO_SLOT))
  apart : ∀ j k j' k', j < call.ids.ne1 → k < call.ids.ne0 → j' < call.ids.ne1 →
    k' < call.ids.ne0 → ∀ slot, slot < rt.nSlots →
    r.out[j * call.ids.ne0 + k]? = some (i32 slot) →
    r.out[j' * call.ids.ne0 + k']? = some (i32 slot) → call.ids.at j k = call.ids.at j' k'
  targets : ∀ jobs ∈ r.batches, ∀ job ∈ jobs, job.slot < rt.nSlots ∧ job.slot ≠ rt.zeroSlot

/-- An output that is a slot is the seat of the expert at its position. -/
theorem Answered.seated {p : Placing} {before : ExpertCache} {e : Int} {slot : Nat}
    (product : Product rt nExpert) (placed : p.cache.Single) (slots : p.cache.nSlot = rt.nSlots)
    (small : slot < rt.nSlots) (answered : Answered rt L p before e (i32 slot)) :
    0 ≤ e ∧ p.cache.table.seat e.toNat = some slot := by
  have width := product.slots
  cases answered with
  | @seat slot' value low high held seated =>
      have small' := placed.ok.table_seat_lt seated
      have same : slot = slot' := i32_inj (by omega) (by omega) value
      rw [same]
      exact ⟨low, seated⟩
  | null value why =>
      have zero := product.zero
      have same : slot = rt.zeroSlot := i32_inj (by omega) (by omega) value
      omega

/-- In every run of the product configuration, what a call puts out is right and
stays right until the layer is called again. -/
theorem remap_serves (product : Product rt nExpert) (mem : Memory)
    (pre post : List (Io × Call)) (found : rt.remapped call.il = some L)
    (preOk : ∀ c ∈ pre, CallOk rt nExpert c.1 c.2) (ok : CallOk rt nExpert io call)
    (postOk : ∀ c ∈ post, CallOk rt nExpert c.1 c.2) (others : ∀ c ∈ post, call.il ≠ c.2.il) :
    Serves rt nExpert L call (remaps rt (State.start rt nExpert mem) pre)
      (remaps rt
        (remap rt io (remaps rt (State.start rt nExpert mem) pre) call).state post)
      (remap rt io (remaps rt (State.start rt nExpert mem) pre) call) := by
  have inv := remaps_inv product (start_inv product mem) pre preOk
  generalize remaps rt (State.start rt nExpert mem) pre = s at *
  have layer := remapped_layer found
  have experts := product.same _ L layer
  have called := remap_called product inv ok found
  have placed := called.placed
  have next := remap_inv product inv ok
  refine ⟨?_, ?_, ?_⟩
  · intro j k row column
    obtain ⟨v, written, answered⟩ := called.answered _ _ (call.ids.list_getElem row column)
    cases answered with
    | @seat slot value low high held seated =>
        have small : slot < rt.nSlots := by
          rw [← placed.slots]
          exact placed.single.ok.table_seat_lt seated
        refine Or.inl ⟨slot, small, by rw [written, value], low, by rw [← experts]; exact high, ?_⟩
        exact remaps_loaded product next layer post postOk others small
          (called.loaded _ slot seated)
    | null value why =>
        rw [experts] at why
        exact Or.inr ⟨by rw [written, value], why⟩
  · intro j k j' k' row column row' column' slot small first second
    obtain ⟨v, written, answered⟩ := called.answered _ _ (call.ids.list_getElem row column)
    obtain ⟨v', written', answered'⟩ := called.answered _ _ (call.ids.list_getElem row' column')
    rw [← Option.some.inj (first.symm.trans written)] at answered
    rw [← Option.some.inj (second.symm.trans written')] at answered'
    obtain ⟨low, seated⟩ := answered.seated product placed.single placed.slots small
    obtain ⟨low', seated'⟩ := answered'.seated product placed.single placed.slots small
    have same := placed.single.ok.apart _ _ _ seated seated'
    rw [← Int.toNat_of_nonneg low, same, Int.toNat_of_nonneg low']
  · intro jobs member job listed
    have small := called.targets jobs member job listed
    refine ⟨small, ?_⟩
    rw [product.zero]
    exact Nat.ne_of_lt small

/-! One layer of two experts and one slot, called once with the ids 0 and 1. -/

def pairRuntime : Runtime where
  enabled := true
  noop := 0
  nCache := 1
  layers := fun il => if il = 0 then
    some ⟨⟨true, 0, 1, 2, 0⟩, ⟨true, 2, 1, 2, 0⟩, ⟨true, 4, 1, 2, 0⟩, true⟩ else none
  nSlots := 1
  zeroSlot := 1
  maxb := 1
  dropFrom := 2 ^ 30
  sweepTest := 0
  shards := ⟨fun _ => true, fun _ off => UInt8.ofNat off⟩
  hostPtr := fun _ _ _ => false

def pairCall : Call := ⟨0, 0, 1, ⟨1, 2, 4, 4, fun off => if off = 4 then 1 else 0⟩⟩

theorem pairRuntime_product : Product pairRuntime 2 where
  enabled := rfl
  noop := rfl
  zero := rfl
  positive := Nat.le_refl 1
  slots := by decide
  experts := by decide
  same := by
    intro il L layer
    unfold pairRuntime at layer
    simp only at layer
    split at layer
    · cases layer
      rfl
    · cases layer
  kept := by
    intro il L layer
    unfold pairRuntime at layer ⊢
    simp only at layer ⊢
    split at layer
    · omega
    · cases layer
  width := by
    intro il L layer role
    unfold pairRuntime at layer ⊢
    simp only at layer ⊢
    split at layer
    · cases layer
      cases role <;> exact Nat.le_refl 1
    · cases layer

theorem pairCall_ok : CallOk pairRuntime 2 Io.whole pairCall where
  once := rfl
  pass := by decide
  few := by
    intro e _
    calc pairCall.ids.list.count (e : Int) ≤ pairCall.ids.list.length := List.count_le_length
      _ = 2 := by simp [Ids.list, pairCall]
      _ < 2 ^ 16 := by decide
  complete := by
    intro L found job
    have layer : some L = some ⟨⟨true, 0, 1, 2, 0⟩, ⟨true, 2, 1, 2, 0⟩, ⟨true, 4, 1, 2, 0⟩, true⟩ :=
      (remapped_layer found).symm.trans rfl
    cases layer
    refine ⟨rfl, ?_⟩
    cases job.role <;> simp [LayerSlabs.role, Io.whole]

theorem remap_serves_pair :
    Serves pairRuntime 2
      ⟨⟨true, 0, 1, 2, 0⟩, ⟨true, 2, 1, 2, 0⟩, ⟨true, 4, 1, 2, 0⟩, true⟩ pairCall
      (State.start pairRuntime 2 fun _ => 255)
      (remap pairRuntime Io.whole (State.start pairRuntime 2 fun _ => 255) pairCall).state
      (remap pairRuntime Io.whole (State.start pairRuntime 2 fun _ => 255) pairCall) :=
  remap_serves pairRuntime_product (fun _ => 255) [] [] rfl (by simp) pairCall_ok (by simp)
    (by simp)

end MoeStream
