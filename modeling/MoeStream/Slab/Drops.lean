import MoeStream.Cache.Isolation
import MoeStream.Slab.Serves

/-!
# Drop mode

On a layer from `MOESTREAM_DROP_FROM` on a miss is answered with the null expert
and not read, but the cache keeps the slot it reserved.  Such a layer never reads
anything, so a position is answered with an unread slot exactly when its expert
has one.
-/

set_option autoImplicit false

namespace MoeStream

open Foundation.FixedWidth
open ExpertCache

/-! ## Runs -/

def history (rt : Runtime) (s : State) : List (Io × Call) → List (Call × Remapped)
  | [] => []
  | call :: rest =>
      (call.2, remap rt call.1 s call.2) :: history rt (remap rt call.1 s call.2).state rest

def ReadInto (calls : List (Call × Remapped)) (il slot e : Nat) : Prop :=
  ∀ role, ∃ r ∈ calls, r.1.il = il ∧ ∃ jobs ∈ r.2.batches, ∃ job ∈ jobs,
    job.role = role ∧ job.expert = e ∧ job.slot = slot

def Runtime.Drops (rt : Runtime) (L : LayerSlabs) (call : Call) : Prop :=
  rt.remapped call.il = some L ∧ rt.dropFrom ≤ call.il

/-- Every position of such a call is answered with the null expert or with a slot
its expert was read into. -/
def NeverUnread (rt : Runtime) (s : State) (calls : List (Io × Call)) : Prop :=
  ∀ pre io call post, calls = pre ++ (io, call) :: post → ∀ L, rt.Drops L call →
    ∀ (n : Nat) (e : Int), call.ids.list[n]? = some e →
      (remap rt io (remaps rt s pre) call).out[n]? = some (i32 rt.zeroSlot) ∨
        ∃ slot : Nat, (remap rt io (remaps rt s pre) call).out[n]? = some (i32 slot) ∧
          ReadInto (history rt s (pre ++ [(io, call)])) call.il slot e.toNat

/-- A position that asks the cache: its id is an expert, and one of the pass. -/
def Asks (rt : Runtime) (L : LayerSlabs) (call : Call) (e : Int) : Prop :=
  0 ≤ e ∧ e < L.gate.nExpert ∧
    (1 < call.np → e.toNat ∈ inPass rt.sweepTest call.np call.pass
      (distinct call.ids.list L.gate.nExpert))

def NeverReserved (rt : Runtime) (s : State) (calls : List (Io × Call)) : Prop :=
  ∀ pre io call post, calls = pre ++ (io, call) :: post → ∀ L, rt.Drops L call →
    ∀ (n : Nat) (e : Int), call.ids.list[n]? = some e → Asks rt L call e →
      ((placeAll rt L call (prepare rt (remaps rt s pre) call.il)
        (call.ids.list.take n)).cache.entry 0 e.toNat).seg = .none

/-! ## One position -/

variable {rt : Runtime} {L : LayerSlabs} {call : Call} {p : Placing} {e : Int}

theorem acquire_absent {c : ExpertCache} {l k : Nat} (absent : (c.entry l k).seg = .none)
    (origin : Origin) : (c.acquire l k origin).2.1 = false := by
  rw [acquire_eq, if_neg (not_not.mpr absent)]
  simp only [acquireMiss]
  split
  · rfl
  · split <;> rfl

theorem acquire_present {c : ExpertCache} {l k : Nat} (present : (c.entry l k).seg ≠ .none)
    (origin : Origin) :
    (c.acquire l k origin).2.1 = true ∧ (c.acquire l k origin).2.2 = (c.entry l k).slot := by
  rw [acquire_eq, if_pos present]
  unfold acquireHit
  dsimp only
  exact ⟨rfl, by rw [setEntry_self]⟩

def step (rt : Runtime) (L : LayerSlabs) (call : Call) : Placing → Int → Placing :=
  place rt L call.il call.np
    (inPass rt.sweepTest call.np call.pass (distinct call.ids.list L.gate.nExpert))

theorem step_silent (silent : ¬Asks rt L call e) :
    step rt L call p e = { p with out := p.out ++ [i32 rt.zeroSlot] } := by
  simp only [step, place]
  split
  · rfl
  · rename_i own
    split
    · rename_i inside
      refine absurd ⟨inside.1, inside.2, ?_⟩ silent
      intro several
      by_contra foreign
      exact own ⟨several, Or.inr (Or.inr foreign)⟩
    · rfl

theorem Asks.mine (asks : Asks rt L call e) :
    ¬(1 < call.np ∧ (e < 0 ∨ (L.gate.nExpert : Int) ≤ e ∨ e.toNat ∉
      inPass rt.sweepTest call.np call.pass (distinct call.ids.list L.gate.nExpert))) := by
  obtain ⟨low, high, own⟩ := asks
  rintro ⟨several, below | beyond | foreign⟩
  · omega
  · omega
  · exact foreign (own several)

theorem step_asks (asks : Asks rt L call e) :
    step rt L call p e =
      if (p.cache.acquire 0 e.toNat .demand).2.2 = NO_SLOT then
        { p with
          cache := (p.cache.acquire 0 e.toNat .demand).1
          exhausted := p.exhausted + 1
          out := p.out ++ [i32 rt.zeroSlot] }
      else if ¬(p.cache.acquire 0 e.toNat .demand).2.1 ∧ rt.dropFrom ≤ call.il then
        { p with
          cache := (p.cache.acquire 0 e.toNat .demand).1.release 0 e.toNat
          demand := p.demand + 1
          dropped := p.dropped + 1
          out := p.out ++ [i32 rt.zeroSlot] }
      else
        { p with
          cache := if (p.cache.acquire 0 e.toNat .demand).2.1 then
              (p.cache.acquire 0 e.toNat .demand).1
            else (p.cache.acquire 0 e.toNat .demand).1.markResident 0 e.toNat L.bytes
          pend := if ¬(p.cache.acquire 0 e.toNat .demand).2.1 ∧ rt.noop ≠ 3 then
              p.pend ++ [(e.toNat, (p.cache.acquire 0 e.toNat .demand).2.2)]
            else p.pend
          demand := p.demand + 1
          held := p.held ++ [e.toNat]
          out := p.out ++ [i32 (p.cache.acquire 0 e.toNat .demand).2.2] } := by
  simp only [step, place]
  rw [if_neg asks.mine, if_pos ⟨asks.1, asks.2.1⟩]

variable (rt L e p) in
/-- On a layer that drops its misses a position reads nothing, and is answered
with a slot only if its expert has one. -/
theorem step_drops (drops : rt.dropFrom ≤ call.il) :
    (step rt L call p e).pend = p.pend ∧ ∃ v, (step rt L call p e).out = p.out ++ [v] ∧
      (v = i32 rt.zeroSlot ∨ (Asks rt L call e ∧ (p.cache.entry 0 e.toNat).seg ≠ .none ∧
        v = i32 (p.cache.entry 0 e.toNat).slot)) := by
  by_cases asks : Asks rt L call e
  · rw [step_asks asks]
    split
    · exact ⟨rfl, _, rfl, Or.inl rfl⟩
    · split
      · exact ⟨rfl, _, rfl, Or.inl rfl⟩
      · rename_i kept
        have hit : (p.cache.acquire 0 e.toNat .demand).2.1 = true := by
          by_contra miss
          exact kept ⟨miss, drops⟩
        have present : (p.cache.entry 0 e.toNat).seg ≠ .none := by
          intro absent
          rw [acquire_absent absent] at hit
          cases hit
        rw [hit, (acquire_present present .demand).2]
        refine ⟨?_, _, rfl, Or.inr ⟨asks, present, rfl⟩⟩
        simp only [not_true_eq_false, false_and, if_false]
  · rw [step_silent asks]
    exact ⟨rfl, _, rfl, Or.inl rfl⟩

theorem step_reserved (asks : Asks rt L call e) (present : (p.cache.entry 0 e.toNat).seg ≠ .none)
    (named : (p.cache.entry 0 e.toNat).slot ≠ NO_SLOT) :
    (step rt L call p e).out = p.out ++ [i32 (p.cache.entry 0 e.toNat).slot] := by
  obtain ⟨hit, slot⟩ := acquire_present present .demand
  rw [step_asks asks, slot, if_neg named, if_neg fun dropped => dropped.1 hit]

/-! ## All positions of a call -/

variable {s : State}

@[simp] theorem placeAll_step (es : List Int) :
    placeAll rt L call s (es ++ [e]) = step rt L call (placeAll rt L call s es) e :=
  placeAll_concat rt L call s es e

variable (rt L call p e) in
theorem step_out : ∃ v, (step rt L call p e).out = p.out ++ [v] := by
  by_cases asks : Asks rt L call e
  · rw [step_asks asks]
    split
    · exact ⟨_, rfl⟩
    · split <;> exact ⟨_, rfl⟩
  · rw [step_silent asks]
    exact ⟨_, rfl⟩

variable (rt L call s) in
@[simp] theorem placeAll_length (es : List Int) :
    (placeAll rt L call s es).out.length = es.length := by
  induction es using List.reverseRecOn with
  | nil => rfl
  | append_singleton es e ih =>
      obtain ⟨v, out⟩ := step_out rt L call (placeAll rt L call s es) e
      rw [placeAll_step, out, List.length_append, ih, List.length_append, List.length_singleton,
        List.length_singleton]

variable (rt L call s) in
theorem placeAll_answer (es : List Int) {n : Nat} {e v : Int} (position : es[n]? = some e)
    (answer : (step rt L call (placeAll rt L call s (es.take n)) e).out =
      (placeAll rt L call s (es.take n)).out ++ [v]) :
    (placeAll rt L call s es).out[n]? = some v := by
  induction es using List.reverseRecOn with
  | nil => cases position
  | append_singleton es last ih =>
      have lengths := placeAll_length rt L call s es
      obtain ⟨bound, -⟩ := List.getElem?_eq_some_iff.mp position
      rw [List.length_append, List.length_singleton] at bound
      by_cases before : n < es.length
      · rw [List.getElem?_append_left before] at position
        rw [List.take_append_of_le_length (Nat.le_of_lt before)] at answer
        have earlier := ih position answer
        obtain ⟨w, grown⟩ := step_out rt L call (placeAll rt L call s es) last
        rw [placeAll_step, grown, List.getElem?_append_left (by rw [lengths]; exact before)]
        exact earlier
      · have index : n = es.length := by omega
        subst index
        rw [List.take_left] at answer
        rw [List.getElem?_append_right (Nat.le_refl _), Nat.sub_self] at position
        cases position
        rw [placeAll_step, answer, ← lengths, List.getElem?_append_right (Nat.le_refl _),
          Nat.sub_self]
        rfl

theorem placeAll_pend (drops : rt.dropFrom ≤ call.il) (es : List Int) :
    (placeAll rt L call s es).pend = [] := by
  induction es using List.reverseRecOn with
  | nil => rfl
  | append_singleton es e ih => rw [placeAll_step, (step_drops rt L _ e drops).1, ih]

theorem drops_batches (io : Io) (drops : rt.Drops L call) :
    (remap rt io s call).batches = [] := by
  have pend : (placing rt L s call).pend = [] := placeAll_pend drops.2 call.ids.list
  simp only [remap_mapped io drops.1, pend, List.length_nil, readBatches]

theorem drops_out (io : Io) (drops : rt.Drops L call) :
    (remap rt io s call).out = (placeAll rt L call (prepare rt s call.il) call.ids.list).out := by
  rw [remap_mapped io drops.1]
  rfl

/-! ## Nothing is read on such a layer -/

theorem history_batches {s : State} {calls : List (Io × Call)}
    (layer : rt.remapped call.il = some L)
    (drops : rt.dropFrom ≤ call.il) :
    ∀ r ∈ history rt s calls, r.1.il = call.il → r.2.batches = [] := by
  induction calls generalizing s with
  | nil => exact fun r member => nomatch member
  | cons first rest ih =>
      intro r member own
      rcases List.mem_cons.mp member with rfl | later
      · simp only at own
        apply drops_batches (L := L)
        simp only [Runtime.Drops]
        rw [own]
        exact ⟨layer, drops⟩
      · exact ih r later own

theorem not_readInto {s : State} {calls : List (Io × Call)} (drops : rt.Drops L call)
    (slot e : Nat) : ¬ReadInto (history rt s calls) call.il slot e := by
  intro read
  obtain ⟨r, member, own, jobs, listed, -⟩ := read .gate
  rw [history_batches drops.1 drops.2 r member own] at listed
  cases listed

/-! ## The caches of a run -/

/-- What `finalize` promises about the sizes. -/
structure Shaped (rt : Runtime) (nExpert : Nat) : Prop where
  zero : rt.zeroSlot = rt.nSlots
  positive : 1 ≤ rt.nSlots
  slots : rt.nSlots < 2 ^ 32
  experts : nExpert < 2 ^ 32
  same : ∀ il L, rt.layers il = some L → L.gate.nExpert = nExpert

structure Housed (rt : Runtime) (nExpert : Nat) (c : ExpertCache) : Prop where
  single : c.Single
  experts : c.cfg.nExpert = nExpert
  slots : c.nSlot = rt.nSlots

variable {nExpert : Nat}

theorem Product.shaped (product : Product rt nExpert) : Shaped rt nExpert :=
  ⟨product.zero, product.positive, product.slots, product.experts, product.same⟩

theorem Housed.acquire {c : ExpertCache} (housed : Housed rt nExpert c) {k : Nat}
    (inside : k < nExpert) (origin : Origin) : Housed rt nExpert (c.acquire 0 k origin).1 := by
  have bound : k < c.cfg.nExpert := by rw [housed.experts]; exact inside
  have requested := (housed.single.ok.acquire housed.single.layer bound origin).1
  exact ⟨housed.single.acquire bound origin, requested.cfg ▸ housed.experts,
    requested.nSlot ▸ housed.slots⟩

theorem Housed.release {c : ExpertCache} (housed : Housed rt nExpert c) {k : Nat}
    (inside : k < nExpert) : Housed rt nExpert (c.release 0 k) := by
  have bound : k < c.cfg.nExpert := by rw [housed.experts]; exact inside
  have within : Within c 0 (c.release 0 k) := Within.release bound
  exact ⟨housed.single.release bound, within.cfg ▸ housed.experts, within.nSlot ▸ housed.slots⟩

theorem Housed.releases {c : ExpertCache} (housed : Housed rt nExpert c) (es : List Nat)
    (inside : ∀ e ∈ es, e < nExpert) :
    Housed rt nExpert (es.foldl (fun c e => c.release 0 e) c) := by
  induction es generalizing c with
  | nil => exact housed
  | cons e rest ih =>
      apply ih (housed.release (inside e List.mem_cons_self))
      exact fun k member => inside k (List.mem_cons_of_mem e member)

theorem Housed.markResident {c : ExpertCache} (housed : Housed rt nExpert c) {k : Nat}
    (inside : k < nExpert) (nbytes : Nat) : Housed rt nExpert (c.markResident 0 k nbytes) := by
  have bound : k < c.cfg.nExpert := by rw [housed.experts]; exact inside
  have within : Within c 0 (c.markResident 0 k nbytes) := Within.markResident bound nbytes
  exact ⟨housed.single.markResident bound nbytes, within.cfg ▸ housed.experts,
    within.nSlot ▸ housed.slots⟩

theorem Housed.step (housed : Housed rt nExpert p.cache) (experts : L.gate.nExpert = nExpert)
    (held : ∀ k ∈ p.held, k < nExpert) :
    Housed rt nExpert (step rt L call p e).cache ∧
      ∀ k ∈ (step rt L call p e).held, k < nExpert := by
  by_cases asks : Asks rt L call e
  · have inside : e.toNat < nExpert := by
      have low := asks.1
      have high := asks.2.1
      omega
    have acquired := housed.acquire inside .demand
    rw [step_asks asks]
    split
    · exact ⟨acquired, held⟩
    · split
      · exact ⟨acquired.release inside, held⟩
      · refine ⟨?_, ?_⟩
        · dsimp only
          split
          · exact acquired
          · exact acquired.markResident inside L.bytes
        · intro k member
          rcases List.mem_append.mp member with old | new
          · exact held k old
          · rw [List.mem_singleton.mp new]
            exact inside
  · rw [step_silent asks]
    exact ⟨housed, held⟩

structure Standing (rt : Runtime) (nExpert : Nat) (s : State) : Prop where
  housed : ∀ il, Housed rt nExpert (s.cache il)
  held : ∀ key, ∀ e ∈ s.held key, e < nExpert

theorem Standing.start (slots : 1 ≤ rt.nSlots ∧ rt.nSlots < 2 ^ 32) (experts : nExpert < 2 ^ 32)
    (mem : Memory) : Standing rt nExpert (State.start rt nExpert mem) := by
  refine ⟨fun il => ⟨Single.initial rfl, u32_eq experts, ?_⟩, fun key e member => nomatch member⟩
  unfold State.start init cacheConfig
  simp only
  rw [if_pos (Nat.ne_of_gt slots.1)]
  exact u32_eq slots.2

theorem Standing.prepare (standing : Standing rt nExpert s) (il : Nat) :
    Standing rt nExpert (prepare rt s il) := by
  obtain ⟨cache, held, -⟩ := ensureZeroSlot_rest rt s
  have inside : ∀ e ∈ heldBy (ensureZeroSlot rt s) il, e < nExpert := by
    intro e member
    obtain ⟨pass, -, listed⟩ := List.mem_flatMap.mp member
    rw [held] at listed
    exact standing.held _ e listed
  refine ⟨?_, ?_⟩
  · intro k
    simp only [MoeStream.prepare, releaseHeld]
    rw [cache]
    by_cases own : k = il
    · subst own
      rw [Function.update_self]
      exact (standing.housed k).releases _ inside
    · rw [Function.update_of_ne own]
      exact standing.housed k
  · intro key e member
    simp only [MoeStream.prepare, releaseHeld] at member
    split at member
    · cases member
    · rw [held] at member
      exact standing.held key e member

theorem Standing.placeAll (standing : Standing rt nExpert s) (experts : L.gate.nExpert = nExpert)
    (call : Call) (es : List Int) : Housed rt nExpert (placeAll rt L call s es).cache ∧
      ∀ k ∈ (placeAll rt L call s es).held, k < nExpert := by
  induction es using List.reverseRecOn with
  | nil => exact ⟨standing.housed call.il, standing.held _⟩
  | append_singleton es e ih =>
      rw [placeAll_step]
      exact ih.1.step experts ih.2

theorem Standing.remap (standing : Standing rt nExpert s) (io : Io) (call : Call)
    (experts : ∀ L, rt.remapped call.il = some L → L.gate.nExpert = nExpert) :
    Standing rt nExpert (remap rt io s call).state := by
  cases found : rt.remapped call.il with
  | none =>
      rw [remap_unmapped io found]
      exact standing
  | some L =>
      have ready := standing.prepare call.il
      obtain ⟨housed, held⟩ := ready.placeAll (experts L found) call call.ids.list
      simp only [MoeStream.remap, found]
      refine ⟨?_, ?_⟩
      · intro il
        dsimp only
        by_cases own : il = call.il
        · subst own
          rw [Function.update_self]
          exact housed
        · rw [Function.update_of_ne own]
          exact ready.housed il
      · intro key e member
        dsimp only at member
        by_cases own : key = call.il * 8 + call.pass
        · rw [own, Function.update_self] at member
          exact held e member
        · rw [Function.update_of_ne own] at member
          exact ready.held key e member

theorem Standing.remaps (shaped : Shaped rt nExpert) (standing : Standing rt nExpert s)
    (calls : List (Io × Call)) : Standing rt nExpert (remaps rt s calls) := by
  induction calls generalizing s with
  | nil => exact standing
  | cons first rest ih =>
      apply ih (standing.remap first.1 first.2 ?_)
      exact fun L found => shaped.same _ L (remapped_layer found)

/-! ## What is served -/

/-- On layers that drop their misses, a run never answers with a slot that was not
read into exactly when it never asks for an expert that has a slot. -/
theorem never_unread_iff (shaped : Shaped rt nExpert) (mem : Memory) (calls : List (Io × Call)) :
    NeverUnread rt (State.start rt nExpert mem) calls ↔
      NeverReserved rt (State.start rt nExpert mem) calls := by
  constructor
  · intro served pre io call post split L drops n e position asks
    by_contra present
    have standing := ((Standing.start ⟨shaped.positive, shaped.slots⟩ shaped.experts mem).remaps
      shaped pre).prepare call.il
    have experts := shaped.same _ L (remapped_layer drops.1)
    obtain ⟨housed, -⟩ := standing.placeAll experts call (call.ids.list.take n)
    generalize placed : placeAll rt L call
      (prepare rt (remaps rt (State.start rt nExpert mem) pre) call.il)
      (call.ids.list.take n) = p at housed present
    have inside : e.toNat < p.cache.cfg.nExpert := by
      have low := asks.1
      have high := asks.2.1
      rw [housed.experts]
      omega
    have bound := p.cache.idx_lt_total housed.single.layer inside
    have seat : p.cache.seats (p.cache.idx 0 e.toNat) = some (p.cache.entry 0 e.toNat).slot :=
      Entry.held_some.mpr ⟨present, rfl⟩
    have named := housed.single.ok.seat_ne bound seat
    have small := housed.single.ok.seat_lt bound seat
    have width := shaped.slots
    rw [housed.slots] at small
    have answer := placeAll_answer rt L call
      (prepare rt (remaps rt (State.start rt nExpert mem) pre) call.il) call.ids.list position
      (by rw [placed]; exact step_reserved asks present named)
    rw [← drops_out io drops] at answer
    rcases served pre io call post split L drops n e position with null | ⟨slot, -, read⟩
    · have same := i32_inj (by omega) (by rw [shaped.zero]; omega)
        (Option.some.inj (answer.symm.trans null))
      rw [shaped.zero] at same
      omega
    · exact not_readInto drops slot e.toNat read
  · intro absent pre io call post split L drops n e position
    left
    obtain ⟨v, added, answered⟩ := (step_drops rt L
      (placeAll rt L call (prepare rt (remaps rt (State.start rt nExpert mem) pre) call.il)
        (call.ids.list.take n)) e drops.2).2
    have answer := placeAll_answer rt L call _ call.ids.list position added
    rw [← drops_out io drops] at answer
    rcases answered with null | ⟨asks, present, -⟩
    · rw [answer, null]
    · exact absurd (absent pre io call post split L drops n e position asks) present

/-! One layer of two experts and one slot, all of whose misses are dropped. -/

def dropRuntime : Runtime := { pairRuntime with dropFrom := 0 }

theorem dropRuntime_shaped : Shaped dropRuntime 2 where
  zero := rfl
  positive := Nat.le_refl 1
  slots := by decide
  experts := by decide
  same := pairRuntime_product.same

def twiceCall : Call := ⟨0, 0, 1, ⟨1, 2, 4, 4, fun _ => 0⟩⟩

def dropStart : State := State.start dropRuntime 2 fun _ => 255

theorem twiceCall_ids : twiceCall.ids.list = [0, 0] := by
  simp [Ids.list, Ids.at, twiceCall, List.range_succ, le32, i32]

theorem pairCall_ids : pairCall.ids.list = [0, 1] := by
  simp [Ids.list, Ids.at, pairCall, List.range_succ, le32, i32]

def dropLayer : LayerSlabs :=
  ⟨⟨true, 0, 1, 2, 0⟩, ⟨true, 2, 1, 2, 0⟩, ⟨true, 4, 1, 2, 0⟩, true⟩

theorem dropRuntime_drops (call : Call) (own : call.il = 0) :
    dropRuntime.Drops dropLayer call := by
  simp only [Runtime.Drops]
  rw [own]
  exact ⟨rfl, Int.le_refl 0⟩

theorem dropped_reserves :
    let left := placeAll dropRuntime dropLayer twiceCall (prepare dropRuntime dropStart 0) [0]
    (left.cache.entry 0 0).seg = .small ∧ (left.cache.entry 0 0).slot = 0 :=
  ⟨rfl, rfl⟩

/-- The first miss on expert 0 is dropped, and the second reference is answered
with the slot it left reserved, which no call has read into. -/
theorem dropped_served : ¬NeverUnread dropRuntime dropStart [(Io.whole, twiceCall)] := by
  intro served
  have drops := dropRuntime_drops twiceCall rfl
  have position : twiceCall.ids.list[1]? = some 0 := by
    rw [twiceCall_ids]
    rfl
  have asks : Asks dropRuntime dropLayer twiceCall 0 :=
    ⟨by decide, by decide, fun several => absurd several (by decide)⟩
  have prefixed : twiceCall.ids.list.take 1 = [0] := by
    rw [twiceCall_ids]
    rfl
  have second : (remap dropRuntime Io.whole dropStart twiceCall).out[1]? = some (i32 0) := by
    rw [drops_out Io.whole drops]
    apply placeAll_answer _ _ _ _ _ position
    obtain ⟨seg, slot⟩ := dropped_reserves
    have present := step_reserved (p := placeAll dropRuntime dropLayer twiceCall
      (prepare dropRuntime dropStart 0) [0]) asks
    rw [Int.toNat_zero, seg, slot] at present
    rw [prefixed]
    exact present Seg.noConfusion (by decide)
  rcases served [] Io.whole twiceCall [] rfl _ drops 1 0 position with null | ⟨slot, -, read⟩
  · have answered := Option.some.inj (second.symm.trans null)
    exact absurd answered (by decide)
  · exact not_readInto drops slot 0 read

/-- Different experts never find a slot of their own. -/
theorem never_unread_pair : NeverUnread dropRuntime dropStart [(Io.whole, pairCall)] := by
  apply (never_unread_iff dropRuntime_shaped _ _).mpr
  intro pre io call post split L drops n e position asks
  cases pre with
  | cons first rest => simp at split
  | nil =>
      obtain ⟨same, -⟩ := List.cons.inj split
      cases same
      cases drops.1
      rw [pairCall_ids] at position ⊢
      match n, position with
      | 0, position =>
          cases position
          rfl
      | 1, position =>
          cases position
          rfl
      | n + 2, position => cases position

end MoeStream
