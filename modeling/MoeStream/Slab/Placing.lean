import MoeStream.Cache.Single
import MoeStream.Slab.Arrivals
import MoeStream.Slab.Remap

/-!
# The loop over the positions

Placing the ids of one call is a sequence of requests to the table of seats that
starts with no expert in use.  The invariant of `Serving` carries over, and
every position is answered by the seat of its expert or by the null expert.
-/

set_option autoImplicit false

namespace MoeStream

open Foundation.FixedWidth
open Foundation.SeatTable
open ExpertCache

/-- The configuration a model is served in: no diagnostic mode, one pass, every
layer with the same experts and slots. -/
structure Product (rt : Runtime) (nExpert : Nat) : Prop where
  enabled : rt.enabled = true
  noop : rt.noop = 0
  zero : rt.zeroSlot = rt.nSlots
  positive : 1 ≤ rt.nSlots
  slots : rt.nSlots < 2 ^ 32
  experts : nExpert < 2 ^ 32
  same : ∀ il L, rt.layers il = some L → L.gate.nExpert = nExpert
  kept : ∀ il L, rt.layers il = some L → (il : Int) < rt.dropFrom
  width : ∀ il L, rt.layers il = some L → ∀ role, (L.role role).expertBytes ≤ rt.maxb

def Placing.served (p : Placing) : Serving Nat Nat := ⟨p.cache.table, p.held, p.pend⟩

/-- The state of the loop after the positions `es`. -/
structure PlacingOk (rt : Runtime) (L : LayerSlabs) (il : Nat) (mem : Memory) (es : List Int)
    (p : Placing) : Prop where
  single : p.cache.Single
  experts : p.cache.cfg.nExpert = L.gate.nExpert
  slots : p.cache.nSlot = rt.nSlots
  served : p.served.Ok (Loaded rt.shards il L mem)
  heldIn : ∀ e ∈ p.held, e < L.gate.nExpert
  counted : ∀ e : Nat, p.held.count e ≤ es.count (e : Int)
  length : p.out.length = es.length

/-- How a position with id `e` was answered with `v`. -/
inductive Answered (rt : Runtime) (L : LayerSlabs) (p : Placing) (before : ExpertCache) (e : Int)
    (v : Int) : Prop where
  | seat {slot : Nat} (value : v = i32 slot) (low : 0 ≤ e) (high : e < L.gate.nExpert)
      (held : e.toNat ∈ p.held) (seated : p.cache.table.seat e.toNat = some slot)
  | null (value : v = i32 rt.zeroSlot)
      (why : e < 0 ∨ (L.gate.nExpert : Int) ≤ e ∨
        (before.acquire 0 e.toNat .demand).2.2 = NO_SLOT)

variable {rt : Runtime} {L : LayerSlabs} {il : Nat} {mem : Memory} {es : List Int} {p : Placing}

/-- An id without an expert takes the null expert and changes nothing else. -/
theorem place_outside (owned : List Nat) {e : Int} (outside : ¬(0 ≤ e ∧ e < L.gate.nExpert)) :
    place rt L il 1 owned p e = { p with out := p.out ++ [i32 rt.zeroSlot] } := by
  simp [place, outside]

theorem place_refused (owned : List Nat) {e : Int} (low : 0 ≤ e) (high : e < L.gate.nExpert)
    (refused : (p.cache.acquire 0 e.toNat .demand).2.2 = NO_SLOT) :
    place rt L il 1 owned p e =
      { p with
        cache := (p.cache.acquire 0 e.toNat .demand).1
        exhausted := p.exhausted + 1
        out := p.out ++ [i32 rt.zeroSlot] } := by
  simp [place, low, high, refused]

theorem place_granted (owned : List Nat) (noop : rt.noop = 0) (kept : (il : Int) < rt.dropFrom)
    {e : Int} (low : 0 ≤ e) (high : e < L.gate.nExpert)
    (granted : (p.cache.acquire 0 e.toNat .demand).2.2 ≠ NO_SLOT) :
    place rt L il 1 owned p e =
      { p with
        cache := if (p.cache.acquire 0 e.toNat .demand).2.1 then
            (p.cache.acquire 0 e.toNat .demand).1
          else (p.cache.acquire 0 e.toNat .demand).1.markResident 0 e.toNat L.bytes
        pend := if !(p.cache.acquire 0 e.toNat .demand).2.1 then
            p.pend ++ [(e.toNat, (p.cache.acquire 0 e.toNat .demand).2.2)]
          else p.pend
        demand := p.demand + 1
        held := p.held ++ [e.toNat]
        out := p.out ++ [i32 (p.cache.acquire 0 e.toNat .demand).2.2] } := by
  have undropped : ¬rt.dropFrom ≤ (il : Int) := by omega
  simp [place, low, high, granted, undropped, noop]

/-- One position keeps the invariant, answers its id and leaves the answers
before it standing. -/
theorem PlacingOk.place (ok : PlacingOk rt L il mem es p) (noop : rt.noop = 0)
    (kept : (il : Int) < rt.dropFrom) (owned : List Nat) (e : Int)
    (few : 0 ≤ e → e < L.gate.nExpert → es.count e + 1 < 2 ^ 16) :
    PlacingOk rt L il mem (es ++ [e]) (place rt L il 1 owned p e) ∧
      (∃ v, (place rt L il 1 owned p e).out = p.out ++ [v] ∧
        Answered rt L (place rt L il 1 owned p e) p.cache e v) ∧
      ∀ k slot, k ∈ p.held → p.cache.table.seat k = some slot →
        k ∈ (place rt L il 1 owned p e).held ∧
          (place rt L il 1 owned p e).cache.table.seat k = some slot := by
  have counts : ∀ k : Nat, p.held.count k ≤ (es ++ [e]).count (k : Int) := by
    intro k
    rw [List.count_append]
    have := ok.counted k
    omega
  by_cases inside : 0 ≤ e ∧ e < L.gate.nExpert
  · obtain ⟨low, high⟩ := inside
    have bound : e.toNat < p.cache.cfg.nExpert := by
      rw [ok.experts]
      omega
    have back : ((e.toNat : Nat) : Int) = e := Int.toNat_of_nonneg low
    have refs : p.cache.table.refs e.toNat = p.held.count e.toNat := ok.served.refs e.toNat
    have bounded : p.cache.table.refs (p.cache.idx 0 e.toNat) + 1 < 2 ^ 16 := by
      rw [idx_zero, refs]
      have := ok.counted e.toNat
      have := few low high
      rw [back] at *
      omega
    have request := ok.single.ok.acquire_request ok.single.layer bound .demand bounded
    have requested := (ok.single.ok.acquire ok.single.layer bound .demand).1
    have single := ok.single.acquire bound .demand
    rw [idx_zero] at request
    by_cases refused : (p.cache.acquire 0 e.toNat .demand).2.2 = NO_SLOT
    · rw [place_refused owned low high refused]
      rw [refused, answer, if_pos rfl] at request
      have served := ok.served.request request
      refine ⟨⟨single, requested.cfg ▸ ok.experts, requested.nSlot.trans ok.slots, served,
        ok.heldIn, counts, by simp [ok.length]⟩, ⟨_, rfl, ?_⟩, ?_⟩
      · exact Answered.null rfl (Or.inr (Or.inr refused))
      · intro k slot member seated
        exact ⟨member, ok.served.keeps request member seated⟩
    · rw [place_granted owned noop kept low high refused]
      rw [answer, if_neg refused] at request
      have served := ok.served.request request
      obtain ⟨settled, cfg, nSlot, table⟩ := single.settle (by rw [requested.cfg]; exact bound)
        (p.cache.acquire 0 e.toNat .demand).2.1 L.bytes
      refine ⟨⟨settled, ?_, ?_, ?_, ?_, ?_, by simp [ok.length]⟩, ⟨_, rfl, ?_⟩, ?_⟩
      · dsimp only
        rw [cfg, requested.cfg, ok.experts]
      · dsimp only
        rw [nSlot, requested.nSlot, ok.slots]
      · simp only [Placing.served, table]
        exact served
      · intro k member
        rcases List.mem_append.mp member with old | new
        · exact ok.heldIn k old
        · rw [List.mem_singleton.mp new]
          omega
      · intro k
        have := ok.counted k
        simp only [List.count_append, List.count_singleton]
        by_cases same : k = e.toNat
        · subst same
          rw [back]
          simp only [beq_self_eq_true, if_true]
          rw [back] at this
          omega
        · have apart : (e.toNat == k) = false := beq_eq_false_iff_ne.mpr (Ne.symm same)
          rw [apart]
          simp only [Bool.false_eq_true, if_false]
          omega
      · refine Answered.seat rfl low high (List.mem_append_right _ (List.mem_singleton.mpr rfl)) ?_
        simp only [table]
        exact request.granted
      · intro k slot member seated
        refine ⟨List.mem_append_left _ member, ?_⟩
        simp only [table]
        exact ok.served.keeps request member seated
  · rw [place_outside owned inside]
    refine ⟨⟨ok.single, ok.experts, ok.slots, ok.served, ok.heldIn, counts, by simp [ok.length]⟩,
      ⟨_, rfl, ?_⟩, ?_⟩
    · refine Answered.null rfl ?_
      by_cases low : 0 ≤ e
      · exact Or.inr (Or.inl (by omega))
      · exact Or.inl (by omega)
    · intro k slot member seated
      exact ⟨member, seated⟩

/-- The layer before its positions are placed: nobody is in use and every seat
holds the data of its expert. -/
structure Ready (rt : Runtime) (L : LayerSlabs) (call : Call) (s : State) : Prop where
  single : (s.cache call.il).Single
  experts : (s.cache call.il).cfg.nExpert = L.gate.nExpert
  slots : (s.cache call.il).nSlot = rt.nSlots
  idle : ∀ e, (s.cache call.il).table.refs e = 0
  released : s.held (call.il * 8 + call.pass) = []
  loaded : ∀ e slot, (s.cache call.il).table.seat e = some slot →
    Loaded rt.shards call.il L s.mem slot e

variable {call : Call} {s : State}

theorem placeAll_concat (rt : Runtime) (L : LayerSlabs) (call : Call) (s : State) (es : List Int)
    (e : Int) : placeAll rt L call s (es ++ [e]) =
      place rt L call.il call.np
        (inPass rt.sweepTest call.np call.pass (distinct call.ids.list L.gate.nExpert))
        (placeAll rt L call s es) e := by
  simp only [placeAll]
  rw [List.foldl_append, List.foldl_cons, List.foldl_nil]

theorem Ready.placing (ready : Ready rt L call s) :
    PlacingOk rt L call.il s.mem [] (placeAll rt L call s []) := by
  refine ⟨ready.single, ready.experts, ready.slots, ?_, ?_, ?_, rfl⟩
  · have start : (placeAll rt L call s []).served = ⟨(s.cache call.il).table, [], []⟩ := by
      simp [placeAll, Placing.served, ready.released]
    rw [start]
    exact Serving.Ok.start ready.single.ok.apart ready.idle ready.loaded
  · simp [placeAll, ready.released]
  · simp [placeAll, ready.released]

theorem few_ints {n : Nat} {es : List Int}
    (few : ∀ e : Nat, e < n → es.count (e : Int) < 2 ^ 16) :
    ∀ e : Int, 0 ≤ e → e < n → es.count e < 2 ^ 16 := by
  intro e low high
  have bound := few e.toNat (by omega)
  rwa [Int.toNat_of_nonneg low] at bound

theorem few_concat {n : Nat} {es : List Int} {e : Int}
    (few : ∀ k : Int, 0 ≤ k → k < n → (es ++ [e]).count k < 2 ^ 16) :
    (∀ k : Int, 0 ≤ k → k < n → es.count k < 2 ^ 16) ∧
      (0 ≤ e → e < n → es.count e + 1 < 2 ^ 16) := by
  constructor
  · intro k low high
    have bound := few k low high
    rw [List.count_append] at bound
    omega
  · intro low high
    have bound := few e low high
    rwa [List.count_append, List.count_singleton_self] at bound

/-- Placing any number of positions keeps the invariant and answers all of
them. -/
theorem placeAll_ok (ready : Ready rt L call s) (noop : rt.noop = 0)
    (kept : (call.il : Int) < rt.dropFrom) (once : call.np = 1) (es : List Int)
    (few : ∀ e : Int, 0 ≤ e → e < L.gate.nExpert → es.count e < 2 ^ 16) :
    PlacingOk rt L call.il s.mem es (placeAll rt L call s es) ∧
      ∀ n e, es[n]? = some e → ∃ v, (placeAll rt L call s es).out[n]? = some v ∧
        Answered rt L (placeAll rt L call s es) (placeAll rt L call s (es.take n)).cache e v := by
  induction es using List.reverseRecOn with
  | nil => exact ⟨ready.placing, by simp⟩
  | append_singleton es e ih =>
      obtain ⟨fewBefore, fewNow⟩ := few_concat few
      obtain ⟨ok, answered⟩ := ih fewBefore
      obtain ⟨next, ⟨v, out, answer⟩, keeps⟩ := ok.place noop kept
        (inPass rt.sweepTest call.np call.pass (distinct call.ids.list L.gate.nExpert)) e fewNow
      rw [placeAll_concat, once]
      rw [once] at next out answer keeps
      refine ⟨next, ?_⟩
      intro n k position
      by_cases last : n < es.length
      · rw [List.getElem?_append_left last] at position
        obtain ⟨w, written, earlier⟩ := answered n k position
        refine ⟨w, ?_, ?_⟩
        · rw [out, List.getElem?_append_left (by rw [ok.length]; exact last)]
          exact written
        · rw [List.take_append_of_le_length (Nat.le_of_lt last)]
          cases earlier with
          | seat value low high held seated =>
              obtain ⟨held', seated'⟩ := keeps _ _ held seated
              exact Answered.seat value low high held' seated'
          | null value why => exact Answered.null value why
      · have index : n = es.length := by
          have bound : n < (es ++ [e]).length := (List.getElem?_eq_some_iff.mp position).1
          rw [List.length_append, List.length_singleton] at bound
          omega
        subst index
        rw [List.getElem?_append_right (Nat.le_refl _), Nat.sub_self] at position
        cases position
        refine ⟨v, ?_, ?_⟩
        · rw [out, ← ok.length, List.getElem?_append_right (Nat.le_refl _), Nat.sub_self]
          rfl
        · rw [List.take_left]
          exact answer

end MoeStream
