import MoeStream.Cache.Victim

/-!
# Demand when nothing is in use

From every state a run reaches: when a request for an expert that is not in the
cache is refused, and what is left of that when no expert is in use.
-/

set_option autoImplicit false

namespace MoeStream

open Foundation.FixedWidth

namespace ExpertCache

variable {c : ExpertCache} {l e k : Nat}

/-- `alloc_slot` finds nothing to evict where it looks. -/
def Refuses (c : ExpertCache) (l : Nat) : Prop :=
  (c.quota l ≤ (c.lay l).resident ∧ c.Busy l) ∨
    ((c.lay l).resident < c.quota l ∧ c.free = [] ∧ c.Busy (c.victimLayer l))

theorem Ok.evictOne_busy (ok : c.Ok) (layer : l < c.cfg.nLayer) (busy : c.Busy l) :
    c.evictOne l = (c, false) := by
  have layerOk := ok.layers l layer
  refine (ok.evicting layer).busy (fun e member => ?_) (fun e member => ?_)
  · obtain ⟨inside, small⟩ := (layerOk.memSmall e).mp member
    exact Nat.ne_of_gt (busy e (Or.inl small) inside)
  · obtain ⟨inside, main⟩ := (layerOk.memMain e).mp member
    exact Nat.ne_of_gt (busy e (Or.inr main) inside)

theorem Ok.allocSlot_refuses (ok : c.Ok) (layer : l < c.cfg.nLayer) :
    (c.allocSlot l).2 = NO_SLOT ↔ c.Refuses l := by
  constructor
  · have allocated := ok.allocSlot layer
    generalize c.allocSlot l = result at allocated ⊢
    intro none
    cases allocated with
    | refused why => exact why
    | @free s rest below available =>
        have bound := ok.free_lt (s := s) (by rw [available]; exact List.mem_cons_self)
        have slots := ok.slots
        simp only at none
        omega
    | @evicted k v s c' victimLayer why evicts =>
        exact absurd none (ok.seat_ne (c.idx_lt_total victimLayer evicts.inside) evicts.seat)
  · rintro (⟨full, busy⟩ | ⟨below, empty, busy⟩)
    · rw [ExpertCache.allocSlot, if_pos full, ok.evictOne_busy layer busy]
    · rw [ExpertCache.allocSlot, if_neg (by omega), allocFree, empty,
        ok.evictOne_busy (c.victimLayer_lt layer) busy]

theorem Missed.busy_iff {c' : ExpertCache} (missed : Missed c l e c') (cfg : c'.cfg = c.cfg) :
    c'.Busy k ↔ c.Busy k := by
  have index : ∀ e, c'.idx k e = c.idx k e := by
    intro e
    rw [idx, idx, cfg]
  refine ⟨missed.busy cfg, fun busy e queued inside => ?_⟩
  have seg : c'.segs k e = c.segs k e := by
    rw [ExpertCache.segs, ExpertCache.segs, entry, entry, index, missed.segs]
  have rc : (c'.entry k e).rc = (c.entry k e).rc := by
    rw [entry, entry, index]
    exact congrFun missed.rcs (c.idx k e)
  rw [rc]
  exact busy e (by rw [← seg]; exact queued) (by rw [← cfg]; exact inside)

/-- A request for an absent expert is refused exactly when its layer is at its quota and has
all of its queues in use, or is below it, nothing is free and the layer furthest over its
quota has. -/
theorem Ok.demand_refused_iff (ok : c.Ok) (layer : l < c.cfg.nLayer)
    (inside : e < c.cfg.nExpert) (absent : (c.entry l e).seg = .none) :
    (c.acquire l e .demand).2.2 = NO_SLOT ↔ c.Refuses l := by
  have missed := ok.missed layer inside
  have seg : ((c.setEntry l e { c.entry l e with last := c.step }).entry l e).seg = .none := by
    simp [absent]
  have same : (c.missed l e).Refuses l ↔ c.Refuses l := by
    simp only [Refuses]
    rw [missed.busy_iff rfl, missed.busy_iff rfl, missed.victimLayer_eq rfl rfl, missed.resident]
    rfl
  rw [← same, ← missed.ok.allocSlot_refuses layer, ExpertCache.acquire]
  dsimp only
  rw [if_neg (not_not.mpr seg), acquireMiss_eq _ (ok.table _ (c.idx_lt_total layer inside)),
    if_neg (by decide)]
  by_cases none : ((c.missed l e).allocSlot l).2 = NO_SLOT
  · rw [if_pos none]
    exact iff_of_true rfl none
  · rw [if_neg none]

/-! ## Nothing in use -/

theorem Ok.busy_idle_iff (ok : c.Ok) (layer : k < c.cfg.nLayer)
    (idle : ∀ i, i < c.cfg.nExpert → (c.entry k i).rc = 0) :
    c.Busy k ↔ ¬(c.lay k).pinned < (c.lay k).resident := by
  have layerOk := ok.layers k layer
  have counted := layerOk.residentEq
  constructor
  · intro busy some
    have queued : ∃ i, i < c.cfg.nExpert ∧ (c.segs k i = .small ∨ c.segs k i = .main) := by
      by_cases small : (c.lay k).small = []
      · have main : (c.lay k).main ≠ [] := by
          rintro none
          rw [small, none, List.length_nil] at counted
          omega
        obtain ⟨i, member⟩ := List.exists_mem_of_ne_nil _ main
        obtain ⟨inside, seg⟩ := (layerOk.memMain i).mp member
        exact ⟨i, inside, Or.inr seg⟩
      · obtain ⟨i, member⟩ := List.exists_mem_of_ne_nil _ small
        obtain ⟨inside, seg⟩ := (layerOk.memSmall i).mp member
        exact ⟨i, inside, Or.inl seg⟩
    obtain ⟨i, inside, seg⟩ := queued
    have used := busy i seg inside
    rw [idle i inside] at used
    exact absurd used (Nat.lt_irrefl 0)
  · intro none i seg inside
    rcases seg with small | main
    · have positive := List.length_pos_of_mem ((layerOk.memSmall i).mpr ⟨inside, small⟩)
      omega
    · have positive := List.length_pos_of_mem ((layerOk.memMain i).mpr ⟨inside, main⟩)
      omega

theorem neg_le_overQuota (c : ExpertCache) (k : Nat) : -2 ^ 31 ≤ c.overQuota k := by
  have low := Int.le_bmod (x := i32 (c.lay k).resident - i32 (c.quota k)) (m := 2 ^ 32) (by decide)
  rw [overQuota, i32]
  omega

/-- A layer that holds something to evict and is not `2 ^ 31` below its quota, the least
number there is. -/
def Lends (c : ExpertCache) (k : Nat) : Prop :=
  (c.lay k).pinned < (c.lay k).resident ∧ c.overQuota k ≠ -2 ^ 31

/-- One turn of the scan for the layer furthest over its quota. -/
def further (c : ExpertCache) (worst : Int × Nat) (k : Nat) : Int × Nat :=
  if worst.1 < c.overQuota k ∧ (c.lay k).pinned < (c.lay k).resident then (c.overQuota k, k)
  else worst

theorem further_cases (c : ExpertCache) {excess : Int} (j k : Nat) (least : -2 ^ 31 ≤ excess) :
    (c.Lends k ∧ c.further (excess, j) k = (c.overQuota k, k)) ∨
      (c.further (excess, j) k = (excess, j) ∧ (excess = -2 ^ 31 → ¬c.Lends k)) := by
  by_cases better : excess < c.overQuota k ∧ (c.lay k).pinned < (c.lay k).resident
  · have above : -2 ^ 31 < c.overQuota k := lt_of_le_of_lt least better.1
    exact Or.inl ⟨⟨better.2, above.ne'⟩, if_pos better⟩
  · refine Or.inr ⟨if_neg better, fun start lends => better ⟨?_, lends.1⟩⟩
    have low := c.neg_le_overQuota k
    have apart := lends.2
    omega

theorem foldl_further (c : ExpertCache) (ks : List Nat) {excess : Int} (j : Nat)
    (least : -2 ^ 31 ≤ excess) :
    (c.Lends j → c.Lends (ks.foldl c.further (excess, j)).2) ∧
      (excess = -2 ^ 31 → c.Lends (ks.foldl c.further (excess, j)).2 ∨
        (ks.foldl c.further (excess, j) = (excess, j) ∧ ∀ k ∈ ks, ¬c.Lends k)) := by
  induction ks generalizing excess j with
  | nil => exact ⟨id, fun _ => Or.inr ⟨rfl, by simp⟩⟩
  | cons k ks ih =>
      rw [List.foldl_cons]
      rcases c.further_cases j k least with ⟨lends, taken⟩ | ⟨kept, none⟩
      · rw [taken]
        have later := (ih k (c.neg_le_overQuota k)).1 lends
        exact ⟨fun _ => later, fun _ => Or.inl later⟩
      · rw [kept]
        refine ⟨(ih j least).1, fun start => ?_⟩
        rcases (ih j least).2 start with lends | ⟨same, others⟩
        · exact Or.inl lends
        · exact Or.inr ⟨same, List.forall_mem_cons.mpr ⟨none start, others⟩⟩

theorem victimLayer_cases (c : ExpertCache) (l : Nat) :
    c.Lends (c.victimLayer l) ∨ (c.victimLayer l = l ∧ ∀ k, k < c.cfg.nLayer → ¬c.Lends k) := by
  have chosen : c.victimLayer l = ((List.range c.cfg.nLayer).foldl c.further (-2 ^ 31, l)).2 := rfl
  rw [chosen]
  rcases (c.foldl_further (List.range c.cfg.nLayer) l (le_refl (-2 ^ 31))).2 rfl with
    lends | ⟨same, none⟩
  · exact Or.inl lends
  · rw [same]
    exact Or.inr ⟨rfl, fun k layer => none k (List.mem_range.mpr layer)⟩

/-- A request for an expert that is not in the cache, in a state in which nothing is in use
and a slot is free or held by an expert that is not pinned. -/
structure Demands (c : ExpertCache) (l e : Nat) : Prop where
  layer : l < c.cfg.nLayer
  inside : e < c.cfg.nExpert
  absent : (c.entry l e).seg = .none
  idle : ∀ k, k < c.cfg.nLayer → ∀ i, i < c.cfg.nExpert → (c.entry k i).rc = 0
  quota : 1 ≤ c.quota l
  available : c.free ≠ [] ∨ ∃ k, k < c.cfg.nLayer ∧ ∃ i, i < c.cfg.nExpert ∧
    (c.entry k i).seg ≠ .none ∧ (c.entry k i).seg ≠ .pinned

/-- The layer holds something to evict, or it is below its quota and a slot is free or
lent. -/
def CanServe (c : ExpertCache) (l : Nat) : Prop :=
  (c.lay l).pinned < (c.lay l).resident ∨ ((c.lay l).resident < c.quota l ∧
    (c.free ≠ [] ∨ ∃ k, k < c.cfg.nLayer ∧ c.Lends k))

theorem Ok.refuses_idle_iff (ok : c.Ok) (demands : Demands c l e) :
    c.Refuses l ↔ ¬c.CanServe l := by
  have busy (k : Nat) (layer : k < c.cfg.nLayer) := ok.busy_idle_iff layer (demands.idle k layer)
  have victim := c.victimLayer_lt demands.layer
  rw [Refuses, CanServe, busy l demands.layer, busy _ victim]
  -- the layer that is chosen lends, or it is `l` itself and no layer does
  constructor
  · rintro (⟨full, none⟩ | ⟨below, empty, none⟩) (some | ⟨under, source⟩)
    · exact none some
    · omega
    · rcases c.victimLayer_cases l with lends | ⟨own, -⟩
      · exact none lends.1
      · rw [own] at none
        exact none some
    · rcases c.victimLayer_cases l with lends | ⟨-, others⟩
      · exact none lends.1
      · rcases source with free | ⟨k, layer, lends⟩
        · exact free empty
        · exact others k layer lends
  · intro starved
    obtain ⟨own, source⟩ := not_or.mp starved
    by_cases full : c.quota l ≤ (c.lay l).resident
    · exact Or.inl ⟨full, own⟩
    · have below : (c.lay l).resident < c.quota l := by omega
      obtain ⟨empty, none⟩ := not_or.mp fun some => source ⟨below, some⟩
      refine Or.inr ⟨below, not_not.mp empty, ?_⟩
      rcases c.victimLayer_cases l with lends | ⟨same, -⟩
      · exact absurd ⟨_, victim, lends⟩ none
      · rw [same]
        exact own

/-- With nothing in use and a slot to be had, a demand is granted exactly when its layer
holds an expert that is not pinned, or is below its quota (and, where no slot is free, some
layer with such an expert is not `2 ^ 31` below its own). -/
theorem demand_served_iff (cfg : Config) (ops : List Op) (inRange : ∀ op ∈ ops, op.InRange cfg)
    (demands : Demands ((init cfg).run ops) l e) :
    (((init cfg).run ops).acquire l e .demand).2.2 ≠ NO_SLOT ↔ ((init cfg).run ops).CanServe l := by
  have ok := ((init_ok cfg).run ops inRange).1
  rw [Ne, ok.demand_refused_iff demands.layer demands.inside demands.absent,
    ok.refuses_idle_iff demands, not_not]

/-- Two layers of four experts on five slots, half of each layer pinned. -/
def halfPinned : Config :=
  { nLayer := 2, nExpert := 4, nSlot := 5, pinRatio := 1 / 2 }

/-- Frequencies without a difference, which any order sorts. -/
def pinHalf : Op := .buildPinned [0, 0, 0, 0, 0, 0, 0, 0] fun _ => [0, 1, 2, 3]

theorem pinHalf_inRange : pinHalf.InRange halfPinned := by
  intro l layer
  refine ⟨List.Perm.refl _, fun i j _ _ a b _ _ => ?_⟩
  have zero (i : Nat) : [0, 0, 0, 0, 0, 0, 0, 0].getD i 0 = 0 := by
    match i with
    | 0 | 1 | 2 | 3 | 4 | 5 | 6 | 7 => rfl
    | i + 8 => rfl
  rw [zero, zero]

/-- A slot is free and nothing is in use, and layer 1 gets none: it holds two pinned experts
and its quota is two. -/
theorem pinned_starved :
    pinHalf.InRange halfPinned ∧ Demands ((init halfPinned).run [pinHalf]) 1 2 ∧
      (((init halfPinned).run [pinHalf]).acquire 1 2 .demand).2.2 = NO_SLOT := by
  have free : ((init halfPinned).run [pinHalf]).free = [4] := by decide +kernel
  refine ⟨pinHalf_inRange, ⟨by decide +kernel, by decide +kernel, by decide +kernel,
    by decide +kernel, by decide +kernel, Or.inl ?_⟩, by decide +kernel⟩
  rw [free]
  exact List.cons_ne_nil _ _

/-- Layer 0 takes in an expert beside its pinned ones, hits both kinds, and gives it up for
another. -/
def pinnedRun : List Op :=
  [pinHalf, .acquire 0 2 .demand, .markResident 0 2 100, .acquire 0 0 .demand,
    .acquire 0 2 .demand, .release 0 0, .release 0 2, .release 0 2, .endStep,
    .acquire 0 3 .demand, .release 0 3]

theorem pinnedRun_inRange : ∀ op ∈ pinnedRun, op.InRange halfPinned := by
  intro op member
  rcases List.mem_cons.mp member with rfl | later
  · exact pinHalf_inRange
  · simp only [List.mem_cons, List.not_mem_nil, or_false] at later
    rcases later with rfl | rfl | rfl | rfl | rfl | rfl | rfl | rfl | rfl | rfl <;>
      simp [Op.InRange, halfPinned]

/-- The expert that was evicted is served again, in the place of the one that took its. -/
theorem evicted_served :
    (((init halfPinned).run pinnedRun).acquire 0 2 .demand).2.2 ≠ NO_SLOT := by
  have demands : Demands ((init halfPinned).run pinnedRun) 0 2 := by
    refine ⟨by decide +kernel, by decide +kernel, by decide +kernel, by decide +kernel,
      by decide +kernel, Or.inr ⟨0, by decide +kernel, 3, by decide +kernel, ?_⟩⟩
    decide +kernel
  refine (demand_served_iff halfPinned pinnedRun pinnedRun_inRange demands).mpr (Or.inl ?_)
  decide +kernel

end ExpertCache

end MoeStream
