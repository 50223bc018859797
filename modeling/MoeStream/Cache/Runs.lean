import MoeStream.Cache.Steps

/-!
# The invariant over whole runs

The remaining operations (completion, release, pinning, the end of a step) keep
the invariant, so every run from a freshly built cache does.  The last section
reads the invariant off in terms of the data structures alone.
-/

set_option autoImplicit false

namespace MoeStream

open Foundation.FixedWidth
open Foundation.TokenPartition

namespace ExpertCache

variable {c : ExpertCache} {l e : Nat}

theorem Ok.markResident (ok : c.Ok) (layer : l < c.cfg.nLayer) (inside : e < c.cfg.nExpert)
    (nbytes : Nat) : (c.markResident l e nbytes).Ok := by
  have before := ok.entry layer inside
  unfold ExpertCache.markResident
  simp only
  split
  · exact ok
  · have marked := ok.adjust { c.entry l e with resident := true } layer inside rfl rfl
      ⟨before.absent, before.idle, before.small, before.main⟩
    exact marked.restat { marked.stats with }

theorem Ok.release (ok : c.Ok) (layer : l < c.cfg.nLayer) (inside : e < c.cfg.nExpert) :
    (c.release l e).Ok := by
  have before := ok.entry layer inside
  unfold ExpertCache.release
  simp only
  split
  · refine ok.adjust _ layer inside rfl rfl
      ⟨before.absent, fun absent => ?_, before.small, before.main⟩
    have idle := before.idle absent
    simp only
    omega
  · exact ok

/-! ## Pinning -/

theorem Ok.pin (ok : c.Ok) (layer : l < c.cfg.nLayer) (inside : e < c.cfg.nExpert)
    (absent : (c.entry l e).seg = .none) {s : Nat} {rest : List Nat}
    (available : c.free = s :: rest) : (c.pin l e s rest).Ok := by
  have seat : c.seats (c.idx l e) = none := Entry.held_none.mpr absent
  have bound : s < c.nSlot := ok.free_lt (by rw [available]; exact List.mem_cons_self)
  have named : s ≠ NO_SLOT := by
    have slots := ok.slots
    omega
  have result : c.pin l e s rest = c.replaced l e
      { c.entry l e with slot := s, seg := .pinned, resident := true }
      { c.lay l with pinned := (c.lay l).pinned + 1, resident := (c.lay l).resident + 1 }
      rest c.st := rfl
  rw [result]
  refine ok.replaced layer inside ?_ ?_ ?_ ?_
  · refine ⟨⟨fun none => ?_, fun h => absurd h named⟩, fun none => ?_, fun small => ?_,
      fun main => ?_⟩
    · cases none
    · cases none
    · cases small
    · cases main
  · exact (ok.layers l layer).pin inside absent
  · have partition := ok.split
    rw [available] at partition
    have held : ({ c.entry l e with slot := s, seg := .pinned, resident := true } : Entry).held =
        some s := Entry.held_some.mpr ⟨nofun, rfl⟩
    rw [held]
    exact partition.take (c.idx_lt_total layer inside) seat
  · intro q balance
    have counted : q = c.queued := by
      unfold LayerState.queued at balance
      simp only at balance
      omega
    rw [counted]
    exact ok.stats

structure Pinned (c c' : ExpertCache) : Prop where
  ok : c'.Ok
  cfg : c'.cfg = c.cfg
  nSlot : c'.nSlot = c.nSlot
  st : c'.st = c.st

theorem Pinned.trans {c' c'' : ExpertCache} (first : Pinned c c') (second : Pinned c' c'') :
    Pinned c c'' :=
  ⟨second.ok, second.cfg.trans first.cfg, second.nSlot.trans first.nSlot,
    second.st.trans first.st⟩

theorem pinLayer_keeps {P : ExpertCache → Prop} (order : List Nat)
    (pin : ∀ d e s free, P d → e ∈ order → d.free = s :: free → (d.entry l e).seg = .none →
      P (d.pin l e s free)) (before : P c) : P (ExpertCache.pinLayer l order c) := by
  induction order generalizing c with
  | nil => exact before
  | cons e rest ih =>
      have later : ∀ d, P d → P (ExpertCache.pinLayer l rest d) := fun d =>
        ih fun d e' s free kept member => pin d e' s free kept (List.mem_cons_of_mem e member)
      simp only [ExpertCache.pinLayer]
      cases available : c.free with
      | nil => exact before
      | cons s free =>
          dsimp only
          split
          · exact later c before
          · rename_i absent
            exact later _ (pin c e s free before List.mem_cons_self available (not_not.mp absent))

theorem buildPinned_keeps {P : ExpertCache → Prop} (freq : List Nat) (order : Nat → List Nat)
    (pin : ∀ d l e s free, P d → l < c.cfg.nLayer → e ∈ order l → d.free = s :: free →
      (d.entry l e).seg = .none → P (d.pin l e s free)) (before : P c) :
    P (c.buildPinned freq order) := by
  simp only [ExpertCache.buildPinned]
  split
  · exact before
  · apply List.foldlRecOn (List.range c.cfg.nLayer) _ before
    intro d kept l listed
    apply pinLayer_keeps _ ?_ kept
    intro d' e s free kept' member
    exact pin d' l e s free kept' (List.mem_range.mp listed) (List.mem_of_mem_take member)

theorem Ok.buildPinned (ok : c.Ok) (freq : List Nat) (order : Nat → List Nat)
    (sorted : ∀ l, l < c.cfg.nLayer →
      PartialSorted freq (l * c.cfg.nExpert) c.cfg.nExpert (pinPerLayer c.cfg) (order l)) :
    Pinned c (c.buildPinned freq order) := by
  apply buildPinned_keeps freq order ?_ ⟨ok, rfl, rfl, rfl⟩
  intro d l e s free before layer listed available absent
  have inside := List.mem_range.mp ((sorted l layer).perm.subset listed)
  rw [← before.cfg] at layer inside
  have pinned := before.ok.pin layer inside absent available
  exact before.trans ⟨pinned, rfl, rfl, rfl⟩

/-! ## The end of a step -/

theorem Ok.rebalanceQuota (ok : c.Ok) : Pinned c c.rebalanceQuota := by
  unfold ExpertCache.rebalanceQuota
  simp only
  split
  · exact ⟨ok.congr rfl rfl rfl rfl (fun _ => rfl) rfl rfl, rfl, rfl, rfl⟩
  · exact ⟨ok.congr rfl rfl rfl rfl (fun _ => rfl) rfl rfl, rfl, rfl, rfl⟩

theorem Ok.endStep (ok : c.Ok) : Pinned c c.endStep := by
  have stepped : Pinned c { c with step := u32 (c.step + 1) } :=
    ⟨ok.congr rfl rfl rfl rfl (fun _ => rfl) rfl rfl, rfl, rfl, rfl⟩
  unfold ExpertCache.endStep
  simp only
  split
  · exact stepped.trans stepped.ok.rebalanceQuota
  · exact stepped

/-! ## Runs -/

def Op.isAcquire : Op → Bool
  | .acquire _ _ _ => true
  | _ => false

structure Applied (c : ExpertCache) (op : Op) (c' : ExpertCache) : Prop where
  ok : c'.Ok
  cfg : c'.cfg = c.cfg
  nSlot : c'.nSlot = c.nSlot
  counted : c'.st.hit + c'.st.miss =
    c.st.hit + c.st.miss + if op.isAcquire then 1 else 0

theorem Pinned.applied {c' : ExpertCache} {op : Op} (pinned : Pinned c c')
    (other : op.isAcquire = false) : Applied c op c' :=
  ⟨pinned.ok, pinned.cfg, pinned.nSlot, by rw [pinned.st, other]; rfl⟩

theorem Ok.apply (ok : c.Ok) (op : Op) (inRange : op.InRange c.cfg) :
    Applied c op (c.apply op) := by
  cases op with
  | acquire layer expert origin =>
      have requested := (ok.acquire inRange.1 inRange.2 origin).1
      exact ⟨requested.ok, requested.cfg, requested.nSlot, requested.counted⟩
  | markResident layer expert nbytes =>
      refine ⟨ok.markResident inRange.1 inRange.2 nbytes, ?_, ?_, ?_⟩
      all_goals
        unfold ExpertCache.apply ExpertCache.markResident
        simp only
        split <;> rfl
  | release layer expert =>
      refine ⟨ok.release inRange.1 inRange.2, ?_, ?_, ?_⟩
      all_goals
        unfold ExpertCache.apply ExpertCache.release
        simp only
        split <;> rfl
  | endStep => exact ok.endStep.applied rfl
  | buildPinned freq order => exact (ok.buildPinned freq order inRange).applied rfl

theorem Ok.apply_quota_other (ok : c.Ok) (op : Op) (inRange : op.InRange c.cfg)
    (other : op ≠ .endStep) : (c.apply op).quota = c.quota := by
  cases op with
  | acquire layer expert origin => exact (ok.acquire inRange.1 inRange.2 origin).1.quota
  | markResident layer expert nbytes =>
      simp only [ExpertCache.apply, ExpertCache.markResident]
      split <;> rfl
  | release layer expert =>
      simp only [ExpertCache.apply, ExpertCache.release]
      split <;> rfl
  | endStep => exact absurd rfl other
  | buildPinned freq order =>
      exact buildPinned_keeps (P := fun d => d.quota = c.quota) freq order
        (fun _ _ _ _ _ kept _ _ _ _ => kept) rfl

theorem Ok.run (ok : c.Ok) (ops : List Op) (inRange : ∀ op ∈ ops, op.InRange c.cfg) :
    (c.run ops).Ok ∧ (c.run ops).cfg = c.cfg ∧ (c.run ops).nSlot = c.nSlot ∧
      (c.run ops).st.hit + (c.run ops).st.miss =
        c.st.hit + c.st.miss + ops.countP Op.isAcquire := by
  induction ops generalizing c with
  | nil => exact ⟨ok, rfl, rfl, rfl⟩
  | cons op rest ih =>
      have applied := ok.apply op (inRange op List.mem_cons_self)
      obtain ⟨final, cfg, nSlot, counted⟩ := ih applied.ok fun next member => by
        rw [applied.cfg]
        exact inRange next (List.mem_cons_of_mem op member)
      refine ⟨final, cfg.trans applied.cfg, nSlot.trans applied.nSlot, ?_⟩
      have once := applied.counted
      rw [List.countP_cons]
      exact counted.trans (by omega)

theorem init_ok (cfg : Config) : (init cfg).Ok where
  slots := by
    have bound : (init cfg).nSlot < 2 ^ 32 := by
      unfold init
      simp only
      split <;> exact u32_lt _
    simp only [NO_SLOT]
    omega
  entries := fun _ _ => ⟨by simp [init], fun _ => rfl, nofun, nofun⟩
  table := fun _ _ => rfl
  layers := fun _ _ => LayerOk.initial _
  split := Partition.initial _ _
  stats := by
    have none : (init cfg).queued = 0 := Finset.sum_eq_zero fun _ _ => rfl
    rw [none]
    exact ⟨rfl, rfl, rfl, Nat.le_refl 0, Nat.le_refl 0⟩

/-! ## The invariant in terms of the data structures -/

theorem length_eq_countP {q : List Nat} {n : Nat} {p : Nat → Bool} (nodup : q.Nodup)
    (members : ∀ e, e ∈ q ↔ e < n ∧ p e = true) : q.length = (List.range n).countP p := by
  have listed : q.Perm ((List.range n).filter p) := by
    refine (List.perm_ext_iff_of_nodup nodup (List.nodup_range.filter p)).mpr ?_
    intro e
    rw [members, List.mem_filter, List.mem_range]
  rw [List.countP_eq_length_filter]
  exact listed.length_eq

theorem countP_present (f : Nat → Seg) (es : List Nat) :
    es.countP (fun e => decide (f e ≠ .none)) =
      es.countP (fun e => decide (f e = .small)) +
        es.countP (fun e => decide (f e = .main)) +
        es.countP (fun e => decide (f e = .pinned)) := by
  induction es with
  | nil => rfl
  | cons e rest ih =>
      simp only [List.countP_cons, ih]
      cases f e <;> simp <;> omega

/-- The agreement of entries, queues, free stack and counters. -/
structure Represents (c : ExpertCache) : Prop where
  slots : (c.free ++ (List.range c.total).filterMap fun i =>
    if (c.ent i).seg = .none then none else some (c.ent i).slot).Perm (List.range c.nSlot)
  absent : ∀ i, i < c.total → ((c.ent i).seg = .none ↔ (c.ent i).slot = NO_SLOT)
  table : ∀ i, i < c.total → c.slot i = (c.ent i).slot
  small : ∀ l, l < c.cfg.nLayer → ∀ e, (c.lay l).small.count e =
    if e < c.cfg.nExpert ∧ (c.entry l e).seg = .small then 1 else 0
  main : ∀ l, l < c.cfg.nLayer → ∀ e, (c.lay l).main.count e =
    if e < c.cfg.nExpert ∧ (c.entry l e).seg = .main then 1 else 0
  ghost : ∀ l, l < c.cfg.nLayer → (c.lay l).ghost.Nodup ∧
    ∀ e ∈ (c.lay l).ghost, e ∉ (c.lay l).small ∧ e ∉ (c.lay l).main
  resident : ∀ l, l < c.cfg.nLayer → (c.lay l).resident =
    (List.range c.cfg.nExpert).countP fun e => decide ((c.entry l e).seg ≠ .none)
  pinned : ∀ l, l < c.cfg.nLayer → (c.lay l).pinned =
    (List.range c.cfg.nExpert).countP fun e => decide ((c.entry l e).seg = .pinned)
  queues : ∀ l, l < c.cfg.nLayer → (c.lay l).resident =
    (c.lay l).small.length + (c.lay l).main.length + (c.lay l).pinned
  freqSmall : ∀ i, i < c.total → (c.ent i).seg = .small → (c.ent i).freq = 1
  freqMain : ∀ i, i < c.total → (c.ent i).seg = .main →
    1 ≤ (c.ent i).freq ∧ (c.ent i).freq ≤ 3
  idle : ∀ i, i < c.total → (c.ent i).seg = .none → (c.ent i).rc = 0
  hits : c.st.hit = c.st.hitPinned + c.st.hitSmall + c.st.hitMain
  promotes : c.st.promote = c.st.hitSmall
  admits : c.st.admitted = c.st.evict +
    ∑ l ∈ Finset.range c.cfg.nLayer, ((c.lay l).small.length + (c.lay l).main.length)

theorem count_eq {q : List Nat} {e : Nat} {P : Prop} [Decidable P] (nodup : q.Nodup)
    (member : e ∈ q ↔ P) : q.count e = if P then 1 else 0 := by
  rw [nodup.count]
  exact if_congr member rfl rfl

theorem Ok.represents (ok : c.Ok) : Represents c where
  slots := ok.split.perm
  absent := fun i bound => (ok.entries i bound).absent
  table := ok.table
  small := fun l layer e => count_eq (ok.layers l layer).smallNodup ((ok.layers l layer).memSmall e)
  main := fun l layer e => count_eq (ok.layers l layer).mainNodup ((ok.layers l layer).memMain e)
  ghost := fun l layer => ⟨(ok.layers l layer).ghostNodup, fun e listed =>
    ((ok.layers l layer).ghostApart e listed).2⟩
  resident := by
    intro l layer
    have layerOk := ok.layers l layer
    have small := length_eq_countP (p := fun e => decide (c.segs l e = .small))
      layerOk.smallNodup (by simpa using layerOk.memSmall)
    have main := length_eq_countP (p := fun e => decide (c.segs l e = .main))
      layerOk.mainNodup (by simpa using layerOk.memMain)
    have present := countP_present (c.segs l) (List.range c.cfg.nExpert)
    rw [layerOk.residentEq, layerOk.pinnedEq, small, main]
    exact present.symm
  pinned := fun l layer => (ok.layers l layer).pinnedEq
  queues := fun l layer => (ok.layers l layer).residentEq
  freqSmall := fun i bound => (ok.entries i bound).small
  freqMain := fun i bound => (ok.entries i bound).main
  idle := fun i bound => (ok.entries i bound).idle
  hits := ok.stats.hits
  promotes := ok.stats.promotes
  admits := ok.stats.admits

/-- Every cache reached by a run represents its state consistently, and hits and
misses count its requests. -/
theorem run_represents (cfg : Config) (ops : List Op)
    (inRange : ∀ op ∈ ops, op.InRange cfg) :
    Represents ((init cfg).run ops) ∧
      ((init cfg).run ops).st.hit + ((init cfg).run ops).st.miss =
        ops.countP Op.isAcquire := by
  obtain ⟨final, _, _, counted⟩ := (init_ok cfg).run ops inRange
  refine ⟨final.represents, counted.trans ?_⟩
  exact Nat.zero_add _

/-- A pinned expert, a hit, a miss that evicts and a sweep in one small cache. -/
theorem run_represents_small :
    Represents ((init { nLayer := 1, nExpert := 3, nSlot := 2, pinRatio := 1 / 3 }).run
        [.buildPinned [5, 0, 0] fun _ => [0, 1, 2], .acquire 0 1 .demand, .acquire 0 1 .demand,
          .release 0 1, .release 0 1, .acquire 0 2 .demand, .acquire 0 1 .sweep, .endStep]) ∧
      ((init { nLayer := 1, nExpert := 3, nSlot := 2, pinRatio := 1 / 3 }).run
        [.buildPinned [5, 0, 0] fun _ => [0, 1, 2], .acquire 0 1 .demand, .acquire 0 1 .demand,
          .release 0 1, .release 0 1, .acquire 0 2 .demand, .acquire 0 1 .sweep,
          .endStep]).st.hit +
      ((init { nLayer := 1, nExpert := 3, nSlot := 2, pinRatio := 1 / 3 }).run
        [.buildPinned [5, 0, 0] fun _ => [0, 1, 2], .acquire 0 1 .demand, .acquire 0 1 .demand,
          .release 0 1, .release 0 1, .acquire 0 2 .demand, .acquire 0 1 .sweep,
          .endStep]).st.miss = 4 := by
  refine run_represents _ _ ?_
  intro op member
  simp only [List.mem_cons, List.not_mem_nil, or_false] at member
  rcases member with rfl | rfl | rfl | rfl | rfl | rfl | rfl | rfl
  · intro l layer
    have first : l = 0 := by
      have bound : l < 1 := layer
      omega
    subst first
    have one : pinPerLayer { nLayer := 1, nExpert := 3, nSlot := 2, pinRatio := 1 / 3 } = 1 := by
      decide +kernel
    refine ⟨List.Perm.refl _, ?_⟩
    intro i j before inside a b top other
    rw [one] at inside
    have zero : i = 0 := by omega
    subst zero
    cases top
    match j, other with
    | 1, other => cases other; decide
    | 2, other => cases other; decide
    | j + 3, other => cases other
  all_goals simp [Op.InRange]

end ExpertCache

end MoeStream
