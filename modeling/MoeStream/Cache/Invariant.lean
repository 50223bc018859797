import Mathlib.Algebra.BigOperators.Group.Finset.Basic
import MoeStream.Cache.EvictOne
import MoeStream.Cache.Quota
import MoeStream.Foundation.TokenPartition

/-!
# The representation invariant

Entries, slot table, queues, free stack and statistics are kept in agreement by
hand in five operations.  Every one of them that touches an expert exchanges one
entry, one layer, the free stack and the statistics; `Ok.replaced` says what
such an exchange has to respect, and each operation is an instance of it.
-/

set_option autoImplicit false

namespace MoeStream

open Foundation.FixedWidth
open Foundation.RotatingScan
open Foundation.TokenPartition

/-- The slot an entry holds, if it holds one. -/
def Entry.held (en : Entry) : Option Nat :=
  if en.seg = .none then Option.none else some en.slot

structure EntryOk (en : Entry) : Prop where
  absent : en.seg = .none ↔ en.slot = NO_SLOT
  idle : en.seg = .none → en.rc = 0
  small : en.seg = .small → en.freq = 1
  main : en.seg = .main → 1 ≤ en.freq ∧ en.freq ≤ FREQ_MAX

theorem Entry.held_none {en : Entry} : en.held = Option.none ↔ en.seg = .none := by
  simp only [Entry.held]
  split
  · simp [*]
  · simp [*]

theorem Entry.held_some {en : Entry} {s : Nat} :
    en.held = some s ↔ en.seg ≠ .none ∧ en.slot = s := by
  simp only [Entry.held]
  split
  · simp [*]
  · simp [*]

def LayerState.queued (ls : LayerState) : Nat := ls.small.length + ls.main.length

@[simp] theorem LayerState.enqueue_queued (ls : LayerState) (e : Nat) (origin : Origin)
    (wasGhost : Bool) : (ls.enqueue e origin wasGhost).1.queued = ls.queued + 1 := by
  simp only [LayerState.enqueue, LayerState.queued]
  split
  · simp only [List.length_append, List.length_singleton]
    omega
  · split
    · simp only [List.length_cons]
      omega
    · simp only [List.length_append, List.length_singleton]
      omega

structure StatsOk (st : CacheStats) (queued : Nat) : Prop where
  hits : st.hit = st.hitPinned + st.hitSmall + st.hitMain
  promotes : st.promote = st.hitSmall
  admits : st.admitted = st.evict + queued
  misses : st.admitted + st.bypass ≤ st.miss
  ghosts : st.ghostHit ≤ st.miss

namespace ExpertCache

def segs (c : ExpertCache) (l : Nat) : Nat → Seg := fun e => (c.entry l e).seg

def seats (c : ExpertCache) : Nat → Option Nat := fun i => (c.ent i).held

def queued (c : ExpertCache) : Nat :=
  ∑ l ∈ Finset.range c.cfg.nLayer, (c.lay l).queued

structure Ok (c : ExpertCache) : Prop where
  slots : c.nSlot ≤ NO_SLOT
  entries : ∀ i, i < c.total → EntryOk (c.ent i)
  table : ∀ i, i < c.total → c.slot i = (c.ent i).slot
  layers : ∀ l, l < c.cfg.nLayer → LayerOk c.cfg.nExpert (c.segs l) (c.lay l)
  split : Partition (List.range c.nSlot) c.free c.total c.seats
  stats : StatsOk c.st c.queued

def replaced (c : ExpertCache) (l e : Nat) (en : Entry) (ls : LayerState)
    (free : List Nat) (st : CacheStats) : ExpertCache :=
  { c with
    ent := Function.update c.ent (c.idx l e) en
    slot := Function.update c.slot (c.idx l e) en.slot
    lay := Function.update c.lay l ls
    free := free
    st := st }

variable {c : ExpertCache} {l e : Nat} {en : Entry} {ls : LayerState} {free : List Nat}
  {st : CacheStats}

theorem idx_inj_left (c : ExpertCache) {l e e' : Nat} (same : c.idx l e = c.idx l e') :
    e = e' := by
  simp only [idx] at same
  omega

@[simp] theorem setEntry_self : (c.setEntry l e en).entry l e = en := by
  simp only [setEntry, entry, idx, Function.update_self]

@[simp] theorem setEntry_of_ne {e' : Nat} (other : e' ≠ e) :
    (c.setEntry l e en).entry l e' = c.entry l e' :=
  Function.update_of_ne (fun same => other (c.idx_inj_left same)) _ _

@[simp] theorem replaced_cfg : (c.replaced l e en ls free st).cfg = c.cfg := rfl

@[simp] theorem replaced_nSlot : (c.replaced l e en ls free st).nSlot = c.nSlot := rfl

@[simp] theorem replaced_total : (c.replaced l e en ls free st).total = c.total := rfl

@[simp] theorem replaced_free : (c.replaced l e en ls free st).free = free := rfl

@[simp] theorem replaced_ent_self : (c.replaced l e en ls free st).ent (c.idx l e) = en := by
  simp only [replaced, Function.update_self]

@[simp] theorem replaced_ent_of_ne {i : Nat} (different : i ≠ c.idx l e) :
    (c.replaced l e en ls free st).ent i = c.ent i := by
  simp only [replaced, Function.update_of_ne different]

@[simp] theorem replaced_entry_self : (c.replaced l e en ls free st).entry l e = en :=
  replaced_ent_self

@[simp] theorem replaced_entry_of_ne {e' : Nat} (other : e' ≠ e) :
    (c.replaced l e en ls free st).entry l e' = c.entry l e' :=
  replaced_ent_of_ne fun same => other (c.idx_inj_left same)

@[simp] theorem replaced_slot_self : (c.replaced l e en ls free st).slot (c.idx l e) = en.slot := by
  simp only [replaced, Function.update_self]

@[simp] theorem replaced_slot_of_ne {i : Nat} (different : i ≠ c.idx l e) :
    (c.replaced l e en ls free st).slot i = c.slot i := by
  simp only [replaced, Function.update_of_ne different]

@[simp] theorem replaced_lay_self : (c.replaced l e en ls free st).lay l = ls := by
  simp only [replaced, Function.update_self]

@[simp] theorem replaced_lay_of_ne {k : Nat} (different : k ≠ l) :
    (c.replaced l e en ls free st).lay k = c.lay k := by
  simp only [replaced, Function.update_of_ne different]

/-- An exchanged layer with as many pinned experts keeps the pinned counts. -/
theorem replaced_pinned (same : ls.pinned = (c.lay l).pinned) (k : Nat) :
    ((c.replaced l e en ls free st).lay k).pinned = (c.lay k).pinned := by
  by_cases own : k = l
  · subst own
    rw [replaced_lay_self]
    exact same
  · rw [replaced_lay_of_ne own]

/-- An entry exchanged for one with the same slot leaves the slot table alone. -/
theorem replaced_same (same : c.slot (c.idx l e) = en.slot) :
    c.replaced l e en (c.lay l) c.free c.st = c.setEntry l e en := by
  simp only [replaced, setEntry]
  rw [← same, Function.update_eq_self, Function.update_eq_self]

@[simp] theorem segs_replaced : (c.replaced l e en ls free st).segs l =
    Function.update (c.segs l) e en.seg := by
  funext k
  by_cases same : k = e
  · subst same
    rw [Function.update_self]
    exact congrArg Entry.seg replaced_ent_self
  · have apart : c.idx l k ≠ c.idx l e := fun equal => same (c.idx_inj_left equal)
    rw [Function.update_of_ne same]
    exact congrArg Entry.seg (replaced_ent_of_ne apart)

theorem segs_replaced_other (inside : e < c.cfg.nExpert) {l' e' : Nat} (different : l' ≠ l)
    (inside' : e' < c.cfg.nExpert) :
    (c.replaced l e en ls free st).segs l' e' = c.segs l' e' := by
  have apart : c.idx l' e' ≠ c.idx l e := fun equal => different (c.idx_inj inside' inside equal).1
  exact congrArg Entry.seg (replaced_ent_of_ne apart)

@[simp] theorem seats_replaced :
    (c.replaced l e en ls free st).seats =
      Function.update c.seats (c.idx l e) en.held := by
  funext i
  by_cases same : i = c.idx l e
  · subst same
    rw [Function.update_self]
    exact congrArg Entry.held replaced_ent_self
  · rw [Function.update_of_ne same]
    exact congrArg Entry.held (replaced_ent_of_ne same)

theorem queued_replaced (layer : l < c.cfg.nLayer) :
    (c.replaced l e en ls free st).queued + (c.lay l).queued = c.queued + ls.queued := by
  have member : l ∈ Finset.range c.cfg.nLayer := Finset.mem_range.mpr layer
  have after := Finset.add_sum_erase (Finset.range c.cfg.nLayer)
    (fun k => ((c.replaced l e en ls free st).lay k).queued) member
  have before := Finset.add_sum_erase (Finset.range c.cfg.nLayer)
    (fun k => (c.lay k).queued) member
  have others : ∑ k ∈ (Finset.range c.cfg.nLayer).erase l,
        ((c.replaced l e en ls free st).lay k).queued =
      ∑ k ∈ (Finset.range c.cfg.nLayer).erase l, (c.lay k).queued := by
    refine Finset.sum_congr rfl ?_
    intro k other
    rw [replaced_lay_of_ne (Finset.ne_of_mem_erase other)]
  simp only [replaced_lay_self] at after
  have goal : (c.replaced l e en ls free st).queued =
      ∑ k ∈ Finset.range c.cfg.nLayer, ((c.replaced l e en ls free st).lay k).queued := rfl
  simp only [queued] at goal ⊢
  omega

namespace Ok

theorem replaced (ok : c.Ok) (layer : l < c.cfg.nLayer) (inside : e < c.cfg.nExpert)
    (entry : EntryOk en)
    (layerOk : LayerOk c.cfg.nExpert (Function.update (c.segs l) e en.seg) ls)
    (split : Partition (List.range c.nSlot) free c.total
      (Function.update c.seats (c.idx l e) en.held))
    (stats : ∀ q, q + (c.lay l).queued = c.queued + ls.queued → StatsOk st q) :
    (c.replaced l e en ls free st).Ok where
  slots := ok.slots
  entries := by
    intro i bound
    by_cases same : i = c.idx l e
    · subst same
      simpa using entry
    · simpa [same] using ok.entries i bound
  table := by
    intro i bound
    by_cases same : i = c.idx l e
    · subst same
      simp
    · simpa [same] using ok.table i bound
  layers := by
    intro k bound
    by_cases same : k = l
    · subst same
      simpa using layerOk
    · rw [replaced_lay_of_ne same]
      exact (ok.layers k bound).congr
        (fun e' bound' => segs_replaced_other inside same bound') rfl rfl rfl rfl rfl
  split := by simpa using split
  stats := stats _ (queued_replaced layer)

/-- An exchange that leaves the seat and the segment of the entry as they were. -/
theorem touched (ok : c.Ok) (layer : l < c.cfg.nLayer) (inside : e < c.cfg.nExpert)
    (slot : en.slot = (c.entry l e).slot) (seg : en.seg = (c.entry l e).seg)
    (entry : EntryOk en) (stats : StatsOk st c.queued) :
    (c.replaced l e en (c.lay l) c.free st).Ok := by
  have held : en.held = c.seats (c.idx l e) := by
    simp only [Entry.held, seats, Entry.held]
    rw [slot, seg]
    rfl
  refine ok.replaced layer inside entry ?_ ?_ ?_
  · rw [seg]
    have unchanged : Function.update (c.segs l) e (c.entry l e).seg = c.segs l :=
      Function.update_eq_self e (c.segs l)
    rw [unchanged]
    exact ok.layers l layer
  · rw [held, Function.update_eq_self]
    exact ok.split
  · intro q balance
    have same : q = c.queued := by omega
    rw [same]
    exact stats

theorem adjust (ok : c.Ok) (en : Entry) (layer : l < c.cfg.nLayer) (inside : e < c.cfg.nExpert)
    (slot : en.slot = (c.entry l e).slot) (seg : en.seg = (c.entry l e).seg)
    (entry : EntryOk en) : (c.setEntry l e en).Ok := by
  have table : c.slot (c.idx l e) = en.slot :=
    (ok.table _ (c.idx_lt_total layer inside)).trans slot.symm
  rw [← replaced_same table]
  exact ok.touched layer inside slot seg entry ok.stats

theorem congr {c' : ExpertCache} (ok : c.Ok) (cfg : c'.cfg = c.cfg) (nSlot : c'.nSlot = c.nSlot)
    (ent : c'.ent = c.ent) (slot : c'.slot = c.slot)
    (lay : ∀ k, c'.lay k = { c.lay k with ghostHits := (c'.lay k).ghostHits })
    (free : c'.free = c.free) (st : c'.st = c.st) : c'.Ok where
  slots := by rw [nSlot]; exact ok.slots
  entries := by
    intro i bound
    rw [ent]
    simp only [total] at bound
    rw [cfg] at bound
    exact ok.entries i bound
  table := by
    intro i bound
    rw [ent, slot]
    simp only [total] at bound
    rw [cfg] at bound
    exact ok.table i bound
  layers := by
    intro k bound
    rw [cfg] at bound ⊢
    refine (ok.layers k bound).congr ?_ ?_ ?_ ?_ ?_ ?_
    · intro e _
      simp only [segs, ExpertCache.entry, idx, ent, cfg]
    all_goals rw [lay k]
  split := by
    have seats : c'.seats = c.seats := by
      unfold ExpertCache.seats
      rw [ent]
    have total : c'.total = c.total := by
      simp only [ExpertCache.total]
      rw [cfg]
    rw [nSlot, free, seats, total]
    exact ok.split
  stats := by
    have queued : c'.queued = c.queued := by
      simp only [ExpertCache.queued, LayerState.queued]
      rw [cfg]
      refine Finset.sum_congr rfl ?_
      intro k _
      rw [lay k]
    rw [st, queued]
    exact ok.stats

theorem restat (ok : c.Ok) (stats : StatsOk st c.queued) : ({ c with st := st } : ExpertCache).Ok :=
  ⟨ok.slots, ok.entries, ok.table, ok.layers, ok.split, stats⟩

theorem entry (ok : c.Ok) (layer : l < c.cfg.nLayer) (inside : e < c.cfg.nExpert) :
    EntryOk (c.entry l e) :=
  ok.entries _ (c.idx_lt_total layer inside)

theorem seat_lt (ok : c.Ok) {i s : Nat} (bound : i < c.total) (held : c.seats i = some s) :
    s < c.nSlot :=
  List.mem_range.mp (ok.split.held_mem bound held)

theorem seat_ne (ok : c.Ok) {i s : Nat} (bound : i < c.total) (held : c.seats i = some s) :
    s ≠ NO_SLOT := by
  have small := ok.seat_lt bound held
  have slots := ok.slots
  omega

theorem free_lt (ok : c.Ok) {s : Nat} (member : s ∈ c.free) : s < c.nSlot :=
  List.mem_range.mp (ok.split.free_mem member)

end Ok

end ExpertCache

end MoeStream
