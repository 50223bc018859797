import MoeStream.Cache.Invariant

/-!
# Every operation keeps the invariant

`Evicts` and `AllocSlot` say what a successful eviction and a slot allocation do
to seats, references and the free stack; `Acquired` says it for a request.
Each carries the invariant of the resulting cache, so a run is an induction over
its operations.
-/

set_option autoImplicit false

namespace MoeStream

open Foundation.FixedWidth
open Foundation.RotatingScan
open Foundation.TokenPartition

namespace ExpertCache

variable {c c' : ExpertCache} {l e : Nat}

/-! ## Eviction -/

/-- Spending second chances changes no seat and keeps the invariant. -/
theorem Ok.chill (ok : c.Ok) {seen : List Nat} {final : Nat → Entry}
    (chilled : Chilled (c.idx l) seen c.ent final) :
    ({ c with ent := final } : ExpertCache).Ok ∧
      ({ c with ent := final } : ExpertCache).seats = c.seats := by
  have seats : ({ c with ent := final } : ExpertCache).seats = c.seats := by
    funext i
    unfold ExpertCache.seats
    simp only
    rw [chilled.entry_eq i]
    rfl
  have segs : ∀ k, ({ c with ent := final } : ExpertCache).segs k = c.segs k := by
    intro k
    funext e
    unfold ExpertCache.segs ExpertCache.entry
    simp only
    rw [chilled.entry_eq (idx { c with ent := final } k e)]
    rfl
  refine ⟨⟨ok.slots, ?_, ?_, ?_, ?_, ok.stats⟩, seats⟩
  · intro i bound
    have before := ok.entries i bound
    have slot : (final i).slot = (c.ent i).slot := by rw [chilled.entry_eq i]
    have seg : (final i).seg = (c.ent i).seg := by rw [chilled.entry_eq i]
    refine ⟨?_, ?_, ?_, ?_⟩
    · rw [slot, seg]
      exact before.absent
    · rw [seg, chilled.rc_eq]
      exact before.idle
    · rw [seg]
      intro small
      rcases chilled.freq_cases i with same | ⟨many, _⟩
      · rw [same]
        exact before.small small
      · have one := before.small small
        omega
    · rw [seg]
      intro main
      obtain ⟨low, high⟩ := before.main main
      rcases chilled.freq_cases i with same | ⟨many, less⟩
      · rw [same]
        exact ⟨low, high⟩
      · rw [less]
        omega
  · intro i bound
    have slot : (final i).slot = (c.ent i).slot := by rw [chilled.entry_eq i]
    exact (ok.table i bound).trans slot.symm
  · intro k bound
    rw [segs k]
    exact ok.layers k bound
  · rw [seats]
    exact ok.split

/-- What giving up expert `v` of layer `l`, which held slot `s`, does. -/
structure Evicts (c : ExpertCache) (l v s : Nat) (c' : ExpertCache) : Prop where
  ok : c'.Ok
  inside : v < c.cfg.nExpert
  seat : c.seats (c.idx l v) = some s
  idle : (c.entry l v).rc = 0
  seats : c'.seats = Function.update c.seats (c.idx l v) none
  free : c'.free = s :: c.free
  rcs : ∀ i, (c'.ent i).rc = (c.ent i).rc
  absent : ∀ i, c.seats i = none → c'.ent i = c.ent i
  ghost : ∀ g ∈ (c'.lay l).ghost, g ∈ (c.lay l).ghost ∨ g = v
  others : ∀ k, k ≠ l → c'.lay k = c.lay k
  pinned : ∀ k, (c'.lay k).pinned = (c.lay k).pinned
  st : c'.st = { c.st with evict := c.st.evict + 1 }
  cfg : c'.cfg = c.cfg
  nSlot : c'.nSlot = c.nSlot
  quota : c'.quota = c.quota

def evictedEntry (en : Entry) : Entry :=
  { en with slot := NO_SLOT, seg := .none, resident := false, freq := 0 }

theorem evictEntry_eq (c : ExpertCache) (l v : Nat) (ls : LayerState) :
    (c.setLayer l ls).evictEntry l v =
      c.replaced l v (evictedEntry (c.entry l v))
        { ls with
          resident := ls.resident - 1
          ghost := trimGhost (c.quota l * c.cfg.ghostMult) (ls.ghost ++ [v]) }
        ((c.entry l v).slot :: c.free) { c.st with evict := c.st.evict + 1 } := by
  simp only [evictEntry, setLayer, setTable, setEntry, entry, idx, replaced, evictedEntry,
    Function.update_self, Function.update_idem]

/-- Evicting `v` once the queues of its layer are `ls` without it. -/
theorem Ok.evictEntry (ok : c.Ok) (layer : l < c.cfg.nLayer) {v : Nat} (ls : LayerState)
    (queued : c.segs l v = .small ∨ c.segs l v = .main) (inside : v < c.cfg.nExpert)
    (idle : (c.entry l v).rc = 0)
    (ghost : ls.ghost = (c.lay l).ghost) (pinned : ls.pinned = (c.lay l).pinned)
    (shorter : ls.queued + 1 = (c.lay l).queued)
    (layerOk : LayerOk c.cfg.nExpert (Function.update (c.segs l) v .none)
      { ls with
        resident := ls.resident - 1
        ghost := trimGhost (c.quota l * c.cfg.ghostMult) (ls.ghost ++ [v]) }) :
    Evicts c l v (c.entry l v).slot ((c.setLayer l ls).evictEntry l v) := by
  have present : c.segs l v ≠ .none := by
    rcases queued with small | main
    · rw [small]
      decide
    · rw [main]
      decide
  have seat : c.seats (c.idx l v) = some (c.entry l v).slot :=
    Entry.held_some.mpr ⟨present, rfl⟩
  have evicted : (evictedEntry (c.entry l v)).held = none := Entry.held_none.mpr rfl
  have emptyOk : EntryOk (evictedEntry (c.entry l v)) :=
    ⟨by simp [evictedEntry], fun _ => idle, by simp [evictedEntry], by simp [evictedEntry]⟩
  rw [evictEntry_eq]
  refine
    { ok := ?_, inside := inside, seat := seat, idle := idle, seats := ?_, free := rfl
      rcs := ?_, absent := ?_, ghost := ?_
      others := fun k different => replaced_lay_of_ne different, pinned := ?_
      st := rfl, cfg := rfl, nSlot := rfl, quota := rfl }
  · refine ok.replaced layer inside emptyOk layerOk ?_ ?_
    · rw [evicted]
      exact ok.split.give (c.idx_lt_total layer inside) seat
    · intro q balance
      have stats := ok.stats
      have counted : q + 1 = c.queued := by
        unfold LayerState.queued at balance shorter
        simp only at balance
        omega
      refine ⟨stats.hits, stats.promotes, ?_, stats.misses, stats.ghosts⟩
      have admits := stats.admits
      simp only
      omega
  · simp [evicted]
  · intro i
    by_cases same : i = c.idx l v
    · subst same
      simp [evictedEntry, ExpertCache.entry]
    · simp [same]
  · intro i missing
    have different : i ≠ c.idx l v := by
      intro same
      rw [same, seat] at missing
      cases missing
    simp [different]
  · intro g member
    rw [replaced_lay_self] at member
    have listed := (trimGhost_sublist _ _).subset member
    rw [ghost] at listed
    simpa using listed
  · exact replaced_pinned pinned

/-- `evict_one` gives a slot back, or changes nothing when all of the layer is
in use. -/
theorem Ok.evictOne (ok : c.Ok) (layer : l < c.cfg.nLayer) :
    (∃ v s c', c.evictOne l = (c', true) ∧ Evicts c l v s c') ∨
    (c.evictOne l = (c, false) ∧
      ∀ e, c.segs l e = .small ∨ c.segs l e = .main → e < c.cfg.nExpert →
        0 < (c.entry l e).rc) := by
  have layerOk := ok.layers l layer
  have cases := c.evictOne_cases l layerOk.mainNodup
    (fun e member => ((layerOk.memMain e).mp member).1)
  revert cases
  generalize c.evictOne l = result
  intro cases
  cases cases with
  | @small before after victim split inUse idle =>
      have member : victim ∈ (c.lay l).small := by rw [split]; simp
      obtain ⟨inside, claimed⟩ := (layerOk.memSmall victim).mp member
      refine Or.inl
        ⟨victim, _, _, rfl, ok.evictEntry layer _ (Or.inl claimed) inside idle rfl rfl ?_
        (layerOk.evictSmall _ split)⟩
      simp only [LayerState.queued, split, List.length_append, List.length_cons]
      omega
  | @main before after victim seen final smallInUse split chilled idle first =>
      have member : victim ∈ (c.lay l).main := by rw [split]; simp
      obtain ⟨inside, claimed⟩ := (layerOk.memMain victim).mp member
      obtain ⟨chillOk, seats⟩ := ok.chill chilled
      have segs : ({ c with ent := final } : ExpertCache).segs l = c.segs l := by
        funext e
        unfold ExpertCache.segs ExpertCache.entry
        simp only
        rw [chilled.entry_eq (idx { c with ent := final } l e)]
        rfl
      have sub : ∀ e ∈ seen, e ∈ (c.lay l).main := by
        intro e listed
        rcases first with ⟨same, _⟩ | ⟨same, _⟩
        · rw [same] at listed
          rw [split]
          exact List.mem_append_left _ listed
        · rwa [same] at listed
      have evicts := chillOk.evictEntry (l := l) (v := victim) layer
        { c.lay l with main := after ++ before }
        (Or.inr (by rw [segs]; exact claimed)) inside
        ((chilled.rc_eq _).trans idle) rfl rfl
        (by
          simp only [LayerState.queued, split, List.length_append, List.length_cons]
          omega)
        (by rw [segs]; exact layerOk.evictMain _ split)
      refine Or.inl ⟨victim, _, _, rfl,
        { ok := evicts.ok, inside := inside, seat := ?_, idle := idle, seats := ?_
          free := evicts.free, rcs := ?_, absent := ?_, ghost := evicts.ghost
          others := evicts.others, pinned := evicts.pinned, st := evicts.st, cfg := evicts.cfg
          nSlot := evicts.nSlot, quota := evicts.quota }⟩
      · rw [← seats]
        exact evicts.seat
      · rw [← seats]
        exact evicts.seats
      · intro i
        rw [evicts.rcs i]
        exact chilled.rc_eq i
      · intro i missing
        rw [evicts.absent i (by rw [seats]; exact missing)]
        refine chilled.others i ?_
        intro e listed same
        have seg := ((layerOk.memMain e).mp (sub e listed)).2
        rw [same] at missing
        have absent : c.segs l e = .none := Entry.held_none.mp missing
        rw [seg] at absent
        cases absent
  | none smallInUse mainInUse =>
      refine Or.inr ⟨rfl, ?_⟩
      intro e queued inside
      rcases queued with small | main
      · exact smallInUse e ((layerOk.memSmall e).mpr ⟨inside, small⟩)
      · exact mainInUse e ((layerOk.memMain e).mpr ⟨inside, main⟩)

/-! ## Allocation -/

/-- The layer `alloc_slot` turns to is the requested one or one of the scan. -/
theorem victimLayer_lt (c : ExpertCache) (layer : l < c.cfg.nLayer) :
    c.victimLayer l < c.cfg.nLayer := by
  have scan : ∀ (ls : List Nat) (worst : Int × Nat), (∀ k ∈ ls, k < c.cfg.nLayer) →
      worst.2 < c.cfg.nLayer →
      (ls.foldl
        (fun (worst : Int × Nat) l =>
          if worst.1 < c.overQuota l ∧ (c.lay l).pinned < (c.lay l).resident then (c.overQuota l, l)
          else worst)
        worst).2 < c.cfg.nLayer := by
    intro ls
    induction ls with
    | nil => intro worst _ bound; exact bound
    | cons k rest ih =>
        intro worst members bound
        rw [List.foldl_cons]
        refine ih _ (fun j member => members j (List.mem_cons_of_mem k member)) ?_
        split
        · exact members k List.mem_cons_self
        · exact bound
  exact scan _ _ (fun k member => List.mem_range.mp member) layer

def Busy (c : ExpertCache) (l : Nat) : Prop :=
  ∀ e, c.segs l e = .small ∨ c.segs l e = .main → e < c.cfg.nExpert → 0 < (c.entry l e).rc

/-- Everything `alloc_slot` can do. -/
inductive AllocSlot (c : ExpertCache) (l : Nat) : ExpertCache × Nat → Prop where
  | refused
      (why : (c.quota l ≤ (c.lay l).resident ∧ c.Busy l) ∨
        ((c.lay l).resident < c.quota l ∧ c.free = [] ∧ c.Busy (c.victimLayer l))) :
      AllocSlot c l (c, NO_SLOT)
  | free {s : Nat} {rest : List Nat} (below : (c.lay l).resident < c.quota l)
      (available : c.free = s :: rest) :
      AllocSlot c l ({ c with free := rest }, s)
  | evicted {k v s : Nat} {c' : ExpertCache} (layer : k < c.cfg.nLayer)
      (why : (k = l ∧ c.quota l ≤ (c.lay l).resident) ∨
        (k = c.victimLayer l ∧ (c.lay l).resident < c.quota l ∧ c.free = []))
      (evicts : Evicts c k v s c') :
      AllocSlot c l ({ c' with free := c.free }, s)

theorem Ok.allocSlot (ok : c.Ok) (layer : l < c.cfg.nLayer) :
    AllocSlot c l (c.allocSlot l) := by
  simp only [ExpertCache.allocSlot]
  by_cases full : c.quota l ≤ (c.lay l).resident
  · rw [if_pos full]
    rcases ok.evictOne layer with ⟨v, s, c', result, evicts⟩ | ⟨result, busy⟩
    · simp only [result, allocFree, evicts.free]
      exact AllocSlot.evicted layer (Or.inl ⟨rfl, full⟩) evicts
    · simp only [result]
      exact AllocSlot.refused (Or.inl ⟨full, busy⟩)
  · rw [if_neg full]
    have below : (c.lay l).resident < c.quota l := by omega
    simp only [allocFree]
    cases available : c.free with
    | cons s rest => exact AllocSlot.free below available
    | nil =>
        rcases ok.evictOne (c.victimLayer_lt layer) with
          ⟨v, s, c', result, evicts⟩ | ⟨result, busy⟩
        · simp only [result, evicts.free]
          exact AllocSlot.evicted (c.victimLayer_lt layer) (Or.inr ⟨rfl, below, available⟩) evicts
        · simp only [result]
          exact AllocSlot.refused (Or.inr ⟨below, available, busy⟩)

/-! ## Requests -/

theorem one_le_freqMax : 1 ≤ FREQ_MAX := by decide

def rcs (c : ExpertCache) : Nat → Nat := fun i => (c.ent i).rc

@[simp] theorem rcs_replaced {en : Entry} {ls : LayerState} {free : List Nat} {st : CacheStats} :
    (c.replaced l e en ls free st).rcs = Function.update c.rcs (c.idx l e) en.rc := by
  funext i
  by_cases same : i = c.idx l e
  · subst same
    rw [Function.update_self]
    exact congrArg Entry.rc replaced_ent_self
  · rw [Function.update_of_ne same]
    exact congrArg Entry.rc (replaced_ent_of_ne same)

def ghostTaken (ls : LayerState) (e : Nat) : LayerState :=
  if e ∈ ls.ghost then
    { ls with ghost := ls.ghost.erase e, ghostHits := u32 (ls.ghostHits + 1) }
  else ls

section GhostTaken

variable (ls : LayerState) (e : Nat)

@[simp] theorem ghostTaken_queued : (ghostTaken ls e).queued = ls.queued := by
  rw [ghostTaken]
  split <;> rfl

@[simp] theorem ghostTaken_resident : (ghostTaken ls e).resident = ls.resident := by
  rw [ghostTaken]
  split <;> rfl

@[simp] theorem ghostTaken_pinned : (ghostTaken ls e).pinned = ls.pinned := by
  rw [ghostTaken]
  split <;> rfl

variable {ls e}

theorem not_mem_ghostTaken (nodup : ls.ghost.Nodup) : e ∉ (ghostTaken ls e).ghost := by
  rw [ghostTaken]
  split
  · exact fun member => (nodup.mem_erase_iff.mp member).1 rfl
  · assumption

theorem ghostTaken_eq_self_iff : ghostTaken ls e = ls ↔ e ∉ ls.ghost := by
  rw [ghostTaken]
  constructor
  · intro same
    by_contra listed
    rw [if_pos listed] at same
    exact List.erase_eq_self_iff.mp (congrArg LayerState.ghost same) listed
  · exact fun unlisted => if_neg unlisted

end GhostTaken

def missed (c : ExpertCache) (l e : Nat) : ExpertCache :=
  c.replaced l e { c.entry l e with last := c.step, freq := 1 } (ghostTaken (c.lay l) e) c.free
    { c.st with
      miss := c.st.miss + 1
      ghostHit := c.st.ghostHit + if e ∈ (c.lay l).ghost then 1 else 0 }

theorem slot_unchanged (table : c.slot (c.idx l e) = (c.entry l e).slot) :
    Function.update c.slot (c.idx l e) (c.entry l e).slot = c.slot := by
  rw [← table, Function.update_eq_self]

theorem takeGhost_eq (c : ExpertCache) (l e : Nat)
    (table : c.slot (c.idx l e) = (c.entry l e).slot) :
    let seen := c.setEntry l e { c.entry l e with last := c.step }
    let counted := { seen with st := { seen.st with miss := seen.st.miss + 1 } }
    (counted.setEntry l e { counted.entry l e with freq := 1 }).takeGhost l e =
      (c.missed l e, decide (e ∈ (c.lay l).ghost)) := by
  have unchanged := slot_unchanged table
  simp only [missed, replaced, takeGhost, ghostTaken]
  by_cases listed : e ∈ (c.lay l).ghost
  · simp only [setEntry, setLayer, entry, idx, Function.update_self, Function.update_idem, listed,
      if_true, decide_true] at unchanged ⊢
    rw [unchanged]
  · simp only [setEntry, entry, idx, Function.update_self, Function.update_idem, listed,
      if_false, decide_false, Function.update_eq_self, Nat.add_zero] at unchanged ⊢
    rw [unchanged]

structure Missed (c : ExpertCache) (l e : Nat) (c' : ExpertCache) : Prop where
  ok : c'.Ok
  seats : c'.seats = c.seats
  segs : ∀ i, (c'.ent i).seg = (c.ent i).seg
  rcs : c'.rcs = c.rcs
  resident : ∀ k, (c'.lay k).resident = (c.lay k).resident
  pinned : ∀ k, (c'.lay k).pinned = (c.lay k).pinned
  freq : (c'.entry l e).freq = 1
  fresh : e ∉ (c'.lay l).ghost
  slack : c'.st.admitted + c'.st.bypass < c'.st.miss

theorem Ok.missed (ok : c.Ok) (layer : l < c.cfg.nLayer) (inside : e < c.cfg.nExpert) :
    Missed c l e (c.missed l e) := by
  have before := ok.entry layer inside
  have layerOk := ok.layers l layer
  have entryOk : EntryOk { c.entry l e with last := c.step, freq := 1 } :=
    ⟨before.absent, before.idle, fun _ => rfl, fun _ => ⟨Nat.le_refl 1, one_le_freqMax⟩⟩
  have held : ({ c.entry l e with last := c.step, freq := 1 } : Entry).held =
      c.seats (c.idx l e) := rfl
  have seg : ({ c.entry l e with last := c.step, freq := 1 } : Entry).seg = c.segs l e := rfl
  have stats := ok.stats
  refine ⟨?_, ?_, ?_, ?_, ?_, ?_, ?_, ?_, ?_⟩
  · refine ok.replaced layer inside entryOk ?_ ?_ ?_
    · rw [seg, Function.update_eq_self]
      rw [ghostTaken]
      split
      · exact layerOk.dropGhost e _
      · exact layerOk
    · rw [held, Function.update_eq_self]
      exact ok.split
    · intro q balance
      rw [ghostTaken_queued] at balance
      have counted : q = c.queued := by omega
      subst counted
      have misses := stats.misses
      have ghosts := stats.ghosts
      refine ⟨stats.hits, stats.promotes, stats.admits, ?_, ?_⟩
      · simp only
        omega
      · simp only
        split <;> omega
  · rw [ExpertCache.missed, seats_replaced, held, Function.update_eq_self]
  · intro i
    rw [ExpertCache.missed]
    by_cases same : i = c.idx l e
    · subst same
      simp [ExpertCache.entry]
    · simp [same]
  · rw [ExpertCache.missed, rcs_replaced]
    exact Function.update_eq_self (c.idx l e) c.rcs
  · intro k
    rw [ExpertCache.missed]
    by_cases same : k = l
    · subst same
      simp
    · simp [same]
  · exact replaced_pinned (ghostTaken_pinned _ _)
  · exact congrArg Entry.freq replaced_ent_self
  · rw [ExpertCache.missed, replaced_lay_self]
    exact not_mem_ghostTaken layerOk.ghostNodup
  · have misses := stats.misses
    unfold ExpertCache.missed ExpertCache.replaced
    simp only
    omega

/-- Admission of an absent expert to the slot on top of the free stack. -/
theorem admitTo_eq (c : ExpertCache) (l e : Nat) (origin : Origin) (wasGhost : Bool) (s : Nat)
    (rest : List Nat) :
    ({ c with free := rest } : ExpertCache).admitTo l e origin wasGhost s =
      c.replaced l e
        { c.entry l e with
          slot := s, rc := 1, resident := false
          seg := ((c.lay l).enqueue e origin wasGhost).2 }
        { ((c.lay l).enqueue e origin wasGhost).1 with
          resident := ((c.lay l).enqueue e origin wasGhost).1.resident + 1 }
        rest { c.st with admitted := c.st.admitted + 1 } := rfl

theorem Ok.admitTo (ok : c.Ok) (layer : l < c.cfg.nLayer) (inside : e < c.cfg.nExpert)
    (absent : c.seats (c.idx l e) = none) (fresh : e ∉ (c.lay l).ghost)
    (freq : (c.entry l e).freq = 1) (slack : c.st.admitted + c.st.bypass < c.st.miss)
    (origin : Origin) (wasGhost : Bool) {s : Nat} {rest : List Nat}
    (available : c.free = s :: rest) :
    (({ c with free := rest } : ExpertCache).admitTo l e origin wasGhost s).Ok ∧
      (({ c with free := rest } : ExpertCache).admitTo l e origin wasGhost s).seats =
        Function.update c.seats (c.idx l e) (some s) ∧
      ∀ k, ((({ c with free := rest } : ExpertCache).admitTo l e origin wasGhost s).lay k).pinned =
        (c.lay k).pinned := by
  have present : ((c.lay l).enqueue e origin wasGhost).2 ≠ .none := by
    rcases LayerState.enqueue_seg (c.lay l) e origin wasGhost with small | main
    · rw [small]
      decide
    · rw [main]
      decide
  have missing : c.segs l e = .none := Entry.held_none.mp absent
  have bound : s < c.nSlot := ok.free_lt (by rw [available]; exact List.mem_cons_self)
  have named : s ≠ NO_SLOT := by
    have slots := ok.slots
    omega
  rw [admitTo_eq]
  refine ⟨ok.replaced layer inside ?_ ?_ ?_ ?_, ?_,
    replaced_pinned (LayerState.enqueue_pinned _ _ _ _)⟩
  · refine ⟨?_, fun absent => absurd absent present, fun _ => freq, fun _ => ?_⟩
    · exact ⟨fun h => absurd h present, fun h => absurd h named⟩
    · exact ⟨Nat.le_of_eq freq.symm, Nat.le_trans (Nat.le_of_eq freq) one_le_freqMax⟩
  · exact (ok.layers l layer).enqueue inside missing fresh origin wasGhost
  · have partition := ok.split
    rw [available] at partition
    rw [Entry.held_some.mpr ⟨present, rfl⟩]
    exact partition.take (c.idx_lt_total layer inside) absent
  · intro q balance
    have longer := LayerState.enqueue_queued (c.lay l) e origin wasGhost
    have counted : q = c.queued + 1 := by
      unfold LayerState.queued at longer balance
      simp only at balance
      omega
    have admits := ok.stats.admits
    refine ⟨ok.stats.hits, ok.stats.promotes, ?_, ?_, ok.stats.ghosts⟩
    · simp only
      omega
    · simp only
      omega
  · rw [seats_replaced, Entry.held_some.mpr ⟨present, rfl⟩]

structure Requested (c c' : ExpertCache) : Prop where
  ok : c'.Ok
  cfg : c'.cfg = c.cfg
  nSlot : c'.nSlot = c.nSlot
  quota : c'.quota = c.quota
  pinned : ∀ k, (c'.lay k).pinned = (c.lay k).pinned
  counted : c'.st.hit + c'.st.miss = c.st.hit + c.st.miss + 1

inductive Acquired (c : ExpertCache) (l e : Nat) (origin : Origin) :
    ExpertCache × Bool × Nat → Prop where
  | hit {c' : ExpertCache} {s : Nat} (seat : c.seats (c.idx l e) = some s)
      (seats : c'.seats = c.seats)
      (rcs : c'.rcs = Function.update c.rcs (c.idx l e) (u16 (c.rcs (c.idx l e) + 1)))
      (free : c'.free = c.free) :
      Acquired c l e origin (c', true, s)
  | refused {c' : ExpertCache} (absent : c.seats (c.idx l e) = none)
      (seats : c'.seats = c.seats) (rcs : c'.rcs = c.rcs) (free : c'.free = c.free)
      (why : origin = .sweep ∨ (c.quota l ≤ (c.lay l).resident ∧ c.Busy l) ∨
        ((c.lay l).resident < c.quota l ∧ c.free = [] ∧ c.Busy (c.victimLayer l))) :
      Acquired c l e origin (c', false, NO_SLOT)
  | granted {c' : ExpertCache} {s : Nat} (absent : c.seats (c.idx l e) = none)
      (available : c.free = s :: c'.free)
      (seats : c'.seats = Function.update c.seats (c.idx l e) (some s))
      (rcs : c'.rcs = Function.update c.rcs (c.idx l e) 1) :
      Acquired c l e origin (c', false, s)
  | replaced {c' : ExpertCache} {k v s : Nat} (absent : c.seats (c.idx l e) = none)
      (layer : k < c.cfg.nLayer) (inside : v < c.cfg.nExpert)
      (victim : c.seats (c.idx k v) = some s) (idle : c.rcs (c.idx k v) = 0)
      (free : c'.free = c.free)
      (seats : c'.seats = Function.update (Function.update c.seats (c.idx k v) none)
        (c.idx l e) (some s))
      (rcs : c'.rcs = Function.update c.rcs (c.idx l e) 1) :
      Acquired c l e origin (c', false, s)

theorem Acquired.of_hit {en : Entry} {ls : LayerState} {st : CacheStats} (origin : Origin)
    (present : (c.entry l e).seg ≠ .none) (slot : en.slot = (c.entry l e).slot)
    (seg : en.seg ≠ .none) (rc : en.rc = u16 ((c.entry l e).rc + 1)) :
    Acquired c l e origin (c.replaced l e en ls c.free st, true, (c.entry l e).slot) := by
  have seat : c.seats (c.idx l e) = some (c.entry l e).slot :=
    Entry.held_some.mpr ⟨present, rfl⟩
  have held : en.held = c.seats (c.idx l e) := by
    rw [seat]
    exact Entry.held_some.mpr ⟨seg, slot⟩
  refine Acquired.hit seat ?_ ?_ rfl
  · rw [seats_replaced, held, Function.update_eq_self]
  · rw [rcs_replaced, rc]
    rfl

def hitEntry (en : Entry) (step : Nat) : Entry :=
  { en with
    last := step
    freq := if en.freq < FREQ_MAX then en.freq + 1 else en.freq
    rc := u16 (en.rc + 1) }

theorem acquireHit_pinned (table : c.slot (c.idx l e) = (c.entry l e).slot)
    (seg : (c.entry l e).seg = .pinned) :
    (c.setEntry l e { c.entry l e with last := c.step }).acquireHit l e =
      (c.replaced l e (hitEntry (c.entry l e) c.step) (c.lay l) c.free
        { c.st with hit := c.st.hit + 1, hitPinned := c.st.hitPinned + 1 },
        true, (c.entry l e).slot) := by
  have unchanged := slot_unchanged table
  simp only [acquireHit, setEntry, entry, idx, replaced, hitEntry, Function.update_self,
    Function.update_idem, Function.update_eq_self] at seg unchanged ⊢
  rw [unchanged]
  simp only [seg]
  rfl

theorem acquireHit_main (table : c.slot (c.idx l e) = (c.entry l e).slot)
    (seg : (c.entry l e).seg = .main) :
    (c.setEntry l e { c.entry l e with last := c.step }).acquireHit l e =
      (c.replaced l e (hitEntry (c.entry l e) c.step) (c.lay l) c.free
        { c.st with hit := c.st.hit + 1, hitMain := c.st.hitMain + 1 },
        true, (c.entry l e).slot) := by
  have unchanged := slot_unchanged table
  simp only [acquireHit, setEntry, entry, idx, replaced, hitEntry, Function.update_self,
    Function.update_idem, Function.update_eq_self] at seg unchanged ⊢
  rw [unchanged]
  simp only [seg]
  rfl

/-- Every hit in SMALL promotes, since nothing stays in SMALL after a hit. -/
theorem acquireHit_small (table : c.slot (c.idx l e) = (c.entry l e).slot)
    (seg : (c.entry l e).seg = .small) (one : (c.entry l e).freq = 1)
    (member : e ∈ (c.lay l).small) :
    (c.setEntry l e { c.entry l e with last := c.step }).acquireHit l e =
      (c.replaced l e { hitEntry (c.entry l e) c.step with seg := .main }
        { c.lay l with
          small := (c.lay l).small.erase e
          main := (c.lay l).main ++ [e] }
        c.free
        { c.st with
          hit := c.st.hit + 1, hitSmall := c.st.hitSmall + 1, promote := c.st.promote + 1 },
        true, (c.entry l e).slot) := by
  have unchanged := slot_unchanged table
  simp only [acquireHit, setEntry, entry, idx, replaced, hitEntry, Function.update_self,
    Function.update_idem] at seg one unchanged ⊢
  rw [unchanged]
  simp [promote, setLayer, setEntry, entry, idx, seg, one, member, FREQ_MAX]

theorem Ok.acquireHit (ok : c.Ok) (layer : l < c.cfg.nLayer) (inside : e < c.cfg.nExpert)
    (present : (c.entry l e).seg ≠ .none) (origin : Origin) :
    Requested c ((c.setEntry l e { c.entry l e with last := c.step }).acquireHit l e).1 ∧
      Acquired c l e origin
        ((c.setEntry l e { c.entry l e with last := c.step }).acquireHit l e) := by
  have before := ok.entry layer inside
  have layerOk := ok.layers l layer
  have table : c.slot (c.idx l e) = (c.entry l e).slot :=
    ok.table _ (c.idx_lt_total layer inside)
  have stats := ok.stats
  have hits := stats.hits
  cases seg : (c.entry l e).seg with
  | none => exact absurd seg present
  | pinned =>
      rw [acquireHit_pinned table seg]
      refine ⟨⟨ok.touched layer inside rfl rfl ?_ ?_, rfl, rfl, rfl, replaced_pinned rfl, ?_⟩,
        Acquired.of_hit origin present rfl present rfl⟩
      · refine ⟨before.absent, fun absent => absurd absent present, fun small => ?_, fun main => ?_⟩
        · cases seg.symm.trans small
        · cases seg.symm.trans main
      · exact { stats with hits := by simp only; omega }
      · simp only [ExpertCache.replaced]
        omega
  | main =>
      rw [acquireHit_main table seg]
      refine ⟨⟨ok.touched layer inside rfl rfl ?_ ?_, rfl, rfl, rfl, replaced_pinned rfl, ?_⟩,
        Acquired.of_hit origin present rfl present rfl⟩
      · refine ⟨before.absent, fun absent => absurd absent present, fun small => ?_, fun _ => ?_⟩
        · cases seg.symm.trans small
        · obtain ⟨low, high⟩ := before.main seg
          simp only [hitEntry]
          split
          · omega
          · exact ⟨low, high⟩
      · exact { stats with hits := by simp only; omega }
      · simp only [ExpertCache.replaced]
        omega
  | small =>
      have one := before.small seg
      have member : e ∈ (c.lay l).small := (layerOk.memSmall e).mpr ⟨inside, seg⟩
      have promoted : Seg.main ≠ Seg.none := by decide
      rw [acquireHit_small table seg one member]
      refine ⟨⟨ok.replaced layer inside ?_ ?_ ?_ ?_, rfl, rfl, rfl, replaced_pinned rfl, ?_⟩,
        Acquired.of_hit origin present rfl promoted rfl⟩
      · refine ⟨⟨fun none => ?_, fun named => ?_⟩, fun none => ?_, fun small => ?_, fun _ => ?_⟩
        · cases none
        · exact absurd (before.absent.mpr named) present
        · cases none
        · cases small
        · simp [hitEntry, one, FREQ_MAX]
      · exact layerOk.promote member
      · have held : ({ hitEntry (c.entry l e) c.step with seg := .main } : Entry).held =
            c.seats (c.idx l e) := by
          rw [show c.seats (c.idx l e) = some (c.entry l e).slot from
            Entry.held_some.mpr ⟨present, rfl⟩]
          exact Entry.held_some.mpr ⟨promoted, rfl⟩
        rw [held, Function.update_eq_self]
        exact ok.split
      · intro q balance
        have positive := List.length_pos_of_mem member
        have counted : q = c.queued := by
          simp only [LayerState.queued, List.length_append, List.length_singleton,
            List.length_erase_of_mem member] at balance
          omega
        subst counted
        have promotes := stats.promotes
        exact { stats with
          hits := by simp only; omega
          promotes := by simp only; omega }
      · simp only [ExpertCache.replaced]
        omega

theorem Missed.busy {c' : ExpertCache} {k : Nat} (missed : Missed c l e c') (cfg : c'.cfg = c.cfg)
    (busy : c'.Busy k) : c.Busy k := by
  have index : ∀ e, c'.idx k e = c.idx k e := by
    intro e
    simp only [idx]
    rw [cfg]
  intro e queued inside
  have seg : c'.segs k e = c.segs k e := by
    simp only [ExpertCache.segs, entry]
    rw [index, missed.segs]
  have used := busy e (by rw [seg]; exact queued) (by rw [cfg]; exact inside)
  have rc : (c'.entry k e).rc = (c.entry k e).rc := by
    simp only [entry]
    rw [index]
    exact congrFun missed.rcs (c.idx k e)
  rwa [rc] at used

/-- The victim layer is chosen from counts that a miss does not change. -/
theorem Missed.victimLayer_eq {c' : ExpertCache} (missed : Missed c l e c')
    (cfg : c'.cfg = c.cfg) (quota : c'.quota = c.quota) (k : Nat) :
    c'.victimLayer k = c.victimLayer k := by
  unfold victimLayer overQuota
  simp only [cfg, quota, missed.resident, missed.pinned]

theorem acquireMiss_eq (origin : Origin) (table : c.slot (c.idx l e) = (c.entry l e).slot) :
    (c.setEntry l e { c.entry l e with last := c.step }).acquireMiss l e origin =
      if origin = .sweep then
        ({ c.missed l e with
          st := { (c.missed l e).st with bypass := (c.missed l e).st.bypass + 1 } }, false, NO_SLOT)
      else if ((c.missed l e).allocSlot l).2 = NO_SLOT then
        (((c.missed l e).allocSlot l).1, false, NO_SLOT)
      else
        (((c.missed l e).allocSlot l).1.admitTo l e origin (decide (e ∈ (c.lay l).ghost))
          ((c.missed l e).allocSlot l).2, false, ((c.missed l e).allocSlot l).2) := by
  have taken := takeGhost_eq c l e table
  simp only [acquireMiss]
  dsimp only at taken ⊢
  rw [taken]

theorem Ok.acquireMiss (ok : c.Ok) (layer : l < c.cfg.nLayer) (inside : e < c.cfg.nExpert)
    (absent : (c.entry l e).seg = .none) (origin : Origin) :
    Requested c ((c.setEntry l e { c.entry l e with last := c.step }).acquireMiss l e origin).1 ∧
      Acquired c l e origin
        ((c.setEntry l e { c.entry l e with last := c.step }).acquireMiss l e origin) := by
  have missed := ok.missed layer inside
  have seat : c.seats (c.idx l e) = none := Entry.held_none.mpr absent
  rw [acquireMiss_eq origin (ok.table _ (c.idx_lt_total layer inside))]
  by_cases sweep : origin = .sweep
  · rw [if_pos sweep]
    have stats := missed.ok.stats
    have slack := missed.slack
    refine ⟨⟨missed.ok.restat { stats with misses := by simp only; omega }, rfl, rfl, rfl,
        missed.pinned, ?_⟩,
      Acquired.refused seat missed.seats missed.rcs rfl (Or.inl sweep)⟩
    simp only [ExpertCache.missed, ExpertCache.replaced]
    omega
  · rw [if_neg sweep]
    have allocated := missed.ok.allocSlot layer
    revert allocated
    generalize (c.missed l e).allocSlot l = result
    intro allocated
    cases allocated with
    | refused why =>
        rw [if_pos rfl]
        refine ⟨⟨missed.ok, rfl, rfl, rfl, missed.pinned, ?_⟩,
          Acquired.refused seat missed.seats missed.rcs rfl (Or.inr ?_)⟩
        · simp only [ExpertCache.missed, ExpertCache.replaced]
          omega
        · rw [missed.resident] at why
          rcases why with ⟨full, busy⟩ | ⟨below, empty, busy⟩
          · exact Or.inl ⟨full, missed.busy rfl busy⟩
          · rw [missed.victimLayer_eq rfl rfl] at busy
            exact Or.inr ⟨below, empty, missed.busy rfl busy⟩
    | @free s rest below available =>
        have bound := missed.ok.free_lt (s := s) (by rw [available]; exact List.mem_cons_self)
        have slots := missed.ok.slots
        have named : s ≠ NO_SLOT := by omega
        obtain ⟨admitted, seats, pinned⟩ := missed.ok.admitTo layer inside
          (by rw [missed.seats]; exact seat) missed.fresh missed.freq missed.slack origin
          (decide (e ∈ (c.lay l).ghost)) available
        rw [if_neg named]
        refine ⟨⟨admitted, rfl, rfl, rfl, ?_, ?_⟩, Acquired.granted seat available ?_ ?_⟩
        · intro k
          exact (pinned k).trans (missed.pinned k)
        · simp only [ExpertCache.admitTo, setTable, setEntry, setLayer, ExpertCache.missed,
            ExpertCache.replaced]
          omega
        · rw [seats, missed.seats]
          rfl
        · rw [admitTo_eq, rcs_replaced, missed.rcs]
          rfl
    | @evicted k v s c' victimLayer why evicts =>
        have inTotal : (c.missed l e).idx k v < (c.missed l e).total :=
          (c.missed l e).idx_lt_total victimLayer evicts.inside
        have named := missed.ok.seat_ne inTotal evicts.seat
        have gone : c'.seats ((c.missed l e).idx l e) = none := by
          rw [evicts.seats]
          by_cases same : (c.missed l e).idx l e = (c.missed l e).idx k v
          · rw [same, Function.update_self]
          · rw [Function.update_of_ne same, missed.seats]
            exact seat
        have index : ∀ k e, c'.idx k e = c.idx k e := by
          intro k e
          simp only [idx]
          rw [evicts.cfg]
          rfl
        have different : c.idx l e ≠ c.idx k v := by
          intro same
          have held := evicts.seat
          rw [missed.seats] at held
          have clash : c.seats (c.idx k v) = none := by
            rw [← same]
            exact seat
          cases clash.symm.trans held
        have fresh : e ∉ (c'.lay l).ghost := by
          by_cases own : l = k
          · subst own
            intro listed
            rcases evicts.ghost e listed with old | new
            · exact missed.fresh old
            · exact different (by rw [new])
          · rw [evicts.others l own]
            exact missed.fresh
        have freq : (c'.entry l e).freq = 1 := by
          have kept := evicts.absent (c.idx l e) (by rw [missed.seats]; exact seat)
          simp only [ExpertCache.entry]
          rw [index, kept]
          exact missed.freq
        obtain ⟨admitted, seats, pinned⟩ := evicts.ok.admitTo (l := l) (e := e)
          (by rw [evicts.cfg]; exact layer) (by rw [evicts.cfg]; exact inside)
          (by rw [index]; exact gone) fresh freq
          (by rw [evicts.st]; exact missed.slack) origin
          (decide (e ∈ (c.lay l).ghost)) evicts.free
        rw [if_neg named]
        refine ⟨⟨admitted, evicts.cfg, evicts.nSlot, evicts.quota, ?_, ?_⟩,
          Acquired.replaced seat victimLayer evicts.inside ?_ ?_ rfl ?_ ?_⟩
        · intro k
          exact (pinned k).trans ((evicts.pinned k).trans (missed.pinned k))
        · have st := evicts.st
          simp only [ExpertCache.admitTo, setTable, setEntry, setLayer, st, ExpertCache.missed,
            ExpertCache.replaced]
          omega
        · rw [← missed.seats]
          exact evicts.seat
        · rw [← missed.rcs]
          exact evicts.idle
        · rw [seats, evicts.seats, missed.seats, index]
          rfl
        · have rcs : c'.rcs = c.rcs := by
            rw [← missed.rcs]
            funext i
            exact evicts.rcs i
          rw [admitTo_eq, rcs_replaced, rcs, index]

theorem Ok.acquire (ok : c.Ok) (layer : l < c.cfg.nLayer) (inside : e < c.cfg.nExpert)
    (origin : Origin) :
    Requested c (c.acquire l e origin).1 ∧ Acquired c l e origin (c.acquire l e origin) := by
  have seg : ((c.setEntry l e { c.entry l e with last := c.step }).entry l e).seg =
      (c.entry l e).seg := by
    simp only [setEntry, ExpertCache.entry, idx, Function.update_self]
  simp only [ExpertCache.acquire, seg]
  by_cases absent : (c.entry l e).seg = .none
  · rw [if_neg (not_not.mpr absent)]
    exact ok.acquireMiss layer inside absent origin
  · rw [if_pos absent]
    exact ok.acquireHit layer inside absent origin

end ExpertCache

end MoeStream
