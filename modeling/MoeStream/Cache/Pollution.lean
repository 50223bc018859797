import MoeStream.Cache.Isolation

/-!
# Sweep requests and the replacement state

A request of a prefill sweep is never admitted, but it runs the bookkeeping of
any request.  Where it changes neither a queue nor a frequency or reference that
a queue is scanned for, the cache goes on as if it had not been made.
-/

set_option autoImplicit false

namespace MoeStream

open Foundation.FixedWidth

/-- Equal in all that an answer or a replacement decision reads: frequency and
references count only in the queues. -/
structure Entry.Agrees (en en' : Entry) : Prop where
  slot : en'.slot = en.slot
  seg : en'.seg = en.seg
  resident : en'.resident = en.resident
  queued : en.seg = .small ∨ en.seg = .main → en'.rc = en.rc ∧ en'.freq = en.freq

theorem Entry.Agrees.refl (en : Entry) : en.Agrees en := ⟨rfl, rfl, rfl, fun _ => ⟨rfl, rfl⟩⟩

theorem Entry.Agrees.of_unqueued {en en' : Entry} (slot : en'.slot = en.slot)
    (seg : en'.seg = en.seg) (resident : en'.resident = en.resident)
    (unqueued : en.seg = .none ∨ en.seg = .pinned) : en.Agrees en' := by
  refine ⟨slot, seg, resident, ?_⟩
  rcases unqueued with none | pinned
  · simp [none]
  · simp [pinned]

namespace ExpertCache

variable {c d : ExpertCache} {l e : Nat}

/-- `d` is `c` but for statistics, times and what is not read of the entries. -/
structure Undisturbed (c d : ExpertCache) : Prop where
  cfg : d.cfg = c.cfg
  nSlot : d.nSlot = c.nSlot
  slot : d.slot = c.slot
  lay : d.lay = c.lay
  quota : d.quota = c.quota
  free : d.free = c.free
  step : d.step = c.step
  entries : ∀ i, (c.ent i).Agrees (d.ent i)

theorem Undisturbed.refl (c : ExpertCache) : Undisturbed c c :=
  ⟨rfl, rfl, rfl, rfl, rfl, rfl, rfl, fun _ => Entry.Agrees.refl _⟩

theorem Undisturbed.idx (alike : Undisturbed c d) (l e : Nat) : d.idx l e = c.idx l e := by
  rw [ExpertCache.idx, ExpertCache.idx, alike.cfg]

theorem Undisturbed.entry (alike : Undisturbed c d) (l e : Nat) :
    (c.entry l e).Agrees (d.entry l e) := by
  rw [ExpertCache.entry, ExpertCache.entry, alike.idx]
  exact alike.entries _

theorem Undisturbed.update (alike : Undisturbed c d) {en en' : Entry} (agrees : en.Agrees en')
    (l e i : Nat) :
    (Function.update c.ent (c.idx l e) en i).Agrees (Function.update d.ent (d.idx l e) en' i) := by
  rw [alike.idx]
  by_cases own : i = c.idx l e
  · rw [own, Function.update_self, Function.update_self]
    exact agrees
  · rw [Function.update_of_ne own, Function.update_of_ne own]
    exact alike.entries i

theorem Undisturbed.setEntry (alike : Undisturbed c d) {en en' : Entry} (agrees : en.Agrees en')
    (l e : Nat) : Undisturbed (c.setEntry l e en) (d.setEntry l e en') :=
  { alike with entries := alike.update agrees l e }

theorem Undisturbed.restat (alike : Undisturbed c d) (st st' : CacheStats) :
    Undisturbed { c with st := st } { d with st := st' } :=
  { alike with }

theorem Undisturbed.replaced (alike : Undisturbed c d) {en en' : Entry} (agrees : en.Agrees en')
    (l e : Nat) (ls : LayerState) (free : List Nat) (st st' : CacheStats) :
    Undisturbed (c.replaced l e en ls free st) (d.replaced l e en' ls free st') where
  cfg := alike.cfg
  nSlot := alike.nSlot
  slot := by simp only [ExpertCache.replaced, alike.slot, alike.idx, agrees.slot]
  lay := by simp only [ExpertCache.replaced, alike.lay]
  quota := alike.quota
  free := rfl
  step := alike.step
  entries := alike.update agrees l e

/-! ## Eviction and allocation -/

theorem Undisturbed.cooled (alike : Undisturbed c d) (ok : c.Ok) (layer : l < c.cfg.nLayer)
    {es : List Nat} (listed : ∀ e ∈ es, e ∈ (c.lay l).main) (i : Nat) :
    (c.cooled l es i).Agrees (d.cooled l es i) := by
  have agrees := alike.entries i
  by_cases seen : ∃ e ∈ es, i = c.idx l e
  · have main : (c.ent i).seg = .main := by
      obtain ⟨e, member, rfl⟩ := seen
      exact (((ok.layers l layer).memMain e).mp (listed e member)).2
    have queued := agrees.queued (Or.inr main)
    rw [ExpertCache.cooled, ExpertCache.cooled, queued.1]
    simp only [alike.idx]
    split
    · refine ⟨agrees.slot, agrees.seg, agrees.resident, fun _ => ⟨queued.1, ?_⟩⟩
      simp only [queued.2]
    · exact agrees
  · have unseen : ¬((∃ e ∈ es, i = c.idx l e) ∧ (c.ent i).rc = 0) := fun both => seen both.1
    have unseen' : ¬((∃ e ∈ es, i = d.idx l e) ∧ (d.ent i).rc = 0) := by
      rintro ⟨⟨e, member, same⟩, -⟩
      exact seen ⟨e, member, same.trans (alike.idx l e)⟩
    rw [ExpertCache.cooled, ExpertCache.cooled, if_neg unseen, if_neg unseen']
    exact agrees

def Same {β : Type} (r r' : ExpertCache × β) : Prop := Undisturbed r.1 r'.1 ∧ r'.2 = r.2

theorem Undisturbed.evictOne (alike : Undisturbed c d) (ok : c.Ok) (ok' : d.Ok)
    (layer : l < c.cfg.nLayer) : Same (c.evictOne l) (d.evictOne l) := by
  have layerOk := ok.layers l layer
  have small : ∀ e ∈ (c.lay l).small, (c.entry l e).seg = .small :=
    fun e member => ((layerOk.memSmall e).mp member).2
  have main : ∀ e ∈ (c.lay l).main, (c.entry l e).seg = .main :=
    fun e member => ((layerOk.memMain e).mp member).2
  rcases evictOne_both ok ok' layer (by rw [alike.cfg]; exact layer) (congrFun alike.lay l)
    (fun e member => ((alike.entry l e).queued (Or.inl (small e member))).1)
    (fun e member => ((alike.entry l e).queued (Or.inr (main e member))).1)
    (fun e member => ((alike.entry l e).queued (Or.inr (main e member))).2) with
    ⟨busy, busy'⟩ | ⟨v, small', main', es, -, listed, result, result'⟩
  · rw [busy, busy']
    exact ⟨alike, rfl⟩
  · rw [result, result']
    have cooled := alike.cooled ok layer listed
    refine ⟨⟨alike.cfg, alike.nSlot, ?_, ?_, alike.quota, ?_, alike.step, ?_⟩, rfl⟩
    · simp only [evicted, alike.slot, alike.idx]
    · simp only [evicted, alike.lay, alike.quota, alike.cfg]
    · simp only [evicted, alike.free, (alike.entry l v).slot]
    · intro i
      simp only [evicted, alike.idx]
      by_cases own : i = c.idx l v
      · rw [own, Function.update_self, Function.update_self]
        exact Entry.Agrees.of_unqueued rfl rfl rfl (Or.inl rfl)
      · rw [Function.update_of_ne own, Function.update_of_ne own]
        exact cooled i

theorem Undisturbed.victimLayer (alike : Undisturbed c d) (l : Nat) :
    d.victimLayer l = c.victimLayer l := by
  unfold ExpertCache.victimLayer overQuota
  rw [alike.lay, alike.quota, alike.cfg]

theorem Undisturbed.allocFree (alike : Undisturbed c d) (ok : c.Ok) (ok' : d.Ok)
    (layer : l < c.cfg.nLayer) : Same (c.allocFree l) (d.allocFree l) := by
  have victim := alike.evictOne ok ok' (c.victimLayer_lt layer)
  rw [ExpertCache.allocFree, ExpertCache.allocFree, alike.free, alike.victimLayer]
  cases c.free with
  | cons s rest => exact ⟨{ alike with free := rfl }, rfl⟩
  | nil =>
      revert victim
      generalize c.evictOne (c.victimLayer l) = r
      generalize d.evictOne (c.victimLayer l) = r'
      obtain ⟨c', found⟩ := r
      obtain ⟨d', found'⟩ := r'
      rintro ⟨alike', rfl⟩
      cases found' with
      | false => exact ⟨alike', rfl⟩
      | true =>
          dsimp only
          rw [alike'.free]
          cases c'.free with
          | nil => exact ⟨alike', rfl⟩
          | cons s rest => exact ⟨{ alike' with free := rfl }, rfl⟩

theorem Ok.evictOne_ok (ok : c.Ok) (layer : l < c.cfg.nLayer) :
    (c.evictOne l).1.Ok ∧ (c.evictOne l).1.cfg = c.cfg := by
  rcases ok.evictOne layer with ⟨v, s, c', result, evicts⟩ | ⟨result, -⟩
  · rw [result]
    exact ⟨evicts.ok, evicts.cfg⟩
  · rw [result]
    exact ⟨ok, rfl⟩

theorem Undisturbed.allocSlot (alike : Undisturbed c d) (ok : c.Ok) (ok' : d.Ok)
    (layer : l < c.cfg.nLayer) : Same (c.allocSlot l) (d.allocSlot l) := by
  have layer' : l < d.cfg.nLayer := by
    rw [alike.cfg]
    exact layer
  rw [ExpertCache.allocSlot, ExpertCache.allocSlot, alike.quota, alike.lay]
  by_cases full : c.quota l ≤ (c.lay l).resident
  · rw [if_pos full, if_pos full]
    have evicted := alike.evictOne ok ok' layer
    obtain ⟨after, cfg⟩ := ok.evictOne_ok layer
    obtain ⟨after', -⟩ := ok'.evictOne_ok layer'
    revert evicted after cfg after'
    generalize c.evictOne l = r
    generalize d.evictOne l = r'
    obtain ⟨c', found⟩ := r
    obtain ⟨d', found'⟩ := r'
    rintro ⟨alike', rfl⟩ after cfg after'
    cases found' with
    | false => exact ⟨alike', rfl⟩
    | true => exact alike'.allocFree after after' (by rw [cfg]; exact layer)
  · rw [if_neg full, if_neg full]
    exact alike.allocFree ok ok' layer

theorem Ok.allocSlot_absent (ok : c.Ok) (layer : l < c.cfg.nLayer) {i : Nat}
    (absent : c.seats i = none) :
    (c.allocSlot l).1.ent i = c.ent i ∧ (c.allocSlot l).1.cfg = c.cfg := by
  have allocated := ok.allocSlot layer
  revert allocated
  generalize c.allocSlot l = result
  intro allocated
  cases allocated with
  | refused => exact ⟨rfl, rfl⟩
  | free => exact ⟨rfl, rfl⟩
  | evicted _ _ evicts => exact ⟨evicts.absent i absent, evicts.cfg⟩

theorem Ok.allocSlot_freq (ok : c.Ok) (layer : l < c.cfg.nLayer) (inside : e < c.cfg.nExpert)
    (absent : (c.entry l e).seg = .none) :
    (((c.missed l e).allocSlot l).1.entry l e).freq = 1 := by
  have missed := ok.missed layer inside
  have seat : (c.missed l e).seats (c.idx l e) = none := by
    rw [missed.seats]
    exact Entry.held_none.mpr absent
  obtain ⟨kept, cfg⟩ := missed.ok.allocSlot_absent layer seat
  rw [ExpertCache.entry, ExpertCache.idx, cfg]
  exact (congrArg Entry.freq kept).trans missed.freq

theorem Undisturbed.admitTo (alike : Undisturbed c d)
    (freq : (d.entry l e).freq = (c.entry l e).freq) (origin : Origin) (wasGhost : Bool) (s : Nat) :
    Undisturbed (c.admitTo l e origin wasGhost s) (d.admitTo l e origin wasGhost s) := by
  have admitted := admitTo_eq c l e origin wasGhost s c.free
  have admitted' := admitTo_eq d l e origin wasGhost s d.free
  rw [admitted, admitted', alike.lay, alike.free]
  apply alike.replaced
  exact ⟨rfl, rfl, rfl, fun _ => ⟨rfl, freq⟩⟩

/-! ## Operations -/

section Operations

variable (alike : Undisturbed c d) (ok : c.Ok) (ok' : d.Ok) (layer : l < c.cfg.nLayer)
  (inside : e < c.cfg.nExpert)

include alike ok ok' layer inside

theorem Undisturbed.acquireHit (present : (c.entry l e).seg ≠ .none) :
    Same ((c.setEntry l e { c.entry l e with last := c.step }).acquireHit l e)
      ((d.setEntry l e { d.entry l e with last := d.step }).acquireHit l e) := by
  have agrees := alike.entry l e
  have table := ok.table _ (c.idx_lt_total layer inside)
  have table' := ok'.table _ (d.idx_lt_total (by rw [alike.cfg]; exact layer)
    (by rw [alike.cfg]; exact inside))
  have hit : (hitEntry (c.entry l e) c.step).Agrees (hitEntry (d.entry l e) d.step) := by
    refine ⟨agrees.slot, agrees.seg, agrees.resident, fun queued => ?_⟩
    obtain ⟨rc, freq⟩ := agrees.queued queued
    simp only [hitEntry, rc, freq, and_self]
  cases seg : (c.entry l e).seg with
  | none => exact absurd seg present
  | pinned =>
      rw [acquireHit_pinned table seg, acquireHit_pinned table' (agrees.seg.trans seg), alike.lay,
        alike.free]
      exact ⟨alike.replaced hit l e _ _ _ _, congrArg (true, ·) agrees.slot⟩
  | main =>
      rw [acquireHit_main table seg, acquireHit_main table' (agrees.seg.trans seg), alike.lay,
        alike.free]
      exact ⟨alike.replaced hit l e _ _ _ _, congrArg (true, ·) agrees.slot⟩
  | small =>
      have one := (ok.entry layer inside).small seg
      have member : e ∈ (c.lay l).small := ((ok.layers l layer).memSmall e).mpr ⟨inside, seg⟩
      obtain ⟨rc, freq⟩ := hit.queued (Or.inl seg)
      rw [acquireHit_small table seg one member,
        acquireHit_small table' (agrees.seg.trans seg)
          ((agrees.queued (Or.inl seg)).2.trans one) (by rw [alike.lay]; exact member),
        alike.lay, alike.free]
      refine ⟨alike.replaced ?_ l e _ _ _ _, congrArg (true, ·) agrees.slot⟩
      exact ⟨hit.slot, rfl, hit.resident, fun _ => ⟨rc, freq⟩⟩

omit ok ok' layer inside in
theorem Undisturbed.missed (absent : (c.entry l e).seg = .none) :
    Undisturbed (c.missed l e) (d.missed l e) := by
  have agrees := alike.entry l e
  rw [ExpertCache.missed, ExpertCache.missed, alike.lay, alike.free]
  apply alike.replaced
  exact Entry.Agrees.of_unqueued agrees.slot agrees.seg agrees.resident (Or.inl absent)

theorem Undisturbed.acquireMiss (absent : (c.entry l e).seg = .none) (origin : Origin) :
    Same ((c.setEntry l e { c.entry l e with last := c.step }).acquireMiss l e origin)
      ((d.setEntry l e { d.entry l e with last := d.step }).acquireMiss l e origin) := by
  have layer' : l < d.cfg.nLayer := by
    rw [alike.cfg]
    exact layer
  have inside' : e < d.cfg.nExpert := by
    rw [alike.cfg]
    exact inside
  have missed := ok.missed layer inside
  have missed' := ok'.missed layer' inside'
  have alike' := alike.missed absent
  rw [acquireMiss_eq origin (ok.table _ (c.idx_lt_total layer inside)),
    acquireMiss_eq origin (ok'.table _ (d.idx_lt_total layer' inside')), alike.lay]
  by_cases sweep : origin = .sweep
  · rw [if_pos sweep, if_pos sweep]
    exact ⟨alike'.restat _ _, rfl⟩
  · rw [if_neg sweep, if_neg sweep]
    have absent' : (d.entry l e).seg = .none := (alike.entry l e).seg.trans absent
    have freq := ok.allocSlot_freq layer inside absent
    have freq' := ok'.allocSlot_freq layer' inside' absent'
    have allocated := alike'.allocSlot missed.ok missed'.ok layer
    revert allocated freq freq'
    generalize (c.missed l e).allocSlot l = r
    generalize (d.missed l e).allocSlot l = r'
    obtain ⟨c', s⟩ := r
    obtain ⟨d', s'⟩ := r'
    rintro freq freq' ⟨after, rfl⟩
    dsimp only
    split
    · exact ⟨after, rfl⟩
    · exact ⟨after.admitTo (freq'.trans freq.symm) origin _ _, rfl⟩

theorem Undisturbed.acquire (origin : Origin) :
    Same (c.acquire l e origin) (d.acquire l e origin) := by
  rw [acquire_eq, acquire_eq, (alike.entry l e).seg]
  by_cases absent : (c.entry l e).seg = .none
  · rw [if_neg (not_not.mpr absent), if_neg (not_not.mpr absent)]
    exact alike.acquireMiss ok ok' layer inside absent origin
  · rw [if_pos absent, if_pos absent]
    exact alike.acquireHit ok ok' layer inside absent

end Operations

theorem Undisturbed.markResident (alike : Undisturbed c d) (l e nbytes : Nat) :
    Undisturbed (c.markResident l e nbytes) (d.markResident l e nbytes) := by
  have agrees := alike.entry l e
  rw [ExpertCache.markResident, ExpertCache.markResident, agrees.resident]
  dsimp only
  split
  · exact alike
  · refine Undisturbed.restat (alike.setEntry ?_ l e) _ _
    exact ⟨agrees.slot, agrees.seg, rfl, agrees.queued⟩

theorem release_eq (c : ExpertCache) (l e : Nat) :
    c.release l e = c.setEntry l e { c.entry l e with rc := (c.entry l e).rc - 1 } := by
  rw [release]
  dsimp only
  split
  · rfl
  · rename_i unused
    have zero : (c.entry l e).rc - 1 = (c.entry l e).rc := by omega
    rw [ExpertCache.setEntry, zero]
    exact (congrArg (fun ent => { c with ent := ent }) (Function.update_eq_self _ _)).symm

theorem Undisturbed.release (alike : Undisturbed c d) (l e : Nat) :
    Undisturbed (c.release l e) (d.release l e) := by
  have agrees := alike.entry l e
  rw [release_eq, release_eq]
  apply alike.setEntry
  refine ⟨agrees.slot, agrees.seg, agrees.resident, fun queued => ?_⟩
  obtain ⟨rc, freq⟩ := agrees.queued queued
  simp only [rc, freq, and_self]

theorem Undisturbed.rebalanceQuota (alike : Undisturbed c d) :
    Undisturbed c.rebalanceQuota d.rebalanceQuota := by
  have cleared : d.clearGhostHits.lay = c.clearGhostHits.lay := by
    simp only [clearGhostHits, alike.lay]
  rw [ExpertCache.rebalanceQuota, ExpertCache.rebalanceQuota]
  simp only [alike.cfg, alike.lay, alike.quota, alike.nSlot]
  split
  · exact { alike with lay := cleared }
  · exact { alike with lay := cleared, quota := rfl }

theorem Undisturbed.endStep (alike : Undisturbed c d) : Undisturbed c.endStep d.endStep := by
  have stepped : Undisturbed { c with step := u32 (c.step + 1) }
      { d with step := u32 (d.step + 1) } :=
    { alike with step := by rw [alike.step] }
  have due : (d.cfg.layerQuotaAdapt = true ∧ u32 (d.step + 1) % d.cfg.quotaPeriod = 0) ↔
      (c.cfg.layerQuotaAdapt = true ∧ u32 (c.step + 1) % c.cfg.quotaPeriod = 0) := by
    rw [alike.cfg, alike.step]
  rw [ExpertCache.endStep, ExpertCache.endStep]
  dsimp only
  split
  · rename_i now
    rw [if_pos (due.mpr now)]
    exact stepped.rebalanceQuota
  · rename_i notNow
    rw [if_neg fun now => notNow (due.mp now)]
    exact stepped

theorem Undisturbed.pinLayer (alike : Undisturbed c d) (l : Nat) (es : List Nat) :
    Undisturbed (ExpertCache.pinLayer l es c) (ExpertCache.pinLayer l es d) := by
  induction es generalizing c d with
  | nil => exact alike
  | cons e rest ih =>
      rw [ExpertCache.pinLayer, ExpertCache.pinLayer, alike.free, (alike.entry l e).seg]
      cases c.free with
      | nil => exact alike
      | cons s free =>
          dsimp only
          split
          · exact ih alike
          · apply ih
            have pinned : ∀ c : ExpertCache, c.pin l e s free = c.replaced l e
                { c.entry l e with slot := s, seg := .pinned, resident := true }
                { c.lay l with pinned := (c.lay l).pinned + 1, resident := (c.lay l).resident + 1 }
                free c.st := fun _ => rfl
            rw [pinned c, pinned d, alike.lay]
            apply alike.replaced
            exact ⟨rfl, rfl, rfl, fun queued => by simp at queued⟩

theorem Undisturbed.pinLayers (alike : Undisturbed c d) (order : Nat → List Nat)
    (layers : List Nat) :
    Undisturbed
      (layers.foldl
        (fun c l => ExpertCache.pinLayer l ((order l).take (pinPerLayer c.cfg)) c) c)
      (layers.foldl
        (fun c l => ExpertCache.pinLayer l ((order l).take (pinPerLayer c.cfg)) c) d) := by
  induction layers generalizing c d with
  | nil => exact alike
  | cons l rest ih =>
      rw [List.foldl_cons, List.foldl_cons, alike.cfg]
      exact ih (alike.pinLayer l _)

theorem Undisturbed.buildPinned (alike : Undisturbed c d) (freq : List Nat)
    (order : Nat → List Nat) :
    Undisturbed (c.buildPinned freq order) (d.buildPinned freq order) := by
  rw [ExpertCache.buildPinned, ExpertCache.buildPinned, ExpertCache.total, ExpertCache.total,
    alike.cfg]
  split
  · exact alike
  · exact alike.pinLayers order _

/-! ## A request of a sweep -/

def sweep (c : ExpertCache) (l e : Nat) : ExpertCache :=
  (c.apply (.acquire l e .sweep)).apply (.release l e)

/-- The requested expert is where nothing that decides on replacement records
the request: absent and unknown to the ghost list, pinned, or in MAIN at the
ceiling of the frequency. -/
def Harmless (c : ExpertCache) (l e : Nat) : Prop :=
  ((c.entry l e).seg = .none ∧ e ∉ (c.lay l).ghost) ∨ (c.entry l e).seg = .pinned ∨
    ((c.entry l e).seg = .main ∧ (c.entry l e).freq = FREQ_MAX ∧ (c.entry l e).rc < 2 ^ 16 - 1)

instance (c : ExpertCache) (l e : Nat) : Decidable (c.Harmless l e) :=
  inferInstanceAs (Decidable (_ ∨ _ ∨ _))

theorem replaced_release {en : Entry} {ls : LayerState} {free : List Nat} {st : CacheStats} :
    (c.replaced l e en ls free st).release l e =
      c.replaced l e { en with rc := en.rc - 1 } ls free st := by
  rw [release_eq]
  simp only [ExpertCache.replaced, setEntry, ExpertCache.entry, ExpertCache.idx,
    Function.update_self, Function.update_idem]

theorem undisturbed_replaced_iff {en : Entry} {ls : LayerState} {st : CacheStats}
    (table : c.slot (c.idx l e) = (c.entry l e).slot) :
    Undisturbed c (c.replaced l e en ls c.free st) ↔
      ls = c.lay l ∧ (c.entry l e).Agrees en := by
  constructor
  · intro alike
    have lay := congrFun alike.lay l
    have entry := alike.entry l e
    rw [replaced_lay_self] at lay
    rw [replaced_entry_self] at entry
    exact ⟨lay, entry⟩
  · rintro ⟨rfl, agrees⟩
    refine ⟨rfl, rfl, ?_, Function.update_eq_self _ _, rfl, rfl, rfl, ?_⟩
    · simp only [ExpertCache.replaced, agrees.slot]
      rw [← table, Function.update_eq_self]
    · intro i
      by_cases own : i = c.idx l e
      · rw [own, replaced_ent_self]
        exact agrees
      · rw [replaced_ent_of_ne own]
        exact Entry.Agrees.refl _

/-- A sweep leaves the replacement state alone exactly if it is harmless. -/
theorem sweep_undisturbed_iff (ok : c.Ok) (layer : l < c.cfg.nLayer) (inside : e < c.cfg.nExpert) :
    Undisturbed c (c.sweep l e) ↔ c.Harmless l e := by
  have table := ok.table _ (c.idx_lt_total layer inside)
  have before := ok.entry layer inside
  have kept : ∀ en : Entry, (hitEntry en c.step).slot = en.slot := fun _ => rfl
  simp only [sweep, Harmless, ExpertCache.apply]
  rw [acquire_eq]
  cases seg : (c.entry l e).seg with
  | none =>
      rw [if_neg (not_not.mpr rfl), acquireMiss_eq .sweep table, if_pos rfl]
      have counted : ∀ st, ({ c.missed l e with st := st } : ExpertCache) = c.replaced l e
          { c.entry l e with last := c.step, freq := 1 } (ghostTaken (c.lay l) e) c.free st :=
        fun _ => rfl
      rw [counted, replaced_release, undisturbed_replaced_iff table]
      have agrees : (c.entry l e).Agrees
          { c.entry l e with last := c.step, freq := 1, rc := (c.entry l e).rc - 1 } :=
        Entry.Agrees.of_unqueued rfl rfl rfl (Or.inl seg)
      rw [and_iff_left agrees, ghostTaken_eq_self_iff]
      simp
  | pinned =>
      rw [if_pos (by decide : Seg.pinned ≠ .none), acquireHit_pinned table seg, replaced_release,
        undisturbed_replaced_iff table]
      refine iff_of_true ⟨rfl, ?_⟩ (Or.inr (Or.inl rfl))
      exact Entry.Agrees.of_unqueued rfl rfl rfl (Or.inr seg)
  | small =>
      have one := before.small seg
      have member : e ∈ (c.lay l).small := ((ok.layers l layer).memSmall e).mpr ⟨inside, seg⟩
      rw [if_pos (by decide : Seg.small ≠ .none), acquireHit_small table seg one member,
        replaced_release, undisturbed_replaced_iff table]
      refine iff_of_false ?_ (by simp)
      rintro ⟨lay, -⟩
      exact List.erase_eq_self_iff.mp (congrArg LayerState.small lay) member
  | main =>
      rw [if_pos (by decide : Seg.main ≠ .none), acquireHit_main table seg, replaced_release,
        undisturbed_replaced_iff table]
      have most := (before.main seg).2
      constructor
      · rintro ⟨-, agrees⟩
        obtain ⟨rc, freq⟩ := agrees.queued (Or.inr seg)
        simp only [hitEntry, u16] at rc freq
        split at freq
        · omega
        · exact Or.inr (Or.inr ⟨rfl, by omega, by omega⟩)
      · rintro (⟨absent, -⟩ | pinned | ⟨-, top, few⟩)
        · cases absent
        · cases pinned
        · refine ⟨rfl, rfl, rfl, rfl, fun _ => ⟨?_, ?_⟩⟩
          · simp only [hitEntry, u16]
            omega
          · simp only [hitEntry, top, lt_irrefl, if_false]

/-! ## Two runs -/

/-- An operation of both runs, or an added request of a sweep with its release. -/
inductive Marked where
  | both (op : Op)
  | extra (layer expert : Nat)

def Marked.InRange (cfg : Config) : Marked → Prop
  | .both op => op.InRange cfg
  | .extra layer expert => layer < cfg.nLayer ∧ expert < cfg.nExpert

/-- What is seen of an operation: the hit and the slot a request reports, and
which experts have a seat and which of them are resident afterwards. -/
structure Observation where
  answer : Option (Bool × Nat)
  seated : Set (Nat × Nat)
  resident : Set (Nat × Nat)

def reported (c : ExpertCache) : Op → Option (Bool × Nat)
  | .acquire layer expert origin => some (c.acquire layer expert origin).2
  | _ => none

def observe (c : ExpertCache) (op : Op) : Observation where
  answer := c.reported op
  seated := {p | ((c.apply op).entry p.1 p.2).seg ≠ .none}
  resident := {p | ((c.apply op).entry p.1 p.2).resident = true}

def without (c : ExpertCache) : List Marked → List Observation
  | [] => []
  | .both op :: rest => c.observe op :: (c.apply op).without rest
  | .extra _ _ :: rest => c.without rest

/-- The operations of the other run, where the added requests happen too. -/
def withSweeps (c : ExpertCache) : List Marked → List Observation
  | [] => []
  | .both op :: rest => c.observe op :: (c.apply op).withSweeps rest
  | .extra layer expert :: rest => (c.sweep layer expert).withSweeps rest

def Unpolluted (c : ExpertCache) : List Marked → Prop
  | [] => True
  | .both op :: rest => (c.apply op).Unpolluted rest
  | .extra layer expert :: rest =>
      c.Harmless layer expert ∧ (c.sweep layer expert).Unpolluted rest

theorem Undisturbed.trans {b : ExpertCache} (first : Undisturbed c d) (second : Undisturbed d b) :
    Undisturbed c b := by
  refine ⟨second.cfg.trans first.cfg, second.nSlot.trans first.nSlot,
    second.slot.trans first.slot, second.lay.trans first.lay, second.quota.trans first.quota,
    second.free.trans first.free, second.step.trans first.step, fun i => ?_⟩
  have agrees := first.entries i
  have agrees' := second.entries i
  refine ⟨agrees'.slot.trans agrees.slot, agrees'.seg.trans agrees.seg,
    agrees'.resident.trans agrees.resident, fun queued => ?_⟩
  obtain ⟨rc, freq⟩ := agrees.queued queued
  rw [← agrees.seg] at queued
  obtain ⟨rc', freq'⟩ := agrees'.queued queued
  exact ⟨rc'.trans rc, freq'.trans freq⟩

theorem Undisturbed.apply (alike : Undisturbed c d) (ok : c.Ok) (ok' : d.Ok) {op : Op}
    (inRange : op.InRange c.cfg) :
    d.observe op = c.observe op ∧ Undisturbed (c.apply op) (d.apply op) := by
  have both : Undisturbed (c.apply op) (d.apply op) ∧ d.reported op = c.reported op := by
    cases op with
    | acquire layer expert origin =>
        obtain ⟨after, same⟩ := alike.acquire ok ok' inRange.1 inRange.2 origin
        exact ⟨after, congrArg some same⟩
    | markResident layer expert nbytes => exact ⟨alike.markResident layer expert nbytes, rfl⟩
    | release layer expert => exact ⟨alike.release layer expert, rfl⟩
    | endStep => exact ⟨alike.endStep, rfl⟩
    | buildPinned freq order => exact ⟨alike.buildPinned freq order, rfl⟩
  obtain ⟨after, same⟩ := both
  refine ⟨?_, after⟩
  have seg : ∀ l e, ((d.apply op).entry l e).seg = ((c.apply op).entry l e).seg :=
    fun l e => (after.entry l e).seg
  have resident : ∀ l e, ((d.apply op).entry l e).resident = ((c.apply op).entry l e).resident :=
    fun l e => (after.entry l e).resident
  simp only [observe, same, seg, resident]

theorem Undisturbed.run (alike : Undisturbed c d) (ok : c.Ok) (ok' : d.Ok) {ms : List Marked}
    (inRange : ∀ m ∈ ms, m.InRange c.cfg) (clean : d.Unpolluted ms) :
    d.withSweeps ms = c.without ms := by
  induction ms generalizing c d with
  | nil => rfl
  | cons m rest ih =>
      have here := inRange m List.mem_cons_self
      have later : ∀ m ∈ rest, m.InRange c.cfg :=
        fun m member => inRange m (List.mem_cons_of_mem _ member)
      cases m with
      | both op =>
          have inRange' : op.InRange d.cfg := by
            rw [alike.cfg]
            exact here
          obtain ⟨same, after⟩ := alike.apply ok ok' here
          have applied := ok.apply op here
          rw [withSweeps, without, same, ih after applied.ok (ok'.apply op inRange').ok
            (by rw [applied.cfg]; exact later) clean]
      | extra layer expert =>
          have here' : layer < d.cfg.nLayer ∧ expert < d.cfg.nExpert := by
            rw [alike.cfg]
            exact here
          have requested := ok'.apply (.acquire layer expert .sweep) here'
          have released := requested.ok.apply (.release layer expert)
            (by rw [requested.cfg]; exact here')
          have unseen := (sweep_undisturbed_iff ok' here'.1 here'.2).mpr clean.1
          rw [withSweeps, without]
          exact ih (alike.trans unseen) ok released.ok later clean.2

/-- Added requests of a sweep, each released at once, change no answer and no
seat as long as each of them is harmless when it is made. -/
theorem sweeps_unseen (cfg : Config) (ms : List Marked) (inRange : ∀ m ∈ ms, m.InRange cfg)
    (clean : (init cfg).Unpolluted ms) :
    (init cfg).withSweeps ms = (init cfg).without ms :=
  (Undisturbed.refl _).run (init_ok cfg) (init_ok cfg) inRange clean

def twoSeats : Config := { nLayer := 1, nExpert := 3, nSlot := 2 }

/-- The sweep asks for expert 2, which was never there. -/
theorem sweeps_unseen_absent :
    (init twoSeats).withSweeps
        [.both (.acquire 0 0 .demand), .extra 0 2, .both (.acquire 0 2 .demand)] =
      (init twoSeats).without
        [.both (.acquire 0 0 .demand), .extra 0 2, .both (.acquire 0 2 .demand)] := by
  apply sweeps_unseen
  · intro m member
    simp only [List.mem_cons, List.not_mem_nil, or_false] at member
    rcases member with rfl | rfl | rfl <;> exact ⟨by decide, by decide⟩
  · exact ⟨by decide, trivial⟩

def promoting : List Marked :=
  [.both (.acquire 0 0 .demand), .both (.release 0 0), .both (.acquire 0 1 .demand),
    .both (.release 0 1), .extra 0 0, .both (.acquire 0 2 .demand), .both (.release 0 2),
    .both (.acquire 0 0 .demand)]

/-- The hit of the sweep promotes expert 0, so expert 1 is evicted in its place
and the last request hits instead of missing. -/
theorem sweeps_seen :
    (∀ m ∈ promoting, m.InRange twoSeats) ∧
      (init twoSeats).withSweeps promoting ≠ (init twoSeats).without promoting := by
  constructor
  · intro m member
    simp only [promoting, List.mem_cons, List.not_mem_nil, or_false] at member
    rcases member with rfl | rfl | rfl | rfl | rfl | rfl | rfl | rfl <;>
      exact ⟨by decide, by decide⟩
  · intro same
    have answers := congrArg (List.map Observation.answer) same
    revert answers
    decide +kernel

end ExpertCache

end MoeStream
