import MoeStream.Cache.Isolation

/-!
# Rows of requests

A token asks a layer for a row of experts, the data of the misses arrive, and at
the end the references of the row are dropped.  What the statistics gain by a row
is decided by its outcomes, so two layers that agree gain the same, and agree
again once all their references are dropped.
-/

set_option autoImplicit false

namespace MoeStream

open Foundation.FixedWidth

namespace ExpertCache

variable {c d : ExpertCache} {l k e nbytes : Nat}

def request (c : ExpertCache) (l nbytes e : Nat) : ExpertCache :=
  let r := c.acquire l e .demand
  if r.2.1 = false ∧ r.2.2 ≠ NO_SLOT then r.1.markResident l e nbytes else r.1

def requests (c : ExpertCache) (l nbytes : Nat) (es : List Nat) : ExpertCache :=
  es.foldl (fun c e => c.request l nbytes e) c

def releases (c : ExpertCache) (l : Nat) (es : List Nat) : ExpertCache :=
  es.foldl (fun c e => c.release l e) c

def answered (l nbytes : Nat) (c : ExpertCache) : List Nat → List Outcome
  | [] => []
  | e :: rest => outcome (c.acquire l e .demand) :: answered l nbytes (c.request l nbytes e) rest

def granted (l nbytes : Nat) (c : ExpertCache) : List Nat → List Nat
  | [] => []
  | e :: rest =>
      (if outcome (c.acquire l e .demand) = .refused then [] else [e]) ++
        granted l nbytes (c.request l nbytes e) rest

inductive Replied (c : ExpertCache) (l nbytes e : Nat) : Prop where
  | hit (found : (c.acquire l e .demand).2.1 = true)
      (named : (c.acquire l e .demand).2.2 ≠ NO_SLOT)
      (outcome : outcome (c.acquire l e .demand) = .hit)
      (after : c.request l nbytes e = (c.acquire l e .demand).1)
  | admitted (missed : (c.acquire l e .demand).2.1 = false)
      (named : (c.acquire l e .demand).2.2 ≠ NO_SLOT)
      (outcome : outcome (c.acquire l e .demand) = .admitted)
      (after : c.request l nbytes e = (c.acquire l e .demand).1.markResident l e nbytes)
  | refused (missed : (c.acquire l e .demand).2.1 = false)
      (unnamed : (c.acquire l e .demand).2.2 = NO_SLOT)
      (outcome : outcome (c.acquire l e .demand) = .refused)
      (after : c.request l nbytes e = (c.acquire l e .demand).1)

theorem Ok.replied (ok : c.Ok) (layer : l < c.cfg.nLayer) (inside : e < c.cfg.nExpert)
    (nbytes : Nat) : Replied c l nbytes e := by
  have bound := c.idx_lt_total layer inside
  have named : (c.acquire l e .demand).2.1 = true → (c.acquire l e .demand).2.2 ≠ NO_SLOT := by
    have acquired := (ok.acquire layer inside .demand).2
    revert acquired
    generalize c.acquire l e .demand = result
    intro acquired
    cases acquired with
    | hit seat => exact fun _ => ok.seat_ne bound seat
    | refused => exact nofun
    | granted => exact nofun
    | replaced => exact nofun
  cases found : (c.acquire l e .demand).2.1 with
  | true =>
      exact Replied.hit found (named found) (by simp [outcome, found]) (by simp [request, found])
  | false =>
      by_cases slot : (c.acquire l e .demand).2.2 = NO_SLOT
      · exact Replied.refused found slot (by simp [outcome, found, slot])
          (by simp [request, slot])
      · exact Replied.admitted found slot (by simp [outcome, found, slot])
          (by simp [request, found, slot])

/-! ## Statistics -/

/-- What the counters of a report gain by requests with outcomes `os`. -/
structure Gained (st : CacheStats) (nbytes : Nat) (os : List Outcome) (st' : CacheStats) :
    Prop where
  hit : st'.hit = st.hit + os.count .hit
  miss : st'.miss = st.miss + os.countP (· ≠ .hit)
  bytes : st'.bytesFetched = st.bytesFetched + nbytes * os.count .admitted

theorem Gained.refl (st : CacheStats) (nbytes : Nat) : Gained st nbytes [] st := ⟨rfl, rfl, rfl⟩

theorem Gained.trans {st st' st'' : CacheStats} {os ps : List Outcome}
    (first : Gained st nbytes os st') (later : Gained st' nbytes ps st'') :
    Gained st nbytes (os ++ ps) st'' where
  hit := by rw [later.hit, first.hit, List.count_append, Nat.add_assoc]
  miss := by rw [later.miss, first.miss, List.countP_append, Nat.add_assoc]
  bytes := by rw [later.bytes, first.bytes, List.count_append, Nat.mul_add, Nat.add_assoc]

theorem Ok.allocSlot_counts (ok : c.Ok) (layer : l < c.cfg.nLayer) :
    (c.allocSlot l).1.st.hit = c.st.hit ∧ (c.allocSlot l).1.st.miss = c.st.miss ∧
      (c.allocSlot l).1.st.bytesFetched = c.st.bytesFetched := by
  have allocated := ok.allocSlot layer
  revert allocated
  generalize c.allocSlot l = result
  intro allocated
  cases allocated with
  | refused why => exact ⟨rfl, rfl, rfl⟩
  | free below available => exact ⟨rfl, rfl, rfl⟩
  | evicted layer why evicts =>
      refine ⟨?_, ?_, ?_⟩
      all_goals
        dsimp only
        rw [evicts.st]

theorem Ok.acquireHit_gained (ok : c.Ok) (layer : l < c.cfg.nLayer) (inside : e < c.cfg.nExpert)
    (present : (c.entry l e).seg ≠ .none) (nbytes : Nat) :
    ((c.setEntry l e { c.entry l e with last := c.step }).acquireHit l e).2.1 = true ∧
      Gained c.st nbytes [.hit]
        ((c.setEntry l e { c.entry l e with last := c.step }).acquireHit l e).1.st := by
  have table := ok.table _ (c.idx_lt_total layer inside)
  cases seg : (c.entry l e).seg with
  | none => exact absurd seg present
  | pinned =>
      rw [acquireHit_pinned table seg]
      exact ⟨rfl, ⟨rfl, rfl, rfl⟩⟩
  | main =>
      rw [acquireHit_main table seg]
      exact ⟨rfl, ⟨rfl, rfl, rfl⟩⟩
  | small =>
      rw [acquireHit_small table seg ((ok.entry layer inside).small seg)
        (((ok.layers l layer).memSmall e).mpr ⟨inside, seg⟩)]
      exact ⟨rfl, ⟨rfl, rfl, rfl⟩⟩

/-- A miss is counted as one; its data, if it got a slot, is still to come. -/
theorem Ok.acquireMiss_gained (ok : c.Ok) (layer : l < c.cfg.nLayer)
    (inside : e < c.cfg.nExpert) :
    let r := (c.setEntry l e { c.entry l e with last := c.step }).acquireMiss l e .demand
    r.2.1 = false ∧ r.1.st.hit = c.st.hit ∧ r.1.st.miss = c.st.miss + 1 ∧
      r.1.st.bytesFetched = c.st.bytesFetched ∧
      (r.2.2 ≠ NO_SLOT → (r.1.entry l e).resident = false) := by
  obtain ⟨hit, miss, bytes⟩ := (ok.missed layer inside).ok.allocSlot_counts layer
  intro r
  have result : r = _ := acquireMiss_eq .demand (ok.table _ (c.idx_lt_total layer inside))
  rw [if_neg nofun] at result
  rw [result]
  split
  · exact ⟨rfl, hit, miss, bytes, fun named => absurd rfl named⟩
  · have admitted := admitTo_eq ((c.missed l e).allocSlot l).1 l e .demand
      (decide (e ∈ (c.lay l).ghost)) ((c.missed l e).allocSlot l).2
      ((c.missed l e).allocSlot l).1.free
    refine ⟨rfl, hit, miss, bytes, fun _ => ?_⟩
    dsimp only
    rw [admitted, replaced_entry_self]

theorem markResident_counts (c : ExpertCache) (l e nbytes : Nat) :
    (c.markResident l e nbytes).st.hit = c.st.hit ∧
      (c.markResident l e nbytes).st.miss = c.st.miss := by
  simp only [markResident]
  split <;> exact ⟨rfl, rfl⟩

theorem markResident_fetched (awaited : (c.entry l e).resident = false) (nbytes : Nat) :
    (c.markResident l e nbytes).st.bytesFetched = c.st.bytesFetched + nbytes := by
  simp [markResident, awaited, setEntry]

theorem Ok.request_gained (ok : c.Ok) (layer : l < c.cfg.nLayer) (inside : e < c.cfg.nExpert)
    (nbytes : Nat) :
    Gained c.st nbytes [outcome (c.acquire l e .demand)] (c.request l nbytes e).st := by
  by_cases absent : (c.entry l e).seg = .none
  · have result : c.acquire l e .demand = _ := acquire_eq c l e .demand
    rw [if_neg (not_not.mpr absent)] at result
    obtain ⟨missed, hit, miss, bytes, awaited⟩ := ok.acquireMiss_gained layer inside
    rw [← result] at missed hit miss bytes awaited
    simp only [request, outcome, missed, Bool.false_eq_true, if_false, true_and, ne_eq]
    by_cases refused : (c.acquire l e .demand).2.2 = NO_SLOT
    · rw [if_pos refused, if_neg (not_not.mpr refused)]
      exact ⟨hit, miss, bytes⟩
    · rw [if_neg refused, if_pos refused]
      obtain ⟨sameHit, sameMiss⟩ := markResident_counts (c.acquire l e .demand).1 l e nbytes
      refine ⟨sameHit.trans hit, sameMiss.trans miss, ?_⟩
      rw [markResident_fetched (awaited refused), bytes]
      exact congrArg (c.st.bytesFetched + ·) (Nat.mul_one nbytes).symm
  · have result : c.acquire l e .demand = _ := acquire_eq c l e .demand
    rw [if_pos absent] at result
    obtain ⟨hit, gained⟩ := ok.acquireHit_gained layer inside absent nbytes
    rw [← result] at hit gained
    simp only [request, outcome, hit, if_true, Bool.true_eq_false, false_and, if_false]
    exact gained

/-! ## References -/

/-- A request takes at most one reference, to its expert, and none when it is
refused. -/
theorem Ok.request_rc (ok : c.Ok) (layer : l < c.cfg.nLayer) (inside : e < c.cfg.nExpert)
    (nbytes : Nat) {e' : Nat} (inside' : e' < c.cfg.nExpert) :
    ((c.request l nbytes e).entry l e').rc ≤ (c.entry l e').rc +
      (if outcome (c.acquire l e .demand) = .refused then [] else [e]).count e' := by
  obtain ⟨requested, acquired⟩ := ok.acquire layer inside .demand
  have marked : ((c.request l nbytes e).entry l e').rc =
      ((c.acquire l e .demand).1.entry l e').rc := by
    simp only [request]
    split
    · exact (Alike.marked _ l e nbytes).rc (by rw [requested.cfg]; exact inside')
    · rfl
  have index : (c.acquire l e .demand).1.idx l e' = c.idx l e' := by
    simp only [idx]
    rw [requested.cfg]
  have read : ((c.acquire l e .demand).1.entry l e').rc =
      (c.acquire l e .demand).1.rcs (c.idx l e') := by
    rw [← index]
    rfl
  -- the reference is taken by whoever is not refused
  have taken : ∀ rc, (c.acquire l e .demand).1.rcs = Function.update c.rcs (c.idx l e) rc →
      rc ≤ c.rcs (c.idx l e) + 1 →
      (c.acquire l e .demand).1.rcs (c.idx l e') ≤ (c.entry l e').rc + [e].count e' := by
    intro rc rcs small
    rw [rcs]
    by_cases own : e' = e
    · subst own
      rw [Function.update_self, List.count_singleton_self]
      exact small
    · rw [Function.update_of_ne fun same => own (c.idx_inj_left same)]
      exact Nat.le_add_right _ _
  rw [marked, read]
  have named : ∀ s : Nat, s ≠ NO_SLOT → ∀ c' : ExpertCache, ∀ hit,
      outcome (c', hit, s) ≠ .refused := by
    intro s named c' hit
    cases hit
    · simp [outcome, named]
    · simp [outcome]
  revert acquired taken
  generalize c.acquire l e .demand = result
  intro acquired taken
  cases acquired with
  | hit seat seats rcs free =>
      rw [if_neg (named _ (ok.seat_ne (c.idx_lt_total layer inside) seat) _ _)]
      exact taken _ rcs (u16_le _)
  | refused absent seats rcs free why =>
      refine Nat.le_trans ?_ (Nat.le_add_right _ _)
      dsimp only
      rw [rcs]
      exact Nat.le_refl _
  | @granted c' s absent available seats rcs =>
      have small := ok.free_lt (s := s) (by rw [available]; exact List.mem_cons_self)
      have slots := ok.slots
      rw [if_neg (named s (by omega) _ _)]
      exact taken 1 rcs (Nat.le_add_left 1 _)
  | @replaced c' j v s absent victimLayer inside' victim idle free seats rcs =>
      rw [if_neg (named s (ok.seat_ne (c.idx_lt_total victimLayer inside') victim) _ _)]
      exact taken 1 rcs (Nat.le_add_left 1 _)

structure Dropped (c : ExpertCache) (l : Nat) (es : List Nat) (c' : ExpertCache) : Prop where
  within : Within c l c'
  lay : c'.lay l = c.lay l
  entries : ∀ e, c'.entry l e = { c.entry l e with rc := (c.entry l e).rc - es.count e }
  st : c'.st = c.st

theorem release_dropped (inside : e < c.cfg.nExpert) : Dropped c l [e] (c.release l e) := by
  refine ⟨Within.release inside, ?_, ?_, ?_⟩
  · simp only [ExpertCache.release]
    split <;> rfl
  · intro e'
    have other : e' ≠ e → [e].count e' = 0 := fun apart => by
      rw [List.count_singleton, if_neg (by simpa using Ne.symm apart)]
    simp only [ExpertCache.release]
    split
    · by_cases own : e' = e
      · subst own
        rw [setEntry_self, List.count_singleton_self]
      · rw [setEntry_of_ne own, other own, Nat.sub_zero]
    · rename_i idle
      by_cases own : e' = e
      · subst own
        rw [show (c.entry l e').rc - [e'].count e' = (c.entry l e').rc by omega]
      · rw [other own, Nat.sub_zero]
  · simp only [ExpertCache.release]
    split <;> rfl

theorem releases_dropped (es : List Nat) (inside : ∀ e ∈ es, e < c.cfg.nExpert) :
    Dropped c l es (c.releases l es) := by
  induction es generalizing c with
  | nil => exact ⟨Within.refl c l, rfl, fun _ => rfl, rfl⟩
  | cons e rest ih =>
      have first := release_dropped (l := l) (inside e List.mem_cons_self)
      have later := ih (c := c.release l e) (by
        rw [first.within.cfg]
        exact fun k member => inside k (List.mem_cons_of_mem e member))
      refine ⟨first.within.trans later.within, later.lay.trans first.lay, ?_,
        later.st.trans first.st⟩
      intro e'
      have split : ([e] ++ rest).count e' = [e].count e' + rest.count e' := List.count_append
      have total := later.entries e'
      rw [first.entries e'] at total
      dsimp only at total
      rw [Nat.sub_sub, ← split] at total
      exact total

def Idle (c : ExpertCache) (l : Nat) : Prop := ∀ e, e < c.cfg.nExpert → (c.entry l e).rc = 0

/-- Two layers that agree agree again once nobody is in use on either. -/
theorem Alike.dropped (alike : Alike c l d k) {es fs : List Nat} {c' d' : ExpertCache}
    (left : Dropped c l es c') (right : Dropped d k fs d')
    (few : ∀ e, e < c.cfg.nExpert → (c.entry l e).rc ≤ es.count e)
    (few' : ∀ e, e < d.cfg.nExpert → (d.entry k e).rc ≤ fs.count e) :
    Alike c' l d' k ∧ c'.Idle l ∧ d'.Idle k := by
  have idle : c'.Idle l := by
    intro e inside
    rw [left.within.cfg] at inside
    rw [left.entries e]
    exact Nat.sub_eq_zero_of_le (few e inside)
  have idle' : d'.Idle k := by
    intro e inside
    rw [right.within.cfg] at inside
    rw [right.entries e]
    exact Nat.sub_eq_zero_of_le (few' e inside)
  refine ⟨?_, idle, idle'⟩
  apply alike.keep left.within.cfg right.within.cfg (congrFun left.within.quota l)
    (congrFun right.within.quota k)
  · rw [left.lay, right.lay]
    exact alike.lay
  · intro e inside
    have here := idle e (by rw [left.within.cfg]; exact inside)
    have there := idle' e (by rw [right.within.cfg, alike.experts]; exact inside)
    have seg := alike.seg inside
    have freq := alike.freq inside
    simp only [Entry.standing]
    rw [here, there, left.entries e, right.entries e]
    dsimp only
    rw [seg, freq]

/-! ## Rows -/

theorem granted_sublist (l nbytes : Nat) (c : ExpertCache) (es : List Nat) :
    (granted l nbytes c es).Sublist es := by
  induction es generalizing c with
  | nil => exact List.Sublist.slnil
  | cons e rest ih =>
      simp only [granted]
      split
      · exact (ih _).cons e
      · exact (ih _).cons_cons e

theorem Apportioned.request (apportioned : c.Apportioned) (layer : l < c.cfg.nLayer)
    (inside : e < c.cfg.nExpert) (nbytes : Nat) :
    Within c l (c.request l nbytes e) ∧ (c.request l nbytes e).Apportioned := by
  obtain ⟨within, kept⟩ := apportioned.acquire layer inside .demand
  simp only [ExpertCache.request]
  split
  · obtain ⟨marked, kept'⟩ := kept.markResident (by rw [within.cfg]; exact layer)
      (by rw [within.cfg]; exact inside) nbytes
    exact ⟨within.trans marked, kept'⟩
  · exact ⟨within, kept⟩

theorem Single.request (single : c.Single)
    (inside : e < c.cfg.nExpert) (nbytes : Nat) :
    (c.request 0 nbytes e).Single ∧ (c.request 0 nbytes e).cfg = c.cfg := by
  have requested := (single.ok.acquire single.layer inside .demand).1
  have acquired := single.acquire inside .demand
  have within : e < (c.acquire 0 e .demand).1.cfg.nExpert := by
    rw [requested.cfg]
    exact inside
  simp only [ExpertCache.request]
  split
  · exact ⟨acquired.markResident within nbytes,
      (Within.markResident (l := 0) within nbytes).cfg.trans requested.cfg⟩
  · exact ⟨acquired, requested.cfg⟩

structure Rowed (c : ExpertCache) (l nbytes : Nat) (es : List Nat) (c' : ExpertCache) : Prop where
  within : Within c l c'
  apportioned : c'.Apportioned
  gained : Gained c.st nbytes (answered l nbytes c es) c'.st
  rc : ∀ e, e < c.cfg.nExpert →
    (c'.entry l e).rc ≤ (c.entry l e).rc + (granted l nbytes c es).count e

theorem Apportioned.requests (apportioned : c.Apportioned) (layer : l < c.cfg.nLayer)
    (nbytes : Nat) (es : List Nat) (inside : ∀ e ∈ es, e < c.cfg.nExpert) :
    Rowed c l nbytes es (c.requests l nbytes es) := by
  induction es generalizing c with
  | nil => exact ⟨Within.refl c l, apportioned, Gained.refl c.st nbytes, fun _ _ => Nat.le_refl _⟩
  | cons e rest ih =>
      have here := inside e List.mem_cons_self
      obtain ⟨within, kept⟩ := apportioned.request layer here nbytes
      have later := ih kept (by rw [within.cfg]; exact layer) (by
        rw [within.cfg]
        exact fun k member => inside k (List.mem_cons_of_mem e member))
      refine ⟨within.trans later.within, later.apportioned,
        (apportioned.ok.request_gained layer here nbytes).trans later.gained, ?_⟩
      intro e' inside'
      have first := apportioned.ok.request_rc layer here nbytes inside'
      have rest := later.rc e' (by rw [within.cfg]; exact inside')
      simp only [granted]
      rw [List.count_append]
      exact Nat.le_trans rest (by omega)

theorem Alike.request (alike : Alike c l d k) (apportioned : c.Apportioned)
    (apportioned' : d.Apportioned) (layer : l < c.cfg.nLayer) (layer' : k < d.cfg.nLayer)
    (inside : e < c.cfg.nExpert) (nbytes nbytes' : Nat) :
    outcome (c.acquire l e .demand) = outcome (d.acquire k e .demand) ∧
      Alike (c.request l nbytes e) l (d.request k nbytes' e) k := by
  have answers := alike.acquire apportioned apportioned' layer layer' inside .demand
  have marked : ∀ (c : ExpertCache) (l nbytes : Nat),
      Alike (c.acquire l e .demand).1 l (c.request l nbytes e) l := by
    intro c l nbytes
    simp only [ExpertCache.request]
    split
    · exact Alike.marked _ l e nbytes
    · exact Alike.refl _ l
  exact ⟨answers.outcome, (marked c l nbytes).symm.trans (answers.alike.trans (marked d k nbytes'))⟩

theorem Alike.requests (alike : Alike c l d k) (apportioned : c.Apportioned)
    (apportioned' : d.Apportioned) (layer : l < c.cfg.nLayer) (layer' : k < d.cfg.nLayer)
    (nbytes nbytes' : Nat) (es : List Nat) (inside : ∀ e ∈ es, e < c.cfg.nExpert) :
    answered l nbytes c es = answered k nbytes' d es ∧
      granted l nbytes c es = granted k nbytes' d es ∧
      Alike (c.requests l nbytes es) l (d.requests k nbytes' es) k := by
  induction es generalizing c d with
  | nil => exact ⟨rfl, rfl, alike⟩
  | cons e rest ih =>
      have here := inside e List.mem_cons_self
      have here' : e < d.cfg.nExpert := by rw [alike.experts]; exact here
      obtain ⟨within, kept⟩ := apportioned.request layer here nbytes
      obtain ⟨within', kept'⟩ := apportioned'.request layer' here' nbytes'
      obtain ⟨same, next⟩ := alike.request apportioned apportioned' layer layer' here nbytes nbytes'
      obtain ⟨answers, grants, after⟩ := ih next kept kept' (by rw [within.cfg]; exact layer)
        (by rw [within'.cfg]; exact layer') (by
          rw [within.cfg]
          exact fun k member => inside k (List.mem_cons_of_mem e member))
      refine ⟨?_, ?_, after⟩
      · simp only [answered]
        rw [same, answers]
      · simp only [granted]
        rw [same, grants]

/-- A layer nobody uses serves a row and drops at least the references taken. -/
structure Settled (c : ExpertCache) (l nbytes : Nat) (es : List Nat) (c' : ExpertCache) : Prop where
  within : Within c l c'
  apportioned : c'.Apportioned
  gained : Gained c.st nbytes (answered l nbytes c es) c'.st
  idle : c'.Idle l

theorem Apportioned.releases (apportioned : c.Apportioned) (layer : l < c.cfg.nLayer)
    (es : List Nat) (inside : ∀ e ∈ es, e < c.cfg.nExpert) : (c.releases l es).Apportioned := by
  induction es generalizing c with
  | nil => exact apportioned
  | cons e rest ih =>
      obtain ⟨within, kept⟩ := apportioned.release layer (inside e List.mem_cons_self)
      apply ih kept (by rw [within.cfg]; exact layer)
      rw [within.cfg]
      exact fun k member => inside k (List.mem_cons_of_mem e member)

section Row

variable {es fs : List Nat} {nbytes nbytes' : Nat}

theorem Apportioned.settled (apportioned : c.Apportioned) (layer : l < c.cfg.nLayer)
    (idle : c.Idle l) (nbytes : Nat) (inside : ∀ e ∈ es, e < c.cfg.nExpert)
    (dropped : ∀ e ∈ fs, e < c.cfg.nExpert)
    (covers : ∀ e, (granted l nbytes c es).count e ≤ fs.count e) :
    Settled c l nbytes es ((c.requests l nbytes es).releases l fs) := by
  have row := apportioned.requests layer nbytes es inside
  have listed : ∀ e ∈ fs, e < (c.requests l nbytes es).cfg.nExpert := by
    rw [row.within.cfg]
    exact dropped
  have released := releases_dropped (l := l) fs listed
  refine ⟨row.within.trans released.within,
    row.apportioned.releases (by rw [row.within.cfg]; exact layer) fs listed, ?_, ?_⟩
  · rw [released.st]
    exact row.gained
  · intro e below
    have small : e < c.cfg.nExpert := by
      rw [released.within.cfg, row.within.cfg] at below
      exact below
    have most := row.rc e small
    have enough := covers e
    have none := idle e small
    rw [released.entries e]
    dsimp only
    omega

/-- Two layers that agree and that nobody uses agree after a row, whatever else
they release. -/
theorem Alike.settled (alike : Alike c l d k) (apportioned : c.Apportioned)
    (apportioned' : d.Apportioned) (layer : l < c.cfg.nLayer) (layer' : k < d.cfg.nLayer)
    (idle : c.Idle l) (nbytes nbytes' : Nat) (gs : List Nat)
    (inside : ∀ e ∈ es, e < c.cfg.nExpert) (dropped : ∀ e ∈ fs, e < c.cfg.nExpert)
    (dropped' : ∀ e ∈ gs, e < c.cfg.nExpert)
    (covers : ∀ e, (granted l nbytes c es).count e ≤ fs.count e)
    (covers' : ∀ e, (granted l nbytes c es).count e ≤ gs.count e) :
    answered l nbytes c es = answered k nbytes' d es ∧
      Alike ((c.requests l nbytes es).releases l fs) l
        ((d.requests k nbytes' es).releases k gs) k := by
  obtain ⟨answers, grants, after⟩ :=
    alike.requests apportioned apportioned' layer layer' nbytes nbytes' es inside
  have row := apportioned.requests layer nbytes es inside
  have row' := apportioned'.requests layer' nbytes' es (by rw [alike.experts]; exact inside)
  refine ⟨answers, (after.dropped (releases_dropped fs (by rw [row.within.cfg]; exact dropped))
    (releases_dropped gs (by rw [row'.within.cfg, alike.experts]; exact dropped')) ?_ ?_).1⟩
  · intro e below
    rw [row.within.cfg] at below
    have most := row.rc e below
    have enough := covers e
    have none := idle e below
    omega
  · intro e below
    rw [row'.within.cfg] at below
    have small : e < c.cfg.nExpert := by
      rw [alike.experts] at below
      exact below
    have most := row'.rc e below
    have enough := covers' e
    have none := idle e small
    rw [← grants, alike.rc small] at most
    omega

end Row

end ExpertCache

end MoeStream
