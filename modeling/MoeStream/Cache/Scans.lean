import MoeStream.Cache.WorkingSet

/-!
# Scans

A layer that is asked for more experts than its quota keeps those in MAIN, and
the pinned ones, as long as the others come once and a row leaves them room: the
scan passes through SMALL, whose idle front is what makes room.
-/

set_option autoImplicit false

namespace MoeStream

open Foundation.RotatingScan

namespace ExpertCache

variable {c c' c₀ : ExpertCache} {l e : Nat} {ahead us vs : List Nat}

/-- In MAIN or pinned. -/
def Settles (c : ExpertCache) (l e : Nat) : Prop :=
  (c.entry l e).seg = .main ∨ (c.entry l e).seg = .pinned

/-- Not in the cache. -/
def scanned (c : ExpertCache) (l e : Nat) : Bool := decide ((c.entry l e).seg = .none)

/-! ## The invariant -/

/-- A scan of layer `l` that began in `c₀`: `ahead` is still to come, and what is
in use in SMALL is listed in `us`. -/
structure Keeping (c₀ : ExpertCache) (l : Nat) (ahead us : List Nat) (c : ExpertCache) :
    Prop where
  cfg : c.cfg = c₀.cfg
  main : (c.lay l).main = (c₀.lay l).main
  pinned : (c.lay l).pinned = (c₀.lay l).pinned
  kept : ∀ e, e < c.cfg.nExpert → Settles c₀ l e → (c.entry l e).seg = (c₀.entry l e).seg
  inside : ∀ e ∈ ahead, e < c.cfg.nExpert
  fresh : ∀ e ∈ ahead, (c.entry l e).seg = .none ∧ e ∉ (c.lay l).ghost
  used : ∀ e ∈ (c.lay l).small, (c.entry l e).rc ≠ 0 → e ∈ us

theorem Keeping.settles (keeping : Keeping c₀ l ahead us c) (inside : e < c.cfg.nExpert)
    (settles : Settles c₀ l e) : Settles c l e := by
  simp only [Settles]
  rw [keeping.kept e inside settles]
  exact settles

theorem Keeping.unsettled (keeping : Keeping c₀ l ahead us c) (inside : e < c.cfg.nExpert)
    (absent : (c.entry l e).seg = .none) : ¬Settles c₀ l e := by
  intro settles
  have still := keeping.settles inside settles
  simp only [Settles] at still
  rw [absent] at still
  rcases still with main | pinned
  · cases main
  · cases pinned

theorem Keeping.later (keeping : Keeping c₀ l (e :: ahead) us c) : Keeping c₀ l ahead us c :=
  { keeping with
    inside := fun e' member => keeping.inside e' (List.mem_cons_of_mem e member)
    fresh := fun e' member => keeping.fresh e' (List.mem_cons_of_mem e member) }

theorem Keeping.same (keeping : Keeping c₀ l ahead us c) (cfg : c'.cfg = c.cfg)
    (lay : c'.lay l = c.lay l)
    (seg : ∀ e, e < c.cfg.nExpert → (c'.entry l e).seg = (c.entry l e).seg)
    (used : ∀ e ∈ (c.lay l).small, (c'.entry l e).rc ≠ 0 → e ∈ vs) :
    Keeping c₀ l ahead vs c' where
  cfg := cfg.trans keeping.cfg
  main := by rw [lay]; exact keeping.main
  pinned := by rw [lay]; exact keeping.pinned
  kept := by
    rw [cfg]
    exact fun e inside settles => (seg e inside).trans (keeping.kept e inside settles)
  inside := by rw [cfg]; exact keeping.inside
  fresh := by
    rw [lay]
    intro e member
    rw [seg e (keeping.inside e member)]
    exact keeping.fresh e member
  used := by rw [lay]; exact used

theorem Keeping.replaced (keeping : Keeping c₀ l ahead us c) (past : e ∉ ahead) {en : Entry}
    {ls : LayerState} {free : List Nat} {st : CacheStats}
    (main : ls.main = (c.lay l).main) (pinned : ls.pinned = (c.lay l).pinned)
    (ghost : ls.ghost = (c.lay l).ghost)
    (small : ∀ e' ∈ ls.small, e' ∈ (c.lay l).small ∧ e' ≠ e ∨ e' = e ∧ e ∈ vs)
    (grows : ∀ e' ∈ us, e' ∈ vs) (kept : Settles c₀ l e → en.seg = (c₀.entry l e).seg) :
    Keeping c₀ l ahead vs (c.replaced l e en ls free st) := by
  refine ⟨keeping.cfg, ?_, ?_, ?_, keeping.inside, ?_, ?_⟩
  · simpa [main] using keeping.main
  · simpa [pinned] using keeping.pinned
  · intro e' inside settles
    by_cases own : e' = e
    · subst own
      simpa using kept settles
    · simpa [own] using keeping.kept e' inside settles
  · rw [replaced_lay_self, ghost]
    intro e' member
    have other : e' ≠ e := fun same => past (by rw [← same]; exact member)
    rw [replaced_entry_of_ne other]
    exact keeping.fresh e' member
  · rw [replaced_lay_self]
    intro e' listed inUse
    rcases small e' listed with ⟨before, other⟩ | ⟨rfl, member⟩
    · rw [replaced_entry_of_ne other] at inUse
      exact grows e' (keeping.used e' before inUse)
    · exact member

theorem Keeping.evicted (keeping : Keeping c₀ l ahead us c) {v : Nat} {small : List Nat}
    (queued : (c.entry l v).seg = .small) (fewer : ∀ e ∈ small, e ∈ (c.lay l).small) :
    Keeping c₀ l ahead us (c.evicted l v small (c.lay l).main c.ent) := by
  have lay : (c.evicted l v small (c.lay l).main c.ent).lay l = _ := Function.update_self _ _ _
  have entry : ∀ e, e ≠ v →
      (c.evicted l v small (c.lay l).main c.ent).entry l e = c.entry l e :=
    fun e other => Function.update_of_ne (fun same => other (c.idx_inj_left same)) _ _
  refine ⟨keeping.cfg, ?_, ?_, ?_, keeping.inside, ?_, ?_⟩
  · rw [lay]
    exact keeping.main
  · rw [lay]
    exact keeping.pinned
  · intro e inside settles
    rw [entry e]
    · exact keeping.kept e inside settles
    · rintro rfl
      have still := keeping.settles inside settles
      simp [Settles, queued] at still
  · rw [lay]
    intro e member
    obtain ⟨absent, unlisted⟩ := keeping.fresh e member
    have other : e ≠ v := by
      rintro rfl
      rw [absent] at queued
      cases queued
    rw [entry e other]
    refine ⟨absent, fun listed => ?_⟩
    rcases List.mem_append.mp (List.mem_of_mem_drop listed) with before | now
    · exact unlisted before
    · exact other (List.mem_singleton.mp now)
  · rw [lay]
    intro e listed inUse
    apply keeping.used e (fewer e listed)
    by_cases own : e = v
    · subst own
      have same : (c.evicted l e small (c.lay l).main c.ent).entry l e =
          evictedEntry (c.entry l e) := Function.update_self _ _ _
      rw [same] at inUse
      exact inUse
    · rwa [entry e own] at inUse

/-! ## Requests -/

theorem Keeping.hit (keeping : Keeping c₀ l ahead us c) (ok : c.Ok) (layer : l < c.cfg.nLayer)
    (inside : e < c.cfg.nExpert) (settles : Settles c₀ l e) (origin : Origin) :
    outcome (c.acquire l e origin) = .hit ∧ Keeping c₀ l ahead us (c.acquire l e origin).1 := by
  have still := keeping.settles inside settles
  have table := ok.table _ (c.idx_lt_total layer inside)
  have present : (c.entry l e).seg ≠ .none := fun absent => keeping.unsettled inside absent settles
  have past : e ∉ ahead := fun member => present (keeping.fresh e member).1
  have unqueued : ∀ e' ∈ (c.lay l).small, e' ≠ e := by
    rintro e' listed rfl
    have queued := (((ok.layers l layer).memSmall e').mp listed).2
    have seg : (c.entry l e').seg = .small := queued
    simp [Settles, seg] at still
  have after : ∀ st, Keeping c₀ l ahead us
      (c.replaced l e (hitEntry (c.entry l e) c.step) (c.lay l) c.free st) := fun st =>
    keeping.replaced past rfl rfl rfl (fun e' listed => Or.inl ⟨listed, unqueued e' listed⟩)
      (fun e' member => member) (keeping.kept e inside)
  have result := acquire_eq c l e origin
  rw [if_pos present] at result
  rw [result]
  rcases still with main | pinned
  · rw [acquireHit_main table main]
    exact ⟨rfl, after _⟩
  · rw [acquireHit_pinned table pinned]
    exact ⟨rfl, after _⟩

/-- Asking for an absent expert that is no ghost changes no queue yet. -/
theorem Keeping.missed (keeping : Keeping c₀ l ahead us c) (ok : c.Ok) (layer : l < c.cfg.nLayer)
    (inside : e < c.cfg.nExpert) (absent : (c.entry l e).seg = .none)
    (unlisted : e ∉ (c.lay l).ghost) (past : e ∉ ahead) :
    (c.missed l e).lay l = c.lay l ∧ Keeping c₀ l ahead us (c.missed l e) := by
  have plain : ghostTaken (c.lay l) e = c.lay l := if_neg unlisted
  have unqueued : ∀ e' ∈ (c.lay l).small, e' ≠ e := by
    rintro e' listed rfl
    have queued := (((ok.layers l layer).memSmall e').mp listed).2
    have seg : (c.entry l e').seg = .small := queued
    rw [absent] at seg
    cases seg
  simp only [ExpertCache.missed]
  rw [plain]
  exact ⟨replaced_lay_self, keeping.replaced past rfl rfl rfl
    (fun e' listed => Or.inl ⟨listed, unqueued e' listed⟩) (fun e' member => member)
    (keeping.kept e inside)⟩

/-- With fewer in use than SMALL holds, SMALL has an idle expert and gives up the
first. -/
theorem Keeping.evictOne (keeping : Keeping c₀ l ahead us c) (ok : c.Ok)
    (layer : l < c.cfg.nLayer) (few : us.length < (c.lay l).small.length) :
    ∃ v small, c.evictOne l = (c.evicted l v small (c.lay l).main c.ent, true) ∧
      Keeping c₀ l ahead us (c.evicted l v small (c.lay l).main c.ent) := by
  have layerOk := ok.layers l layer
  rcases first_or_none (fun e => (c.entry l e).rc = 0) (c.lay l).small with
    inUse | ⟨before, v, after, split, used, idle⟩
  · have all : (c.lay l).small ⊆ us :=
      fun e listed => keeping.used e listed (inUse e listed)
    have most := (List.subperm_of_subset layerOk.smallNodup all).length_le
    omega
  · have listed : ∀ e ∈ before ++ v :: after, e ∈ (c.lay l).small := by
      rw [split]
      exact fun e member => member
    have queued : (c.entry l v).seg = .small :=
      ((layerOk.memSmall v).mp (listed v (List.mem_append_right _ List.mem_cons_self))).2
    refine ⟨v, after ++ before, (ok.evicting layer).small before v after split used idle,
      keeping.evicted queued fun e member => listed e ?_⟩
    rcases List.mem_append.mp member with late | early
    · exact List.mem_append_right _ (List.mem_cons_of_mem v late)
    · exact List.mem_append_left _ early

theorem Keeping.allocSlot (keeping : Keeping c₀ l ahead us c) (apportioned : c.Apportioned)
    (layer : l < c.cfg.nLayer)
    (room : us.length + (c.lay l).main.length + (c.lay l).pinned < c.quota l) :
    ∃ d s rest, Keeping c₀ l ahead us d ∧ s ≠ NO_SLOT ∧
      c.allocSlot l = ({ d with free := rest }, s) := by
  have ok := apportioned.ok
  by_cases full : c.quota l ≤ (c.lay l).resident
  · have counted := (ok.layers l layer).residentEq
    obtain ⟨v, small, result, kept⟩ := keeping.evictOne ok layer (by omega)
    refine ⟨_, (c.entry l v).slot, c.free, kept, (ok.victim_named layer result).1, ?_⟩
    simp only [ExpertCache.allocSlot, full, if_true, result]
    rfl
  · obtain ⟨s, rest, available⟩ := apportioned.free_below layer (Nat.lt_of_not_le full)
    refine ⟨c, s, rest, keeping, apportioned.free_named (by rw [available]; exact
      List.mem_cons_self), ?_⟩
    simp only [ExpertCache.allocSlot, full, if_false, allocFree, available]

theorem Keeping.admit (keeping : Keeping c₀ l (e :: ahead) us c) (apportioned : c.Apportioned)
    (layer : l < c.cfg.nLayer) (inside : e < c.cfg.nExpert) (past : e ∉ ahead)
    (room : us.length + (c.lay l).main.length + (c.lay l).pinned < c.quota l) :
    outcome (c.acquire l e .demand) = .admitted ∧
      Keeping c₀ l ahead (e :: us) (c.acquire l e .demand).1 := by
  obtain ⟨absent, unlisted⟩ := keeping.fresh e List.mem_cons_self
  have ok := apportioned.ok
  obtain ⟨lay, missed⟩ := keeping.later.missed ok layer inside absent unlisted past
  obtain ⟨d, s, rest, kept, named, allots⟩ :=
    missed.allocSlot (apportioned.missed layer inside) layer (by rw [lay]; exact room)
  have result := acquire_eq c l e .demand
  rw [if_neg (not_not.mpr absent), acquireMiss_eq .demand
    (ok.table _ (c.idx_lt_total layer inside)), if_neg nofun, allots, if_neg named,
    decide_eq_false unlisted] at result
  have back : (d.lay l).enqueue e .demand false =
      ({ d.lay l with small := (d.lay l).small ++ [e] }, .small) := rfl
  rw [result]
  refine ⟨?_, ?_⟩
  · simp only [outcome, named, Bool.false_eq_true, if_false]
  · dsimp only
    rw [admitTo_eq, back]
    refine kept.replaced past rfl rfl rfl ?_ (fun e' member => List.mem_cons_of_mem e member)
      fun settles => absurd settles (keeping.unsettled inside absent)
    intro e' listed
    by_cases own : e' = e
    · exact Or.inr ⟨own, List.mem_cons_self⟩
    · refine Or.inl ⟨?_, own⟩
      exact (List.mem_append.mp listed).resolve_right fun now => own (List.mem_singleton.mp now)

/-! ## Rows -/

theorem Keeping.marked (keeping : Keeping c₀ l ahead us c) (e nbytes : Nat) :
    Keeping c₀ l ahead us (c.markResident l e nbytes) := by
  simp only [ExpertCache.markResident]
  split
  · exact keeping
  · have read : ∀ e', ((c.setEntry l e { c.entry l e with resident := true }).entry l e').seg =
          (c.entry l e').seg ∧
        ((c.setEntry l e { c.entry l e with resident := true }).entry l e').rc =
          (c.entry l e').rc := by
      intro e'
      by_cases own : e' = e <;> simp [own]
    refine keeping.same rfl rfl (fun e' _ => (read e').1) fun e' listed inUse => ?_
    have same := (read e').2
    exact keeping.used e' listed (by rw [← same]; exact inUse)

theorem Keeping.requested (keeping : Keeping c₀ l ahead us (c.acquire l e .demand).1)
    (nbytes : Nat) : Keeping c₀ l ahead us (c.request l nbytes e) := by
  simp only [ExpertCache.request]
  split
  · exact keeping.marked e nbytes
  · exact keeping

/-- What a row is answered, as the cache was when the scan began. -/
def foretold (c₀ : ExpertCache) (l e : Nat) : Outcome :=
  if c₀.scanned l e then .admitted else .hit

theorem Keeping.row (nbytes : Nat) (es : List Nat)
    (keeping : Keeping c₀ l (es.filter (c₀.scanned l) ++ ahead) us c)
    (apportioned : c.Apportioned) (layer : l < c.cfg.nLayer)
    (inside : ∀ e ∈ es, e < c.cfg.nExpert)
    (known : ∀ e ∈ es, Settles c₀ l e ∨ c₀.scanned l e = true)
    (once : (es.filter (c₀.scanned l) ++ ahead).Nodup)
    (room : us.length + (es.filter (c₀.scanned l)).length + (c₀.lay l).main.length +
      (c₀.lay l).pinned ≤ c.quota l) :
    answered l nbytes c es = es.map (c₀.foretold l) ∧
      ∃ vs, Keeping c₀ l ahead vs (c.requests l nbytes es) := by
  induction es generalizing c us with
  | nil => exact ⟨rfl, us, keeping⟩
  | cons e rest ih =>
      have here := inside e List.mem_cons_self
      obtain ⟨within, kept⟩ := apportioned.request layer here nbytes
      have later : ∀ {vs : List Nat}, c₀.foretold l e = outcome (c.acquire l e .demand) →
          Keeping c₀ l (rest.filter (c₀.scanned l) ++ ahead) vs (c.acquire l e .demand).1 →
          (rest.filter (c₀.scanned l) ++ ahead).Nodup →
          vs.length + (rest.filter (c₀.scanned l)).length + (c₀.lay l).main.length +
            (c₀.lay l).pinned ≤ c.quota l →
          answered l nbytes c (e :: rest) = (e :: rest).map (c₀.foretold l) ∧
            ∃ ws, Keeping c₀ l ahead ws (c.requests l nbytes (e :: rest)) := by
        intro vs told after once room
        obtain ⟨answers, last⟩ := ih (after.requested nbytes) kept (by rw [within.cfg]; exact layer)
          (by
            rw [within.cfg]
            exact fun e' member => inside e' (List.mem_cons_of_mem e member))
          (fun e' member => known e' (List.mem_cons_of_mem e member)) once
          (by rw [within.quota]; exact room)
        refine ⟨?_, last⟩
        rw [answered, answers, List.map_cons, told]
      cases cold : c₀.scanned l e with
      | true =>
          rw [List.filter_cons_of_pos cold, List.cons_append] at keeping once
          rw [List.filter_cons_of_pos cold, List.length_cons] at room
          obtain ⟨past, once⟩ := List.nodup_cons.mp once
          obtain ⟨admitted, after⟩ := keeping.admit apportioned layer here past (by
            rw [keeping.main, keeping.pinned]
            omega)
          refine later ?_ after once ?_
          · rw [admitted]
            exact if_pos cold
          · rw [List.length_cons]
            omega
      | false =>
          have plain : ¬c₀.scanned l e = true := by
            rw [cold]
            exact Bool.false_ne_true
          rw [List.filter_cons_of_neg plain] at keeping once room
          obtain ⟨hit, after⟩ := keeping.hit apportioned.ok layer here
            ((known e List.mem_cons_self).resolve_right plain) .demand
          refine later ?_ after once room
          rw [hit]
          exact if_neg plain

/-! ## Scans -/

def serveRow (eb : Nat → Nat) (c : ExpertCache) (row : Nat × List Nat) : ExpertCache :=
  (c.requests row.1 (eb row.1) row.2).releases row.1 row.2

def serve (eb : Nat → Nat) (c : ExpertCache) (rows : List (Nat × List Nat)) : ExpertCache :=
  rows.foldl (serveRow eb) c

/-- What layer `l` is asked for. -/
def asks (l : Nat) (rows : List (Nat × List Nat)) : List Nat :=
  rows.flatMap fun row => if row.1 = l then row.2 else []

/-- What layer `l` answers. -/
def replies (eb : Nat → Nat) (l : Nat) (c : ExpertCache) : List (Nat × List Nat) → List Outcome
  | [] => []
  | row :: rest =>
      (if row.1 = l then answered l (eb l) c row.2 else []) ++ replies eb l (serveRow eb c row) rest

theorem Keeping.served (nbytes : Nat) {es : List Nat}
    (keeping : Keeping c₀ l (es.filter (c₀.scanned l) ++ ahead) [] c)
    (apportioned : c.Apportioned) (layer : l < c.cfg.nLayer) (idle : c.Idle l)
    (inside : ∀ e ∈ es, e < c.cfg.nExpert)
    (known : ∀ e ∈ es, Settles c₀ l e ∨ c₀.scanned l e = true)
    (once : (es.filter (c₀.scanned l) ++ ahead).Nodup)
    (room : (es.filter (c₀.scanned l)).length + (c₀.lay l).main.length + (c₀.lay l).pinned ≤
      c.quota l) :
    answered l nbytes c es = es.map (c₀.foretold l) ∧
      Settled c l nbytes es ((c.requests l nbytes es).releases l es) ∧
      Keeping c₀ l ahead [] ((c.requests l nbytes es).releases l es) := by
  obtain ⟨answers, vs, after⟩ := keeping.row nbytes es apportioned layer inside known
    once (by rw [List.length_nil, Nat.zero_add]; exact room)
  have settled := apportioned.settled layer idle nbytes inside inside
    fun e => (granted_sublist l nbytes c es).count_le e
  refine ⟨answers, settled, ?_⟩
  have row := apportioned.requests layer nbytes es inside
  have dropped := releases_dropped (l := l) (c := c.requests l nbytes es) es (by
    rw [row.within.cfg]
    exact inside)
  apply after.same dropped.within.cfg dropped.lay
  · intro e _
    rw [dropped.entries e]
  · intro e listed inUse
    have queued := ((row.apportioned.ok.layers l (by rw [row.within.cfg]; exact layer)).memSmall
      e).mp listed
    exact absurd (settled.idle e (by rw [dropped.within.cfg]; exact queued.1)) inUse

theorem Keeping.other (keeping : Keeping c₀ l ahead us c) (apportioned : c.Apportioned) {k : Nat}
    (other : l ≠ k) (layer : k < c.cfg.nLayer) (mine : l < c.cfg.nLayer) (nbytes : Nat)
    {es : List Nat} (inside : ∀ e ∈ es, e < c.cfg.nExpert) :
    let c' := (c.requests k nbytes es).releases k es
    Within c k c' ∧ c'.Apportioned ∧ Keeping c₀ l ahead us c' := by
  intro c'
  have row := apportioned.requests layer nbytes es inside
  have inside' : ∀ e ∈ es, e < (c.requests k nbytes es).cfg.nExpert := by
    rw [row.within.cfg]
    exact inside
  have dropped := releases_dropped (l := k) es inside'
  have within : Within c k c' := row.within.trans dropped.within
  refine ⟨within, row.apportioned.releases (by rw [row.within.cfg]; exact layer) es inside',
    keeping.same within.cfg (within.lay l other) ?_ ?_⟩
  · intro e small
    rw [within.entries l e other small]
  · intro e listed inUse
    have queued := ((apportioned.ok.layers l mine).memSmall e).mp listed
    rw [within.entries l e other queued.1] at inUse
    exact keeping.used e listed inUse

theorem Keeping.serve (eb : Nat → Nat) (rows : List (Nat × List Nat))
    (keeping : Keeping c₀ l ((asks l rows).filter (c₀.scanned l)) [] c)
    (apportioned : c.Apportioned) (layer : l < c.cfg.nLayer) (idle : c.Idle l)
    (inRange : ∀ row ∈ rows, row.1 < c.cfg.nLayer ∧ ∀ e ∈ row.2, e < c.cfg.nExpert)
    (known : ∀ e ∈ asks l rows, Settles c₀ l e ∨ c₀.scanned l e = true)
    (once : ((asks l rows).filter (c₀.scanned l)).Nodup)
    (fits : ∀ row ∈ rows, row.1 = l →
      (row.2.filter (c₀.scanned l)).length + (c₀.lay l).main.length + (c₀.lay l).pinned ≤
        c.quota l) :
    replies eb l c rows = (asks l rows).map (c₀.foretold l) ∧
      Keeping c₀ l [] [] (c.serve eb rows) := by
  induction rows generalizing c with
  | nil => exact ⟨rfl, keeping⟩
  | cons row rest ih =>
      obtain ⟨k, es⟩ := row
      obtain ⟨here, inside⟩ := inRange (k, es) List.mem_cons_self
      have room := fits (k, es) List.mem_cons_self
      dsimp only at here inside room
      have tail : ∀ row ∈ rest, row ∈ (k, es) :: rest :=
        fun row member => List.mem_cons_of_mem (k, es) member
      have split : asks l ((k, es) :: rest) = (if k = l then es else []) ++ asks l rest :=
        List.flatMap_cons
      rw [split] at keeping known once ⊢
      by_cases own : k = l
      · subst own
        rw [if_pos rfl] at keeping known once ⊢
        rw [List.filter_append] at keeping once
        obtain ⟨answers, settled, after⟩ := keeping.served (eb k) apportioned layer idle
          inside (fun e member => known e (List.mem_append_left _ member)) once (room rfl)
        obtain ⟨others, last⟩ := ih after settled.apportioned
          (by rw [settled.within.cfg]; exact layer) settled.idle
          (by
            rw [settled.within.cfg]
            exact fun row member => inRange row (tail row member))
          (fun e member => known e (List.mem_append_right _ member))
          (List.nodup_append.mp once).2.1
          (by
            rw [settled.within.quota]
            exact fun row member => fits row (tail row member))
        refine ⟨?_, last⟩
        rw [replies, if_pos rfl, answers, List.map_append]
        exact congrArg (_ ++ ·) others
      · rw [if_neg own, List.nil_append] at keeping known once ⊢
        obtain ⟨within, kept, after⟩ := keeping.other apportioned (Ne.symm own) here layer (eb k)
          inside
        have still : ((c.requests k (eb k) es).releases k es).Idle l := by
          intro e small
          rw [within.cfg] at small
          rw [within.entries l e (Ne.symm own) small]
          exact idle e small
        obtain ⟨others, last⟩ := ih after kept (by rw [within.cfg]; exact layer) still
          (by
            rw [within.cfg]
            exact fun row member => inRange row (tail row member)) known once
          (by
            rw [within.quota]
            exact fun row member => fits row (tail row member))
        refine ⟨?_, last⟩
        rw [replies, if_neg own, List.nil_append]
        exact others

/-- A scan spares MAIN: experts that are asked for once, in rows that leave room
for them, are admitted one and all, and those of MAIN and the pinned ones go on
hitting. -/
theorem scan_spares (eb : Nat → Nat) (rows : List (Nat × List Nat)) (apportioned : c.Apportioned)
    (layer : l < c.cfg.nLayer) (idle : c.Idle l)
    (inRange : ∀ row ∈ rows, row.1 < c.cfg.nLayer ∧ ∀ e ∈ row.2, e < c.cfg.nExpert)
    (known : ∀ e ∈ asks l rows, Settles c l e ∨
      (c.entry l e).seg = .none ∧ e ∉ (c.lay l).ghost)
    (once : ((asks l rows).filter (c.scanned l)).Nodup)
    (fits : ∀ row ∈ rows, row.1 = l →
      (row.2.filter (c.scanned l)).length + (c.lay l).main.length + (c.lay l).pinned ≤
        c.quota l) :
    replies eb l c rows = (asks l rows).map (c.foretold l) ∧
      ((c.serve eb rows).lay l).main = (c.lay l).main ∧
      ∀ e, e < c.cfg.nExpert → Settles c l e →
        ((c.serve eb rows).entry l e).seg = (c.entry l e).seg := by
  have asked : ∀ e ∈ asks l rows, e < c.cfg.nExpert := by
    intro e member
    obtain ⟨row, listed, member⟩ := List.mem_flatMap.mp member
    split at member
    · exact (inRange row listed).2 e member
    · cases member
  have absent : ∀ e, c.scanned l e = true ↔ (c.entry l e).seg = .none := fun e =>
    decide_eq_true_iff
  have keeping : Keeping c l ((asks l rows).filter (c.scanned l)) [] c := by
    refine ⟨rfl, rfl, rfl, fun _ _ _ => rfl, ?_, ?_, ?_⟩
    · exact fun e member => asked e (List.mem_filter.mp member).1
    · intro e member
      obtain ⟨listed, cold⟩ := List.mem_filter.mp member
      rcases known e listed with settles | fresh
      · rcases settles with main | pinned
        · rw [(absent e).mp cold] at main
          cases main
        · rw [(absent e).mp cold] at pinned
          cases pinned
      · exact fresh
    · intro e listed inUse
      have queued := ((apportioned.ok.layers l layer).memSmall e).mp listed
      exact absurd (idle e queued.1) inUse
  obtain ⟨answers, last⟩ := keeping.serve eb rows apportioned layer idle inRange
    (fun e member => (known e member).imp_right fun fresh => (absent e).mpr fresh.1) once fits
  refine ⟨answers, last.main, fun e inside => ?_⟩
  exact last.kept e (by rw [last.cfg]; exact inside)

def oneLayer : Config := { nLayer := 1, nExpert := 4, nSlot := 2, layerQuotaAdapt := false }

def asksTwice : List Op :=
  [.acquire 0 0 .demand, .release 0 0, .acquire 0 0 .demand, .release 0 0]

theorem asksTwice_leaves :
    (((init oneLayer).run asksTwice).lay 0).main = [0] ∧
      (((init oneLayer).run asksTwice).lay 0).ghost = [] ∧
      (((init oneLayer).run asksTwice).lay 0).pinned = 0 ∧
      ((init oneLayer).run asksTwice).quota 0 = 2 ∧
      ∀ e, e < 4 → (((init oneLayer).run asksTwice).entry 0 e).rc = 0 ∧
        (((init oneLayer).run asksTwice).entry 0 e).seg = if e = 0 then .main else .none := by
  decide +kernel

/-- Expert 0, asked for twice before, survives three others in a layer of two slots. -/
theorem scan_spares_zero :
    replies (fun _ => 1) 0 ((init oneLayer).run asksTwice)
        [(0, [0, 1]), (0, [2, 0]), (0, [3, 0])] =
      [.hit, .admitted, .admitted, .hit, .admitted, .hit] := by
  have inRange : ∀ op ∈ asksTwice, op.InRange (init oneLayer).cfg := by
    simp [asksTwice, Op.InRange, init, oneLayer]
  have served := ((@Served.initial 0 oneLayer rfl (by decide) (by decide)).run asksTwice inRange
    (by simp [asksTwice])).2
  have cfg : ((init oneLayer).run asksTwice).cfg = oneLayer :=
    ((init_ok oneLayer).run asksTwice inRange).2.1
  have leaves := asksTwice_leaves
  revert served cfg leaves
  generalize (init oneLayer).run asksTwice = c
  rintro served cfg ⟨main, ghost, pinned, quota, entry⟩
  have cold : ∀ e, e < 4 → c.scanned 0 e = decide (e ≠ 0) := by
    intro e small
    rw [scanned, (entry e small).2]
    by_cases zero : e = 0 <;> simp [zero]
  have known : ∀ e, e < 4 → Settles c 0 e ∨ (c.entry 0 e).seg = .none ∧ e ∉ (c.lay 0).ghost := by
    intro e small
    rw [Settles, (entry e small).2, ghost]
    by_cases zero : e = 0 <;> simp [zero]
  have told : ∀ e, e < 4 → c.foretold 0 e = if e = 0 then .hit else .admitted := by
    intro e small
    rw [foretold, cold e small]
    by_cases zero : e = 0 <;> simp [zero]
  have asked : asks 0 [(0, [0, 1]), (0, [2, 0]), (0, [3, 0])] = [0, 1, 2, 0, 3, 0] := rfl
  have spares := scan_spares (fun _ => 1) [(0, [0, 1]), (0, [2, 0]), (0, [3, 0])]
    served.apportioned served.layer
    (fun e inside => (entry e (by rw [cfg] at inside; exact inside)).1) (by simp [cfg, oneLayer])
    (by simp [asked, known]) (by simp [asked, cold]) (by simp [cold, main, pinned, quota])
  rw [spares.1, asked]
  simp [told]

end ExpertCache

end MoeStream
