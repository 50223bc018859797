import MoeStream.Cache.Single

/-!
# Refusal in the configuration of the program

From every state a run of a one-layer cache reaches without pinning anything: a
request is refused exactly when no slot is free and every resident expert is in
use, and when nothing is in use requests for no more experts than there are
slots are all granted.
-/

set_option autoImplicit false

namespace MoeStream

namespace ExpertCache

variable {c : ExpertCache} {e : Nat}

/-! ## The quota of a static cache -/

theorem Ok.apply_quota (ok : c.Ok) (op : Op) (inRange : op.InRange c.cfg)
    (static : c.cfg.layerQuotaAdapt = false) : (c.apply op).quota = c.quota := by
  by_cases ends : op = .endStep
  · subst ends
    simp only [ExpertCache.apply, ExpertCache.endStep, static, Bool.false_eq_true, false_and,
      if_false]
  · exact ok.apply_quota_other op inRange ends

theorem Ok.run_quota (ok : c.Ok) (ops : List Op) (inRange : ∀ op ∈ ops, op.InRange c.cfg)
    (static : c.cfg.layerQuotaAdapt = false) : (c.run ops).quota = c.quota := by
  induction ops generalizing c with
  | nil => rfl
  | cons op rest ih =>
      have applied := ok.apply op (inRange op List.mem_cons_self)
      have later := ih applied.ok
        (fun next member => by
          rw [applied.cfg]
          exact inRange next (List.mem_cons_of_mem op member))
        (by rw [applied.cfg]; exact static)
      exact later.trans (ok.apply_quota op (inRange op List.mem_cons_self) static)

namespace Single

theorem of_unpinned_run {cfg : Config} (layers : cfg.nLayer = 1)
    (static : cfg.layerQuotaAdapt = false) (ops : List Op) (inRange : ∀ op ∈ ops, op.InRange cfg)
    (unpinned : (((init cfg).run ops).lay 0).pinned = 0) : ((init cfg).run ops).Single := by
  obtain ⟨ok, kept, nSlot, _⟩ := (init_ok cfg).run ops inRange
  have start := Single.initial layers
  have quota := (init_ok cfg).run_quota ops inRange static
  refine ⟨ok, ?_, ?_, unpinned⟩
  · rw [kept]
    exact layers
  · rw [quota, nSlot]
    exact start.quota

/-! ## Refusal -/

theorem seat_none_iff (single : c.Single) (inside : e < c.cfg.nExpert) :
    c.table.seat e = none ↔ (c.entry 0 e).seg = .none := by
  have bound := c.idx_lt_total single.layer inside
  rw [idx_zero] at bound
  rw [table_seat bound]
  simp only [seats, entry]
  rw [idx_zero]
  exact Entry.held_none

theorem refs_eq (single : c.Single) (inside : e < c.cfg.nExpert) :
    c.table.refs e = (c.entry 0 e).rc := by
  have bound := c.idx_lt_total single.layer inside
  rw [idx_zero] at bound
  rw [table_refs bound]
  simp only [rcs, entry]
  rw [idx_zero]

theorem inside_of_seat (single : c.Single) {i s : Nat} (seated : c.table.seat i = some s) :
    i < c.cfg.nExpert := (single.queued seated).1

theorem used_iff (single : c.Single) :
    (∀ i s, c.table.seat i = some s → 0 < c.table.refs i) ↔
      ∀ i, i < c.cfg.nExpert → (c.entry 0 i).seg ≠ .none → 0 < (c.entry 0 i).rc := by
  constructor
  · intro used i inside present
    obtain ⟨s, seated⟩ := Option.ne_none_iff_exists'.mp
      (fun absent => present ((single.seat_none_iff inside).mp absent))
    rw [← single.refs_eq inside]
    exact used i s seated
  · intro used i s seated
    have inside := single.inside_of_seat seated
    rw [single.refs_eq inside]
    apply used i inside
    intro absent
    rw [(single.seat_none_iff inside).mpr absent] at seated
    cases seated

theorem acquire_refused_iff (single : c.Single) (inside : e < c.cfg.nExpert) {origin : Origin}
    (admits : origin ≠ .sweep) (absent : (c.entry 0 e).seg = .none) :
    ((c.acquire 0 e origin).2.2 = NO_SLOT ↔ c.free = [] ∧
      ∀ i, i < c.cfg.nExpert → (c.entry 0 i).seg ≠ .none → 0 < (c.entry 0 i).rc) ∧
    ((c.acquire 0 e origin).2.2 ≠ NO_SLOT → (c.acquire 0 e origin).2.2 < c.nSlot) := by
  have seat := (single.seat_none_iff inside).mpr absent
  rw [single.refused_iff inside admits seat, single.used_iff]
  exact ⟨Iff.rfl, single.slot_lt inside⟩

/-! ## A sequence of requests -/

theorem acquire_refs (single : c.Single) (inside : e < c.cfg.nExpert) (origin : Origin) {i : Nat}
    (used : 0 < (c.acquire 0 e origin).1.table.refs i) : i = e ∨ 0 < c.table.refs i := by
  have taken := single.acquire_refs_le inside origin i
  by_cases own : i = e
  · exact Or.inl own
  · rw [if_neg own] at taken
    exact Or.inr (by omega)

def requests (rs : List (Nat × Origin)) : List Op := rs.map fun r => .acquire 0 r.1 r.2

theorem requests_granted (single : c.Single) {named : Finset Nat} (few : named.card ≤ c.nSlot)
    (inUse : ∀ i, 0 < c.table.refs i → i ∈ named) (rs : List (Nat × Origin))
    (members : ∀ r ∈ rs, r.1 ∈ named ∧ r.1 < c.cfg.nExpert ∧ r.2 ≠ .sweep) :
    ∀ before r after, rs = before ++ r :: after →
      (((c.run (requests before)).acquire 0 r.1 r.2).2.2 < c.nSlot) := by
  induction rs generalizing c with
  | nil =>
      intro before r after split
      cases before <;> cases split
  | cons first rest ih =>
      obtain ⟨listed, inside, admits⟩ := members first List.mem_cons_self
      intro before r after split
      cases before with
      | nil =>
          cases split
          exact single.slot_lt inside (single.not_refused few inUse listed inside admits)
      | cons head before =>
          obtain ⟨rfl, later⟩ := List.cons.inj split
          have requested := (single.ok.acquire single.layer inside first.2).1
          have granted := ih (single.acquire inside first.2)
            (by rw [requested.nSlot]; exact few)
            (by
              intro i used
              rcases single.acquire_refs inside first.2 used with rfl | before
              · exact listed
              · exact inUse i before)
            (by
              intro r member
              rw [requested.cfg]
              exact members r (List.mem_cons_of_mem first member))
            before r after later
          rw [requested.nSlot] at granted
          exact granted

end Single

/-- Refusal is exact in every reachable state, and from a state in which nothing
is in use requests for at most as many experts as there are slots are granted. -/
theorem refusal_exact {cfg : Config} (layers : cfg.nLayer = 1)
    (static : cfg.layerQuotaAdapt = false) (ops : List Op) (inRange : ∀ op ∈ ops, op.InRange cfg)
    (unpinned : (((init cfg).run ops).lay 0).pinned = 0) :
    let c := (init cfg).run ops
    (∀ e, e < cfg.nExpert → (c.entry 0 e).seg = .none →
      ((c.acquire 0 e .demand).2.2 = NO_SLOT ↔ c.free = [] ∧
        ∀ i, i < cfg.nExpert → (c.entry 0 i).seg ≠ .none → 0 < (c.entry 0 i).rc) ∧
      ((c.acquire 0 e .demand).2.2 ≠ NO_SLOT → (c.acquire 0 e .demand).2.2 < c.nSlot)) ∧
    ((∀ i, i < cfg.nExpert → (c.entry 0 i).rc = 0) → ∀ rs : List (Nat × Origin),
      (∀ r ∈ rs, r.1 < cfg.nExpert ∧ r.2 ≠ .sweep) → (rs.map Prod.fst).toFinset.card ≤ c.nSlot →
      ∀ before r after, rs = before ++ r :: after →
        ((c.run (Single.requests before)).acquire 0 r.1 r.2).2.2 < c.nSlot) := by
  intro c
  have single : c.Single := Single.of_unpinned_run layers static ops inRange unpinned
  have kept : c.cfg = cfg := ((init_ok cfg).run ops inRange).2.1
  rw [← kept]
  refine ⟨fun e inside absent => single.acquire_refused_iff inside nofun absent, ?_⟩
  intro idle rs members few
  apply single.requests_granted few
  · intro i used
    have bound : i < c.total := by
      by_contra beyond
      have none : c.table.refs i = 0 := if_neg beyond
      omega
    rw [single.total_eq] at bound
    rw [single.refs_eq bound, idle i bound] at used
    exact absurd used (Nat.lt_irrefl 0)
  · intro r member
    exact ⟨List.mem_toFinset.mpr (List.mem_map_of_mem member), members r member⟩

def pairConfig : Config := { nLayer := 1, nExpert := 3, nSlot := 2, layerQuotaAdapt := false }

/-- Two slots, two experts in use: a third is refused. -/
theorem refusal_exact_two :
    (((init pairConfig).run [.acquire 0 0 .demand, .acquire 0 1 .demand]).acquire 0 2
      .demand).2.2 = NO_SLOT := by
  have inRange : ∀ op ∈ [Op.acquire 0 0 .demand, Op.acquire 0 1 .demand],
      op.InRange pairConfig := by
    intro op member
    simp only [List.mem_cons, List.not_mem_nil, or_false] at member
    rcases member with rfl | rfl <;> exact ⟨by decide, by decide⟩
  have exact := (refusal_exact rfl rfl _ inRange rfl).1 2 (by decide) rfl
  exact exact.1.mpr ⟨rfl, by decide⟩

end ExpertCache

end MoeStream
