import MoeStream.Cache.Refusal

/-!
# References that are outstanding

A caller takes a reference with a request that yields a slot and gives it back
with a release.  `Loans` counts what is outstanding from the calls alone.  As
long as no count outgrows the 16 bits of `rc`, the two agree, and nothing that is
outstanding is evicted.
-/

set_option autoImplicit false

namespace MoeStream

open Foundation.FixedWidth

namespace ExpertCache

/-- The references outstanding by dense id, and the slot the first of them got. -/
structure Loans where
  count : Nat → Nat := fun _ => 0
  slot : Nat → Nat := fun _ => NO_SLOT

/-- What is outstanding after an operation on `c`. -/
def Loans.after (c : ExpertCache) (loans : Loans) : Op → Loans
  | .acquire l e origin =>
      let s := (c.acquire l e origin).2.2
      if s = NO_SLOT then loans
      else
        { count := Function.update loans.count (c.idx l e) (loans.count (c.idx l e) + 1)
          slot := if loans.count (c.idx l e) = 0 then Function.update loans.slot (c.idx l e) s
            else loans.slot }
  | .release l e =>
      { loans with count := Function.update loans.count (c.idx l e) (loans.count (c.idx l e) - 1) }
  | _ => loans

def lend (c : ExpertCache) (loans : Loans) : List Op → Loans
  | [] => loans
  | op :: rest => lend (c.apply op) (loans.after c op) rest

/-- Each release of the run gives back a reference that is outstanding. -/
def Matched (c : ExpertCache) (loans : Loans) : List Op → Prop
  | [] => True
  | op :: rest =>
      (∀ l e, op = .release l e → 0 < loans.count (c.idx l e)) ∧
        Matched (c.apply op) (loans.after c op) rest

/-- No request of the run is for an expert with 65535 references outstanding. -/
def Narrow (c : ExpertCache) (loans : Loans) : List Op → Prop
  | [] => True
  | op :: rest =>
      (∀ l e origin, op = .acquire l e origin → loans.count (c.idx l e) + 1 < 2 ^ 16) ∧
        Narrow (c.apply op) (loans.after c op) rest

/-- Every expert with a reference outstanding has the slot it was given, and no
other expert has it. -/
def Kept (c : ExpertCache) (loans : Loans) : Prop :=
  ∀ l e, l < c.cfg.nLayer → e < c.cfg.nExpert → 0 < loans.count (c.idx l e) →
    (c.entry l e).slot = loans.slot (c.idx l e) ∧ loans.slot (c.idx l e) < c.nSlot ∧
      ∀ l' e', l' < c.cfg.nLayer → e' < c.cfg.nExpert →
        (c.entry l' e').slot = loans.slot (c.idx l e) → l' = l ∧ e' = e

/-! ## The invariant -/

/-- The counts agree, and what is outstanding is seated where it was. -/
structure Lending (c : ExpertCache) (loans : Loans) : Prop where
  ok : c.Ok
  counted : ∀ i, i < c.total → c.rcs i = loans.count i
  seated : ∀ i, i < c.total → 0 < loans.count i → c.seats i = some (loans.slot i)

variable {c : ExpertCache} {l e : Nat} {loans : Loans}

theorem Lending.kept (lending : Lending c loans) : Kept c loans := by
  intro l e layer inside outstanding
  have bound := c.idx_lt_total layer inside
  have seat := lending.seated _ bound outstanding
  have own := Entry.held_some.mp seat
  refine ⟨own.2, lending.ok.seat_lt bound seat, ?_⟩
  intro l' e' layer' inside' same
  have bound' := c.idx_lt_total layer' inside'
  have present : (c.entry l' e').seg ≠ .none := by
    intro absent
    rw [(lending.ok.entry layer' inside').absent.mp absent] at same
    exact lending.ok.seat_ne bound seat same.symm
  have seat' : c.seats (c.idx l' e') = some (loans.slot (c.idx l e)) :=
    Entry.held_some.mpr ⟨present, same⟩
  exact c.idx_inj inside' inside
    (lending.ok.split.holder_unique List.nodup_range bound' bound seat' seat)

theorem Lending.keep {c' : ExpertCache} (lending : Lending c loans) (ok : c'.Ok)
    (cfg : c'.cfg = c.cfg) (rcs : c'.rcs = c.rcs)
    (seats : ∀ i s, c.seats i = some s → c'.seats i = some s) : Lending c' loans := by
  have total : c'.total = c.total := by
    simp only [total]
    rw [cfg]
  refine ⟨ok, ?_, ?_⟩
  · rw [total, rcs]
    exact lending.counted
  · rw [total]
    exact fun i bound outstanding => seats i _ (lending.seated i bound outstanding)

theorem Lending.counted_update (lending : Lending c loans) (j n : Nat) {i : Nat}
    (inTotal : i < c.total) : Function.update c.rcs j n i = Function.update loans.count j n i := by
  by_cases own : i = j
  · subst own
    rw [Function.update_self, Function.update_self]
  · rw [Function.update_of_ne own, Function.update_of_ne own]
    exact lending.counted i inTotal

/-- A seat is given to an expert with nothing outstanding, and those of the others
with something outstanding stay. -/
theorem Lending.lent {c' : ExpertCache} (lending : Lending c loans) (ok : c'.Ok)
    (cfg : c'.cfg = c.cfg) {j s : Nat} (rcs : c'.rcs = Function.update c.rcs j 1)
    (given : c'.seats j = some s)
    (others : ∀ i, i ≠ j → 0 < loans.count i → c'.seats i = c.seats i) :
    Lending c' ⟨Function.update loans.count j 1, Function.update loans.slot j s⟩ := by
  have total : c'.total = c.total := by
    simp only [total]
    rw [cfg]
  refine ⟨ok, ?_, ?_⟩ <;> rw [total]
  · intro i inTotal
    rw [rcs]
    exact lending.counted_update j 1 inTotal
  · intro i inTotal outstanding
    by_cases own : i = j
    · subst own
      dsimp only
      rw [given, Function.update_self]
    · simp only [Function.update_of_ne own] at outstanding ⊢
      rw [others i own outstanding]
      exact lending.seated i inTotal outstanding

theorem Lending.acquire (lending : Lending c loans) (layer : l < c.cfg.nLayer)
    (inside : e < c.cfg.nExpert) (origin : Origin)
    (narrow : loans.count (c.idx l e) + 1 < 2 ^ 16) :
    Lending (c.acquire l e origin).1 (loans.after c (.acquire l e origin)) := by
  have bound := c.idx_lt_total layer inside
  obtain ⟨requested, acquired⟩ := lending.ok.acquire layer inside origin
  have counted := lending.counted _ bound
  have unlent : c.seats (c.idx l e) = none → loans.count (c.idx l e) = 0 := by
    intro absent
    by_contra lent
    have held := lending.seated _ bound (Nat.pos_of_ne_zero lent)
    cases absent.symm.trans held
  simp only [Loans.after]
  revert requested acquired
  generalize c.acquire l e origin = result
  intro requested acquired
  cases acquired with
  | @hit c' s seat seats rcs free =>
      have named := lending.ok.seat_ne bound seat
      have total : c'.total = c.total := by
        simp only [total]
        rw [requested.cfg]
      simp only [named, if_false]
      refine ⟨requested.ok, ?_, ?_⟩ <;> simp only [total, seats, rcs]
      · intro i inTotal
        rw [counted, u16_eq narrow]
        exact lending.counted_update _ _ inTotal
      · intro i inTotal outstanding
        by_cases own : i = c.idx l e
        · subst own
          split
          · rw [Function.update_self]
            exact seat
          · rename_i lent
            exact lending.seated _ bound (Nat.pos_of_ne_zero lent)
        · rw [Function.update_of_ne own] at outstanding
          rw [lending.seated i inTotal outstanding]
          split
          · rw [Function.update_of_ne own]
          · rfl
  | @refused c' absent seats rcs free why =>
      simp only [if_true]
      exact lending.keep requested.ok requested.cfg rcs fun i s held => by rw [seats]; exact held
  | @granted c' s absent available seats rcs =>
      have small := lending.ok.free_lt (s := s) (by rw [available]; exact List.mem_cons_self)
      have slots := lending.ok.slots
      have named : s ≠ NO_SLOT := by omega
      simp only [named, if_false, unlent absent, if_true]
      apply lending.lent requested.ok requested.cfg rcs
      · rw [seats, Function.update_self]
      · intro i own _
        rw [seats, Function.update_of_ne own]
  | @replaced c' k v s absent victimLayer inside' victim idle free seats rcs =>
      have bound' := c.idx_lt_total victimLayer inside'
      have named := lending.ok.seat_ne bound' victim
      simp only [named, if_false, unlent absent, if_true]
      apply lending.lent requested.ok requested.cfg rcs
      · rw [seats, Function.update_self]
      · intro i own outstanding
        -- nothing of the victim is outstanding
        have other : i ≠ c.idx k v := by
          intro same
          rw [same, ← lending.counted _ bound', idle] at outstanding
          exact absurd outstanding (Nat.lt_irrefl 0)
        rw [seats, Function.update_of_ne own, Function.update_of_ne other]

theorem Lending.release (lending : Lending c loans) (layer : l < c.cfg.nLayer)
    (inside : e < c.cfg.nExpert) (matched : 0 < loans.count (c.idx l e)) :
    Lending (c.release l e) (loans.after c (.release l e)) := by
  have bound := c.idx_lt_total layer inside
  have ok := lending.ok.release layer inside
  have counted : (c.entry l e).rc = loans.count (c.idx l e) := lending.counted _ bound
  have result : c.release l e = c.setEntry l e { c.entry l e with rc := (c.entry l e).rc - 1 } := by
    have used : 0 < (c.entry l e).rc := by
      rw [counted]
      exact matched
    exact if_pos used
  rw [result] at ok ⊢
  refine ⟨ok, ?_, ?_⟩
  · intro i inTotal
    by_cases own : i = c.idx l e
    · subst own
      simp only [rcs, setEntry, Loans.after, Function.update_self, counted]
    · simp only [rcs, setEntry, Loans.after, Function.update_of_ne own]
      exact lending.counted i inTotal
  · intro i inTotal outstanding
    have before : 0 < loans.count i := by
      by_cases own : i = c.idx l e
      · subst own
        exact matched
      · simpa only [Loans.after, Function.update_of_ne own] using outstanding
    have held := lending.seated i inTotal before
    by_cases own : i = c.idx l e
    · subst own
      simp only [seats, setEntry, Function.update_self, Loans.after] at held ⊢
      exact held
    · simp only [seats, setEntry, Function.update_of_ne own, Loans.after] at held ⊢
      exact held

/-! ## Pinning -/

/-- Pinning gives a slot to an expert without one and touches no other. -/
theorem pin_keeps {d : ExpertCache} {l e top : Nat} (free : List Nat)
    (absent : (d.entry l e).seg = .none) :
    (d.pin l e top free).rcs = d.rcs ∧
      ∀ i s, d.seats i = some s → (d.pin l e top free).seats i = some s := by
  have missing : d.seats (d.idx l e) = none := Entry.held_none.mpr absent
  have result : d.pin l e top free = d.replaced l e
      { d.entry l e with slot := top, seg := .pinned, resident := true }
      { d.lay l with pinned := (d.lay l).pinned + 1, resident := (d.lay l).resident + 1 }
      free d.st := rfl
  refine ⟨?_, ?_⟩
  · rw [result, rcs_replaced]
    exact Function.update_eq_self (d.idx l e) d.rcs
  · intro i s held
    have other : i ≠ d.idx l e := by
      intro same
      rw [same, missing] at held
      cases held
    rw [result, seats_replaced, Function.update_of_ne other]
    exact held

theorem buildPinned_seats (freq : List Nat) (order : Nat → List Nat) (c : ExpertCache) :
    (c.buildPinned freq order).rcs = c.rcs ∧
      ∀ i s, c.seats i = some s → (c.buildPinned freq order).seats i = some s := by
  apply buildPinned_keeps (P := fun d => d.rcs = c.rcs ∧
    ∀ i s, c.seats i = some s → d.seats i = some s) freq order ?_ ⟨rfl, fun i s held => held⟩
  intro d l e top free kept _ _ _ absent
  obtain ⟨rcs, seats⟩ := pin_keeps free absent
  exact ⟨rcs.trans kept.1, fun i s held => seats i s (kept.2 i s held)⟩

/-! ## Runs -/

theorem Lending.apply (lending : Lending c loans) (op : Op) (inRange : op.InRange c.cfg)
    (matched : ∀ l e, op = .release l e → 0 < loans.count (c.idx l e))
    (narrow : ∀ l e origin, op = .acquire l e origin → loans.count (c.idx l e) + 1 < 2 ^ 16) :
    Lending (c.apply op) (loans.after c op) := by
  have applied := lending.ok.apply op inRange
  cases op with
  | acquire l e origin =>
      exact lending.acquire inRange.1 inRange.2 origin (narrow l e origin rfl)
  | release l e => exact lending.release inRange.1 inRange.2 (matched l e rfl)
  | markResident l e nbytes =>
      have same : ∀ i, ((c.markResident l e nbytes).ent i).rc = (c.ent i).rc ∧
          ((c.markResident l e nbytes).ent i).held = (c.ent i).held := by
        intro i
        simp only [ExpertCache.markResident]
        split
        · exact ⟨rfl, rfl⟩
        · by_cases own : i = c.idx l e
          · subst own
            simp only [setEntry, Function.update_self]
            exact ⟨rfl, rfl⟩
          · simp only [setEntry, Function.update_of_ne own]
            exact ⟨trivial, trivial⟩
      apply lending.keep applied.ok applied.cfg
      · funext i
        exact (same i).1
      · intro i s held
        exact (same i).2.trans held
  | endStep =>
      have ent : (c.apply .endStep).ent = c.ent := by
        simp only [ExpertCache.apply, ExpertCache.endStep]
        split
        · simp only [ExpertCache.rebalanceQuota]
          split <;> rfl
        · rfl
      apply lending.keep applied.ok applied.cfg
      · unfold ExpertCache.rcs
        rw [ent]
      · intro i s held
        simp only [ExpertCache.seats] at held ⊢
        rw [ent]
        exact held
  | buildPinned freq order =>
      obtain ⟨rcs, seats⟩ := buildPinned_seats freq order c
      exact lending.keep applied.ok applied.cfg rcs seats

theorem Lending.run (lending : Lending c loans) (ops : List Op)
    (inRange : ∀ op ∈ ops, op.InRange c.cfg) (matched : Matched c loans ops)
    (narrow : Narrow c loans ops) : Lending (c.run ops) (lend c loans ops) := by
  induction ops generalizing c loans with
  | nil => exact lending
  | cons op rest ih =>
      have own := inRange op List.mem_cons_self
      have step := lending.apply op own matched.1 narrow.1
      apply ih step ?_ matched.2 narrow.2
      intro next member
      rw [(lending.ok.apply op own).cfg]
      exact inRange next (List.mem_cons_of_mem op member)

theorem Lending.initial (cfg : Config) : Lending (init cfg) {} where
  ok := init_ok cfg
  counted := fun _ _ => rfl
  seated := fun _ _ lent => absurd lent (Nat.lt_irrefl 0)

/-- In a run of matched releases in which no count outgrows 16 bits, what is
outstanding keeps its slot. -/
theorem outstanding_kept (cfg : Config) (ops : List Op) (inRange : ∀ op ∈ ops, op.InRange cfg)
    (matched : Matched (init cfg) {} ops) (narrow : Narrow (init cfg) {} ops) :
    Kept ((init cfg).run ops) (lend (init cfg) {} ops) :=
  ((Lending.initial cfg).run ops inRange matched narrow).kept

/-- Expert 0 is held twice and given back once: expert 1 gets no slot. -/
theorem outstanding_kept_twice :
    Kept ((init { nLayer := 1, nExpert := 2, nSlot := 1 }).run
        [.acquire 0 0 .demand, .acquire 0 0 .demand, .release 0 0, .acquire 0 1 .demand])
      (lend (init { nLayer := 1, nExpert := 2, nSlot := 1 }) {}
        [.acquire 0 0 .demand, .acquire 0 0 .demand, .release 0 0, .acquire 0 1 .demand]) := by
  apply outstanding_kept
  · intro op member
    simp only [List.mem_cons, List.not_mem_nil, or_false] at member
    rcases member with rfl | rfl | rfl | rfl <;> exact ⟨by decide, by decide⟩
  · refine ⟨nofun, nofun, ?_, nofun, trivial⟩
    intro l e same
    cases same
    decide
  · refine ⟨?_, ?_, nofun, ?_, trivial⟩
    all_goals
      intro l e origin same
      cases same
      decide

/-! ## When the count wraps -/

/-- Expert 0 of a one-slot cache has the slot, and was requested `n` times. -/
structure Wrapped (n : Nat) (c : ExpertCache) (loans : Loans) : Prop where
  single : c.Single
  experts : c.cfg.nExpert = 2
  slots : c.nSlot = 1
  free : c.free = []
  seat : c.seats 0 = some 0
  other : c.seats 1 = none
  rc : c.rcs 0 = n % 2 ^ 16
  count : loans.count 0 = n

theorem Wrapped.again {n : Nat} (wrapped : Wrapped n c loans) :
    Wrapped (n + 1) (c.acquire 0 0 .demand).1 (loans.after c (.acquire 0 0 .demand)) := by
  have inside : 0 < c.cfg.nExpert := by
    rw [wrapped.experts]
    exact Nat.two_pos
  obtain ⟨requested, acquired⟩ :=
    wrapped.single.ok.acquire wrapped.single.layer inside .demand
  have single := wrapped.single.acquire inside .demand
  have held : c.seats (c.idx 0 0) = some 0 := by
    rw [idx_zero]
    exact wrapped.seat
  simp only [Loans.after]
  revert requested acquired single
  generalize c.acquire 0 0 .demand = result
  intro requested acquired single
  cases acquired with
  | @hit c' s seat seats rcs free =>
      have first : s = 0 := Option.some.inj (seat.symm.trans held)
      have named : s ≠ NO_SLOT := by
        rw [first]
        decide
      rw [idx_zero] at rcs
      refine ⟨single, ?_, ?_, ?_, ?_, ?_, ?_, ?_⟩
      · rw [requested.cfg]
        exact wrapped.experts
      · rw [requested.nSlot]
        exact wrapped.slots
      · exact free.trans wrapped.free
      · rw [seats]
        exact wrapped.seat
      · rw [seats]
        exact wrapped.other
      · rw [rcs, Function.update_self, wrapped.rc]
        exact Nat.mod_add_mod n (2 ^ 16) 1
      · simp only [named, if_false, idx_zero, Function.update_self, wrapped.count]
  | refused absent _ _ _ _ => cases absent.symm.trans held
  | granted absent _ _ _ => cases absent.symm.trans held
  | replaced absent _ _ _ _ _ _ _ => cases absent.symm.trans held

theorem Wrapped.repeated {n : Nat} (wrapped : Wrapped n c loans) (m : Nat) :
    Wrapped (n + m) (c.run (List.replicate m (.acquire 0 0 .demand)))
      (lend c loans (List.replicate m (.acquire 0 0 .demand))) := by
  induction m generalizing n c loans with
  | zero => exact wrapped
  | succ m ih =>
      have later := ih wrapped.again
      rw [Nat.add_assoc, Nat.add_comm 1 m] at later
      exact later

theorem lend_append (c : ExpertCache) (loans : Loans) (before after : List Op) :
    lend c loans (before ++ after) = lend (c.run before) (lend c loans before) after := by
  induction before generalizing c loans with
  | nil => rfl
  | cons op rest ih => exact ih (c.apply op) (loans.after c op)

@[simp] theorem run_append (c : ExpertCache) (before after : List Op) :
    c.run (before ++ after) = (c.run before).run after := List.foldl_append

theorem matched_of_requests (ops : List Op) (requests : ∀ op ∈ ops, op.isAcquire = true)
    (c : ExpertCache) (loans : Loans) : Matched c loans ops := by
  induction ops generalizing c loans with
  | nil => trivial
  | cons op rest ih =>
      refine ⟨?_, ih (fun next member => requests next (List.mem_cons_of_mem op member)) _ _⟩
      intro l e same
      have request := requests op List.mem_cons_self
      rw [same] at request
      cases request

def oneSlot : Config := { nLayer := 1, nExpert := 2, nSlot := 1, layerQuotaAdapt := false }

def overflowing : List Op :=
  List.replicate (2 ^ 16) (.acquire 0 0 .demand) ++ [.acquire 0 1 .demand]

theorem overflowing_requests {op : Op} (member : op ∈ overflowing) :
    op = .acquire 0 0 .demand ∨ op = .acquire 0 1 .demand := by
  rcases List.mem_append.mp member with first | last
  · exact Or.inl (List.eq_of_mem_replicate first)
  · exact Or.inr (List.mem_singleton.mp last)

theorem oneSlot_single : (init oneSlot).Single := Single.initial rfl

theorem Wrapped.first : Wrapped 1 ((init oneSlot).run [.acquire 0 0 .demand])
    (lend (init oneSlot) {} [.acquire 0 0 .demand]) where
  single := oneSlot_single.acquire Nat.two_pos .demand
  experts := rfl
  slots := rfl
  free := rfl
  seat := rfl
  other := rfl
  rc := rfl
  count := rfl

/-- A count of 65536 wraps, and the slot of expert 0 goes to expert 1. -/
theorem Wrapped.lost {n : Nat} (wrapped : Wrapped n c loans) (full : n = 2 ^ 16) :
    ¬Kept (c.acquire 0 1 .demand).1 (loans.after c (.acquire 0 1 .demand)) := by
  have single := wrapped.single
  have inside : 1 < c.cfg.nExpert := by
    rw [wrapped.experts]
    exact Nat.one_lt_two
  obtain ⟨requested, acquired⟩ := single.ok.acquire single.layer inside .demand
  have idle : c.rcs 0 = 0 := by
    rw [wrapped.rc, full, Nat.mod_self]
  have missing : c.seats (c.idx 0 1) = none := by
    rw [idx_zero]
    exact wrapped.other
  have refused : (c.acquire 0 1 .demand).2.2 ≠ NO_SLOT := by
    have total : c.total = 2 := by rw [single.total_eq, wrapped.experts]
    have absent : c.table.seat 1 = none := by
      rw [table_seat (by omega)]
      exact wrapped.other
    intro none
    have used := ((single.refused_iff inside (by decide) absent).mp none).2 0 0
      (by rw [table_seat (by omega)]; exact wrapped.seat)
    rw [table_refs (by omega), idle] at used
    exact absurd used (Nat.lt_irrefl 0)
  intro kept
  have layer : 0 < (c.acquire 0 1 .demand).1.cfg.nLayer := by
    rw [requested.cfg]
    exact single.layer
  have expert : 0 < (c.acquire 0 1 .demand).1.cfg.nExpert := by
    rw [requested.cfg, wrapped.experts]
    exact Nat.two_pos
  have counted : (loans.after c (.acquire 0 1 .demand)).count 0 = n := by
    simp only [Loans.after, refused, if_false, idx_zero]
    rw [Function.update_of_ne Nat.zero_ne_one]
    exact wrapped.count
  obtain ⟨own, bound, -⟩ := kept 0 0 layer expert (by
    rw [idx_zero, counted, full]
    exact Nat.two_pow_pos 16)
  rw [← own, requested.nSlot, wrapped.slots] at bound
  -- the seat of expert 0 was given away
  have lost : (c.acquire 0 1 .demand).1.seats 0 = none := by
    revert refused acquired
    generalize c.acquire 0 1 .demand = result
    intro acquired refused
    cases acquired with
    | hit seat _ _ _ => cases missing.symm.trans seat
    | refused _ _ _ _ _ => exact absurd rfl refused
    | granted _ available _ _ => cases wrapped.free.symm.trans available
    | @replaced c' k v s _ victimLayer inside' victim _ _ seats _ =>
        have same : c.idx k v = 0 := by
          have below : c.idx k v < c.total := c.idx_lt_total victimLayer inside'
          rw [single.total_eq, wrapped.experts] at below
          have apart : c.idx k v ≠ 1 := by
            intro one
            rw [one, wrapped.other] at victim
            cases victim
          omega
        rw [seats, same, idx_zero, Function.update_of_ne Nat.zero_ne_one,
          Function.update_self]
  have none : ((c.acquire 0 1 .demand).1.entry 0 0).slot = NO_SLOT := by
    have entryOk := requested.ok.entry layer expert
    apply entryOk.absent.mp
    simp only [entry]
    rw [idx_zero]
    exact Entry.held_none.mp lost
  rw [none] at bound
  exact absurd bound (by decide)

theorem lost_after (n : Nat) (full : n = 2 ^ 16) :
    let ops := List.replicate n (Op.acquire 0 0 .demand) ++ [.acquire 0 1 .demand]
    ¬Kept ((init oneSlot).run ops) (lend (init oneSlot) {} ops) := by
  intro ops
  have wrapped : Wrapped n ((init oneSlot).run (List.replicate n (.acquire 0 0 .demand)))
      (lend (init oneSlot) {} (List.replicate n (.acquire 0 0 .demand))) := by
    cases n with
    | zero => omega
    | succ m =>
        have later := Wrapped.first.repeated m
        rw [Nat.add_comm] at later
        exact later
  have split := run_append (init oneSlot) (List.replicate n (.acquire 0 0 .demand))
    [.acquire 0 1 .demand]
  have lent := lend_append (init oneSlot) {} (List.replicate n (.acquire 0 0 .demand))
    [.acquire 0 1 .demand]
  simp only [ops, split, lent]
  exact wrapped.lost full

/-- 65536 references to one expert are outstanding, none was given back, and its
slot is another's. -/
theorem wrapped_evicted :
    (∀ op ∈ overflowing, op.InRange oneSlot) ∧ Matched (init oneSlot) {} overflowing ∧
      ¬Kept ((init oneSlot).run overflowing) (lend (init oneSlot) {} overflowing) := by
  refine ⟨?_, ?_, ?_⟩
  · intro op member
    rcases overflowing_requests member with rfl | rfl
    · exact ⟨Nat.one_pos, Nat.two_pos⟩
    · exact ⟨Nat.one_pos, Nat.one_lt_two⟩
  · apply matched_of_requests
    intro op member
    rcases overflowing_requests member with rfl | rfl <;> rfl
  · exact lost_after (2 ^ 16) rfl

end ExpertCache

end MoeStream
