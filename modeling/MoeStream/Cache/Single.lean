import Mathlib.Data.Finset.Card
import MoeStream.Cache.Residency

/-!
# A cache of one layer

The configuration the program uses: one cache a layer, no pinned set, no quota
adaptation.  There the quota is the number of slots, so a request is refused
only when every slot is held by an expert in use.
-/

set_option autoImplicit false

namespace MoeStream

open Foundation.FixedWidth
open Foundation.TokenPartition
open Foundation.SeatTable

namespace ExpertCache

variable {c c' : ExpertCache} {e : Nat}

structure Single (c : ExpertCache) : Prop where
  ok : c.Ok
  layers : c.cfg.nLayer = 1
  quota : c.quota 0 = c.nSlot
  unpinned : (c.lay 0).pinned = 0

@[simp] theorem idx_zero (c : ExpertCache) (e : Nat) : c.idx 0 e = e := by
  simp only [idx]
  rw [Nat.zero_mul, Nat.zero_add]

namespace Single

theorem total_eq (single : c.Single) : c.total = c.cfg.nExpert := by
  simp only [total]
  rw [single.layers, Nat.one_mul]

theorem layer (single : c.Single) : 0 < c.cfg.nLayer := by
  rw [single.layers]
  exact Nat.one_pos

/-- Only the configuration, the quota and the pinned counts matter. -/
theorem keep (single : c.Single) (ok : c'.Ok) (cfg : c'.cfg = c.cfg) (nSlot : c'.nSlot = c.nSlot)
    (quota : c'.quota = c.quota) (pinned : (c'.lay 0).pinned = (c.lay 0).pinned) : c'.Single :=
  ⟨ok, by rw [cfg, single.layers], by rw [quota, nSlot, single.quota],
    by rw [pinned, single.unpinned]⟩

theorem acquire (single : c.Single) (inside : e < c.cfg.nExpert) (origin : Origin) :
    (c.acquire 0 e origin).1.Single := by
  have requested := (single.ok.acquire single.layer inside origin).1
  exact single.keep requested.ok requested.cfg requested.nSlot requested.quota
    (requested.pinned 0)

theorem markResident (single : c.Single) (inside : e < c.cfg.nExpert) (nbytes : Nat) :
    (c.markResident 0 e nbytes).Single := by
  refine single.keep (single.ok.markResident single.layer inside nbytes) ?_ ?_ ?_ ?_
  all_goals
    unfold ExpertCache.markResident
    simp only
    split <;> rfl

/-- A granted request may be followed by `mark_resident`, which the table does
not see. -/
theorem settle (single : c.Single) (inside : e < c.cfg.nExpert) (hit : Bool) (nbytes : Nat) :
    let c' := if hit = true then c else c.markResident 0 e nbytes
    c'.Single ∧ c'.cfg = c.cfg ∧ c'.nSlot = c.nSlot ∧ c'.table = c.table := by
  cases hit with
  | true => exact ⟨single, rfl, rfl, rfl⟩
  | false =>
      have fixed : (c.markResident 0 e nbytes).cfg = c.cfg ∧
          (c.markResident 0 e nbytes).nSlot = c.nSlot := by
        unfold ExpertCache.markResident
        simp only
        split <;> exact ⟨rfl, rfl⟩
      exact ⟨single.markResident inside nbytes, fixed.1, fixed.2,
        table_markResident c single.layer inside nbytes⟩

theorem release (single : c.Single) (inside : e < c.cfg.nExpert) :
    (c.release 0 e).Single := by
  refine single.keep (single.ok.release single.layer inside) ?_ ?_ ?_ ?_
  all_goals
    unfold ExpertCache.release
    simp only
    split <;> rfl

theorem releases (single : c.Single) (es : List Nat) (inside : ∀ e ∈ es, e < c.cfg.nExpert) :
    (es.foldl (fun c e => c.release 0 e) c).Single := by
  induction es generalizing c with
  | nil => exact single
  | cons e rest ih =>
      refine ih (single.release (inside e List.mem_cons_self)) ?_
      intro k member
      have fixed : (c.release 0 e).cfg = c.cfg := by
        unfold ExpertCache.release
        simp only
        split <;> rfl
      rw [fixed]
      exact inside k (List.mem_cons_of_mem e member)

theorem initial {cfg : Config} (layers : cfg.nLayer = 1) : (init cfg).Single where
  ok := init_ok cfg
  layers := layers
  quota := by
    simp only [init, layers, Nat.div_one, Nat.mul_one, Nat.sub_self]
    rfl
  unpinned := rfl

theorem seated_card (single : c.Single) :
    ((Finset.range c.total).filter fun i => c.table.seat i ≠ none).card + c.free.length =
      c.nSlot := by
  have counted := single.ok.split.length_eq
  have held : (owned c.total c.seats).length =
      ((Finset.range c.total).filter fun i => c.table.seat i ≠ none).card := by
    have same : ∀ i ∈ List.range c.total,
        (c.seats i).isSome = decide (c.table.seat i ≠ none) := by
      intro i member
      rw [table_seat (List.mem_range.mp member)]
      cases c.seats i <;> simp
    simp only [owned]
    rw [List.length_filterMap_eq_countP, List.countP_congr fun i member => by rw [same i member]]
    rw [List.countP_eq_length_filter]
    rfl
  rw [List.length_range] at counted
  omega

theorem queued (single : c.Single) {i s : Nat} (seated : c.table.seat i = some s) :
    i < c.cfg.nExpert ∧ (c.segs 0 i = .small ∨ c.segs 0 i = .main) := by
  obtain ⟨bound, held⟩ := seats_of_table seated
  have inside : i < c.cfg.nExpert := by
    rw [← single.total_eq]
    exact bound
  refine ⟨inside, ?_⟩
  have present : (c.entry 0 i).seg ≠ .none := by
    simp only [entry]
    rw [idx_zero]
    exact (Entry.held_some.mp held).1
  have none := (single.ok.layers 0 single.layer).pinnedEq
  rw [single.unpinned] at none
  have notPinned := List.countP_eq_zero.mp none.symm i (List.mem_range.mpr inside)
  simp only [segs] at notPinned ⊢
  cases seg : (c.entry 0 i).seg with
  | none => exact absurd seg present
  | pinned => simp [seg] at notPinned
  | small => exact Or.inl rfl
  | main => exact Or.inr rfl

theorem resident_eq (single : c.Single) :
    (c.lay 0).resident = ((Finset.range c.total).filter fun i => c.table.seat i ≠ none).card := by
  have counted := (single.ok.represents.resident 0 single.layer)
  rw [counted, single.total_eq, List.countP_eq_length_filter]
  have same : (List.range c.cfg.nExpert).filter
        (fun e => decide ((c.entry 0 e).seg ≠ Seg.none)) =
      (List.range c.cfg.nExpert).filter (fun e => decide (c.table.seat e ≠ none)) := by
    refine List.filter_congr ?_
    intro i member
    have bound : i < c.total := by
      rw [single.total_eq]
      exact List.mem_range.mp member
    rw [table_seat bound]
    unfold entry seats
    rw [idx_zero]
    exact decide_eq_decide.mpr (not_congr Entry.held_none.symm)
  rw [same]
  rfl

/-- A request is refused exactly when no slot is free and every seated expert is
in use. -/
theorem refused_iff (single : c.Single) (inside : e < c.cfg.nExpert) {origin : Origin}
    (admits : origin ≠ .sweep) (absent : c.table.seat e = none) :
    (c.acquire 0 e origin).2.2 = NO_SLOT ↔
      c.free = [] ∧ ∀ i s, c.table.seat i = some s → 0 < c.table.refs i := by
  have bound := c.idx_lt_total single.layer inside
  have room := single.seated_card
  rw [← single.resident_eq] at room
  have seat : c.seats (c.idx 0 e) = none := by
    rw [← table_seat bound, idx_zero]
    exact absent
  have acquired := (single.ok.acquire single.layer inside origin).2
  revert acquired
  generalize c.acquire 0 e origin = result
  intro acquired
  cases acquired with
  | hit held => exact absurd (seat.symm.trans held) nofun
  | refused absent seats rcs free why =>
      refine iff_of_true rfl ?_
      rw [single.quota] at why
      have spent : c.free = [] ∧ c.Busy 0 := by
        rcases why with sweep | ⟨full, busy⟩ | ⟨below, empty, busy⟩
        · exact absurd sweep admits
        · exact ⟨List.length_eq_zero_iff.mp (by omega), busy⟩
        · rw [empty, List.length_nil] at room
          omega
      refine ⟨spent.1, ?_⟩
      intro i s seated
      obtain ⟨insideI, queued⟩ := single.queued seated
      have used := spent.2 i queued insideI
      rw [table_refs (seats_of_table seated).1]
      simp only [entry] at used
      rwa [idx_zero] at used
  | @granted c' s absent available seats rcs =>
      have small := single.ok.free_lt (s := s) (by rw [available]; exact List.mem_cons_self)
      have slots := single.ok.slots
      refine iff_of_false (fun named => ?_) ?_
      · simp only at named
        omega
      · rintro ⟨empty, -⟩
        rw [empty] at available
        cases available
  | @replaced c' k v s absent victimLayer inside' victim idle free seats rcs =>
      have bound' := c.idx_lt_total victimLayer inside'
      refine iff_of_false (single.ok.seat_ne bound' victim) ?_
      rintro ⟨-, used⟩
      have positive := used _ s ((table_seat bound').trans victim)
      rw [table_refs bound', idle] at positive
      exact absurd positive (Nat.lt_irrefl 0)

/-- A request takes at most one reference, to the expert it is for. -/
theorem acquire_refs_le (single : c.Single) (inside : e < c.cfg.nExpert) (origin : Origin)
    (i : Nat) :
    (c.acquire 0 e origin).1.table.refs i ≤ c.table.refs i + if i = e then 1 else 0 := by
  obtain ⟨requested, acquired⟩ := single.ok.acquire single.layer inside origin
  have bound := c.idx_lt_total single.layer inside
  have total : (c.acquire 0 e origin).1.total = c.total := by
    simp only [total]
    rw [requested.cfg]
  revert acquired total
  generalize c.acquire 0 e origin = result
  intro acquired total
  rw [idx_zero] at bound
  have table : ∀ c' : ExpertCache, c'.total = c.total → ∀ rc, c'.rcs = Function.update c.rcs e rc →
      rc ≤ c.rcs e + 1 → c'.table.refs i ≤ c.table.refs i + if i = e then 1 else 0 := by
    intro c' sameTotal rc rcs small
    by_cases below : i < c.total
    · rw [table_refs (sameTotal ▸ below), table_refs below, rcs]
      by_cases same : i = e
      · subst same
        rw [Function.update_self, if_pos rfl]
        exact small
      · rw [Function.update_of_ne same, if_neg same]
        exact Nat.le_refl _
    · have none : c'.table.refs i = 0 := if_neg (sameTotal ▸ below)
      rw [none]
      exact Nat.zero_le _
  cases acquired with
  | hit seat seats rcs free =>
      rw [idx_zero] at rcs
      exact table _ total _ rcs (u16_le _)
  | refused absent seats rcs free why =>
      apply table _ total (c.rcs e)
      · rw [rcs, Function.update_eq_self]
      · exact Nat.le_succ _
  | granted absent available seats rcs =>
      rw [idx_zero] at rcs
      exact table _ total 1 rcs (Nat.succ_le_succ (Nat.zero_le _))
  | replaced absent layer inside' victim idle free seats rcs =>
      rw [idx_zero] at rcs
      exact table _ total 1 rcs (Nat.succ_le_succ (Nat.zero_le _))

theorem refused_table (single : c.Single) (inside : e < c.cfg.nExpert) {origin : Origin}
    (refused : (c.acquire 0 e origin).2.2 = NO_SLOT) :
    (c.acquire 0 e origin).1.table = c.table := by
  have bound := c.idx_lt_total single.layer inside
  obtain ⟨requested, acquired⟩ := single.ok.acquire single.layer inside origin
  revert refused requested acquired
  generalize c.acquire 0 e origin = result
  intro refused requested acquired
  cases acquired with
  | hit seat => exact absurd refused (single.ok.seat_ne bound seat)
  | refused absent seats rcs =>
      rw [table_eq requested.cfg, seats, rcs]
      rfl
  | @granted c' slot absent available =>
      have small := single.ok.free_lt (s := slot) (by rw [available]; exact List.mem_cons_self)
      have slots := single.ok.slots
      dsimp only at refused
      omega
  | replaced absent layer inside' victim =>
      exact absurd refused (single.ok.seat_ne (c.idx_lt_total layer inside') victim)

theorem slot_lt (single : c.Single) (inside : e < c.cfg.nExpert) {origin : Origin}
    (granted : (c.acquire 0 e origin).2.2 ≠ NO_SLOT) :
    (c.acquire 0 e origin).2.2 < c.nSlot := by
  have bound := c.idx_lt_total single.layer inside
  have acquired := (single.ok.acquire single.layer inside origin).2
  revert granted acquired
  generalize c.acquire 0 e origin = result
  intro granted acquired
  cases acquired with
  | hit held => exact single.ok.seat_lt bound held
  | refused _ _ _ _ _ => exact absurd rfl granted
  | @granted c' s absent available seats rcs =>
      exact single.ok.free_lt (by rw [available]; exact List.mem_cons_self)
  | @replaced c' k v s absent victimLayer inside' victim idle free seats rcs =>
      exact single.ok.seat_lt (c.idx_lt_total victimLayer inside') victim

/-- Requests for no more experts than there are slots are not refused, as long
as only these experts are in use. -/
theorem not_refused (single : c.Single) {es : Finset Nat} (few : es.card ≤ c.nSlot)
    (inUse : ∀ i, 0 < c.table.refs i → i ∈ es) (member : e ∈ es)
    (inside : e < c.cfg.nExpert) {origin : Origin} (admits : origin ≠ .sweep) :
    (c.acquire 0 e origin).2.2 ≠ NO_SLOT := by
  have bound : e < c.total := by
    rw [single.total_eq]
    exact inside
  cases seat : c.table.seat e with
  | some s =>
      have acquired := (single.ok.acquire single.layer inside origin).2
      have held : c.seats (c.idx 0 e) = some s := by
        rw [idx_zero, ← table_seat bound]
        exact seat
      revert acquired
      generalize c.acquire 0 e origin = result
      intro acquired
      cases acquired with
      | hit own =>
          refine single.ok.seat_ne ?_ own
          rw [idx_zero]
          exact bound
      | refused absent _ _ _ _ => exact absurd (absent.symm.trans held) nofun
      | granted absent _ _ _ => exact absurd (absent.symm.trans held) nofun
      | replaced absent _ _ _ _ _ _ _ => exact absurd (absent.symm.trans held) nofun
  | none =>
      intro refused
      obtain ⟨empty, used⟩ := (single.refused_iff inside admits seat).mp refused
      have room := single.seated_card
      rw [empty, List.length_nil, Nat.add_zero] at room
      -- every seated expert is one of `es`, and so is the absent one
      have covered : insert e
          ((Finset.range c.total).filter fun i => c.table.seat i ≠ none) ⊆ es := by
        intro i listed
        rcases Finset.mem_insert.mp listed with same | seated
        · rw [same]
          exact member
        · obtain ⟨s, held⟩ := Option.ne_none_iff_exists'.mp (Finset.mem_filter.mp seated).2
          exact inUse i (used i s held)
      have absent : e ∉ (Finset.range c.total).filter fun i => c.table.seat i ≠ none := by
        intro listed
        exact (Finset.mem_filter.mp listed).2 seat
      have more := Finset.card_le_card covered
      rw [Finset.card_insert_of_notMem absent] at more
      omega

end Single

end ExpertCache

end MoeStream
