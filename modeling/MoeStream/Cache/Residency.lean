import MoeStream.Cache.Runs
import MoeStream.Foundation.SeatTable

/-!
# The cache as a table of seats

What the rest of the program relies on is which expert holds which slot and how
often it is referred to.  Seen that way the cache is a `SeatTable` over dense
ids: a request of the cache is a request of the table, a release gives one
reference back, and completion changes nothing.
-/

set_option autoImplicit false

namespace MoeStream

open Foundation.FixedWidth
open Foundation.TokenPartition
open Foundation.SeatTable

namespace ExpertCache

variable {c : ExpertCache} {l e : Nat}

def below {β : Type} (n : Nat) (default : β) (f : Nat → β) : Nat → β :=
  fun i => if i < n then f i else default

theorem below_update {β : Type} {n i : Nat} (bound : i < n) (default : β) (f : Nat → β) (b : β) :
    below n default (Function.update f i b) = Function.update (below n default f) i b := by
  funext j
  unfold below
  by_cases same : j = i
  · subst same
    simp [bound]
  · simp [Function.update_of_ne same]

def table (c : ExpertCache) : Table Nat Nat :=
  ⟨below c.total none c.seats, below c.total 0 c.rcs⟩

theorem table_seat {i : Nat} (bound : i < c.total) : c.table.seat i = c.seats i :=
  if_pos bound

theorem table_refs {i : Nat} (bound : i < c.total) : c.table.refs i = c.rcs i :=
  if_pos bound

theorem table_eq {c' : ExpertCache} (cfg : c'.cfg = c.cfg) :
    c'.table = ⟨below c.total none c'.seats, below c.total 0 c'.rcs⟩ := by
  simp only [table, total]
  rw [cfg]

theorem seats_of_table {i s : Nat} (seated : c.table.seat i = some s) :
    i < c.total ∧ c.seats i = some s := by
  unfold table below at seated
  simp only at seated
  split at seated
  · exact ⟨‹_›, seated⟩
  · cases seated

theorem Ok.apart (ok : c.Ok) : c.table.Apart := by
  intro i j s first second
  obtain ⟨boundI, heldI⟩ := seats_of_table first
  obtain ⟨boundJ, heldJ⟩ := seats_of_table second
  exact ok.split.holder_unique List.nodup_range boundI boundJ heldI heldJ

theorem Ok.table_seat_lt (ok : c.Ok) {i s : Nat} (seated : c.table.seat i = some s) :
    s < c.nSlot :=
  ok.seat_lt (seats_of_table seated).1 (seats_of_table seated).2

def answer (hit : Bool) (slot : Nat) : Option (Nat × Bool) :=
  if slot = NO_SLOT then none else some (slot, !hit)

theorem Ok.acquire_request (ok : c.Ok) (layer : l < c.cfg.nLayer) (inside : e < c.cfg.nExpert)
    (origin : Origin) (bounded : c.table.refs (c.idx l e) + 1 < 2 ^ 16) :
    Request c.table (c.idx l e) (c.acquire l e origin).1.table
      (answer (c.acquire l e origin).2.1 (c.acquire l e origin).2.2) := by
  have bound := c.idx_lt_total layer inside
  obtain ⟨requested, acquired⟩ := ok.acquire layer inside origin
  revert requested acquired
  generalize c.acquire l e origin = result
  intro requested acquired
  have cfg := requested.cfg
  rw [table_refs bound] at bounded
  cases acquired with
  | @hit c' s seat seats rcs free =>
      have named : s ≠ NO_SLOT := ok.seat_ne bound seat
      have request := Request.hit (t := c.table) ((table_seat bound).trans seat)
      rw [table_eq cfg, seats, rcs, u16_eq bounded, below_update bound]
      rw [table_refs bound] at request
      simp only [answer, named, if_false, Bool.not_true]
      exact request
  | @refused c' absent seats rcs free why =>
      rw [table_eq cfg, seats, rcs]
      simp only [answer, if_true]
      exact Request.refused ((table_seat bound).trans absent)
  | @granted c' s absent available seats rcs =>
      have small := ok.free_lt (s := s) (by rw [available]; exact List.mem_cons_self)
      have slots := ok.slots
      have named : s ≠ NO_SLOT := by omega
      have unused : ∀ i, c.table.seat i ≠ some s := by
        intro i seated
        obtain ⟨inTotal, held⟩ := seats_of_table seated
        refine ok.split.held_not_free List.nodup_range inTotal held ?_
        rw [available]
        exact List.mem_cons_self
      rw [table_eq cfg, seats, rcs, below_update bound, below_update bound]
      simp only [answer, named, if_false, Bool.not_false]
      exact Request.fresh ((table_seat bound).trans absent) unused
  | @replaced c' k v s absent victimLayer inside' victim idle free seats rcs =>
      have bound' := c.idx_lt_total victimLayer inside'
      have named : s ≠ NO_SLOT := ok.seat_ne bound' victim
      rw [table_eq cfg, seats, rcs, below_update bound, below_update bound, below_update bound']
      simp only [answer, named, if_false, Bool.not_false]
      exact Request.replaced ((table_seat bound).trans absent) ((table_seat bound').trans victim)
        ((table_refs bound').trans idle)

theorem table_setEntry (en : Entry) (bound : c.idx l e < c.total)
    (held : en.held = (c.entry l e).held) :
    (c.setEntry l e en).table =
      ⟨c.table.seat, Function.update c.table.refs (c.idx l e) en.rc⟩ := by
  have seats : (c.setEntry l e en).seats = c.seats := by
    funext i
    simp only [ExpertCache.seats, setEntry]
    by_cases same : i = c.idx l e
    · subst same
      simp only [Function.update_self]
      exact held
    · simp only [Function.update_of_ne same]
  have rcs : (c.setEntry l e en).rcs = Function.update c.rcs (c.idx l e) en.rc := by
    funext i
    unfold ExpertCache.rcs setEntry
    by_cases same : i = c.idx l e
    · subst same
      simp only [Function.update_self]
    · simp only [Function.update_of_ne same]
  have cut : (c.setEntry l e en).table =
      ⟨below c.total none (c.setEntry l e en).seats, below c.total 0 (c.setEntry l e en).rcs⟩ := rfl
  rw [cut, seats, rcs, below_update bound]
  rfl

theorem table_markResident (c : ExpertCache) (layer : l < c.cfg.nLayer)
    (inside : e < c.cfg.nExpert) (nbytes : Nat) :
    (c.markResident l e nbytes).table = c.table := by
  have bound := c.idx_lt_total layer inside
  have kept : Function.update c.table.refs (c.idx l e) (c.entry l e).rc = c.table.refs := by
    rw [show (c.entry l e).rc = c.table.refs (c.idx l e) from (table_refs bound).symm,
      Function.update_eq_self]
  unfold markResident
  simp only
  split
  · rfl
  · have marked := table_setEntry { c.entry l e with resident := true } bound rfl
    rw [kept] at marked
    exact marked

theorem table_release (c : ExpertCache) (layer : l < c.cfg.nLayer) (inside : e < c.cfg.nExpert) :
    (c.release l e).table =
      ⟨c.table.seat,
        Function.update c.table.refs (c.idx l e) (c.table.refs (c.idx l e) - 1)⟩ := by
  have bound := c.idx_lt_total layer inside
  have counted : c.table.refs (c.idx l e) = (c.entry l e).rc := table_refs bound
  unfold release
  simp only
  split
  · rw [counted]
    exact table_setEntry { c.entry l e with rc := (c.entry l e).rc - 1 } bound rfl
  · rename_i idle
    have zero : c.table.refs (c.idx l e) = 0 := counted.trans (Nat.eq_zero_of_not_pos idle)
    have same : Function.update c.table.refs (c.idx l e) (c.table.refs (c.idx l e) - 1) =
        c.table.refs := by
      rw [zero, Nat.zero_sub, ← zero, Function.update_eq_self]
    rw [same]

theorem Ok.releases (ok : c.Ok) (layer : l < c.cfg.nLayer) (es : List Nat)
    (inside : ∀ e ∈ es, e < c.cfg.nExpert) :
    let c' := es.foldl (fun c e => c.release l e) c
    c'.Ok ∧ c'.cfg = c.cfg ∧ c'.nSlot = c.nSlot ∧ c'.quota = c.quota ∧
      c'.table.seat = c.table.seat ∧
      ∀ i, c'.table.refs i = c.table.refs i - (es.map (c.idx l)).count i := by
  induction es generalizing c with
  | nil => exact ⟨ok, rfl, rfl, rfl, rfl, fun i => rfl⟩
  | cons e rest ih =>
      have bound := inside e List.mem_cons_self
      have fixed : (c.release l e).cfg = c.cfg ∧ (c.release l e).nSlot = c.nSlot ∧
          (c.release l e).quota = c.quota := by
        unfold ExpertCache.release
        simp only
        split <;> exact ⟨rfl, rfl, rfl⟩
      obtain ⟨final, cfg, nSlot, quota, seat, refs⟩ := ih (ok.release layer bound)
        (by rw [fixed.1]; exact layer)
        (fun k member => by rw [fixed.1]; exact inside k (List.mem_cons_of_mem e member))
      have released := table_release c layer bound
      refine ⟨final, cfg.trans fixed.1, nSlot.trans fixed.2.1, quota.trans fixed.2.2,
        seat.trans (by rw [released]), ?_⟩
      intro i
      have index : (c.release l e).idx l = c.idx l := by
        funext k
        simp only [idx]
        rw [fixed.1]
      have count := refs i
      rw [index, released] at count
      rw [List.foldl_cons, count, List.map_cons, List.count_cons]
      by_cases same : i = c.idx l e
      · subst same
        simp only [Function.update_self, beq_self_eq_true, if_true]
        omega
      · have apart : (c.idx l e == i) = false := beq_eq_false_iff_ne.mpr (Ne.symm same)
        simp [Function.update_of_ne same, apart]

end ExpertCache

end MoeStream
