import Mathlib.Data.List.Count
import Mathlib.Data.List.Nodup
import Mathlib.Logic.Function.Basic

/-!
# Seats under reference counts

Keys take seats.  A request for a key finds it seated, seats it on an unused
seat or on the seat of a key nobody refers to, or is refused; a granted request
adds a reference.  A key that had to be seated is due for loading.

`Serving` adds what a sequence of requests has accumulated since no key was
referred to: the references granted and the loads that are due.  Its invariant
says that once the loads that are due have been done, every seat holds the data
of the key that has it.
-/

set_option autoImplicit false

namespace MoeStream.Foundation.SeatTable

variable {κ σ : Type} [DecidableEq κ]

structure Table (κ σ : Type) where
  seat : κ → Option σ
  refs : κ → Nat

/-- No seat is taken twice. -/
def Table.Apart (t : Table κ σ) : Prop :=
  ∀ i j s, t.seat i = some s → t.seat j = some s → i = j

/-- One request for `k`; the outcome is the seat and whether a load is due. -/
inductive Request (t : Table κ σ) (k : κ) : Table κ σ → Option (σ × Bool) → Prop where
  | hit {s : σ} (seated : t.seat k = some s) :
      Request t k ⟨t.seat, Function.update t.refs k (t.refs k + 1)⟩ (some (s, false))
  | refused (absent : t.seat k = none) : Request t k t none
  | fresh {s : σ} (absent : t.seat k = none) (unused : ∀ i, t.seat i ≠ some s) :
      Request t k ⟨Function.update t.seat k (some s), Function.update t.refs k 1⟩
        (some (s, true))
  | replaced {v : κ} {s : σ} (absent : t.seat k = none) (victim : t.seat v = some s)
      (idle : t.refs v = 0) :
      Request t k
        ⟨Function.update (Function.update t.seat v none) k (some s),
          Function.update t.refs k 1⟩
        (some (s, true))

variable {t t' : Table κ σ} {k : κ} {outcome : Option (σ × Bool)}

/-- Seating a key on a seat no other key has keeps the seats apart. -/
theorem Table.Apart.seat {seat : κ → Option σ} {refs refs' : κ → Nat} {s : σ}
    (apart : Table.Apart ⟨seat, refs⟩) (unused : ∀ i, i ≠ k → seat i ≠ some s) :
    Table.Apart ⟨Function.update seat k (some s), refs'⟩ := by
  intro i j r first second
  simp only [Function.update_apply] at first second
  split at first <;> split at second
  · rename_i same same'
    rw [same, same']
  · rename_i _ other
    exact absurd (second.trans first.symm) (unused j other)
  · rename_i other _
    exact absurd (first.trans second.symm) (unused i other)
  · exact apart i j r first second

theorem Request.apart (request : Request t k t' outcome) (apart : t.Apart) : t'.Apart := by
  cases request with
  | hit _ => exact apart
  | refused _ => exact apart
  | fresh absent unused => exact apart.seat fun i _ => unused i
  | @replaced v s absent victim idle =>
      have vacated : Table.Apart ⟨Function.update t.seat v none, t.refs⟩ := by
        intro i j r first second
        simp only [Function.update_apply] at first second
        split at first
        · cases first
        · split at second
          · cases second
          · exact apart i j r first second
      refine vacated.seat ?_
      intro i _ held
      simp only [Function.update_apply] at held
      split at held
      · cases held
      · rename_i other
        exact other (apart i v s held victim)

theorem Request.keeps (request : Request t k t' outcome) {i : κ} {s : σ}
    (referred : 0 < t.refs i) (seated : t.seat i = some s) : t'.seat i = some s := by
  cases request with
  | hit _ => exact seated
  | refused _ => exact seated
  | fresh absent unused =>
      have other : i ≠ k := by
        intro same
        rw [same, absent] at seated
        cases seated
      simpa [Function.update_of_ne other] using seated
  | @replaced v r absent victim idle =>
      have other : i ≠ k := by
        intro same
        rw [same, absent] at seated
        cases seated
      have notVictim : i ≠ v := by
        intro same
        rw [same, idle] at referred
        exact absurd referred (Nat.lt_irrefl 0)
      simpa [Function.update_of_ne other, Function.update_of_ne notVictim] using seated

theorem Request.granted {s : σ} {due : Bool} (request : Request t k t' (some (s, due))) :
    t'.seat k = some s := by
  cases request with
  | hit seated => exact seated
  | fresh absent unused => simp
  | replaced absent victim idle => simp

theorem Request.seat_other (request : Request t k t' outcome) {i : κ} {s : σ}
    (other : i ≠ k) (seated : t'.seat i = some s) : t.seat i = some s := by
  cases request with
  | hit _ => exact seated
  | refused _ => exact seated
  | fresh _ _ => simpa [Function.update_of_ne other] using seated
  | @replaced v r _ _ _ =>
      simp only [Function.update_of_ne other, Function.update_apply] at seated
      split at seated
      · cases seated
      · exact seated

theorem Request.of_refused (request : Request t k t' none) : t' = t := by
  cases request
  rfl

/-- A granted request adds one reference, when keys without a seat have none. -/
theorem Request.refs_eq {granted : σ × Bool} (request : Request t k t' (some granted))
    (idle : t.seat k = none → t.refs k = 0) :
    t'.refs = Function.update t.refs k (t.refs k + 1) := by
  cases request with
  | hit seated => rfl
  | fresh absent unused => rw [idle absent]
  | replaced absent victim _ => rw [idle absent]

theorem Request.due_iff {s : σ} {due : Bool} (request : Request t k t' (some (s, due))) :
    due = true ↔ t.seat k = none := by
  cases request with
  | hit seated => simp [seated]
  | fresh absent unused => simp [absent]
  | replaced absent victim idle => simp [absent]

/-! ## A sequence of requests -/

structure Serving (κ σ : Type) where
  table : Table κ σ
  held : List κ
  due : List (κ × σ)

/-- The requests served so far, counted from a state without references.
`Loaded s k` is what it means for seat `s` to hold the data of `k`. -/
structure Serving.Ok (Loaded : σ → κ → Prop) (served : Serving κ σ) : Prop where
  apart : served.table.Apart
  refs : ∀ k, served.table.refs k = served.held.count k
  heldSeat : ∀ k ∈ served.held, served.table.seat k ≠ none
  dueSeat : ∀ k s, (k, s) ∈ served.due → served.table.seat k = some s ∧ k ∈ served.held
  dueOnce : (served.due.map Prod.fst).Nodup
  loaded : ∀ k s, served.table.seat k = some s → (k, s) ∈ served.due ∨ Loaded s k

namespace Serving

/-- What a request adds to the references and to the loads that are due. -/
def after (served : Serving κ σ) (k : κ) (t : Table κ σ) : Option (σ × Bool) → Serving κ σ
  | none => { served with table := t }
  | some (s, due) =>
      { table := t
        held := served.held ++ [k]
        due := if due then served.due ++ [(k, s)] else served.due }

variable {Loaded : σ → κ → Prop} {served : Serving κ σ}

theorem Ok.start {t : Table κ σ} (apart : t.Apart) (idle : ∀ k, t.refs k = 0)
    (loaded : ∀ k s, t.seat k = some s → Loaded s k) : Ok Loaded ⟨t, [], []⟩ where
  apart := apart
  refs := by simpa using idle
  heldSeat := by simp
  dueSeat := by simp
  dueOnce := List.nodup_nil
  loaded := fun k s seated => Or.inr (loaded k s seated)

theorem Ok.keeps (ok : Ok Loaded served) (request : Request served.table k t' outcome) {i : κ}
    {s : σ} (held : i ∈ served.held) (seated : served.table.seat i = some s) :
    t'.seat i = some s := by
  refine request.keeps ?_ seated
  rw [ok.refs]
  exact List.count_pos_iff.mpr held

theorem Ok.request (ok : Ok Loaded served) (request : Request served.table k t' outcome) :
    Ok Loaded (served.after k t' outcome) := by
  cases outcome with
  | none =>
      cases request.of_refused
      exact ok
  | some granted =>
      obtain ⟨s, due⟩ := granted
      have now : t'.seat k = some s := request.granted
      have idle : served.table.seat k = none → served.table.refs k = 0 := by
        intro absent
        rw [ok.refs, List.count_eq_zero]
        exact fun held => ok.heldSeat k held absent
      have kept : ∀ i r, (i, r) ∈ served.due → t'.seat i = some r ∧ i ∈ served.held := by
        intro i r listed
        obtain ⟨seated, held⟩ := ok.dueSeat i r listed
        exact ⟨ok.keeps request held seated, held⟩
      refine ⟨request.apart ok.apart, ?_, ?_, ?_, ?_, ?_⟩
      · intro i
        simp only [after, request.refs_eq idle, List.count_append, List.count_singleton]
        by_cases same : i = k
        · subst same
          simp [ok.refs]
        · simp [Function.update_of_ne same, ok.refs, Ne.symm same]
      · intro i member
        simp only [after, List.mem_append, List.mem_singleton] at member
        rcases member with old | same
        · obtain ⟨r, seated⟩ := Option.ne_none_iff_exists'.mp (ok.heldSeat i old)
          rw [show (served.after k t' (some (s, due))).table.seat i = some r from
            ok.keeps request old seated]
          exact Option.some_ne_none r
        · rw [same, show (served.after k t' (some (s, due))).table.seat k = some s from now]
          exact Option.some_ne_none s
      · intro i r listed
        have split : (i, r) ∈ served.due ∨ (i = k ∧ r = s) := by
          cases due with
          | false => exact Or.inl listed
          | true => simpa [after] using listed
        rcases split with old | ⟨sameKey, sameSeat⟩
        · obtain ⟨seated, held⟩ := kept i r old
          exact ⟨seated, List.mem_append_left _ held⟩
        · rw [sameKey, sameSeat]
          exact ⟨now, List.mem_append_right _ (List.mem_singleton.mpr rfl)⟩
      · cases due with
        | false => exact ok.dueOnce
        | true =>
            have absent : served.table.seat k = none := request.due_iff.mp rfl
            have fresh : k ∉ served.due.map Prod.fst := by
              intro member
              obtain ⟨pair, listed, same⟩ := List.mem_map.mp member
              have seated := (ok.dueSeat pair.1 pair.2 listed).1
              rw [same, absent] at seated
              cases seated
            simp only [after, if_true, List.map_append, List.map_cons, List.map_nil]
            refine List.nodup_append.mpr ⟨ok.dueOnce, List.nodup_singleton k, ?_⟩
            intro i member j single equal
            rw [List.mem_singleton] at single
            exact fresh (single ▸ equal ▸ member)
      · intro i r seated
        by_cases same : i = k
        · subst same
          have sameSeat : r = s := Option.some.inj (seated.symm.trans now)
          subst sameSeat
          cases due with
          | true => exact Or.inl (by simp [after])
          | false =>
              cases request with
              | hit seat => exact ok.loaded i r seat
        · rcases ok.loaded i r (request.seat_other same seated) with listed | loaded
          · refine Or.inl ?_
            cases due <;> simp [after, listed]
          · exact Or.inr loaded

theorem Ok.dueSeats (ok : Ok Loaded served) : (served.due.map Prod.snd).Nodup := by
  refine List.Nodup.map_on ?_ (List.Nodup.of_map _ ok.dueOnce)
  intro first memberFirst second memberSecond same
  have seatFirst := (ok.dueSeat first.1 first.2 memberFirst).1
  have seatSecond := (ok.dueSeat second.1 second.2 memberSecond).1
  rw [← same] at seatSecond
  exact Prod.ext (ok.apart _ _ _ seatFirst seatSecond) same

/-- Doing the loads that are due leaves every seat with the data of its key,
when a load changes the data of its own seat only. -/
theorem Ok.finish {Loaded' : σ → κ → Prop} (ok : Ok Loaded served)
    (read : ∀ k s, (k, s) ∈ served.due → Loaded' s k)
    (others : ∀ k s, (∀ i, (i, s) ∉ served.due) → Loaded s k → Loaded' s k) :
    ∀ k s, served.table.seat k = some s → Loaded' s k := by
  intro k s seated
  rcases ok.loaded k s seated with listed | loaded
  · exact read k s listed
  · by_cases taken : ∃ i, (i, s) ∈ served.due
    · obtain ⟨i, listed⟩ := taken
      have same := ok.apart i k s (ok.dueSeat i s listed).1 seated
      rw [same] at listed
      exact read k s listed
    · exact others k s (fun i listed => taken ⟨i, listed⟩) loaded

end Serving

end MoeStream.Foundation.SeatTable
