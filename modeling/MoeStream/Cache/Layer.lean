import Mathlib.Data.List.Nodup
import Mathlib.Data.List.Range
import MoeStream.Cache.Model

/-!
# One layer of the cache

The queues of a layer against the segments its entries claim to be in.  The
statements are about a segment function and one `LayerState`, so each change of
the queues is proved once and used for every operation that makes it.
-/

set_option autoImplicit false

namespace MoeStream

theorem trimGhost_eq_drop (gmax : Nat) (ghost : List Nat) :
    trimGhost gmax ghost = ghost.drop (ghost.length - gmax) := by
  induction ghost with
  | nil => simp [trimGhost]
  | cons e rest ih =>
      rw [trimGhost]
      by_cases long : gmax < (e :: rest).length
      · have shift : (e :: rest).length - gmax = rest.length - gmax + 1 := by
          simp only [List.length_cons] at long ⊢
          omega
        rw [if_pos long, ih, shift, List.drop_succ_cons]
      · have none : (e :: rest).length - gmax = 0 := by omega
        rw [if_neg long, none, List.drop_zero]

theorem trimGhost_sublist (gmax : Nat) (ghost : List Nat) :
    (trimGhost gmax ghost).Sublist ghost := by
  rw [trimGhost_eq_drop]
  exact List.drop_sublist _ _

theorem nodup_concat {queue : List Nat} {e : Nat} (nodup : queue.Nodup) (fresh : e ∉ queue) :
    (queue ++ [e]).Nodup := by
  refine List.nodup_append.mpr ⟨nodup, List.nodup_singleton e, ?_⟩
  intro k member w single equal
  rw [List.mem_singleton] at single
  rw [equal, single] at member
  exact fresh member

/-- Changing the value at one index changes a count by the two memberships. -/
theorem countP_range_update {β : Type} (p : β → Bool) (f : Nat → β) (n i : Nat) (b : β)
    (inside : i < n) :
    (List.range n).countP (fun k => p (Function.update f i b k)) + (if p (f i) then 1 else 0) =
      (List.range n).countP (fun k => p (f k)) + (if p b then 1 else 0) := by
  induction n with
  | zero => exact absurd inside (Nat.not_lt_zero i)
  | succ n ih =>
      simp only [List.range_succ, List.countP_append, List.countP_singleton]
      by_cases last : i = n
      · subst last
        have before : (List.range i).countP (fun k => p (Function.update f i b k)) =
            (List.range i).countP (fun k => p (f k)) := by
          refine List.countP_congr ?_
          intro k member
          have smaller : k < i := List.mem_range.mp member
          rw [Function.update_of_ne (Nat.ne_of_lt smaller)]
        rw [before, Function.update_self]
        omega
      · have earlier := ih (by omega)
        rw [Function.update_of_ne (Ne.symm last)]
        omega

/-- The queues of a layer hold exactly the experts whose entry says so. -/
structure LayerOk (n : Nat) (seg : Nat → Seg) (ls : LayerState) : Prop where
  smallNodup : ls.small.Nodup
  mainNodup : ls.main.Nodup
  ghostNodup : ls.ghost.Nodup
  memSmall : ∀ e, e ∈ ls.small ↔ e < n ∧ seg e = .small
  memMain : ∀ e, e ∈ ls.main ↔ e < n ∧ seg e = .main
  ghostApart : ∀ e ∈ ls.ghost, e < n ∧ e ∉ ls.small ∧ e ∉ ls.main
  pinnedEq : ls.pinned = (List.range n).countP (fun e => decide (seg e = .pinned))
  residentEq : ls.resident = ls.small.length + ls.main.length + ls.pinned

/-! ## One queue

A queue lists the experts of one segment; an entry changes to another segment. -/

section Queue

variable {n v : Nat} {seg : Nat → Seg} {q now next : Seg} {queue queue' : List Nat}
  (listed : ∀ e, e ∈ queue ↔ e < n ∧ seg e = q)
include listed

theorem not_queued (claimed : seg v = now) (other : now ≠ q) : v ∉ queue := fun member =>
  other (claimed.symm.trans ((listed v).mp member).2)

theorem queue_elsewhere (claimed : seg v = now) (before : now ≠ q) (after : next ≠ q) (e : Nat) :
    e ∈ queue ↔ e < n ∧ Function.update seg v next e = q := by
  rw [listed]
  by_cases same : e = v
  · subst same
    simp [claimed, before, after]
  · rw [Function.update_of_ne same]

theorem queue_left (fewer : ∀ e, e ∈ queue' ↔ e ∈ queue ∧ e ≠ v) (after : next ≠ q) (e : Nat) :
    e ∈ queue' ↔ e < n ∧ Function.update seg v next e = q := by
  rw [fewer, listed]
  by_cases same : e = v
  · subst same
    simp [after]
  · simp [same]

theorem queue_joined (more : ∀ e, e ∈ queue' ↔ e ∈ queue ∨ e = v) (inside : v < n) (e : Nat) :
    e ∈ queue' ↔ e < n ∧ Function.update seg v q e = q := by
  rw [more, listed]
  by_cases same : e = v
  · subst same
    simp [inside]
  · simp [same]

end Queue

theorem LayerState.enqueue_seg (ls : LayerState) (e : Nat) (origin : Origin) (wasGhost : Bool) :
    (ls.enqueue e origin wasGhost).2 = .small ∨ (ls.enqueue e origin wasGhost).2 = .main := by
  simp only [LayerState.enqueue]
  split
  · exact Or.inr rfl
  · split
    · exact Or.inl rfl
    · exact Or.inl rfl

@[simp] theorem LayerState.enqueue_pinned (ls : LayerState) (e : Nat) (origin : Origin)
    (wasGhost : Bool) : (ls.enqueue e origin wasGhost).1.pinned = ls.pinned := by
  simp only [LayerState.enqueue]
  split
  · rfl
  · split <;> rfl

namespace LayerOk

variable {n : Nat} {seg : Nat → Seg} {ls : LayerState}

theorem initial (n : Nat) : LayerOk n (fun _ => .none) {} where
  smallNodup := List.nodup_nil
  mainNodup := List.nodup_nil
  ghostNodup := List.nodup_nil
  memSmall := by simp
  memMain := by simp
  ghostApart := by simp
  pinnedEq := by simp
  residentEq := rfl

/-- Only the segments in range, the three queues and the two counts matter. -/
theorem congr {other : Nat → Seg} {ls' : LayerState} (ok : LayerOk n seg ls)
    (segs : ∀ e, e < n → other e = seg e) (small : ls'.small = ls.small)
    (main : ls'.main = ls.main) (ghost : ls'.ghost = ls.ghost)
    (pinned : ls'.pinned = ls.pinned) (resident : ls'.resident = ls.resident) :
    LayerOk n other ls' where
  smallNodup := by rw [small]; exact ok.smallNodup
  mainNodup := by rw [main]; exact ok.mainNodup
  ghostNodup := by rw [ghost]; exact ok.ghostNodup
  memSmall := by
    intro e
    rw [small, ok.memSmall]
    exact and_congr_right fun inside => by rw [segs e inside]
  memMain := by
    intro e
    rw [main, ok.memMain]
    exact and_congr_right fun inside => by rw [segs e inside]
  ghostApart := by rw [ghost, small, main]; exact ok.ghostApart
  pinnedEq := by
    rw [pinned, ok.pinnedEq]
    refine List.countP_congr ?_
    intro e member
    rw [segs e (List.mem_range.mp member)]
  residentEq := by rw [resident, small, main, pinned]; exact ok.residentEq

/-- An expert with an entry outside the queues and the pinned set is queued nowhere. -/
theorem not_queued_of_none (ok : LayerOk n seg ls) {e : Nat} (absent : seg e = .none) :
    e ∉ ls.small ∧ e ∉ ls.main :=
  ⟨not_queued ok.memSmall absent (by decide), not_queued ok.memMain absent (by decide)⟩

/-- The pinned count is untouched when neither segment is `pinned`. -/
theorem pinned_update (ok : LayerOk n seg ls) {e : Nat} (inside : e < n) {next : Seg}
    (before : seg e ≠ .pinned) (after : next ≠ .pinned) :
    ls.pinned =
      (List.range n).countP (fun k => decide (Function.update seg e next k = .pinned)) := by
  have changed := countP_range_update (fun s => decide (s = Seg.pinned)) seg n e next inside
  simp only [before, after, decide_false, Bool.false_eq_true, if_false] at changed
  rw [ok.pinnedEq]
  omega

/-! ## Eviction -/

theorem ghost_record (ok : LayerOk n seg ls) {v : Nat} (small main : List Nat) (gmax : Nat)
    (inside : v < n) (fresh : v ∉ ls.ghost)
    (smallLess : ∀ e, e ∈ small → e ∈ ls.small ∧ e ≠ v)
    (mainLess : ∀ e, e ∈ main → e ∈ ls.main ∧ e ≠ v) :
    (trimGhost gmax (ls.ghost ++ [v])).Nodup ∧
      ∀ e ∈ trimGhost gmax (ls.ghost ++ [v]), e < n ∧ e ∉ small ∧ e ∉ main := by
  refine ⟨(trimGhost_sublist gmax _).nodup (nodup_concat ok.ghostNodup fresh), ?_⟩
  intro e member
  have listed := (trimGhost_sublist gmax _).subset member
  rcases List.mem_append.mp listed with old | new
  · obtain ⟨small', main', absent⟩ := ok.ghostApart e old
    exact ⟨small', fun h => main' (smallLess e h).1, fun h => absent (mainLess e h).1⟩
  · rw [List.mem_singleton] at new
    subst new
    exact ⟨inside, fun h => (smallLess e h).2 rfl, fun h => (mainLess e h).2 rfl⟩

theorem mem_rotated {before after : List Nat} {v e : Nat}
    (nodup : (before ++ v :: after).Nodup) :
    e ∈ after ++ before ↔ e ∈ before ++ v :: after ∧ e ≠ v := by
  have apart := List.nodup_append.mp nodup
  have notBefore : v ∉ before := fun h => apart.2.2 v h v List.mem_cons_self rfl
  have notAfter : v ∉ after := (List.nodup_cons.mp apart.2.1).1
  simp only [List.mem_append, List.mem_cons]
  constructor
  · rintro (member | member)
    · exact ⟨Or.inr (Or.inr member), fun equal => notAfter (equal ▸ member)⟩
    · exact ⟨Or.inl member, fun equal => notBefore (equal ▸ member)⟩
  · rintro ⟨member | equal | member, different⟩
    · exact Or.inr member
    · exact absurd equal different
    · exact Or.inl member

theorem rotated_nodup {before after : List Nat} {v : Nat}
    (nodup : (before ++ v :: after).Nodup) : (after ++ before).Nodup := by
  have swapped : (v :: after ++ before).Nodup := List.nodup_append_comm.mp nodup
  exact (List.nodup_cons.mp swapped).2

theorem evictSmall (ok : LayerOk n seg ls) {before after : List Nat} {v : Nat} (gmax : Nat)
    (split : ls.small = before ++ v :: after) :
    LayerOk n (Function.update seg v .none)
      { ls with
        small := after ++ before
        resident := ls.resident - 1
        ghost := trimGhost gmax (ls.ghost ++ [v]) } := by
  have member : v ∈ ls.small := by rw [split]; simp
  obtain ⟨inside, claimed⟩ := (ok.memSmall v).mp member
  have nodup : (before ++ v :: after).Nodup := split ▸ ok.smallNodup
  have fresh : v ∉ ls.ghost := fun h => (ok.ghostApart v h).2.1 member
  have notMain : v ∉ ls.main := not_queued ok.memMain claimed (by decide)
  have fewer : ∀ e, e ∈ after ++ before ↔ e ∈ ls.small ∧ e ≠ v := by
    rw [split]
    exact fun e => mem_rotated nodup
  have recorded := ok.ghost_record (after ++ before) ls.main gmax inside fresh
    (fun e => (fewer e).mp) (fun e h => ⟨h, fun equal => notMain (equal ▸ h)⟩)
  refine ⟨rotated_nodup nodup, ok.mainNodup, recorded.1, ?_, ?_, recorded.2, ?_, ?_⟩
  · exact queue_left ok.memSmall fewer (by decide)
  · exact queue_elsewhere ok.memMain claimed (by decide) (by decide)
  · exact ok.pinned_update inside (by rw [claimed]; decide) (by decide)
  · have total := ok.residentEq
    rw [split] at total
    simp only [List.length_append, List.length_cons] at total ⊢
    omega

theorem evictMain (ok : LayerOk n seg ls) {before after : List Nat} {v : Nat} (gmax : Nat)
    (split : ls.main = before ++ v :: after) :
    LayerOk n (Function.update seg v .none)
      { ls with
        main := after ++ before
        resident := ls.resident - 1
        ghost := trimGhost gmax (ls.ghost ++ [v]) } := by
  have member : v ∈ ls.main := by rw [split]; simp
  obtain ⟨inside, claimed⟩ := (ok.memMain v).mp member
  have nodup : (before ++ v :: after).Nodup := split ▸ ok.mainNodup
  have fresh : v ∉ ls.ghost := fun h => (ok.ghostApart v h).2.2 member
  have notSmall : v ∉ ls.small := not_queued ok.memSmall claimed (by decide)
  have fewer : ∀ e, e ∈ after ++ before ↔ e ∈ ls.main ∧ e ≠ v := by
    rw [split]
    exact fun e => mem_rotated nodup
  have recorded := ok.ghost_record ls.small (after ++ before) gmax inside fresh
    (fun e h => ⟨h, fun equal => notSmall (equal ▸ h)⟩) (fun e => (fewer e).mp)
  refine ⟨ok.smallNodup, rotated_nodup nodup, recorded.1, ?_, ?_, recorded.2, ?_, ?_⟩
  · exact queue_elsewhere ok.memSmall claimed (by decide) (by decide)
  · exact queue_left ok.memMain fewer (by decide)
  · exact ok.pinned_update inside (by rw [claimed]; decide) (by decide)
  · have total := ok.residentEq
    rw [split] at total
    simp only [List.length_append, List.length_cons] at total ⊢
    omega

/-! ## Admission, promotion and pinning -/

theorem dropGhost (ok : LayerOk n seg ls) (e ghostHits : Nat) :
    LayerOk n seg { ls with ghost := ls.ghost.erase e, ghostHits := ghostHits } :=
  { ok with
    ghostNodup := ok.ghostNodup.erase e
    ghostApart := fun g member => ok.ghostApart g (List.mem_of_mem_erase member) }

theorem admitSmall (ok : LayerOk n seg ls) {e : Nat} (inside : e < n) (absent : seg e = .none)
    (fresh : e ∉ ls.ghost) {small : List Nat} (nodup : small.Nodup)
    (members : ∀ k, k ∈ small ↔ k ∈ ls.small ∨ k = e)
    (longer : small.length = ls.small.length + 1) :
    LayerOk n (Function.update seg e .small)
      { ls with small := small, resident := ls.resident + 1 } := by
  refine ⟨nodup, ok.mainNodup, ok.ghostNodup, queue_joined ok.memSmall members inside,
    queue_elsewhere ok.memMain absent (by decide) (by decide), ?_,
    ok.pinned_update inside (by rw [absent]; decide) (by decide), ?_⟩
  · intro g listed
    obtain ⟨bound, small', main⟩ := ok.ghostApart g listed
    have different : g ≠ e := fun equal => fresh (equal ▸ listed)
    exact ⟨bound, by simp [members, small', different], main⟩
  · have total := ok.residentEq
    simp only
    omega

theorem admitMain (ok : LayerOk n seg ls) {e : Nat} (inside : e < n) (absent : seg e = .none)
    (fresh : e ∉ ls.ghost) :
    LayerOk n (Function.update seg e .main)
      { ls with main := ls.main ++ [e], resident := ls.resident + 1 } := by
  refine ⟨ok.smallNodup, nodup_concat ok.mainNodup (ok.not_queued_of_none absent).2,
    ok.ghostNodup, queue_elsewhere ok.memSmall absent (by decide) (by decide),
    queue_joined ok.memMain (by simp) inside, ?_,
    ok.pinned_update inside (by rw [absent]; decide) (by decide), ?_⟩
  · intro g listed
    obtain ⟨bound, small, main⟩ := ok.ghostApart g listed
    have different : g ≠ e := fun equal => fresh (equal ▸ listed)
    exact ⟨bound, small, by simp [main, different]⟩
  · have total := ok.residentEq
    simp only [List.length_append, List.length_singleton]
    omega

/-- Queueing an absent expert, whichever end of whichever queue it goes to. -/
theorem enqueue (ok : LayerOk n seg ls) {e : Nat} (inside : e < n) (absent : seg e = .none)
    (fresh : e ∉ ls.ghost) (origin : Origin) (wasGhost : Bool) :
    LayerOk n (Function.update seg e (ls.enqueue e origin wasGhost).2)
      { (ls.enqueue e origin wasGhost).1 with
        resident := (ls.enqueue e origin wasGhost).1.resident + 1 } := by
  have notSmall := (ok.not_queued_of_none absent).1
  simp only [LayerState.enqueue]
  split
  · exact ok.admitMain inside absent fresh
  · split
    · exact ok.admitSmall inside absent fresh (List.nodup_cons.mpr ⟨notSmall, ok.smallNodup⟩)
        (by simp [or_comm]) (by simp)
    · exact ok.admitSmall inside absent fresh (nodup_concat ok.smallNodup notSmall)
        (by simp) (by simp)

theorem promote (ok : LayerOk n seg ls) {e : Nat} (member : e ∈ ls.small) :
    LayerOk n (Function.update seg e .main)
      { ls with small := ls.small.erase e, main := ls.main ++ [e] } := by
  obtain ⟨inside, claimed⟩ := (ok.memSmall e).mp member
  have notMain : e ∉ ls.main := not_queued ok.memMain claimed (by decide)
  have fewer : ∀ k, k ∈ ls.small.erase e ↔ k ∈ ls.small ∧ k ≠ e :=
    fun k => ok.smallNodup.mem_erase_iff.trans and_comm
  refine ⟨ok.smallNodup.erase e, nodup_concat ok.mainNodup notMain, ok.ghostNodup,
    queue_left ok.memSmall fewer (by decide), queue_joined ok.memMain (by simp) inside, ?_,
    ok.pinned_update inside (by rw [claimed]; decide) (by decide), ?_⟩
  · intro g listed
    obtain ⟨bound, small, main⟩ := ok.ghostApart g listed
    have different : g ≠ e := fun equal => small (equal ▸ member)
    exact ⟨bound, fun h => small (List.mem_of_mem_erase h), by simp [main, different]⟩
  · have total := ok.residentEq
    have shorter := List.length_erase_of_mem member
    have nonempty := List.length_pos_of_mem member
    simp only [List.length_append, List.length_singleton]
    omega

theorem pin (ok : LayerOk n seg ls) {e : Nat} (inside : e < n) (absent : seg e = .none) :
    LayerOk n (Function.update seg e .pinned)
      { ls with pinned := ls.pinned + 1, resident := ls.resident + 1 } := by
  refine ⟨ok.smallNodup, ok.mainNodup, ok.ghostNodup,
    queue_elsewhere ok.memSmall absent (by decide) (by decide),
    queue_elsewhere ok.memMain absent (by decide) (by decide), ok.ghostApart, ?_, ?_⟩
  · have changed := countP_range_update (fun s => decide (s = Seg.pinned)) seg n e .pinned inside
    have before : decide (seg e = Seg.pinned) = false := by rw [absent]; rfl
    simp only [before, Bool.false_eq_true, if_false, decide_true, if_true, add_zero] at changed
    rw [changed, ok.pinnedEq]
  · have total := ok.residentEq
    simp only
    omega

end LayerOk

end MoeStream
