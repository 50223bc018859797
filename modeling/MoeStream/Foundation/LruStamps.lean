import MoeStream.Foundation.LruStack

/-!
# A least recently used cache kept by timestamps

A table of timestamps, zero for a key that is not held, is the least recently
used cache of the keys it holds: a hit renews a stamp, and the key to give up is
the one with the smallest.
-/

set_option autoImplicit false

namespace MoeStream.Foundation.LruStack

variable {κ : Type} [DecidableEq κ] {keys s : List κ} {last : κ → Nat} {clock top c : Nat}
  {k v first : κ}

/-! ## The oldest key -/

/-- The first key with the smallest stamp that is not zero and below `top`. -/
def oldest (top : Nat) (keys : List κ) (last : κ → Nat) (first : κ) : κ :=
  (keys.foldl (fun best x => if last x ≠ 0 ∧ last x < best.1 then (last x, x) else best)
    (top, first)).2

theorem oldest_eq (member : v ∈ keys) (held : last v ≠ 0) (below : last v < top)
    (least : ∀ x ∈ keys, x ≠ v → last x ≠ 0 → last v < last x) :
    oldest top keys last first = v := by
  -- once `v` is the best it stays the best
  have settled : ∀ rest : List κ, (∀ x ∈ rest, x ≠ v → last x ≠ 0 → last v < last x) →
      rest.foldl (fun best x => if last x ≠ 0 ∧ last x < best.1 then (last x, x) else best)
        (last v, v) = (last v, v) := by
    intro rest
    induction rest with
    | nil => exact fun _ => rfl
    | cons x rest ih =>
        intro least
        rw [List.foldl_cons, if_neg]
        · exact ih fun y listed => least y (List.mem_cons_of_mem x listed)
        · rintro ⟨some, less⟩
          by_cases own : x = v
          · rw [own] at less
            exact Nat.lt_irrefl _ less
          · have more := least x List.mem_cons_self own some
            omega
  simp only [oldest]
  induction keys generalizing top first with
  | nil => cases member
  | cons x rest ih =>
      have later := fun y listed => least y (List.mem_cons_of_mem x listed)
      rw [List.foldl_cons]
      by_cases own : x = v
      · subst own
        rw [if_pos ⟨held, below⟩, settled rest later]
      · have listed := (List.mem_cons.mp member).resolve_left (Ne.symm own)
        split
        · rename_i better
          exact ih listed (least x List.mem_cons_self own better.1) later
        · exact ih listed below later

omit [DecidableEq κ] in
theorem Stamped.mono {later : Nat} (stamped : Stamped keys last clock s) (le : clock ≤ later) :
    Stamped keys last later s :=
  ⟨stamped.listed, stamped.present, stamped.order, fun k => Nat.le_trans (stamped.bound k) le⟩

theorem Stamped.oldest (stamped : Stamped keys last clock (s ++ [v])) (room : clock < top) :
    LruStack.oldest top keys last first = v := by
  have held : last v ≠ 0 :=
    (stamped.present v).mp (List.mem_append_right s (List.mem_singleton.mpr rfl))
  apply oldest_eq (stamped.listed v (List.mem_append_right s (List.mem_singleton.mpr rfl))) held
    (Nat.lt_of_le_of_lt (stamped.bound v) room)
  intro x _ other some
  rcases List.mem_append.mp ((stamped.present x).mpr some) with newer | same
  · exact (List.pairwise_append.mp stamped.order).2.2 x newer v (List.mem_singleton.mpr rfl)
  · exact absurd (List.mem_singleton.mp same) other

theorem Stamped.evict (stamped : Stamped keys last clock (s ++ [v])) :
    Stamped keys (Function.update last v 0) clock s := by
  have orders := List.pairwise_append.mp stamped.order
  have apart : ∀ x ∈ s, x ≠ v := by
    rintro x newer rfl
    exact Nat.lt_irrefl _ (orders.2.2 x newer x (List.mem_singleton.mpr rfl))
  refine ⟨fun x listed => stamped.listed x (List.mem_append_left _ listed), ?_, ?_, ?_⟩
  · intro x
    by_cases own : x = v
    · subst own
      rw [Function.update_self]
      exact iff_of_false (fun listed => apart x listed rfl) (not_not.mpr rfl)
    · rw [Function.update_of_ne own, ← stamped.present, List.mem_append, List.mem_singleton]
      exact ⟨Or.inl, fun either => either.resolve_right own⟩
  · apply orders.1.imp_of_mem
    intro x y first second newer
    rw [Function.update_of_ne (apart x first), Function.update_of_ne (apart y second)]
    exact newer
  · intro x
    by_cases own : x = v
    · rw [own, Function.update_self]
      exact Nat.zero_le _
    · rw [Function.update_of_ne own]
      exact stamped.bound x

/-! ## The table -/

structure Table (κ : Type) where
  last : κ → Nat
  held : Nat

/-- One access at the next tick of a table for `c` keys. -/
def Table.access (c top : Nat) (keys : List κ) (first : κ) (clock : Nat) (t : Table κ) (k : κ) :
    Table κ :=
  if t.last k ≠ 0 then { t with last := Function.update t.last k (clock + 1) }
  else if c ≤ t.held then
    { last := Function.update (Function.update t.last (oldest top keys t.last first) 0) k (clock + 1)
      held := t.held - 1 + 1 }
  else { last := Function.update t.last k (clock + 1), held := t.held + 1 }

/-- The table holds the keys of the cache `s`. -/
structure Holds (c : Nat) (keys : List κ) (t : Table κ) (clock : Nat) (s : List κ) : Prop where
  stamped : Stamped keys t.last clock s
  held : t.held = s.length
  fits : s.length ≤ c

variable {t : Table κ}

omit [DecidableEq κ] in
theorem Holds.start (c : Nat) (keys : List κ) : Holds c keys ⟨fun _ => 0, 0⟩ 0 [] :=
  ⟨Stamped.start, rfl, Nat.zero_le c⟩

omit [DecidableEq κ] in
theorem Holds.mono {later : Nat} (holds : Holds c keys t clock s) (le : clock ≤ later) :
    Holds c keys t later s :=
  ⟨holds.stamped.mono le, holds.held, holds.fits⟩

theorem Holds.access (holds : Holds c keys t clock s) (some : 0 < c) (member : k ∈ keys)
    (room : clock < top) :
    Holds c keys (t.access c top keys first clock k) (clock + 1) (access c s k) := by
  have stamped := holds.stamped
  simp only [Table.access, LruStack.access]
  by_cases found : k ∈ s
  · rw [if_pos ((stamped.present k).mp found), if_pos found]
    have same : (k :: s.erase k).length = s.length := by
      rw [List.length_cons, List.length_erase_of_mem found]
      exact Nat.sub_add_cancel (List.length_pos_of_mem found)
    exact ⟨stamped.push member, holds.held.trans same.symm, same ▸ holds.fits⟩
  · have absent : ¬t.last k ≠ 0 := fun stamp => found ((stamped.present k).mpr stamp)
    have fresh : ∀ front : List κ, k ∉ front → push front k = k :: front := fun front missing => by
      simp only [push]
      rw [List.erase_of_not_mem missing]
    rw [if_neg absent, if_neg found, holds.held]
    by_cases full : c ≤ s.length
    · -- the last key of a full cache gives way
      have exact : s.length = c := Nat.le_antisymm holds.fits full
      have nonempty : s ≠ [] := List.ne_nil_of_length_pos (by omega)
      have split := List.dropLast_append_getLast nonempty
      have missing : k ∉ s.dropLast := fun listed => found (List.mem_of_mem_dropLast listed)
      have length : s.dropLast.length = c - 1 := by rw [List.length_dropLast, exact]
      have kept : (k :: s).take c = k :: s.dropLast := by
        obtain ⟨n, rfl⟩ : ∃ n, c = n + 1 := ⟨c - 1, by omega⟩
        rw [List.take_succ_cons, List.dropLast_eq_take, exact]
        rfl
      have ordered := stamped
      rw [← split] at ordered
      have evicted := ordered.evict.push (k := k) member
      rw [fresh _ missing] at evicted
      rw [if_pos full, kept, ordered.oldest room]
      refine ⟨evicted, ?_, ?_⟩
      · rw [List.length_cons, length, exact]
      · rw [List.length_cons, length]
        omega
    · have kept : (k :: s).take c = k :: s :=
        List.take_of_length_le (by rw [List.length_cons]; omega)
      have pushed := stamped.push member
      rw [fresh s found] at pushed
      rw [if_neg full, kept]
      refine ⟨pushed, rfl, ?_⟩
      rw [List.length_cons]
      omega

end MoeStream.Foundation.LruStack
