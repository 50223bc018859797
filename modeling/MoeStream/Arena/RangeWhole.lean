import Mathlib.Algebra.Order.BigOperators.Group.List
import Mathlib.Algebra.Order.Group.Nat
import Mathlib.Data.List.Nodup
import MoeStream.Arena.RangeRead

/-!
# The parallel range read against the sequential one

The workers tile the range, so the count that `dense_read_range` returns is the
byte count exactly if no call of `pread` ended a worker early, and then memory
holds the file's bytes whatever order the workers wrote them in.
-/

set_option autoImplicit false

namespace MoeStream

open Foundation.Writes

def readCalls (pread : Nat → Nat → Int) (o : Nat) : Nat → List (Nat × Nat)
  | 0 => []
  | left + 1 =>
      let r := pread o (left + 1)
      (o, left + 1) ::
        if r ≤ 0 then [] else readCalls pread (o + r.toNat) (left + 1 - r.toNat)
  termination_by left => left
  decreasing_by omega

def rangeCalls (pread : Nat → Nat → Int) (nth bytes : Nat) : List (Nat × Nat) :=
  (workers nth bytes).flatMap fun (beg, len) =>
    (readCalls (fun o => pread (beg + o)) 0 len).map fun (o, left) => (beg + o, left)

theorem mem_rangeCalls {pread : Nat → Nat → Int} {nth bytes : Nat} {call : Nat × Nat} :
    call ∈ rangeCalls pread nth bytes ↔
      ∃ beg len o left, (beg, len) ∈ workers nth bytes ∧
        (o, left) ∈ readCalls (fun o => pread (beg + o)) 0 len ∧ call = (beg + o, left) := by
  simp only [rangeCalls, List.mem_flatMap, List.mem_map]
  constructor
  · rintro ⟨⟨beg, len⟩, listed, ⟨o, left⟩, made, rfl⟩
    exact ⟨beg, len, o, left, listed, made, rfl⟩
  · rintro ⟨beg, len, o, left, listed, made, rfl⟩
    exact ⟨(beg, len), listed, (o, left), made, rfl⟩

/-- A read loop reaches its end exactly if every call it makes brings bytes. -/
theorem readLoop_whole_iff {pread : Nat → Nat → Int} (atMost : AtMost pread) (o left : Nat) :
    readLoop pread o left = o + left ↔
      ∀ call ∈ readCalls pread o left, 0 < pread call.1 call.2 := by
  induction left using Nat.strong_induction_on generalizing o with
  | _ left ih =>
      cases left with
      | zero => simp [readLoop, readCalls]
      | succ left =>
          have most := atMost o (left + 1)
          rw [readLoop, readCalls]
          by_cases ended : pread o (left + 1) ≤ 0
          · rw [if_pos ended, if_pos ended, List.forall_mem_singleton]
            dsimp only
            omega
          · rw [if_neg ended, if_neg ended, List.forall_mem_cons, ← ih _ (by omega)]
            dsimp only
            omega

theorem rangeWhole_iff {pread : Nat → Nat → Int} {nth bytes : Nat} (atMost : AtMost pread) :
    RangeWhole pread nth bytes ↔
      ∀ call ∈ rangeCalls pread nth bytes, 0 < pread call.1 call.2 := by
  have worker : ∀ beg len, readLoop (fun o => pread (beg + o)) 0 len = len ↔
      ∀ call ∈ readCalls (fun o => pread (beg + o)) 0 len, 0 < pread (beg + call.1) call.2 := by
    intro beg len
    have loop := readLoop_whole_iff (fun o => atMost (beg + o)) 0 len
    rwa [Nat.zero_add] at loop
  constructor
  · intro whole call made
    obtain ⟨beg, len, o, left, listed, inside, rfl⟩ := mem_rangeCalls.mp made
    exact (worker beg len).mp (whole beg len listed) (o, left) inside
  · intro positive beg len listed
    apply (worker beg len).mpr
    intro call made
    exact positive _ (mem_rangeCalls.mpr ⟨beg, len, call.1, call.2, listed, made, rfl⟩)

/-! ## The ranges tile -/

theorem workersFrom_sum {chunk bytes : Nat} (n beg : Nat) (reached : bytes ≤ beg + n * chunk) :
    ((workersFrom chunk bytes n beg).map Prod.snd).sum = bytes - beg := by
  induction n generalizing beg with
  | zero =>
      rw [Nat.zero_mul] at reached
      exact (Nat.sub_eq_zero_of_le reached).symm
  | succ n ih =>
      rw [Nat.add_mul, Nat.one_mul] at reached
      rw [workersFrom]
      split
      · simp
        omega
      · rw [List.map_cons, List.sum_cons, ih (beg + chunk) (by omega)]
        omega

@[simp] theorem workers_sum (nth bytes : Nat) : ((workers nth bytes).map Prod.snd).sum = bytes := by
  simp only [workers]
  split
  · simp
  · rename_i several
    have cover := chunk_cover bytes (by omega : 1 < nth)
    exact workersFrom_sum nth 0 (by omega)

theorem workersFrom_from {chunk bytes n beg b len : Nat}
    (member : (b, len) ∈ workersFrom chunk bytes n beg) : beg ≤ b := by
  induction n generalizing beg with
  | zero => cases member
  | succ n ih =>
      rw [workersFrom] at member
      split at member
      · cases member
      · rcases List.mem_cons.mp member with same | later
        · cases same
          exact Nat.le_refl _
        · exact Nat.le_trans (Nat.le_add_right beg chunk) (ih later)

/-- The worker `a` ends before the worker `b` begins. -/
def Precedes (a b : Nat × Nat) : Prop := a.1 + a.2 ≤ b.1

theorem workersFrom_pairwise (chunk bytes n beg : Nat) :
    (workersFrom chunk bytes n beg).Pairwise Precedes := by
  induction n generalizing beg with
  | zero => exact List.Pairwise.nil
  | succ n ih =>
      rw [workersFrom]
      split
      · exact List.Pairwise.nil
      · refine List.pairwise_cons.mpr ⟨?_, ih _⟩
        rintro ⟨b, len⟩ later
        have after := workersFrom_from later
        simp only [Precedes]
        omega

theorem workers_pairwise (nth bytes : Nat) : (workers nth bytes).Pairwise Precedes := by
  simp only [workers]
  split
  · exact List.pairwise_singleton _ _
  · exact workersFrom_pairwise _ _ _ _

/-- What the code computes for a buffer stays within a machine word. -/
theorem workers_fit {nth bytes i : Nat} (buffer : bytes + nth ≤ 2 ^ 64) (worker : i < nth) :
    bytes + nth - 1 < 2 ^ 64 ∧ i * ((bytes + nth - 1) / nth) < 2 ^ 64 := by
  have below : bytes + nth - 1 < 2 ^ 64 := by omega
  refine ⟨below, Nat.lt_of_le_of_lt ?_ below⟩
  calc i * ((bytes + nth - 1) / nth)
      ≤ nth * ((bytes + nth - 1) / nth) := Nat.mul_le_mul_right _ (Nat.le_of_lt worker)
    _ ≤ bytes + nth - 1 := Nat.mul_div_le _ _

/-! ## The count -/

section Count

variable {α : Type} {pread : Nat → Nat → Int} (atMost : AtMost pread) (nth bytes : Nat)
  (dst : Nat → α) (byte : Nat → Byte)

theorem denseReadRange_count :
    (denseReadRange pread nth bytes dst byte).2 =
      ((workers nth bytes).map fun w => readLoop (fun o => pread (w.1 + o)) 0 w.2).sum := by
  simp [denseReadRange, workerReads, Function.comp_def]

include atMost in
theorem worker_le (w : Nat × Nat) : readLoop (fun o => pread (w.1 + o)) 0 w.2 ≤ w.2 := by
  have bound := readLoop_le (fun o => atMost (w.1 + o)) 0 w.2
  rwa [Nat.zero_add] at bound

variable {nth bytes} in
theorem denseReadRange_count_whole (whole : RangeWhole pread nth bytes) :
    (denseReadRange pread nth bytes dst byte).2 = bytes := by
  rw [denseReadRange_count]
  conv_rhs => rw [← workers_sum nth bytes]
  congr 1
  apply List.map_congr_left
  rintro ⟨beg, len⟩ listed
  exact whole beg len listed

include atMost in
variable {nth bytes} in
theorem denseReadRange_count_short (short : ¬ RangeWhole pread nth bytes) :
    (denseReadRange pread nth bytes dst byte).2 < bytes := by
  simp only [RangeWhole, not_forall] at short
  obtain ⟨beg, len, listed, early⟩ := short
  rw [denseReadRange_count]
  conv_rhs => rw [← workers_sum nth bytes]
  apply List.sum_lt_sum
  · intro w _
    exact worker_le atMost w
  · exact ⟨(beg, len), listed, Nat.lt_of_le_of_ne (worker_le atMost (beg, len)) early⟩

/-! ## The writes -/

include atMost in
/-- No byte of the destination is written twice, by one worker or by two. -/
theorem denseReadRange_nodup (distinct : Function.Injective dst) :
    ((denseReadRange pread nth bytes dst byte).1.map Prod.fst).Nodup := by
  have cells : (denseReadRange pread nth bytes dst byte).1.map Prod.fst =
      (workers nth bytes).flatMap fun w =>
        (List.range (readLoop (fun o => pread (w.1 + o)) 0 w.2)).map fun o => dst (w.1 + o) := by
    simp [denseReadRange, workerReads, region, List.map_flatMap, List.flatMap_map,
      Function.comp_def]
  rw [cells, List.nodup_flatMap]
  constructor
  · intro w _
    apply List.Nodup.map _ List.nodup_range
    intro o o' same
    exact Nat.add_left_cancel (distinct same)
  · refine (workers_pairwise nth bytes).imp ?_
    intro a b before cell first second
    obtain ⟨o, inside, rfl⟩ := List.mem_map.mp first
    obtain ⟨o', -, same⟩ := List.mem_map.mp second
    have bound := worker_le atMost a
    have place := distinct same
    rw [List.mem_range] at inside
    simp only [Precedes] at before
    omega

end Count

/-- The range read of `bytes` bytes at `off` to the addresses from `dst` on: it
writes file bytes of the range only, each once.  It returns `bytes` if every
call of `pread` brought something, and then, whatever the order of the writes,
memory holds the range at `dst` and what it held elsewhere.  If some call
returned zero or an error, it returns less. -/
theorem denseReadRange_equals_sequential (pread : Nat → Nat → Int) (nth bytes dst off : Nat)
    (file : Nat → Byte) (atMost : AtMost pread) :
    let result := denseReadRange pread nth bytes (dst + ·) fun x => file (off + x)
    (∀ write ∈ result.1, ∃ x, x < bytes ∧ write = (dst + x, file (off + x))) ∧
      (result.1.map Prod.fst).Nodup ∧
      ((∀ call ∈ rangeCalls pread nth bytes, 0 < pread call.1 call.2) →
        result.2 = bytes ∧
          ∀ writes, writes.Perm result.1 → ∀ (mem : Nat → Byte) (a : Nat),
            applyWrites mem writes a =
              if dst ≤ a ∧ a < dst + bytes then file (off + (a - dst)) else mem a) ∧
      ((∃ call ∈ rangeCalls pread nth bytes, pread call.1 call.2 ≤ 0) → result.2 < bytes) := by
  intro result
  have distinct : Function.Injective (dst + ·) := fun _ _ same => Nat.add_left_cancel same
  refine ⟨?_, denseReadRange_nodup atMost nth bytes _ _ distinct, ?_, ?_⟩
  · rintro ⟨cell, v⟩ written
    obtain ⟨x, arrives, rfl, rfl⟩ := mem_denseReadRange_arrives.mp written
    exact ⟨x, arrives.inside atMost, rfl⟩
  · intro positive
    have whole := (rangeWhole_iff atMost).mpr positive
    refine ⟨denseReadRange_count_whole _ _ whole, ?_⟩
    intro writes order mem a
    have written : ∀ v, (a, v) ∈ writes ↔ ∃ x, x < bytes ∧ a = dst + x ∧ v = file (off + x) :=
      fun v => order.mem_iff.trans (mem_denseReadRange whole)
    split
    · rename_i inside
      have place : a = dst + (a - dst) := by omega
      apply applyWrites_eq mem writes ((written _).mpr ⟨a - dst, by omega, place, rfl⟩)
      intro v other
      obtain ⟨x, -, same, rfl⟩ := (written v).mp other
      rw [same, Nat.add_sub_cancel_left]
    · apply applyWrites_other
      intro v other
      obtain ⟨x, below, same, -⟩ := (written v).mp other
      omega
  · rintro ⟨call, made, ended⟩
    apply denseReadRange_count_short atMost
    intro whole
    have brought := (rangeWhole_iff atMost).mp whole call made
    omega

/-- Three workers for five bytes, each call bringing one byte; and nothing but
the end of the file. -/
theorem denseReadRange_equals_sequential_instance :
    (denseReadRange (fun _ left => if left = 0 then 0 else 1) 3 5 (10 + ·)
        fun x => UInt8.ofNat (7 + x)).2 = 5 ∧
      (denseReadRange (fun _ _ => 0) 3 5 (10 + ·) fun x => UInt8.ofNat (7 + x)).2 < 5 := by
  have single : AtMost fun _ left => if left = 0 then 0 else 1 := by
    intro o left
    dsimp only
    split <;> omega
  have ended : AtMost fun _ _ => 0 := fun _ left => Int.natCast_nonneg left
  refine ⟨?_, ?_⟩
  · apply ((denseReadRange_equals_sequential _ 3 5 10 7 UInt8.ofNat single).2.2.1 ?_).1
    simp [rangeCalls, workers, workersFrom, readCalls]
  · apply (denseReadRange_equals_sequential _ 3 5 10 7 UInt8.ofNat ended).2.2.2
    exact ⟨(0, 2), by simp [rangeCalls, workers, workersFrom, readCalls], Int.le_refl 0⟩

end MoeStream
