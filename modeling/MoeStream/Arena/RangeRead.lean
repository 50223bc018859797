import Mathlib.Algebra.GroupWithZero.Nat
import MoeStream.Slab.Reads

/-!
# The parallel range read

Embedding of `dense_read_range`: one large contiguous read, split evenly over
the worker threads.
-/

set_option autoImplicit false

namespace MoeStream

open Foundation.Writes

/-- The ranges of up to `n` workers from `beg` on, each `(beg, len)`. -/
def workersFrom (chunk bytes : Nat) : Nat → Nat → List (Nat × Nat)
  | 0, _ => []
  | n + 1, beg =>
      if bytes ≤ beg then []
      else (beg, min chunk (bytes - beg)) :: workersFrom chunk bytes n (beg + chunk)

def workers (nth bytes : Nat) : List (Nat × Nat) :=
  if nth ≤ 1 then [(0, bytes)] else workersFrom ((bytes + nth - 1) / nth) bytes nth 0

/-- How far each worker gets; `pread o left` is what one call at `o` returns. -/
def workerReads (pread : Nat → Nat → Int) (nth bytes : Nat) : List (Nat × Nat) :=
  (workers nth bytes).map fun (beg, len) => (beg, readLoop (fun o => pread (beg + o)) 0 len)

/-- `dense_read_range`: the bytes written, and the count returned. -/
def denseReadRange {α : Type} (pread : Nat → Nat → Int) (nth bytes : Nat) (dst : Nat → α)
    (byte : Nat → Byte) : List (α × Byte) × Nat :=
  ((workerReads pread nth bytes).flatMap fun (beg, got) =>
      region (fun o => dst (beg + o)) got fun o => byte (beg + o),
    ((workerReads pread nth bytes).map Prod.snd).sum)

/-! ## The ranges -/

theorem workersFrom_cover {chunk bytes x : Nat} (n beg : Nat) (low : beg ≤ x) (below : x < bytes)
    (reached : x < beg + n * chunk) :
    ∃ b len, (b, len) ∈ workersFrom chunk bytes n beg ∧ b ≤ x ∧ x < b + len := by
  induction n generalizing beg with
  | zero => omega
  | succ n ih =>
      simp only [workersFrom]
      rw [if_neg (by omega)]
      by_cases own : x < beg + chunk
      · exact ⟨beg, _, List.mem_cons_self, low, by omega⟩
      · rw [Nat.add_mul, Nat.one_mul] at reached
        obtain ⟨b, len, member, inside⟩ := ih (beg + chunk) (by omega) (by omega)
        exact ⟨b, len, List.mem_cons_of_mem _ member, inside⟩

theorem workersFrom_inside {chunk bytes : Nat} {n beg b len : Nat}
    (member : (b, len) ∈ workersFrom chunk bytes n beg) : b + len ≤ bytes := by
  induction n generalizing beg with
  | zero => cases member
  | succ n ih =>
      simp only [workersFrom] at member
      split at member
      · cases member
      · rcases List.mem_cons.mp member with same | later
        · cases same
          omega
        · exact ih later

theorem chunk_cover {nth : Nat} (bytes : Nat) (several : 1 < nth) :
    bytes ≤ nth * ((bytes + nth - 1) / nth) := by
  have split := Nat.div_add_mod (bytes + nth - 1) nth
  have rest := Nat.mod_lt (bytes + nth - 1) (by omega : 0 < nth)
  omega

theorem workers_cover (nth : Nat) {bytes x : Nat} (below : x < bytes) :
    ∃ b len, (b, len) ∈ workers nth bytes ∧ b ≤ x ∧ x < b + len := by
  simp only [workers]
  split
  · exact ⟨0, bytes, List.mem_cons_self, Nat.zero_le x, by omega⟩
  · rename_i several
    have cover := chunk_cover bytes (by omega : 1 < nth)
    exact workersFrom_cover nth 0 (Nat.zero_le x) below (by omega)

theorem workers_inside {nth bytes b len : Nat} (member : (b, len) ∈ workers nth bytes) :
    b + len ≤ bytes := by
  simp only [workers] at member
  split at member
  · cases List.mem_singleton.mp member
    omega
  · exact workersFrom_inside member

/-! ## What arrives -/

/-- Byte `x` of the range is brought by its worker. -/
def RangeArrives (pread : Nat → Nat → Int) (nth bytes x : Nat) : Prop :=
  ∃ beg len, (beg, len) ∈ workers nth bytes ∧ beg ≤ x ∧
    x < beg + readLoop (fun o => pread (beg + o)) 0 len

theorem RangeArrives.inside {pread : Nat → Nat → Int} {nth bytes x : Nat} (atMost : AtMost pread)
    (arrives : RangeArrives pread nth bytes x) : x < bytes := by
  obtain ⟨beg, len, listed, -, reached⟩ := arrives
  have shifted : AtMost fun o => pread (beg + o) := fun o => atMost (beg + o)
  have most := readLoop_le shifted 0 len
  have fits := workers_inside listed
  omega

theorem mem_denseReadRange_arrives {α : Type} {pread : Nat → Nat → Int} {nth bytes : Nat}
    {dst : Nat → α} {byte : Nat → Byte} {cell : α} {v : Byte} :
    (cell, v) ∈ (denseReadRange pread nth bytes dst byte).1 ↔
      ∃ x, RangeArrives pread nth bytes x ∧ cell = dst x ∧ v = byte x := by
  unfold denseReadRange workerReads
  rw [List.mem_flatMap]
  constructor
  · rintro ⟨⟨beg, got⟩, member, written⟩
    obtain ⟨⟨beg', len⟩, listed, pair⟩ := List.mem_map.mp member
    cases pair
    obtain ⟨o, inside, place, value⟩ := mem_region.mp written
    exact ⟨beg + o, ⟨beg, len, listed, by omega, by omega⟩, place, value⟩
  · rintro ⟨x, ⟨beg, len, listed, low, high⟩, place, value⟩
    refine ⟨(beg, _), List.mem_map.mpr ⟨(beg, len), listed, rfl⟩, ?_⟩
    apply mem_region.mpr
    refine ⟨x - beg, by omega, ?_, ?_⟩
    · rw [place, Nat.add_sub_cancel' low]
    · rw [value, Nat.add_sub_cancel' low]

def RangeWhole (pread : Nat → Nat → Int) (nth bytes : Nat) : Prop :=
  ∀ beg len, (beg, len) ∈ workers nth bytes → readLoop (fun o => pread (beg + o)) 0 len = len

theorem RangeWhole.arrives_iff {pread : Nat → Nat → Int} {nth bytes : Nat}
    (whole : RangeWhole pread nth bytes) {x : Nat} :
    RangeArrives pread nth bytes x ↔ x < bytes := by
  constructor
  · rintro ⟨beg, len, listed, -, reached⟩
    rw [whole beg len listed] at reached
    have fits := workers_inside listed
    omega
  · intro below
    obtain ⟨beg, len, listed, low, high⟩ := workers_cover nth below
    refine ⟨beg, len, listed, low, ?_⟩
    rw [whole beg len listed]
    exact high

theorem mem_denseReadRange {α : Type} {pread : Nat → Nat → Int} {nth bytes : Nat}
    {dst : Nat → α} {byte : Nat → Byte} (whole : RangeWhole pread nth bytes) {cell : α} {v : Byte} :
    (cell, v) ∈ (denseReadRange pread nth bytes dst byte).1 ↔
      ∃ x, x < bytes ∧ cell = dst x ∧ v = byte x := by
  simp only [mem_denseReadRange_arrives, whole.arrives_iff]

end MoeStream
