import MoeStream.Slab.Recorded

/-!
# Reads that make progress

`pread` returns some of the bytes it is asked for as long as the file has them,
so the loop of `do_read` brings the whole of an expert that lies inside its
shard, in however many pieces.
-/

set_option autoImplicit false

namespace MoeStream

open ExpertCache

/-- A `pread` of the `n` bytes of an expert: it brings some of what it is asked
for, and no more. -/
structure Advances (n : Nat) (pread : Nat → Nat → Int) : Prop where
  some : ∀ o left, 0 < left → o + left ≤ n → 0 < pread o left
  most : AtMost pread

theorem Advances.readLoop {n : Nat} {pread : Nat → Nat → Int} (advances : Advances n pread)
    (o left : Nat) (inside : o + left = n) : readLoop pread o left = n := by
  induction left using Nat.strong_induction_on generalizing o with
  | _ left ih =>
      cases left with
      | zero =>
          rw [MoeStream.readLoop]
          exact inside
      | succ left =>
          have some := advances.some o (left + 1) (Nat.succ_pos left) (Nat.le_of_eq inside)
          have most := advances.most o (left + 1)
          simp only [MoeStream.readLoop]
          rw [if_neg (by omega)]
          exact ih (left + 1 - (pread o (left + 1)).toNat) (by omega) _ (by omega)

theorem Advances.whole {shards : Shards} {si : SlabInfo} {pread : Nat → Nat → Int}
    (opened : shards.opened si.fileIdx = true) (advances : Advances si.expertBytes pread) :
    Whole shards si pread :=
  ⟨opened, advances.readLoop 0 si.expertBytes (Nat.zero_add _)⟩

def ReadsInside (shards : Shards) (L : LayerSlabs) (pread : ReadJob → Nat → Nat → Int) : Prop :=
  ∀ job, job.expert < L.gate.nExpert → shards.opened (L.role job.role).fileIdx = true ∧
    Advances (L.role job.role).expertBytes (pread job)

theorem ReadsInside.whole {shards : Shards} {L : LayerSlabs} {pread : ReadJob → Nat → Nat → Int}
    (reads : ReadsInside shards L pread) {job : ReadJob} (inside : job.expert < L.gate.nExpert) :
    Whole shards (L.role job.role) (pread job) :=
  (reads job inside).2.whole (reads job inside).1

theorem allArrive_of_whole {shards : Shards} {il maxb : Nat} {L : LayerSlabs}
    {pread : ReadJob → Nat → Nat → Int} {batches : List (List ReadJob)}
    (whole : ∀ jobs ∈ batches, ∀ job ∈ jobs, Whole shards (L.role job.role) (pread job))
    (mem : Memory) : AllArrive shards il maxb L pread batches mem := by
  induction batches generalizing mem with
  | nil => trivial
  | cons jobs rest ih =>
      refine ⟨?_, ih (fun later member => whole later (List.mem_cons_of_mem _ member)) _⟩
      intro job member i inside
      rw [(whole jobs List.mem_cons_self job member).arrived]
      exact Or.inl inside

variable {rt : Runtime} {nExpert : Nat} {s : State} {io : Io} {call : Call}

/-- Whatever a call reads is an expert of its layer, so it arrives. -/
theorem ReadsInside.arrives (product : Product rt nExpert) (kept : Kept rt nExpert s)
    (recorded : Recorded rt nExpert s) (callFits : CallFits nExpert call)
    (atMost : ∀ job, AtMost (io.pread job))
    (reads : ∀ L, rt.remapped call.il = some L → ReadsInside rt.shards L io.pread) :
    CallArrives rt io s call := by
  intro L found
  have layer := remapped_layer found
  have outcome := remap_outcome product kept recorded callFits found (Io.fits atMost rt.shards L)
  have counted := (kept.remap product io callFits).layer call.il L found
  apply allArrive_of_whole
  intro jobs member job listed
  apply (reads L found).whole
  -- a job is for an expert that was given a seat
  have seated := (outcome.placed.served.dueSeat _ _ (outcome.jobs jobs member job listed)).1
  have seat : ((remap rt io s call).state.cache call.il).table.seat job.expert = some job.slot := by
    rw [(remap_own (s := s) io found callFits.pass).1]
    exact seated
  rw [product.same _ L layer]
  exact (counted.seat_inside seat).1

end MoeStream
