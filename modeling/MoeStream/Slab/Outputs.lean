import MoeStream.Slab.Drops

/-!
# What a remapped layer writes

Whatever the switches, the passes and the reads, every value a remapped call
writes names a slot of the cache or the null expert after the last of them.
-/

set_option autoImplicit false

namespace MoeStream

open Foundation.FixedWidth
open ExpertCache

variable {rt : Runtime} {nExpert : Nat} {s : State} {L : LayerSlabs} {io : Io} {call : Call}

theorem Housed.slot_le {c : ExpertCache} {e : Nat} (housed : Housed rt nExpert c)
    (inside : e < nExpert) (granted : (c.acquire 0 e .demand).2.2 ≠ NO_SLOT) :
    (c.acquire 0 e .demand).2.2 ≤ rt.nSlots := by
  have bound : e < c.cfg.nExpert := by
    rw [housed.experts]
    exact inside
  have small := housed.single.slot_lt bound granted
  rw [housed.slots] at small
  exact Nat.le_of_lt small

def SlotId (rt : Runtime) (v : Int) : Prop := ∃ slot, slot ≤ rt.nSlots ∧ v = i32 slot

structure Writing (rt : Runtime) (nExpert : Nat) (p : Placing) : Prop where
  housed : Housed rt nExpert p.cache
  heldIn : ∀ e ∈ p.held, e < nExpert
  out : ∀ v ∈ p.out, SlotId rt v

/-- One position answers with a slot or the null expert, whichever branch it
takes. -/
theorem Writing.step {p : Placing} (writing : Writing rt nExpert p)
    (zero : rt.zeroSlot = rt.nSlots) (experts : L.gate.nExpert = nExpert) (e : Int) :
    Writing rt nExpert (step rt L call p e) := by
  obtain ⟨housed, held⟩ : Housed rt nExpert (MoeStream.step rt L call p e).cache ∧
      ∀ k ∈ (MoeStream.step rt L call p e).held, k < nExpert :=
    writing.housed.step experts writing.heldIn
  refine ⟨housed, held, ?_⟩
  have answered : ∀ v, SlotId rt v → ∀ w ∈ p.out ++ [v], SlotId rt w := by
    intro v named w member
    rcases List.mem_append.mp member with old | new
    · exact writing.out w old
    · rw [List.mem_singleton.mp new]
      exact named
  have null : SlotId rt (i32 rt.zeroSlot) := ⟨rt.nSlots, Nat.le_refl _, by rw [zero]⟩
  by_cases asks : Asks rt L call e
  · have low := asks.1
    have high := asks.2.1
    have inside : e.toNat < nExpert := by omega
    rw [step_asks asks]
    split
    · exact answered _ null
    · rename_i granted
      split
      · exact answered _ null
      · exact answered _ ⟨_, writing.housed.slot_le inside granted, rfl⟩
  · rw [step_silent asks]
    exact answered _ null

theorem placing_writing (standing : Standing rt nExpert s) (zero : rt.zeroSlot = rt.nSlots)
    (experts : L.gate.nExpert = nExpert) (call : Call) :
    Writing rt nExpert (placing rt L s call) := by
  have prepared := standing.prepare call.il
  have general : ∀ es : List Int,
      Writing rt nExpert (placeAll rt L call (prepare rt s call.il) es) := by
    intro es
    induction es using List.reverseRecOn with
    | nil =>
        refine ⟨prepared.housed call.il, prepared.held _, ?_⟩
        intro v member
        cases member
    | append_singleton es e ih =>
        rw [placeAll_step]
        exact ih.step zero experts e
  exact general call.ids.list

theorem remap_slots (io : Io) (standing : Standing rt nExpert s) (zero : rt.zeroSlot = rt.nSlots)
    (experts : L.gate.nExpert = nExpert) (found : rt.remapped call.il = some L) :
    (∀ v ∈ (remap rt io s call).out, SlotId rt v) ∧
      Standing rt nExpert (remap rt io s call).state := by
  refine ⟨?_, standing.remap io call ?_⟩
  · rw [remap_mapped io found]
    exact (placing_writing standing zero experts call).out
  · intro L' other
    cases found.symm.trans other
    exact experts

end MoeStream
