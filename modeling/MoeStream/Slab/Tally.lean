import MoeStream.Slab.Drops

/-!
# The references of a layer

However a call ends, its layer has no more references than it holds, so the next
call starts with nobody in use.  As long as the experts that may be held are no
more than the slots, none of them is refused.
-/

set_option autoImplicit false

namespace MoeStream

open Foundation.FixedWidth
open ExpertCache

variable {rt : Runtime} {nExpert : Nat} {s : State} {L : LayerSlabs} {call : Call} {p : Placing}
  {es : Finset Nat} {e : Int}

/-! ## The positions of a call -/

/-- The loop over the positions, as far as the references go: they belong to
members of `es`. -/
structure Tallied (rt : Runtime) (nExpert : Nat) (es : Finset Nat) (p : Placing) : Prop where
  housed : Housed rt nExpert p.cache
  refs : ∀ k, p.cache.table.refs k ≤ p.held.count k
  heldIn : ∀ k ∈ p.held, k < nExpert ∧ k ∈ es

theorem Tallied.step (tallied : Tallied rt nExpert es p) (experts : L.gate.nExpert = nExpert)
    (kept : (call.il : Int) < rt.dropFrom) (asked : Asks rt L call e → e.toNat ∈ es) :
    Tallied rt nExpert es (step rt L call p e) := by
  have housed : Housed rt nExpert (MoeStream.step rt L call p e).cache :=
    (tallied.housed.step experts fun k member => (tallied.heldIn k member).1).1
  suffices rest : (∀ k, (MoeStream.step rt L call p e).cache.table.refs k ≤
      (MoeStream.step rt L call p e).held.count k) ∧
      ∀ k ∈ (MoeStream.step rt L call p e).held, k < nExpert ∧ k ∈ es from
    ⟨housed, rest.1, rest.2⟩
  by_cases asks : Asks rt L call e
  · have low := asks.1
    have high := asks.2.1
    have single := tallied.housed.single
    have inside : e.toNat < p.cache.cfg.nExpert := by
      rw [tallied.housed.experts]
      omega
    have undropped : ¬rt.dropFrom ≤ (call.il : Int) := by omega
    rw [step_asks asks]
    split
    · -- a refusal takes no reference and holds nothing
      rename_i refused
      refine ⟨?_, tallied.heldIn⟩
      dsimp only
      rw [single.refused_table inside refused]
      exact tallied.refs
    · rw [if_neg fun dropped => undropped dropped.2]
      have requested := (single.ok.acquire single.layer inside .demand).1
      obtain ⟨-, -, -, table⟩ := (single.acquire inside .demand).settle
        (by rw [requested.cfg]; exact inside) (p.cache.acquire 0 e.toNat .demand).2.1 L.bytes
      constructor
      · intro k
        have taken := single.acquire_refs_le inside .demand k
        have before := tallied.refs k
        -- the reference that is taken is the one that is held
        dsimp only
        rw [table, List.count_append, List.count_singleton]
        by_cases own : k = e.toNat
        · subst own
          simp only [if_true, beq_self_eq_true] at taken ⊢
          omega
        · rw [if_neg own] at taken
          omega
      · intro k listed
        rcases List.mem_append.mp listed with old | new
        · exact tallied.heldIn k old
        · rw [List.mem_singleton.mp new]
          exact ⟨by omega, asked asks⟩
  · rw [step_silent asks]
    exact ⟨tallied.refs, tallied.heldIn⟩

/-- A position is served when no more experts may be held than there are slots. -/
theorem Tallied.served (tallied : Tallied rt nExpert es p) (experts : L.gate.nExpert = nExpert)
    (kept : (call.il : Int) < rt.dropFrom) (few : es.card ≤ rt.nSlots)
    (asks : Asks rt L call e) (member : e.toNat ∈ es) :
    (MoeStream.step rt L call p e).exhausted = p.exhausted ∧
      ∃ slot, slot < rt.nSlots ∧
        (MoeStream.step rt L call p e).out = p.out ++ [i32 slot] := by
  have low := asks.1
  have high := asks.2.1
  have single := tallied.housed.single
  have inside : e.toNat < p.cache.cfg.nExpert := by
    rw [tallied.housed.experts]
    omega
  have inUse : ∀ k, 0 < p.cache.table.refs k → k ∈ es := by
    intro k used
    have most := tallied.refs k
    exact (tallied.heldIn k (List.count_pos_iff.mp (by omega))).2
  have admits : Origin.demand ≠ .sweep := by decide
  have granted := single.not_refused (by rw [tallied.housed.slots]; exact few) inUse member inside
    admits
  have small := single.slot_lt inside granted
  rw [tallied.housed.slots] at small
  have undropped : ¬rt.dropFrom ≤ (call.il : Int) := by omega
  rw [step_asks asks, if_neg granted, if_neg fun dropped => undropped dropped.2]
  exact ⟨rfl, _, small, rfl⟩

theorem Counted.tallied (counted : Counted rt nExpert s call.il)
    (experts : L.gate.nExpert = nExpert) (kept : (call.il : Int) < rt.dropFrom)
    (pass : call.pass < 8) (ks : List Int)
    (asked : ∀ k ∈ ks, Asks rt L call k → k.toNat ∈ es) :
    Tallied rt nExpert es (placeAll rt L call (prepare rt s call.il) ks) := by
  induction ks using List.reverseRecOn with
  | nil =>
      have released := counted.released
      have empty : (placeAll rt L call (prepare rt s call.il) []).held = [] :=
        prepare_held rt s pass
      refine ⟨⟨released.single, released.experts, released.slots⟩, ?_, ?_⟩
      · intro k
        exact (Nat.le_of_eq (released.idle k)).trans (Nat.zero_le _)
      · intro k listed
        rw [empty] at listed
        cases listed
  | append_singleton ks k ih =>
      rw [placeAll_step]
      apply (ih fun k' member => asked k' (List.mem_append_left _ member)).step experts kept
      exact asked k (List.mem_append_right _ (List.mem_singleton.mpr rfl))

@[simp] theorem prepare_exhausted (rt : Runtime) (s : State) (il : Nat) :
    (prepare rt s il).exhausted = s.exhausted := by
  simp only [prepare, releaseHeld, ensureZeroSlot]
  split <;> rfl

/-- No position is refused when the experts asked for are no more than the slots. -/
theorem Counted.unrefused (counted : Counted rt nExpert s call.il)
    (experts : L.gate.nExpert = nExpert) (kept : (call.il : Int) < rt.dropFrom)
    (pass : call.pass < 8) (few : es.card ≤ rt.nSlots) (ks : List Int)
    (asked : ∀ k ∈ ks, Asks rt L call k → k.toNat ∈ es) :
    (placeAll rt L call (prepare rt s call.il) ks).exhausted = s.exhausted := by
  induction ks using List.reverseRecOn with
  | nil => exact prepare_exhausted rt s call.il
  | append_singleton ks k ih =>
      have earlier : ∀ k' ∈ ks, Asks rt L call k' → k'.toNat ∈ es :=
        fun k' member => asked k' (List.mem_append_left _ member)
      have tallied := counted.tallied experts kept pass ks earlier
      rw [placeAll_step]
      by_cases asks : Asks rt L call k
      · have member := asked k (List.mem_append_right _ (List.mem_singleton.mpr rfl)) asks
        exact ((tallied.served experts kept few asks member).1).trans (ih earlier)
      · rw [step_silent asks]
        exact ih earlier

/-! ## Calls -/

theorem Counted.start (shaped : Shaped rt nExpert) (mem : Memory) (il : Nat) :
    Counted rt nExpert (State.start rt nExpert mem) il := by
  have slots : 1 ≤ rt.nSlots ∧ rt.nSlots < 2 ^ 32 := ⟨shaped.positive, shaped.slots⟩
  have housed := (Standing.start slots shaped.experts mem).housed il
  refine ⟨housed.single, housed.experts, housed.slots, ?_, fun k listed => nomatch listed⟩
  intro k
  have unused : (init (cacheConfig nExpert rt.nSlots)).table.refs k = 0 := by
    simp only [table, below]
    split <;> rfl
  exact (Nat.le_of_eq unused).trans (Nat.zero_le _)

/-- A call keeps the references of a layer counted, whichever layer it is for. -/
theorem Counted.remap {il : Nat} (counted : Counted rt nExpert s il) (io : Io)
    (found : rt.remapped il = some L) (experts : L.gate.nExpert = nExpert)
    (kept : (il : Int) < rt.dropFrom) (pass : call.pass < 8) :
    Counted rt nExpert (remap rt io s call).state il := by
  cases mapped : rt.remapped call.il with
  | none =>
      rw [remap_unmapped io mapped]
      exact counted
  | some L' =>
      by_cases own : il = call.il
      · subst own
        cases found.symm.trans mapped
        obtain ⟨cache, held, -⟩ := remap_own (s := s) io found pass
        have tallied :
            Tallied rt nExpert (Finset.range nExpert) (MoeStream.placing rt L s call) := by
          apply counted.tallied experts kept pass
          rintro k - ⟨low, high, -⟩
          exact Finset.mem_range.mpr (by omega)
        refine ⟨?_, ?_, ?_, ?_, ?_⟩
        · rw [cache]
          exact tallied.housed.single
        · rw [cache]
          exact tallied.housed.experts
        · rw [cache]
          exact tallied.housed.slots
        · rw [cache, held]
          exact tallied.refs
        · rw [held]
          exact fun k listed => (tallied.heldIn k listed).1
      · obtain ⟨cache, held⟩ := remap_other (s := s) io mapped pass own
        refine ⟨?_, ?_, ?_, ?_, ?_⟩
        · rw [cache]
          exact counted.single
        · rw [cache]
          exact counted.experts
        · rw [cache]
          exact counted.slots
        · rw [cache, held]
          exact counted.refs
        · rw [held]
          exact counted.heldIn

theorem Counted.remaps {il : Nat} (counted : Counted rt nExpert s il)
    (found : rt.remapped il = some L) (experts : L.gate.nExpert = nExpert)
    (kept : (il : Int) < rt.dropFrom) (calls : List (Io × Call))
    (eight : ∀ c ∈ calls, c.2.pass < 8) : Counted rt nExpert (remaps rt s calls) il := by
  induction calls generalizing s with
  | nil => exact counted
  | cons first rest ih =>
      apply ih (counted.remap first.1 found experts kept (eight first List.mem_cons_self))
      exact fun c member => eight c (List.mem_cons_of_mem first member)

end MoeStream
