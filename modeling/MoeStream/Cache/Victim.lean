import MoeStream.Cache.Runs

/-!
# The victim of an eviction

`evict_one` as a function of the queues: which entry it gives up, what it spends
on the way, and the exact state it leaves.
-/

set_option autoImplicit false

namespace MoeStream

open Foundation.RotatingScan

namespace ExpertCache

variable {c : ExpertCache} {l : Nat}

/-- The entries once the idle ones of `es` have lost a unit of frequency. -/
def cooled (c : ExpertCache) (l : Nat) (es : List Nat) : Nat → Entry := fun i =>
  if (∃ e ∈ es, i = c.idx l e) ∧ (c.ent i).rc = 0 then
    { c.ent i with freq := (c.ent i).freq - 1 }
  else c.ent i

/-- The cache once `v` of layer `l` is evicted from entries `ent`, with `small`
and `main` left in the queues. -/
def evicted (c : ExpertCache) (l v : Nat) (small main : List Nat) (ent : Nat → Entry) :
    ExpertCache :=
  { c with
    ent := Function.update ent (c.idx l v) (evictedEntry (ent (c.idx l v)))
    slot := Function.update c.slot (c.idx l v) NO_SLOT
    lay := Function.update c.lay l
      { c.lay l with
        small := small
        main := main
        resident := (c.lay l).resident - 1
        ghost := ((c.lay l).ghost ++ [v]).drop
          ((c.lay l).ghost.length + 1 - c.quota l * c.cfg.ghostMult) }
    free := (c.entry l v).slot :: c.free
    st := { c.st with evict := c.st.evict + 1 } }

theorem cooled_of_chilled {es : List Nat} {final : Nat → Entry}
    (chilled : Chilled (c.idx l) es c.ent final) : final = c.cooled l es := by
  funext i
  simp only [cooled]
  by_cases seen : ∃ e ∈ es, i = c.idx l e
  · obtain ⟨e, member, rfl⟩ := seen
    rw [chilled.visited e member]
    by_cases idle : (c.ent (c.idx l e)).rc = 0
    · rw [if_neg (by omega), if_pos ⟨⟨e, member, rfl⟩, idle⟩]
    · rw [if_pos (Nat.pos_of_ne_zero idle), if_neg fun both => idle both.2]
  · rw [if_neg fun both => seen both.1]
    exact chilled.others i fun e member same => seen ⟨e, member, same⟩

theorem evictEntry_evicted {v : Nat} {small main : List Nat} {ent : Nat → Entry}
    (slot : (ent (c.idx l v)).slot = (c.entry l v).slot) :
    (({ c with ent := ent } : ExpertCache).setLayer l
      { c.lay l with small := small, main := main }).evictEntry l v =
        c.evicted l v small main ent := by
  have long : ((c.lay l).ghost ++ [v]).length = (c.lay l).ghost.length + 1 := by
    rw [List.length_append, List.length_singleton]
  rw [evictEntry_eq, trimGhost_eq_drop, long]
  simp only [evicted, replaced]
  simp only [entry, idx] at slot ⊢
  rw [slot]
  rfl

/-- What `evict_one` does, for each shape of the queues. -/
structure Evicting (c : ExpertCache) (l : Nat) : Prop where
  small : ∀ before v after, (c.lay l).small = before ++ v :: after →
    (∀ e ∈ before, (c.entry l e).rc ≠ 0) → (c.entry l v).rc = 0 →
      c.evictOne l = (c.evicted l v (after ++ before) (c.lay l).main c.ent, true)
  cold : (∀ e ∈ (c.lay l).small, (c.entry l e).rc ≠ 0) → ∀ before v after,
    (c.lay l).main = before ++ v :: after →
    (∀ e ∈ before, ¬((c.entry l e).rc = 0 ∧ (c.entry l e).freq ≤ 1)) →
    (c.entry l v).rc = 0 → (c.entry l v).freq ≤ 1 →
      c.evictOne l =
        (c.evicted l v (c.lay l).small (after ++ before) (c.cooled l before), true)
  warm : (∀ e ∈ (c.lay l).small, (c.entry l e).rc ≠ 0) →
    (∀ e ∈ (c.lay l).main, (c.entry l e).rc = 0 → 1 < (c.entry l e).freq) →
    ∀ before v after, (c.lay l).main = before ++ v :: after →
    (∀ e ∈ before, (c.entry l e).rc ≠ 0) → (c.entry l v).rc = 0 →
      c.evictOne l =
        (c.evicted l v (c.lay l).small (after ++ before) (c.cooled l (c.lay l).main), true)
  busy : (∀ e ∈ (c.lay l).small, (c.entry l e).rc ≠ 0) →
    (∀ e ∈ (c.lay l).main, (c.entry l e).rc ≠ 0) → c.evictOne l = (c, false)

theorem Ok.chilled_victim (ok : c.Ok) (layer : l < c.cfg.nLayer) {before after : List Nat}
    {v : Nat} {final : Nat → Entry} (split : (c.lay l).main = before ++ v :: after)
    (chilled : Chilled (c.idx l) before c.ent final) : final (c.idx l v) = c.entry l v := by
  have layerOk := ok.layers l layer
  have nodup : (before ++ v :: after).Nodup := split ▸ layerOk.mainNodup
  apply chilled.others
  intro e member same
  have equal := c.idx_inj_left same
  exact (List.nodup_append.mp nodup).2.2 e member v List.mem_cons_self equal.symm

theorem Ok.evicting (ok : c.Ok) (layer : l < c.cfg.nLayer) : Evicting c l := by
  have layerOk := ok.layers l layer
  have cases := c.evictOne_cases l layerOk.mainNodup
    (fun e member => ((layerOk.memMain e).mp member).1)
  have member : ∀ {q before after : List Nat} {v : Nat}, q = before ++ v :: after → v ∈ q := by
    intro q before after v split
    rw [split]
    exact List.mem_append_right before List.mem_cons_self
  revert cases
  generalize result : c.evictOne l = outcome
  intro cases
  cases cases with
  | @small before₀ after₀ v₀ split₀ inUse₀ idle₀ =>
      have idleSmall : ¬∀ e ∈ (c.lay l).small, (c.entry l e).rc ≠ 0 :=
        fun inUse => inUse v₀ (member split₀) idle₀
      refine ⟨?_, fun inUse => absurd inUse idleSmall, fun inUse => absurd inUse idleSmall,
        fun inUse => absurd inUse idleSmall⟩
      intro before v after split inUse idle
      obtain ⟨rfl, rfl, rfl⟩ := first_unique (split.symm.trans split₀)
        inUse idle (fun e listed => Nat.ne_of_gt (inUse₀ e listed)) idle₀
      rw [result]
      exact congrArg (·, true) (evictEntry_evicted rfl)
  | @main before₀ after₀ v₀ seen final smallInUse split₀ chilled idle₀ first =>
      refine ⟨?_, ?_, ?_, ?_⟩
      · intro before v after split inUse idle
        exact absurd idle (Nat.ne_of_gt (smallInUse v (member split)))
      · intro _ before v after split skipped idle cold
        rcases first with ⟨rfl, cold₀⟩ | ⟨rfl, _⟩
        · rw [ok.chilled_victim layer split₀ chilled] at cold₀
          have skipped₀ : ∀ e ∈ seen, ¬((c.entry l e).rc = 0 ∧ (c.entry l e).freq ≤ 1) := by
            rintro e listed ⟨idle', cold'⟩
            have warm := chilled.warm e listed
            simp only [ExpertCache.entry] at idle' cold'
            omega
          obtain ⟨rfl, rfl, rfl⟩ := first_unique (split.symm.trans split₀) skipped ⟨idle, cold⟩
            skipped₀ ⟨idle₀, cold₀⟩
          rw [result, ← cooled_of_chilled chilled]
          exact congrArg (·, true)
            (evictEntry_evicted (congrArg Entry.slot (ok.chilled_victim layer split chilled)))
        · have warm := chilled.warm v (member split)
          simp only [ExpertCache.entry] at idle cold
          omega
      · intro _ warm before v after split inUse idle
        rcases first with ⟨rfl, cold₀⟩ | ⟨rfl, inUse₀⟩
        · rw [ok.chilled_victim layer split₀ chilled] at cold₀
          have hot := warm v₀ (member split₀) idle₀
          omega
        · obtain ⟨rfl, rfl, rfl⟩ := first_unique (split.symm.trans split₀) inUse idle
            (fun e listed => Nat.ne_of_gt (inUse₀ e listed)) idle₀
          have slot : (final (c.idx l v)).slot = (c.entry l v).slot := by
            rw [chilled.entry_eq]
            rfl
          rw [result, ← cooled_of_chilled chilled]
          exact congrArg (·, true) (evictEntry_evicted slot)
      · intro _ inUse
        exact absurd idle₀ (inUse v₀ (member split₀))
  | none smallInUse mainInUse =>
      refine ⟨?_, ?_, ?_, fun _ _ => result⟩
      · intro before v after split _ idle
        exact absurd idle (Nat.ne_of_gt (smallInUse v (member split)))
      · intro _ before v after split _ idle
        exact absurd idle (Nat.ne_of_gt (mainInUse v (member split)))
      · intro _ _ before v after split _ idle
        exact absurd idle (Nat.ne_of_gt (mainInUse v (member split)))

/-- In every reachable state `evict_one` chooses the S3-FIFO victim and disturbs
nothing else. -/
theorem evicts_victim (cfg : Config) (ops : List Op) (inRange : ∀ op ∈ ops, op.InRange cfg)
    (layer : l < cfg.nLayer) : Evicting ((init cfg).run ops) l := by
  obtain ⟨ok, kept, _, _⟩ := (init_ok cfg).run ops inRange
  exact ok.evicting (by rw [kept]; exact layer)

/-- Expert 0 is in use, expert 1 is not and is given up. -/
theorem evicts_victim_second :
    (((init { nLayer := 1, nExpert := 3, nSlot := 2 }).run
      [.acquire 0 0 .demand, .acquire 0 1 .demand, .release 0 1]).evictOne 0).1.free = [1] := by
  have inRange : ∀ op ∈ [Op.acquire 0 0 .demand, .acquire 0 1 .demand, .release 0 1],
      op.InRange { nLayer := 1, nExpert := 3, nSlot := 2 } := by
    intro op member
    simp only [List.mem_cons, List.not_mem_nil, or_false] at member
    rcases member with rfl | rfl | rfl <;> exact ⟨by decide, by decide⟩
  have result := (evicts_victim { nLayer := 1, nExpert := 3, nSlot := 2 } _ inRange
    Nat.one_pos).small [0] 1 [] rfl (by decide) rfl
  rw [result]
  rfl

end ExpertCache

end MoeStream
