import MoeStream.Cache.Layer

/-!
# What `evict_one` can do

Each pass is one scan of a rotating queue.  The scans are resolved here once:
the first idle entry of SMALL is given up; else MAIN is scanned, second chances
being spent on the idle entries passed over, and the first idle entry without a
second chance is given up, or the first idle entry at all when every one had a
second chance; else nothing changes.
-/

set_option autoImplicit false

namespace MoeStream

open Foundation.RotatingScan

/-- The entries at `es` each lost one unit of frequency unless they are in use;
each of them is in use or had a second chance, and nothing else changed. -/
structure Chilled (idx : Nat → Nat) (es : List Nat) (before after : Nat → Entry) : Prop where
  warm : ∀ e ∈ es, 0 < (before (idx e)).rc ∨ 1 < (before (idx e)).freq
  visited : ∀ e ∈ es, after (idx e) =
    if 0 < (before (idx e)).rc then before (idx e)
    else { before (idx e) with freq := (before (idx e)).freq - 1 }
  others : ∀ i, (∀ e ∈ es, i ≠ idx e) → after i = before i

namespace Chilled

variable {idx : Nat → Nat} {es : List Nat} {before after : Nat → Entry}

theorem entry_eq (chilled : Chilled idx es before after) (i : Nat) :
    after i = { before i with freq := (after i).freq } := by
  by_cases seen : ∃ e ∈ es, i = idx e
  · obtain ⟨e, member, rfl⟩ := seen
    rw [chilled.visited e member]
    split <;> rfl
  · rw [chilled.others i fun e member equal => seen ⟨e, member, equal⟩]

theorem rc_eq (chilled : Chilled idx es before after) (i : Nat) :
    (after i).rc = (before i).rc := by
  rw [chilled.entry_eq i]

theorem freq_cases (chilled : Chilled idx es before after) (i : Nat) :
    (after i).freq = (before i).freq ∨
      (1 < (before i).freq ∧ (after i).freq = (before i).freq - 1) := by
  by_cases seen : ∃ e ∈ es, i = idx e
  · obtain ⟨e, member, rfl⟩ := seen
    rw [chilled.visited e member]
    split
    · exact Or.inl rfl
    · rename_i idle
      exact Or.inr ⟨(chilled.warm e member).resolve_left idle, rfl⟩
  · exact Or.inl (by rw [chilled.others i fun e member equal => seen ⟨e, member, equal⟩])

end Chilled

namespace ExpertCache

theorem idx_inj (c : ExpertCache) {l l' e e' : Nat} (inside : e < c.cfg.nExpert)
    (inside' : e' < c.cfg.nExpert) (same : c.idx l e = c.idx l' e') : l = l' ∧ e = e' := by
  simp only [idx] at same
  have positive : 0 < c.cfg.nExpert := by omega
  have quotients := congrArg (· / c.cfg.nExpert) same
  simp only [Nat.mul_comm _ c.cfg.nExpert, Nat.mul_add_div positive,
    Nat.div_eq_of_lt inside, Nat.div_eq_of_lt inside', Nat.add_zero] at quotients
  subst quotients
  exact ⟨rfl, by omega⟩

theorem idx_lt_total (c : ExpertCache) {l e : Nat} (layer : l < c.cfg.nLayer)
    (inside : e < c.cfg.nExpert) : c.idx l e < c.total := by
  simp only [idx, total]
  calc l * c.cfg.nExpert + e < l * c.cfg.nExpert + c.cfg.nExpert := by omega
    _ = (l + 1) * c.cfg.nExpert := (Nat.succ_mul l _).symm
    _ ≤ c.cfg.nLayer * c.cfg.nExpert := Nat.mul_le_mul_right _ layer

/-! ## One pass -/

theorem visit_keep (c : ExpertCache) {layer pass e : Nat} {ent next : Nat → Entry}
    (kept : c.visit layer pass ent e = .keep next) :
    (0 < (ent (c.idx layer e)).rc ∧ next = ent) ∨
      ((ent (c.idx layer e)).rc = 0 ∧ pass = 1 ∧ 1 < (ent (c.idx layer e)).freq ∧
        next = Function.update ent (c.idx layer e)
          { ent (c.idx layer e) with freq := (ent (c.idx layer e)).freq - 1 }) := by
  unfold visit at kept
  simp only at kept
  split at kept
  · rename_i inUse
    exact Or.inl ⟨inUse, (Visit.keep.inj kept).symm⟩
  · rename_i idle
    split at kept
    · rename_i chance
      exact Or.inr ⟨by omega, chance.1, chance.2, (Visit.keep.inj kept).symm⟩
    · cases kept

theorem visit_take (c : ExpertCache) {layer pass e : Nat} {ent : Nat → Entry}
    (taken : c.visit layer pass ent e = .take) :
    (ent (c.idx layer e)).rc = 0 ∧ (pass = 1 → (ent (c.idx layer e)).freq ≤ 1) := by
  unfold visit at taken
  simp only at taken
  split at taken
  · cases taken
  · rename_i idle
    split at taken
    · cases taken
    · rename_i chance
      exact ⟨by omega, fun first => by
        by_contra many
        exact chance ⟨first, by omega⟩⟩

/-- Outside pass 1 the scan passes over entries in use only and changes none. -/
theorem kept_inUse (c : ExpertCache) {layer pass : Nat} (other : pass ≠ 1)
    {es : List Nat} {ent final : Nat → Entry} (kept : Kept (c.visit layer pass) ent es final) :
    final = ent ∧ ∀ e ∈ es, 0 < (ent (c.idx layer e)).rc := by
  induction kept with
  | nil ent => exact ⟨rfl, by simp⟩
  | cons decision _ ih =>
      rcases c.visit_keep decision with ⟨inUse, same⟩ | ⟨_, first, _⟩
      · subst same
        refine ⟨ih.1, ?_⟩
        intro e member
        rcases List.mem_cons.mp member with rfl | member
        · exact inUse
        · exact ih.2 e member
      · exact absurd first other

/-- In pass 1 it passes over entries in use and entries with a second chance,
which it spends. -/
theorem kept_chilled (c : ExpertCache) {layer : Nat} {es : List Nat}
    {ent final : Nat → Entry} (nodup : es.Nodup) (inside : ∀ e ∈ es, e < c.cfg.nExpert)
    (kept : Kept (c.visit layer 1) ent es final) :
    Chilled (c.idx layer) es ent final := by
  induction kept with
  | nil ent =>
      exact ⟨by simp, by simp, fun i _ => rfl⟩
  | @cons ent next final front rest decision _ ih =>
      obtain ⟨fresh, restNodup⟩ := List.nodup_cons.mp nodup
      have tail := ih restNodup fun e member => inside e (List.mem_cons_of_mem front member)
      have apart : ∀ e ∈ rest, c.idx layer front ≠ c.idx layer e := by
        intro e member equal
        have same := (c.idx_inj (inside front List.mem_cons_self)
          (inside e (List.mem_cons_of_mem front member)) equal).2
        exact fresh (same ▸ member)
      have frontFinal : final (c.idx layer front) = next (c.idx layer front) :=
        tail.others _ apart
      have restNext : ∀ e ∈ rest, next (c.idx layer e) = ent (c.idx layer e) := by
        intro e member
        rcases c.visit_keep decision with ⟨_, same⟩ | ⟨_, _, _, same⟩
        · rw [same]
        · rw [same, Function.update_of_ne (Ne.symm (apart e member))]
      refine ⟨?_, ?_, ?_⟩
      · intro e member
        rcases List.mem_cons.mp member with rfl | member
        · rcases c.visit_keep decision with ⟨inUse, _⟩ | ⟨_, _, chance, _⟩
          · exact Or.inl inUse
          · exact Or.inr chance
        · rw [← restNext e member]
          exact tail.warm e member
      · intro e member
        rcases List.mem_cons.mp member with rfl | member
        · rw [frontFinal]
          rcases c.visit_keep decision with ⟨inUse, same⟩ | ⟨idle, _, _, same⟩
          · rw [same, if_pos inUse]
          · rw [same, Function.update_self, if_neg (by omega)]
        · rw [tail.visited e member, restNext e member]
      · intro i unseen
        have unseenRest : ∀ e ∈ rest, i ≠ c.idx layer e :=
          fun e member => unseen e (List.mem_cons_of_mem front member)
        rw [tail.others i unseenRest]
        rcases c.visit_keep decision with ⟨_, same⟩ | ⟨_, _, _, same⟩
        · rw [same]
        · rw [same, Function.update_of_ne (unseen front List.mem_cons_self)]

@[simp] theorem setQueue_self (ls : LayerState) (pass : Nat) :
    ls.setQueue pass (ls.queue pass) = ls := by
  simp only [LayerState.setQueue, LayerState.queue]
  split <;> rfl

@[simp] theorem setLayer_self (c : ExpertCache) (layer : Nat) :
    c.setLayer layer (c.lay layer) = c := by
  simp only [setLayer]
  rw [Function.update_eq_self]

/-- A pass either keeps the whole queue or gives up the element it stopped at. -/
theorem evictPass_cases (c : ExpertCache) (layer pass : Nat) :
    (∃ final, Kept (c.visit layer pass) c.ent ((c.lay layer).queue pass) final ∧
      c.evictPass layer pass = ({ c with ent := final }, false)) ∨
    (∃ before victim after final,
      (c.lay layer).queue pass = before ++ victim :: after ∧
      Kept (c.visit layer pass) c.ent before final ∧
      c.visit layer pass final victim = .take ∧
      c.evictPass layer pass =
        ((({ c with ent := final }).setLayer layer
          ((c.lay layer).setQueue pass (after ++ before))).evictEntry layer victim, true)) := by
  rcases scan_length (c.visit layer pass) ((c.lay layer).queue pass) c.ent with
    ⟨final, kept, result⟩ | ⟨before, victim, after, final, split, kept, taken, result⟩
  · refine Or.inl ⟨final, kept, ?_⟩
    simp only [evictPass, result]
    rw [setQueue_self]
    exact congrArg (·, false) (setLayer_self { c with ent := final } layer)
  · refine Or.inr ⟨before, victim, after, final, split, kept, taken, ?_⟩
    simp only [evictPass, result]

/-- A pass other than the second keeps a queue only if all of it is in use. -/
theorem evictPass_plain (c : ExpertCache) (layer pass : Nat) (other : pass ≠ 1) :
    ((∀ e ∈ (c.lay layer).queue pass, 0 < (c.entry layer e).rc) ∧
      c.evictPass layer pass = (c, false)) ∨
    (∃ before victim after,
      (c.lay layer).queue pass = before ++ victim :: after ∧
      (∀ e ∈ before, 0 < (c.entry layer e).rc) ∧ (c.entry layer victim).rc = 0 ∧
      c.evictPass layer pass =
        ((c.setLayer layer ((c.lay layer).setQueue pass (after ++ before))).evictEntry
          layer victim, true)) := by
  rcases c.evictPass_cases layer pass with
    ⟨final, kept, result⟩ | ⟨before, victim, after, final, split, kept, taken, result⟩
  · obtain ⟨same, inUse⟩ := c.kept_inUse other kept
    subst same
    exact Or.inl ⟨inUse, result⟩
  · obtain ⟨same, inUse⟩ := c.kept_inUse other kept
    subst same
    exact Or.inr ⟨before, victim, after, split, inUse, (c.visit_take taken).1, result⟩

theorem evictPass_chance (c : ExpertCache) (layer : Nat) (nodup : (c.lay layer).main.Nodup)
    (inside : ∀ e ∈ (c.lay layer).main, e < c.cfg.nExpert) :
    (∃ final, Chilled (c.idx layer) (c.lay layer).main c.ent final ∧
      c.evictPass layer 1 = ({ c with ent := final }, false)) ∨
    (∃ before victim after final,
      (c.lay layer).main = before ++ victim :: after ∧
      Chilled (c.idx layer) before c.ent final ∧
      (final (c.idx layer victim)).rc = 0 ∧ (final (c.idx layer victim)).freq ≤ 1 ∧
      c.evictPass layer 1 =
        ((({ c with ent := final }).setLayer layer
          { c.lay layer with main := after ++ before }).evictEntry layer victim, true)) := by
  rcases c.evictPass_cases layer 1 with
    ⟨final, kept, result⟩ | ⟨before, victim, after, final, split, kept, taken, result⟩
  · exact Or.inl ⟨final, c.kept_chilled nodup inside kept, result⟩
  · have main : (c.lay layer).main = before ++ victim :: after := split
    rw [main] at nodup inside
    have chilled := c.kept_chilled (List.nodup_append.mp nodup).1
      (fun e member => inside e (List.mem_append_left _ member)) kept
    obtain ⟨idle, cold⟩ := c.visit_take taken
    exact Or.inr ⟨before, victim, after, final, main, chilled, idle, cold rfl, result⟩

/-! ## The three passes together -/

/-- Everything `evict_one` can do. -/
inductive EvictOne (c : ExpertCache) (layer : Nat) : ExpertCache × Bool → Prop where
  | small {before after : List Nat} {victim : Nat}
      (split : (c.lay layer).small = before ++ victim :: after)
      (inUse : ∀ e ∈ before, 0 < (c.entry layer e).rc)
      (idle : (c.entry layer victim).rc = 0) :
      EvictOne c layer
        ((c.setLayer layer { c.lay layer with small := after ++ before }).evictEntry
          layer victim, true)
  | main {before after : List Nat} {victim : Nat} {seen : List Nat} {final : Nat → Entry}
      (smallInUse : ∀ e ∈ (c.lay layer).small, 0 < (c.entry layer e).rc)
      (split : (c.lay layer).main = before ++ victim :: after)
      (chilled : Chilled (c.idx layer) seen c.ent final)
      (idle : (c.entry layer victim).rc = 0)
      (first : (seen = before ∧ (final (c.idx layer victim)).freq ≤ 1) ∨
        (seen = (c.lay layer).main ∧ ∀ e ∈ before, 0 < (c.entry layer e).rc)) :
      EvictOne c layer
        ((({ c with ent := final }).setLayer layer
          { c.lay layer with main := after ++ before }).evictEntry layer victim, true)
  | none (smallInUse : ∀ e ∈ (c.lay layer).small, 0 < (c.entry layer e).rc)
      (mainInUse : ∀ e ∈ (c.lay layer).main, 0 < (c.entry layer e).rc) :
      EvictOne c layer (c, false)

theorem evictOne_cases (c : ExpertCache) (layer : Nat) (nodup : (c.lay layer).main.Nodup)
    (inside : ∀ e ∈ (c.lay layer).main, e < c.cfg.nExpert) :
    EvictOne c layer (c.evictOne layer) := by
  rcases c.evictPass_plain layer 0 (by decide) with
    ⟨smallInUse, result⟩ | ⟨before, victim, after, split, inUse, idle, result⟩
  · simp only [evictOne, result]
    rcases c.evictPass_chance layer nodup inside with
      ⟨final, chilled, chance⟩ | ⟨before, victim, after, final, split, chilled, idle, cold, chance⟩
    · simp only [chance]
      rcases ({ c with ent := final } : ExpertCache).evictPass_plain layer 2
        (by decide) with
        ⟨mainInUse, last⟩ | ⟨before, victim, after, split, inUse, idle, last⟩
      · have busy : ∀ e ∈ (c.lay layer).main, 0 < (c.entry layer e).rc := by
          intro e member
          have positive := mainInUse e member
          simpa only [entry, idx, chilled.rc_eq] using positive
        -- with every entry of MAIN in use pass 1 spent no second chance
        have unchanged : final = c.ent := by
          funext i
          by_cases seen : ∃ e ∈ (c.lay layer).main, i = c.idx layer e
          · obtain ⟨e, member, rfl⟩ := seen
            have inUse : 0 < (c.ent (c.idx layer e)).rc := busy e member
            rw [chilled.visited e member, if_pos inUse]
          · exact chilled.others i fun e member equal => seen ⟨e, member, equal⟩
        rw [last, unchanged]
        exact EvictOne.none smallInUse busy
      · rw [last]
        refine EvictOne.main smallInUse split chilled ?_ (Or.inr ⟨rfl, ?_⟩)
        · simpa only [entry, idx, chilled.rc_eq] using idle
        · intro e member
          have positive := inUse e member
          simpa only [entry, idx, chilled.rc_eq] using positive
    · simp only [chance]
      refine EvictOne.main smallInUse split chilled ?_ (Or.inl ⟨rfl, cold⟩)
      rw [chilled.rc_eq] at idle
      exact idle
  · simp only [evictOne, result]
    exact EvictOne.small split inUse idle

end ExpertCache

end MoeStream
