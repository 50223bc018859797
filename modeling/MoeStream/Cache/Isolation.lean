import MoeStream.Cache.Apportioned
import MoeStream.Cache.Victim

/-!
# Layers of a static cache

What happens in a layer depends on its quota, its queues and, for its experts,
on segment, references and frequency, and never on slot numbers or on another
layer.  Two layers that agree on these answer alike, and so does a layer and a
cache of its own.
-/

set_option autoImplicit false

namespace MoeStream

open Foundation.FixedWidth
open Foundation.RotatingScan

def Entry.standing (en : Entry) : Seg × Nat × Nat := (en.seg, en.rc, en.freq)

namespace ExpertCache

variable {c c' d d' : ExpertCache} {l k e : Nat}

/-! ## What an operation on a layer leaves alone -/

/-- `c'` is `c` but for layer `l`. -/
structure Within (c : ExpertCache) (l : Nat) (c' : ExpertCache) : Prop where
  cfg : c'.cfg = c.cfg
  nSlot : c'.nSlot = c.nSlot
  quota : c'.quota = c.quota
  lay : ∀ j, j ≠ l → c'.lay j = c.lay j
  entries : ∀ j e, j ≠ l → e < c.cfg.nExpert → c'.entry j e = c.entry j e

theorem Within.refl (c : ExpertCache) (l : Nat) : Within c l c :=
  ⟨rfl, rfl, rfl, fun _ _ => rfl, fun _ _ _ _ => rfl⟩

theorem Within.trans {c'' : ExpertCache} (first : Within c l c') (second : Within c' l c'') :
    Within c l c'' where
  cfg := second.cfg.trans first.cfg
  nSlot := second.nSlot.trans first.nSlot
  quota := second.quota.trans first.quota
  lay := fun j other => (second.lay j other).trans (first.lay j other)
  entries := by
    intro j e other inside
    rw [second.entries j e other (by rw [first.cfg]; exact inside)]
    exact first.entries j e other inside

theorem Within.replaced (inside : e < c.cfg.nExpert) (en : Entry) (ls : LayerState)
    (free : List Nat) (st : CacheStats) : Within c l (c.replaced l e en ls free st) where
  cfg := rfl
  nSlot := rfl
  quota := rfl
  lay := fun _ other => replaced_lay_of_ne other
  entries := fun _ _ other inside' =>
    replaced_ent_of_ne fun same => other (c.idx_inj inside' inside same).1

/-! ## Layers that agree -/

/-- Layer `k` of `d` is as layer `l` of `c`, slots and times apart. -/
structure Alike (c : ExpertCache) (l : Nat) (d : ExpertCache) (k : Nat) : Prop where
  experts : d.cfg.nExpert = c.cfg.nExpert
  mult : d.cfg.ghostMult = c.cfg.ghostMult
  quota : d.quota k = c.quota l
  lay : d.lay k = c.lay l
  entries : ∀ e, e < c.cfg.nExpert → (d.entry k e).standing = (c.entry l e).standing

theorem Alike.refl (c : ExpertCache) (l : Nat) : Alike c l c l :=
  ⟨rfl, rfl, rfl, rfl, fun _ _ => rfl⟩

theorem Alike.symm (alike : Alike c l d k) : Alike d k c l :=
  ⟨alike.experts.symm, alike.mult.symm, alike.quota.symm, alike.lay.symm, by
    rw [alike.experts]
    exact fun e inside => (alike.entries e inside).symm⟩

theorem Alike.trans {b : ExpertCache} {j : Nat} (first : Alike c l d k) (second : Alike d k b j) :
    Alike c l b j where
  experts := second.experts.trans first.experts
  mult := second.mult.trans first.mult
  quota := second.quota.trans first.quota
  lay := second.lay.trans first.lay
  entries := by
    intro e inside
    rw [← first.entries e inside]
    exact second.entries e (by rw [first.experts]; exact inside)

theorem Alike.seg (alike : Alike c l d k) (inside : e < c.cfg.nExpert) :
    (d.entry k e).seg = (c.entry l e).seg := congrArg Prod.fst (alike.entries e inside)

theorem Alike.rc (alike : Alike c l d k) (inside : e < c.cfg.nExpert) :
    (d.entry k e).rc = (c.entry l e).rc := congrArg (·.2.1) (alike.entries e inside)

theorem Alike.freq (alike : Alike c l d k) (inside : e < c.cfg.nExpert) :
    (d.entry k e).freq = (c.entry l e).freq := congrArg (·.2.2) (alike.entries e inside)

theorem Alike.keep (alike : Alike c l d k) {c' d' : ExpertCache} (cfg : c'.cfg = c.cfg)
    (cfg' : d'.cfg = d.cfg) (quota : c'.quota l = c.quota l) (quota' : d'.quota k = d.quota k)
    (lay : d'.lay k = c'.lay l)
    (entries : ∀ e, e < c.cfg.nExpert → (d'.entry k e).standing = (c'.entry l e).standing) :
    Alike c' l d' k where
  experts := by rw [cfg, cfg', alike.experts]
  mult := by rw [cfg, cfg', alike.mult]
  quota := by rw [quota, quota', alike.quota]
  lay := lay
  entries := by rw [cfg]; exact entries

theorem Alike.other (alike : Alike c l d k) {j : Nat} (other : l ≠ j) (within : Within c j c') :
    Alike c' l d k := by
  apply alike.keep within.cfg rfl (congrFun within.quota l) rfl
  · rw [within.lay l other]
    exact alike.lay
  · intro e inside
    rw [within.entries l e other inside]
    exact alike.entries e inside

/-- Exchanging an entry for one of the same standing, and a layer for the same. -/
theorem Alike.replaced (alike : Alike c l d k) {en en' : Entry} {ls : LayerState}
    {free free' : List Nat} {st st' : CacheStats} (standing : en'.standing = en.standing) :
    Alike (c.replaced l e en ls free st) l (d.replaced k e en' ls free' st') k := by
  apply alike.keep
  · rfl
  · rfl
  · rfl
  · rfl
  · simp
  · intro e' inside
    by_cases own : e' = e
    · simpa [own] using standing
    · simpa [own] using alike.entries e' inside

/-! ## Eviction -/

theorem cooled_entry (es : List Nat) : c.cooled l es (c.idx l e) =
    if e ∈ es ∧ (c.entry l e).rc = 0 then
      { c.entry l e with freq := (c.entry l e).freq - 1 }
    else c.entry l e := by
  have seen : (∃ e' ∈ es, c.idx l e = c.idx l e') ↔ e ∈ es := by
    constructor
    · rintro ⟨e', member, same⟩
      rw [c.idx_inj_left same]
      exact member
    · exact fun member => ⟨e, member, rfl⟩
  exact if_congr (and_congr_left' seen) rfl rfl

@[simp] theorem cooled_nil : c.cooled l [] = c.ent := by
  funext i
  apply if_neg
  rintro ⟨⟨e, member, -⟩, -⟩
  cases member

theorem Within.evicted {v : Nat} {small main es : List Nat} (inside : v < c.cfg.nExpert)
    (seen : ∀ e ∈ es, e < c.cfg.nExpert) :
    Within c l (c.evicted l v small main (c.cooled l es)) where
  cfg := rfl
  nSlot := rfl
  quota := rfl
  lay := fun _ other => Function.update_of_ne other _ _
  entries := by
    intro j e other inside'
    have apart : ∀ e', e' < c.cfg.nExpert → c.idx j e ≠ c.idx l e' :=
      fun e' below same => other (c.idx_inj inside' below same).1
    have moved : (c.evicted l v small main (c.cooled l es)).entry j e =
        c.cooled l es (c.idx j e) := Function.update_of_ne (apart v inside) _ _
    rw [moved]
    apply if_neg
    rintro ⟨⟨e', member, same⟩, -⟩
    exact apart e' (seen e' member) same

theorem Alike.evicted (alike : Alike c l d k) {v : Nat} {small main es : List Nat}
    (inside : v < c.cfg.nExpert) :
    Alike (c.evicted l v small main (c.cooled l es)) l
      (d.evicted k v small main (d.cooled k es)) k := by
  have cooled : ∀ e, e < c.cfg.nExpert →
      (d.cooled k es (d.idx k e)).standing = (c.cooled l es (c.idx l e)).standing := by
    intro e inside
    rw [cooled_entry, cooled_entry, alike.rc inside]
    split
    · simp only [Entry.standing, alike.seg inside, alike.rc inside, alike.freq inside]
    · exact alike.entries e inside
  have entry : ∀ (c : ExpertCache) (l e : Nat), e ≠ v →
      (c.evicted l v small main (c.cooled l es)).entry l e = c.cooled l es (c.idx l e) :=
    fun c l e other => Function.update_of_ne (fun same => other (c.idx_inj_left same)) _ _
  have victim : ∀ (c : ExpertCache) (l : Nat),
      (c.evicted l v small main (c.cooled l es)).entry l v =
        evictedEntry (c.cooled l es (c.idx l v)) :=
    fun c l => Function.update_self _ _ _
  apply alike.keep
  · rfl
  · rfl
  · rfl
  · rfl
  · simp only [ExpertCache.evicted, Function.update_self, alike.lay, alike.quota, alike.mult]
  · intro e below
    by_cases own : e = v
    · subst own
      rw [victim, victim]
      have rc := congrArg (·.2.1) (cooled e inside)
      simp only [Entry.standing] at rc
      simp only [Entry.standing, evictedEntry, rc]
    · rw [entry d k e own, entry c l e own]
      exact cooled e below

/-- Two layers with the same queues, whose queued entries have the same
references and frequencies, give up the same expert, or nothing. -/
theorem evictOne_both (ok : c.Ok) (ok' : d.Ok) (layer : l < c.cfg.nLayer)
    (layer' : k < d.cfg.nLayer) (queue : d.lay k = c.lay l)
    (smallRc : ∀ e ∈ (c.lay l).small, (d.entry k e).rc = (c.entry l e).rc)
    (mainRc : ∀ e ∈ (c.lay l).main, (d.entry k e).rc = (c.entry l e).rc)
    (mainFreq : ∀ e ∈ (c.lay l).main, (d.entry k e).freq = (c.entry l e).freq) :
    (c.evictOne l = (c, false) ∧ d.evictOne k = (d, false)) ∨
      ∃ v small main es, v < c.cfg.nExpert ∧ (∀ e ∈ es, e ∈ (c.lay l).main) ∧
        c.evictOne l = (c.evicted l v small main (c.cooled l es), true) ∧
        d.evictOne k = (d.evicted k v small main (d.cooled k es), true) := by
  have layerOk := ok.layers l layer
  have small : ∀ e ∈ (c.lay l).small, e < c.cfg.nExpert :=
    fun e member => ((layerOk.memSmall e).mp member).1
  have main : ∀ e ∈ (c.lay l).main, e < c.cfg.nExpert :=
    fun e member => ((layerOk.memMain e).mp member).1
  have own := ok.evicting layer
  have same := ok'.evicting layer'
  rcases first_or_none (fun e => (c.entry l e).rc = 0) (c.lay l).small with
    smallUsed | ⟨before, v, after, split, used, idle⟩
  · have smallUsed' : ∀ e ∈ (d.lay k).small, (d.entry k e).rc ≠ 0 := by
      rw [queue]
      intro e member
      rw [smallRc e member]
      exact smallUsed e member
    rcases first_or_none (fun e => (c.entry l e).rc = 0 ∧ (c.entry l e).freq ≤ 1)
      (c.lay l).main with mainHot | ⟨before, v, after, split, skipped, idle, cold⟩
    · rcases first_or_none (fun e => (c.entry l e).rc = 0) (c.lay l).main with
        mainUsed | ⟨before, v, after, split, used, idle⟩
      · left
        refine ⟨own.busy smallUsed mainUsed, same.busy smallUsed' ?_⟩
        rw [queue]
        intro e member
        rw [mainRc e member]
        exact mainUsed e member
      · right
        have listed : ∀ e ∈ before ++ v :: after, e ∈ (c.lay l).main := by
          rw [split]
          exact fun e member => member
        have vListed := listed v (List.mem_append_right _ List.mem_cons_self)
        refine ⟨v, (c.lay l).small, after ++ before, (c.lay l).main, main v vListed,
          fun _ member => member, ?_, ?_⟩
        · apply own.warm smallUsed _ before v after split used idle
          intro e member idle
          have hot := mainHot e member
          omega
        · rw [← queue]
          apply same.warm smallUsed' _ before v after (by rw [queue]; exact split)
          · intro e member
            rw [mainRc e (listed e (List.mem_append_left _ member))]
            exact used e member
          · rw [mainRc v vListed]
            exact idle
          · rw [queue]
            intro e member idle
            rw [mainRc e member] at idle
            rw [mainFreq e member]
            have hot := mainHot e member
            omega
    · right
      have listed : ∀ e ∈ before ++ v :: after, e ∈ (c.lay l).main := by
        rw [split]
        exact fun e member => member
      have vListed := listed v (List.mem_append_right _ List.mem_cons_self)
      refine ⟨v, (c.lay l).small, after ++ before, before, main v vListed,
        fun e member => listed e (List.mem_append_left _ member),
        own.cold smallUsed before v after split skipped idle cold, ?_⟩
      rw [← queue]
      apply same.cold smallUsed' before v after (by rw [queue]; exact split)
      · intro e member
        have inMain := listed e (List.mem_append_left _ member)
        rw [mainRc e inMain, mainFreq e inMain]
        exact skipped e member
      · rw [mainRc v vListed]
        exact idle
      · rw [mainFreq v vListed]
        exact cold
  · right
    have listed : ∀ e ∈ before ++ v :: after, e ∈ (c.lay l).small := by
      rw [split]
      exact fun e member => member
    have vListed := listed v (List.mem_append_right _ List.mem_cons_self)
    refine ⟨v, after ++ before, (c.lay l).main, [], small v vListed, nofun, ?_, ?_⟩
    · rw [cooled_nil]
      exact own.small before v after split used idle
    · rw [cooled_nil, ← queue]
      apply same.small before v after (by rw [queue]; exact split)
      · intro e member
        rw [smallRc e (listed e (List.mem_append_left _ member))]
        exact used e member
      · rw [smallRc v vListed]
        exact idle

theorem Alike.evictOne (alike : Alike c l d k) (ok : c.Ok) (ok' : d.Ok)
    (layer : l < c.cfg.nLayer) (layer' : k < d.cfg.nLayer) :
    (c.evictOne l = (c, false) ∧ d.evictOne k = (d, false)) ∨
      ∃ v small main es, v < c.cfg.nExpert ∧ (∀ e ∈ es, e < c.cfg.nExpert) ∧
        c.evictOne l = (c.evicted l v small main (c.cooled l es), true) ∧
        d.evictOne k = (d.evicted k v small main (d.cooled k es), true) := by
  have layerOk := ok.layers l layer
  have small : ∀ e ∈ (c.lay l).small, e < c.cfg.nExpert :=
    fun e member => ((layerOk.memSmall e).mp member).1
  have main : ∀ e ∈ (c.lay l).main, e < c.cfg.nExpert :=
    fun e member => ((layerOk.memMain e).mp member).1
  rcases evictOne_both ok ok' layer layer' alike.lay (fun e member => alike.rc (small e member))
    (fun e member => alike.rc (main e member)) (fun e member => alike.freq (main e member)) with
    busy | ⟨v, small', main', es, inside, listed, result, result'⟩
  · exact Or.inl busy
  · exact Or.inr
      ⟨v, small', main', es, inside, fun e member => main e (listed e member), result, result'⟩

/-! ## Allocation -/

/-- A slot allocation in two layers that agree: refused, or a slot is at hand and
the layer is below its quota. -/
inductive Allots (c : ExpertCache) (l : Nat) (d : ExpertCache) (k : Nat) :
    ExpertCache × Nat → ExpertCache × Nat → Prop where
  | refused : Allots c l d k (c, NO_SLOT) (d, NO_SLOT)
  | allotted {c' d' : ExpertCache} {s s' : Nat} (alike : Alike c' l d' k) (within : Within c l c')
      (below : (c'.lay l).resident < c.quota l) (named : s ≠ NO_SLOT) (named' : s' ≠ NO_SLOT) :
      Allots c l d k (c', s) (d', s')

theorem Allots.of_free {s s' : Nat} {rest rest' : List Nat} (alike : Alike c' l d' k)
    (within : Within c l c') (below : (c'.lay l).resident < c.quota l) (named : s ≠ NO_SLOT)
    (named' : s' ≠ NO_SLOT) :
    Allots c l d k ({ c' with free := rest }, s) ({ d' with free := rest' }, s') :=
  Allots.allotted (alike.keep rfl rfl rfl rfl alike.lay alike.entries)
    (within.trans ⟨rfl, rfl, rfl, fun _ _ => rfl, fun _ _ _ _ => rfl⟩) below named named'

theorem Apportioned.free_named (apportioned : c.Apportioned) {s : Nat} (member : s ∈ c.free) :
    s ≠ NO_SLOT := by
  have bound := apportioned.ok.free_lt member
  have slots := apportioned.ok.slots
  omega

theorem Ok.victim_named (ok : c.Ok) (layer : l < c.cfg.nLayer) {v : Nat}
    {small main : List Nat} {ent : Nat → Entry}
    (result : c.evictOne l = (c.evicted l v small main ent, true)) :
    (c.entry l v).slot ≠ NO_SLOT ∧ 0 < (c.lay l).resident := by
  rcases ok.evictOne layer with ⟨w, s, c', other, evicts⟩ | ⟨other, -⟩
  · rw [result] at other
    cases other
    have top : (c.entry l v).slot :: c.free = s :: c.free := evicts.free
    rw [(List.cons.inj top).1]
    have bound := c.idx_lt_total layer evicts.inside
    refine ⟨ok.seat_ne bound evicts.seat, ?_⟩
    rw [ok.represents.resident l layer]
    apply List.countP_pos_iff.mpr
    refine ⟨w, List.mem_range.mpr evicts.inside, ?_⟩
    exact decide_eq_true (Entry.held_some.mp evicts.seat).1
  · rw [result] at other
    cases congrArg Prod.snd other

theorem Alike.allocSlot (alike : Alike c l d k) (apportioned : c.Apportioned)
    (apportioned' : d.Apportioned) (layer : l < c.cfg.nLayer) (layer' : k < d.cfg.nLayer) :
    Allots c l d k (c.allocSlot l) (d.allocSlot k) := by
  simp only [ExpertCache.allocSlot]
  rw [alike.lay, alike.quota]
  by_cases full : c.quota l ≤ (c.lay l).resident
  · rw [if_pos full, if_pos full]
    rcases alike.evictOne apportioned.ok apportioned'.ok layer layer' with
      ⟨busy, busy'⟩ | ⟨v, small, main, es, inside, seen, result, result'⟩
    · simp only [busy, busy']
      exact Allots.refused
    · obtain ⟨named, some⟩ := apportioned.ok.victim_named layer result
      obtain ⟨named', -⟩ := apportioned'.ok.victim_named layer' result'
      have within : Within c l (c.evicted l v small main (c.cooled l es)) :=
        Within.evicted inside seen
      have one : ((c.evicted l v small main (c.cooled l es)).lay l).resident =
          (c.lay l).resident - 1 := by
        simp only [ExpertCache.evicted, Function.update_self]
      have kept := apportioned.within l layer
      simp only [result, result']
      exact Allots.of_free (alike.evicted inside) within (by omega) named named'
  · rw [if_neg full, if_neg full]
    have below : (c.lay l).resident < c.quota l := Nat.lt_of_not_le full
    obtain ⟨s, rest, available⟩ := apportioned.free_below layer below
    obtain ⟨s', rest', available'⟩ := apportioned'.free_below layer' (by
      rw [alike.lay, alike.quota]
      exact below)
    have named := apportioned.free_named (s := s) (by rw [available]; exact List.mem_cons_self)
    have named' := apportioned'.free_named (s := s')
      (by rw [available']; exact List.mem_cons_self)
    simp only [allocFree, available, available']
    exact Allots.of_free alike (Within.refl c l) below named named'

/-! ## Requests -/

inductive Outcome where
  | hit
  | admitted
  | refused
  deriving DecidableEq

def outcome (result : ExpertCache × Bool × Nat) : Outcome :=
  if result.2.1 then .hit else if result.2.2 = NO_SLOT then .refused else .admitted

structure Answers (c : ExpertCache) (l : Nat) (d : ExpertCache) (k : Nat)
    (result result' : ExpertCache × Bool × Nat) : Prop where
  outcome : outcome result = outcome result'
  alike : Alike result.1 l result'.1 k
  within : Within c l result.1
  resident : (result.1.lay l).resident ≤ c.quota l

theorem Answers.of_hit (alike : Alike c l d k) (inside : e < c.cfg.nExpert) {en en' : Entry}
    {ls : LayerState} {st st' : CacheStats} {s s' : Nat} (standing : en'.standing = en.standing)
    (resident : ls.resident ≤ c.quota l) :
    Answers c l d k (c.replaced l e en ls c.free st, true, s)
      (d.replaced k e en' ls d.free st', true, s') where
  outcome := rfl
  alike := alike.replaced standing
  within := Within.replaced inside en ls c.free st
  resident := by
    rw [replaced_lay_self]
    exact resident

theorem Alike.acquireHit (alike : Alike c l d k) (apportioned : c.Apportioned)
    (apportioned' : d.Apportioned) (layer : l < c.cfg.nLayer) (layer' : k < d.cfg.nLayer)
    (inside : e < c.cfg.nExpert) (present : (c.entry l e).seg ≠ .none) :
    Answers c l d k ((c.setEntry l e { c.entry l e with last := c.step }).acquireHit l e)
      ((d.setEntry k e { d.entry k e with last := d.step }).acquireHit k e) := by
  have inside' : e < d.cfg.nExpert := by rw [alike.experts]; exact inside
  have table := apportioned.ok.table _ (c.idx_lt_total layer inside)
  have table' := apportioned'.ok.table _ (d.idx_lt_total layer' inside')
  have resident := apportioned.within l layer
  have same : (d.entry k e).seg = (c.entry l e).seg := alike.seg inside
  have standing : (hitEntry (d.entry k e) d.step).standing =
      (hitEntry (c.entry l e) c.step).standing := by
    simp only [Entry.standing, hitEntry, same, alike.rc inside, alike.freq inside]
  cases seg : (c.entry l e).seg with
  | none => exact absurd seg present
  | pinned =>
      rw [acquireHit_pinned table seg, acquireHit_pinned table' (same.trans seg), alike.lay]
      exact Answers.of_hit alike inside standing resident
  | main =>
      rw [acquireHit_main table seg, acquireHit_main table' (same.trans seg), alike.lay]
      exact Answers.of_hit alike inside standing resident
  | small =>
      have one := (apportioned.ok.entry layer inside).small seg
      have member : e ∈ (c.lay l).small :=
        ((apportioned.ok.layers l layer).memSmall e).mpr ⟨inside, seg⟩
      rw [acquireHit_small table seg one member,
        acquireHit_small table' (same.trans seg) ((alike.freq inside).trans one)
          (by rw [alike.lay]; exact member), alike.lay]
      apply Answers.of_hit alike inside
      · simp only [Entry.standing, Prod.mk.injEq, true_and] at standing ⊢
        exact standing.2
      · exact resident

theorem Alike.missed (alike : Alike c l d k) (inside : e < c.cfg.nExpert) :
    Alike (c.missed l e) l (d.missed k e) k := by
  simp only [ExpertCache.missed]
  rw [alike.lay]
  apply alike.replaced
  simp only [Entry.standing, alike.seg inside, alike.rc inside]

theorem Apportioned.missed (apportioned : c.Apportioned) (layer : l < c.cfg.nLayer)
    (inside : e < c.cfg.nExpert) : (c.missed l e).Apportioned where
  ok := (apportioned.ok.missed layer inside).ok
  sum := apportioned.sum
  within := by
    intro j bound
    rw [(apportioned.ok.missed layer inside).resident j]
    exact apportioned.within j bound

theorem Answers.of_admission (alike : Alike c' l d' k) (within : Within c l c')
    (inside : e < c.cfg.nExpert) (resident : (c'.lay l).resident < c.quota l) (origin : Origin)
    (wasGhost : Bool) {s s' : Nat} (named : s ≠ NO_SLOT) (named' : s' ≠ NO_SLOT) :
    Answers c l d k (c'.admitTo l e origin wasGhost s, false, s)
      (d'.admitTo k e origin wasGhost s', false, s') := by
  have inside' : e < c'.cfg.nExpert := by rw [within.cfg]; exact inside
  have admitted := admitTo_eq c' l e origin wasGhost s c'.free
  have admitted' := admitTo_eq d' k e origin wasGhost s' d'.free
  have kept : ((c'.lay l).enqueue e origin wasGhost).1.resident = (c'.lay l).resident := by
    simp only [LayerState.enqueue]
    split
    · rfl
    · split <;> rfl
  refine ⟨?_, ?_, ?_, ?_⟩
  · simp only [ExpertCache.outcome, named, named', Bool.false_eq_true, if_false]
  · rw [admitted, admitted', alike.lay]
    apply alike.replaced
    simp only [Entry.standing, alike.freq inside']
  · exact within.trans (by rw [admitted]; exact Within.replaced inside' _ _ _ _)
  · rw [admitted, replaced_lay_self, kept]
    exact resident

theorem Within.miss (inside : e < c.cfg.nExpert) : Within c l (c.missed l e) :=
  Within.replaced inside _ _ _ _

theorem Alike.acquireMiss (alike : Alike c l d k) (apportioned : c.Apportioned)
    (apportioned' : d.Apportioned) (layer : l < c.cfg.nLayer) (layer' : k < d.cfg.nLayer)
    (inside : e < c.cfg.nExpert) (origin : Origin) :
    Answers c l d k ((c.setEntry l e { c.entry l e with last := c.step }).acquireMiss l e origin)
      ((d.setEntry k e { d.entry k e with last := d.step }).acquireMiss k e origin) := by
  have inside' : e < d.cfg.nExpert := by rw [alike.experts]; exact inside
  have missed := alike.missed inside
  have within := Within.miss (l := l) inside
  have same := (apportioned.ok.missed layer inside).resident l
  have resident := apportioned.within l layer
  have ghost : decide (e ∈ (d.lay k).ghost) = decide (e ∈ (c.lay l).ghost) := by rw [alike.lay]
  rw [acquireMiss_eq origin (apportioned.ok.table _ (c.idx_lt_total layer inside)),
    acquireMiss_eq origin (apportioned'.ok.table _ (d.idx_lt_total layer' inside')), ghost]
  by_cases sweep : origin = .sweep
  · rw [if_pos sweep, if_pos sweep]
    refine ⟨rfl, missed.keep rfl rfl rfl rfl missed.lay missed.entries,
      within.trans ⟨rfl, rfl, rfl, fun _ _ => rfl, fun _ _ _ _ => rfl⟩, ?_⟩
    exact Nat.le_trans (Nat.le_of_eq same) resident
  · rw [if_neg sweep, if_neg sweep]
    have allots := missed.allocSlot (apportioned.missed layer inside)
      (apportioned'.missed layer' inside') layer layer'
    revert allots
    generalize (c.missed l e).allocSlot l = result
    generalize (d.missed k e).allocSlot k = result'
    intro allots
    cases allots with
    | refused =>
        rw [if_pos rfl, if_pos rfl]
        exact ⟨rfl, missed, within, Nat.le_trans (Nat.le_of_eq same) resident⟩
    | allotted alike' within' below named named' =>
        rw [if_neg named, if_neg named']
        exact Answers.of_admission alike' (within.trans within') inside below origin _ named named'

theorem acquire_eq (c : ExpertCache) (l e : Nat) (origin : Origin) :
    c.acquire l e origin =
      if (c.entry l e).seg ≠ .none then
        (c.setEntry l e { c.entry l e with last := c.step }).acquireHit l e
      else (c.setEntry l e { c.entry l e with last := c.step }).acquireMiss l e origin := by
  have read : ((c.setEntry l e { c.entry l e with last := c.step }).entry l e).seg =
      (c.entry l e).seg := by simp
  simp only [ExpertCache.acquire, read]

theorem Alike.acquire (alike : Alike c l d k) (apportioned : c.Apportioned)
    (apportioned' : d.Apportioned) (layer : l < c.cfg.nLayer) (layer' : k < d.cfg.nLayer)
    (inside : e < c.cfg.nExpert) (origin : Origin) :
    Answers c l d k (c.acquire l e origin) (d.acquire k e origin) := by
  have same : (d.entry k e).seg = (c.entry l e).seg := alike.seg inside
  rw [acquire_eq, acquire_eq]
  by_cases absent : (c.entry l e).seg = .none
  · rw [if_neg (not_not.mpr absent), if_neg (not_not.mpr (same.trans absent))]
    exact alike.acquireMiss apportioned apportioned' layer layer' inside origin
  · rw [if_pos absent, if_pos (by rw [same]; exact absent)]
    exact alike.acquireHit apportioned apportioned' layer layer' inside absent

/-! ## The other operations -/

theorem Within.setEntry (inside : e < c.cfg.nExpert) (en : Entry) :
    Within c l (c.setEntry l e en) where
  cfg := rfl
  nSlot := rfl
  quota := rfl
  lay := fun _ _ => rfl
  entries := fun _ _ other inside' =>
    Function.update_of_ne (fun same => other (c.idx_inj inside' inside same).1) _ _

theorem Alike.setEntry (alike : Alike c l d k) {en en' : Entry}
    (standing : en'.standing = en.standing) :
    Alike (c.setEntry l e en) l (d.setEntry k e en') k := by
  apply alike.keep
  · rfl
  · rfl
  · rfl
  · rfl
  · exact alike.lay
  · intro e' inside
    by_cases own : e' = e
    · simpa [own] using standing
    · simpa [own] using alike.entries e' inside

theorem Alike.marked (c : ExpertCache) (l e nbytes : Nat) :
    Alike c l (c.markResident l e nbytes) l := by
  simp only [markResident]
  split
  · exact Alike.refl c l
  · have same : c.setEntry l e (c.entry l e) = c := by
      simp only [ExpertCache.setEntry]
      exact congrArg (fun ent => { c with ent := ent }) (Function.update_eq_self _ _)
    have set : Alike (c.setEntry l e (c.entry l e)) l
        (c.setEntry l e { c.entry l e with resident := true }) l :=
      (Alike.refl c l).setEntry rfl
    rw [same] at set
    exact ⟨set.experts, set.mult, set.quota, set.lay, set.entries⟩

theorem Alike.markResident (alike : Alike c l d k) (nbytes : Nat) :
    Alike (c.markResident l e nbytes) l (d.markResident k e nbytes) k :=
  (Alike.marked c l e nbytes).symm.trans (alike.trans (Alike.marked d k e nbytes))

theorem Alike.release (alike : Alike c l d k) (inside : e < c.cfg.nExpert) :
    Alike (c.release l e) l (d.release k e) k := by
  have same := alike.rc inside
  simp only [ExpertCache.release, same]
  split
  · apply alike.setEntry
    simp only [Entry.standing, alike.seg inside, alike.freq inside]
  · exact alike

theorem Within.markResident (inside : e < c.cfg.nExpert) (nbytes : Nat) :
    Within c l (c.markResident l e nbytes) := by
  simp only [ExpertCache.markResident]
  split
  · exact Within.refl c l
  · exact (Within.setEntry inside _).trans ⟨rfl, rfl, rfl, fun _ _ => rfl, fun _ _ _ _ => rfl⟩

theorem Within.release (inside : e < c.cfg.nExpert) : Within c l (c.release l e) := by
  simp only [ExpertCache.release]
  split
  · exact Within.setEntry inside _
  · exact Within.refl c l

theorem endStep_static (static : c.cfg.layerQuotaAdapt = false) :
    c.endStep = { c with step := u32 (c.step + 1) } := by
  simp only [endStep, static, Bool.false_eq_true, false_and, if_false]

theorem Within.endStep (static : c.cfg.layerQuotaAdapt = false) (l : Nat) :
    Within c l c.endStep ∧ Alike c l c.endStep l := by
  rw [endStep_static static]
  exact ⟨⟨rfl, rfl, rfl, fun _ _ => rfl, fun _ _ _ _ => rfl⟩,
    ⟨rfl, rfl, rfl, rfl, fun _ _ => rfl⟩⟩

/-! ## A layer and a cache of its own -/

/-- The operation of layer `l` as one of a cache that has this layer only. -/
def Op.toLayer (l : Nat) : Op → Option Op
  | .acquire k e origin => if k = l then some (.acquire 0 e origin) else none
  | .markResident k e nbytes => if k = l then some (.markResident 0 e nbytes) else none
  | .release k e => if k = l then some (.release 0 e) else none
  | .endStep => none
  | .buildPinned _ _ => none

def layerOps (l : Nat) (ops : List Op) : List Op := ops.filterMap (Op.toLayer l)

/-- The outcomes of the requests to layer `l` in a run. -/
def outcomes (l : Nat) (c : ExpertCache) : List Op → List Outcome
  | [] => []
  | .acquire k e origin :: rest =>
      if k = l then outcome (c.acquire k e origin) :: outcomes l (c.acquire k e origin).1 rest
      else outcomes l (c.acquire k e origin).1 rest
  | op :: rest => outcomes l (c.apply op) rest

/-- The configuration of the separate cache of layer `l`. -/
def alone (cfg : Config) (l : Nat) : Config :=
  { cfg with nLayer := 1, nSlot := (init cfg).quota l }

/-- Layer `l` of `c` and a cache `d` of its own. -/
structure Served (c : ExpertCache) (l : Nat) (d : ExpertCache) : Prop where
  alike : Alike c l d 0
  apportioned : c.Apportioned
  separate : d.Apportioned
  layer : l < c.cfg.nLayer
  one : 0 < d.cfg.nLayer
  static : c.cfg.layerQuotaAdapt = false

theorem Apportioned.keep (apportioned : c.Apportioned) (within : Within c l c') (ok : c'.Ok)
    (resident : (c'.lay l).resident ≤ c.quota l) : c'.Apportioned where
  ok := ok
  sum := by
    rw [within.cfg, within.quota, within.nSlot]
    exact apportioned.sum
  within := by
    rw [within.cfg, within.quota]
    intro j layer
    by_cases own : j = l
    · subst own
      exact resident
    · rw [within.lay j own]
      exact apportioned.within j layer

theorem Apportioned.acquire (apportioned : c.Apportioned) (layer : l < c.cfg.nLayer)
    (inside : e < c.cfg.nExpert) (origin : Origin) :
    Within c l (c.acquire l e origin).1 ∧ (c.acquire l e origin).1.Apportioned := by
  have answers := (Alike.refl c l).acquire apportioned apportioned layer layer inside origin
  have ok := (apportioned.ok.acquire layer inside origin).1.ok
  exact ⟨answers.within, apportioned.keep answers.within ok answers.resident⟩

theorem Apportioned.markResident (apportioned : c.Apportioned) (layer : l < c.cfg.nLayer)
    (inside : e < c.cfg.nExpert) (nbytes : Nat) :
    Within c l (c.markResident l e nbytes) ∧ (c.markResident l e nbytes).Apportioned := by
  have within : Within c l (c.markResident l e nbytes) := Within.markResident inside nbytes
  refine ⟨within, apportioned.keep within (apportioned.ok.markResident layer inside nbytes) ?_⟩
  rw [(Alike.marked c l e nbytes).lay]
  exact apportioned.within l layer

theorem Apportioned.release (apportioned : c.Apportioned) (layer : l < c.cfg.nLayer)
    (inside : e < c.cfg.nExpert) :
    Within c l (c.release l e) ∧ (c.release l e).Apportioned := by
  have within : Within c l (c.release l e) := Within.release inside
  refine ⟨within, apportioned.keep within (apportioned.ok.release layer inside) ?_⟩
  have lay : (c.release l e).lay = c.lay := by
    simp only [ExpertCache.release]
    split <;> rfl
  rw [lay]
  exact apportioned.within l layer

theorem Apportioned.endStep (apportioned : c.Apportioned)
    (static : c.cfg.layerQuotaAdapt = false) (layer : l < c.cfg.nLayer) :
    c.endStep.Apportioned := by
  obtain ⟨within, alike⟩ := Within.endStep static l
  apply apportioned.keep within apportioned.ok.endStep.ok
  rw [alike.lay]
  exact apportioned.within l layer

theorem Served.own (served : Served c l d) (alike : Alike c' l d' 0) (within : Within c l c')
    (apportioned : c'.Apportioned) (separate : d'.Apportioned) (cfg : d'.cfg = d.cfg) :
    Served c' l d' where
  alike := alike
  apportioned := apportioned
  separate := separate
  layer := by rw [within.cfg]; exact served.layer
  one := by rw [cfg]; exact served.one
  static := by rw [within.cfg]; exact served.static

theorem Served.other (served : Served c l d) {j : Nat} (other : l ≠ j) (within : Within c j c')
    (apportioned : c'.Apportioned) : Served c' l d where
  alike := served.alike.other other within
  apportioned := apportioned
  separate := served.separate
  layer := by rw [within.cfg]; exact served.layer
  one := served.one
  static := by rw [within.cfg]; exact served.static

theorem Served.run (served : Served c l d) (ops : List Op)
    (inRange : ∀ op ∈ ops, op.InRange c.cfg)
    (unpinned : ∀ op ∈ ops, ∀ freq order, op ≠ .buildPinned freq order) :
    outcomes l c ops = outcomes 0 d (layerOps l ops) ∧
      Served (c.run ops) l (d.run (layerOps l ops)) := by
  induction ops generalizing c d with
  | nil => exact ⟨rfl, served⟩
  | cons op rest ih =>
      have here := inRange op List.mem_cons_self
      have later : ∀ {c'' : ExpertCache}, c''.cfg = c.cfg → ∀ op ∈ rest, op.InRange c''.cfg := by
        intro c'' cfg op' member
        rw [cfg]
        exact inRange op' (List.mem_cons_of_mem op member)
      have plain : ∀ op ∈ rest, ∀ freq order, op ≠ .buildPinned freq order :=
        fun op' member => unpinned op' (List.mem_cons_of_mem op member)
      have apportioned := served.apportioned
      cases op with
      | acquire k e origin =>
          obtain ⟨layer, inside⟩ := here
          obtain ⟨within, kept⟩ := apportioned.acquire layer inside origin
          by_cases own : k = l
          · subst own
            have inside' : e < d.cfg.nExpert := by
              rw [served.alike.experts]
              exact inside
            have answers := served.alike.acquire apportioned served.separate layer served.one
              inside origin
            obtain ⟨within', kept'⟩ := served.separate.acquire served.one inside' origin
            obtain ⟨same, after⟩ := ih
              (served.own answers.alike within kept kept' within'.cfg) (later within.cfg) plain
            have shown : layerOps k (.acquire k e origin :: rest) =
                .acquire 0 e origin :: layerOps k rest := by
              simp [layerOps, Op.toLayer]
            rw [shown]
            refine ⟨?_, after⟩
            simp only [outcomes, if_true, answers.outcome, same]
          · obtain ⟨same, after⟩ := ih (served.other (Ne.symm own) within kept)
              (later within.cfg) plain
            have hidden : layerOps l (.acquire k e origin :: rest) = layerOps l rest := by
              simp [layerOps, Op.toLayer, own]
            rw [hidden]
            refine ⟨?_, after⟩
            simp only [outcomes, own, if_false, same]
      | markResident k e nbytes =>
          obtain ⟨layer, inside⟩ := here
          obtain ⟨within, kept⟩ := apportioned.markResident layer inside nbytes
          by_cases own : k = l
          · subst own
            have inside' : e < d.cfg.nExpert := by
              rw [served.alike.experts]
              exact inside
            obtain ⟨within', kept'⟩ := served.separate.markResident served.one inside' nbytes
            have shown : layerOps k (.markResident k e nbytes :: rest) =
                .markResident 0 e nbytes :: layerOps k rest := by
              simp [layerOps, Op.toLayer]
            rw [shown]
            exact ih (served.own (served.alike.markResident nbytes) within kept kept' within'.cfg)
              (later within.cfg) plain
          · have hidden : layerOps l (.markResident k e nbytes :: rest) = layerOps l rest := by
              simp [layerOps, Op.toLayer, own]
            rw [hidden]
            exact ih (served.other (Ne.symm own) within kept) (later within.cfg) plain
      | release k e =>
          obtain ⟨layer, inside⟩ := here
          obtain ⟨within, kept⟩ := apportioned.release layer inside
          by_cases own : k = l
          · subst own
            have inside' : e < d.cfg.nExpert := by
              rw [served.alike.experts]
              exact inside
            obtain ⟨within', kept'⟩ := served.separate.release served.one inside'
            have shown : layerOps k (.release k e :: rest) = .release 0 e :: layerOps k rest := by
              simp [layerOps, Op.toLayer]
            rw [shown]
            exact ih (served.own (served.alike.release inside) within kept kept' within'.cfg)
              (later within.cfg) plain
          · have hidden : layerOps l (.release k e :: rest) = layerOps l rest := by
              simp [layerOps, Op.toLayer, own]
            rw [hidden]
            exact ih (served.other (Ne.symm own) within kept) (later within.cfg) plain
      | endStep =>
          obtain ⟨within, alike⟩ := Within.endStep served.static l
          have kept := apportioned.endStep served.static served.layer
          have hidden : layerOps l (.endStep :: rest) = layerOps l rest :=
            List.filterMap_cons_none rfl
          rw [hidden]
          exact ih (served.own (alike.symm.trans served.alike) within kept served.separate rfl)
            (later within.cfg) plain
      | buildPinned freq order =>
          exact absurd rfl (unpinned _ List.mem_cons_self freq order)

theorem Served.initial {cfg : Config} (static : cfg.layerQuotaAdapt = false)
    (enough : cfg.nLayer ≤ (init cfg).nSlot) (layer : l < cfg.nLayer) :
    Served (init cfg) l (init (alone cfg l)) := by
  have layers : 0 < cfg.nLayer := Nat.lt_of_le_of_lt (Nat.zero_le l) layer
  have apportioned := init_apportioned layers
  have positive := init_quota_pos layers enough l
  have slots : (init (alone cfg l)).nSlot = (init cfg).quota l := by
    have bound := apportioned.quota_le layer
    have small := apportioned.ok.slots
    have named : (alone cfg l).nSlot ≠ 0 := Nat.ne_of_gt positive
    have fits : (init cfg).quota l < 2 ^ 32 := by
      simp only [NO_SLOT] at small
      omega
    calc (init (alone cfg l)).nSlot = u32 ((init cfg).quota l) := if_pos named
      _ = (init cfg).quota l := u32_eq fits
  refine ⟨⟨rfl, rfl, ?_, rfl, fun _ _ => rfl⟩, apportioned, init_apportioned Nat.one_pos, layer,
    Nat.one_pos, static⟩
  have single : (init (alone cfg l)).Single := Single.initial rfl
  rw [single.quota, slots]

/-- Layers of a static cache do not interact: each is served as by a cache of its
own, stays within its quota and leaves the others alone. -/
theorem layers_isolated {cfg : Config} (static : cfg.layerQuotaAdapt = false)
    (enough : cfg.nLayer ≤ (init cfg).nSlot) (ops : List Op)
    (inRange : ∀ op ∈ ops, op.InRange cfg)
    (unpinned : ∀ op ∈ ops, ∀ freq order, op ≠ .buildPinned freq order)
    (layer : l < cfg.nLayer) :
    let c := (init cfg).run ops
    let d := (init (alone cfg l)).run (layerOps l ops)
    outcomes l (init cfg) ops = outcomes 0 (init (alone cfg l)) (layerOps l ops) ∧
      ((c.lay l).small = (d.lay 0).small ∧ (c.lay l).main = (d.lay 0).main ∧
        (c.lay l).ghost = (d.lay 0).ghost) ∧
      (c.lay l).resident ≤ c.quota l ∧ ∑ k ∈ Finset.range cfg.nLayer, c.quota k = c.nSlot ∧
      Within c l (c.allocSlot l).1 ∧
      ∀ e origin, e < cfg.nExpert → Within c l (c.acquire l e origin).1 := by
  intro c d
  obtain ⟨same, served⟩ := (Served.initial static enough layer).run ops inRange unpinned
  have apportioned : c.Apportioned := served.apportioned
  have kept : c.cfg = cfg := ((init_ok cfg).run ops inRange).2.1
  have queues := served.alike.lay
  refine ⟨same, ?_, apportioned.within l served.layer, ?_, ?_, ?_⟩
  · rw [queues]
    exact ⟨rfl, rfl, rfl⟩
  · rw [← kept]
    exact apportioned.sum
  · have allots := (Alike.refl c l).allocSlot apportioned apportioned served.layer served.layer
    revert allots
    generalize c.allocSlot l = result
    intro allots
    cases allots with
    | refused => exact Within.refl c l
    | allotted _ within _ _ _ => exact within
  · intro e origin inside
    exact (apportioned.acquire served.layer (by rw [kept]; exact inside) origin).1

def twoLayers : Config :=
  { nLayer := 2, nExpert := 3, nSlot := 3, layerQuotaAdapt := false }

/-- Layer 1 has one slot, which is in use when expert 2 is requested. -/
theorem layers_isolated_two :
    outcomes 1 (init twoLayers) [.acquire 0 0 .demand, .acquire 1 1 .demand, .endStep,
        .acquire 1 2 .demand, .acquire 0 2 .demand] =
      outcomes 0 (init (alone twoLayers 1)) [.acquire 0 1 .demand, .acquire 0 2 .demand] := by
  have isolated := @layers_isolated 1 twoLayers rfl (by decide)
    [.acquire 0 0 .demand, .acquire 1 1 .demand, .endStep, .acquire 1 2 .demand,
      .acquire 0 2 .demand]
    (by
      intro op member
      simp only [List.mem_cons, List.not_mem_nil, or_false] at member
      rcases member with rfl | rfl | rfl | rfl | rfl
      · exact ⟨by decide, by decide⟩
      · exact ⟨by decide, by decide⟩
      · trivial
      · exact ⟨by decide, by decide⟩
      · exact ⟨by decide, by decide⟩)
    (by
      intro op member freq order pinned
      rw [pinned] at member
      simp at member)
    (by decide)
  exact isolated.1

end ExpertCache

end MoeStream
