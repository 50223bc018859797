import Mathlib.Algebra.BigOperators.Group.Finset.Piecewise
import Mathlib.Algebra.Order.BigOperators.Group.Finset
import MoeStream.Cache.Refusal

/-!
# Quotas and free slots

A static cache splits its slots into quotas when it is built.  As long as no
layer is over its quota, the quotas count the free slots: a layer below its
quota always finds one.
-/

set_option autoImplicit false

namespace MoeStream

open Foundation.FixedWidth
open Foundation.TokenPartition

namespace ExpertCache

variable {c : ExpertCache} {l : Nat}

/-! ## The even split -/

theorem sum_handRemainder {n : Nat} (layers : 0 < n) (r i : Nat) (quota : Nat → Nat) :
    ∑ l ∈ Finset.range n, handRemainder n r i quota l = ∑ l ∈ Finset.range n, quota l + r := by
  induction r generalizing i quota with
  | zero => rfl
  | succ r ih =>
      have member : i % n ∈ Finset.range n := Finset.mem_range.mpr (Nat.mod_lt i layers)
      rw [handRemainder, ih, Finset.sum_update_of_mem member,
        ← Finset.add_sum_erase _ quota member, Finset.sdiff_singleton_eq_erase]
      omega

theorem le_handRemainder (n r i : Nat) (quota : Nat → Nat) (l : Nat) :
    quota l ≤ handRemainder n r i quota l := by
  induction r generalizing i quota with
  | zero => exact Nat.le_refl _
  | succ r ih =>
      apply Nat.le_trans ?_ (ih _ _)
      by_cases own : l = i % n
      · subst own
        rw [Function.update_self]
        exact Nat.le_succ _
      · rw [Function.update_of_ne own]

theorem init_quota_sum {cfg : Config} (layers : 0 < cfg.nLayer) :
    ∑ l ∈ Finset.range cfg.nLayer, (init cfg).quota l = (init cfg).nSlot := by
  have shared := Nat.div_mul_le_self (init cfg).nSlot cfg.nLayer
  calc ∑ l ∈ Finset.range cfg.nLayer, (init cfg).quota l
      = ∑ _l ∈ Finset.range cfg.nLayer, (init cfg).nSlot / cfg.nLayer +
          ((init cfg).nSlot - (init cfg).nSlot / cfg.nLayer * cfg.nLayer) :=
        sum_handRemainder layers _ 0 _
    _ = (init cfg).nSlot := by
        rw [Finset.sum_const_nat fun _ _ => rfl, Finset.card_range, Nat.mul_comm]
        omega

theorem init_quota_pos {cfg : Config} (layers : 0 < cfg.nLayer)
    (enough : cfg.nLayer ≤ (init cfg).nSlot) (l : Nat) : 0 < (init cfg).quota l := by
  have share : (init cfg).nSlot / cfg.nLayer ≤ (init cfg).quota l :=
    le_handRemainder _ _ _ (fun _ => (init cfg).nSlot / cfg.nLayer) l
  exact Nat.lt_of_lt_of_le (Nat.div_pos enough layers) share

/-! ## Counting the slots -/

theorem countP_blocks (p : Nat → Bool) (m n : Nat) :
    (List.range (m * n)).countP p =
      ∑ l ∈ Finset.range m, (List.range n).countP fun e => p (l * n + e) := by
  induction m with
  | zero => simp
  | succ m ih =>
      rw [Finset.sum_range_succ, ← ih, Nat.succ_mul, List.range_add, List.countP_append,
        List.countP_map]
      rfl

/-- Every slot is free or held by a resident expert of some layer. -/
theorem Ok.resident_sum (ok : c.Ok) :
    ∑ l ∈ Finset.range c.cfg.nLayer, (c.lay l).resident + c.free.length = c.nSlot := by
  have counted := ok.split.length_eq
  have held : (owned c.total c.seats).length =
      ∑ l ∈ Finset.range c.cfg.nLayer, (c.lay l).resident := by
    simp only [owned, total]
    rw [List.length_filterMap_eq_countP, countP_blocks]
    apply Finset.sum_congr rfl
    intro l member
    rw [ok.represents.resident l (Finset.mem_range.mp member)]
    apply List.countP_congr
    intro e _
    have seat : c.seats (l * c.cfg.nExpert + e) = (c.entry l e).held := rfl
    cases held : (c.entry l e).held with
    | none => simp [seat, held, Entry.held_none.mp held]
    | some s => simp [seat, held, (Entry.held_some.mp held).1]
  rw [List.length_range] at counted
  omega

/-- A cache whose layers stay within quotas that sum to its slots. -/
structure Apportioned (c : ExpertCache) : Prop where
  ok : c.Ok
  sum : ∑ l ∈ Finset.range c.cfg.nLayer, c.quota l = c.nSlot
  within : ∀ l, l < c.cfg.nLayer → (c.lay l).resident ≤ c.quota l

theorem Apportioned.quota_le (apportioned : c.Apportioned) (layer : l < c.cfg.nLayer) :
    c.quota l ≤ c.nSlot := by
  rw [← apportioned.sum]
  exact Finset.single_le_sum (fun k _ => Nat.zero_le (c.quota k)) (Finset.mem_range.mpr layer)

theorem Apportioned.free_below (apportioned : c.Apportioned) (layer : l < c.cfg.nLayer)
    (below : (c.lay l).resident < c.quota l) : ∃ s rest, c.free = s :: rest := by
  have less : ∑ k ∈ Finset.range c.cfg.nLayer, (c.lay k).resident <
      ∑ k ∈ Finset.range c.cfg.nLayer, c.quota k := by
    apply Finset.sum_lt_sum
    · exact fun k member => apportioned.within k (Finset.mem_range.mp member)
    · exact ⟨l, Finset.mem_range.mpr layer, below⟩
  have room := apportioned.ok.resident_sum
  rw [apportioned.sum] at less
  cases free : c.free with
  | nil =>
      rw [free, List.length_nil] at room
      omega
  | cons s rest => exact ⟨s, rest, rfl⟩

theorem init_apportioned {cfg : Config} (layers : 0 < cfg.nLayer) : (init cfg).Apportioned where
  ok := init_ok cfg
  sum := init_quota_sum layers
  within := fun _ _ => Nat.zero_le _

end ExpertCache

end MoeStream
