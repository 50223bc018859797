import MoeStream.Foundation.FloatFormat
import MoeStream.Slab.Remap

/-!
# Sizing the slab and routing a batch

Embedding of `slab_slots`, of the threshold `finalize` derives from it and of
the choice `prefill_exps` makes.  Every operation on doubles is rounded, in the
order of the source; a power with an integer exponent is the rational power.
-/

set_option autoImplicit false

namespace MoeStream

open Foundation.FixedWidth Foundation.FloatFormat Foundation.FloatFormat.Format

/-- `MOESTREAM_CACHE_FRAC`: learned, from a budget in GiB, or a number. -/
inductive Fraction where
  | learn (recorded : ℚ)
  | auto (slabGib : ℚ) (bytesPerSlot : Nat)
  | fixed (frac : ℚ)

/-- `(uint32_t)(double(n_expert) * v + 0.5)`. -/
def roundSlots (nExpert : Nat) (v : ℚ) : Nat :=
  (truncate (double (double (nExpert * v) + 1 / 2))).toNat

/-- The slot count the fraction asks for; nothing recorded reads as `0`. -/
def Fraction.slots (nExpert : Nat) : Fraction → Nat
  | .learn recorded => roundSlots nExpert (if 0 < recorded then recorded else double (15 / 100))
  | .auto slabGib per =>
      if 0 < per then
        min (u32 (max 1 ((truncate (double (slabGib * 1073741824))).toNat / per))) nExpert
      else roundSlots nExpert (double (38 / 100))
  | .fixed frac => roundSlots nExpert frac

/-- What the sizes are computed from.  `topK` and `seenTopK` are `0` when
unknown. -/
structure Sizing where
  nExpert : Nat
  topK : Nat
  seenTopK : Nat := 0
  maxUbatch : Nat := 2
  fraction : Fraction

/-- The expected union of `n` tokens with `tk` experts each. -/
def unionOf (nExpert : Nat) (tk : Nat) (n : Nat) : ℚ :=
  double (nExpert * double (1 - double (1 - double (tk / nExpert)) ^ n))

/-- `u * 1.15`. -/
def margin (u : ℚ) : ℚ := double (u * double (115 / 100))

/-- `need` of `slab_slots`: one micro-batch's union, with a margin. -/
def Sizing.need (z : Sizing) : Nat :=
  let tk := if 0 < z.topK then z.topK else 8
  min z.nExpert ((truncate (margin (unionOf z.nExpert tk z.maxUbatch))).toNat + tk)

example : Sizing.need ⟨512, 100, 0, 1, .fixed 0⟩ = 214 := by decide +kernel

/-- `g_slots`. -/
def Sizing.slots (z : Sizing) : Nat :=
  max 8 (min (max (z.fraction.slots z.nExpert) z.need) z.nExpert)

/-- The test of the threshold loop: the union of `n` tokens stays below the
slots. -/
def Sizing.fits (z : Sizing) (n : Nat) : Bool :=
  let tk := if 0 < z.topK then z.topK else if 0 < z.seenTopK then z.seenTopK else 8
  decide (double (margin (unionOf z.nExpert tk n) + tk) ≤ z.slots)

/-- The loop of `finalize` from `n` on. -/
def thresholdFrom (fits : Nat → Bool) : Nat → Nat → Nat
  | 0, n => n
  | turns + 1, n => if fits (n + 1) then thresholdFrom fits turns (n + 1) else n

/-- `g_pf_threshold`; the loop runs while `n < 4096`. -/
def Sizing.threshold (z : Sizing) : Nat := thresholdFrom z.fits 4095 1

/-- The tokens of a batch that may go to the slab: with the arena up to the
threshold, without it up to the micro-batch the slab was sized for. -/
def Sizing.limit (z : Sizing) (pfReady : Bool) : Nat :=
  if pfReady then z.threshold else z.maxUbatch

/-- A batch that goes to the slab: each row names `top_k` distinct experts. -/
structure Routed (z : Sizing) (pfReady : Bool) (call : Call) : Prop where
  once : call.np = 1 ∧ call.pass = 0
  tokens : call.ids.ne1 ≤ z.limit pfReady
  columns : call.ids.ne0 = z.topK
  inside : ∀ j k, j < call.ids.ne1 → k < call.ids.ne0 →
    0 ≤ call.ids.at j k ∧ call.ids.at j k < z.nExpert
  distinct : ∀ j k k', j < call.ids.ne1 → k < call.ids.ne0 → k' < call.ids.ne0 →
    call.ids.at j k = call.ids.at j k' → k = k'

theorem Sizing.slots_lt {z : Sizing} (experts : z.nExpert < 2 ^ 32) : z.slots < 2 ^ 32 := by
  simp only [Sizing.slots]
  omega

theorem Sizing.slots_pos (z : Sizing) : 1 ≤ z.slots := by
  simp only [Sizing.slots]
  omega

/-! ## The threshold -/

theorem unionOf_mono {nExpert tk : Nat} (few : tk ≤ nExpert) {m n : Nat} (le : m ≤ n) :
    unionOf nExpert tk m ≤ unionOf nExpert tk n := by
  have ratio : double (tk / nExpert) ≤ 1 :=
    nearest_le exact_one (div_le_one_of_le₀ (by exact_mod_cast few) (by positivity))
  have positive : 0 ≤ double (tk / nExpert) := nearest_nonneg (by positivity)
  have low : 0 ≤ double (1 - double (tk / nExpert)) := nearest_nonneg (by linarith)
  have high : double (1 - double (tk / nExpert)) ≤ 1 := nearest_le exact_one (by linarith)
  have powers := pow_le_pow_of_le_one low high le
  simp only [unionOf]
  apply nearest_mono
  gcongr
  apply nearest_mono
  linarith

theorem margin_mono {u v : ℚ} (le : u ≤ v) : margin u ≤ margin v := by
  have positive : 0 ≤ double (115 / 100) := nearest_nonneg (by norm_num)
  exact nearest_mono (mul_le_mul_of_nonneg_right le positive)

theorem Sizing.fits_mono {z : Sizing} (known : 0 < z.topK) (few : z.topK ≤ z.nExpert) {m n : Nat}
    (le : m ≤ n) (fits : z.fits n = true) : z.fits m = true := by
  simp only [Sizing.fits, known, if_true, decide_eq_true_eq] at fits ⊢
  have less := margin_mono (unionOf_mono few le)
  exact (nearest_mono (by linarith)).trans fits

theorem le_thresholdFrom {fits : Nat → Bool}
    (mono : ∀ m n, m ≤ n → fits n = true → fits m = true) (turns start n : Nat)
    (later : start < n) :
    n ≤ thresholdFrom fits turns start ↔ n ≤ start + turns ∧ fits n = true := by
  induction turns generalizing start with
  | zero =>
      simp only [thresholdFrom]
      omega
  | succ turns ih =>
      simp only [thresholdFrom]
      split
      · rename_i next
        by_cases last : n = start + 1
        · subst last
          have least : ∀ turns start, start ≤ thresholdFrom fits turns start := by
            intro turns
            induction turns with
            | zero => exact fun _ => Nat.le_refl _
            | succ turns ih =>
                intro start
                simp only [thresholdFrom]
                split
                · exact (Nat.le_succ start).trans (ih (start + 1))
                · exact Nat.le_refl _
          exact iff_of_true (least turns (start + 1)) ⟨by omega, next⟩
        · rw [ih (start + 1) (by omega), Nat.add_assoc, Nat.add_comm 1 turns]
      · rename_i stop
        apply iff_of_false (by omega)
        rintro ⟨_, fit⟩
        exact stop (mono (start + 1) n later fit)

/-- A configuration whose largest routed batch cannot name more experts than
there are slots.  With the arena, the first batch that could is the one of
`g_slots / top_k + 1` tokens, and it must fail the test of the threshold loop. -/
def Sizing.Safe (z : Sizing) : Bool → Prop
  | true => z.nExpert ≤ z.slots ∨ 4096 * z.topK ≤ z.slots ∨
      (z.slots : ℚ) < double (margin (unionOf z.nExpert z.topK (z.slots / z.topK + 1)) + z.topK)
  | false => z.nExpert ≤ z.slots ∨ z.maxUbatch * z.topK ≤ z.slots

theorem Sizing.topK_le {z : Sizing} (known : 0 < z.topK) (few : z.topK ≤ z.nExpert) :
    z.topK ≤ z.slots := by
  simp only [Sizing.slots, Sizing.need, known, if_true]
  omega

theorem Sizing.safe_iff {z : Sizing} (known : 0 < z.topK) (few : z.topK ≤ z.nExpert)
    (pfReady : Bool) :
    z.Safe pfReady ↔ min z.nExpert (z.limit pfReady * z.topK) ≤ z.slots := by
  cases pfReady with
  | false =>
      simp only [Sizing.Safe, Sizing.limit, Bool.false_eq_true, if_false]
      omega
  | true =>
      have one := z.topK_le known few
      have quotient : 1 ≤ z.slots / z.topK := (Nat.one_le_div_iff known).mpr one
      have reach := le_thresholdFrom (fun m n => z.fits_mono known few) 4095 1
        (z.slots / z.topK + 1) (by omega)
      have beyond : ∀ n, z.slots < n * z.topK ↔ z.slots / z.topK + 1 ≤ n :=
        fun n => (Nat.div_lt_iff_lt_mul known).symm
      have test : z.fits (z.slots / z.topK + 1) = true ↔
          ¬(z.slots : ℚ) <
            double (margin (unionOf z.nExpert z.topK (z.slots / z.topK + 1)) + z.topK) := by
        simp only [Sizing.fits, known, if_true, decide_eq_true_eq, not_lt]
      have within : z.threshold * z.topK ≤ z.slots ↔ 4096 * z.topK ≤ z.slots ∨
          (z.slots : ℚ) <
            double (margin (unionOf z.nExpert z.topK (z.slots / z.topK + 1)) + z.topK) := by
        have exceeds : z.slots < z.threshold * z.topK ↔
            z.slots < 4096 * z.topK ∧ z.fits (z.slots / z.topK + 1) = true := by
          rw [beyond, beyond]
          exact reach
        rw [← Nat.not_lt, exceeds, test, ← Nat.not_lt, not_and_or, not_not]
      have limit : z.limit true = z.threshold := rfl
      rw [limit, min_le_iff, within]
      exact Iff.rfl

end MoeStream
