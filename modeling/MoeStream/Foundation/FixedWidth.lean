import Mathlib.Data.Rat.Floor
import Mathlib.Tactic.Linarith

/-!
# Fixed-width integers and conversions from exact arithmetic

Unsigned values are natural numbers reduced at the places where the width can
be reached; signed values are integers reduced to the balanced range.  A
conversion from a floating value is truncation towards zero of an exact
rational.
-/

set_option autoImplicit false

namespace MoeStream.Foundation.FixedWidth

def u16 (n : Nat) : Nat := n % 2 ^ 16

def u32 (n : Nat) : Nat := n % 2 ^ 32

def u64 (n : Nat) : Nat := n % 2 ^ 64

def i32 (z : Int) : Int := Int.bmod z (2 ^ 32)

def i64 (z : Int) : Int := Int.bmod z (2 ^ 64)

/-- Conversion of a real value to an integer type: the fraction is dropped. -/
def truncate (q : ℚ) : Int := if 0 ≤ q then ⌊q⌋ else ⌈q⌉

/-- The nearest integer, the even one halfway between two. -/
def roundEven (q : ℚ) : Int :=
  let below := ⌊q⌋
  if q - below < 1 / 2 ∨ (q - below = 1 / 2 ∧ below % 2 = 0) then below else below + 1

theorem u16_le (n : Nat) : u16 n ≤ n := Nat.mod_le n _

theorem u16_eq {n : Nat} (small : n < 2 ^ 16) : u16 n = n := Nat.mod_eq_of_lt small

theorem u32_lt (n : Nat) : u32 n < 2 ^ 32 := Nat.mod_lt n (by decide)

theorem u32_eq {n : Nat} (small : n < 2 ^ 32) : u32 n = n := Nat.mod_eq_of_lt small

theorem u64_eq {n : Nat} (small : n < 2 ^ 64) : u64 n = n := Nat.mod_eq_of_lt small

@[simp] theorem u64_add (m n : Nat) : u64 (u64 m + n) = u64 (m + n) := Nat.mod_add_mod m (2 ^ 64) n

@[simp] theorem u64_add_u64 (m n : Nat) :
    u64 (m + u64 n) = u64 (m + n) := Nat.add_mod_mod m n (2 ^ 64)

theorem i32_eq {n : Nat} (small : n < 2 ^ 31) : i32 n = n := by
  simp only [i32]
  exact Int.bmod_eq_of_le (by omega) (by omega)

theorem i64_eq {n : Nat} (small : n < 2 ^ 63) : i64 n = n := by
  simp only [i64]
  exact Int.bmod_eq_of_le (by omega) (by omega)

/-- Unsigned values of 32 bits stay apart when read as signed ones. -/
theorem i32_inj {a b : Nat} (smallA : a < 2 ^ 32) (smallB : b < 2 ^ 32)
    (same : i32 a = i32 b) : a = b := by
  simp only [i32] at same
  have residues : (a : Int) % (2 ^ 32 : Nat) = (b : Int) % (2 ^ 32 : Nat) := by
    rw [← Int.bmod_emod, ← Int.bmod_emod (x := (b : Int)), same]
  omega

theorem roundEven_near (q : ℚ) : (roundEven q : ℚ) - 1 / 2 ≤ q ∧ q ≤ roundEven q + 1 / 2 := by
  have low := Int.floor_le q
  have high := Int.lt_floor_add_one q
  simp only [roundEven]
  split
  · rename_i down
    have half : q - ⌊q⌋ ≤ 1 / 2 := down.elim le_of_lt fun tie => le_of_eq tie.1
    constructor <;> linarith
  · rename_i up
    have half : 1 / 2 ≤ q - ⌊q⌋ := not_lt.mp fun less => up (Or.inl less)
    push_cast
    constructor <;> linarith

theorem roundEven_le {q : ℚ} {n : Int} (le : q ≤ n) : roundEven q ≤ n := by
  have near := (roundEven_near q).1
  have close : (roundEven q : ℚ) < n + 1 := by linarith
  exact Int.lt_add_one_iff.mp (by exact_mod_cast close)

theorem le_roundEven {q : ℚ} {n : Int} (le : (n : ℚ) ≤ q) : n ≤ roundEven q := by
  have near := (roundEven_near q).2
  have close : (n : ℚ) < roundEven q + 1 := by linarith
  exact Int.lt_add_one_iff.mp (by exact_mod_cast close)

@[simp] theorem roundEven_intCast (n : Int) : roundEven n = n :=
  le_antisymm (roundEven_le le_rfl) (le_roundEven le_rfl)

theorem roundEven_eq {q : ℚ} {n : Int} (near : |q - n| < 1 / 2) : roundEven q = n := by
  obtain ⟨low, high⟩ := abs_lt.mp near
  obtain ⟨below, above⟩ := roundEven_near q
  have upper : (roundEven q : ℚ) < n + 1 := by linarith
  have lower : (n : ℚ) < roundEven q + 1 := by linarith
  exact le_antisymm (Int.lt_add_one_iff.mp (by exact_mod_cast upper))
    (Int.lt_add_one_iff.mp (by exact_mod_cast lower))

theorem roundEven_mono {q r : ℚ} (le : q ≤ r) : roundEven q ≤ roundEven r := by
  rcases lt_or_eq_of_le (Int.floor_mono le) with apart | same
  · -- an integer lies between them
    have upper : roundEven q ≤ ⌊q⌋ + 1 := by
      simp only [roundEven]
      split <;> omega
    exact upper.trans ((show ⌊q⌋ + 1 ≤ ⌊r⌋ from apart).trans (le_roundEven (Int.floor_le r)))
  · simp only [roundEven]
    rw [same]
    split
    · split <;> omega
    · rename_i up
      rw [if_neg]
      rintro (less | ⟨tie, even⟩)
      · exact up (Or.inl (by linarith))
      · rcases lt_or_eq_of_le le with less | rfl
        · exact up (Or.inl (by linarith))
        · exact up (Or.inr ⟨tie, even⟩)

theorem roundEven_neg (q : ℚ) : roundEven (-q) = -roundEven q := by
  by_cases whole : q = ⌊q⌋
  · rw [whole, ← Int.cast_neg, roundEven_intCast, roundEven_intCast]
  · have below : (⌊q⌋ : ℚ) < q := lt_of_le_of_ne (Int.floor_le q) (Ne.symm whole)
    have floor : ⌊-q⌋ = -⌊q⌋ - 1 := by
      apply Int.floor_eq_iff.mpr
      have above := Int.lt_floor_add_one q
      push_cast
      constructor <;> linarith
    have flipped : -q - ((-⌊q⌋ - 1 : Int) : ℚ) = 1 - (q - ⌊q⌋) := by
      push_cast
      ring
    simp only [roundEven]
    rw [floor, flipped]
    rcases lt_trichotomy (q - ⌊q⌋) (1 / 2) with less | tie | more
    · have other : ¬(1 - (q - ⌊q⌋) < 1 / 2 ∨ 1 - (q - ⌊q⌋) = 1 / 2 ∧ (-⌊q⌋ - 1) % 2 = 0) := by
        rintro (less' | ⟨tie, -⟩) <;> linarith
      rw [if_neg other, if_pos (Or.inl less)]
      omega
    · -- the even one of the two is the same on both sides
      rw [tie]
      norm_num
      split <;> split <;> omega
    · have other : ¬(q - ⌊q⌋ < 1 / 2 ∨ q - ⌊q⌋ = 1 / 2 ∧ ⌊q⌋ % 2 = 0) := by
        rintro (less | ⟨tie, -⟩) <;> linarith
      rw [if_neg other, if_pos (Or.inl (by linarith))]
      omega

end MoeStream.Foundation.FixedWidth
