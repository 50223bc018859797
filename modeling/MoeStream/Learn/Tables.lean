import Mathlib.Data.List.Nodup
import Mathlib.Order.WithBot
import MoeStream.Foundation.FloatFormat
import MoeStream.Loader.Names

/-!
# The learned settings

Embedding of the two tables in the state directory, `tuning.tsv` and
`ubatch.tsv`, of `state_put`, `learned_frac` and `learned_frac_store`, and of the
name a model has in them.  A fraction is stored in hundredths: formatting is the
exact rounding of the value that is formatted, and reading gives the nearest
value of the type.
-/

set_option autoImplicit false

namespace MoeStream

open Foundation.FixedWidth Foundation.FloatFormat Foundation.FloatFormat.Format

abbrev Name := List Char

/-- `%.2f`, in hundredths. -/
def hundredths (q : ℚ) : Nat := (roundEven (100 * q)).toNat

/-- `%.2f` of a value of the format, which may be infinite. -/
def printed (f : Format) (q : ℚ) : WithTop Nat := if q < 2 ^ f.maxExp then hundredths q else ⊤

/-- What is printed in hundredths as a number of type `double`. -/
def asNumber (text : WithTop Nat) : WithTop ℚ := text.map fun k : Nat => double (k / 100)

abbrev Geometry := Nat × Nat

structure TuningRow where
  model : Name
  frac : Nat
  geometry : Geometry
  deriving DecidableEq

structure UbatchRow where
  model : Name
  frac : WithTop Nat
  ubatch : Nat
  rate : Nat
  deriving DecidableEq

/-- The fraction of a row as `awk` compares it. -/
def UbatchRow.number (row : UbatchRow) : WithTop ℚ := asNumber row.frac

/-- `state_put`: rows that match are dropped and the new one is written last. -/
def statePut {ρ : Type} (matching : ρ → Bool) (row : ρ) (rows : List ρ) : List ρ :=
  (rows.filter fun old => !matching old) ++ [row]

/-- `tuning.tsv`: a row for each model, at most `1.00`. -/
structure Tuning where
  rows : List TuningRow
  once : (rows.map TuningRow.model).Nodup
  bounded : ∀ row ∈ rows, row.frac ≤ 100

/-- `ubatch.tsv`. -/
structure Measurements where
  rows : List UbatchRow
  positive : ∀ row ∈ rows, 0 < row.ubatch

def Tuning.empty : Tuning := ⟨[], List.nodup_nil, nofun⟩

def Measurements.empty : Measurements := ⟨[], nofun⟩

/-! ## `tuning.tsv` -/

theorem hundredths_nearest {f : Format} (digits : 8 ≤ f.precision) {k : Nat} (small : k ≤ 100) :
    hundredths (f.nearest (k / 100)) = k := by
  have range : |(k : ℚ) / 100| < 2 ^ 1 := by
    have rational : (k : ℚ) ≤ 100 := by exact_mod_cast small
    rw [abs_of_nonneg (by positivity), div_lt_iff₀ (by norm_num)]
    linarith
  have unit : (2 : ℚ) ^ (((1 : Nat) : Int) - f.precision) ≤ 2 ^ (-7 : Int) :=
    zpow_le_zpow_right₀ (by norm_num) (by push_cast; omega)
  have error := nearest_error (f := f) range
  generalize (2 : ℚ) ^ (((1 : Nat) : Int) - f.precision) = ulp at unit error
  norm_num at unit
  obtain ⟨low, high⟩ := abs_le.mp error
  have near : |100 * f.nearest (k / 100) - ((k : Int) : ℚ)| < 1 / 2 := by
    push_cast
    rw [abs_lt]
    constructor <;> linarith
  rw [hundredths, roundEven_eq near, Int.toNat_natCast]

theorem printed_nearest {f : Format} (digits : 8 ≤ f.precision) {k : Nat} (small : k ≤ 100) :
    printed f (f.nearest (k / 100)) = k := by
  have share : (k : ℚ) / 100 ≤ 1 := by
    rw [div_le_one (by norm_num)]
    exact_mod_cast small
  have finite : f.nearest (k / 100) < 2 ^ f.maxExp :=
    lt_of_le_of_lt (nearest_le exact_one share)
      (one_lt_pow₀ (by norm_num) (Nat.ne_of_gt f.unbounded))
  rw [printed, if_pos finite, hundredths_nearest digits small]

theorem asNumber_inj {k k' : Nat} (small : k ≤ 100) (small' : k' ≤ 100) :
    asNumber k = asNumber k' ↔ k = k' := by
  constructor
  · intro same
    have value : binary64.nearest (k / 100) = binary64.nearest (k' / 100) :=
      WithTop.coe_injective same
    rw [← hundredths_nearest (f := binary64) (by decide) small, value,
      hundredths_nearest (by decide) small']
  · rintro rfl
    rfl

theorem double_hundredth_pos {k : Nat} (small : k ≤ 100) :
    0 < double ((k : ℚ) / 100) ↔ 0 < k := by
  constructor
  · intro positive
    by_contra zero
    rw [Nat.eq_zero_of_not_pos zero, Nat.cast_zero, zero_div, double, nearest_zero] at positive
    exact lt_irrefl 0 positive
  · intro positive
    apply lt_of_le_of_ne (nearest_nonneg (by positivity))
    intro zero
    have same := hundredths_nearest (f := binary64) (by decide) small
    rw [← zero] at same
    have none : hundredths 0 = 0 := by decide +kernel
    omega

theorem hundredths_le {q : ℚ} (le : q ≤ 1) : hundredths q ≤ 100 := by
  have rounded : roundEven (100 * q) ≤ 100 := roundEven_le (by push_cast; linarith)
  simp only [hundredths]
  omega

def Tuning.put (t : Tuning) (row : TuningRow) (small : row.frac ≤ 100) : Tuning where
  rows := statePut (fun old => decide (old.model = row.model)) row t.rows
  once := by
    simp only [statePut]
    rw [List.map_append, List.map_singleton]
    apply List.Nodup.append (t.once.sublist (List.filter_sublist.map _)) (List.nodup_singleton _)
    intro name old new
    obtain ⟨r, listed, rfl⟩ := List.mem_map.mp old
    have kept := (List.mem_filter.mp listed).2
    simp [List.mem_singleton.mp new] at kept
  bounded := by
    intro r member
    rcases List.mem_append.mp member with old | new
    · exact t.bounded r (List.mem_filter.mp old).1
    · rw [List.mem_singleton.mp new]
      exact small

/-- `learned_frac_store`. -/
def Tuning.store (t : Tuning) (model : Name) (geometry : Geometry) (frac : ℚ) : Tuning :=
  if valid : 0 < frac ∧ frac ≤ 1 then
    t.put ⟨model, hundredths frac, geometry⟩ (hundredths_le valid.2)
  else t

/-- `learned_frac`: the last valid row for the model and geometry, or `0`. -/
def Tuning.learnedFrac (t : Tuning) (model : Name) (geometry : Geometry) : ℚ :=
  match (t.rows.filter fun row =>
      decide (row.model = model ∧ row.geometry = geometry ∧ 0 < row.frac ∧ row.frac ≤ 100)).getLast?
    with
  | none => 0
  | some row => double (row.frac / 100)

def Tuning.Moved (t : Tuning) (model : Name) (geometry : Geometry) (recFrac : ℚ) : Prop :=
  double (2 / 100) ≤ |double (recFrac - t.learnedFrac model geometry)|

instance (t : Tuning) (model : Name) (geometry : Geometry) (recFrac : ℚ) :
    Decidable (t.Moved model geometry recFrac) := by
  unfold Tuning.Moved
  infer_instance

/-- The end of `mrc_report` in learn mode. -/
def Tuning.keep (t : Tuning) (model : Name) (geometry : Geometry) (recFrac : ℚ) : Tuning :=
  if t.Moved model geometry recFrac then t.store model geometry recFrac else t

def Tuning.row (t : Tuning) (model : Name) : Option TuningRow :=
  t.rows.find? fun row => decide (row.model = model)

theorem Tuning.learnedFrac_eq (t : Tuning) (model : Name) (geometry : Geometry) :
    t.learnedFrac model geometry =
      match t.row model with
      | none => 0
      | some row => if row.geometry = geometry then double (row.frac / 100) else 0 := by
  have same : ∀ r ∈ t.rows, ∀ r' ∈ t.rows, r.model = r'.model → r = r' := fun r member r' member' =>
    List.inj_on_of_nodup_map t.once member member'
  simp only [learnedFrac, row]
  cases found : t.rows.find? fun row => decide (row.model = model) with
  | none =>
      have absent := List.find?_eq_none.mp found
      have none : (t.rows.filter fun row => decide (row.model = model ∧ row.geometry = geometry ∧
          0 < row.frac ∧ row.frac ≤ 100)) = [] := by
        apply List.filter_eq_nil_iff.mpr
        intro r member all
        exact absent r member (decide_eq_true (of_decide_eq_true all).1)
      rw [none]
      rfl
  | some row =>
      have member := List.mem_of_find?_eq_some found
      have own : row.model = model := by
        simpa using List.find?_some found
      dsimp only
      cases last : (t.rows.filter fun row => decide (row.model = model ∧ row.geometry = geometry ∧
          0 < row.frac ∧ row.frac ≤ 100)).getLast? with
      | none =>
          have empty := List.filter_eq_nil_iff.mp (List.getLast?_eq_none_iff.mp last) row member
          simp only [decide_eq_true_eq, own, true_and, not_and] at empty
          have small := t.bounded row member
          by_cases fits : row.geometry = geometry
          · have zero : row.frac = 0 := by
              by_contra positive
              exact empty fits (Nat.pos_of_ne_zero positive) small
            rw [if_pos fits, zero]
            simp [double]
          · rw [if_neg fits]
      | some r =>
          obtain ⟨listed, all⟩ := List.mem_filter.mp (List.mem_of_getLast? last)
          obtain ⟨model', geometry', _⟩ := of_decide_eq_true all
          rw [same r listed row member (model'.trans own.symm)] at geometry' ⊢
          rw [if_pos geometry']

theorem Tuning.row_small {t : Tuning} {model : Name} {row : TuningRow}
    (found : t.row model = some row) : row.frac ≤ 100 :=
  t.bounded row (List.mem_of_find?_eq_some found)

theorem Tuning.learnedFrac_bounds (t : Tuning) (model : Name) (geometry : Geometry) :
    0 ≤ t.learnedFrac model geometry ∧ t.learnedFrac model geometry ≤ 1 := by
  rw [learnedFrac_eq]
  cases found : t.row model with
  | none => exact ⟨le_rfl, zero_le_one⟩
  | some row =>
      dsimp only
      split
      · have share : (row.frac : ℚ) / 100 ≤ 1 := by
          rw [div_le_one (by norm_num)]
          exact_mod_cast row_small found
        exact ⟨nearest_nonneg (by positivity), nearest_le exact_one share⟩
      · exact ⟨le_rfl, zero_le_one⟩

theorem Tuning.row_put {t : Tuning} {row : TuningRow} {small : row.frac ≤ 100} :
    (t.put row small).row row.model = some row := by
  have dropped : (t.rows.filter fun old => !decide (old.model = row.model)).find?
      (fun old => decide (old.model = row.model)) = none := by
    apply List.find?_eq_none.mpr
    intro old member
    simpa using (List.mem_filter.mp member).2
  simp only [Tuning.row, put, statePut, List.find?_append, dropped, Option.none_or,
    List.find?_singleton, decide_true, if_true]

theorem Tuning.learnedFrac_store {t : Tuning} {model : Name} {geometry : Geometry} {frac : ℚ}
    (valid : 0 < frac ∧ frac ≤ 1) :
    (t.store model geometry frac).learnedFrac model geometry = double (hundredths frac / 100) := by
  have found : (t.store model geometry frac).row model =
      some ⟨model, hundredths frac, geometry⟩ := by
    simp only [store]
    rw [dif_pos valid]
    exact Tuning.row_put
  rw [learnedFrac_eq, found]
  exact if_pos rfl

/-! ## `ubatch.tsv` -/

def Measurements.put (u : Measurements) (row : UbatchRow) (positive : 0 < row.ubatch) :
    Measurements where
  rows := statePut (fun old =>
    decide (old.model = row.model ∧ old.frac = row.frac ∧ old.ubatch = row.ubatch)) row u.rows
  positive := by
    intro r member
    rcases List.mem_append.mp member with old | new
    · exact u.positive r (List.mem_filter.mp old).1
    · rw [List.mem_singleton.mp new]
      exact positive

def Measurements.measured (u : Measurements) (model : Name) (frac : WithTop ℚ) (ubatch : Nat) :
    Bool :=
  u.rows.any fun row => decide (row.model = model ∧ row.number = frac ∧ row.ubatch = ubatch)

/-- A new row replaces the one with its key, so what was measured stays
measured. -/
theorem Measurements.measured_put {u : Measurements} {row : UbatchRow} {positive : 0 < row.ubatch}
    {model : Name} {frac : WithTop ℚ} {ubatch : Nat} :
    (u.put row positive).measured model frac ubatch = true ↔
      (row.model = model ∧ row.number = frac ∧ row.ubatch = ubatch) ∨
        u.measured model frac ubatch = true := by
  simp only [measured, put, statePut, List.any_append, List.any_cons, List.any_nil, Bool.or_false,
    Bool.or_eq_true, decide_eq_true_eq]
  by_cases own : row.model = model ∧ row.number = frac ∧ row.ubatch = ubatch
  · exact iff_of_true (Or.inr own) (Or.inl own)
  · simp only [own, or_false, false_or, List.any_eq_true, List.mem_filter, decide_eq_true_eq,
      Bool.not_eq_true', decide_eq_false_iff_not]
    constructor
    · rintro ⟨r, ⟨member, _⟩, key⟩
      exact ⟨r, member, key⟩
    · rintro ⟨r, member, key⟩
      refine ⟨r, ⟨member, ?_⟩, key⟩
      rintro ⟨model', frac', ubatch'⟩
      have number : r.number = row.number := congrArg asNumber frac'
      exact own ⟨model'.symm.trans key.1, number.symm.trans key.2.1, ubatch'.symm.trans key.2.2⟩

/-! ## Names -/

/-- `%5d` of `sscanf`. -/
def scanInt (width : Nat) (text : List Char) : Option (Int × List Char) :=
  let body := text.dropWhile isBlank
  let (negative, number) := sign (body.take width)
  if (number.head?.map Char.isDigit).getD false then
    let (n, rest) := digits 0 number
    some (if negative then -(n : Int) else n, rest ++ body.drop width)
  else none

/-- `-%5d-of-%5d.gguf`; what follows the second number is not compared. -/
def scanShard (tail : List Char) : Option (Int × Int) :=
  if "-".toList.isPrefixOf tail then
    (scanInt 5 (tail.drop 1)).bind fun (a, rest) =>
      if "-of-".toList.isPrefixOf rest then (scanInt 5 (rest.drop 4)).map fun (b, _) => (a, b)
      else none
  else none

/-- `%05d` of a number below 100000. -/
def fiveDigits (n : Nat) : List Char :=
  [n / 10000 % 10, n / 1000 % 10, n / 100 % 10, n / 10 % 10, n % 10].map Nat.digitChar

/-- The first of `shard_paths`. -/
def firstShard (path : Name) : Name :=
  if 20 < path.length then
    match scanShard (path.drop (path.length - 20)) with
    | none => path
    | some (a, b) =>
        if 1 ≤ a ∧ 1 ≤ b ∧ a ≤ b ∧ b < 1000 then
          path.take (path.length - 20) ++ "-00001-of-".toList ++ fiveDigits b.toNat ++
            ".gguf".toList
        else path
  else path

def baseName (path : Name) : Name := (path.reverse.takeWhile fun c => c.toNat != 47).reverse

def modelPath (modelFile : Name) : Name := "/models/".toList ++ modelFile

/-- `model_file_name`, with `MOESTREAM_GGUF` as `entrypoint.sh` sets it. -/
def modelFileName (modelFile : Name) : Name := baseName (firstShard (modelPath modelFile))

end MoeStream
