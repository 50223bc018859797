import Mathlib.Data.List.TakeWhile
import Mathlib.Tactic.IntervalCases
import MoeStream.Foundation.TryEach
import MoeStream.Learn.Tables

/-!
# A start with learned settings

Embedding of the `UBATCH=learn` block of `entrypoint.sh`, of the fraction
`slab_slots` works with and of what the hook `finalize` registers writes at
exit.  The launch script and the runtime each derive the key of a measurement.
-/

set_option autoImplicit false

namespace MoeStream

open Foundation.TryEach Foundation.FloatFormat

/-- `MOESTREAM_CACHE_FRAC`. -/
inductive CacheFrac where
  | unset
  | learn
  | auto
  | number (q : ℚ) (positive : 0 < q)

structure Learned where
  tuning : Tuning := .empty
  ubatch : Measurements := .empty

/-- The settings of a start, and what happens in it: the requests it completes,
whether it exits cleanly, the prefill rate in tenths, and the fraction
`mrc_report` recommends, if it comes to that.  `experts` and `usable` are what
`finalize` asks of the model and of its files before it registers the hook. -/
structure Start where
  modelFile : Name
  cacheFrac : CacheFrac
  learns : Bool
  candidates : List Nat
  positive : ∀ c ∈ candidates, 0 < c
  enabled : Bool
  experts : Bool
  usable : Bool
  geometry : Geometry
  intervals : Nat
  clean : Bool
  rate : Nat
  recommended : Option ℚ

/-! ## The launch script -/

/-- The measurements at a fraction that came to a rate, as rate and `UBATCH`. -/
def Measurements.rates (u : Measurements) (model : Name) (frac : WithTop ℚ) : List (Nat × Nat) :=
  (u.rows.filter fun row => decide (row.model = model ∧ row.number = frac ∧ 0 < row.rate)).map
    fun row => (row.rate, row.ubatch)

def Measurements.fastest (u : Measurements) (model : Name) (frac : WithTop ℚ) : Option Nat :=
  let p := (best (0, 0) (u.rates model frac)).2
  if p = 0 then none else some p

namespace Start

variable (s : Start) (st : Learned)

/-- The number that is formatted as `FRAC`; `awk` has formatted a learned one. -/
def frac : ℚ :=
  match s.cacheFrac with
  | .unset => 25 / 100
  | .learn =>
      match st.tuning.row s.modelFile with
      | none => 15 / 100
      | some row => hundredths (double (row.frac / 100)) / 100
  | .auto => 15 / 100
  | .number q _ => q

/-- `FRAC`, as `awk` compares it with a row.  The shell formats a `long double`. -/
def lookupFrac : WithTop ℚ := asNumber (printed extended (extended.nearest (s.frac st)))

/-- `UB`: a candidate without a measurement, else the fastest. -/
def chosen : Nat :=
  match s.candidates.find? fun c => !st.ubatch.measured s.modelFile (s.lookupFrac st) c with
  | some c => c
  | none => (st.ubatch.fastest s.modelFile (s.lookupFrac st)).getD 1024

/-! ## The runtime -/

/-- `MOESTREAM_CACHE_FRAC` as the runtime reads it: the script exports `learn` for
an unset one. -/
def exported : CacheFrac :=
  match s.cacheFrac with
  | .unset => if s.learns then .learn else .unset
  | frac => frac

/-- `g_frac` once the tensors are created; `auto` leaves the initial value. -/
def runtimeFrac : ℚ :=
  match s.exported with
  | .unset | .auto => double (38 / 100)
  | .learn =>
      let v := st.tuning.learnedFrac (modelFileName s.modelFile) s.geometry
      if 0 < v then v else double (15 / 100)
  | .number q _ => double q

/-- `finalize` gets as far as the exit hook: not for a model without experts. -/
def hooked : Bool := s.enabled && s.experts && s.usable

/-- `ubatch_store` writes a row at exit; `MOESTREAM_UBATCH` is only set by the
script. -/
def Records : Prop :=
  0 < s.chosen st ∧ s.learns = true ∧ s.hooked = true ∧ s.clean = true ∧ 0 < s.runtimeFrac st ∧
    2 ≤ s.intervals

instance : Decidable (s.Records st) := by
  unfold Records
  infer_instance

def row : UbatchRow :=
  ⟨modelFileName s.modelFile, printed binary64 (s.runtimeFrac st), s.chosen st, s.rate⟩

def retune : Tuning :=
  match s.exported, s.recommended with
  | .learn, some q =>
      if s.hooked then st.tuning.keep (modelFileName s.modelFile) s.geometry q else st.tuning
  | _, _ => st.tuning

end Start

def Learned.launch (st : Learned) (s : Start) : Learned where
  tuning := s.retune st
  ubatch := if records : s.Records st then st.ubatch.put (s.row st) records.1 else st.ubatch

def Learned.after (starts : List Start) : Learned := starts.foldl Learned.launch {}

/-! ## Names -/

def Plain (name : Name) : Prop := ∀ c ∈ name, c.toNat ≠ 47

instance : DecidablePred Plain := fun name =>
  List.decidableBAll (fun c : Char => c.toNat ≠ 47) name

def OwnName (modelFile : Name) : Prop :=
  Plain modelFile ∧ firstShard (modelPath modelFile) = modelPath modelFile

theorem baseName_modelPath {name : Name} (plain : Plain name) :
    baseName (modelPath name) = name := by
  have path : (modelPath name).reverse = name.reverse ++ "/sledom/".toList := by
    unfold modelPath
    rw [List.reverse_append]
    rfl
  have kept : ∀ c ∈ name.reverse, (c.toNat != 47) = true := fun c member =>
    bne_iff_ne.mpr (plain c (List.mem_reverse.mp member))
  unfold baseName
  rw [path, List.takeWhile_append_of_pos kept]
  simp

theorem baseName_plain (path : Name) : Plain (baseName path) := by
  intro c member
  have test := List.mem_takeWhile_imp (List.mem_reverse.mp member)
  exact bne_iff_ne.mp test

theorem digitChar_plain (d : Nat) : (Nat.digitChar (d % 10)).toNat ≠ 47 := by
  have small := Nat.mod_lt d (by decide : 0 < 10)
  generalize d % 10 = digit at small
  revert digit
  decide

theorem firstShard_path {name : Name} (plain : Plain name) :
    ∃ shard, Plain shard ∧ firstShard (modelPath name) = modelPath shard := by
  unfold firstShard
  split
  · cases scanned : scanShard ((modelPath name).drop ((modelPath name).length - 20)) with
    | none => exact ⟨name, plain, rfl⟩
    | some bounds =>
        obtain ⟨a, b⟩ := bounds
        dsimp only
        split
        · -- the matched text begins with a dash, so it lies in the file name
          have later : 8 ≤ (modelPath name).length - 20 := by
            have dash : "-".toList.isPrefixOf
                ((modelPath name).drop ((modelPath name).length - 20)) = true := by
              by_contra other
              unfold scanShard at scanned
              rw [if_neg other] at scanned
              cases scanned
            generalize (modelPath name).length - 20 = n at dash
            by_contra early
            have small : n < 8 := by omega
            unfold modelPath at dash
            interval_cases n <;> simp [List.isPrefixOf] at dash
          refine ⟨name.take ((modelPath name).length - 20 - 8) ++ ("-00001-of-".toList ++
            fiveDigits b.toNat ++ ".gguf".toList), ?_, ?_⟩
          · intro c member
            rcases List.mem_append.mp member with own | suffix
            · exact plain c (List.mem_of_mem_take own)
            · simp only [List.mem_append] at suffix
              have middle : Plain "-00001-of-".toList := by decide
              have ending : Plain ".gguf".toList := by decide
              rcases suffix with (first | digit) | last
              · exact middle c first
              · obtain ⟨d, listed, rfl⟩ := List.mem_map.mp digit
                simp only [List.mem_cons, List.not_mem_nil, or_false] at listed
                rcases listed with rfl | rfl | rfl | rfl | rfl <;> exact digitChar_plain _
              · exact ending c last
          · generalize (modelPath name).length - 20 = n at later
            unfold modelPath
            have split : ("/models/".toList ++ name).take n =
                "/models/".toList ++ name.take (n - 8) := by
              rw [List.take_append, List.take_of_length_le (by simpa using later)]
              rfl
            rw [split]
            simp only [List.append_assoc]
        · exact ⟨name, plain, rfl⟩
  · exact ⟨name, plain, rfl⟩

theorem modelFileName_iff (name : Name) : modelFileName name = name ↔ OwnName name := by
  constructor
  · intro own
    have plain : Plain name := by
      rw [← own]
      exact baseName_plain _
    obtain ⟨shard, shardPlain, path⟩ := firstShard_path plain
    refine ⟨plain, ?_⟩
    simp only [modelFileName] at own
    rw [path, baseName_modelPath shardPlain] at own
    rw [path, own]
  · rintro ⟨plain, path⟩
    simp only [modelFileName]
    rw [path, baseName_modelPath plain]

end MoeStream
