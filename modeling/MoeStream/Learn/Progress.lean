import MoeStream.Learn.Launch

/-!
# Progress of the search for a micro-batch

When the row a start leaves has the key the launch script looked up, and what
follows from it for the starts after it.
-/

set_option autoImplicit false

namespace MoeStream

open Foundation.TryEach Foundation.FloatFormat Foundation.FloatFormat.Format

namespace Start

variable (s : Start) (st : Learned)

def Completes : Prop := s.learns = true ∧ s.clean = true ∧ 2 ≤ s.intervals

def Agrees : Prop :=
  s.Records st ∧ (s.row st).model = s.modelFile ∧ (s.row st).number = s.lookupFrac st ∧
    (s.row st).ubatch = s.chosen st

/-- The settings and tables with which the two programs have one fraction.  The
texts of a number that is a positive `double` are compared as those of a `double`
and of a `long double`. -/
def SameFrac : Prop :=
  match s.cacheFrac, st.tuning.row s.modelFile with
  | .number q _, _ => 0 < double q ∧
      asNumber (printed binary64 (double q)) = asNumber (printed extended (extended.nearest q))
  | .auto, _ => False
  | .unset, none => False
  | .unset, some row => row.geometry = s.geometry ∧ row.frac = 25
  | .learn, none => True
  | .learn, some row => (row.geometry = s.geometry ∧ 0 < row.frac) ∨ row.frac = 15

/-- The settings, models and tables with which the search advances. -/
def Keyed : Prop := s.hooked = true ∧ OwnName s.modelFile ∧ s.SameFrac st

/-- A completed start with these settings, whose fraction is `frac`. -/
def Searches (model : Name) (candidates : List Nat) (frac : WithTop ℚ) : Prop :=
  s.modelFile = model ∧ s.candidates = candidates ∧ s.lookupFrac st = frac ∧ s.Completes ∧
    s.Keyed st

instance : Decidable s.Completes := by
  unfold Completes
  infer_instance

instance : Decidable (s.Agrees st) := by
  unfold Agrees
  infer_instance

instance : Decidable (s.SameFrac st) := by
  unfold SameFrac
  split <;> infer_instance

instance (name : Name) : Decidable (OwnName name) := by
  unfold OwnName
  infer_instance

instance : Decidable (s.Keyed st) := by
  unfold Keyed
  infer_instance

instance (model : Name) (candidates : List Nat) (frac : WithTop ℚ) :
    Decidable (s.Searches st model candidates frac) := by
  unfold Searches
  infer_instance

end Start

def Learned.searches (model : Name) (candidates : List Nat) (frac : WithTop ℚ) :
    Learned → List Start → Nat
  | _, [] => 0
  | st, s :: rest =>
      (if s.Searches st model candidates frac then 1 else 0) +
        searches model candidates frac (st.launch s) rest

def Measurements.Fastest (u : Measurements) (model : Name) (frac : WithTop ℚ) (ubatch : Nat) :
    Prop :=
  ∃ row ∈ u.rows, row.model = model ∧ row.number = frac ∧ row.ubatch = ubatch ∧
    ∀ other ∈ u.rows, other.model = model → other.number = frac → other.rate ≤ row.rate

/-! ## The keys -/

/-- What the runtime prints of a learned fraction, `0` where there is none. -/
theorem printed_learned {k : Nat} (small : k ≤ 100) :
    printed binary64 (if 0 < double ((k : ℚ) / 100) then double (k / 100)
      else double (15 / 100)) = ((if 0 < k then k else 15 : Nat) : WithTop Nat) := by
  by_cases positive : 0 < k
  · rw [if_pos ((double_hundredth_pos small).mpr positive), if_pos positive,
      printed_nearest (by decide) small]
  · rw [if_neg ((double_hundredth_pos small).not.mpr positive), if_neg positive]
    exact printed_nearest (k := 15) (by decide) (by decide)

theorem asNumber_printed {k : Nat} (small : k ≤ 100) :
    asNumber (printed extended (extended.nearest (k / 100))) = asNumber k := by
  rw [printed_nearest (by decide) small]

namespace Start

variable {s : Start} {st : Learned}

theorem printed_runtimeFrac (own : OwnName s.modelFile) (learning : s.exported = .learn) :
    printed binary64 (s.runtimeFrac st) =
      ((match st.tuning.row s.modelFile with
        | none => 15
        | some row => if row.geometry = s.geometry ∧ 0 < row.frac then row.frac else 15 : Nat) :
        WithTop Nat) := by
  have zero : double (((0 : Nat) : ℚ) / 100) = 0 := by simp [double]
  have unlearned := printed_learned (k := 0) (Nat.zero_le 100)
  rw [zero] at unlearned
  simp only [runtimeFrac, learning, (modelFileName_iff s.modelFile).mpr own,
    Tuning.learnedFrac_eq]
  cases found : st.tuning.row s.modelFile with
  | none => exact unlearned
  | some row =>
      by_cases fits : row.geometry = s.geometry
      · simpa only [fits, if_true, true_and] using printed_learned (Tuning.row_small found)
      · simp only [fits, if_false, false_and]
        exact unlearned

/-- The two fractions of a start that learns are positive and one number. -/
theorem sameFrac_iff (learns : s.learns = true) (own : OwnName s.modelFile) :
    0 < s.runtimeFrac st ∧ (s.row st).number = s.lookupFrac st ↔ s.SameFrac st := by
  have printedRow : (s.row st).number = asNumber (printed binary64 (s.runtimeFrac st)) := rfl
  have fallback : 0 < double (15 / 100) :=
    (double_hundredth_pos (k := 15) (by decide)).mpr (by decide)
  have positive : s.exported = .learn → 0 < s.runtimeFrac st := by
    intro learning
    simp only [runtimeFrac, learning]
    split
    · assumption
    · exact fallback
  rw [printedRow]
  cases setting : s.cacheFrac with
  | number q valid => simp [runtimeFrac, exported, lookupFrac, frac, SameFrac, setting]
  | auto =>
      have initial : printed binary64 (double (38 / 100)) = (38 : Nat) :=
        printed_nearest (k := 38) (by decide) (by decide)
      have looked :
          asNumber (printed extended (extended.nearest (15 / 100))) = asNumber (15 : Nat) :=
        asNumber_printed (k := 15) (by decide)
      simp only [runtimeFrac, exported, lookupFrac, frac, SameFrac, setting, initial, looked,
        iff_false, not_and]
      exact fun _ => (asNumber_inj (by decide) (by decide)).not.mpr (by decide)
  | unset =>
      have learning : s.exported = .learn := by simp [exported, setting, learns]
      have looked :
          asNumber (printed extended (extended.nearest (25 / 100))) = asNumber (25 : Nat) :=
        asNumber_printed (k := 25) (by decide)
      rw [and_iff_right (positive learning), printed_runtimeFrac own learning]
      simp only [lookupFrac, frac, SameFrac, setting, looked]
      cases found : st.tuning.row s.modelFile with
      | none =>
          have apart : ¬asNumber (15 : Nat) = asNumber (25 : Nat) :=
            (asNumber_inj (by decide) (by decide)).not.mpr (by decide)
          exact iff_of_false apart id
      | some row =>
          dsimp only
          have small := Tuning.row_small found
          split <;> rename_i valid
          · rw [asNumber_inj small (by decide), and_iff_right valid.1]
          · apply iff_of_false ((asNumber_inj (by decide) (by decide)).not.mpr (by decide))
            rintro ⟨fits, large⟩
            exact valid ⟨fits, by omega⟩
  | learn =>
      have learning : s.exported = .learn := by simp [exported, setting]
      rw [and_iff_right (positive learning), printed_runtimeFrac own learning]
      simp only [lookupFrac, frac, SameFrac, setting]
      cases found : st.tuning.row s.modelFile with
      | none => exact iff_of_true (asNumber_printed (k := 15) (by decide)).symm trivial
      | some row =>
          have small := Tuning.row_small found
          dsimp only
          rw [hundredths_nearest (by decide) small, asNumber_printed small]
          split <;> rename_i valid
          · exact iff_of_true rfl (Or.inl valid)
          · rw [or_iff_right valid, asNumber_inj (by decide) small, eq_comm]

/-- Of `0.255` the runtime prints `0.26` and the script `0.25`. -/
example : asNumber (printed binary64 (double (255 / 1000))) ≠
    asNumber (printed extended (extended.nearest (255 / 1000))) := by decide +kernel

theorem chosen_pos (s : Start) (st : Learned) : 0 < s.chosen st := by
  simp only [chosen]
  split
  · rename_i c found
    exact s.positive c (List.mem_of_find?_eq_some found)
  · simp only [Measurements.fastest]
    split
    · exact Nat.succ_pos _
    · rename_i measured
      exact Nat.pos_of_ne_zero measured

theorem agrees_iff (completes : s.Completes) : s.Agrees st ↔ s.Keyed st := by
  obtain ⟨learns, clean, requests⟩ := completes
  constructor
  · rintro ⟨records, model, number, _⟩
    obtain ⟨-, -, hooked, -, positive, -⟩ := records
    have own := (modelFileName_iff s.modelFile).mp model
    exact ⟨hooked, own, (sameFrac_iff learns own).mp ⟨positive, number⟩⟩
  · rintro ⟨hooked, own, same⟩
    obtain ⟨positive, number⟩ := (sameFrac_iff learns own).mpr same
    exact ⟨⟨s.chosen_pos st, learns, hooked, clean, positive, requests⟩,
      (modelFileName_iff s.modelFile).mpr own, number, rfl⟩

/-- While a candidate is not measured, the script takes one that is not. -/
theorem chosen_unmeasured {c : Nat} (listed : c ∈ s.candidates)
    (untried : st.ubatch.measured s.modelFile (s.lookupFrac st) c = false) :
    s.chosen st ∈ s.candidates ∧
      st.ubatch.measured s.modelFile (s.lookupFrac st) (s.chosen st) = false := by
  simp only [chosen]
  split
  · rename_i c' found
    exact ⟨List.mem_of_find?_eq_some found, by simpa using List.find?_some found⟩
  · rename_i all
    have done := List.find?_eq_none.mp all c listed
    rw [untried] at done
    exact absurd rfl done

end Start

/-! ## One start -/

theorem Learned.measured_launch {st : Learned} {s : Start} {model : Name} {frac : WithTop ℚ}
    {ubatch : Nat} :
    (st.launch s).ubatch.measured model frac ubatch = true ↔
      (s.Records st ∧ (s.row st).model = model ∧ (s.row st).number = frac ∧
        (s.row st).ubatch = ubatch) ∨ st.ubatch.measured model frac ubatch = true := by
  simp only [launch]
  split
  · rename_i records
    exact Measurements.measured_put.trans (or_congr_left (and_iff_right records).symm)
  · rename_i silent
    rw [or_iff_right]
    rintro ⟨records, _⟩
    exact silent records

section Search

variable (model : Name) (candidates : List Nat) (frac : WithTop ℚ)

def Learned.waiting (st : Learned) : Nat := left (st.ubatch.measured model frac) candidates

theorem Learned.waiting_launch_le (st : Learned) (s : Start) :
    (st.launch s).waiting model candidates frac ≤ st.waiting model candidates frac :=
  left_mono (fun _ done => measured_launch.mpr (Or.inr done)) candidates

theorem Learned.waiting_launch {st : Learned} {s : Start}
    (searches : s.Searches st model candidates frac) :
    (st.launch s).waiting model candidates frac ≤ st.waiting model candidates frac - 1 := by
  obtain ⟨rfl, rfl, rfl, completes, keyed⟩ := searches
  obtain ⟨records, name, fraction, ubatch⟩ := (Start.agrees_iff completes).mpr keyed
  rcases Nat.eq_zero_or_pos (st.waiting s.modelFile s.candidates (s.lookupFrac st)) with none | some
  · have kept := st.waiting_launch_le s.modelFile s.candidates (s.lookupFrac st) s
    omega
  · obtain ⟨c, listed, untried⟩ : ∃ c ∈ s.candidates,
        st.ubatch.measured s.modelFile (s.lookupFrac st) c = false := by
      by_contra all
      push Not at all
      have zero := left_eq_zero.mpr fun c listed => Bool.eq_true_of_not_eq_false (all c listed)
      exact absurd zero (Nat.ne_of_gt some)
    obtain ⟨offered, first⟩ := Start.chosen_unmeasured listed untried
    have measured : (st.launch s).ubatch.measured s.modelFile (s.lookupFrac st) (s.chosen st) =
        true := measured_launch.mpr (Or.inl ⟨records, name, fraction, ubatch⟩)
    have fewer : (st.launch s).waiting s.modelFile s.candidates (s.lookupFrac st) <
        st.waiting s.modelFile s.candidates (s.lookupFrac st) :=
      left_lt (fun _ done => measured_launch.mpr (Or.inr done)) offered first measured
    exact Nat.le_sub_one_of_lt fewer

/-! ## A run of starts -/

theorem Learned.waiting_run (st : Learned) (later : List Start) :
    (later.foldl launch st).waiting model candidates frac ≤
      st.waiting model candidates frac - st.searches model candidates frac later := by
  induction later generalizing st with
  | nil => exact Nat.le_refl _
  | cons s rest ih =>
      have run := ih (st.launch s)
      have kept := st.waiting_launch_le model candidates frac s
      simp only [List.foldl_cons, searches]
      split
      · rename_i search
        have step := waiting_launch model candidates frac search
        omega
      · omega

theorem Learned.run_measured {st : Learned} {later : List Start}
    (enough : candidates.length ≤ st.searches model candidates frac later) :
    ∀ c ∈ candidates, (later.foldl launch st).ubatch.measured model frac c = true := by
  have run := st.waiting_run model candidates frac later
  have most : st.waiting model candidates frac ≤ candidates.length := left_le _ _
  have none : (later.foldl launch st).waiting model candidates frac = 0 := by omega
  exact left_eq_zero.mp none

end Search

/-! ## The fastest -/

theorem Measurements.mem_rates {u : Measurements} {model : Name} {frac : WithTop ℚ}
    {p : Nat × Nat} :
    p ∈ u.rates model frac ↔ ∃ row ∈ u.rows,
      (row.model = model ∧ row.number = frac ∧ 0 < row.rate) ∧ (row.rate, row.ubatch) = p := by
  simp only [rates, List.mem_map, List.mem_filter, decide_eq_true_eq, and_assoc]

theorem Measurements.fastest_spec {u : Measurements} {model : Name} {frac : WithTop ℚ}
    (some : ∃ row ∈ u.rows, row.model = model ∧ row.number = frac ∧ 0 < row.rate) :
    ∃ ubatch, u.fastest model frac = Option.some ubatch ∧ u.Fastest model frac ubatch := by
  obtain ⟨row, member, name, fraction, positive⟩ := some
  have bound := le_best ((0, 0) : Nat × Nat) (u.rates model frac)
  have reached : row.rate ≤ (best ((0, 0) : Nat × Nat) (u.rates model frac)).1 :=
    bound (row.rate, row.ubatch)
      (List.mem_cons_of_mem _ (mem_rates.mpr ⟨row, member, ⟨name, fraction, positive⟩, rfl⟩))
  rcases List.mem_cons.mp (best_mem ((0, 0) : Nat × Nat) (u.rates model frac)) with none | listed
  · rw [none] at reached
    omega
  · obtain ⟨winner, winnerMember, ⟨winnerName, winnerFrac, _⟩, same⟩ := mem_rates.mp listed
    have ubatch := u.positive winner winnerMember
    refine ⟨winner.ubatch, ?_, winner, winnerMember, winnerName, winnerFrac, rfl, ?_⟩
    · simp only [fastest, ← same]
      exact if_neg (Nat.ne_of_gt ubatch)
    · intro other otherMember otherName otherFrac
      rcases Nat.eq_zero_or_pos other.rate with zero | rated
      · rw [zero]
        exact Nat.zero_le _
      · have below := bound (other.rate, other.ubatch) (List.mem_cons_of_mem _
          (mem_rates.mpr ⟨other, otherMember, ⟨otherName, otherFrac, rated⟩, rfl⟩))
        rw [← same] at below
        exact below

/-- Once every candidate is measured the script takes the fastest. -/
theorem Start.chosen_fastest {s : Start} {st : Learned}
    (all : ∀ c ∈ s.candidates, st.ubatch.measured s.modelFile (s.lookupFrac st) c = true)
    (some : ∃ row ∈ st.ubatch.rows,
      row.model = s.modelFile ∧ row.number = s.lookupFrac st ∧ 0 < row.rate) :
    st.ubatch.Fastest s.modelFile (s.lookupFrac st) (s.chosen st) := by
  obtain ⟨ubatch, found, fastest⟩ := Measurements.fastest_spec some
  have none : (s.candidates.find? fun c =>
      !st.ubatch.measured s.modelFile (s.lookupFrac st) c) = Option.none := by
    apply List.find?_eq_none.mpr
    intro c listed
    rw [all c listed]
    decide
  simp only [chosen]
  rw [none]
  dsimp only
  rw [found]
  exact fastest

/-! ## The search -/

@[simp] theorem Learned.after_append (earlier later : List Start) :
    after (earlier ++ later) = later.foldl launch (after earlier) :=
  List.foldl_append

/-- A start on a model with experts that completes three requests. -/
def tried (cacheFrac : CacheFrac) (rate : Nat) : Start where
  modelFile := "moe.gguf".toList
  cacheFrac := cacheFrac
  learns := true
  candidates := [1024, 2048]
  positive := by decide
  enabled := true
  experts := true
  usable := true
  geometry := (128, 1000)
  intervals := 3
  clean := true
  rate := rate
  recommended := none

end MoeStream
