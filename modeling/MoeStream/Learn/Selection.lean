import MoeStream.Foundation.TryEach
import MoeStream.Learn.Tables

/-!
# Selecting the ubatch

Embedding of the `UBATCH=learn` block of `entrypoint.sh` over the text of
`ubatch.tsv`: the loop over the candidates, the two programs for `awk` and what
`read` makes of the second one's output.  Which fields `awk` takes for equal, and
what a field comes to as a number, is a parameter; `posixAwk` reads numbers as
POSIX has it.
-/

set_option autoImplicit false

namespace MoeStream

open Foundation.TryEach

/-! ## The tools -/

/-- What the programs ask of `awk`; a field that a record does not have is `none`. -/
structure Awk (Rate : Type) where
  /-- `$k==v`, for a variable set with `-v`. -/
  equal : Option Name → Name → Bool
  /-- `$k+0`. -/
  amount : Option Name → Rate
  /-- The value as a condition. -/
  holds : Option Name → Bool
  unset : holds none = false
  /-- A number as `print` writes it. -/
  shown : Rate → Name

def awkRecords (file : Name) : List (List Name) :=
  let lines := file.splitOn '\n'
  (if lines.getLast? = some [] then lines.dropLast else lines).map fun line =>
    if line = [] then [] else line.splitOn '\t'

/-- The characters of `IFS`. -/
def isIfs (c : Char) : Bool := c = ' ' || c = '\t' || c = '\n'

/-- The first word `read` finds. -/
def readWord (text : Name) : Name := (text.dropWhile isIfs).takeWhile fun c => !isIfs c

/-- The words of `UBATCH_CANDIDATES`. -/
structure Candidates where
  words : List Name
  given : words ≠ []
  word : ∀ c ∈ words, c ≠ []

/-! ## The block -/

variable {Rate : Type} [LinearOrder Rate] [Zero Rate]

namespace Awk

variable (awk : Awk Rate) (file m f : Name)

/-- `$1==m && $2==f`. -/
def atKey (record : List Name) : Bool := awk.equal record[0]? m && awk.equal record[1]? f

/-- A row of the candidate `u`. -/
def isFor (u : Name) (record : List Name) : Bool := awk.atKey m f record && awk.equal record[2]? u

def found (u : Name) : Bool := (awkRecords file).any (awk.isFor m f u)

/-- The rows of the second program, as rate and third field. -/
def rates : List (Rate × Option Name) :=
  ((awkRecords file).filter fun record =>
    awk.atKey m f record && decide (0 < awk.amount record[3]?)).map fun record =>
      (awk.amount record[3]?, record[2]?)

/-- Its `b` and `p`: rate and third field of the first of the fastest rows. -/
def leader : Rate × Option Name := best (0, none) (awk.rates file m f)

/-- `UB` for these, after the fallback. -/
def told (leader : Rate × Option Name) : Name :=
  let printed :=
    if awk.holds leader.2 then leader.2.getD [] ++ ' ' :: awk.shown leader.1 else []
  if readWord printed = [] then "1024".toList else readWord printed

/-- The block: `UBATCH` in the end. -/
def selectUbatch (candidates : Candidates) : Name :=
  match candidates.words.find? fun c => !awk.found file m f c with
  | some c => c
  | none => awk.told (awk.leader file m f)

/-! ## The rule -/

def Rated (u : Name) (rate : Rate) : Prop :=
  ∃ record ∈ awkRecords file,
    awk.isFor m f u record = true ∧ awk.amount record[3]? = rate ∧ 0 < rate

def IsFastest (candidates : Candidates) (u : Name) : Prop :=
  u ∈ candidates.words ∧ ∃ rate, awk.Rated file m f u rate ∧
    ∀ c ∈ candidates.words, ∀ rate', awk.Rated file m f c rate' → rate' ≤ rate

def NoneRated (candidates : Candidates) : Prop :=
  ∀ c ∈ candidates.words, ∀ rate, ¬awk.Rated file m f c rate

/-- The rule: the first candidate without a row, else the fastest, else 1024. -/
structure Selects (candidates : Candidates) (ub : Name) : Prop where
  untried : ∀ before c after, candidates.words = before ++ c :: after →
    (∀ c' ∈ before, awk.found file m f c' = true) → awk.found file m f c = false → ub = c
  fastest : (∀ c ∈ candidates.words, awk.found file m f c = true) →
    ¬awk.NoneRated file m f candidates → awk.IsFastest file m f candidates ub
  fallback : (∀ c ∈ candidates.words, awk.found file m f c = true) →
    awk.NoneRated file m f candidates → ub = "1024".toList

/-! ## The condition -/

def Leads (record : List Name) : Prop :=
  ∃ before after, awkRecords file = before ++ record :: after ∧
    awk.atKey m f record = true ∧ 0 < awk.amount record[3]? ∧
    (∀ r ∈ before, awk.atKey m f r = true → awk.amount r[3]? < awk.amount record[3]?) ∧
    ∀ r ∈ after, awk.atKey m f r = true → awk.amount r[3]? ≤ awk.amount record[3]?

/-- A row of `c` with a positive rate that no row of a candidate exceeds. -/
def Tops (candidates : Candidates) (c : Name) (record : List Name) : Prop :=
  record ∈ awkRecords file ∧ awk.isFor m f c record = true ∧ 0 < awk.amount record[3]? ∧
    ∀ c' ∈ candidates.words, ∀ r ∈ awkRecords file, awk.isFor m f c' r = true →
      awk.amount r[3]? ≤ awk.amount record[3]?

/-- The third field of a row, with the rate after it, begins with the word; where
the field is false or there is no word, that is `1024`. -/
def Spells (record : List Name) (word : Name) : Prop :=
  let text :=
    if awk.holds record[2]? = true then
      record[2]?.getD [] ++ ' ' :: awk.shown (awk.amount record[3]?)
    else []
  readWord text = word ∨ readWord text = [] ∧ word = "1024".toList

/-- The first of the fastest rows spells a candidate that has the fastest of the
rows of candidates; or it spells `1024`, and no row of a candidate has a positive
rate. -/
def LeaderFits (candidates : Candidates) : Prop :=
  ∃ record, awk.Leads file m f record ∧
    ((∃ c ∈ candidates.words, awk.Spells record c ∧ ∃ own, awk.Tops file m f candidates c own) ∨
      awk.Spells record "1024".toList ∧
        ∀ c ∈ candidates.words, ∀ r ∈ awkRecords file, awk.isFor m f c r = true →
          awk.amount r[3]? ≤ 0)

variable {awk file m f}

theorem rated_iff {u : Name} {rate : Rate} :
    awk.Rated file m f u rate ↔
      ∃ field, (rate, field) ∈ awk.rates file m f ∧ awk.equal field u = true := by
  constructor
  · rintro ⟨record, listed, own, rfl, positive⟩
    obtain ⟨key, field⟩ := Bool.and_eq_true_iff.mp own
    refine ⟨record[2]?, List.mem_map.mpr ⟨record, List.mem_filter.mpr ⟨listed, ?_⟩, rfl⟩, field⟩
    rw [key, decide_eq_true positive, Bool.and_self]
  · rintro ⟨field, member, same⟩
    obtain ⟨record, kept, pair⟩ := List.mem_map.mp member
    obtain ⟨listed, both⟩ := List.mem_filter.mp kept
    obtain ⟨key, positive⟩ := Bool.and_eq_true_iff.mp both
    obtain ⟨rfl, rfl⟩ := Prod.mk_inj.mp pair
    exact ⟨record, listed, Bool.and_eq_true_iff.mpr ⟨key, same⟩, rfl, of_decide_eq_true positive⟩

theorem Leads.leader_eq {record : List Name} (leads : awk.Leads file m f record) :
    awk.leader file m f = (awk.amount record[3]?, record[2]?) := by
  obtain ⟨before, after, split, key, positive, above, most⟩ := leads
  rw [leader, rates, split, List.filter_append, List.filter_cons,
    if_pos (Bool.and_eq_true_iff.mpr ⟨key, decide_eq_true positive⟩), List.map_append,
      List.map_cons]
  refine best_first ?_ ?_
  · intro earlier member
    rcases List.mem_cons.mp member with rfl | listed
    · exact positive
    · obtain ⟨r, kept, rfl⟩ := List.mem_map.mp listed
      obtain ⟨listed, both⟩ := List.mem_filter.mp kept
      exact above r listed (Bool.and_eq_true_iff.mp both).1
  · intro later member
    obtain ⟨r, kept, rfl⟩ := List.mem_map.mp member
    obtain ⟨listed, both⟩ := List.mem_filter.mp kept
    exact most r listed (Bool.and_eq_true_iff.mp both).1

theorem leads_cases (awk : Awk Rate) (file m f : Name) :
    awk.rates file m f = [] ∨ ∃ record, awk.Leads file m f record := by
  have positive : ∀ entry ∈ awk.rates file m f, 0 < entry.1 := by
    intro entry member
    obtain ⟨record, kept, rfl⟩ := List.mem_map.mp member
    exact of_decide_eq_true (Bool.and_eq_true_iff.mp (List.mem_filter.mp kept).2).2
  rcases best_cases (0, none) (awk.rates file m f) with
    none | ⟨front, value, back, split, above, most⟩
  · refine Or.inl (List.eq_nil_iff_forall_not_mem.mpr fun entry member => ?_)
    exact absurd (positive entry member) (not_lt.mpr (none entry member))
  · right
    have less := above _ List.mem_cons_self
    obtain ⟨front', rest, kept, rfl, tail⟩ := List.map_eq_append_iff.mp split
    obtain ⟨record, back', rfl, rfl, rfl⟩ := List.map_eq_cons_iff.mp tail
    obtain ⟨before, rest, whole, rfl, kept'⟩ := List.filter_eq_append_iff.mp kept
    obtain ⟨between, after, rfl, skipped, own, rfl⟩ := List.filter_eq_cons_iff.mp kept'
    -- a row at the key that the program passes over has no positive rate
    have low : ∀ (r : List Name), awk.atKey m f r = true →
        ¬(awk.atKey m f r && decide (0 < awk.amount r[3]?)) = true →
          awk.amount r[3]? < awk.amount record[3]? := by
      intro r key passed
      rw [key, Bool.true_and, decide_eq_true_eq, not_lt] at passed
      exact lt_of_le_of_lt passed less
    refine ⟨record, before ++ between, after, by rw [whole, List.append_assoc],
      (Bool.and_eq_true_iff.mp own).1, less, fun r listed key => ?_, fun r listed key => ?_⟩
    · by_cases taken : (awk.atKey m f r && decide (0 < awk.amount r[3]?)) = true
      · rcases List.mem_append.mp listed with first | second
        · exact above _ (List.mem_cons_of_mem _
            (List.mem_map.mpr ⟨r, List.mem_filter.mpr ⟨first, taken⟩, rfl⟩))
        · exact absurd taken (skipped r second)
      · exact low r key taken
    · by_cases taken : (awk.atKey m f r && decide (0 < awk.amount r[3]?)) = true
      · exact most _ (List.mem_map.mpr ⟨r, List.mem_filter.mpr ⟨listed, taken⟩, rfl⟩)
      · exact (low r key taken).le

theorem selects_untried {candidates : Candidates} {before after : List Name} {c : Name}
    (split : candidates.words = before ++ c :: after)
    (tried : ∀ c' ∈ before, awk.found file m f c' = true) (fresh : awk.found file m f c = false) :
    awk.selectUbatch file m f candidates = c := by
  have skipped : before.find? (fun c => !awk.found file m f c) = none := by
    apply List.find?_eq_none.mpr
    intro c' member
    simp [tried c' member]
  rw [selectUbatch, split, List.find?_append, skipped, Option.none_or,
    List.find?_cons_of_pos (by simp [fresh])]

theorem selects_told {candidates : Candidates}
    (tried : ∀ c ∈ candidates.words, awk.found file m f c = true) :
    awk.selectUbatch file m f candidates = awk.told (awk.leader file m f) := by
  have none : candidates.words.find? (fun c => !awk.found file m f c) = none := by
    apply List.find?_eq_none.mpr
    intro c member
    simp [tried c member]
  rw [selectUbatch, none]

omit [LinearOrder Rate] [Zero Rate] in
theorem told_unset (rate : Rate) : awk.told (rate, none) = "1024".toList := by
  have empty : readWord [] = [] := rfl
  simp only [told, awk.unset, Bool.false_eq_true, if_false, empty, if_true]

theorem selects_of_untried {candidates : Candidates}
    (untried : ∃ c ∈ candidates.words, awk.found file m f c = false) :
    awk.Selects file m f candidates (awk.selectUbatch file m f candidates) := by
  obtain ⟨c, listed, fresh⟩ := untried
  have some (tried : ∀ c ∈ candidates.words, awk.found file m f c = true) : False := by
    rw [tried c listed] at fresh
    cases fresh
  exact ⟨fun _ _ _ split tried fresh => selects_untried split tried fresh,
    fun tried => absurd (some tried) id, fun tried => absurd (some tried) id⟩

theorem selects_tried_iff {candidates : Candidates}
    (tried : ∀ c ∈ candidates.words, awk.found file m f c = true) :
    awk.Selects file m f candidates (awk.selectUbatch file m f candidates) ↔
      awk.IsFastest file m f candidates (awk.told (awk.leader file m f)) ∨
        awk.NoneRated file m f candidates ∧
          awk.told (awk.leader file m f) = "1024".toList := by
  rw [selects_told tried]
  constructor
  · intro selects
    by_cases none : awk.NoneRated file m f candidates
    · exact Or.inr ⟨none, selects.fallback tried none⟩
    · exact Or.inl (selects.fastest tried none)
  · intro right
    refine ⟨fun before c after split _ fresh => ?_, fun _ some => ?_, fun _ none => ?_⟩
    · have listed : c ∈ candidates.words := by
        rw [split]
        simp
      rw [tried c listed] at fresh
      cases fresh
    · rcases right with fastest | ⟨none, -⟩
      · exact fastest
      · exact absurd none some
    · rcases right with ⟨listed, rate, rated, -⟩ | ⟨-, told⟩
      · exact absurd rated (none _ listed rate)
      · exact told

omit [LinearOrder Rate] [Zero Rate] in
theorem spells_iff {record : List Name} {word : Name} (some : word ≠ []) :
    awk.Spells record word ↔ awk.told (awk.amount record[3]?, record[2]?) = word := by
  simp only [Spells, told]
  generalize (if awk.holds record[2]? = true then
    record[2]?.getD [] ++ ' ' :: awk.shown (awk.amount record[3]?) else []) = text
  by_cases empty : readWord text = []
  · rw [if_pos empty, empty]
    constructor
    · rintro (rfl | ⟨-, rfl⟩)
      · exact absurd rfl some
      · rfl
    · rintro rfl
      exact Or.inr ⟨rfl, rfl⟩
  · rw [if_neg empty]
    exact or_iff_left fun both => empty both.1

theorem tops_iff {candidates : Candidates} {c : Name} (listed : c ∈ candidates.words) :
    (∃ own, awk.Tops file m f candidates c own) ↔ awk.IsFastest file m f candidates c := by
  constructor
  · rintro ⟨own, member, row, positive, most⟩
    refine ⟨listed, _, ⟨own, member, row, rfl, positive⟩, ?_⟩
    rintro c' candidate rate' ⟨r, listed', row', rfl, -⟩
    exact most c' candidate r listed' row'
  · rintro ⟨-, rate, ⟨own, member, row, rfl, positive⟩, most⟩
    refine ⟨own, member, row, positive, fun c' candidate r listed' row' => ?_⟩
    rcases lt_or_ge 0 (awk.amount r[3]?) with fast | slow
    · exact most c' candidate _ ⟨r, listed', row', rfl, fast⟩
    · exact slow.trans positive.le

theorem noneRated_iff {candidates : Candidates} :
    awk.NoneRated file m f candidates ↔ ∀ c ∈ candidates.words, ∀ r ∈ awkRecords file,
      awk.isFor m f c r = true → awk.amount r[3]? ≤ 0 := by
  constructor
  · intro none c candidate r listed row
    exact not_lt.mp fun fast => none c candidate _ ⟨r, listed, row, rfl, fast⟩
  · rintro slow c candidate rate ⟨r, listed, row, rfl, fast⟩
    exact absurd fast (not_lt.mpr (slow c candidate r listed row))

theorem Leads.fits_iff {record : List Name} (leads : awk.Leads file m f record)
    (candidates : Candidates) :
    awk.IsFastest file m f candidates (awk.told (awk.leader file m f)) ∨
        awk.NoneRated file m f candidates ∧ awk.told (awk.leader file m f) = "1024".toList ↔
      awk.LeaderFits file m f candidates := by
  have fallback : "1024".toList ≠ [] := List.cons_ne_nil _ _
  constructor
  · rw [leads.leader_eq]
    rintro (fastest | ⟨unrated, told⟩)
    · have word := candidates.word _ fastest.1
      exact ⟨record, leads, Or.inl ⟨_, fastest.1, (spells_iff word).mpr rfl,
        (tops_iff fastest.1).mpr fastest⟩⟩
    · exact ⟨record, leads, Or.inr ⟨(spells_iff fallback).mpr told, noneRated_iff.mp unrated⟩⟩
  · rintro ⟨other, leads', fits⟩
    rw [leads'.leader_eq]
    rcases fits with ⟨c, listed, spells, own⟩ | ⟨spells, slow⟩
    · rw [(spells_iff (candidates.word c listed)).mp spells]
      exact Or.inl ((tops_iff listed).mp own)
    · exact Or.inr ⟨noneRated_iff.mpr slow, (spells_iff fallback).mp spells⟩

/-- The selection follows the rule exactly when a candidate has no row, no row of the model
and the fraction has a positive rate, or the first of the fastest rows fits. -/
theorem selects_iff (awk : Awk Rate) (file m f : Name) (candidates : Candidates) :
    awk.Selects file m f candidates (awk.selectUbatch file m f candidates) ↔
      (∃ c ∈ candidates.words, awk.found file m f c = false) ∨ awk.rates file m f = [] ∨
        awk.LeaderFits file m f candidates := by
  by_cases untried : ∃ c ∈ candidates.words, awk.found file m f c = false
  · exact iff_of_true (selects_of_untried untried) (Or.inl untried)
  · have tried : ∀ c ∈ candidates.words, awk.found file m f c = true := by
      simpa using untried
    rw [selects_tried_iff tried, or_iff_right untried]
    rcases leads_cases awk file m f with none | ⟨record, leads⟩
    · have unset : awk.leader file m f = (0, Option.none) := by
        rw [leader, none]
        rfl
      refine iff_of_true (Or.inr ⟨fun c _ rate rated => ?_, ?_⟩) (Or.inl none)
      · obtain ⟨field, member, -⟩ := rated_iff.mp rated
        rw [none] at member
        cases member
      · rw [unset, told_unset]
    · have some : awk.rates file m f ≠ [] := by
        obtain ⟨before, after, split, key, positive, -, -⟩ := id leads
        refine List.ne_nil_of_mem (List.mem_map.mpr ⟨record, List.mem_filter.mpr ⟨?_, ?_⟩, rfl⟩)
        · rw [split]
          exact List.mem_append_right _ List.mem_cons_self
        · exact Bool.and_eq_true_iff.mpr ⟨key, decide_eq_true positive⟩
      rw [or_iff_right some]
      exact leads.fits_iff candidates

end Awk

/-! ## POSIX numbers -/

def numeral (text : Name) : Option (ℚ × Name) :=
  let (negative, body) := sign (text.dropWhile isBlank)
  let (whole, rest) := digits 0 body
  let point := rest.head? = some '.'
  let (part, rest') := if point then digits 0 (rest.drop 1) else (0, rest)
  let places := if point then rest.length - 1 - rest'.length else 0
  if body.length = rest.length ∧ places = 0 then none
  else
    let value : ℚ := whole + part / 10 ^ places
    let scaled := match rest' with
      | e :: mark =>
          let (down, power) := sign mark
          let (exponent, rest'') := digits 0 power
          if (e = 'e' ∨ e = 'E') ∧ power.length ≠ rest''.length then
            (if down then value / 10 ^ exponent else value * 10 ^ exponent, rest'')
          else (value, rest')
      | [] => (value, rest')
    some (if negative then -scaled.1 else scaled.1, scaled.2)

def looksNumeric (text : Name) : Option ℚ :=
  (numeral text).bind fun (value, rest) => if rest.all isBlank then some value else none

def posixAwk (shown : ℚ → Name) : Awk ℚ where
  equal field v :=
    match (field.map looksNumeric).getD (some 0), looksNumeric v with
    | some x, some y => x = y
    | _, _ => field.getD [] = v
  amount field := (((field.getD []) |> numeral).map Prod.fst).getD 0
  holds field :=
    match field with
    | none => false
    | some text => (looksNumeric text).elim (text ≠ []) (· ≠ 0)
  unset := rfl
  shown := shown

/-- A candidate was measured, and before the list was overridden another value. -/
def strayFile : Name := "m\t0.15\t1024\t200.0\nm\t0.15\t4096\t300.0\n".toList

/-- `UBATCH_CANDIDATES=1024`. -/
def oneCandidate : Candidates := ⟨["1024".toList], List.cons_ne_nil _ _, by simp⟩

/-- `awk`, which prints the fastest rate of the file so. -/
def strayAwk : Awk ℚ := posixAwk fun _ => "300".toList

/-- A row of a value that is no candidate wins. -/
theorem stray_selected :
    ¬strayAwk.Selects strayFile "m".toList "0.15".toList oneCandidate
      (strayAwk.selectUbatch strayFile "m".toList "0.15".toList oneCandidate) := by
  intro selects
  have tried : ∀ c ∈ oneCandidate.words,
      strayAwk.found strayFile "m".toList "0.15".toList c = true := by decide +kernel
  have chosen : strayAwk.selectUbatch strayFile "m".toList "0.15".toList oneCandidate =
      "4096".toList := by decide +kernel
  rw [chosen] at selects
  by_cases none : strayAwk.NoneRated strayFile "m".toList "0.15".toList oneCandidate
  · exact absurd (selects.fallback tried none) (by decide)
  · exact absurd (List.mem_singleton.mp (selects.fastest tried none).1) (by decide)

end MoeStream
