import Mathlib.Data.List.Find
import MoeStream.Foundation.Lines
import MoeStream.Learn.Selection

/-!
# Learning the number of drafted tokens

Embedding of the `SPEC_DECODING=learn` block of `entrypoint.sh` over the text of
`spec.tsv`: the key of a configuration, the loop over the candidates, the two
programs for `awk`, and the recorder that rewrites the file once a server has
generated enough tokens.
-/

set_option autoImplicit false

namespace MoeStream

open Foundation.Lines Foundation.TryEach

/-! ## Texts -/

/-- A setting that `-v` and `\Q…\E` take as it is, inside one field of a line. -/
abbrev EnvText := { text : Name // '\t' ∉ text ∧ '\n' ∉ text ∧ '\\' ∉ text }

abbrev Word := { text : Name // text ≠ [] ∧ text.all Char.isAlphanum = true }

/-- `${v:-fallback}`. -/
def orElse (v : EnvText) (fallback : Name) : Name := if v.1 = [] then fallback else v.1

/-- The settings of a start that its rows are keyed by; an unset one is empty. -/
structure SpecSettings where
  cacheFrac : EnvText
  denseFrac : EnvText
  moestream : EnvText
  nParallel : EnvText

/-- `p${N_PARALLEL:-1}`, without the letter. -/
def SpecSettings.concurrency (v : SpecSettings) : Name := orElse v.nParallel "1".toList

def SpecSettings.skey (v : SpecSettings) : Name :=
  orElse v.cacheFrac "na".toList ++ '/' :: (orElse v.denseFrac "na".toList ++
    '/' :: (orElse v.moestream "1".toList ++ '/' :: 'p' :: v.concurrency))

/-! ## The file -/

/-- A line of `spec.tsv`. -/
structure SpecRow where
  model : Name
  config : Name
  n : Name
  rate : Name
  deriving DecidableEq

def SpecRow.key (row : SpecRow) : Name × Name × Name := (row.model, row.config, row.n)

def SpecRow.front (row : SpecRow) : Name :=
  row.model ++ '\t' :: (row.config ++ '\t' :: (row.n ++ ['\t']))

/-- The line, as `printf` writes it. -/
def SpecRow.text (row : SpecRow) : Name := row.front ++ row.rate ++ ['\n']

/-- The lines `grep` reads. -/
def grepLines (file : Name) : List Name :=
  let lines := file.splitOn '\n'
  if lines.getLast? = some [] then lines.dropLast else lines

/-- What `grep -v` prints. -/
def grepped (file : Name) (row : SpecRow) : Name :=
  (((grepLines file).filter fun line => !row.front.isPrefixOf line).map (· ++ ['\n'])).flatten

def cut : Option Nat → Name → Name
  | none, text => text
  | some room, text => text.take room

structure RecordOutcome where
  /-- `mktemp`. -/
  made : Bool
  /-- What `grep` and `printf` could write. -/
  kept : Option Nat
  appended : Option Nat
  /-- `mv`. -/
  moved : Bool

/-- `$SPEC_TSV` after the recorder. -/
def recordSpec (file : Name) (row : SpecRow) (o : RecordOutcome) : Name :=
  if o.made && o.moved then cut o.kept (grepped file row) ++ cut o.appended row.text else file

/-! ## A start -/

variable {Rate : Type} [LinearOrder Rate] [Zero Rate]

/-- The selection: `SN` in the end. -/
def Awk.selectSpec (awk : Awk Rate) (file m k : Name) (candidates : List Name) : Name :=
  match candidates.find? fun c => !awk.found file m k c with
  | some c => c
  | none =>
      let leader := awk.leader file m k
      let printed :=
        if awk.holds leader.2 then leader.2.getD [] ++ ' ' :: awk.shown leader.1 else []
      if readWord printed = [] then "off".toList else readWord printed

/-- A start of the container with `SPEC_DECODING=learn`. -/
structure SpecStart where
  model : EnvText
  settings : SpecSettings
  candidates : List Word
  /-- `moestream-spec-probe` names a type. -/
  types : Bool
  /-- What `printf` makes of the rate, once the server generated enough tokens. -/
  rate : Option EnvText
  outcome : RecordOutcome

namespace SpecStart

variable (s t : SpecStart) (awk : Awk Rate) (file : Name)

/-- `SN`. -/
def takes : Name :=
  awk.selectSpec file s.model.1 s.settings.skey (s.candidates.map Subtype.val)

def row : Option SpecRow :=
  if s.types then
    s.rate.map fun rate => ⟨s.model.1, s.settings.skey, s.takes awk file, rate.1⟩
  else none

def Records : Prop :=
  s.types = true ∧ s.rate.isSome = true ∧ s.outcome.made = true ∧ s.outcome.moved = true

/-- The file is not replaced by one that was written in part. -/
def Whole : Prop :=
  s.outcome.made = true → s.outcome.moved = true →
    s.outcome.kept = none ∧ s.outcome.appended = none

def Alike : Prop := t.model = s.model ∧ t.settings.skey = s.settings.skey

def Repeated : Prop := s.Alike t ∧ t.candidates = s.candidates ∧ t.Records

instance : Decidable s.Records := by
  rw [Records]
  infer_instance

instance : Decidable (s.Alike t) := by
  rw [Alike]
  infer_instance

instance : Decidable (s.Repeated t) := by
  rw [Repeated]
  infer_instance

end SpecStart

def specStep (awk : Awk Rate) (state : Name × List SpecRow) (s : SpecStart) :
    Name × List SpecRow :=
  match s.row awk state.1 with
  | none => state
  | some row =>
      (recordSpec state.1 row s.outcome, if s.Records then state.2 ++ [row] else state.2)

def afterSpec (awk : Awk Rate) (run : List SpecStart) : Name × List SpecRow :=
  run.foldl (specStep awk) ([], [])

/-! ## Rows in a file -/

def specText (rows : List SpecRow) : Name := (rows.map SpecRow.text).flatten

def SpecRow.fields (row : SpecRow) : List Name := [row.model, row.config, row.n, row.rate]

/-- Names that `awk` compares as texts. -/
def Awk.Tells (awk : Awk Rate) (names : Set Name) : Prop :=
  ∀ a ∈ names, ∀ b ∈ names, awk.equal (some a) b = decide (a = b)

/-- A row that is one line of four fields, with a word for `read`. -/
structure SpecRow.Neat (names : Set Name) (row : SpecRow) : Prop where
  tabs : ∀ field ∈ row.fields, '\t' ∉ field
  lines : ∀ field ∈ row.fields, '\n' ∉ field
  known : row.model ∈ names ∧ row.config ∈ names ∧ row.n ∈ names
  word : row.n ≠ [] ∧ ∀ c ∈ row.n, isIfs c = false

variable {awk : Awk Rate} {names : Set Name} {rows : List SpecRow} {row : SpecRow}
  {m k c : Name}

def SpecRow.body (row : SpecRow) : Name := row.front ++ row.rate

theorem SpecRow.Neat.body_clean (neat : row.Neat names) : '\n' ∉ row.body := by
  have model := neat.lines row.model (by simp [SpecRow.fields])
  have config := neat.lines row.config (by simp [SpecRow.fields])
  have n := neat.lines row.n (by simp [SpecRow.fields])
  have rate := neat.lines row.rate (by simp [SpecRow.fields])
  simp [SpecRow.body, SpecRow.front, model, config, n, rate]

theorem SpecRow.Neat.body_fields (neat : row.Neat names) :
    row.body.splitOn '\t' = row.fields := by
  have model := neat.tabs row.model (by simp [SpecRow.fields])
  have config := neat.tabs row.config (by simp [SpecRow.fields])
  have n := neat.tabs row.n (by simp [SpecRow.fields])
  have rate := neat.tabs row.rate (by simp [SpecRow.fields])
  rw [SpecRow.body, SpecRow.front, List.append_assoc, List.cons_append, List.append_assoc,
    List.cons_append, List.append_assoc, List.singleton_append,
    List.splitOn_append_cons_self_of_not_mem model,
    List.splitOn_append_cons_self_of_not_mem config,
    List.splitOn_append_cons_self_of_not_mem n, List.splitOn_eq_singleton rate]
  rfl

theorem grepLines_text (neat : ∀ row ∈ rows, row.Neat names) :
    grepLines (specText rows) = rows.map SpecRow.body := by
  have split : (specText rows).splitOn '\n' = rows.map SpecRow.body ++ [[]] := by
    have clean : ∀ body ∈ rows.map SpecRow.body, '\n' ∉ body := by
      intro body member
      obtain ⟨row, listed, rfl⟩ := List.mem_map.mp member
      exact (neat row listed).body_clean
    have lines := splitOn_lines clean
    rwa [List.map_map] at lines
  rw [grepLines, split]
  simp

theorem awkRecords_text (neat : ∀ row ∈ rows, row.Neat names) :
    awkRecords (specText rows) = rows.map SpecRow.fields := by
  have lines := grepLines_text neat
  rw [grepLines] at lines
  rw [awkRecords, lines, List.map_map]
  refine List.map_congr_left fun row listed => ?_
  have some : row.body ≠ [] := by simp [SpecRow.body, SpecRow.front]
  rw [Function.comp_apply, if_neg some, (neat row listed).body_fields]

theorem SpecRow.Neat.front_iff {other : SpecRow} (neat : row.Neat names)
    (neat' : other.Neat names) : row.front <+: other.body ↔ other.key = row.key := by
  constructor
  · intro front
    have ended (row : SpecRow) (neat : row.Neat names) :
        ∀ l ∈ [row.model ++ ['\t'], row.config ++ ['\t'], row.n ++ ['\t']],
          Terminated '\t' l := by
      intro l member
      simp only [List.mem_cons, List.not_mem_nil, or_false] at member
      rcases member with rfl | rfl | rfl
      · exact ⟨_, neat.tabs row.model (by simp [SpecRow.fields]), rfl⟩
      · exact ⟨_, neat.tabs row.config (by simp [SpecRow.fields]), rfl⟩
      · exact ⟨_, neat.tabs row.n (by simp [SpecRow.fields]), rfl⟩
    have parts (row : SpecRow) :
        [row.model ++ ['\t'], row.config ++ ['\t'], row.n ++ ['\t']].flatten = row.front := by
      simp [SpecRow.front]
    rw [SpecRow.body, ← parts row, ← parts other] at front
    have same := flatten_front (ended row neat) (ended other neat') rfl front
    simp only [List.cons.injEq, List.append_cancel_right_eq, and_true] at same
    obtain ⟨model, config, n⟩ := same
    rw [SpecRow.key, SpecRow.key, model, config, n]
  · intro same
    obtain ⟨model, config, n⟩ : other.model = row.model ∧ other.config = row.config ∧
        other.n = row.n := by simpa [SpecRow.key] using same
    rw [SpecRow.body, SpecRow.front, SpecRow.front, model, config, n]
    exact List.prefix_append _ _

def otherKeys (rows : List SpecRow) (row : SpecRow) : List SpecRow :=
  rows.filter fun old => !decide (old.key = row.key)

theorem grepped_text (neat : ∀ row ∈ rows, row.Neat names) (own : row.Neat names) :
    grepped (specText rows) row = specText (otherKeys rows row) := by
  rw [grepped, grepLines_text neat, List.filter_map, List.map_map, specText, otherKeys]
  have kept : rows.filter ((fun line => !row.front.isPrefixOf line) ∘ SpecRow.body) =
      rows.filter fun old => !decide (old.key = row.key) := by
    refine List.filter_congr fun old listed => ?_
    rw [Function.comp_apply]
    congr 1
    rw [Bool.eq_iff_iff, List.isPrefixOf_iff_prefix, decide_eq_true_eq,
      own.front_iff (neat old listed)]
  rw [kept]
  rfl

/-- A file that is replaced whole holds the other rows, then the new one. -/
theorem recordSpec_text (neat : ∀ row ∈ rows, row.Neat names) (own : row.Neat names)
    {o : RecordOutcome} (kept : o.kept = none) (appended : o.appended = none)
    (made : o.made = true) (moved : o.moved = true) :
    recordSpec (specText rows) row o =
      specText (statePut (fun old => decide (old.key = row.key)) row rows) := by
  rw [recordSpec, made, moved, kept, appended, grepped_text neat own, statePut]
  simp [specText, otherKeys, cut]

/-! ## The selection -/

def ownRows (rows : List SpecRow) (m k : Name) : List SpecRow :=
  rows.filter fun row => decide (row.model = m ∧ row.config = k)

theorem mem_ownRows : row ∈ ownRows rows m k ↔ row ∈ rows ∧ row.model = m ∧ row.config = k := by
  rw [ownRows, List.mem_filter, decide_eq_true_eq]

@[simp] theorem ownRows_own (rows : List SpecRow) (m k : Name) :
    ownRows (ownRows rows m k) m k = ownRows rows m k := by
  rw [ownRows, ownRows, List.filter_filter]
  simp only [Bool.and_self]

namespace Awk

omit [LinearOrder Rate] [Zero Rate] in
theorem atKey_fields (tells : awk.Tells names) (neat : row.Neat names) (model : m ∈ names)
    (config : k ∈ names) :
    awk.atKey m k row.fields = decide (row.model = m ∧ row.config = k) := by
  have first : awk.equal row.fields[0]? m = decide (row.model = m) :=
    tells _ neat.known.1 _ model
  have second : awk.equal row.fields[1]? k = decide (row.config = k) :=
    tells _ neat.known.2.1 _ config
  rw [atKey, first, second, Bool.decide_and]

omit [LinearOrder Rate] [Zero Rate] in
theorem found_text (tells : awk.Tells names) (neat : ∀ row ∈ rows, row.Neat names)
    (model : m ∈ names) (config : k ∈ names) (listed : c ∈ names) :
    awk.found (specText rows) m k c = (ownRows rows m k).any fun row => decide (row.n = c) := by
  rw [found, awkRecords_text neat, List.any_map, ownRows, List.any_filter, Bool.eq_iff_iff,
    List.any_eq_true, List.any_eq_true]
  refine exists_congr fun row => and_congr_right fun member => ?_
  have third : awk.equal row.fields[2]? c = decide (row.n = c) :=
    tells _ (neat row member).known.2.2 _ listed
  rw [Function.comp_apply, isFor, atKey_fields tells (neat row member) model config, third]

theorem rates_text (tells : awk.Tells names) (neat : ∀ row ∈ rows, row.Neat names)
    (model : m ∈ names) (config : k ∈ names) :
    awk.rates (specText rows) m k =
      ((ownRows rows m k).filter fun row => decide (0 < awk.amount (some row.rate))).map
        fun row => (awk.amount (some row.rate), some row.n) := by
  rw [rates, awkRecords_text neat, List.filter_map, List.map_map, ownRows, List.filter_filter]
  have kept : rows.filter ((fun record =>
        awk.atKey m k record && decide (0 < awk.amount record[3]?)) ∘ SpecRow.fields) =
      rows.filter fun row => decide (0 < awk.amount (some row.rate)) &&
        decide (row.model = m ∧ row.config = k) := by
    refine List.filter_congr fun row member => ?_
    rw [Function.comp_apply, atKey_fields tells (neat row member) model config, Bool.and_comm]
    rfl
  rw [kept]
  rfl

theorem selectSpec_own (tells : awk.Tells names) (neat : ∀ row ∈ rows, row.Neat names)
    (model : m ∈ names) (config : k ∈ names) {candidates : List Name}
    (listed : ∀ c ∈ candidates, c ∈ names) :
    awk.selectSpec (specText rows) m k candidates =
      awk.selectSpec (specText (ownRows rows m k)) m k candidates := by
  have neat' : ∀ row ∈ ownRows rows m k, row.Neat names :=
    fun row member => neat row (mem_ownRows.mp member).1
  have leaders : awk.leader (specText rows) m k = awk.leader (specText (ownRows rows m k)) m k := by
    rw [leader, leader, rates_text tells neat model config, rates_text tells neat' model config,
      ownRows_own]
  have offers : (candidates.find? fun c => !awk.found (specText rows) m k c) =
      candidates.find? fun c => !awk.found (specText (ownRows rows m k)) m k c := by
    refine List.find?_congr fun c member => ?_
    rw [found_text tells neat model config (listed c member),
      found_text tells neat' model config (listed c member), ownRows_own]
  rw [selectSpec, selectSpec, offers, leaders]

end Awk

theorem readWord_word {word rest : Name} (some : word ≠ []) (plain : ∀ c ∈ word, isIfs c = false) :
    readWord (word ++ ' ' :: rest) = word := by
  obtain ⟨first, tail, rfl⟩ := List.exists_cons_of_ne_nil some
  have starts : ((first :: tail) ++ ' ' :: rest).dropWhile isIfs =
      (first :: tail) ++ ' ' :: rest := by
    rw [List.cons_append, List.dropWhile_cons_of_neg (by simp [plain first])]
  rw [readWord, starts, List.takeWhile_append_of_pos fun c member => by simp [plain c member]]
  simp [isIfs]

/-- The word of a row that `if (p)` lets through. -/
def Awk.spoken (awk : Awk Rate) (n : Name) : Name :=
  if awk.holds (some n) then n else "off".toList

/-- What a start takes by the rows of its model and configuration: the first candidate
without one, else the number of the fastest, else no drafts. -/
structure SpecRule (awk : Awk Rate) (rows : List SpecRow) (candidates : List Name) (n : Name) :
    Prop where
  untried : ∀ before c after, candidates = before ++ c :: after →
    (∀ c' ∈ before, ∃ row ∈ rows, row.n = c') → (∀ row ∈ rows, row.n ≠ c) → n = c
  fastest : (∀ c ∈ candidates, ∃ row ∈ rows, row.n = c) →
    ∀ row ∈ rows, 0 < awk.amount (some row.rate) →
      ∃ winner ∈ rows, n = awk.spoken winner.n ∧
        ∀ other ∈ rows, awk.amount (some other.rate) ≤ awk.amount (some winner.rate)
  unrated : (∀ c ∈ candidates, ∃ row ∈ rows, row.n = c) →
    (∀ row ∈ rows, awk.amount (some row.rate) ≤ 0) → n = "off".toList

namespace Awk

theorem selectSpec_tried {file : Name} {candidates : List Name}
    (tried : ∀ c ∈ candidates, awk.found file m k c = true) :
    awk.selectSpec file m k candidates =
      let leader := awk.leader file m k
      let printed :=
        if awk.holds leader.2 then leader.2.getD [] ++ ' ' :: awk.shown leader.1 else []
      if readWord printed = [] then "off".toList else readWord printed := by
  have none : candidates.find? (fun c => !awk.found file m k c) = none := by
    apply List.find?_eq_none.mpr
    intro c member
    simp [tried c member]
  rw [selectSpec, none]

theorem selectSpec_unset {file : Name} {candidates : List Name}
    (tried : ∀ c ∈ candidates, awk.found file m k c = true)
    (unset : awk.leader file m k = (0, none)) :
    awk.selectSpec file m k candidates = "off".toList := by
  have empty : readWord [] = [] := rfl
  rw [selectSpec_tried tried, unset]
  simp only [awk.unset, Bool.false_eq_true, if_false, empty, if_true]

theorem selectSpec_row {file : Name} {candidates : List Name} {rate : Rate}
    (tried : ∀ c ∈ candidates, awk.found file m k c = true)
    (leads : awk.leader file m k = (rate, some row.n)) (neat : row.Neat names) :
    awk.selectSpec file m k candidates = awk.spoken row.n := by
  have empty : readWord [] = [] := rfl
  rw [selectSpec_tried tried, leads, spoken]
  by_cases holds : awk.holds (some row.n) = true
  · simp only [holds, if_true, Option.getD_some, readWord_word neat.word.1 neat.word.2,
      if_neg neat.word.1]
  · simp only [holds, Bool.false_eq_true, if_false, empty, if_true]

theorem leader_text (tells : awk.Tells names) (neat : ∀ row ∈ rows, row.Neat names)
    (model : m ∈ names) (config : k ∈ names) :
    (awk.leader (specText rows) m k = (0, none) ∧
        ∀ row ∈ ownRows rows m k, awk.amount (some row.rate) ≤ 0) ∨
      ∃ winner ∈ ownRows rows m k, 0 < awk.amount (some winner.rate) ∧
        awk.leader (specText rows) m k = (awk.amount (some winner.rate), some winner.n) ∧
        ∀ other ∈ ownRows rows m k,
          awk.amount (some other.rate) ≤ awk.amount (some winner.rate) := by
  have rates := rates_text tells neat model config
  have offered (row : SpecRow) (member : row ∈ ownRows rows m k)
      (rated : 0 < awk.amount (some row.rate)) :
      (awk.amount (some row.rate), some row.n) ∈ awk.rates (specText rows) m k := by
    rw [rates]
    exact List.mem_map.mpr ⟨row, List.mem_filter.mpr ⟨member, decide_eq_true rated⟩, rfl⟩
  rcases best_cases (0, none) (awk.rates (specText rows) m k) with
    none | ⟨front, value, back, split, above, most⟩
  · refine Or.inl ⟨best_of_le none, fun row member => not_lt.mp fun positive => ?_⟩
    exact absurd (none _ (offered row member positive)) (not_le.mpr positive)
  · have leads : awk.leader (specText rows) m k = value := by
      rw [leader, split]
      exact best_first above most
    have listed : value ∈ awk.rates (specText rows) m k := by simp [split]
    rw [rates] at listed
    obtain ⟨winner, kept, rfl⟩ := List.mem_map.mp listed
    obtain ⟨own, positive⟩ := List.mem_filter.mp kept
    refine Or.inr ⟨winner, own, of_decide_eq_true positive, leads, fun other member => ?_⟩
    by_cases rated : 0 < awk.amount (some other.rate)
    · have reached := le_best (0, none) (awk.rates (specText rows) m k) _
        (List.mem_cons_of_mem _ (offered other member rated))
      rwa [← leader, leads] at reached
    · exact (not_lt.mp rated).trans (le_of_lt (of_decide_eq_true positive))

theorem selectSpec_rule (tells : awk.Tells names) (neat : ∀ row ∈ rows, row.Neat names)
    (model : m ∈ names) (config : k ∈ names) {candidates : List Name}
    (listed : ∀ c ∈ candidates, c ∈ names) :
    SpecRule awk (ownRows rows m k) candidates
      (awk.selectSpec (specText rows) m k candidates) := by
  have found (c : Name) (member : c ∈ candidates) :
      awk.found (specText rows) m k c = true ↔ ∃ row ∈ ownRows rows m k, row.n = c := by
    rw [found_text tells neat model config (listed c member)]
    simp
  have tried (all : ∀ c ∈ candidates, ∃ row ∈ ownRows rows m k, row.n = c) :
      ∀ c ∈ candidates, awk.found (specText rows) m k c = true :=
    fun c member => (found c member).mpr (all c member)
  refine ⟨fun before c after split earlier fresh => ?_, fun all row member positive => ?_,
    fun all slow => ?_⟩
  · have skipped : before.find? (fun c => !awk.found (specText rows) m k c) = none := by
      apply List.find?_eq_none.mpr
      intro c' member
      have inside : c' ∈ candidates := by simp [split, member]
      simp [(found c' inside).mpr (earlier c' member)]
    have untried : awk.found (specText rows) m k c = false := by
      rw [← Bool.not_eq_true, found c (by simp [split])]
      rintro ⟨row, member, same⟩
      exact fresh row member same
    rw [selectSpec, split, List.find?_append, skipped, Option.none_or,
      List.find?_cons_of_pos (by simp [untried])]
  · rcases leader_text tells neat model config with ⟨-, slow⟩ | ⟨winner, own, -, leads, most⟩
    · exact absurd positive (not_lt.mpr (slow row member))
    · exact ⟨winner, own,
        selectSpec_row (tried all) leads (neat winner (mem_ownRows.mp own).1), most⟩
  · rcases leader_text tells neat model config with ⟨unset, -⟩ | ⟨winner, own, positive, -, -⟩
    · exact selectSpec_unset (tried all) unset
    · exact absurd positive (not_lt.mpr (slow winner own))

end Awk

end MoeStream
