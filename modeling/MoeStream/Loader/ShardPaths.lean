import Mathlib.Data.List.TakeWhile
import MoeStream.Learn.Tables

/-!
# The shards of a split model

Embedding of `shard_paths`, and the names of `gguf-split` it is meant to tell
from all others.  A path is the list of its bytes, as characters.
-/

set_option autoImplicit false

namespace MoeStream

/-- `-%05d-of-%05d.gguf`. -/
def shardSuffix (i b : Nat) : Name :=
  "-".toList ++ fiveDigits i ++ "-of-".toList ++ fiveDigits b ++ ".gguf".toList

/-- The names of all `b` shards. -/
def shardNames (base : Name) (b : Nat) : List Name :=
  (List.range b).map fun i => base ++ shardSuffix (i + 1) b

/-- `shard_paths`, for the path the loader was given. -/
def shardPaths (path : Name) : List Name :=
  if path = [] then []
  else if 20 < path.length then
    match scanShard (path.drop (path.length - 20)) with
    | none => [path]
    | some (a, b) =>
        if 1 ≤ a ∧ 1 ≤ b ∧ a ≤ b ∧ b < 1000 then
          shardNames (path.take (path.length - 20)) b.toNat
        else [path]
  else [path]

theorem shardPaths_head {path : Name} (given : path ≠ []) :
    (shardPaths path).head? = some (firstShard path) := by
  rw [shardPaths, if_neg given, firstShard]
  by_cases long : 20 < path.length
  · rw [if_pos long, if_pos long]
    cases scanShard (path.drop (path.length - 20)) with
    | none => rfl
    | some ab =>
        obtain ⟨a, b⟩ := ab
        by_cases valid : 1 ≤ a ∧ 1 ≤ b ∧ a ≤ b ∧ b < 1000
        · have some : 0 < b.toNat := by omega
          simp only [if_pos valid, shardNames, List.head?_map, List.head?_range, if_neg some.ne',
            Option.map_some, Option.some_inj, shardSuffix, List.append_assoc]
          rfl
        · simp only [if_neg valid, List.head?_cons]
  · rw [if_neg long, if_neg long, List.head?_cons]

/-! ## `%5d` -/

def decimal (ds : List Char) : Nat := ds.foldl (fun n c => n * 10 + (c.toNat - 48)) 0

def digitNext (text : List Char) : Bool := (text.head?.map Char.isDigit).getD false

/-- A text `%<width>d` reads: blanks, a sign or none, the digits that fit the width,
and what is left. -/
def IntField (width : Nat) (text : List Char) (n : Int) (rest : List Char) : Prop :=
  ∃ blanks mark ds : List Char, text = blanks ++ (mark ++ (ds ++ rest)) ∧
    (∀ c ∈ blanks, isBlank c = true) ∧ (mark = [] ∨ mark = ['-'] ∨ mark = ['+']) ∧
    ds ≠ [] ∧ (∀ c ∈ ds, c.isDigit = true) ∧ mark.length + ds.length ≤ width ∧
    (mark.length + ds.length = width ∨ digitNext rest = false) ∧
    n = if mark = ['-'] then -(decimal ds : Int) else decimal ds

theorem digits_eq (n : Nat) (text : List Char) :
    digits n text = ((text.takeWhile Char.isDigit).foldl (fun n c => n * 10 + (c.toNat - 48)) n,
      text.dropWhile Char.isDigit) := by
  induction text generalizing n with
  | nil => rfl
  | cons c text ih =>
      rw [digits]
      by_cases digit : c.isDigit = true
      · rw [if_pos digit, ih, List.takeWhile_cons_of_pos digit, List.dropWhile_cons_of_pos digit,
          List.foldl_cons]
      · rw [if_neg digit, List.takeWhile_cons_of_neg digit, List.dropWhile_cons_of_neg digit,
          List.foldl_nil]

theorem digits_append {ds rest : List Char} (all : ∀ c ∈ ds, c.isDigit = true)
    (stops : digitNext rest = false) : digits 0 (ds ++ rest) = (decimal ds, rest) := by
  rw [digits_eq, List.takeWhile_append_of_pos all, List.dropWhile_append_of_pos all]
  cases rest with
  | nil => rw [List.takeWhile_nil, List.dropWhile_nil, List.append_nil, decimal]
  | cons c rest =>
      have other : ¬c.isDigit = true := by simpa [digitNext] using stops
      rw [List.takeWhile_cons_of_neg other, List.dropWhile_cons_of_neg other, List.append_nil,
        decimal]

theorem isDigit_of_digitNext {text : List Char} (next : digitNext text = true) :
    ∃ d ds, text = d :: ds ∧ d.isDigit = true := by
  cases text with
  | nil => exact absurd next (by simp [digitNext])
  | cons d ds => exact ⟨d, ds, rfl, by simpa [digitNext] using next⟩

theorem isDigit_iff {c : Char} : c.isDigit = true ↔ 48 ≤ c.toNat ∧ c.toNat ≤ 57 := by
  simp [Char.isDigit, UInt32.le_iff_toNat_le]

theorem sign_mark {mark ds : List Char} (marked : mark = [] ∨ mark = ['-'] ∨ mark = ['+'])
    (next : digitNext ds = true) : sign (mark ++ ds) = (decide (mark = ['-']), ds) := by
  obtain ⟨d, ds, rfl, digit⟩ := isDigit_of_digitNext next
  have range := isDigit_iff.mp digit
  rcases marked with rfl | rfl | rfl
  · rw [List.nil_append, sign, if_neg (by omega), if_neg (by omega)]
    rfl
  · rfl
  · rfl

theorem sign_cases (text : List Char) :
    ∃ mark number, (mark = [] ∨ mark = ['-'] ∨ mark = ['+']) ∧ text = mark ++ number ∧
      sign text = (decide (mark = ['-']), number) := by
  cases text with
  | nil => exact ⟨[], [], Or.inl rfl, rfl, rfl⟩
  | cons c rest =>
      rw [sign]
      by_cases minus : c.toNat = 45
      · have same : c = '-' := Char.toNat_inj.mp minus
        rw [if_pos minus]
        exact ⟨['-'], rest, Or.inr (Or.inl rfl), by rw [same]; rfl, rfl⟩
      · rw [if_neg minus]
        by_cases plus : c.toNat = 43
        · have same : c = '+' := Char.toNat_inj.mp plus
          rw [if_pos plus]
          exact ⟨['+'], rest, Or.inr (Or.inr rfl), by rw [same]; rfl, rfl⟩
        · rw [if_neg plus]
          exact ⟨[], c :: rest, Or.inl rfl, rfl, rfl⟩

theorem scanInt_eq {width : Nat} {text mark number : List Char}
    (signed : sign ((text.dropWhile isBlank).take width) = (decide (mark = ['-']), number)) :
    scanInt width text =
      if digitNext number = true then
        some (if mark = ['-'] then -(decimal (number.takeWhile Char.isDigit) : Int)
            else decimal (number.takeWhile Char.isDigit),
          number.dropWhile Char.isDigit ++ (text.dropWhile isBlank).drop width)
      else none := by
  simp only [scanInt, signed, digits_eq, decide_eq_true_eq]
  rfl

theorem IntField.of_scan {width : Nat} {text rest : List Char} {n : Int}
    (scanned : scanInt width text = some (n, rest)) : IntField width text n rest := by
  obtain ⟨mark, number, marked, taken, signed⟩ := sign_cases ((text.dropWhile isBlank).take width)
  rw [scanInt_eq signed] at scanned
  by_cases next : digitNext number = true
  · rw [if_pos next, Option.some_inj, Prod.mk_inj] at scanned
    obtain ⟨rfl, rfl⟩ := scanned
    obtain ⟨d, ds, rfl, digit⟩ := isDigit_of_digitNext next
    have split := List.takeWhile_append_dropWhile (p := Char.isDigit) (l := d :: ds)
    have lengths := congrArg List.length taken
    have parts := congrArg List.length split
    simp only [List.length_append, List.length_take] at lengths parts
    refine ⟨text.takeWhile isBlank, mark, (d :: ds).takeWhile Char.isDigit, ?_,
      fun c member => List.mem_takeWhile_imp member, marked, ?_,
      fun c member => List.mem_takeWhile_imp member, by omega, ?_, rfl⟩
    · rw [← List.append_assoc _ _ ((text.dropWhile isBlank).drop width), split,
        ← List.append_assoc mark, ← taken, List.take_append_drop,
        List.takeWhile_append_dropWhile]
    · rw [List.takeWhile_cons_of_pos digit]
      exact List.cons_ne_nil _ _
    · -- another character stopped the digits, or the width or the text is used up
      have stopped := List.head?_dropWhile_not Char.isDigit (d :: ds)
      cases stop : (d :: ds).dropWhile Char.isDigit with
      | cons c rest =>
          rw [stop] at stopped
          exact Or.inr (by simpa [digitNext] using stopped)
      | nil =>
          rw [stop, List.length_nil] at parts
          by_cases short : (text.dropWhile isBlank).length < width
          · rw [List.drop_eq_nil_of_le short.le]
            exact Or.inr rfl
          · exact Or.inl (by omega)
  · rw [if_neg next] at scanned
    exact absurd scanned (by simp)

theorem IntField.scan {width : Nat} {text rest : List Char} {n : Int}
    (field : IntField width text n rest) : scanInt width text = some (n, rest) := by
  obtain ⟨blanks, mark, ds, rfl, blank, marked, some, all, short, whole, rfl⟩ := field
  obtain ⟨d, ds', rfl⟩ := List.exists_cons_of_ne_nil some
  have digit := all d List.mem_cons_self
  have body : (blanks ++ (mark ++ (d :: ds' ++ rest))).dropWhile isBlank =
      mark ++ (d :: ds' ++ rest) := by
    rw [List.dropWhile_append_of_pos blank]
    have range := isDigit_iff.mp digit
    have visible : isBlank d = false := by
      rw [isBlank, decide_eq_false_iff_not]
      omega
    rcases marked with rfl | rfl | rfl
    · exact List.dropWhile_cons_of_neg (by simp [visible])
    · exact List.dropWhile_cons_of_neg (by decide)
    · exact List.dropWhile_cons_of_neg (by decide)
  generalize room : width - (mark.length + (d :: ds').length) = k
  have taken : (mark ++ (d :: ds' ++ rest)).take width = mark ++ (d :: ds' ++ rest.take k) := by
    rw [List.take_append, List.take_append, List.take_of_length_le (by omega),
      List.take_of_length_le (by omega), Nat.sub_sub, room]
  have left : (mark ++ (d :: ds' ++ rest)).drop width = rest.drop k := by
    rw [List.drop_append, List.drop_append, List.drop_eq_nil_of_le (by omega),
      List.drop_eq_nil_of_le (by omega), Nat.sub_sub, room]
    rfl
  have next : digitNext (d :: ds' ++ rest.take k) = true := by simpa [digitNext] using digit
  have stops : digitNext (rest.take k) = false := by
    rcases whole with full | stops
    · rw [← room, full, Nat.sub_self]
      rfl
    · cases k with
      | zero => rfl
      | succ k => simpa [digitNext, List.head?_take] using stops
  have read := digits_append all stops
  rw [digits_eq, Prod.mk_inj] at read
  rw [scanInt_eq (by rw [body, taken]; exact sign_mark marked next), if_pos next, body, left]
  simp only [read.2, decimal, read.1, List.take_append_drop]

theorem scanInt_iff {width : Nat} {text rest : List Char} {n : Int} :
    scanInt width text = some (n, rest) ↔ IntField width text n rest :=
  ⟨IntField.of_scan, IntField.scan⟩

/-! ## Recognition -/

/-- `path` is shard `a` of the `b` of a base name. -/
def IsShard (path : Name) (a b : Nat) : Prop :=
  1 ≤ a ∧ a ≤ b ∧ b < 1000 ∧ ∃ base, base ≠ [] ∧ path = base ++ shardSuffix a b

/-- The last twenty bytes begin as the pattern does, with blanks before a number and
signs in it. -/
def ReadsAsShard (path : Name) (a b : Int) : Prop :=
  20 < path.length ∧ 1 ≤ a ∧ a ≤ b ∧ b < 1000 ∧ ∃ text text' rest,
    path.drop (path.length - 20) = "-".toList ++ text ∧
      IntField 5 text a ("-of-".toList ++ text') ∧ IntField 5 text' b rest

/-- Split files are recognised exactly: the names are those of all shards just when the
path is one of them, it is then in its place, and any other path stands alone. -/
structure RecognisesShards (path : Name) : Prop where
  names : ∀ base b, base ≠ [] → 1 ≤ b → b < 1000 →
    (shardPaths path = shardNames base b ↔ ∃ a, 1 ≤ a ∧ a ≤ b ∧ path = base ++ shardSuffix a b)
  place : ∀ a b, IsShard path a b → (shardPaths path)[a - 1]? = some path
  alone : (∀ a b, ¬IsShard path a b) → shardPaths path = [path]

theorem isPrefixOf_split {front text : List Char} (found : front.isPrefixOf text = true) :
    text = front ++ text.drop front.length :=
  List.prefix_iff_eq_append.mp (List.isPrefixOf_iff_prefix.mp found) |>.symm

theorem scanShard_iff {tail : List Char} {a b : Int} :
    scanShard tail = some (a, b) ↔ ∃ text text' rest, tail = "-".toList ++ text ∧
      IntField 5 text a ("-of-".toList ++ text') ∧ IntField 5 text' b rest := by
  constructor
  · intro scanned
    simp only [scanShard] at scanned
    split at scanned
    · rename_i dash
      obtain ⟨⟨a', rest⟩, first, scanned⟩ := Option.bind_eq_some_iff.mp scanned
      dsimp only at scanned
      split at scanned
      · rename_i of
        obtain ⟨⟨b', rest'⟩, second, pair⟩ := Option.map_eq_some_iff.mp scanned
        obtain ⟨rfl, rfl⟩ := Prod.mk_inj.mp pair
        refine ⟨tail.drop 1, rest.drop 4, rest', isPrefixOf_split dash, ?_, scanInt_iff.mp second⟩
        have split : rest = "-of-".toList ++ rest.drop 4 := isPrefixOf_split of
        rw [← split]
        exact scanInt_iff.mp first
      · exact absurd scanned (by simp)
    · exact absurd scanned (by simp)
  · rintro ⟨text, text', rest, rfl, first, second⟩
    have dash : ("-".toList ++ text).drop 1 = text := rfl
    have of : ("-of-".toList ++ text').drop 4 = text' := rfl
    simp only [scanShard]
    rw [if_pos (List.isPrefixOf_iff_prefix.mpr (List.prefix_append _ _)), dash,
      scanInt_iff.mpr first, Option.bind_some]
    dsimp only
    rw [if_pos (List.isPrefixOf_iff_prefix.mpr (List.prefix_append _ _)), of,
      scanInt_iff.mpr second, Option.map_some]

theorem shardPaths_reads {path : Name} {a b : Int} (reads : ReadsAsShard path a b) :
    shardPaths path = shardNames (path.take (path.length - 20)) b.toNat := by
  obtain ⟨long, low, le, high, form⟩ := reads
  have given : path ≠ [] := by
    rintro rfl
    exact absurd long (by simp)
  have valid : 1 ≤ a ∧ 1 ≤ b ∧ a ≤ b ∧ b < 1000 := by omega
  rw [shardPaths, if_neg given, if_pos long, scanShard_iff.mpr form]
  exact if_pos valid

theorem shardPaths_alone {path : Name} (given : path ≠ [])
    (other : ∀ a b, ¬ReadsAsShard path a b) : shardPaths path = [path] := by
  rw [shardPaths, if_neg given]
  by_cases long : 20 < path.length
  · rw [if_pos long]
    cases scanned : scanShard (path.drop (path.length - 20)) with
    | none => rfl
    | some ab =>
        obtain ⟨a, b⟩ := ab
        refine if_neg fun valid => other a b ?_
        exact ⟨long, valid.1, valid.2.2.1, valid.2.2.2, scanShard_iff.mp scanned⟩
  · rw [if_neg long]

theorem digitChar_isDigit : ∀ d < 10, (Nat.digitChar d).isDigit = true := by decide

theorem digitChar_toNat : ∀ d < 10, (Nat.digitChar d).toNat = 48 + d := by decide

theorem decimal_fiveDigits {n : Nat} (small : n < 100000) : decimal (fiveDigits n) = n := by
  have digit (k : Nat) : (Nat.digitChar (k % 10)).toNat = 48 + k % 10 :=
    digitChar_toNat _ (Nat.mod_lt _ (by decide))
  simp only [decimal, fiveDigits, List.map_cons, List.map_nil, List.foldl_cons, List.foldl_nil,
    digit]
  omega

theorem fiveDigits_isDigit {n : Nat} : ∀ c ∈ fiveDigits n, c.isDigit = true := by
  intro c member
  obtain ⟨d, listed, rfl⟩ := List.mem_map.mp member
  refine digitChar_isDigit d ?_
  simp only [List.mem_cons, List.not_mem_nil, or_false] at listed
  omega

theorem fiveDigits_field {n : Nat} (small : n < 100000) (rest : List Char) :
    IntField 5 (fiveDigits n ++ rest) n rest :=
  ⟨[], [], fiveDigits n, rfl, by simp, Or.inl rfl, by simp [fiveDigits], fiveDigits_isDigit,
    le_refl 5, Or.inl rfl, by rw [decimal_fiveDigits small]; rfl⟩

@[simp] theorem shardSuffix_length (i b : Nat) : (shardSuffix i b).length = 20 := rfl

theorem base_split {base : Name} {i b : Nat} :
    (base ++ shardSuffix i b).take ((base ++ shardSuffix i b).length - 20) = base ∧
      (base ++ shardSuffix i b).drop ((base ++ shardSuffix i b).length - 20) = shardSuffix i b := by
  rw [List.length_append, shardSuffix_length, Nat.add_sub_cancel]
  exact ⟨List.take_left, List.drop_left⟩

theorem IsShard.reads {path : Name} {a b : Nat} (shard : IsShard path a b) :
    ReadsAsShard path a b := by
  obtain ⟨low, le, high, base, some, rfl⟩ := shard
  have positive := List.length_pos_of_ne_nil some
  refine ⟨by rw [List.length_append, shardSuffix_length]; omega, by omega, by omega, by omega,
    fiveDigits a ++ ("-of-".toList ++ (fiveDigits b ++ ".gguf".toList)),
    fiveDigits b ++ ".gguf".toList, ".gguf".toList, ?_, fiveDigits_field (by omega) _,
    fiveDigits_field (by omega) _⟩
  rw [base_split.2]
  simp only [shardSuffix, List.append_assoc]

@[simp] theorem shardNames_length {base : Name} {b : Nat} : (shardNames base b).length = b := by
  rw [shardNames, List.length_map, List.length_range]

theorem shardNames_get {base : Name} {b i : Nat} (lt : i < b) :
    (shardNames base b)[i]? = some (base ++ shardSuffix (i + 1) b) := by
  rw [shardNames, List.getElem?_map, List.getElem?_range lt, Option.map_some]

theorem shardPaths_shard {base : Name} {a b : Nat} (some : base ≠ []) (low : 1 ≤ a) (le : a ≤ b)
    (high : b < 1000) : shardPaths (base ++ shardSuffix a b) = shardNames base b := by
  rw [shardPaths_reads (IsShard.reads ⟨low, le, high, base, some, rfl⟩), base_split.1,
    Int.toNat_natCast]

theorem shardNames_inj {base base' : Name} {b b' : Nat} (positive : 1 ≤ b)
    (same : shardNames base b = shardNames base' b') : base = base' ∧ b = b' := by
  have count := congrArg List.length same
  rw [shardNames_length, shardNames_length] at count
  subst count
  have first := congrArg (fun names => names[0]?) same
  simp only [shardNames_get positive, Option.some_inj] at first
  exact ⟨List.append_cancel_right first, rfl⟩

theorem shardNames_single {base path : Name} {b : Nat} (same : shardNames base b = [path]) :
    b = 1 ∧ path = base ++ shardSuffix 1 b := by
  have count := congrArg List.length same
  rw [shardNames_length] at count
  subst count
  exact ⟨rfl, (List.singleton_inj.mp same).symm⟩

/-- Recognition is exact just where the pattern reads nothing but shards. -/
theorem recognisesShards_iff (path : Name) (given : path ≠ []) :
    RecognisesShards path ↔ ((∃ a b, ReadsAsShard path a b) → ∃ a b, IsShard path a b) := by
  constructor
  · rintro recognised ⟨a, b, reads⟩
    by_contra other
    push Not at other
    have alone := recognised.alone other
    rw [shardPaths_reads reads] at alone
    obtain ⟨one, form⟩ := shardNames_single alone
    obtain ⟨long, -⟩ := reads
    have some : path.take (path.length - 20) ≠ [] := by
      apply List.ne_nil_of_length_pos
      rw [List.length_take]
      omega
    rw [one] at form
    exact other 1 1 ⟨le_refl 1, le_refl 1, by decide, _, some, form⟩
  · intro only
    refine ⟨fun base b some positive high => ⟨fun same => ?_, ?_⟩, ?_, ?_⟩
    · by_cases reads : ∃ a b, ReadsAsShard path a b
      · obtain ⟨a, b', low, le, high', base', some', rfl⟩ := only reads
        rw [shardPaths_shard some' low le high'] at same
        obtain ⟨rfl, rfl⟩ := shardNames_inj (le_trans low le) same
        exact ⟨a, low, le, rfl⟩
      · push Not at reads
        rw [shardPaths_alone given reads] at same
        obtain ⟨rfl, form⟩ := shardNames_single same.symm
        exact ⟨1, le_refl 1, le_refl 1, form⟩
    · rintro ⟨a, low, le, rfl⟩
      exact shardPaths_shard some low le high
    · rintro a b ⟨low, le, high, base, some, rfl⟩
      rw [shardPaths_shard some low le high, shardNames_get (by omega)]
      congr
      omega
    · intro other
      refine shardPaths_alone given fun a b reads => ?_
      obtain ⟨a', b', shard⟩ := only ⟨a, b, reads⟩
      exact other a' b' shard

theorem recognisesShards_second : RecognisesShards "/models/m-00002-of-00003.gguf".toList :=
  (recognisesShards_iff "/models/m-00002-of-00003.gguf".toList (by decide)).mpr fun _ =>
    ⟨2, 3, by decide, by decide, by decide, "/models/m".toList, by decide, by decide⟩

/-- An extension in capitals is taken for that of a shard. -/
theorem capitals_recognised : ¬RecognisesShards "/models/m-00001-of-00002.GGUF".toList := by
  intro recognised
  have alone := recognised.alone fun a b shard => ?_
  · exact absurd alone (by decide)
  · obtain ⟨-, -, -, base, -, form⟩ := shard
    have last := congrArg List.getLast? form
    simp [shardSuffix, fiveDigits] at last

end MoeStream
