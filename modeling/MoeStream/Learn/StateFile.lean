import MoeStream.Foundation.Lines
import MoeStream.Learn.Tables

/-!
# The state files

Embedding of `state_put` down to the characters of the file: how its rows are
read back, what the calls of `fputs` and `fclose` leave in the temporary file, and
the rename.  Rows and keys are those of `learned_frac_store` and `ubatch_store`,
with their numbers printed.  A file that is not there reads as an empty one.
-/

set_option autoImplicit false

namespace MoeStream

open Foundation.Lines

/-! ## `state_put` -/

/-- `fgets` with room for so many characters. -/
def fgets : Nat → Name → Name × Name
  | 0, text => ([], text)
  | _ + 1, [] => ([], [])
  | room + 1, c :: text =>
      if c = '\n' then ([c], text) else (c :: (fgets room text).1, (fgets room text).2)

/-- The loop over `char line[1024]`; every turn takes a character, so the length of the
file is turns enough. -/
def readLines : Nat → Name → List Name
  | 0, _ => []
  | turns + 1, text =>
      if (fgets 1023 text).1 = [] then []
      else (fgets 1023 text).1 :: readLines turns (fgets 1023 text).2

def stateLines (file : Name) : List Name := readLines file.length file

/-- `keep`. -/
def keptLines (file key : Name) : List Name :=
  (stateLines file).filter fun line => !key.isPrefixOf line

/-- How the calls of one `state_put` end. -/
structure PutOutcome where
  /-- `fopen` of the temporary file. -/
  opened : Bool
  /-- The characters the stream takes in the `i`-th `fputs`. -/
  accepted : Nat → Nat
  /-- The characters of the stream that are in the file after `fclose`. -/
  flushed : Nat
  renamed : Bool

/-- What the stream has taken, from the `i`-th `fputs` on. -/
def inStream (accepted : Nat → Nat) : Nat → List Name → Name
  | _, [] => []
  | i, text :: texts => text.take (accepted i) ++ inStream accepted (i + 1) texts

/-- `state_put`: the visible file afterwards. -/
def statePutFile (file key row : Name) (o : PutOutcome) : Name :=
  if o.opened then
    if o.renamed then (inStream o.accepted 0 (keptLines file key ++ [row])).take o.flushed
    else file
  else file

/-- The part of each text that is in the temporary file, where `room` characters of the
stream are. -/
def landed (accepted : Nat → Nat) : Nat → Nat → List Name → List Name
  | _, _, [] => []
  | i, room, text :: texts =>
      (text.take (accepted i)).take room ::
        landed accepted (i + 1) (room - (text.take (accepted i)).length) texts

theorem inStream_take (accepted : Nat → Nat) (i room : Nat) (texts : List Name) :
    (inStream accepted i texts).take room = (landed accepted i room texts).flatten := by
  induction texts generalizing i room with
  | nil => exact List.take_nil
  | cons text texts ih => rw [inStream, landed, List.take_append, List.flatten_cons, ih]

theorem landed_inParts (accepted : Nat → Nat) (i room : Nat) (texts : List Name) :
    InParts (landed accepted i room texts) texts := by
  induction texts generalizing i room with
  | nil => exact List.Forall₂.nil
  | cons text texts ih =>
      refine List.Forall₂.cons ?_ (ih _ _)
      rw [List.take_take]
      exact ⟨_, List.take_append_drop _ _⟩

def PutOutcome.left (o : PutOutcome) (file key row : Name) : List Name :=
  landed o.accepted 0 o.flushed (keptLines file key ++ [row])

theorem statePutFile_renamed {file key row : Name} {o : PutOutcome} (opened : o.opened = true)
    (renamed : o.renamed = true) :
    statePutFile file key row o = (o.left file key row).flatten := by
  rw [statePutFile, if_pos opened, if_pos renamed, inStream_take]
  rfl

/-! ## Rows -/

abbrev Column := { text : Name // '\t' ∉ text ∧ '\n' ∉ text }

def keyText (columns : List Column) : Name := (columns.map fun column => column.1 ++ ['\t']).flatten

/-- A row of a file keyed by `n` columns; the buffer of a row, and of a line
that is read, holds 1023 characters. -/
structure StateRow (n : Nat) where
  columns : List Column
  value : Name
  arity : columns.length = n
  oneLine : '\n' ∉ value
  fits : (keyText columns ++ value).length < 1023

variable {n : Nat}

def StateRow.key (row : StateRow n) : Name := keyText row.columns

def StateRow.text (row : StateRow n) : Name := row.key ++ (row.value ++ ['\n'])

theorem Column.joined (a b : Column) : '\n' ∉ a.1 ++ '\t' :: b.1 := by
  simp [a.2.2, b.2.2]

/-- The row of `learned_frac_store`, with the columns as they are printed. -/
def learnedFracRow (model frac geometry : Column)
    (fits : (keyText [model] ++ (frac.1 ++ '\t' :: geometry.1)).length < 1023) : StateRow 1 :=
  ⟨[model], frac.1 ++ '\t' :: geometry.1, rfl, frac.joined geometry, fits⟩

def fileOf (rows : List (StateRow n)) : Name := (rows.map StateRow.text).flatten

theorem not_mem_keyText (columns : List Column) : '\n' ∉ keyText columns := by
  intro member
  obtain ⟨text, listed, inside⟩ := List.mem_flatten.mp member
  obtain ⟨column, -, rfl⟩ := List.mem_map.mp listed
  rcases List.mem_append.mp inside with own | tab
  · exact column.2.2 own
  · exact absurd (List.mem_singleton.mp tab) (by decide)

theorem StateRow.terminated (row : StateRow n) : Terminated '\n' row.text := by
  refine ⟨row.key ++ row.value, fun member => ?_, (List.append_assoc _ _ _).symm⟩
  exact (List.mem_append.mp member).elim (not_mem_keyText row.columns) row.oneLine

theorem StateRow.length_text (row : StateRow n) : row.text.length ≤ 1023 := by
  have fits := row.fits
  simp only [List.length_append] at fits
  simp only [text, key, List.length_append, List.length_singleton]
  omega

/-- A row begins with the key of the rows with its columns and of no other. -/
theorem StateRow.key_prefix_iff (row row' : StateRow n) :
    row.key <+: row'.text ↔ row.columns = row'.columns := by
  constructor
  · intro front
    have ended (columns : List Column) :
        ∀ l ∈ columns.map fun column => column.1 ++ ['\t'], Terminated '\t' l := by
      intro l member
      obtain ⟨column, -, rfl⟩ := List.mem_map.mp member
      exact ⟨column.1, column.2.1, rfl⟩
    have same := flatten_front (ended row.columns) (ended row'.columns)
      (by rw [List.length_map, List.length_map, row.arity, row'.arity]) front
    refine List.map_injective_iff.mpr (fun a b equal => ?_) same
    exact Subtype.ext (List.append_cancel_right equal)
  · intro same
    rw [text, key, key, same]
    exact List.prefix_append _ _

/-! ## Reading back -/

theorem fgets_line {line rest : Name} {room : Nat} (ended : Terminated '\n' line)
    (fits : line.length ≤ room) : fgets room (line ++ rest) = (line, rest) := by
  obtain ⟨body, clean, rfl⟩ := ended
  induction body generalizing room with
  | nil =>
      cases room with
      | zero => simp at fits
      | succ room => rfl
  | cons c body ih =>
      cases room with
      | zero => simp at fits
      | succ room =>
          have other : c ≠ '\n' := fun same => clean (same ▸ List.mem_cons_self)
          have next := ih (fun member => clean (List.mem_cons_of_mem _ member))
            (Nat.le_of_succ_le_succ fits)
          simp only [List.cons_append, fgets, if_neg other, next]

theorem readLines_flatten {lines : List Name} {turns : Nat}
    (ended : ∀ l ∈ lines, Terminated '\n' l) (fit : ∀ l ∈ lines, l.length ≤ 1023)
    (enough : lines.flatten.length ≤ turns) : readLines turns lines.flatten = lines := by
  induction lines generalizing turns with
  | nil =>
      cases turns with
      | zero => rfl
      | succ turns => rfl
  | cons l lines ih =>
      have own := ended l List.mem_cons_self
      have some := List.length_pos_of_ne_nil own.ne_nil
      rw [List.flatten_cons, List.length_append] at enough
      cases turns with
      | zero => omega
      | succ turns =>
          rw [List.flatten_cons, readLines, fgets_line own (fit l List.mem_cons_self),
            if_neg own.ne_nil, ih (fun k member => ended k (List.mem_cons_of_mem _ member))
              (fun k member => fit k (List.mem_cons_of_mem _ member)) (by omega)]

theorem texts_terminated (rows : List (StateRow n)) :
    ∀ l ∈ rows.map StateRow.text, Terminated '\n' l := by
  intro l member
  obtain ⟨row, -, rfl⟩ := List.mem_map.mp member
  exact row.terminated

@[simp] theorem stateLines_fileOf (rows : List (StateRow n)) :
    stateLines (fileOf rows) = rows.map StateRow.text := by
  refine readLines_flatten (texts_terminated rows) (fun l member => ?_) (Nat.le_refl _)
  obtain ⟨row, -, rfl⟩ := List.mem_map.mp member
  exact row.length_text

def others (rows : List (StateRow n)) (row : StateRow n) : List (StateRow n) :=
  rows.filter fun old => !decide (old.columns = row.columns)

theorem keptLines_fileOf (rows : List (StateRow n)) (row : StateRow n) :
    keptLines (fileOf rows) row.key = (others rows row).map StateRow.text := by
  rw [keptLines, stateLines_fileOf, List.filter_map, others]
  congr 1
  refine List.filter_congr fun old _ => ?_
  rw [Function.comp_apply]
  congr 1
  rw [Bool.eq_iff_iff, List.isPrefixOf_iff_prefix, decide_eq_true_eq, row.key_prefix_iff]
  exact eq_comm

/-! ## One update -/

/-- The visible file is what it was, or the old rows of other keys and the new one. -/
def PutsWhole (rows : List (StateRow n)) (row : StateRow n) (o : PutOutcome) : Prop :=
  statePutFile (fileOf rows) row.key row.text o = fileOf rows ∨
    statePutFile (fileOf rows) row.key row.text o =
      ((rows.map StateRow.text).filter fun line => !row.key.isPrefixOf line).flatten ++ row.text

def PutOutcome.Complete (o : PutOutcome) (file key row : Name) : Prop :=
  o.left file key row = keptLines file key ++ [row]

/-- No row has the key, and what is left of the rows spells the old file: only the new row
is missing, or it is the end of the last old row, of which just the rest was written. -/
def PutOutcome.Respells (o : PutOutcome) (file key row : Name) : Prop :=
  keptLines file key = stateLines file ∧
    (o.left file key row = stateLines file ++ [[]] ∨
      ∃ front part, stateLines file = front ++ [part ++ row] ∧
        o.left file key row = front ++ [part, row])

def PutOutcome.Harmless (o : PutOutcome) (file key row : Name) : Prop :=
  o.opened = false ∨ o.renamed = false ∨ o.Complete file key row ∨ o.Respells file key row

def newRows (rows : List (StateRow n)) (row : StateRow n) : List (StateRow n) :=
  statePut (fun old => decide (old.columns = row.columns)) row rows

theorem fileOf_newRows (rows : List (StateRow n)) (row : StateRow n) :
    fileOf (newRows rows row) = (keptLines (fileOf rows) row.key ++ [row.text]).flatten := by
  rw [keptLines_fileOf, fileOf, newRows, statePut, List.map_append, List.map_singleton, others]

theorem fileOf_newRows' (rows : List (StateRow n)) (row : StateRow n) :
    fileOf (newRows rows row) =
      ((rows.map StateRow.text).filter fun line => !row.key.isPrefixOf line).flatten ++
        row.text := by
  rw [fileOf_newRows, keptLines, stateLines_fileOf, List.flatten_append, List.flatten_singleton]

theorem statePutFile_kept {file key row : Name} {o : PutOutcome}
    (kept : o.opened = false ∨ o.renamed = false) : statePutFile file key row o = file := by
  simp only [statePutFile]
  rcases kept with closed | stays
  · rw [if_neg (by simp [closed])]
  · rw [if_neg (Bool.eq_false_iff.mp stays), ite_self]

theorem statePutFile_complete {rows : List (StateRow n)} {row : StateRow n} {o : PutOutcome}
    (opened : o.opened = true) (renamed : o.renamed = true)
    (complete : o.Complete (fileOf rows) row.key row.text) :
    statePutFile (fileOf rows) row.key row.text o = fileOf (newRows rows row) := by
  rw [statePutFile_renamed opened renamed, complete, fileOf_newRows]

theorem statePutFile_respells {rows : List (StateRow n)} {row : StateRow n} {o : PutOutcome}
    (opened : o.opened = true) (renamed : o.renamed = true)
    (respells : o.Respells (fileOf rows) row.key row.text) :
    statePutFile (fileOf rows) row.key row.text o = fileOf rows := by
  have file : fileOf rows = (stateLines (fileOf rows)).flatten := by
    rw [stateLines_fileOf, fileOf]
  rw [statePutFile_renamed opened renamed]
  obtain ⟨-, left | ⟨front, part, last, left⟩⟩ := respells
  · rw [left, List.flatten_append, ← file]
    simp
  · rw [left, file, last]
    simp

theorem keptLines_terminated (rows : List (StateRow n)) (row : StateRow n) :
    ∀ l ∈ keptLines (fileOf rows) row.key ++ [row.text], Terminated '\n' l := by
  intro l member
  rw [keptLines_fileOf] at member
  rcases List.mem_append.mp member with old | new
  · exact texts_terminated _ l old
  · exact List.mem_singleton.mp new ▸ row.terminated

theorem not_mem_keptLines (file : Name) (row : StateRow n) :
    row.text ∉ keptLines file row.key := by
  intro member
  have other := (List.mem_filter.mp member).2
  rw [Bool.not_eq_true', ← Bool.not_eq_true, List.isPrefixOf_iff_prefix,
    row.key_prefix_iff] at other
  exact other rfl

/-- One update leaves a whole file exactly when its outcome does no harm. -/
theorem putsWhole_iff (rows : List (StateRow n)) (row : StateRow n) (o : PutOutcome) :
    PutsWhole rows row o ↔ o.Harmless (fileOf rows) row.key row.text := by
  rw [PutsWhole, ← fileOf_newRows']
  by_cases kept : o.opened = false ∨ o.renamed = false
  · exact iff_of_true (Or.inl (statePutFile_kept kept)) (kept.imp_right Or.inl)
  · obtain ⟨opened, renamed⟩ := not_or.mp kept
    rw [Bool.not_eq_false] at opened renamed
    constructor
    · intro whole
      have written : InParts (o.left (fileOf rows) row.key row.text)
        (keptLines (fileOf rows) row.key ++ [row.text]) := landed_inParts _ _ _ _
      have ended := keptLines_terminated rows row
      rw [statePutFile_renamed opened renamed] at whole
      refine Or.inr (Or.inr ?_)
      rcases whole with same | new
      · have old : ∀ l ∈ stateLines (fileOf rows), Terminated '\n' l := by
          rw [stateLines_fileOf]
          exact texts_terminated rows
        refine rewritten_same old row.terminated List.filter_sublist
          (not_mem_keptLines _ row) written ?_
        rw [same, stateLines_fileOf, fileOf]
      · refine Or.inl ((count_parts ended written).2 ?_)
        rw [new, fileOf_newRows, count_flatten ended]
    · rintro (closed | stays | complete | respells)
      · exact absurd (Or.inl closed) kept
      · exact absurd (Or.inr stays) kept
      · exact Or.inr (statePutFile_complete opened renamed complete)
      · exact Or.inl (statePutFile_respells opened renamed respells)

/-! ## Runs -/

/-- A call of `state_put`. -/
structure Store (n : Nat) where
  row : StateRow n
  outcome : PutOutcome

def Store.Succeeds (s : Store n) (file : Name) : Prop :=
  s.outcome.opened = true ∧ s.outcome.renamed = true ∧
    s.outcome.Complete file s.row.key s.row.text

instance (s : Store n) (file : Name) : Decidable (s.Succeeds file) := by
  unfold Store.Succeeds PutOutcome.Complete
  infer_instance

def storeStep (state : Name × List (StateRow n)) (s : Store n) : Name × List (StateRow n) :=
  (statePutFile state.1 s.row.key s.row.text s.outcome,
    if s.Succeeds state.1 then state.2 ++ [s.row] else state.2)

def afterStores (stores : List (Store n)) : Name × List (StateRow n) :=
  stores.foldl storeStep ([], [])

def Latest (history : List (StateRow n)) (row : StateRow n) : Prop :=
  (history.filter fun r => decide (r.columns = row.columns)).getLast? = some row

def HoldsLatest (state : Name × List (StateRow n)) : Prop :=
  ∃ rows : List (StateRow n), state.1 = fileOf rows ∧ (rows.map StateRow.columns).Nodup ∧
    ∀ row, row ∈ rows ↔ Latest state.2 row

theorem latest_append (history : List (StateRow n)) (new row : StateRow n) :
    Latest (history ++ [new]) row ↔
      row = new ∨ (row.columns ≠ new.columns ∧ Latest history row) := by
  simp only [Latest]
  rw [List.filter_append, List.filter_singleton]
  by_cases same : new.columns = row.columns
  · rw [decide_eq_true same]
    simp [same, eq_comm]
  · rw [decide_eq_false same]
    have apart : row ≠ new := fun equal => same (by rw [equal])
    simp [apart, Ne.symm same]

theorem mem_newRows {rows : List (StateRow n)} {new row : StateRow n} :
    row ∈ newRows rows new ↔ row = new ∨ (row.columns ≠ new.columns ∧ row ∈ rows) := by
  simp [newRows, statePut, and_comm, or_comm]

theorem newRows_nodup {rows : List (StateRow n)} (row : StateRow n)
    (once : (rows.map StateRow.columns).Nodup) :
    ((newRows rows row).map StateRow.columns).Nodup := by
  rw [newRows, statePut, List.map_append, List.map_singleton]
  refine List.Nodup.append (once.sublist (List.filter_sublist.map _)) (List.nodup_singleton _) ?_
  intro columns old new
  obtain ⟨r, listed, rfl⟩ := List.mem_map.mp old
  have kept := (List.mem_filter.mp listed).2
  simp [List.mem_singleton.mp new] at kept

theorem HoldsLatest.step {state : Name × List (StateRow n)} {s : Store n}
    (holds : HoldsLatest state)
    (harmless : s.outcome.Harmless state.1 s.row.key s.row.text) :
    HoldsLatest (storeStep state s) := by
  obtain ⟨file, history⟩ := state
  obtain ⟨rows, rfl, once, latest⟩ := holds
  rw [storeStep]
  by_cases succeeds : s.Succeeds (fileOf rows)
  · rw [if_pos succeeds, statePutFile_complete succeeds.1 succeeds.2.1 succeeds.2.2]
    refine ⟨newRows rows s.row, rfl, newRows_nodup s.row once, fun row => ?_⟩
    rw [mem_newRows, latest_append, latest row]
  · rw [if_neg succeeds]
    refine ⟨rows, ?_, once, latest⟩
    by_cases kept : s.outcome.opened = false ∨ s.outcome.renamed = false
    · exact statePutFile_kept kept
    · obtain ⟨opened, renamed⟩ := not_or.mp kept
      rw [Bool.not_eq_false] at opened renamed
      rcases harmless with closed | stays | complete | respells
      · exact absurd (Or.inl closed) kept
      · exact absurd (Or.inr stays) kept
      · exact absurd ⟨opened, renamed, complete⟩ succeeds
      · exact statePutFile_respells opened renamed respells

def Spared (stores : List (Store n)) : Prop :=
  ∀ before s after, stores = before ++ s :: after →
    s.outcome.Harmless (afterStores before).1 s.row.key s.row.text

theorem holdsLatest_run (stores : List (Store n)) (spared : Spared stores) :
    HoldsLatest (afterStores stores) := by
  induction stores using List.reverseRecOn with
  | nil => exact ⟨[], rfl, List.nodup_nil, fun row => by simp [Latest, afterStores]⟩
  | append_singleton stores s ih =>
      have earlier : Spared stores := fun before s' after split =>
        spared before s' (after ++ [s]) (by rw [split, List.append_assoc, List.cons_append])
      rw [afterStores, List.foldl_append]
      exact (ih earlier).step (spared stores s [] rfl)

/-- An update keeps the file whole exactly when its outcome does no harm, and in a run of
such updates the file holds the latest row of each key that was stored. -/
theorem statePut_whole (n : Nat) :
    (∀ (rows : List (StateRow n)) (row : StateRow n) (o : PutOutcome),
        PutsWhole rows row o ↔ o.Harmless (fileOf rows) row.key row.text) ∧
      ∀ stores : List (Store n), Spared stores → HoldsLatest (afterStores stores) :=
  ⟨putsWhole_iff, holdsLatest_run⟩

/-- A full disk: the first row does not get into the stream, the rename succeeds. -/
def fullDisk : PutOutcome := ⟨true, fun i => 1000 * i, 1000, true⟩

/-- The row of another model is lost. -/
theorem fullDisk_loses :
    ¬PutsWhole
      [learnedFracRow ⟨"m".toList, by decide⟩ ⟨"0.50".toList, by decide⟩
        ⟨"8:64".toList, by decide⟩ (by decide)]
      (learnedFracRow ⟨"k".toList, by decide⟩ ⟨"0.50".toList, by decide⟩
        ⟨"8:64".toList, by decide⟩ (by decide)) fullDisk := by
  simp only [PutsWhole]
  decide

end MoeStream
