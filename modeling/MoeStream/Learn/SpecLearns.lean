import MoeStream.Learn.Speculation

/-!
# The search for the number of drafted tokens

The file of a run of starts is the last row of each key, printed.  From that: what
a start takes, that the search ends, and that starts of other models and
configurations do not disturb it.
-/

set_option autoImplicit false

namespace MoeStream

open Foundation.TryEach

variable {Rate : Type} [LinearOrder Rate] [Zero Rate] {awk : Awk Rate} {names : Set Name}
  {rows : List SpecRow} {row : SpecRow}

/-! ## The rows of a history -/

def specRows (history : List SpecRow) : List SpecRow :=
  history.foldl (fun rows row => statePut (fun old => decide (old.key = row.key)) row rows) []

variable {history : List SpecRow}

@[simp] theorem specRows_append (history : List SpecRow) (row : SpecRow) :
    specRows (history ++ [row]) = otherKeys (specRows history) row ++ [row] := by
  rw [specRows, List.foldl_append]
  rfl

theorem mem_specRows_append {new : SpecRow} :
    row ∈ specRows (history ++ [new]) ↔
      row = new ∨ row.key ≠ new.key ∧ row ∈ specRows history := by
  rw [specRows_append, otherKeys]
  simp [and_comm, or_comm]

def SpecRow.Last (history : List SpecRow) (row : SpecRow) : Prop :=
  ∃ earlier later, history = earlier ++ row :: later ∧ ∀ other ∈ later, other.key ≠ row.key

theorem mem_specRows : row ∈ specRows history ↔ row.Last history := by
  induction history using List.reverseRecOn with
  | nil =>
      refine iff_of_false List.not_mem_nil ?_
      rintro ⟨earlier, later, split, -⟩
      simp at split
  | append_singleton history new ih =>
      rw [mem_specRows_append, ih]
      constructor
      · rintro (rfl | ⟨apart, earlier, later, rfl, last⟩)
        · exact ⟨history, [], rfl, nofun⟩
        · refine ⟨earlier, later ++ [new], by simp, fun other member => ?_⟩
          rcases List.mem_append.mp member with old | added
          · exact last other old
          · rw [List.mem_singleton.mp added]
            exact apart.symm
      · rintro ⟨earlier, later, split, last⟩
        rcases List.eq_nil_or_concat later with rfl | ⟨later, other, rfl⟩
        · exact Or.inl (List.append_inj_right' split rfl |> List.singleton_inj.mp).symm
        · rw [List.concat_eq_append, ← List.cons_append, ← List.append_assoc] at split
          obtain ⟨rfl, same⟩ := List.append_inj' split rfl
          rw [List.singleton_inj.mp same]
          refine Or.inr ⟨(last other (by simp)).symm, earlier, later, rfl, fun row member => ?_⟩
          exact last row (by simp [member])

theorem specRows_nodup (history : List SpecRow) :
    ((specRows history).map SpecRow.key).Nodup := by
  induction history using List.reverseRecOn with
  | nil => exact List.nodup_nil
  | append_singleton history row ih =>
      rw [specRows_append, List.map_append, otherKeys]
      refine List.Nodup.append (ih.sublist (List.filter_sublist.map _)) (List.nodup_singleton _) ?_
      intro key old new
      obtain ⟨other, kept, rfl⟩ := List.mem_map.mp old
      have apart := (List.mem_filter.mp kept).2
      simp [List.mem_singleton.mp new] at apart

@[simp] theorem ownRows_append (rows later : List SpecRow) (m k : Name) :
    ownRows (rows ++ later) m k = ownRows rows m k ++ ownRows later m k :=
  List.filter_append _ _

theorem otherKeys_own (rows : List SpecRow) (m k : Name) (row : SpecRow) :
    ownRows (otherKeys rows row) m k = otherKeys (ownRows rows m k) row := by
  rw [ownRows, otherKeys, otherKeys, ownRows, List.filter_filter, List.filter_filter]
  exact List.filter_congr fun other _ => Bool.and_comm _ _

theorem specRows_own (history : List SpecRow) (m k : Name) :
    ownRows (specRows history) m k = specRows (ownRows history m k) := by
  induction history using List.reverseRecOn with
  | nil => rfl
  | append_singleton history row ih =>
      rw [specRows_append, ownRows_append, otherKeys_own, ih, ownRows_append]
      by_cases own : row.model = m ∧ row.config = k
      · have single : ownRows [row] m k = [row] := by simp [ownRows, own]
        rw [single, specRows_append]
      · have none : ownRows [row] m k = [] := by simp [ownRows, own]
        rw [none, List.append_nil, List.append_nil, otherKeys, List.filter_eq_self]
        intro other member
        obtain ⟨earlier, later, split, -⟩ := mem_specRows.mp member
        have listed : other ∈ ownRows history m k := by simp [split]
        obtain ⟨-, rfl, rfl⟩ := mem_ownRows.mp listed
        rw [Bool.not_eq_true', decide_eq_false_iff_not]
        intro same
        simp only [SpecRow.key, Prod.mk.injEq] at same
        exact own ⟨same.1.symm, same.2.1.symm⟩

/-! ## One start -/

structure SpecStart.Within (names : Set Name) (s : SpecStart) : Prop where
  model : s.model.1 ∈ names
  config : s.settings.skey ∈ names
  candidates : ∀ c ∈ s.candidates, c.1 ∈ names

theorem orElse_clean {v : EnvText} {fallback : Name} (clean : '\t' ∉ fallback ∧ '\n' ∉ fallback) :
    '\t' ∉ orElse v fallback ∧ '\n' ∉ orElse v fallback := by
  rw [orElse]
  split
  · exact clean
  · exact ⟨v.2.1, v.2.2.1⟩

theorem SpecSettings.skey_clean (v : SpecSettings) : '\t' ∉ v.skey ∧ '\n' ∉ v.skey := by
  have na : '\t' ∉ "na".toList ∧ '\n' ∉ "na".toList := by decide
  have one : '\t' ∉ "1".toList ∧ '\n' ∉ "1".toList := by decide
  have cache := orElse_clean (v := v.cacheFrac) na
  have dense := orElse_clean (v := v.denseFrac) na
  have moestream := orElse_clean (v := v.moestream) one
  have parallel := orElse_clean (v := v.nParallel) one
  simp only [skey, concurrency, List.mem_append, List.mem_cons, cache, dense, moestream, parallel,
    Char.reduceEq, or_self, not_false_eq_true, and_self]

theorem alphanum_plain {text : Name} (letters : text.all Char.isAlphanum = true) :
    '\t' ∉ text ∧ '\n' ∉ text ∧ ∀ c ∈ text, isIfs c = false := by
  have each := List.all_eq_true.mp letters
  refine ⟨fun member => absurd (each _ member) (by decide),
    fun member => absurd (each _ member) (by decide), fun c member => ?_⟩
  have letter := each c member
  simp only [isIfs, Bool.or_eq_false_iff, decide_eq_false_iff_not]
  refine ⟨⟨?_, ?_⟩, ?_⟩ <;> rintro rfl <;> exact absurd letter (by decide)

/-- The file is the last row of each key, in the order they were written. -/
structure SpecKept (names : Set Name) (state : Name × List SpecRow) : Prop where
  file : state.1 = specText (specRows state.2)
  neat : ∀ row ∈ state.2, row.Neat names

namespace SpecKept

variable {state : Name × List SpecRow} {s t : SpecStart}

theorem rowsNeat (kept : SpecKept names state) : ∀ row ∈ specRows state.2, row.Neat names := by
  intro row member
  obtain ⟨earlier, later, split, -⟩ := mem_specRows.mp member
  exact kept.neat row (by simp [split])

theorem takes_specRule (kept : SpecKept names state) (tells : awk.Tells names)
    (within : s.Within names) :
    SpecRule awk (ownRows (specRows state.2) s.model.1 s.settings.skey)
      (s.candidates.map Subtype.val) (s.takes awk state.1) := by
  rw [SpecStart.takes, kept.file]
  refine Awk.selectSpec_rule tells kept.rowsNeat within.model within.config fun c member => ?_
  obtain ⟨word, listed, rfl⟩ := List.mem_map.mp member
  exact within.candidates word listed

/-- Only the records of its own model and configuration matter to a start. -/
theorem takes_own (kept : SpecKept names state) (tells : awk.Tells names)
    (within : s.Within names) :
    s.takes awk state.1 = awk.selectSpec
      (specText (specRows (ownRows state.2 s.model.1 s.settings.skey))) s.model.1
      s.settings.skey (s.candidates.map Subtype.val) := by
  rw [SpecStart.takes, kept.file, ← specRows_own]
  refine Awk.selectSpec_own tells kept.rowsNeat within.model within.config fun c member => ?_
  obtain ⟨word, listed, rfl⟩ := List.mem_map.mp member
  exact within.candidates word listed

theorem takes_cases (kept : SpecKept names state) (tells : awk.Tells names)
    (within : s.Within names) :
    (∃ word ∈ s.candidates, s.takes awk state.1 = word.1) ∨ s.takes awk state.1 = "off".toList ∨
      ∃ row ∈ specRows state.2, s.takes awk state.1 = row.n := by
  have rule := kept.takes_specRule tells within
  by_cases offered : ∃ c ∈ s.candidates.map Subtype.val,
      awk.found state.1 s.model.1 s.settings.skey c = false
  · obtain ⟨c, found⟩ : ∃ c, (s.candidates.map Subtype.val).find?
        (fun c => !awk.found state.1 s.model.1 s.settings.skey c) = some c := by
      rw [← Option.isSome_iff_exists, List.find?_isSome]
      obtain ⟨c, listed, fresh⟩ := offered
      exact ⟨c, listed, by simp [fresh]⟩
    have takes : s.takes awk state.1 = c := by rw [SpecStart.takes, Awk.selectSpec, found]
    obtain ⟨word, listed, rfl⟩ := List.mem_map.mp (List.mem_of_find?_eq_some found)
    exact Or.inl ⟨word, listed, takes⟩
  · have tried : ∀ c ∈ s.candidates.map Subtype.val,
        awk.found state.1 s.model.1 s.settings.skey c = true := by simpa using offered
    refine Or.inr ?_
    rw [SpecStart.takes]
    rcases Awk.leader_text tells kept.rowsNeat within.model within.config with
      ⟨unset, -⟩ | ⟨winner, own, -, leads, -⟩
    · exact Or.inl (Awk.selectSpec_unset tried (kept.file ▸ unset))
    · have listed := (mem_ownRows.mp own).1
      rw [Awk.selectSpec_row tried (kept.file ▸ leads) (kept.rowsNeat winner listed), Awk.spoken]
      split
      · exact Or.inr ⟨winner, listed, rfl⟩
      · exact Or.inl rfl

theorem row_neat (kept : SpecKept names state) (tells : awk.Tells names)
    (off : "off".toList ∈ names) (within : s.Within names) {new : SpecRow}
    (writes : s.row awk state.1 = some new) : new.Neat names := by
  rw [SpecStart.row] at writes
  split at writes
  · obtain ⟨rate, -, rfl⟩ := Option.map_eq_some_iff.mp writes
    obtain ⟨known, some, tabs, lines, word⟩ : s.takes awk state.1 ∈ names ∧
        s.takes awk state.1 ≠ [] ∧ '\t' ∉ s.takes awk state.1 ∧ '\n' ∉ s.takes awk state.1 ∧
          ∀ c ∈ s.takes awk state.1, isIfs c = false := by
      rcases kept.takes_cases tells within with ⟨word, listed, takes⟩ | takes | ⟨row, listed, takes⟩
      · rw [takes]
        exact ⟨within.candidates word listed, word.2.1, alphanum_plain word.2.2⟩
      · rw [takes]
        exact ⟨off, by decide, alphanum_plain (by decide)⟩
      · rw [takes]
        have neat := kept.rowsNeat row listed
        exact ⟨neat.known.2.2, neat.word.1, neat.tabs _ (by simp [SpecRow.fields]),
          neat.lines _ (by simp [SpecRow.fields]), neat.word.2⟩
    have key := s.settings.skey_clean
    exact {
      tabs := by simp [SpecRow.fields, s.model.2.1, key.1, tabs, rate.2.1]
      lines := by simp [SpecRow.fields, s.model.2.2.1, key.2, lines, rate.2.2.1]
      known := ⟨within.model, within.config, known⟩
      word := ⟨some, word⟩ }
  · cases writes

theorem step_history (state : Name × List SpecRow) (s : SpecStart) :
    (specStep awk state s).2 = state.2 ++
      if s.Records then [⟨s.model.1, s.settings.skey, s.takes awk state.1,
        (s.rate.map Subtype.val).getD []⟩] else [] := by
  rw [specStep, SpecStart.row]
  cases types : s.types with
  | false => simp [SpecStart.Records, types]
  | true =>
      cases rate : s.rate with
      | none => simp [SpecStart.Records, rate]
      | some rate' =>
          by_cases records : s.Records
          · simp [records]
          · simp [records]

theorem specStep_kept (kept : SpecKept names state) (tells : awk.Tells names)
    (off : "off".toList ∈ names) (within : s.Within names) (whole : s.Whole) :
    SpecKept names (specStep awk state s) := by
  cases writes : s.row awk state.1 with
  | none =>
      rw [specStep, writes]
      exact kept
  | some new =>
      have neat := kept.row_neat tells off within writes
      rw [specStep, writes]
      by_cases replaced : s.outcome.made = true ∧ s.outcome.moved = true
      · obtain ⟨made, moved⟩ := replaced
        have records : s.Records := by
          rw [SpecStart.row] at writes
          split at writes
          · rename_i types
            obtain ⟨rate, given, -⟩ := Option.map_eq_some_iff.mp writes
            exact ⟨types, by simp [given], made, moved⟩
          · cases writes
        obtain ⟨all, added⟩ := whole made moved
        refine ⟨?_, ?_⟩
        · simp only [if_pos records, specRows_append]
          rw [kept.file, recordSpec_text kept.rowsNeat neat all added made moved]
          rfl
        · intro row member
          simp only [if_pos records] at member
          rcases List.mem_append.mp member with old | added
          · exact kept.neat row old
          · exact List.mem_singleton.mp added ▸ neat
      · have silent : ¬s.Records := fun records => replaced records.2.2
        have stays : recordSpec state.1 new s.outcome = state.1 := by
          rw [recordSpec, if_neg (by simpa using replaced)]
        simp only [if_neg silent, stays]
        exact kept

end SpecKept

/-! ## Runs -/

def SpecSound (names : Set Name) (run : List SpecStart) : Prop :=
  ∀ s ∈ run, s.Within names ∧ s.Whole

variable {run : List SpecStart} {s t : SpecStart}

theorem afterSpec_append (awk : Awk Rate) (run : List SpecStart) (s : SpecStart) :
    afterSpec awk (run ++ [s]) = specStep awk (afterSpec awk run) s := List.foldl_append

theorem SpecSound.init (sound : SpecSound names (run ++ [s])) : SpecSound names run :=
  fun t member => sound t (List.mem_append_left _ member)

theorem SpecSound.last (sound : SpecSound names (run ++ [s])) : s.Within names ∧ s.Whole :=
  sound s (by simp)

theorem SpecSound.filter (sound : SpecSound names run) (keep : SpecStart → Bool) :
    SpecSound names (run.filter keep) :=
  fun t member => sound t (List.mem_filter.mp member).1

theorem SpecSound.kept (sound : SpecSound names run) (tells : awk.Tells names)
    (off : "off".toList ∈ names) : SpecKept names (afterSpec awk run) := by
  induction run using List.reverseRecOn with
  | nil => exact ⟨rfl, nofun⟩
  | append_singleton run s ih =>
      rw [afterSpec_append]
      exact (ih sound.init).specStep_kept tells off sound.last.1 sound.last.2

/-- What the starts with a model and a configuration record, they record without the
others too. -/
theorem SpecSound.history_alike (sound : SpecSound names run) (tells : awk.Tells names)
    (off : "off".toList ∈ names) (s : SpecStart) :
    ownRows (afterSpec awk run).2 s.model.1 s.settings.skey =
      (afterSpec awk (run.filter fun t => decide (s.Alike t))).2 := by
  induction run using List.reverseRecOn with
  | nil => rfl
  | append_singleton run t ih =>
      have own := ih sound.init
      have kept := sound.init.kept tells off
      rw [afterSpec_append, SpecKept.step_history, ownRows_append, own, List.filter_append]
      by_cases alike : s.Alike t
      · have single : [t].filter (fun t => decide (s.Alike t)) = [t] := by simp [alike]
        have kept' := (sound.init.filter fun t => decide (s.Alike t)).kept tells off
        have same : t.takes awk (afterSpec awk run).1 =
            t.takes awk (afterSpec awk (run.filter fun t => decide (s.Alike t))).1 := by
          rw [kept.takes_own tells sound.last.1, kept'.takes_own tells sound.last.1,
            alike.1, alike.2, own, ← own, ownRows_own]
        rw [single, afterSpec_append, SpecKept.step_history, same]
        congr 1
        split
        · simp [ownRows, alike.1, alike.2]
        · rfl
      · have none : [t].filter (fun t => decide (s.Alike t)) = [] := by simp [alike]
        have apart : ¬(t.model.1 = s.model.1 ∧ t.settings.skey = s.settings.skey) :=
          fun same => alike ⟨Subtype.ext same.1, same.2⟩
        rw [none, List.append_nil]
        split
        · simp [ownRows, apart]
        · simp [ownRows]

/-! ## Progress -/

def hasRow (history : List SpecRow) (s : SpecStart) (c : Word) : Bool :=
  (ownRows (specRows history) s.model.1 s.settings.skey).any fun row => decide (row.n = c.1)

theorem hasRow_iff {c : Word} :
    hasRow history s c = true ↔
      ∃ row ∈ ownRows (specRows history) s.model.1 s.settings.skey, row.n = c.1 := by
  rw [hasRow, List.any_eq_true]
  simp

theorem hasRow_append {c : Word} {new : SpecRow} (before : hasRow history s c = true) :
    hasRow (history ++ [new]) s c = true := by
  obtain ⟨row, own, n⟩ := hasRow_iff.mp before
  obtain ⟨listed, model, config⟩ := mem_ownRows.mp own
  by_cases same : row.key = new.key
  · obtain ⟨model', config', n'⟩ : row.model = new.model ∧ row.config = new.config ∧
        row.n = new.n := by simpa [SpecRow.key] using same
    exact hasRow_iff.mpr ⟨new, mem_ownRows.mpr ⟨mem_specRows_append.mpr (Or.inl rfl),
      model' ▸ model, config' ▸ config⟩, n' ▸ n⟩
  · exact hasRow_iff.mpr ⟨row, mem_ownRows.mpr ⟨mem_specRows_append.mpr (Or.inr ⟨same, listed⟩),
      model, config⟩, n⟩

theorem SpecKept.takes_waiting {state : Name × List SpecRow} (kept : SpecKept names state)
    (tells : awk.Tells names) (within : s.Within names) {c : Word} (listed : c ∈ s.candidates)
    (waits : hasRow state.2 s c = false) :
    ∃ c' ∈ s.candidates, s.takes awk state.1 = c'.1 ∧ hasRow state.2 s c' = false := by
  obtain ⟨c', found⟩ : ∃ c', s.candidates.find? (fun c => !hasRow state.2 s c) = some c' := by
    rw [← Option.isSome_iff_exists, List.find?_isSome]
    exact ⟨c, listed, by simp [waits]⟩
  obtain ⟨fresh, before, after, split, earlier⟩ := List.find?_eq_some_iff_append.mp found
  rw [Bool.not_eq_true'] at fresh
  refine ⟨c', List.mem_of_find?_eq_some found, ?_, fresh⟩
  refine (kept.takes_specRule tells within).untried (before.map Subtype.val) c'.1
    (after.map Subtype.val) (by simp [split]) (fun name member => ?_) (fun row member same => ?_)
  · obtain ⟨word, inside, rfl⟩ := List.mem_map.mp member
    exact hasRow_iff.mp (by simpa using earlier word inside)
  · rw [hasRow_iff.mpr ⟨row, member, same⟩] at fresh
    cases fresh

/-- The candidates that wait are fewer by one for each start that repeats this one. -/
theorem SpecSound.waiting (sound : SpecSound names run) (tells : awk.Tells names)
    (off : "off".toList ∈ names) (within : s.Within names) :
    left (hasRow (afterSpec awk run).2 s) s.candidates ≤
      s.candidates.length - run.countP fun t => decide (s.Repeated t) := by
  induction run using List.reverseRecOn with
  | nil => exact left_le _ _
  | append_singleton run t ih =>
      have before := ih sound.init
      have kept := sound.init.kept tells off
      rw [afterSpec_append, SpecKept.step_history, List.countP_append]
      by_cases repeated : s.Repeated t
      · obtain ⟨⟨model, config⟩, candidates, records⟩ := repeated
        have one : [t].countP (fun t => decide (s.Repeated t)) = 1 := by
          simp [SpecStart.Repeated, SpecStart.Alike, model, config, candidates, records]
        have takes : t.takes awk (afterSpec awk run).1 = s.takes awk (afterSpec awk run).1 := by
          rw [SpecStart.takes, SpecStart.takes, model, config, candidates]
        rw [one, if_pos records, model, config, takes]
        by_cases waits : ∃ c ∈ s.candidates, hasRow (afterSpec awk run).2 s c = false
        · obtain ⟨c, listed, fresh⟩ := waits
          obtain ⟨c', listed', taken, fresh'⟩ := kept.takes_waiting tells within listed fresh
          rw [taken]
          have fewer : left (hasRow ((afterSpec awk run).2 ++ [⟨s.model.1, s.settings.skey, c'.1,
              (t.rate.map Subtype.val).getD []⟩]) s) s.candidates <
                left (hasRow (afterSpec awk run).2 s) s.candidates :=
            left_lt (fun _ done => hasRow_append done) listed' fresh'
              (hasRow_iff.mpr ⟨_, mem_ownRows.mpr
                ⟨mem_specRows_append.mpr (Or.inl rfl), rfl, rfl⟩, rfl⟩)
          omega
        · have all : ∀ c ∈ s.candidates, hasRow (afterSpec awk run).2 s c = true := by
            simpa using waits
          rw [left_eq_zero.mpr fun c listed => hasRow_append (all c listed)]
          exact Nat.zero_le _
      · have none : [t].countP (fun t => decide (s.Repeated t)) = 0 := by simp [repeated]
        rw [none, Nat.add_zero]
        refine le_trans (left_mono (fun c done => ?_) s.candidates) before
        split
        · exact hasRow_append done
        · rwa [List.append_nil]

/-! ## Concurrency -/

theorem last_part {a b x y : Name} (plain : '/' ∉ x) (plain' : '/' ∉ y)
    (same : a ++ '/' :: x = b ++ '/' :: y) : x = y := by
  rcases List.append_eq_append_iff.mp same with ⟨part, -, split⟩ | ⟨part, -, split⟩
  · cases part with
    | nil => exact (List.cons.inj split).2
    | cons c part => exact absurd (by rw [(List.cons.inj split).2]; simp) plain
  · cases part with
    | nil => exact (List.cons.inj split).2.symm
    | cons c part => exact absurd (by rw [(List.cons.inj split).2]; simp) plain'

theorem SpecSettings.skey_concurrency {v w : SpecSettings} (plain : '/' ∉ v.concurrency)
    (plain' : '/' ∉ w.concurrency) (same : v.skey = w.skey) : v.concurrency = w.concurrency := by
  have parts (v : SpecSettings) : v.skey =
      (orElse v.cacheFrac "na".toList ++ '/' :: (orElse v.denseFrac "na".toList ++
        '/' :: orElse v.moestream "1".toList)) ++ '/' :: 'p' :: v.concurrency := by
    simp [SpecSettings.skey]
  rw [parts v, parts w] at same
  exact (List.cons.inj (last_part (by simpa using plain) (by simpa using plain') same)).2

/-! ## The search -/

/-- Whatever starts came before, the file holds the last row recorded for each key, once,
and by its own rows a start takes the first candidate that has none, else the fastest;
after as many records of starts like it as it has candidates, each has a row.  Starts of
other models and configurations change nothing about it, those of another concurrency
among them. -/
theorem spec_learns {awk : Awk Rate} {names : Set Name} (tells : awk.Tells names)
    (off : "off".toList ∈ names) {run : List SpecStart} (sound : SpecSound names run)
    {s : SpecStart} (within : s.Within names) :
    let rows := specRows (afterSpec awk run).2
    let own := ownRows rows s.model.1 s.settings.skey
    ((afterSpec awk run).1 = specText rows ∧ (rows.map SpecRow.key).Nodup ∧
        ∀ row, row ∈ rows ↔ row.Last (afterSpec awk run).2) ∧
      SpecRule awk own (s.candidates.map Subtype.val) (s.takes awk (afterSpec awk run).1) ∧
      (s.candidates.length ≤ run.countP (fun t => decide (s.Repeated t)) →
        ∀ c ∈ s.candidates, ∃ row ∈ own, row.n = c.1) ∧
      s.takes awk (afterSpec awk run).1 =
        s.takes awk (afterSpec awk (run.filter fun t => decide (s.Alike t))).1 ∧
      ∀ t, t.Within names → t.Whole → '/' ∉ s.settings.concurrency →
        '/' ∉ t.settings.concurrency → t.settings.concurrency ≠ s.settings.concurrency →
        s.takes awk (afterSpec awk (run ++ [t])).1 = s.takes awk (afterSpec awk run).1 := by
  have alone (run : List SpecStart) (sound : SpecSound names run) :
      s.takes awk (afterSpec awk run).1 =
        s.takes awk (afterSpec awk (run.filter fun t => decide (s.Alike t))).1 := by
    have kept := sound.kept tells off
    have kept' := (sound.filter fun t => decide (s.Alike t)).kept tells off
    have own := sound.history_alike tells off s
    rw [kept.takes_own tells within, kept'.takes_own tells within, own, ← own, ownRows_own]
  have kept := sound.kept tells off
  refine ⟨⟨kept.file, specRows_nodup _, fun row => mem_specRows⟩, kept.takes_specRule tells within,
    fun enough c listed => ?_, alone run sound, fun t within' whole plain plain' apart => ?_⟩
  · have waiting := sound.waiting tells off within
    have none : left (hasRow (afterSpec awk run).2 s) s.candidates = 0 := by omega
    exact hasRow_iff.mp (left_eq_zero.mp none c listed)
  · have other : ¬s.Alike t := fun alike =>
      apart (SpecSettings.skey_concurrency plain' plain alike.2)
    have longer : SpecSound names (run ++ [t]) := by
      intro u member
      rcases List.mem_append.mp member with old | new
      · exact sound u old
      · exact List.mem_singleton.mp new ▸ ⟨within', whole⟩
    rw [alone _ longer, alone _ sound, List.filter_append]
    simp [other]

/-- `awk` compares names as texts if no two of them are one number. -/
theorem posixAwk_tells (shown : ℚ → Name) {names : Set Name}
    (apart : ∀ a ∈ names, ∀ b ∈ names, looksNumeric a = looksNumeric b →
      (looksNumeric a).isSome = true → a = b) : (posixAwk shown).Tells names := by
  intro a known b known'
  have numbers := apart a known b known'
  simp only [posixAwk, Option.map_some, Option.getD_some]
  cases first : looksNumeric a with
  | none => rfl
  | some x =>
      cases second : looksNumeric b with
      | none => rfl
      | some y =>
          rw [first, second] at numbers
          refine decide_eq_decide.mpr ⟨?_, ?_⟩
          · rintro rfl
            exact numbers rfl rfl
          · rintro rfl
            exact Option.some.inj (first.symm.trans second)

def unsetText : EnvText := ⟨[], by decide⟩

/-- A start with the candidates `off` and `1`, at some rate. -/
def draftStart (rate : EnvText) : SpecStart where
  model := ⟨"m.gguf".toList, by decide⟩
  settings := ⟨unsetText, unsetText, unsetText, unsetText⟩
  candidates := [⟨"off".toList, by decide⟩, ⟨"1".toList, by decide⟩]
  types := true
  rate := some rate
  outcome := ⟨true, none, none, true⟩

def draftNames : List Name :=
  ["m.gguf".toList, "na/na/1/p1".toList, "off".toList, "1".toList]

def draftRun : List SpecStart :=
  [draftStart ⟨"20.0".toList, by decide⟩, draftStart ⟨"31.5".toList, by decide⟩]

theorem draftNames_apart : ∀ a ∈ draftNames, ∀ b ∈ draftNames, looksNumeric a = looksNumeric b →
    (looksNumeric a).isSome = true → a = b := by decide +kernel

theorem draftStart_within (rate : EnvText) :
    (draftStart rate).Within { name | name ∈ draftNames } := by
  have config : (draftStart rate).settings.skey = "na/na/1/p1".toList := by
    simp [draftStart, SpecSettings.skey, SpecSettings.concurrency, orElse, unsetText]
  refine ⟨by simp [draftStart, draftNames], by simp [config, draftNames], fun c member => ?_⟩
  simp only [draftStart, List.mem_cons, List.not_mem_nil, or_false] at member
  rcases member with rfl | rfl <;> simp [draftNames]

theorem draftRun_sound : SpecSound { name | name ∈ draftNames } draftRun := by
  intro s member
  simp only [draftRun, List.mem_cons, List.not_mem_nil, or_false] at member
  rcases member with rfl | rfl <;> exact ⟨draftStart_within _, fun _ _ => ⟨rfl, rfl⟩⟩

def draftRows : List SpecRow :=
  ownRows (specRows (afterSpec (posixAwk fun _ => []) draftRun).2)
    (draftStart unsetText).model.1 (draftStart unsetText).settings.skey

/-- Two records measure the two candidates. -/
theorem spec_learns_two :
    (∃ row ∈ draftRows, row.n = "off".toList) ∧ ∃ row ∈ draftRows, row.n = "1".toList := by
  have measured := (spec_learns (posixAwk_tells (fun _ => []) draftNames_apart)
    (show "off".toList ∈ draftNames by decide) draftRun_sound
    (draftStart_within unsetText)).2.2.1 (by decide)
  exact ⟨measured _ List.mem_cons_self, measured _ (List.mem_cons_of_mem _ List.mem_cons_self)⟩

end MoeStream
