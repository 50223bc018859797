import Mathlib.Data.List.Infix
import Mathlib.Tactic.Ring

/-!
# Readers of a binary file

Numbers as little-endian bytes, and programs that read a file from a position
as `fread` and `fseek` let them: a read past the end fails, a seek past the end
does not.  A reader reads a code when it consumes exactly the code wherever it
stands in a file, and when it is lost in a file that ends within the code.
-/

set_option autoImplicit false

namespace MoeStream.Foundation.ByteReader

abbrev Bytes := List UInt8

/-! ## Little-endian numbers -/

/-- `w` bytes, least significant first. -/
def toBytes : Nat → Nat → Bytes
  | 0, _ => []
  | w + 1, n => UInt8.ofNat (n % 256) :: toBytes w (n / 256)

def ofBytes : Bytes → Nat
  | [] => 0
  | b :: rest => b.toNat + 256 * ofBytes rest

def signed (code : Bytes) : Int := Int.bmod (ofBytes code) (256 ^ code.length)

@[simp] theorem length_toBytes (w n : Nat) : (toBytes w n).length = w := by
  induction w generalizing n with
  | zero => rfl
  | succ w ih => simp only [toBytes, List.length_cons, ih]

theorem ofBytes_toBytes {w n : Nat} (small : n < 256 ^ w) : ofBytes (toBytes w n) = n := by
  induction w generalizing n with
  | zero =>
      rw [pow_zero] at small
      simp only [toBytes, ofBytes]
      omega
  | succ w ih =>
      have rest : n / 256 < 256 ^ w := by
        apply Nat.div_lt_of_lt_mul
        rwa [pow_succ, Nat.mul_comm] at small
      have low : (UInt8.ofNat (n % 256)).toNat = n % 256 := by
        rw [UInt8.toNat_ofNat']
        exact Nat.mod_eq_of_lt (Nat.mod_lt n (by decide))
      simp only [toBytes, ofBytes, ih rest, low]
      omega

theorem ofBytes_lt (code : Bytes) : ofBytes code < 256 ^ code.length := by
  induction code with
  | nil => exact Nat.one_pos
  | cons b rest ih =>
      have byte : b.toNat < 256 := b.toNat_lt
      rw [List.length_cons, pow_succ]
      simp only [ofBytes]
      omega

theorem signed_eq_iff {code : Bytes} {v : Int}
    (small : 0 < v ∧ 2 * v < (256 ^ code.length : Nat)) :
    signed code = v ↔ (ofBytes code : Int) = v := by
  have bound := ofBytes_lt code
  simp only [signed]
  generalize 256 ^ code.length = m at *
  constructor
  · intro same
    have residues : v % (m : Int) = (ofBytes code : Int) % (m : Int) := by
      rw [← same, Int.bmod_emod]
    rw [Int.emod_eq_of_lt (by omega) (by omega)] at residues
    rw [Int.emod_eq_of_lt (by omega) (by omega)] at residues
    exact residues.symm
  · rintro rfl
    exact Int.bmod_eq_of_le (by omega) (by omega)

/-! ## Readers -/

/-- From a position in a file: nothing when an operation fails, else what was
read and the position behind it. -/
def Reader (α : Type) := Bytes → Nat → Option (α × Nat)

instance : Monad Reader where
  pure a := fun _ pos => some (a, pos)
  bind r f := fun data pos => (r data pos).bind fun p => f p.1 data p.2

section Readers

variable {α β : Type}

def fail : Reader α := fun _ _ => none

def check (p : Bool) : Reader Unit := if p then pure () else fail

/-- `fread` of `n` bytes, all of which must be there. -/
def rd (n : Nat) : Reader Bytes := fun data pos =>
  if n = 0 ∨ pos + n ≤ data.length then some ((data.drop pos).take n, pos + n) else none

/-- A number of `w` bytes. -/
def rdNat (w : Nat) : Reader Nat := do
  let code ← rd w
  pure (ofBytes code)

/-- `fseek` by `n` read as a signed number of 64 bits. -/
def seek (n : Nat) : Reader Unit := fun _ pos =>
  let target := (pos : Int) + Int.bmod n (2 ^ 64)
  if 0 ≤ target ∧ target < 2 ^ 63 then some ((), target.toNat) else none

def times (r : Reader α) : Nat → Reader Unit
  | 0 => pure ()
  | n + 1 => do
      let _ ← r
      times r n

def collect (r : Reader α) : Nat → Reader (List α)
  | 0 => pure []
  | n + 1 => do
      let a ← r
      let rest ← collect r n
      pure (a :: rest)

variable {r : Reader α} {f : α → Reader β} {code code' data : Bytes} {a : α} {b : β} {pos : Nat}

theorem bind_apply : (r >>= f) data pos = (r data pos).bind fun p => f p.1 data p.2 := rfl

theorem seek_apply {n : Nat} (small : pos + n < 2 ^ 63) : seek n data pos = some ((), pos + n) := by
  have plain : Int.bmod (n : Int) (2 ^ 64) = n := Int.bmod_eq_of_le (by omega) (by omega)
  unfold seek
  rw [plain]
  rw [if_pos ⟨by omega, by omega⟩]
  congr

/-! ## A file that ends too early -/

/-- The reader fails or ends up behind the end of the file. -/
def Lost (r : Reader α) (data : Bytes) (pos : Nat) : Prop :=
  ∀ a q, r data pos = some (a, q) → data.length < q

/-- Behind the end there is nothing to come back to. -/
def Spent (r : Reader α) : Prop := ∀ data pos, data.length < pos → Lost r data pos

theorem Lost.bind (lost : Lost r data pos) (spent : ∀ a, Spent (f a)) :
    Lost (r >>= f) data pos := by
  intro b q run
  rw [bind_apply] at run
  obtain ⟨p, first, second⟩ := Option.bind_eq_some_iff.mp run
  exact spent p.1 data p.2 (lost p.1 p.2 first) b q second

theorem Spent.pure (a : α) : Spent (pure a : Reader α) := by
  intro data pos behind b q run
  cases run
  exact behind

theorem Spent.fail : Spent (fail : Reader α) := fun _ _ _ _ _ run => nomatch run

theorem Spent.check (p : Bool) : Spent (check p) := by
  cases p with
  | true => exact Spent.pure ()
  | false => exact Spent.fail

theorem Spent.bind (first : Spent r) (second : ∀ a, Spent (f a)) : Spent (r >>= f) :=
  fun data pos behind => (first data pos behind).bind second

theorem Spent.rd (n : Nat) : Spent (rd n) := by
  intro data pos behind a q run
  simp only [ByteReader.rd] at run
  split at run
  · cases run
    omega
  · cases run

theorem Spent.rdNat (w : Nat) : Spent (rdNat w) := (Spent.rd w).bind fun _ => Spent.pure _

/-- Reading a number behind the end fails, whatever was to follow. -/
theorem Spent.rdNat_bind {w : Nat} (positive : 0 < w) (f : Nat → Reader β) :
    Spent (ByteReader.rdNat w >>= f) := by
  intro data pos behind a q run
  have none : ByteReader.rd w data pos = none := if_neg (by omega)
  simp only [ByteReader.rdNat] at run
  rw [bind_apply, bind_apply, none] at run
  cases run

theorem Spent.seek {n : Nat} (small : n < 2 ^ 63) : Spent (seek n) := by
  intro data pos behind a q run
  have plain : Int.bmod (n : Int) (2 ^ 64) = n := Int.bmod_eq_of_le (by omega) (by omega)
  unfold ByteReader.seek at run
  rw [plain] at run
  obtain ⟨_, moved⟩ := Option.ite_none_right_eq_some.mp run
  cases moved
  omega

theorem Spent.times (spent : Spent r) (n : Nat) : Spent (times r n) := by
  induction n with
  | zero => exact Spent.pure ()
  | succ n ih => exact spent.bind fun _ => ih

theorem Spent.collect (spent : Spent r) (n : Nat) : Spent (collect r n) := by
  induction n with
  | zero => exact Spent.pure []
  | succ n ih => exact spent.bind fun _ => ih.bind fun _ => Spent.pure _

def Bounded (r : Reader α) : Prop :=
  ∀ data pos a q, pos ≤ data.length → r data pos = some (a, q) → q ≤ data.length

theorem Bounded.pure (a : α) : Bounded (pure a : Reader α) := by
  intro data pos b q inside run
  cases run
  exact inside

theorem Bounded.check (p : Bool) : Bounded (check p) := by
  cases p with
  | true => exact Bounded.pure ()
  | false => exact fun _ _ _ _ _ run => nomatch run

theorem Bounded.rd (n : Nat) : Bounded (rd n) := by
  intro data pos a q inside run
  simp only [ByteReader.rd] at run
  split at run
  · cases run
    omega
  · cases run

theorem Bounded.bind (first : Bounded r) (second : ∀ a, Bounded (f a)) : Bounded (r >>= f) := by
  intro data pos b q inside run
  rw [bind_apply] at run
  obtain ⟨p, front, back⟩ := Option.bind_eq_some_iff.mp run
  exact second p.1 data p.2 b q (first data pos p.1 p.2 inside front) back

theorem Bounded.rdNat (w : Nat) : Bounded (rdNat w) :=
  (Bounded.rd w).bind fun _ => Bounded.pure _

theorem Bounded.collect (bounded : Bounded r) (n : Nat) : Bounded (collect r n) := by
  induction n with
  | zero => exact Bounded.pure []
  | succ n ih => exact bounded.bind fun _ => ih.bind fun _ => Bounded.pure _

theorem Lost.eq_none (lost : Lost r data pos) (bounded : Bounded r) (inside : pos ≤ data.length) :
    r data pos = none := by
  cases run : r data pos with
  | none => rfl
  | some p =>
      have after := lost p.1 p.2 run
      have before := bounded data pos p.1 p.2 inside run
      omega

/-! ## Reading a code -/

/-- Where `code` stands in a file the reader returns `a` and is behind `code`;
in a file that ends within `code` it is lost.  Files have less than `2 ^ 63`
bytes. -/
structure Reads (r : Reader α) (code : Bytes) (a : α) : Prop where
  whole : ∀ before after, (before ++ (code ++ after)).length < 2 ^ 63 →
    r (before ++ (code ++ after)) before.length = some (a, before.length + code.length)
  cut : ∀ before part, part <+: code → part.length < code.length →
    (before ++ code).length < 2 ^ 63 → Lost r (before ++ part) before.length

/-- A beginning of two codes ends within the first or contains it. -/
theorem prefix_split {part : Bytes} (start : part <+: code ++ code') :
    (part <+: code ∧ part.length < code.length) ∨
      ∃ part', part = code ++ part' ∧ part' <+: code' := by
  by_cases short : part.length < code.length
  · exact Or.inl ⟨List.prefix_of_prefix_length_le start (List.prefix_append _ _) short.le, short⟩
  · obtain ⟨part', rfl⟩ :=
      List.prefix_of_prefix_length_le (List.prefix_append code code') start (not_lt.mp short)
    exact Or.inr ⟨part', rfl, (List.prefix_append_right_inj code).mp start⟩

theorem Reads.pure (a : α) : Reads (pure a : Reader α) [] a where
  whole := fun _ _ _ => rfl
  cut := fun _ _ _ short => absurd short (Nat.not_lt_zero _)

theorem Reads.both (first : Reads r code a) (second : Reads (f a) code' b) {before after : Bytes}
    (fits : (before ++ (code ++ code' ++ after)).length < 2 ^ 63) :
    (r >>= f) (before ++ (code ++ code' ++ after)) before.length =
      some (b, before.length + (code ++ code').length) := by
  have front := first.whole before (code' ++ after) (by simpa using fits)
  have back := second.whole (before ++ code) after (by simpa using fits)
  rw [bind_apply, List.append_assoc, front]
  simp only [Option.bind_some]
  rw [List.append_assoc, List.length_append] at back
  rw [back, List.length_append, Nat.add_assoc]

theorem Reads.second_cut (first : Reads r code a) (second : Reads (f a) code' b)
    {before part : Bytes} (start : part <+: code') (short : part.length < code'.length)
    (fits : (before ++ (code ++ code')).length < 2 ^ 63) :
    Lost (r >>= f) (before ++ (code ++ part)) before.length := by
  simp only [List.length_append] at fits
  have front := first.whole before part (by simp only [List.length_append]; omega)
  have back := second.cut (before ++ code) part start short
    (by simp only [List.length_append]; omega)
  intro b q run
  rw [bind_apply, front] at run
  rw [List.append_assoc, List.length_append] at back
  exact back b q run

theorem Reads.bind (first : Reads r code a) (second : Reads (f a) code' b)
    (spent : ∀ a, Spent (f a)) : Reads (r >>= f) (code ++ code') b where
  whole := fun _ _ => first.both second
  cut := by
    intro before part start short fits
    rcases prefix_split start with ⟨early, shorter⟩ | ⟨part', rfl, start'⟩
    · simp only [List.length_append] at fits
      exact (first.cut before part early shorter (by simp only [List.length_append]; omega)).bind
        spent
    · refine first.second_cut second start' ?_ fits
      simp only [List.length_append] at short
      omega

theorem Reads.map (first : Reads r code a) (g : α → β) :
    Reads (do let a ← r; Pure.pure (g a)) code (g a) := by
  have mapped := first.bind (f := fun a => Pure.pure (g a)) (Reads.pure (g a)) fun _ => Spent.pure _
  rwa [List.append_nil] at mapped

theorem Reads.check_bind {p : Bool} {f : Unit → Reader β} (holds : p = true)
    (second : Reads (f ()) code b) : Reads (ByteReader.check p >>= f) code b := by
  rw [holds]
  exact second

theorem Reads.rd (code : Bytes) : Reads (rd code.length) code code where
  whole := by
    intro before after fits
    simp only [ByteReader.rd]
    rw [if_pos (Or.inr (by simp only [List.length_append]; omega)), List.drop_left, List.take_left]
  cut := by
    intro before part _ short _ a q run
    simp only [ByteReader.rd] at run
    rw [if_neg (by simp only [List.length_append]; omega)] at run
    cases run

theorem Reads.rdNat {w n : Nat} (small : n < 256 ^ w) : Reads (rdNat w) (toBytes w n) n := by
  have read := (Reads.rd (toBytes w n)).map ofBytes
  rwa [length_toBytes, ofBytes_toBytes small] at read

/-- A number that is not all there is not read, so what follows it does not
run. -/
theorem Reads.rdNat_bind {w n : Nat} {f : Nat → Reader β} (small : n < 256 ^ w)
    (second : Reads (f n) code b) : Reads (ByteReader.rdNat w >>= f) (toBytes w n ++ code) b where
  whole := fun _ _ => (Reads.rdNat small).both second
  cut := by
    intro before part start short fits
    rcases prefix_split start with ⟨_, shorter⟩ | ⟨part', rfl, start'⟩
    · intro b q run
      rw [length_toBytes] at shorter
      have none : ByteReader.rd w (before ++ part) before.length = none :=
        if_neg (by simp only [List.length_append]; omega)
      simp only [ByteReader.rdNat] at run
      rw [bind_apply, bind_apply, none] at run
      cases run
    · refine (Reads.rdNat small).second_cut second start' ?_ fits
      simp only [List.length_append] at short
      omega

theorem Reads.seek {n : Nat} (skipped : code.length = n) : Reads (seek n) code () where
  whole := by
    intro before after fits
    simp only [List.length_append] at fits
    rw [seek_apply (by omega), skipped]
  cut := by
    intro before part _ short fits a q run
    simp only [List.length_append] at fits
    rw [seek_apply (by omega)] at run
    cases run
    simp only [List.length_append]
    omega

/-- Without a seek, a file that ends within the code makes the reader fail. -/
theorem Reads.take_none (reads : Reads r code a) (bounded : Bounded r) (before : Bytes) {k : Nat}
    (short : k < code.length) (fits : (before ++ code).length < 2 ^ 63) :
    r (before ++ code.take k) before.length = none := by
  have shorter : (code.take k).length < code.length := by
    rw [List.length_take]
    omega
  refine (reads.cut before _ (List.take_prefix k code) shorter fits).eq_none bounded ?_
  rw [List.length_append]
  omega

theorem Reads.times {codes : List Bytes} (each : ∀ code ∈ codes, ∃ a, Reads r code a)
    (spent : Spent r) : Reads (times r codes.length) codes.flatten () := by
  induction codes with
  | nil => exact Reads.pure ()
  | cons code rest ih =>
      obtain ⟨a, head⟩ := each code List.mem_cons_self
      have tail := ih fun c member => each c (List.mem_cons_of_mem code member)
      rw [List.flatten_cons]
      exact head.bind tail fun _ => spent.times _

theorem Reads.collect {ι : Type} {items : List ι} {encode : ι → Bytes} {value : ι → α}
    (each : ∀ i ∈ items, Reads r (encode i) (value i)) (spent : Spent r) :
    Reads (collect r items.length) (items.flatMap encode) (items.map value) := by
  induction items with
  | nil => exact Reads.pure []
  | cons i rest ih =>
      have tail := ih fun j member => each j (List.mem_cons_of_mem i member)
      rw [List.flatMap_cons]
      exact (each i List.mem_cons_self).bind (tail.map (value i :: ·)) fun _ =>
        (spent.collect _).bind fun _ => Spent.pure _

end Readers

end MoeStream.Foundation.ByteReader
