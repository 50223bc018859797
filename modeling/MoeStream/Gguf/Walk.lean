import Mathlib.Tactic.IntervalCases
import MoeStream.Gguf.Format

/-!
# Walking a header

Embedding of the part the three GGUF readers have in common: the preamble and
the recursion over a value that is skipped.  The recursion of the source follows
the nesting of arrays, which only the size of the file bounds; here it has
`2 ^ 63` levels, as many as a file has bytes at most.
-/

set_option autoImplicit false

namespace MoeStream.Gguf

open Foundation.ByteReader

/-- `fixed[13]`. -/
def fixedSize (t : Nat) : Nat := [1, 1, 2, 2, 4, 4, 4, 1, 0, 0, 8, 8, 8].getD t 0

/-! ## Skipping a value -/

/-- `skip` with what it does on a value of fixed size; the number handed on is
that of an integer, else `0`. -/
def skipWith (fixed : Nat → Reader Int) : Nat → Nat → Reader Int
  | 0, _ => fail
  | levels + 1, t =>
      if t = 8 then do
        let n ← rdNat 8
        let _ ← seek n
        pure 0
      else if t = 9 then do
        let et ← rdNat 4
        let n ← rdNat 8
        let _ ← times (skipWith fixed levels et) n
        pure 0
      else if 12 < t then fail
      else fixed t

/-- The bytes as a value of type `t`, in `int64_t`; a `uint64_t` wraps. -/
def extract (t : Nat) (buf : Bytes) : Int :=
  match t with
  | 0 | 2 | 4 => ofBytes buf
  | 1 | 3 | 5 | 10 | 11 => signed buf
  | _ => 0

def maxLevels : Nat := 2 ^ 63

/-- `skip` of `gguf_kv_int`. -/
def skipInt : Nat → Reader Int :=
  skipWith (fun t => do
    let buf ← rd (fixedSize t)
    pure (extract t buf)) maxLevels

/-- `skip` of `gguf_scan_streamable`. -/
def skipScan : Nat → Reader Int :=
  skipWith (fun t => do
    let _ ← seek (fixedSize t)
    pure 0) maxLevels

/-- `skipv` of `gguf_bytes_per_slot`. -/
def skipPrice : Nat → Reader Int :=
  skipWith (fun t => do
    let _ ← rd (fixedSize t)
    pure 0) maxLevels

/-! ## Pairs -/

/-- `n_tensor` and `n_kv`. -/
def readPreamble : Reader (Nat × Nat) := do
  let m ← rd 4
  let _ ← check (m == magic)
  let _ ← rdNat 4
  let nTensor ← rdNat 8
  let nKv ← rdNat 8
  pure (nTensor, nKv)

def skipPair (skip : Nat → Reader Int) : Reader Unit := do
  let kl ← rdNat 8
  let _ ← check (decide (kl ≤ 2 ^ 20))
  let _ ← seek kl
  let vt ← rdNat 4
  let _ ← skip vt
  pure ()

/-- The number of tensors; the position is that of the tensor table. -/
def skipFront (skip : Nat → Reader Int) : Reader Nat := do
  let n ← readPreamble
  let _ ← times (skipPair skip) n.2
  pure n.1

def readPair : Reader (Bytes × Int) := do
  let klen ← rdNat 8
  let _ ← check (decide (klen ≤ 2 ^ 20))
  let key ← rd klen
  let vt ← rdNat 4
  let v ← skipInt vt
  pure (key, v)

/-! ## Values are skipped by their length -/

/-- What `skip` hands on: only a value of fixed size has something to tell. -/
def handed (value : Nat → Bytes → Int) (t : ValueType) (bytes : Bytes) : Int :=
  if t.width.isSome then value t.code bytes else 0

structure FixedReads (fixed : Nat → Reader Int) (value : Nat → Bytes → Int) : Prop where
  reads : ∀ t bytes, bytes.length = fixedSize t → Reads (fixed t) bytes (value t bytes)
  spent : ∀ t, Spent (fixed t)

section Skip

variable {fixed : Nat → Reader Int} {value : Nat → Bytes → Int} {levels : Nat}

theorem width_eq {t : ValueType} {w : Nat} (width : t.width = some w) :
    fixedSize t.code = w ∧ t.code ≠ 8 ∧ t.code ≠ 9 ∧ t.code ≤ 12 := by
  cases t <;> cases width <;> decide

theorem skipWith_spent (reads : FixedReads fixed value) (levels t : Nat) :
    Spent (skipWith fixed levels t) := by
  cases levels with
  | zero => exact Spent.fail
  | succ levels =>
      rw [skipWith]
      split
      · exact Spent.rdNat_bind (by decide) _
      · split
        · exact Spent.rdNat_bind (by decide) _
        · split
          · exact Spent.fail
          · exact reads.spent t

theorem skipWith_reads (reads : FixedReads fixed value) {t : ValueType} {bytes : Bytes}
    (encodes : Encodes t bytes) (deep : bytes.length < levels) :
    Reads (skipWith fixed levels t.code) bytes (handed value t bytes) := by
  induction encodes generalizing levels with
  | @fixed t w bytes width size =>
      obtain ⟨same, notString, notArray, known⟩ := width_eq width
      obtain ⟨levels, rfl⟩ : ∃ l, levels = l + 1 := ⟨levels - 1, by omega⟩
      rw [skipWith, if_neg notString, if_neg notArray, if_neg (by omega)]
      simp only [handed, width, Option.isSome_some, if_true]
      exact reads.reads t.code bytes (size.trans same.symm)
  | string text fits =>
      obtain ⟨levels, rfl⟩ : ∃ l, levels = l + 1 := ⟨levels - 1, by omega⟩
      rw [skipWith, if_pos (by rfl)]
      exact Reads.rdNat_bind fits ((Reads.seek rfl).map fun _ => 0)
  | array t items fits each ih =>
      obtain ⟨levels, rfl⟩ : ∃ l, levels = l + 1 := ⟨levels - 1, by omega⟩
      rw [skipWith, if_neg (by decide), if_pos (by rfl)]
      simp only [List.length_append, length_toBytes] at deep
      -- an element is shorter than the array by the twelve bytes in front
      have elements : ∀ item ∈ items, ∃ a, Reads (skipWith fixed levels t.code) item a := by
        intro item member
        have shorter := (List.sublist_flatten_of_mem member).length_le
        exact ⟨_, ih item member (by omega)⟩
      exact Reads.rdNat_bind t.code_lt (Reads.rdNat_bind fits
        ((Reads.times elements (skipWith_spent reads levels t.code)).map fun _ => 0))

end Skip

structure Skips (skip : Nat → Reader Int) (value : ValueType → Bytes → Int) : Prop where
  reads : ∀ t bytes, Encodes t bytes → bytes.length < 2 ^ 63 →
    Reads (skip t.code) bytes (value t bytes)
  spent : ∀ t, Spent (skip t)

theorem FixedReads.skips {fixed : Nat → Reader Int} {value : Nat → Bytes → Int}
    (reads : FixedReads fixed value) : Skips (skipWith fixed maxLevels) (handed value) where
  reads := fun _ _ encodes fits => skipWith_reads reads encodes fits
  spent := skipWith_spent reads maxLevels

theorem skipInt_skips : Skips skipInt (handed extract) := by
  apply FixedReads.skips
  constructor
  · intro t bytes size
    rw [← size]
    exact (Reads.rd bytes).map (extract t)
  · exact fun t => (Spent.rd _).bind fun _ => Spent.pure _

theorem skipScan_skips : Skips skipScan (handed fun _ _ => 0) := by
  apply FixedReads.skips
  constructor
  · intro t bytes size
    exact (Reads.seek size).map fun _ => 0
  · intro t
    have small : fixedSize t < 2 ^ 63 := by
      rcases lt_or_ge t 13 with known | other
      · interval_cases t <;> decide
      · rw [fixedSize, List.getD_eq_getElem?_getD, List.getElem?_eq_none other]
        decide
    exact (Spent.seek small).bind fun _ => Spent.pure _

theorem skipPrice_skips : Skips skipPrice (handed fun _ _ => 0) := by
  apply FixedReads.skips
  constructor
  · intro t bytes size
    rw [← size]
    exact (Reads.rd bytes).map fun _ => 0
  · exact fun t => (Spent.rd _).bind fun _ => Spent.pure _

/-! ## The front of a file -/

section Front

variable {skip : Nat → Reader Int} {value : ValueType → Bytes → Int}

theorem readPreamble_reads (h : Header) :
    Reads readPreamble h.preamble (h.tensors.length, h.pairs.length) := by
  have counts : Reads (do let nKv ← rdNat 8; pure (h.tensors.length, nKv))
      (toBytes 8 h.pairs.length) (h.tensors.length, h.pairs.length) :=
    (Reads.rdNat h.pairsFit).map _
  have numbers := Reads.rdNat_bind (f := fun _ => (do
      let nTensor ← rdNat 8
      let nKv ← rdNat 8
      pure (nTensor, nKv) : Reader (Nat × Nat))) h.versionFits
    (Reads.rdNat_bind h.tensorsFit counts)
  refine (Reads.rd magic).bind (Reads.check_bind (by decide) numbers) fun m => ?_
  exact (Spent.check _).bind fun _ => Spent.rdNat_bind (by decide) _

theorem skipPair_spent (skip : Nat → Reader Int) : Spent (skipPair skip) :=
  Spent.rdNat_bind (by decide) _

theorem Pair.size {p : Pair} : p.key.length + p.value.length + 12 = p.encode.length := by
  simp only [Pair.encode, List.length_append, length_toBytes]
  omega

theorem Pair.key_lt (p : Pair) : p.key.length < 256 ^ 8 := lt_of_le_of_lt p.short (by decide)

theorem Skips.pair (skips : Skips skip value) {p : Pair} (fits : p.encode.length < 2 ^ 63) :
    Reads (skipPair skip) p.encode () := by
  have size := p.size
  have skipped := (skips.reads p.type p.value p.encodes (by omega)).map fun _ => ()
  refine Reads.rdNat_bind p.key_lt (Reads.check_bind (decide_eq_true p.short) ?_)
  exact (Reads.seek rfl).bind (Reads.rdNat_bind p.type.code_lt skipped) fun _ =>
    Spent.rdNat_bind (by decide) _

theorem Header.pair_fits {h : Header} (fits : h.front.length < 2 ^ 63) {p : Pair}
    (member : p ∈ h.pairs) : p.encode.length < 2 ^ 63 := by
  have shorter := (List.sublist_flatten_of_mem (List.mem_map_of_mem (f := Pair.encode)
    member)).length_le
  simp only [Header.front, List.length_append] at fits
  omega

/-- The position behind the front is where the tensor table starts. -/
theorem Skips.front (skips : Skips skip value) {h : Header} (fits : h.front.length < 2 ^ 63) :
    Reads (skipFront skip) h.front h.tensors.length := by
  have each : ∀ code ∈ h.pairs.map Pair.encode, ∃ a, Reads (skipPair skip) code a := by
    intro code member
    obtain ⟨p, listed, rfl⟩ := List.mem_map.mp member
    exact ⟨(), skips.pair (Header.pair_fits fits listed)⟩
  have pairs := (Reads.times each (skipPair_spent skip)).map fun _ => h.tensors.length
  rw [List.length_map] at pairs
  exact (readPreamble_reads h).bind pairs fun n =>
    ((skipPair_spent skip).times _).bind fun _ => Spent.pure _

end Front

theorem readPair_reads {p : Pair} (fits : p.encode.length < 2 ^ 63) :
    Reads readPair p.encode (p.key, handed extract p.type p.value) := by
  have size := p.size
  have valued := (skipInt_skips.reads p.type p.value p.encodes (by omega)).map fun v => (p.key, v)
  refine Reads.rdNat_bind p.key_lt (Reads.check_bind (decide_eq_true p.short) ?_)
  exact (Reads.rd p.key).bind (Reads.rdNat_bind p.type.code_lt valued) fun _ =>
    Spent.rdNat_bind (by decide) _

end MoeStream.Gguf
