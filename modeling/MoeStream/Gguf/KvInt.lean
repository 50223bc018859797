import MoeStream.Gguf.Walk

/-!
# One integer of the metadata

Embedding of `gguf_kv_int`: the pairs of the first shard are read in order until
one has a key with the wanted suffix and an integer in range.
-/

set_option autoImplicit false

namespace MoeStream.Gguf

open Foundation.ByteReader

/-- The loop over the pairs; `0` when it comes to its end. -/
def findPair (suffix : Bytes) : Nat → Reader Int
  | 0 => pure 0
  | n + 1 => do
      let p ← readPair
      if suffix.isSuffixOf p.1 = true ∧ 0 < p.2 ∧ p.2 < 4096 then pure p.2 else findPair suffix n

/-- What `gguf_kv_int` does in the file it opens. -/
def readKvInt (suffix : Bytes) : Reader Int := do
  let n ← readPreamble
  findPair suffix n.2

/-- `gguf_kv_int` on the files of `shard_paths`, `none` for one that does not
open. -/
def kvInt (files : List (Option Bytes)) (suffix : Bytes) : Int :=
  match files.head? with
  | some (some data) => ((readKvInt suffix data 0).map Prod.fst).getD 0
  | _ => 0

def Pair.wanted (suffix : Bytes) (p : Pair) : Option Int :=
  if suffix <:+ p.key then p.integer.filter fun v => decide (0 < v ∧ v < 4096) else none

def lookup (suffix : Bytes) (pairs : List Pair) : Option Int :=
  pairs.findSome? (Pair.wanted suffix)

theorem Encodes.length_eq {t : ValueType} {bytes : Bytes} {w : Nat} (encodes : Encodes t bytes)
    (width : t.width = some w) : bytes.length = w := by
  cases encodes with
  | fixed bytes width' size => exact size.trans (Option.some.inj (width'.symm.trans width))
  | string text fits => cases width
  | array t items fits each => cases width

/-- In range, what `skip` hands on is the integer the value stands for; a
`uint64` that `int64_t` does not hold is out of range either way. -/
theorem handed_iff {t : ValueType} {bytes : Bytes} (encodes : Encodes t bytes) (v : Int) :
    (handed extract t bytes = v ∧ 0 < v ∧ v < 4096) ↔
      (t.integer bytes = some v ∧ 0 < v ∧ v < 4096) := by
  refine and_congr_left fun inRange => ?_
  cases t with
  | uint64 =>
      have size : bytes.length = 8 := encodes.length_eq rfl
      have small : 0 < v ∧ 2 * v < (256 ^ bytes.length : Nat) := by
        rw [size]
        omega
      simp only [handed, ValueType.width, ValueType.code, extract, ValueType.integer,
        Option.isSome_some, if_true, Option.some_inj]
      exact signed_eq_iff small
  | float32 | bool | string | array | float64 =>
      simp only [ValueType.integer, reduceCtorEq, iff_false]
      simp only [handed, ValueType.width, ValueType.code, extract, ite_self]
      omega
  | _ =>
      simp only [handed, ValueType.width, ValueType.code, extract, ValueType.integer,
        Option.isSome_some, if_true, Option.some_inj]

theorem Pair.wanted_eq (suffix : Bytes) (p : Pair) :
    p.wanted suffix =
      if suffix.isSuffixOf p.key = true ∧ 0 < handed extract p.type p.value ∧
          handed extract p.type p.value < 4096 then
        some (handed extract p.type p.value)
      else none := by
  have same := handed_iff p.encodes
  simp only [wanted, integer, List.isSuffixOf_iff_suffix]
  by_cases ends : suffix <:+ p.key
  · simp only [ends, if_true, true_and]
    split
    · rename_i inRange
      obtain ⟨found, -⟩ := (same _).mp ⟨rfl, inRange⟩
      rw [found, Option.filter_some, if_pos (decide_eq_true inRange)]
    · rename_i out
      cases found : p.type.integer p.value with
      | none => rfl
      | some v =>
          rw [Option.filter_some, if_neg]
          intro inRange
          have inRange := of_decide_eq_true inRange
          obtain ⟨rfl, -⟩ := (same v).mpr ⟨found, inRange⟩
          exact out inRange
  · simp only [ends, if_false, false_and]

/-- The loop finds the first wanted value; without one it stops behind the last
pair. -/
theorem findPair_run (suffix : Bytes) (pairs : List Pair) (before after : Bytes)
    (fits : (before ++ ((pairs.map Pair.encode).flatten ++ after)).length < 2 ^ 63) :
    ∃ q, findPair suffix pairs.length (before ++ ((pairs.map Pair.encode).flatten ++ after))
        before.length = some ((lookup suffix pairs).getD 0, q) ∧
      (lookup suffix pairs = none →
        q = before.length + ((pairs.map Pair.encode).flatten).length) := by
  induction pairs generalizing before with
  | nil => exact ⟨before.length, rfl, fun _ => rfl⟩
  | cons p rest ih =>
      have shape : before ++ (((p :: rest).map Pair.encode).flatten ++ after) =
          before ++ (p.encode ++ ((rest.map Pair.encode).flatten ++ after)) := by
        rw [List.map_cons, List.flatten_cons, List.append_assoc]
      rw [shape] at fits ⊢
      have small : p.encode.length < 2 ^ 63 := by
        simp only [List.length_append] at fits
        omega
      have first := (readPair_reads small).whole before _ fits
      have wanted := p.wanted_eq suffix
      rw [List.length_cons, findPair, bind_apply, first, Option.bind_some]
      dsimp only
      split
      · rename_i found
        rw [if_pos found] at wanted
        refine ⟨before.length + p.encode.length, ?_, ?_⟩
        · rw [lookup, List.findSome?_cons, wanted]
          rfl
        · intro none
          rw [lookup, List.findSome?_cons, wanted] at none
          cases none
      · rename_i other
        rw [if_neg other] at wanted
        have later : lookup suffix (p :: rest) = lookup suffix rest := by
          rw [lookup, List.findSome?_cons, wanted]
          rfl
        obtain ⟨q, run, stop⟩ := ih (before ++ p.encode)
          (by simpa only [List.append_assoc] using fits)
        rw [List.append_assoc, List.length_append] at run
        rw [later]
        refine ⟨q, run, fun none => ?_⟩
        rw [stop none]
        simp only [List.length_append, List.map_cons, List.flatten_cons]
        omega

/-- In a file with a header `gguf_kv_int` finds the first wanted value; without
one it stops where the tensor table starts. -/
theorem Shard.readKvInt (s : Shard) (suffix : Bytes) :
    ∃ q, Gguf.readKvInt suffix s.bytes 0 = some ((lookup suffix s.header.pairs).getD 0, q) ∧
      (lookup suffix s.header.pairs = none → q = s.header.front.length) := by
  have shape : s.bytes = s.header.preamble ++
      ((s.header.pairs.map Pair.encode).flatten ++ (s.header.table ++ s.rest)) := by
    simp only [Shard.bytes, Header.encode, Header.front, List.append_assoc]
  have fits : s.bytes.length < 2 ^ 63 := s.fits
  rw [shape] at fits
  have counts := (readPreamble_reads s.header).whole [] _ fits
  obtain ⟨q, run, stop⟩ := findPair_run suffix s.header.pairs s.header.preamble _ fits
  refine ⟨q, ?_, fun none => ?_⟩
  · rw [shape, Gguf.readKvInt, bind_apply]
    rw [List.nil_append, List.length_nil, Nat.zero_add] at counts
    rw [counts, Option.bind_some]
    exact run
  · rw [stop none, Header.front, List.length_append]

theorem kvInt_eq (s : Shard) (rest : List (Option Bytes)) (suffix : Bytes) :
    kvInt (some s.bytes :: rest) suffix = (lookup suffix s.header.pairs).getD 0 := by
  obtain ⟨q, run, -⟩ := s.readKvInt suffix
  simp only [kvInt, List.head?_cons, run, Option.map_some, Option.getD_some]

end MoeStream.Gguf
