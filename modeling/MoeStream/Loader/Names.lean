import MoeStream.Foundation.FixedWidth
import MoeStream.Slab.Reads

/-!
# Tensor names

Embedding of `parse_name` and `parse_dense_any`: which layer and role a tensor
name stands for.  A name is the list of its characters.
-/

set_option autoImplicit false

namespace MoeStream

open Foundation.FixedWidth

/-- The blanks `strtol` skips. -/
def isBlank (c : Char) : Bool := decide (c.toNat = 32 ∨ (9 ≤ c.toNat ∧ c.toNat ≤ 13))

def digits (n : Nat) : List Char → Nat × List Char
  | [] => (n, [])
  | c :: rest =>
      if c.isDigit then digits (n * 10 + (c.toNat - 48)) rest else (n, c :: rest)

/-- The sign `strtol` accepts, and what follows it. -/
def sign : List Char → Bool × List Char
  | [] => (false, [])
  | c :: rest =>
      if c.toNat = 45 then (true, rest) else if c.toNat = 43 then (false, rest)
      else (false, c :: rest)

/-- `strtol` in base 10; without a digit nothing is consumed. -/
def strtol (text : List Char) : Int × List Char :=
  let (negative, body) := sign (text.dropWhile isBlank)
  if (body.head?.map Char.isDigit).getD false then
    let (n, rest) := digits 0 body
    (if negative then max (-2 ^ 63) (-(n : Int)) else min (2 ^ 63 - 1) n, rest)
  else (0, text)

/-- `strstr` finds `needle`. -/
def contains (needle : List Char) : List Char → Bool
  | [] => needle.isEmpty
  | c :: rest => needle.isPrefixOf (c :: rest) || contains needle rest

/-- The layer number of `blk.<il>.` and the rest from its last dot on. -/
def parseLayer (name : List Char) : Option (Int × List Char) :=
  if "blk.".toList.isPrefixOf name then
    let (v, rest) := strtol (name.drop 4)
    if (rest.head?.map fun c => c.toNat == 46).getD false then some (i32 v, rest) else none
  else none

/-- `parse_name`: an expert tensor. -/
def parseName (name : List Char) : Option (Int × Role) :=
  (parseLayer name).bind fun (il, rest) =>
    if contains ".ffn_gate_exps.weight".toList rest then some (il, .gate)
    else if contains ".ffn_up_exps.weight".toList rest then some (il, .up)
    else if contains ".ffn_down_exps.weight".toList rest then some (il, .down)
    else none

/-- `g_dn_min_bytes`. -/
def dnMinBytes : Nat := 8 * 2 ^ 20

/-- `parse_dense_any`: a dense FFN weight of at least `dnMinBytes`. -/
def parseDenseAny (name : List Char) (nbytes : Nat) : Option (Int × Role) :=
  (parseLayer name).bind fun (il, rest) =>
    if nbytes < dnMinBytes then none
    else if rest = ".ffn_gate.weight".toList then some (il, .gate)
    else if rest = ".ffn_up.weight".toList then some (il, .up)
    else if rest = ".ffn_down.weight".toList then some (il, .down)
    else none

theorem parseDenseAny_iff {name : List Char} {n : Nat} {place : Int × Role} :
    parseDenseAny name n = some place ↔
      parseDenseAny name dnMinBytes = some place ∧ dnMinBytes ≤ n := by
  simp only [parseDenseAny]
  cases parseLayer name with
  | none => exact iff_of_false nofun nofun
  | some layer =>
      simp only [Option.bind_some, lt_irrefl, if_false]
      by_cases small : n < dnMinBytes
      · rw [if_pos small]
        exact iff_of_false nofun fun both => absurd small (Nat.not_lt.mpr both.2)
      · rw [if_neg small]
        exact (and_iff_left (Nat.not_lt.mp small)).symm

example : parseName "blk.12.ffn_down_exps.weight".toList = some (12, .down) := by decide

example : parseName "blk.12.ffn_gate_up_exps.weight".toList = none := by decide

end MoeStream
