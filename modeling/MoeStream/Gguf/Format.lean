import MoeStream.Foundation.ByteReader

/-!
# GGUF headers

What a header is: the counts, the key/value pairs and the tensor table, and how
they are laid out in bytes.  A value is known by the bytes that encode it; the
elements of an array are encoded one after the other without their type.
-/

set_option autoImplicit false

namespace MoeStream.Gguf

open Foundation.ByteReader

/-! ## Values -/

inductive ValueType where
  | uint8
  | int8
  | uint16
  | int16
  | uint32
  | int32
  | float32
  | bool
  | string
  | array
  | uint64
  | int64
  | float64
  deriving DecidableEq

namespace ValueType

def code : ValueType → Nat
  | uint8 => 0
  | int8 => 1
  | uint16 => 2
  | int16 => 3
  | uint32 => 4
  | int32 => 5
  | float32 => 6
  | bool => 7
  | string => 8
  | array => 9
  | uint64 => 10
  | int64 => 11
  | float64 => 12

def width : ValueType → Option Nat
  | uint8 | int8 | bool => some 1
  | uint16 | int16 => some 2
  | uint32 | int32 | float32 => some 4
  | uint64 | int64 | float64 => some 8
  | string | array => none

def integer (bytes : Bytes) : ValueType → Option Int
  | uint8 | uint16 | uint32 | uint64 => some (ofBytes bytes)
  | int8 | int16 | int32 | int64 => some (signed bytes)
  | float32 | bool | string | array | float64 => none

theorem code_lt (t : ValueType) : t.code < 256 ^ 4 := by
  cases t <;> decide

end ValueType

inductive Encodes : ValueType → Bytes → Prop where
  | fixed {t : ValueType} {w : Nat} (bytes : Bytes) (width : t.width = some w)
      (size : bytes.length = w) : Encodes t bytes
  | string (text : Bytes) (fits : text.length < 256 ^ 8) :
      Encodes .string (toBytes 8 text.length ++ text)
  | array (t : ValueType) (items : List Bytes) (fits : items.length < 256 ^ 8)
      (each : ∀ item ∈ items, Encodes t item) :
      Encodes .array (toBytes 4 t.code ++ (toBytes 8 items.length ++ items.flatten))

/-! ## Pairs and tensors -/

structure Pair where
  key : Bytes
  type : ValueType
  value : Bytes
  short : key.length ≤ 2 ^ 20
  encodes : Encodes type value

def Pair.encode (p : Pair) : Bytes :=
  toBytes 8 p.key.length ++ (p.key ++ (toBytes 4 p.type.code ++ p.value))

def Pair.integer (p : Pair) : Option Int := p.type.integer p.value

structure Entry where
  name : Bytes
  dims : List Nat
  type : Nat
  offset : Nat

structure TensorInfo extends Entry where
  short : name.length ≤ 2 ^ 16
  dimsFew : dims.length ≤ 4
  dimsFit : ∀ d ∈ dims, d < 256 ^ 8
  typeFits : type < 256 ^ 4
  offsetFits : offset < 256 ^ 8

/-- An entry all of whose numbers fit. -/
def TensorInfo.of (e : Entry)
    (fits : e.name.length ≤ 2 ^ 16 ∧ e.dims.length ≤ 4 ∧ (∀ d ∈ e.dims, d < 256 ^ 8) ∧
      e.type < 256 ^ 4 ∧ e.offset < 256 ^ 8) : TensorInfo :=
  { e with
    short := fits.1
    dimsFew := fits.2.1
    dimsFit := fits.2.2.1
    typeFits := fits.2.2.2.1
    offsetFits := fits.2.2.2.2 }

namespace TensorInfo

variable (e : TensorInfo)

def label : Bytes := toBytes 8 e.name.length ++ (e.name ++ toBytes 4 e.dims.length)

def shape : Bytes := e.dims.flatMap (toBytes 8)

def encode : Bytes := e.label ++ (e.shape ++ (toBytes 4 e.type ++ toBytes 8 e.offset))

@[simp] theorem length_label : e.label.length = 8 + e.name.length + 4 := by
  simp only [label, List.length_append, length_toBytes]
  omega

@[simp] theorem length_encode : e.encode.length = e.label.length + e.shape.length + 12 := by
  simp only [encode, List.length_append, length_toBytes]
  omega

end TensorInfo

/-! ## Headers -/

structure Header where
  version : Nat
  pairs : List Pair
  tensors : List TensorInfo
  versionFits : version < 256 ^ 4
  pairsFit : pairs.length < 256 ^ 8
  tensorsFit : tensors.length < 256 ^ 8

/-- A header all of whose numbers fit. -/
def Header.of (version : Nat) (pairs : List Pair) (tensors : List TensorInfo)
    (fits : version < 256 ^ 4 ∧ pairs.length < 256 ^ 8 ∧ tensors.length < 256 ^ 8) : Header :=
  { version := version
    pairs := pairs
    tensors := tensors
    versionFits := fits.1
    pairsFit := fits.2.1
    tensorsFit := fits.2.2 }

/-- `GGUF`. -/
def magic : Bytes := [0x47, 0x47, 0x55, 0x46]

namespace Header

variable (h : Header)

def preamble : Bytes :=
  magic ++ (toBytes 4 h.version ++ (toBytes 8 h.tensors.length ++ toBytes 8 h.pairs.length))

def front : Bytes := h.preamble ++ (h.pairs.map Pair.encode).flatten

def table : Bytes := h.tensors.flatMap TensorInfo.encode

def encode : Bytes := h.front ++ h.table

end Header

/-- A file that starts with a header; the size of a file is a signed number of
64 bits. -/
structure Shard where
  header : Header
  rest : Bytes
  fits : (header.encode ++ rest).length < 2 ^ 63

def Shard.bytes (s : Shard) : Bytes := s.header.encode ++ s.rest

end MoeStream.Gguf
