import Mathlib.Algebra.Order.BigOperators.Group.List
import Mathlib.Data.List.Perm.Basic
import MoeStream.Foundation.Gaps
import MoeStream.Foundation.OrderedMap
import MoeStream.Gguf.SlotPrice

/-!
# The bytes that can be streamed

Embedding of `gguf_scan_streamable`.  A tensor table has offsets and no sizes;
the size of a tensor is taken from the next offset, and that of the last tensor
of a shard from the size of the file.  Sums of file sizes are exact.
-/

set_option autoImplicit false

namespace MoeStream.Gguf

open Foundation
open Foundation.ByteReader
open Foundation.Gaps

/-! ## The scan -/

def scanEntry : Reader Entry := do
  let (nm, nd) ← readLabel
  let ne ← readShape nd
  let (ty, off) ← readPlace
  pure ⟨nm, ne, ty, off⟩

def scanTable : Reader (List Entry) := do
  let nTensor ← skipFront skipScan
  collect scanEntry nTensor

/-- The layer a tensor of `nb` bytes is counted for, with the bytes. -/
def Entry.streams (e : Entry) (nb : Nat) : Option (Int × Nat) :=
  if nb = 0 ∨ e.dims.length ≠ 2 then none
  else (parseDenseAny (cName e.name) nb).map fun p => (p.1, nb)

def scanShard (file : Option Bytes) : List (Int × Nat) :=
  match file with
  | none => []
  | some data =>
      match scanTable data 0 with
      | none => []
      | some (ents, _) =>
          (gaps Entry.offset data.length (inOrder Entry.offset ents)).filterMap fun p =>
            p.1.streams p.2

/-- `gguf_scan_streamable`: `*total` and `*layer_max`. -/
def scanStreamable (files : List (Option Bytes)) : Nat × Nat :=
  let found := files.flatMap scanShard
  ((found.map Prod.snd).sum,
    OrderedMap.greatest ((OrderedMap.tally found).map Prod.snd))

/-! ## Shards with their data -/

/-- `general.alignment`. -/
def alignmentKey : Bytes := "general.alignment".toList.map fun c => UInt8.ofNat c.toNat

def Header.alignment (h : Header) : Nat :=
  (((h.pairs.find? fun p => decide (p.key = alignmentKey)).bind Pair.integer).getD 32).toNat

/-- The data section starts at a multiple of the alignment and ends with the
file; offsets are counted from its start, and no two tensors start at one byte. -/
structure DataShard extends Shard where
  aligned : 0 < header.alignment
  distinct : (header.tensors.map fun e => e.offset).Nodup
  inside : ∀ e ∈ header.tensors, e.offset ≤ (header.encode ++ rest).length -
    (header.encode.length + header.alignment - 1) / header.alignment * header.alignment

namespace DataShard

variable (s : DataShard)

def dataStart : Nat :=
  (s.header.encode.length + s.header.alignment - 1) / s.header.alignment * s.header.alignment

def dataLength : Nat := s.bytes.length - s.dataStart

def onDisk (e : TensorInfo) : Nat :=
  following (s.header.tensors.map fun e => e.offset) s.dataLength e.offset - e.offset

def measured (e : TensorInfo) : Nat :=
  following (s.header.tensors.map fun e => e.offset) s.bytes.length e.offset - e.offset

def IsLast (e : TensorInfo) : Prop := ∀ e' ∈ s.header.tensors, e'.offset ≤ e.offset

end DataShard

def claims (size : DataShard → TensorInfo → Nat) (s : DataShard) : List (Int × Nat) :=
  s.header.tensors.filterMap fun e =>
    if e.dims.length = 2 then
      (parseDenseAny (cName e.name) (size s e)).map fun p => (p.1, size s e)
    else none

/-! ## What the scan finds -/

theorem scanEntry_reads (e : TensorInfo) : Reads scanEntry e.encode e.toEntry := by
  have place := (readPlace_reads e).map fun p => (⟨e.name, e.dims, p.1, p.2⟩ : Entry)
  have shape := (readShape_reads e).bind (f := fun ne => (do
      let p ← readPlace
      pure ⟨e.name, ne, p.1, p.2⟩ : Reader Entry)) place fun _ =>
    (Spent.rdNat_bind (by decide) _).bind fun _ => Spent.pure _
  refine (readLabel_reads e).bind shape fun p => ?_
  exact ((Spent.rdNat 8).collect _).bind fun _ =>
    (Spent.rdNat_bind (by decide) _).bind fun _ => Spent.pure _

theorem scanEntry_spent : Spent scanEntry :=
  readLabel_spent.bind fun _ => ((Spent.rdNat 8).collect _).bind fun _ =>
    (Spent.rdNat_bind (by decide) _).bind fun _ => Spent.pure _

theorem Shard.scanTable (s : Shard) :
    ∃ q, Gguf.scanTable s.bytes 0 = some (s.header.tensors.map TensorInfo.toEntry, q) := by
  have fits := s.fits
  have small : s.header.front.length < 2 ^ 63 := by
    simp only [Header.encode, List.length_append] at fits
    omega
  have table : Reads (collect scanEntry s.header.tensors.length) s.header.table
      (s.header.tensors.map TensorInfo.toEntry) :=
    Reads.collect (fun e _ => scanEntry_reads e) scanEntry_spent
  have read := (skipScan_skips.front small).bind (f := fun n => collect scanEntry n) table
    fun _ => scanEntry_spent.collect _
  exact ⟨_, read.whole [] s.rest fits⟩

theorem Entry.streams_eq (e : Entry) (nb : Nat) :
    e.streams nb = if e.dims.length = 2 then
      (parseDenseAny (cName e.name) nb).map fun p => (p.1, nb) else none := by
  simp only [Entry.streams]
  by_cases matrix : e.dims.length = 2
  · rw [if_pos matrix]
    by_cases empty : nb = 0
    · rw [if_pos (Or.inl empty)]
      cases claimed : parseDenseAny (cName e.name) nb with
      | none => rfl
      | some place =>
          have large := (parseDenseAny_iff.mp claimed).2
          rw [empty] at large
          exact absurd large (by decide)
    · rw [if_neg (by tauto)]
  · rw [if_pos (Or.inr matrix), if_neg matrix]

section Scan

variable (s : DataShard)

/-- A shard adds what the dense path would claim at the sizes the scan takes. -/
theorem scanShard_perm : (scanShard (some s.bytes)).Perm (claims DataShard.measured s) := by
  obtain ⟨q, table⟩ := s.toShard.scanTable
  have keys : (s.header.tensors.map TensorInfo.toEntry).map Entry.offset =
      s.header.tensors.map fun e => e.offset := by
    rw [List.map_map]
    rfl
  have sorted : (inOrder Entry.offset (s.header.tensors.map TensorInfo.toEntry)).Pairwise
      fun a b => a.offset < b.offset := inOrder_sorted (by rw [keys]; exact s.distinct)
  have perm : (inOrder Entry.offset (s.header.tensors.map TensorInfo.toEntry)).Perm
      (s.header.tensors.map TensorInfo.toEntry) := inOrder_perm
  have moved := perm.map Entry.offset
  rw [keys] at moved
  simp only [scanShard, table]
  rw [gaps_eq sorted, List.filterMap_map]
  have same : claims DataShard.measured s =
      (s.header.tensors.map TensorInfo.toEntry).filterMap ((fun p => p.1.streams p.2) ∘ fun e =>
        (e, following ((inOrder Entry.offset (s.header.tensors.map TensorInfo.toEntry)).map
          Entry.offset) s.bytes.length e.offset - e.offset)) := by
    rw [List.filterMap_map]
    refine List.filterMap_congr fun e _ => ?_
    simp only [Function.comp, Entry.streams_eq, following_perm moved]
    rfl
  rw [same]
  exact perm.filterMap _

end Scan

def totals (cs : List (Int × Nat)) : Nat × Nat :=
  ((cs.map Prod.snd).sum, OrderedMap.greatest (cs.map fun c => OrderedMap.sumAt cs c.1))

theorem totals_perm {cs cs' : List (Int × Nat)} (perm : cs.Perm cs') : totals cs = totals cs' := by
  have sums : ∀ k, OrderedMap.sumAt cs k = OrderedMap.sumAt cs' k := fun k =>
    ((perm.filter _).map Prod.snd).sum_nat
  have largest : OrderedMap.greatest (cs.map fun c => OrderedMap.sumAt cs c.1) =
      OrderedMap.greatest (cs'.map fun c => OrderedMap.sumAt cs' c.1) := by
    simp only [sums]
    refine eq_of_forall_ge_iff fun n => ?_
    rw [OrderedMap.greatest_le, OrderedMap.greatest_le]
    have moved := perm.map fun c => OrderedMap.sumAt cs' c.1
    exact ⟨fun all v member => all v (moved.symm.subset member), fun all v member =>
      all v (moved.subset member)⟩
  rw [totals, totals, (perm.map Prod.snd).sum_nat, largest]

theorem scanStreamable_eq (shards : List DataShard) :
    scanStreamable (shards.map fun s => some s.bytes) =
      totals (shards.flatMap (claims DataShard.measured)) := by
  have perm : ((shards.map fun s => some s.bytes).flatMap scanShard).Perm
      (shards.flatMap (claims DataShard.measured)) := by
    rw [List.flatMap_map]
    exact List.Perm.flatMap_left shards fun s _ => scanShard_perm s
  rw [← totals_perm perm, scanStreamable, totals, OrderedMap.greatest_tally]

/-! ## The last tensor of a shard -/

/-- What a tensor adds to the total when its size is `size`. -/
def claimedBytes (size : DataShard → TensorInfo → Nat) (s : DataShard) (e : TensorInfo) : Nat :=
  if e.dims.length = 2 ∧ (parseDenseAny (cName e.name) (size s e)).isSome then size s e else 0

theorem claims_sum (size : DataShard → TensorInfo → Nat) (s : DataShard) :
    ((claims size s).map Prod.snd).sum = (s.header.tensors.map (claimedBytes size s)).sum := by
  simp only [claims]
  induction s.header.tensors with
  | nil => rfl
  | cons e rest ih =>
      rw [List.filterMap_cons, List.map_cons, List.sum_cons, ← ih, claimedBytes]
      by_cases matrix : e.dims.length = 2
      · cases claimed : parseDenseAny (cName e.name) (size s e) with
        | none => simp [matrix]
        | some place => simp [matrix]
      · simp [matrix]

theorem totals_fst (size : DataShard → TensorInfo → Nat) (shards : List DataShard) :
    (totals (shards.flatMap (claims size))).1 =
      (shards.map fun s => (s.header.tensors.map (claimedBytes size s)).sum).sum := by
  simp only [totals]
  induction shards with
  | nil => rfl
  | cons s rest ih =>
      rw [List.flatMap_cons, List.map_append, List.sum_append, ih, claims_sum, List.map_cons,
        List.sum_cons]

namespace DataShard

variable {s : DataShard} {e : TensorInfo}

theorem dataStart_pos : 0 < s.dataStart := by
  have header : 0 < s.header.encode.length := by
    simp only [Header.encode, Header.front, Header.preamble, magic, List.length_append,
      List.length_cons]
    omega
  have aligned := s.aligned
  have one : 0 < (s.header.encode.length + s.header.alignment - 1) / s.header.alignment :=
    Nat.div_pos (by omega) aligned
  exact Nat.mul_pos one aligned

theorem bytes_pos : 0 < s.bytes.length := by
  simp only [Shard.bytes, Header.encode, Header.front, Header.preamble, magic, List.length_append,
    List.length_cons]
  omega

theorem measured_eq (follows : ¬s.IsLast e) : s.measured e = s.onDisk e := by
  simp only [IsLast, not_forall, Nat.not_le] at follows
  obtain ⟨e', member, larger⟩ := follows
  simp only [measured, onDisk]
  rw [following_congr (List.mem_map_of_mem (f := fun e : TensorInfo => e.offset) member) larger]

theorem IsLast.sizes (last : s.IsLast e) :
    s.measured e = s.bytes.length - e.offset ∧ s.onDisk e = s.dataLength - e.offset := by
  have greatest : ∀ k ∈ s.header.tensors.map fun e => e.offset, k ≤ e.offset := by
    intro k listed
    obtain ⟨e', member, rfl⟩ := List.mem_map.mp listed
    exact last e' member
  simp only [measured, onDisk]
  exact ⟨by rw [following_last greatest], by rw [following_last greatest]⟩

/-- The last tensor is measured with the header, which is too much. -/
theorem IsLast.larger (last : s.IsLast e) (member : e ∈ s.header.tensors) :
    s.onDisk e < s.measured e := by
  obtain ⟨measured, onDisk⟩ := last.sizes
  have inside : e.offset ≤ s.dataLength := s.inside e member
  have start := s.dataStart_pos
  have size := s.bytes_pos
  rw [measured, onDisk]
  simp only [dataLength] at inside ⊢
  omega

theorem onDisk_le (member : e ∈ s.header.tensors) : s.onDisk e ≤ s.measured e := by
  by_cases last : s.IsLast e
  · exact (last.larger member).le
  · exact (measured_eq last).symm.le

end DataShard

def DataShard.Counted (s : DataShard) (e : TensorInfo) : Prop :=
  (e.toEntry.streams (s.measured e)).isSome

/-- The total, the largest layer and the threshold are those of the tensors at
their sizes on disk. -/
def MeasuresOnDisk (shards : List DataShard) : Prop :=
  scanStreamable (shards.map fun s => some s.bytes) =
      totals (shards.flatMap (claims DataShard.onDisk)) ∧
    ∀ s ∈ shards, ∀ e ∈ s.header.tensors, s.Counted e → dnMinBytes ≤ s.onDisk e

/-- The last tensor of a shard would be claimed at the distance from its offset to
the end of the file. -/
def DataShard.EndsClaimed (s : DataShard) : Prop :=
  ∃ e ∈ s.header.tensors, s.IsLast e ∧ e.dims.length = 2 ∧
    (parseDenseAny (cName e.name) (s.bytes.length - e.offset)).isSome

theorem claimedBytes_le {s : DataShard} {e : TensorInfo} (member : e ∈ s.header.tensors) :
    claimedBytes DataShard.onDisk s e ≤ claimedBytes DataShard.measured s e := by
  have size := s.onDisk_le member
  simp only [claimedBytes]
  by_cases claimed : e.dims.length = 2 ∧ (parseDenseAny (cName e.name) (s.onDisk e)).isSome
  · obtain ⟨place, parsed⟩ := Option.isSome_iff_exists.mp claimed.2
    have parsed := parseDenseAny_iff.mp parsed
    have larger := parseDenseAny_iff.mpr ⟨parsed.1, parsed.2.trans size⟩
    rw [if_pos claimed, if_pos ⟨claimed.1, by rw [larger]; rfl⟩]
    exact size
  · rw [if_neg claimed]
    exact Nat.zero_le _

theorem overMeasured {shards : List DataShard} {s : DataShard} (member : s ∈ shards)
    (ends : s.EndsClaimed) : ¬MeasuresOnDisk shards := by
  rintro ⟨same, -⟩
  obtain ⟨e, listed, last, matrix, claimed⟩ := ends
  rw [scanStreamable_eq] at same
  have total := congrArg Prod.fst same
  rw [totals_fst, totals_fst] at total
  have more : claimedBytes DataShard.onDisk s e < claimedBytes DataShard.measured s e := by
    have larger := last.larger listed
    rw [← last.sizes.1] at claimed
    have counted : claimedBytes DataShard.measured s e = s.measured e := if_pos ⟨matrix, claimed⟩
    rw [counted, claimedBytes]
    split <;> omega
  refine absurd total (Nat.ne_of_gt ?_)
  refine List.sum_lt_sum _ _ (fun s' _ => ?_) ⟨s, member, ?_⟩
  · exact List.sum_le_sum fun e' listed' => claimedBytes_le listed'
  · exact List.sum_lt_sum _ _ (fun e' listed' => claimedBytes_le listed') ⟨e, listed, more⟩

/-- The scan is exact unless some shard ends in a tensor that is claimed. -/
theorem measuresOnDisk_iff (shards : List DataShard) :
    MeasuresOnDisk shards ↔ ∀ s ∈ shards, ¬s.EndsClaimed := by
  constructor
  · exact fun exact s member ends => overMeasured member ends exact
  · intro ends
    have same : ∀ s ∈ shards, ∀ e ∈ s.header.tensors, e.dims.length = 2 →
        s.measured e = s.onDisk e ∨ (parseDenseAny (cName e.name) (s.measured e) = none ∧
          parseDenseAny (cName e.name) (s.onDisk e) = none) := by
      intro s member e listed matrix
      by_cases last : s.IsLast e
      · have rejected : parseDenseAny (cName e.name) (s.measured e) = none := by
          rw [last.sizes.1]
          exact Option.not_isSome_iff_eq_none.mp fun claimed =>
            ends s member ⟨e, listed, last, matrix, claimed⟩
        refine Or.inr ⟨rejected, ?_⟩
        cases claimed : parseDenseAny (cName e.name) (s.onDisk e) with
        | none => rfl
        | some place =>
            have parsed := parseDenseAny_iff.mp claimed
            rw [parseDenseAny_iff.mpr ⟨parsed.1, parsed.2.trans (s.onDisk_le listed)⟩] at rejected
            cases rejected
      · exact Or.inl (DataShard.measured_eq last)
    simp only [MeasuresOnDisk]
    rw [scanStreamable_eq]
    constructor
    · have claimed : ∀ s ∈ shards, claims DataShard.measured s = claims DataShard.onDisk s := by
        intro s member
        refine List.filterMap_congr fun e listed => ?_
        by_cases matrix : e.dims.length = 2
        · rw [if_pos matrix, if_pos matrix]
          rcases same s member e listed matrix with equal | ⟨measured, onDisk⟩
          · rw [equal]
          · rw [measured, onDisk]
            rfl
        · rw [if_neg matrix, if_neg matrix]
      rw [List.flatMap_congr claimed]
    · intro s member e listed counted
      rw [DataShard.Counted, Entry.streams_eq] at counted
      by_cases matrix : e.dims.length = 2
      · rw [if_pos matrix, Option.isSome_map] at counted
        obtain ⟨place, parsed⟩ := Option.isSome_iff_exists.mp counted
        rcases same s member e listed matrix with equal | ⟨measured, -⟩
        · rw [equal] at parsed
          exact (parseDenseAny_iff.mp parsed).2
        · rw [measured] at parsed
          cases parsed
      · rw [if_neg matrix] at counted
        cases counted

/-! ## A single weight -/

def upName : Bytes := "blk.0.ffn_up.weight".toList.map fun c => UInt8.ofNat c.toNat

def upInfo : TensorInfo := .of ⟨upName, [2048, 2048], 1, 0⟩ (by decide)

def upHeader : Header := .of 3 [] [upInfo] (by decide)

theorem upHeader_length : upHeader.encode.length = 83 := by decide

section UpShard

variable (data : Bytes) (size : data.length = 13 + 2 ^ 23)

/-- A file with one weight of 8 MiB, after 83 bytes of header and 13 of padding. -/
def upShard : DataShard where
  header := upHeader
  rest := data
  fits := by
    rw [List.length_append, upHeader_length, size]
    omega
  aligned := by decide
  distinct := by decide
  inside := by
    intro e member
    rw [List.mem_singleton.mp member]
    exact Nat.zero_le _

theorem upShard_endsClaimed : (upShard data size).EndsClaimed := by
  refine ⟨upInfo, List.mem_singleton_self upInfo, ?_, rfl, ?_⟩
  · intro e member
    rw [List.mem_singleton.mp member]
  · have whole : (upShard data size).bytes.length = 96 + 2 ^ 23 := by
      have parts : (upShard data size).bytes = upHeader.encode ++ data := rfl
      rw [parts, List.length_append, upHeader_length, size]
      omega
    have named : parseDenseAny (cName upInfo.name) dnMinBytes = some (0, .up) := by decide
    have start : upInfo.offset = 0 := rfl
    have large : dnMinBytes ≤ (upShard data size).bytes.length - upInfo.offset := by
      rw [whole, start, dnMinBytes]
      omega
    rw [parseDenseAny_iff.mpr ⟨named, large⟩]
    rfl

end UpShard

theorem single_weight_overMeasured :
    ¬MeasuresOnDisk [upShard (List.replicate (13 + 2 ^ 23) 0) List.length_replicate] :=
  overMeasured (List.mem_singleton_self _) (upShard_endsClaimed _ _)

end MoeStream.Gguf
