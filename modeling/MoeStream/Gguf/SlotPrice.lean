import MoeStream.Gguf.KvInt
import MoeStream.Loader.Names

/-!
# The price of a slot

Embedding of `gguf_bytes_per_slot`: the tensor table of every shard is read
entry by entry and the expert tensors are summed.  Each way the reading can end
has its own exit in the source, and each has its own value here.
-/

set_option autoImplicit false

namespace MoeStream.Gguf

open Foundation.ByteReader
open Foundation.FixedWidth

/-! ## Entries -/

/-- The name as `c_str()` shows it. -/
def cName (name : Bytes) : List Char :=
  (name.takeWhile fun b => b != 0).map fun b => Char.ofNat b.toNat

namespace Entry

variable (e : Entry)

/-- `ne[d]`, `1` beyond the dimensions of the tensor. -/
def ne (d : Nat) : Int := i64 (e.dims.getD d 1)

def counts : Bool := (parseName (cName e.name)).isSome && decide (1 < e.ne 2)

/-- The bytes of one of its experts: `rowSize` is `ggml_row_size`. -/
def price (rowSize : Nat → Int → Nat) : Nat := rowSize e.type (e.ne 0) * e.dims.getD 1 1

def worth (rowSize : Nat → Int → Nat) : Nat := if e.counts then e.price rowSize else 0

end Entry

def readLabel : Reader (Bytes × Nat) := do
  let nl ← rdNat 8
  let _ ← check (decide (nl ≤ 2 ^ 16))
  let nm ← rd nl
  let nd ← rdNat 4
  let _ ← check (decide (nd ≤ 4))
  pure (nm, nd)

def readShape (nd : Nat) : Reader (List Nat) := collect (rdNat 8) nd

def readPlace : Reader (Nat × Nat) := do
  let ty ← rdNat 4
  let off ← rdNat 8
  pure (ty, off)

/-- The three ways one turn of the loop over the table goes on: `break`, `return
0`, and an entry with the position behind it. -/
inductive Turn where
  | broke
  | gaveUp
  | read (e : Entry) (pos : Nat)

def nextEntry (data : Bytes) (pos : Nat) : Turn :=
  match readLabel data pos with
  | none => .broke
  | some ((nm, nd), pos) =>
      match readShape nd data pos with
      | none => .gaveUp
      | some (ne, pos) =>
          match readPlace data pos with
          | none => .broke
          | some ((ty, off), pos) => .read ⟨nm, ne, ty, off⟩ pos

/-! ## The sum -/

/-- `total` and `n_exp`. -/
structure Tally where
  total : Nat := 0
  nExp : Int := 0

def Tally.add (rowSize : Nat → Int → Nat) (t : Tally) (e : Entry) : Tally :=
  if e.counts then ⟨u64 (t.total + u64 (e.price rowSize)), e.ne 2⟩ else t

/-- The loop over the table of one shard; `none` is `return 0`. -/
def priceTable (rowSize : Nat → Int → Nat) (data : Bytes) : Nat → Nat → Tally → Option Tally
  | 0, _, t => some t
  | n + 1, pos, t =>
      match nextEntry data pos with
      | .broke => some t
      | .gaveUp => none
      | .read e pos => priceTable rowSize data n pos (t.add rowSize e)

/-- One shard; `continue` adds nothing. -/
def priceShard (rowSize : Nat → Int → Nat) (file : Option Bytes) : Option Tally :=
  match file with
  | none => some {}
  | some data =>
      match skipFront skipPrice data 0 with
      | none => some {}
      | some (nTensor, pos) => priceTable rowSize data nTensor pos {}

/-- `total_all` and `n_exp_all` after one more shard. -/
def Tally.join (all t : Tally) : Tally :=
  ⟨u64 (all.total + t.total), if 0 < t.nExp then t.nExp else all.nExp⟩

def priceShards (rowSize : Nat → Int → Nat) : List (Option Bytes) → Tally → Option Tally
  | [], all => some all
  | file :: rest, all =>
      match priceShard rowSize file with
      | none => none
      | some t => priceShards rowSize rest (all.join t)

/-- `gguf_bytes_per_slot` on the files of `shard_paths`, `none` for one that does
not open. -/
def bytesPerSlot (rowSize : Nat → Int → Nat) (files : List (Option Bytes)) : Nat :=
  match priceShards rowSize files {} with
  | none => 0
  | some all => if 0 < all.nExp then all.total else 0

/-! ## One entry -/

theorem readLabel_spent : Spent readLabel := Spent.rdNat_bind (by decide) _

theorem readLabel_bounded : Bounded readLabel :=
  (Bounded.rdNat 8).bind fun _ => (Bounded.check _).bind fun _ => (Bounded.rd _).bind fun _ =>
    (Bounded.rdNat 4).bind fun _ => (Bounded.check _).bind fun _ => Bounded.pure _

theorem readPlace_bounded : Bounded readPlace :=
  (Bounded.rdNat 4).bind fun _ => (Bounded.rdNat 8).bind fun _ => Bounded.pure _

section Table

variable (e : TensorInfo) (before after : Bytes)

theorem readLabel_reads : Reads readLabel e.label (e.name, e.dims.length) := by
  have short : e.name.length < 256 ^ 8 := lt_of_le_of_lt e.short (by decide)
  have few : e.dims.length < 256 ^ 4 := lt_of_le_of_lt e.dimsFew (by decide)
  have last : Reads (do let _ ← check (decide (e.dims.length ≤ 4)); pure (e.name, e.dims.length))
      [] (e.name, e.dims.length) :=
    Reads.check_bind (decide_eq_true e.dimsFew) (Reads.pure _)
  have count := Reads.rdNat_bind (f := fun nd => (do
      let _ ← check (decide (nd ≤ 4))
      pure (e.name, nd) : Reader (Bytes × Nat))) few last
  rw [List.append_nil] at count
  refine Reads.rdNat_bind short (Reads.check_bind (decide_eq_true e.short) ?_)
  exact (Reads.rd e.name).bind count fun _ => Spent.rdNat_bind (by decide) _

theorem readShape_reads : Reads (readShape e.dims.length) e.shape e.dims := by
  have read := Reads.collect (fun d member => Reads.rdNat (e.dimsFit d member)) (Spent.rdNat 8)
  rwa [List.map_id'] at read

theorem readPlace_reads :
    Reads readPlace (toBytes 4 e.type ++ toBytes 8 e.offset) (e.type, e.offset) :=
  Reads.rdNat_bind e.typeFits ((Reads.rdNat e.offsetFits).map fun off => (e.type, off))

theorem nextEntry_whole (fits : (before ++ (e.encode ++ after)).length < 2 ^ 63) :
    nextEntry (before ++ (e.encode ++ after)) before.length =
      .read e.toEntry (before.length + e.encode.length) := by
  have shape : before ++ (e.encode ++ after) = before ++ (e.label ++ (e.shape ++
      ((toBytes 4 e.type ++ toBytes 8 e.offset) ++ after))) := by
    simp only [TensorInfo.encode, List.append_assoc]
  rw [shape] at fits ⊢
  have label := (readLabel_reads e).whole before _ fits
  have dims := (readShape_reads e).whole (before ++ e.label) _
    (by simpa only [List.append_assoc] using fits)
  have place := (readPlace_reads e).whole (before ++ e.label ++ e.shape) after
    (by simpa only [List.append_assoc] using fits)
  simp only [List.append_assoc, List.length_append] at label dims place
  simp only [nextEntry, label, List.append_assoc, dims, place, TensorInfo.encode,
    List.length_append, Nat.add_assoc]

def TensorInfo.SplitsAt (k : Nat) : Prop :=
  e.label.length ≤ k ∧ k < e.label.length + e.shape.length

instance (k : Nat) : Decidable (e.SplitsAt k) := by
  unfold TensorInfo.SplitsAt
  infer_instance

/-- A file that ends within an entry: only in the dimensions the function gives
up. -/
theorem nextEntry_cut {k : Nat} (short : k < e.encode.length)
    (fits : (before ++ e.encode).length < 2 ^ 63) :
    nextEntry (before ++ e.encode.take k) before.length =
      if e.SplitsAt k then .gaveUp else .broke := by
  have size := e.length_encode
  simp only [List.length_append, size] at fits short
  have label : ∀ after, (before ++ (e.label ++ after)).length < 2 ^ 63 →
      readLabel (before ++ (e.label ++ after)) before.length =
        some ((e.name, e.dims.length), before.length + e.label.length) :=
    (readLabel_reads e).whole before
  by_cases inLabel : k < e.label.length
  · -- the name or the number of dimensions is incomplete
    have part : e.encode.take k = e.label.take k := List.take_append_of_le_length inLabel.le
    have lost := (readLabel_reads e).take_none readLabel_bounded before inLabel
      (by rw [List.length_append]; omega)
    rw [part, nextEntry, lost, if_neg fun split => absurd split.1 (by omega)]
  · obtain ⟨j, rfl⟩ := Nat.exists_eq_add_of_le (not_lt.mp inLabel)
    by_cases inShape : j < e.shape.length
    · have part : e.encode.take (e.label.length + j) = e.label ++ e.shape.take j := by
        rw [TensorInfo.encode, List.take_length_add_append,
          List.take_append_of_le_length inShape.le]
      have found := label (e.shape.take j)
        (by simp only [List.length_append, List.length_take]; omega)
      have lost := (readShape_reads e).take_none ((Bounded.rdNat 8).collect _)
        (before ++ e.label) inShape (by simp only [List.length_append]; omega)
      rw [List.append_assoc, List.length_append] at lost
      rw [part, nextEntry, found]
      simp only [lost]
      rw [if_pos ⟨by omega, by omega⟩]
    · obtain ⟨i, rfl⟩ := Nat.exists_eq_add_of_le (not_lt.mp inShape)
      have part : e.encode.take (e.label.length + (e.shape.length + i)) = e.label ++ (e.shape ++
          (toBytes 4 e.type ++ toBytes 8 e.offset).take i) := by
        rw [TensorInfo.encode, List.take_length_add_append, List.take_length_add_append]
      have place : (toBytes 4 e.type ++ toBytes 8 e.offset).length = 12 := by
        rw [List.length_append, length_toBytes, length_toBytes]
      have found := label (e.shape ++ (toBytes 4 e.type ++ toBytes 8 e.offset).take i)
        (by simp only [List.length_append, List.length_take, place]; omega)
      have dims := (readShape_reads e).whole (before ++ e.label)
        ((toBytes 4 e.type ++ toBytes 8 e.offset).take i)
        (by simp only [List.length_append, List.length_take, place]; omega)
      have lost := (readPlace_reads e).take_none readPlace_bounded (before ++ e.label ++ e.shape)
        (k := i) (by omega) (by simp only [List.length_append, place]; omega)
      simp only [List.append_assoc, List.length_append] at dims lost
      rw [← Nat.add_assoc] at lost
      rw [part, nextEntry, found]
      simp only [dims, lost]
      rw [if_neg fun split => absurd split.2 (by omega)]

end Table

/-! ## One table -/

/-- The entries that lie in the first `k` bytes of a table. -/
def wholeEntries : List TensorInfo → Nat → List TensorInfo
  | [], _ => []
  | e :: rest, k =>
      if e.encode.length ≤ k then e :: wholeEntries rest (k - e.encode.length) else []

/-- The first `k` bytes of a table end within the dimensions of an entry. -/
def SplitsShape : List TensorInfo → Nat → Prop
  | [], _ => False
  | e :: rest, k =>
      if e.encode.length ≤ k then SplitsShape rest (k - e.encode.length) else e.SplitsAt k

theorem wholeEntries_all {es : List TensorInfo} {k : Nat}
    (whole : (es.flatMap TensorInfo.encode).length ≤ k) :
    wholeEntries es k = es ∧ ¬SplitsShape es k := by
  induction es generalizing k with
  | nil => exact ⟨rfl, id⟩
  | cons e rest ih =>
      rw [List.flatMap_cons, List.length_append] at whole
      obtain ⟨all, never⟩ := ih (k := k - e.encode.length) (by omega)
      have fits : e.encode.length ≤ k := by omega
      rw [wholeEntries, SplitsShape, if_pos fits, if_pos fits, all]
      exact ⟨rfl, never⟩

/-- The tally stands for `sum`. -/
structure Tally.Stands (t : Tally) (sum : Nat) : Prop where
  total : t.total = u64 sum
  known : 0 ≤ t.nExp
  nothing : t.nExp = 0 → sum = 0

section Sum

variable (rowSize : Nat → Int → Nat) {t : Tally} {sum : Nat}

theorem Tally.Stands.add (stands : t.Stands sum) (e : Entry) :
    (t.add rowSize e).Stands (sum + e.worth rowSize) := by
  simp only [Tally.add, Entry.worth]
  split
  · rename_i counted
    have several : 1 < e.ne 2 := of_decide_eq_true (Bool.and_eq_true_iff.mp counted).2
    refine ⟨?_, ?_, fun none => ?_⟩
    · dsimp only
      rw [stands.total, u64_add_u64, u64_add]
    · dsimp only
      omega
    · dsimp only at none
      omega
  · exact stands

theorem Tally.Stands.join {all : Tally} {others : Nat} (left : all.Stands others)
    (right : t.Stands sum) : (all.join t).Stands (others + sum) := by
  have known := left.known
  have known' := right.known
  refine ⟨?_, ?_, ?_⟩
  · simp only [Tally.join]
    rw [left.total, right.total, u64_add_u64, u64_add]
  · simp only [Tally.join]
    split <;> omega
  · simp only [Tally.join]
    split
    · omega
    · intro none
      rw [left.nothing none, right.nothing (by omega)]

def worths (es : List TensorInfo) : Nat :=
  (es.map fun e => e.toEntry.worth rowSize).sum

/-- The loop over a table of which the file has the first `k` bytes. -/
theorem priceTable_run (es : List TensorInfo) (before rest : Bytes) (k : Nat)
    (stands : t.Stands sum)
    (fits : (before ++ (es.flatMap TensorInfo.encode ++ rest)).length < 2 ^ 63) :
    (SplitsShape es k ∧ priceTable rowSize
      (before ++ (es.flatMap TensorInfo.encode ++ rest).take k) es.length before.length t = none) ∨
    (¬SplitsShape es k ∧ ∃ t', priceTable rowSize
      (before ++ (es.flatMap TensorInfo.encode ++ rest).take k) es.length before.length t =
        some t' ∧ t'.Stands (sum + worths rowSize (wholeEntries es k))) := by
  induction es generalizing before k t sum with
  | nil => exact Or.inr ⟨id, t, rfl, stands⟩
  | cons e es ih =>
      rw [List.flatMap_cons, List.append_assoc] at fits ⊢
      rw [List.length_cons, priceTable, SplitsShape, wholeEntries]
      by_cases whole : e.encode.length ≤ k
      · obtain ⟨j, rfl⟩ := Nat.exists_eq_add_of_le whole
        rw [if_pos whole, if_pos whole, List.take_length_add_append, Nat.add_sub_cancel_left]
        have turn := nextEntry_whole e before ((es.flatMap TensorInfo.encode ++ rest).take j) (by
          simp only [List.length_append, List.length_take] at fits ⊢
          omega)
        have later := ih (before ++ e.encode) j (stands.add rowSize e.toEntry)
          (by simpa only [List.append_assoc] using fits)
        rw [List.append_assoc, List.length_append, Nat.add_assoc] at later
        rw [turn]
        exact later
      · have short : k < e.encode.length := not_le.mp whole
        rw [if_neg whole, if_neg whole, List.take_append_of_le_length short.le]
        have turn := nextEntry_cut e before short (by
          simp only [List.length_append] at fits ⊢
          omega)
        by_cases split : e.SplitsAt k
        · rw [if_pos split] at turn
          rw [turn]
          exact Or.inl ⟨split, rfl⟩
        · rw [if_neg split] at turn
          rw [turn]
          exact Or.inr ⟨split, t, rfl, stands⟩

theorem priceTable_spent {data : Bytes} {pos : Nat} (behind : data.length < pos) (n : Nat) :
    priceTable rowSize data n pos t = some t := by
  cases n with
  | zero => rfl
  | succ n =>
      have none : readLabel data pos = none := by
        have short : rd 8 data pos = none := if_neg (by omega)
        rw [readLabel, bind_apply, rdNat, bind_apply, short]
        rfl
      rw [priceTable, nextEntry, none]

end Sum

/-! ## One shard -/

/-- A file of `shard_paths`: it does not open, it is of another kind, or it is a
shard of which the first `kept` bytes are there. -/
inductive ShardFile where
  | missing
  | foreign (bytes : Bytes) (other : bytes.take 4 ≠ magic)
  | gguf (s : Shard) (kept : Nat)

namespace ShardFile

def bytes : ShardFile → Option Bytes
  | missing => none
  | foreign bytes _ => some bytes
  | gguf s kept => some (s.bytes.take kept)

def Complete : ShardFile → Prop
  | gguf s kept => s.header.encode.length ≤ kept
  | _ => False

def EndsInShape : ShardFile → Prop
  | gguf s kept => SplitsShape s.header.tensors (kept - s.header.front.length)
  | _ => False

def tensors : ShardFile → List TensorInfo
  | gguf s _ => s.header.tensors
  | _ => []

def entries : ShardFile → List TensorInfo
  | gguf s kept => wholeEntries s.header.tensors (kept - s.header.front.length)
  | _ => []

end ShardFile

theorem start_stands : Tally.Stands {} 0 := ⟨rfl, le_refl 0, fun _ => rfl⟩

section Shards

variable (rowSize : Nat → Int → Nat)

theorem noEntries (es : List TensorInfo) : wholeEntries es 0 = [] ∧ ¬SplitsShape es 0 := by
  cases es with
  | nil => exact ⟨rfl, id⟩
  | cons e rest =>
      have size := e.length_encode
      have label := e.length_label
      rw [wholeEntries, SplitsShape, if_neg (by omega), if_neg (by omega)]
      exact ⟨rfl, fun split => absurd split.1 (by omega)⟩

theorem priceShard_run (f : ShardFile) :
    (f.EndsInShape ∧ priceShard rowSize f.bytes = none) ∨
      (¬f.EndsInShape ∧ ∃ t, priceShard rowSize f.bytes = some t ∧
        t.Stands (worths rowSize f.entries)) := by
  cases f with
  | missing => exact Or.inr ⟨id, {}, rfl, start_stands⟩
  | foreign bytes other =>
      refine Or.inr ⟨id, {}, ?_, start_stands⟩
      have none : skipFront skipPrice bytes 0 = none := by
        rw [skipFront, bind_apply, readPreamble, bind_apply]
        cases first : rd 4 bytes 0 with
        | none => rfl
        | some p =>
            have start : p.1 = bytes.take 4 := by
              simp only [rd] at first
              split at first
              · cases first
                rfl
              · cases first
            have differs : (p.1 == magic) = false := by
              rw [start]
              exact beq_eq_false_iff_ne.mpr other
            rw [Option.bind_some, bind_apply, differs]
            rfl
      simp only [priceShard, ShardFile.bytes, none]
  | gguf s kept =>
      have fits : (s.header.front ++ (s.header.table ++ s.rest)).length < 2 ^ 63 := by
        have all := s.fits
        rwa [Header.encode, List.append_assoc] at all
      have bytes : s.bytes = s.header.front ++ (s.header.table ++ s.rest) := by
        rw [Shard.bytes, Header.encode, List.append_assoc]
      have small : s.header.front.length < 2 ^ 63 := by
        rw [List.length_append] at fits
        omega
      have front := skipPrice_skips.front small
      simp only [ShardFile.EndsInShape, ShardFile.entries, ShardFile.bytes, priceShard, bytes]
      by_cases whole : s.header.front.length ≤ kept
      · obtain ⟨k, rfl⟩ := Nat.exists_eq_add_of_le whole
        have read := front.whole [] ((s.header.table ++ s.rest).take k) (by
          simp only [List.nil_append, List.length_append, List.length_take] at fits ⊢
          omega)
        rw [List.nil_append, List.length_nil, Nat.zero_add] at read
        have table := priceTable_run rowSize s.header.tensors s.header.front s.rest k start_stands
          fits
        rw [Nat.zero_add] at table
        rw [List.take_length_add_append, Nat.add_sub_cancel_left]
        simp only [read]
        exact table
      · -- the table was never reached, or only from behind the end of the file
        have short : kept < s.header.front.length := not_le.mp whole
        obtain ⟨nothing, never⟩ := noEntries s.header.tensors
        rw [Nat.sub_eq_zero_of_le short.le, nothing, List.take_append_of_le_length short.le]
        refine Or.inr ⟨never, {}, ?_, start_stands⟩
        have lost := front.cut [] (s.header.front.take kept) (List.take_prefix _ _)
          (by rw [List.length_take]; omega) (by rwa [List.nil_append])
        rw [List.nil_append, List.length_nil] at lost
        cases read : skipFront skipPrice (s.header.front.take kept) 0 with
        | none => rfl
        | some p => exact priceTable_spent rowSize (lost p.1 p.2 read) p.1

/-- The sum over the entries that are there, unless a file ends within
dimensions. -/
theorem priceShards_run (files : List ShardFile) {all : Tally} {sum : Nat}
    (stands : all.Stands sum) :
    ((∃ f ∈ files, f.EndsInShape) ∧ priceShards rowSize (files.map ShardFile.bytes) all = none) ∨
      ((¬∃ f ∈ files, f.EndsInShape) ∧ ∃ t,
        priceShards rowSize (files.map ShardFile.bytes) all = some t ∧
          t.Stands (sum + (files.map fun f => worths rowSize f.entries).sum)) := by
  induction files generalizing all sum with
  | nil => exact Or.inr ⟨by simp, all, rfl, stands⟩
  | cons f rest ih =>
      simp only [List.map_cons, List.sum_cons, List.exists_mem_cons_iff, priceShards]
      rcases priceShard_run rowSize f with ⟨ends, run⟩ | ⟨goes, t, run, own⟩
      · rw [run]
        exact Or.inl ⟨Or.inl ends, rfl⟩
      · rw [run]
        rcases ih (stands.join own) with ⟨ends, later⟩ | ⟨go, t', later, sums⟩
        · exact Or.inl ⟨Or.inr ends, later⟩
        · rw [Nat.add_assoc] at sums
          exact Or.inr ⟨fun ends => ends.elim goes go, t', later, sums⟩

/-- The sum over the entries that are there, or `0` when a file ends within
dimensions. -/
theorem bytesPerSlot_eq (files : List ShardFile) :
    ((∃ f ∈ files, f.EndsInShape) ∧ bytesPerSlot rowSize (files.map ShardFile.bytes) = 0) ∨
      ((¬∃ f ∈ files, f.EndsInShape) ∧ bytesPerSlot rowSize (files.map ShardFile.bytes) =
        u64 ((files.map fun f => worths rowSize f.entries).sum)) := by
  simp only [bytesPerSlot]
  rcases priceShards_run rowSize files start_stands with ⟨ends, run⟩ | ⟨go, t, run, sums⟩
  · rw [run]
    exact Or.inl ⟨ends, rfl⟩
  · rw [run]
    refine Or.inr ⟨go, ?_⟩
    rw [Nat.zero_add] at sums
    dsimp only
    split
    · exact sums.total
    · have known := sums.known
      rw [sums.nothing (by omega)]
      rfl

/-! ## Complete shards -/

theorem ShardFile.Complete.entries {f : ShardFile} (complete : f.Complete) :
    f.entries = f.tensors ∧ ¬f.EndsInShape := by
  cases f with
  | missing => exact complete.elim
  | foreign bytes other => exact complete.elim
  | gguf s kept =>
      have complete : s.header.encode.length ≤ kept := complete
      rw [Header.encode, List.length_append] at complete
      have table : (s.header.tensors.flatMap TensorInfo.encode).length ≤
          kept - s.header.front.length := by
        have same : s.header.table.length =
          (s.header.tensors.flatMap TensorInfo.encode).length := rfl
        omega
      exact wholeEntries_all table

theorem bytesPerSlot_complete {files : List ShardFile} (complete : ∀ f ∈ files, f.Complete) :
    bytesPerSlot rowSize (files.map ShardFile.bytes) =
      u64 ((files.map fun f => worths rowSize f.tensors).sum) := by
  rcases bytesPerSlot_eq rowSize files with ⟨⟨f, member, ends⟩, -⟩ | ⟨-, sum⟩
  · exact absurd ends (complete f member).entries.2
  · rw [sum]
    congr 2
    exact List.map_congr_left fun f member => by rw [(complete f member).entries.1]

/-- A routine that gets past every value by exactly its length, wherever the
value stands. -/
def GetsPast (skip : Nat → Reader Int) : Prop :=
  ∀ t bytes before after, Encodes t bytes → (before ++ (bytes ++ after)).length < 2 ^ 63 →
    ∃ v, skip t.code (before ++ (bytes ++ after)) before.length =
      some (v, before.length + bytes.length)

theorem Skips.getsPast {skip : Nat → Reader Int} {value : ValueType → Bytes → Int}
    (skips : Skips skip value) : GetsPast skip := by
  intro t bytes before after encodes fits
  have small : bytes.length < 2 ^ 63 := by
    simp only [List.length_append] at fits
    omega
  exact ⟨_, (skips.reads t bytes encodes small).whole before after fits⟩

theorem Skips.tableStart {skip : Nat → Reader Int} {value : ValueType → Bytes → Int}
    (skips : Skips skip value) (s : Shard) :
    skipFront skip s.bytes 0 = some (s.header.tensors.length, s.header.front.length) := by
  have fits := s.fits
  rw [Header.encode, List.append_assoc] at fits
  have small : s.header.front.length < 2 ^ 63 := by
    rw [List.length_append] at fits
    omega
  have read := (skips.front small).whole [] (s.header.table ++ s.rest) fits
  rw [List.nil_append, List.length_nil, Nat.zero_add] at read
  rw [Shard.bytes, Header.encode, List.append_assoc]
  exact read

/-- The three readers on shards with complete headers: each gets past every value
by its length, they agree where the tensor table starts, the metadata reader
finds the first integer asked for and the price is the sum over all shards. -/
theorem readers_exact (shards : List Shard) (suffix : Bytes) :
    (GetsPast skipInt ∧ GetsPast skipScan ∧ GetsPast skipPrice) ∧
      (∀ s ∈ shards,
        skipFront skipScan s.bytes 0 = some (s.header.tensors.length, s.header.front.length) ∧
        skipFront skipPrice s.bytes 0 = some (s.header.tensors.length, s.header.front.length) ∧
        (lookup suffix s.header.pairs = none →
          readKvInt suffix s.bytes 0 = some (0, s.header.front.length))) ∧
      kvInt (shards.map fun s => some s.bytes) suffix =
        (shards.head?.bind fun s => lookup suffix s.header.pairs).getD 0 ∧
      bytesPerSlot rowSize (shards.map fun s => some s.bytes) =
        u64 ((shards.map fun s => worths rowSize s.header.tensors).sum) := by
  refine ⟨⟨skipInt_skips.getsPast, skipScan_skips.getsPast, skipPrice_skips.getsPast⟩, ?_, ?_, ?_⟩
  · intro s _
    refine ⟨skipScan_skips.tableStart s, skipPrice_skips.tableStart s, fun none => ?_⟩
    obtain ⟨q, run, stop⟩ := s.readKvInt suffix
    rw [run, none, stop none]
    rfl
  · cases shards with
    | nil => rfl
    | cons s rest =>
        rw [List.map_cons, kvInt_eq]
        rfl
  · have whole : ∀ s : Shard, (ShardFile.gguf s s.bytes.length).bytes = some s.bytes := by
      intro s
      rw [ShardFile.bytes, List.take_length]
    have complete : ∀ f ∈ shards.map fun s => ShardFile.gguf s s.bytes.length, f.Complete := by
      intro f member
      obtain ⟨s, -, rfl⟩ := List.mem_map.mp member
      have longer : s.header.encode.length ≤ s.bytes.length := by
        rw [Shard.bytes, List.length_append]
        omega
      exact longer
    have sum := bytesPerSlot_complete rowSize complete
    rw [List.map_map, List.map_map] at sum
    rw [← List.map_congr_left fun s _ => whole s]
    exact sum

/-! ## Incomplete shards -/

/-- The exact sum of all shards, or `0` when one of them cannot be read to the
end of its table. -/
def ExactOrAbsent (files : List ShardFile) : Prop :=
  ((∀ f ∈ files, f.Complete) → bytesPerSlot rowSize (files.map ShardFile.bytes) =
    u64 ((files.map fun f => worths rowSize f.tensors).sum)) ∧
  ((¬∀ f ∈ files, f.Complete) → bytesPerSlot rowSize (files.map ShardFile.bytes) = 0)

/-- A shard that ends anywhere but in the dimensions of a tensor leaves the sum of
what was read before. -/
theorem exactOrAbsent_iff (files : List ShardFile) :
    ExactOrAbsent rowSize files ↔
      (∀ f ∈ files, f.Complete) ∨ (∃ f ∈ files, f.EndsInShape) ∨
        u64 ((files.map fun f => worths rowSize f.entries).sum) = 0 := by
  simp only [ExactOrAbsent]
  by_cases complete : ∀ f ∈ files, f.Complete
  · exact iff_of_true ⟨fun _ => bytesPerSlot_complete rowSize complete,
      fun cut => absurd complete cut⟩ (Or.inl complete)
  · simp only [complete, false_implies, not_false_eq_true, true_implies, true_and, false_or]
    rcases bytesPerSlot_eq rowSize files with ⟨ends, zero⟩ | ⟨go, sum⟩
    · exact iff_of_true zero (Or.inl ends)
    · rw [sum]
      simp only [go, false_or]

end Shards

/-! ## A missing shard -/

def gateName : Bytes := "blk.0.ffn_gate_exps.weight".toList.map fun c => UInt8.ofNat c.toNat

def gateInfo : TensorInfo := .of ⟨gateName, [32, 1, 2], 0, 0⟩ (by decide)

def gateShard : Shard where
  header := .of 3 [] [gateInfo] (by decide)
  rest := []
  fits := by decide

theorem gateInfo_worth : gateInfo.toEntry.worth (fun _ ne => 4 * ne.toNat) = 128 := by
  have several : gateInfo.toEntry.ne 2 = 2 := i64_eq (n := 2) (by decide)
  have row : gateInfo.toEntry.ne 0 = 32 := i64_eq (n := 32) (by decide)
  have named : (parseName (cName gateInfo.name)).isSome = true := by decide
  have counted : gateInfo.toEntry.counts = true := by
    rw [Entry.counts, several, named]
    rfl
  rw [Entry.worth, if_pos counted, Entry.price, row]
  rfl

/-- The first of two shards is there, the second is not. -/
theorem missing_shard :
    ¬ExactOrAbsent (fun _ ne => 4 * ne.toNat) [.gguf gateShard 1000, .missing] := by
  intro exact
  have absent := exact.2 fun all => all .missing (by simp)
  have first : (ShardFile.gguf gateShard 1000).Complete := by
    change gateShard.header.encode.length ≤ 1000
    decide
  rcases bytesPerSlot_eq (fun _ ne => 4 * ne.toNat) [.gguf gateShard 1000, .missing] with
    ⟨⟨f, member, ends⟩, -⟩ | ⟨-, sum⟩
  · simp only [List.mem_cons, List.not_mem_nil, or_false] at member
    rcases member with rfl | rfl
    · exact first.entries.2 ends
    · exact ends
  · have left :
        worths (fun _ ne => 4 * ne.toNat) (ShardFile.gguf gateShard 1000).entries = 128 := by
      rw [first.entries.1]
      exact gateInfo_worth
    have none : worths (fun _ ne => 4 * ne.toNat) ShardFile.missing.entries = 0 := rfl
    rw [absent] at sum
    simp only [List.map_cons, List.map_nil, List.sum_cons, List.sum_nil, left, none] at sum
    rw [u64_eq (by decide)] at sum
    cases sum

end MoeStream.Gguf
