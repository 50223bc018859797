import MoeStream.Trace.Capture

/-!
# Reading an expert trace back

Both readers take the file for records of one size, `n_moe * top_k` ids and as
many weights for every token.  The capture tool writes no record for a layer
whose routing tensor did not cover the token, so they read back what was
captured exactly if there was no such layer.
-/

set_option autoImplicit false

namespace MoeStream.ExpertTrace

open Foundation Foundation.ByteReader Foundation.Parts

/-! ## The words of a file -/

theorem words_putWords {ws : List Nat} (small : ∀ x ∈ ws, x < 2 ^ 16) :
    words (putWords ws) = ws := by
  induction ws with
  | nil => rfl
  | cons x rest ih =>
      obtain ⟨first, others⟩ := List.forall_mem_cons.mp small
      have code : ofBytes (toBytes 2 x) = x := ofBytes_toBytes first
      have step : words (toBytes 2 x ++ putWords rest) =
          ofBytes (toBytes 2 x) :: words (putWords rest) := rfl
      rw [putWords, List.flatMap_cons, ← putWords, step, code, ih others]

@[simp] theorem length_putWords (ws : List Nat) : (putWords ws).length = 2 * ws.length := by
  induction ws with
  | nil => rfl
  | cons x rest ih =>
      rw [putWords, List.flatMap_cons, ← putWords, List.length_append, length_toBytes, ih,
        List.length_cons]
      omega

structure FileOf (header : List Nat) (ws : List Nat) (file : Bytes) : Prop where
  eq : file = header.flatMap (toBytes 4) ++ putWords ws
  eight : header.length = 8
  small : ∀ x ∈ ws, x < 2 ^ 16

section Files

variable {header ws : List Nat} {file : Bytes} (fileOf : FileOf header ws file)

theorem length_header (header : List Nat) :
    (header.flatMap (toBytes 4)).length = 4 * header.length := by
  induction header with
  | nil => rfl
  | cons h rest ih =>
      rw [List.flatMap_cons, List.length_append, length_toBytes, ih, List.length_cons]
      omega

include fileOf

theorem FileOf.length : file.length = 32 + 2 * ws.length := by
  rw [fileOf.eq, List.length_append, length_header, fileOf.eight, length_putWords]

theorem FileOf.words : words (file.drop 32) = ws := by
  rw [fileOf.eq, List.drop_left' (by rw [length_header, fileOf.eight]), words_putWords fileOf.small]

theorem FileOf.headerWord {i : Nat} {h : Nat} (entry : header[i]? = some h) (small : h < 2 ^ 32) :
    headerWord file i = h := by
  have uniform : ∀ b ∈ header.map (toBytes 4), b.length = 4 := by
    intro b member
    obtain ⟨x, -, rfl⟩ := List.mem_map.mp member
    exact length_toBytes 4 x
  have inside : i < 8 := by
    rw [← fileOf.eight]
    exact (List.getElem?_eq_some_iff.mp entry).1
  have here : part 4 i file = toBytes 4 h := by
    have inHeader : part 4 i file = part 4 i (header.flatMap (toBytes 4)) := by
      have length := length_header header
      rw [fileOf.eight] at length
      rw [part, part, fileOf.eq, List.drop_append_of_le_length (by omega),
        List.take_append_of_le_length (by rw [List.length_drop]; omega)]
    rw [inHeader, List.flatMap_def, part_flatten uniform, List.getElem?_map, entry]
    rfl
  rw [ExpertTrace.headerWord, here, ofBytes_toBytes small]

end Files

/-! ## The ids of the tokens read -/

/-- The ids of the first `count` tokens: of the two parts of each layer of a
token the one of the ids. -/
def idsOf (nMoe topK count half : Nat) (ws : List Nat) : List Nat :=
  (List.range count).flatMap fun g =>
    (List.range nMoe).flatMap fun l => part topK ((g * nMoe + l) * 2 + half) ws

theorem map_getD_part {topK i : Nat} {ws : List Nat} (inside : i * topK + topK ≤ ws.length) :
    ((List.range topK).map fun k => ws.getD (i * topK + k) 0) = part topK i ws := by
  apply List.ext_getElem?
  intro k
  by_cases small : k < topK
  · rw [getElem?_part small, List.getElem?_map, List.getElem?_range small]
    have there : i * topK + k < ws.length := by omega
    simp [List.getD_eq_getElem?_getD, List.getElem?_eq_getElem there]
  · rw [List.getElem?_eq_none (by simp; omega), List.getElem?_eq_none]
    exact Nat.le_trans (part_length_le ws topK i) (not_lt.mp small)

theorem tokenIds_eq {nMoe topK : Nat} {ws : List Nat} (long : nMoe * topK * 2 ≤ ws.length) :
    ((List.range nMoe).flatMap fun l =>
        (List.range topK).map fun k => ws.getD (l * topK * 2 + k) 0) =
      (List.range nMoe).flatMap fun l => part topK (l * 2) ws := by
  rw [List.flatMap_def, List.flatMap_def]
  congr 1
  apply List.map_congr_left
  intro l inside
  rw [List.mem_range] at inside
  have within : l * 2 * topK + topK ≤ ws.length :=
    calc l * 2 * topK + topK = (l * 2 + 1) * topK := by ring
      _ ≤ nMoe * 2 * topK := Nat.mul_le_mul_right topK (by omega)
      _ = nMoe * topK * 2 := by ring
      _ ≤ ws.length := long
  rw [← map_getD_part within, Nat.mul_right_comm]

theorem idsOf_succ (nMoe topK count half : Nat) (ws : List Nat) :
    idsOf nMoe topK (count + 1) half ws =
      ((List.range nMoe).flatMap fun l => part topK (l * 2 + half) ws) ++
        idsOf nMoe topK count half (ws.drop (nMoe * topK * 2)) := by
  have shift : ∀ i, part topK i (ws.drop (nMoe * topK * 2)) = part topK (nMoe * 2 + i) ws := by
    intro i
    rw [← part_drop, Nat.mul_right_comm]
  rw [idsOf, idsOf, List.range_succ_eq_map, List.flatMap_cons, List.flatMap_map]
  congr 1
  · simp
  · simp only [shift]
    congr 1
    funext g
    congr 1
    funext l
    congr 1
    rw [Nat.succ_mul]
    omega

theorem readTokens_eq {nMoe topK : Nat} (n : Nat) (ws : List Nat) (wide : 0 < nMoe * topK) :
    readTokens nMoe topK n ws =
      idsOf nMoe topK (min n (ws.length / (nMoe * topK * 2))) 0 ws := by
  induction n generalizing ws with
  | zero => simp [readTokens, idsOf]
  | succ n ih =>
      rw [readTokens]
      by_cases short : ws.length < nMoe * topK * 2
      · rw [if_pos short, Nat.div_eq_of_lt short]
        rfl
      · rw [not_lt] at short
        rw [if_neg (not_lt.mpr short), Nat.div_eq_sub_div (by omega) short, Nat.add_min_add_right,
          idsOf_succ, tokenIds_eq short, ih, List.length_drop]
        rfl

section Rows

variable {nMoe topK count half : Nat} {ws : List Nat}
  (enough : count * (nMoe * topK * 2) ≤ ws.length) (parts : half < 2)

include enough parts

theorem length_rowPart {g l : Nat} (token : g < count) (layer : l < nMoe) :
    (part topK ((g * nMoe + l) * 2 + half) ws).length = topK := by
  have within : ((g * nMoe + l) * 2 + half) * topK + topK ≤ ws.length :=
    calc ((g * nMoe + l) * 2 + half) * topK + topK = ((g * nMoe + l) * 2 + half + 1) * topK := by
          ring
      _ ≤ (count * nMoe * 2) * topK := by
          apply Nat.mul_le_mul_right
          have last : (g + 1) * nMoe ≤ count * nMoe := Nat.mul_le_mul_right nMoe token
          rw [Nat.succ_mul] at last
          omega
      _ = count * (nMoe * topK * 2) := by ring
      _ ≤ ws.length := enough
  rw [part, List.length_take, List.length_drop]
  omega

theorem idsOf_uniform : ∀ row ∈ (((List.range count).map fun g => (List.range nMoe).map fun l =>
    part topK ((g * nMoe + l) * 2 + half) ws).flatten), row.length = topK := by
  intro row member
  obtain ⟨rows, inTokens, listed⟩ := List.mem_flatten.mp member
  obtain ⟨g, token, rfl⟩ := List.mem_map.mp inTokens
  obtain ⟨l, layer, rfl⟩ := List.mem_map.mp listed
  exact length_rowPart enough parts (List.mem_range.mp token) (List.mem_range.mp layer)

omit enough parts in
theorem idsOf_flatten : idsOf nMoe topK count half ws =
    (((List.range count).map fun g => (List.range nMoe).map fun l =>
      part topK ((g * nMoe + l) * 2 + half) ws).flatten).flatten := by
  simp [idsOf, List.flatMap_def, List.flatten_flatten, Function.comp_def]

omit enough parts in
theorem length_tokenRows : ∀ rows ∈ (List.range count).map fun g => (List.range nMoe).map fun l =>
    part topK ((g * nMoe + l) * 2 + half) ws, rows.length = nMoe := by
  intro rows member
  obtain ⟨g, -, rfl⟩ := List.mem_map.mp member
  simp

theorem length_idsOf : (idsOf nMoe topK count half ws).length = count * (nMoe * topK) := by
  rw [idsOf_flatten, length_flatten_of_uniform (idsOf_uniform enough parts),
    length_flatten_of_uniform length_tokenRows, List.length_map, List.length_range, Nat.mul_assoc]

/-- The ids of layer `l` of token `g` stand where the file has them. -/
theorem part_idsOf {g l : Nat} (token : g < count) (layer : l < nMoe) :
    part topK (g * nMoe + l) (idsOf nMoe topK count half ws) =
      part topK ((g * nMoe + l) * 2 + half) ws := by
  rw [idsOf_flatten, part_flatten (idsOf_uniform enough parts), ← getElem?_part layer,
    part_flatten length_tokenRows]
  simp [token, layer]

end Rows

/-! ## The two readers -/

section Readers

variable {nMoe topK nLayer N : Nat} {ws : List Nat} {file : Bytes}
  (fileOf : FileOf [magic, 1, nMoe, 0, topK, N % 2 ^ 32, N / 2 ^ 32, nLayer] ws file)
  (layers : nMoe < 2 ^ 32) (width : topK < 2 ^ 32) (tokens : N < 2 ^ 64)

include fileOf

theorem headerTokens_eq (tokens : N < 2 ^ 64) : headerTokens file = N := by
  have low : N % 2 ^ 32 < 2 ^ 32 := Nat.mod_lt N (by norm_num)
  have high : N / 2 ^ 32 < 2 ^ 32 := Nat.div_lt_of_lt_mul (by norm_num; omega)
  have fifth : headerWord file 5 = N % 2 ^ 32 := fileOf.headerWord rfl low
  have sixth : headerWord file 6 = N / 2 ^ 32 := fileOf.headerWord rfl high
  rw [headerTokens, fifth, sixth,
    Nat.or_comm, ← Nat.shiftLeft_add_eq_or_of_lt low, Nat.shiftLeft_eq, Nat.mul_comm]
  exact Nat.div_add_mod N (2 ^ 32)

include layers width

theorem header_numbers :
    headerWord file 0 = magic ∧ headerWord file 2 = nMoe ∧ headerWord file 4 = topK :=
  ⟨fileOf.headerWord rfl (by decide), fileOf.headerWord rfl layers, fileOf.headerWord rfl width⟩

theorem readers_none (empty : nMoe * topK = 0) : loadTrace file = none ∧ load file = none := by
  obtain ⟨first, second, third⟩ := header_numbers fileOf layers width
  have long : ¬ file.length < 32 := by
    rw [fileOf.length]
    omega
  constructor
  · simp [loadTrace, long, first, second, third, empty]
  · simp [load, long, first, second, third, empty]

/-- A reader's trace of the first `count` tokens. -/
def traceOf (nMoe topK count : Nat) (ws : List Nat) : Trace :=
  { nMoe, topK, nToken := count, ids := idsOf nMoe topK count 0 ws }

include tokens

theorem loadTrace_eq (wide : 0 < nMoe * topK) :
    loadTrace file =
      if 0 < min N (ws.length / (nMoe * topK * 2)) then
        some (traceOf nMoe topK (min N (ws.length / (nMoe * topK * 2))) ws)
      else none := by
  obtain ⟨first, second, third⟩ := header_numbers fileOf layers width
  have long : ¬ file.length < 32 := by
    rw [fileOf.length]
    omega
  have enough : min N (ws.length / (nMoe * topK * 2)) * (nMoe * topK * 2) ≤ ws.length :=
    Nat.le_trans (Nat.mul_le_mul_right _ (Nat.min_le_right _ _)) (Nat.div_mul_le_self _ _)
  rw [loadTrace, if_neg long, first, second, third, headerTokens_eq fileOf tokens, fileOf.words]
  simp only [ne_eq, not_true_eq_false, if_false, if_neg (Nat.ne_of_gt wide)]
  rw [readTokens_eq _ _ wide, length_idsOf enough (by decide), Nat.mul_div_cancel _ wide]
  rfl

omit tokens in
theorem load_eq (wide : 0 < nMoe * topK) :
    ∃ loaded, load file = some loaded ∧
      loaded.toTrace = traceOf nMoe topK (ws.length / (nMoe * topK * 2)) ws := by
  obtain ⟨first, second, third⟩ := header_numbers fileOf layers width
  have long : ¬ file.length < 32 := by
    rw [fileOf.length]
    omega
  have even : file.length % 2 = 0 := by
    rw [fileOf.length]
    omega
  rw [load, if_neg long, first, second, third, fileOf.words]
  simp only [ne_eq, not_true_eq_false, if_false, even, if_neg (show nMoe * topK * 2 ≠ 0 by omega)]
  exact ⟨_, rfl, rfl⟩

end Readers

/-! ## What was captured against what is read -/

/-- A trace read from `file` holds what was captured: for every token and every
layer whose routing tensor covered it the selected ids, and as many tokens as
the header says. -/
structure Trace.Decodes (tr : Trace) (m : MoeModel) (bs : List Batch) (file : Bytes) : Prop where
  rows : ∀ g b t, (tokens bs)[g]? = some (b, t) → ∀ l il, m.layers[l]? = some il →
    ∀ τ ∈ b.tensors, τ.name = .topk il → t < τ.ne 1 →
      (tr.row g l).map Int.ofNat = τ.selected t
  count : headerTokens file = tr.nToken

/-- Something was captured, and every routing tensor covers its batch. -/
def Covered (m : MoeModel) (bs : List Batch) : Prop :=
  m.layers ≠ [] ∧ bs ≠ [] ∧
    ∀ b ∈ bs, ∀ τ ∈ b.tensors, ∀ il, τ.name = .topk il → b.n ≤ τ.ne 1

theorem MoeModel.length_lt (m : MoeModel) : m.layers.length < 2 ^ 32 := by
  have below : m.layers ⊆ List.range (2 ^ 31) :=
    fun il member => List.mem_range.mpr (m.numbered il member)
  have most := (m.nodup.subperm below).length_le
  rw [List.length_range] at most
  exact Nat.lt_of_le_of_lt most (by decide)

theorem MoeModel.topK_lt (m : MoeModel) : m.topK < 2 ^ 32 := by
  have most := Nat.le_trans m.topK_le m.few
  omega

theorem tokens_pos {m : MoeModel} {bs : List Batch} (captured : ∀ b ∈ bs, b.Of m)
    (some : bs ≠ []) : 0 < (tokens bs).length := by
  obtain ⟨b, listed⟩ := List.exists_mem_of_ne_nil _ some
  exact List.length_pos_of_mem (mem_tokens.mpr ⟨listed, (captured b listed).nonempty⟩)

section Decoding

variable {m : MoeModel} {bs : List Batch} {records : List (List (List Nat))}
  (captured : ∀ b ∈ bs, b.Of m)
  (agree : List.Forall₂ (fun p rs => List.Forall₂ (RecordOf m p.1 p.2) m.layers rs)
    (tokens bs) records)

theorem RecordOf.length_le {b : Batch} {t il : Nat} {record : List Nat}
    (written : RecordOf m b t il record) : record.length ≤ m.topK * 2 := by
  obtain ⟨τ, -, -, ⟨-, rfl⟩ | ⟨-, ids, ws, rfl, -, first, second⟩⟩ := written
  · exact Nat.zero_le _
  · rw [List.length_append]
    omega

theorem RecordOf.covers {b : Batch} {t il : Nat} {record : List Nat}
    (written : RecordOf m b t il record) (wellFormed : b.Of m) {τ : Tensor}
    (member : τ ∈ b.tensors) (named : τ.name = .topk il) :
    (τ.ne 1 ≤ t ∧ record = []) ∨
      (t < τ.ne 1 ∧ record.length = m.topK * 2 ∧
        (record.take m.topK).map Int.ofNat = τ.selected t) := by
  obtain ⟨τ', member', named', cases⟩ := written
  have distinct := wellFormed.once.nodup_iff.mpr m.nodup
  have same : τ' = τ := eq_of_filterMap_nodup distinct member' member
    (Tensor.routes_eq_some.mpr named') (Tensor.routes_eq_some.mpr named)
  rw [same] at cases
  rcases cases with uncovered | ⟨covered, ids, ws, rfl, selected, first, second⟩
  · exact Or.inl uncovered
  · refine Or.inr ⟨covered, ?_, ?_⟩
    · rw [List.length_append]
      omega
    · rw [List.take_left' first, selected]

include agree

theorem token_length_le :
    ∀ words ∈ records.map List.flatten, words.length ≤ m.layers.length * (m.topK * 2) := by
  intro words member
  obtain ⟨rs, listed, rfl⟩ := List.mem_map.mp member
  obtain ⟨p, -, layers⟩ := forall₂_right agree listed
  rw [layers.length_eq]
  apply length_flatten_le
  intro record inside
  obtain ⟨il, -, written⟩ := forall₂_right layers inside
  exact written.length_le

include captured

/-- When the words fill the tokens, no token of a layer was left out. -/
theorem covered_of_full
    (full : (tokens bs).length * (m.layers.length * (m.topK * 2)) ≤ records.flatten.flatten.length)
    {b : Batch} {t : Nat} (token : (b, t) ∈ tokens bs) {τ : Tensor} {il : Nat}
    (member : τ ∈ b.tensors) (named : τ.name = .topk il) : t < τ.ne 1 := by
  have wellFormed := captured b (mem_tokens.mp token).1
  have selects := m.selects
  obtain ⟨rs, listed, layers⟩ := forall₂_left agree token
  have whole : rs.flatten.length = m.layers.length * (m.topK * 2) := by
    apply uniform_of_full (token_length_le agree) _ _ (List.mem_map_of_mem listed)
    rwa [List.length_map, ← agree.length_eq, ← List.flatten_flatten]
  obtain ⟨record, inside, written⟩ := forall₂_left layers (wellFormed.layer member named)
  have long : record.length = m.topK * 2 := by
    refine uniform_of_full ?_ ?_ record inside
    · intro r other
      obtain ⟨il', -, written'⟩ := forall₂_right layers other
      exact written'.length_le
    · rw [← layers.length_eq, whole]
  rcases written.covers wellFormed member named with ⟨-, rfl⟩ | ⟨covered, -⟩
  · rw [List.length_nil] at long
    omega
  · exact covered

section Full

variable (full : ∀ b ∈ bs, ∀ τ ∈ b.tensors, ∀ il, τ.name = .topk il → b.n ≤ τ.ne 1)

include full

omit agree in
theorem record_of_full {b : Batch} {t il : Nat} {record : List Nat} (token : (b, t) ∈ tokens bs)
    (written : RecordOf m b t il record) {τ : Tensor} (member : τ ∈ b.tensors)
    (named : τ.name = .topk il) :
    record.length = m.topK * 2 ∧ (record.take m.topK).map Int.ofNat = τ.selected t := by
  obtain ⟨listed, inside⟩ := mem_tokens.mp token
  have enough := full b listed τ member il named
  rcases written.covers (captured b listed) member named with ⟨beyond, -⟩ | ⟨-, here⟩
  · omega
  · exact here

theorem records_uniform :
    (∀ rs ∈ records, rs.length = m.layers.length) ∧
      ∀ record ∈ records.flatten, record.length = m.topK * 2 := by
  constructor
  · intro rs listed
    obtain ⟨p, -, layers⟩ := forall₂_right agree listed
    exact layers.length_eq.symm
  · intro record member
    obtain ⟨rs, listed, inside⟩ := List.mem_flatten.mp member
    obtain ⟨⟨b, t⟩, token, layers⟩ := forall₂_right agree listed
    obtain ⟨il, layer, written⟩ := forall₂_right layers inside
    obtain ⟨τ, inBatch, named⟩ :=
      (captured b (mem_tokens.mp token).1).exists_routing layer
    exact (record_of_full captured full token written inBatch named).1

theorem words_of_full : records.flatten.flatten.length =
    (tokens bs).length * (m.layers.length * (m.topK * 2)) := by
  obtain ⟨outer, inner⟩ := records_uniform captured agree full
  rw [length_flatten_of_uniform inner, length_flatten_of_uniform outer, agree.length_eq,
    Nat.mul_assoc]

/-- The ids of a token in a layer, where a trace with no gap has them. -/
theorem part_of_full {g l il : Nat} {b : Batch} {t : Nat} (token : (tokens bs)[g]? = some (b, t))
    (layer : m.layers[l]? = some il) {τ : Tensor} (member : τ ∈ b.tensors)
    (named : τ.name = .topk il) :
    (part m.topK ((g * m.layers.length + l) * 2) records.flatten.flatten).map Int.ofNat =
      τ.selected t := by
  obtain ⟨outer, inner⟩ := records_uniform captured agree full
  obtain ⟨rs, listed, layers⟩ := forall₂_getElem? agree token
  obtain ⟨record, inside, written⟩ := forall₂_getElem? layers layer
  have place : part (m.topK * 2) (g * m.layers.length + l) records.flatten.flatten = record := by
    have small : l < m.layers.length := (List.getElem?_eq_some_iff.mp layer).1
    rw [part_flatten inner, ← getElem?_part small, part_flatten outer, listed]
    simp [inside]
  have half : part m.topK ((g * m.layers.length + l) * 2) records.flatten.flatten =
      (part (m.topK * 2) (g * m.layers.length + l) records.flatten.flatten).take m.topK := by
    rw [part, part, List.take_take, Nat.min_eq_left (by omega), Nat.mul_assoc,
      Nat.mul_comm 2 m.topK]
  rw [half, place]
  exact (record_of_full captured full (List.mem_of_getElem? token) written member named).2

end Full

/-- A trace of the first `count` tokens, as many as the words have at most. -/
theorem decodes_iff {file : Bytes} {count : Nat} (layers : m.layers ≠ []) (some : bs ≠ [])
    (header : headerTokens file = (tokens bs).length)
    (most : count ≤ records.flatten.flatten.length / (m.layers.length * m.topK * 2))
    (whole : records.flatten.flatten.length =
      (tokens bs).length * (m.layers.length * (m.topK * 2)) → count = (tokens bs).length) :
    (traceOf m.layers.length m.topK count records.flatten.flatten).Decodes m bs file ↔
      Covered m bs := by
  have positive := List.length_pos_iff.mpr layers
  have enough : count * (m.layers.length * m.topK * 2) ≤ records.flatten.flatten.length :=
    Nat.le_trans (Nat.mul_le_mul_right _ most) (Nat.div_mul_le_self _ _)
  constructor
  · intro decodes
    have all : (tokens bs).length = count := header.symm.trans decodes.count
    rw [← all, Nat.mul_assoc] at enough
    refine ⟨layers, some, fun b listed τ member il named => ?_⟩
    -- the last token of the batch is covered
    have nonempty := (captured b listed).nonempty
    have last : (b, b.n - 1) ∈ tokens bs := mem_tokens.mpr ⟨listed, by omega⟩
    have covered := covered_of_full captured agree enough last member named
    omega
  · rintro ⟨-, -, full⟩
    have all := whole (words_of_full captured agree full)
    refine ⟨?_, by rw [header]; exact all.symm⟩
    intro g b t token l il layer τ member named _
    have inside := (List.getElem?_eq_some_iff.mp token).1
    have small := (List.getElem?_eq_some_iff.mp layer).1
    rw [← part_of_full captured agree full token layer member named, Trace.row, traceOf]
    dsimp only
    rw [part_idsOf enough (by decide) (by omega) small, Nat.add_zero]

section Whole

variable {file : Bytes} {nLayer : Nat}
  (fileOf : FileOf [magic, 1, m.layers.length, 0, m.topK, (tokens bs).length % 2 ^ 32,
    (tokens bs).length / 2 ^ 32, nLayer] records.flatten.flatten file)
  (layers : m.layers ≠ []) (batches : bs ≠ [])

omit captured agree in
theorem count_of_words (layers : m.layers ≠ [])
    (whole : records.flatten.flatten.length =
      (tokens bs).length * (m.layers.length * (m.topK * 2))) :
    records.flatten.flatten.length / (m.layers.length * m.topK * 2) = (tokens bs).length := by
  have positive := Nat.mul_pos (List.length_pos_iff.mpr layers) m.selects
  rw [whole, ← Nat.mul_assoc m.layers.length]
  exact Nat.mul_div_cancel _ (by omega)

include fileOf layers batches

theorem loadTrace_decodes_iff (counted : (tokens bs).length < 2 ^ 64) :
    (∃ tr, loadTrace file = some tr ∧ tr.Decodes m bs file) ↔ Covered m bs := by
  have header := headerTokens_eq fileOf counted
  have decodes := decodes_iff captured agree layers batches header
    (Nat.min_le_right (tokens bs).length _)
    fun whole => by rw [count_of_words layers whole, Nat.min_self]
  rw [loadTrace_eq fileOf m.length_lt m.topK_lt counted
    (Nat.mul_pos (List.length_pos_iff.mpr layers) m.selects)]
  split
  · rw [← decodes]
    simp
  · -- a trace of no tokens is refused, and something was captured
    refine iff_of_false (by simp) fun covered => ?_
    have count := (decodes.mpr covered).count
    rw [header] at count
    have first := tokens_pos captured batches
    simp only [traceOf] at count
    omega

theorem load_decodes_iff (counted : (tokens bs).length < 2 ^ 64) :
    (∃ loaded, load file = some loaded ∧ loaded.toTrace.Decodes m bs file) ↔
      Covered m bs := by
  have header := headerTokens_eq fileOf counted
  obtain ⟨loaded, read, trace⟩ := load_eq fileOf m.length_lt m.topK_lt
    (Nat.mul_pos (List.length_pos_iff.mpr layers) m.selects)
  rw [← decodes_iff captured agree layers batches header (Nat.le_refl _) (count_of_words layers),
    ← trace, read]
  simp

end Whole

end Decoding

theorem traceFile_fileOf {f16 : Nat → Nat} {bs : List Batch} {ws : List Nat}
    (out : (capture f16 bs).1.out = putWords ws) (small : ∀ x ∈ ws, x < 2 ^ 16) (nLayer : Nat) :
    FileOf (finalHeader (capture f16 bs) nLayer) ws (traceFile f16 nLayer bs) :=
  ⟨by rw [traceFile, out], rfl, small⟩

/-- The file of a run of the capture tool reads back as what was captured,
with `load_trace` and with `load`, exactly if every routing tensor of every batch
covered the whole batch. -/
theorem trace_decodes_iff (f16 : Nat → Nat) (nLayer : Nat) (m : MoeModel) (bs : List Batch)
    (captured : ∀ b ∈ bs, b.Of m) (counted : (tokens bs).length < 2 ^ 64) :
    ((∃ tr, loadTrace (traceFile f16 nLayer bs) = some tr ∧
        tr.Decodes m bs (traceFile f16 nLayer bs)) ↔ Covered m bs) ∧
      ((∃ loaded, load (traceFile f16 nLayer bs) = some loaded ∧
        loaded.toTrace.Decodes m bs (traceFile f16 nLayer bs)) ↔ Covered m bs) := by
  have width := m.topK_lt
  by_cases layers : m.layers = []
  · obtain ⟨-, topK, nMoe, out⟩ := capture_none f16 layers captured
    have fileOf : FileOf (finalHeader (capture f16 bs) nLayer) [] (traceFile f16 nLayer bs) :=
      traceFile_fileOf out (List.forall_mem_nil _) nLayer
    have none := readers_none fileOf (by rw [nMoe]; decide) (by omega) (by rw [nMoe, Nat.zero_mul])
    rw [none.1, none.2]
    simp [Covered, layers]
  · have written := capture_written f16 layers captured
    obtain ⟨records, out, small, agree⟩ := written.records
    have fileOf := traceFile_fileOf out small nLayer
    by_cases empty : bs = []
    · have nMoe := written.nMoe
      have topK := written.topK
      rw [if_pos empty] at nMoe topK
      have none := readers_none fileOf (by rw [nMoe]; decide) (by rw [topK]; decide)
        (by rw [nMoe, Nat.zero_mul])
      rw [none.1, none.2]
      simp [Covered, empty]
    · rw [finalHeader, written.nMoe, written.topK, written.count, if_neg empty, if_neg empty,
        Nat.mod_eq_of_lt counted] at fileOf
      exact ⟨loadTrace_decodes_iff captured agree fileOf layers empty counted,
        load_decodes_iff captured agree fileOf layers empty counted⟩

/-! ## A tensor that covers one token of two -/

def twoLayers : MoeModel where
  layers := [0, 1]
  topK := 1
  nExpert := 2
  ascending := by simp
  numbered := by simp
  selects := Nat.one_pos
  topK_le := by omega
  few := by omega

def bestOf (il : Nat) (rows : List (List Nat)) : Tensor where
  name := .topk il
  type := .i32
  ne i := if i = 0 then 1 else rows.length
  nb i := if i = 0 then 4 else 8
  raw := rows.flatten.flatMap (toBytes 4)

theorem bestOf_batch {n : Nat} {rows rows' : List (List Nat)} (some : 0 < n)
    (ids : ∀ t ∈ [bestOf 0 rows, bestOf 1 rows'], ∀ j < t.ne 1, ∀ k < 1,
      0 ≤ t.id j k ∧ t.id j k < 2) :
    (Batch.mk n [bestOf 0 rows, bestOf 1 rows']).Of twoLayers where
  nonempty := some
  once := List.Perm.refl [0, 1]
  routing := by
    intro t member il named
    have shape : t.type = .i32 ∧ t.ne 0 = 1 := by
      rcases List.mem_pair.mp member with rfl | rfl <;> exact ⟨rfl, rfl⟩
    refine ⟨shape.1, shape.2, ?_⟩
    rw [shape.2]
    exact ids t member
  weighted := by simp [bestOf]

/-- The last layer computes one token of the two of the first batch. -/
def shortLast : List Batch :=
  [⟨2, [bestOf 0 [[0, 1], [1, 0]], bestOf 1 [[1, 0]]]⟩,
    ⟨1, [bestOf 0 [[0, 1]], bestOf 1 [[1, 0]]]⟩]

/-- The header has three tokens and the file two: the second has in the last
layer the id of the third in the first layer. -/
theorem shortLast_misread :
    (∀ b ∈ shortLast, b.Of twoLayers) ∧
      (¬ ∃ tr, loadTrace (traceFile id 2 shortLast) = some tr ∧
        tr.Decodes twoLayers shortLast (traceFile id 2 shortLast)) ∧
      ¬ ∃ loaded, load (traceFile id 2 shortLast) = some loaded ∧
        loaded.toTrace.Decodes twoLayers shortLast (traceFile id 2 shortLast) := by
  have header : headerTokens (traceFile id 2 shortLast) = 3 := by decide +kernel
  refine ⟨?_, ?_, ?_⟩
  · intro b member
    rcases List.mem_pair.mp member with rfl | rfl
    · exact bestOf_batch (by decide) (by decide +kernel)
    · exact bestOf_batch (by decide) (by decide +kernel)
  · rintro ⟨tr, read, decodes⟩
    have two : (loadTrace (traceFile id 2 shortLast)).map Trace.nToken = some 2 := by
      decide +kernel
    rw [read] at two
    have count := decodes.count
    simp only [Option.map_some, Option.some.injEq] at two
    omega
  · rintro ⟨loaded, read, decodes⟩
    have two : (load (traceFile id 2 shortLast)).map (Trace.nToken ∘ Loaded.toTrace) = some 2 := by
      decide +kernel
    rw [read] at two
    have count := decodes.count
    simp only [Option.map_some, Option.some.injEq, Function.comp_apply] at two
    omega

def allCovered : List Batch := [⟨2, [bestOf 0 [[0, 1], [1, 0]], bestOf 1 [[1, 0], [1, 0]]]⟩]

theorem allCovered_decodes :
    (∃ tr, loadTrace (traceFile id 2 allCovered) = some tr ∧
        tr.Decodes twoLayers allCovered (traceFile id 2 allCovered)) ∧
      ∃ loaded, load (traceFile id 2 allCovered) = some loaded ∧
        loaded.toTrace.Decodes twoLayers allCovered (traceFile id 2 allCovered) := by
  have captured : ∀ b ∈ allCovered, b.Of twoLayers := by
    intro b member
    rw [List.mem_singleton.mp member]
    exact bestOf_batch (by decide) (by decide +kernel)
  have covered : Covered twoLayers allCovered := by
    refine ⟨by decide, by decide, ?_⟩
    intro b member τ listed il _
    rw [List.mem_singleton.mp member] at listed ⊢
    rcases List.mem_pair.mp listed with rfl | rfl <;> exact Nat.le_refl 2
  have iffs := trace_decodes_iff id 2 twoLayers allCovered captured (by decide)
  exact ⟨iffs.1.mpr covered, iffs.2.mpr covered⟩

end MoeStream.ExpertTrace
