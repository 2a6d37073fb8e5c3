import Summa.Structures.FastField.CheckpointSpec

/-!
# Opened columns of numbers

A single-value column of numbers that `openColumn` accepts holds one payload for each of its blocks, and the blocks
count their documents one behind the other (`openColumn_holds`). A point read returns the value of its document
(`Holds.getU64`).
-/

namespace Summa.FastField

open List Fallible

/-- The documents of the blocks before number `k`. -/
def docsBefore (payloads : List (Payload × Nat)) (k : Nat) : Nat := ((payloads.take k).map (·.2)).sum

/-- The raw value of a document. -/
def columnValue : List (Payload × Nat) → Nat → Nat
  | [], _ => fastFieldMissing
  | (payload, n) :: payloads, d => if d < n then payload.value n d else columnValue payloads (d - n)

/-- The blocks of the payloads, behind `cumulative` documents. -/
def columnBlocks (cumulative : Nat) : List (Payload × Nat) → List ColumnBlock
  | [] => []
  | (payload, n) :: payloads =>
    ⟨cumulative, n, payload.encode n, [], [], none, []⟩ :: columnBlocks (cumulative + n) payloads

/-- An opened single-value column of numbers. -/
structure FastFieldReader.Holds (reader : FastFieldReader) (payloads : List (Payload × Nat)) : Prop where
  ok : PayloadsOk payloads
  single : reader.multi = false
  numeric : reader.columnType ≠ .textOrdinal
  blocks : reader.blocks = columnBlocks 0 payloads
  numDocs : reader.numDocs = (payloads.map (·.2)).sum
  checkpoints : ∀ c ∈ reader.checkpoints, c.On payloads

section Blocks

variable {payloads : List (Payload × Nat)} {payload : Payload} {n k d : Nat}

theorem docsBefore_succ (hk : payloads[k]? = some (payload, n)) :
    docsBefore payloads (k + 1) = docsBefore payloads k + n := by
  rw [docsBefore, take_add_one, hk]
  simp [docsBefore]

theorem docsBefore_mono (payloads : List (Payload × Nat)) {i j : Nat} (h : i ≤ j) :
    docsBefore payloads i ≤ docsBefore payloads j := by
  obtain ⟨k, rfl⟩ := Nat.exists_eq_add_of_le h
  rw [docsBefore, docsBefore, take_add, map_append, sum_append]
  exact Nat.le_add_right ..

theorem docsBefore_length (payloads : List (Payload × Nat)) :
    docsBefore payloads payloads.length = (payloads.map (·.2)).sum := by
  rw [docsBefore, take_length]

theorem getElem?_columnBlocks (payloads : List (Payload × Nat)) (cumulative k : Nat) :
    (columnBlocks cumulative payloads)[k]? = payloads[k]?.map fun p =>
      ⟨cumulative + docsBefore payloads k, p.2, p.1.encode p.2, [], [], none, []⟩ := by
  induction payloads generalizing cumulative k with
  | nil => rfl
  | cons p payloads ih =>
    cases k with
    | zero => rfl
    | succ k =>
      rw [columnBlocks, getElem?_cons_succ, ih, getElem?_cons_succ]
      simp only [docsBefore, take_succ_cons, map_cons, sum_cons, Nat.add_assoc]

theorem length_columnBlocks (cumulative : Nat) (payloads : List (Payload × Nat)) :
    (columnBlocks cumulative payloads).length = payloads.length := by
  induction payloads generalizing cumulative with
  | nil => rfl
  | cons p payloads ih => rw [columnBlocks, length_cons, ih, length_cons]

theorem map_data_columnBlocks (cumulative : Nat) (payloads : List (Payload × Nat)) :
    (columnBlocks cumulative payloads).map (·.data) = payloadBytes payloads := by
  induction payloads generalizing cumulative with
  | nil => rfl
  | cons p payloads ih => rw [columnBlocks, map_cons, ih, payloadBytes, payloadBytes, map_cons]

/-- The value of document number `i` of block `k`. -/
theorem columnValue_eq (hk : payloads[k]? = some (payload, n)) {i : Nat} (hi : i < n) :
    columnValue payloads (docsBefore payloads k + i) = payload.value n i := by
  induction payloads generalizing k with
  | nil => cases hk
  | cons p payloads ih =>
    cases k with
    | zero =>
      cases hk
      rw [columnValue, docsBefore, take_zero, map_nil, sum_nil, Nat.zero_add, if_pos hi]
    | succ k =>
      have hbefore : docsBefore (p :: payloads) (k + 1) = p.2 + docsBefore payloads k := by
        rw [docsBefore, take_succ_cons, map_cons, sum_cons, docsBefore]
      rw [hbefore, columnValue, if_neg (by omega), ← ih hk]
      congr 1
      omega

theorem columnValue_missing (h : (payloads.map (·.2)).sum ≤ d) : columnValue payloads d = fastFieldMissing := by
  induction payloads generalizing d with
  | nil => rfl
  | cons p payloads ih =>
    rw [map_cons, sum_cons] at h
    rw [columnValue, if_neg (by omega)]
    exact ih (by omega)

/-- The block of a document. -/
theorem exists_block (h : d < (payloads.map (·.2)).sum) : ∃ k payload n, payloads[k]? = some (payload, n) ∧
    docsBefore payloads k ≤ d ∧ d < docsBefore payloads k + n := by
  -- the first block that ends behind the document
  have hex : ∃ k, d < docsBefore payloads k := ⟨_, (docsBefore_length payloads).symm ▸ h⟩
  obtain ⟨k, hk, hleast⟩ : ∃ k, d < docsBefore payloads k ∧ ∀ j < k, ¬ d < docsBefore payloads j :=
    ⟨Nat.find hex, Nat.find_spec hex, fun j hj => Nat.find_min hex hj⟩
  cases k with
  | zero => exact absurd hk (Nat.not_lt_zero d)
  | succ k =>
    have hle := Nat.le_of_not_lt (hleast k (Nat.lt_succ_self k))
    cases hblock : payloads[k]? with
    | none =>
      have hend := getElem?_eq_none_iff.mp hblock
      rw [docsBefore, take_of_length_le (by omega)] at hk
      rw [docsBefore, take_of_length_le hend] at hle
      omega
    | some p =>
      rw [docsBefore_succ hblock] at hk
      exact ⟨k, p.1, p.2, hblock, hle, hk⟩

theorem Payload.value_lt (hok : payload.Ok n) (i : Nat) : payload.value n i < 2 ^ 64 := by
  cases payload with
  | constant value => exact hok
  | bitpacked minValue bpv packed => exact Nat.mod_lt _ (by decide)
  | linear block => exact asU64_lt _
  | blockwise blocks =>
    rw [Payload.value]
    split
    · exact asU64_lt _
    · decide

end Blocks

section Open

variable {file : List Byte} {toc : FastFieldTocEntry}

/-- What is accepted as a block is a payload with the block's number of values. -/
theorem openBlock_eq_ok {entry : BlockIndexEntry} {pos cumulative : Nat} {block : ColumnBlock}
    (hsingle : toc.multi = false) (htype : toc.columnType ≠ .textOrdinal) (hlen : entry.dataLen < 2 ^ 32)
    (h : openBlock file toc entry pos cumulative = .ok block) :
    ∃ payload : Payload, payload.Ok entry.numDocs ∧ (payload.encode entry.numDocs).length < 2 ^ 32 ∧
      block = ⟨cumulative, entry.numDocs, payload.encode entry.numDocs, [], [], none, []⟩ := by
  obtain ⟨-, h⟩ := failIf_bind_eq_ok.mp h
  obtain ⟨⟨offsetData, valueData⟩, hsub, h⟩ := bind_eq_ok h
  rw [subColumns, hsingle, if_neg Bool.false_ne_true] at hsub
  obtain ⟨⟨⟩, hvalid, hsub⟩ := bind_eq_ok hsub
  obtain ⟨⟨⟩, hdict, h⟩ := bind_eq_ok h
  rw [checkDict, if_neg htype, failIf_eq_ok] at hdict
  have hvalid : validateAuto (sliceBytes file pos entry.dataLen) entry.numDocs = .ok () := by
    cases hv : validateAuto (sliceBytes file pos entry.dataLen) entry.numDocs with
    | ok u => rfl
    | error e => rw [hv] at hvalid; cases hvalid
  obtain ⟨payload, hok, hdata⟩ := validateAuto_eq_ok_iff.mp hvalid
  refine ⟨payload, hok, ?_, ?_⟩
  · rw [← hdata]
    exact (length_take_le ..).trans_lt hlen
  · cases hsub
    cases h
    have hnone : entry.dictCount = 0 ∧ entry.dictLen = 0 := by omega
    rw [hdata, hnone.1, hnone.2, if_neg (Nat.lt_irrefl 0)]
    rfl

/-- What is accepted as the blocks of a column. -/
theorem openBlocks_eq_ok {entries : List BlockIndexEntry} {pos cumulative stop total : Nat} {blocks : List ColumnBlock}
    (hsingle : toc.multi = false) (htype : toc.columnType ≠ .textOrdinal) (hlen : ∀ e ∈ entries, e.dataLen < 2 ^ 32)
    (h : openBlocks file toc entries pos cumulative = .ok (blocks, stop, total)) :
    ∃ payloads : List (Payload × Nat), blocks = columnBlocks cumulative payloads ∧
      total = cumulative + (payloads.map (·.2)).sum ∧ payloads.length = entries.length ∧
      ∀ p ∈ payloads, p.1.Ok p.2 ∧ (p.1.encode p.2).length < 2 ^ 32 := by
  induction entries generalizing pos cumulative blocks with
  | nil =>
    cases h
    exact ⟨[], rfl, rfl, rfl, nofun⟩
  | cons entry entries ih =>
    obtain ⟨hentry, hentries⟩ := forall_mem_cons.mp hlen
    obtain ⟨block, hblock, h⟩ := bind_eq_ok h
    obtain ⟨-, h⟩ := failIf_bind_eq_ok.mp h
    obtain ⟨⟨rest, stop', total'⟩, hrest, h⟩ := bind_eq_ok h
    cases h
    obtain ⟨payload, hok, hshort, rfl⟩ := openBlock_eq_ok hsingle htype hentry hblock
    obtain ⟨payloads, rfl, rfl, hcount, hall⟩ := ih hentries hrest
    refine ⟨(payload, entry.numDocs) :: payloads, rfl, ?_, congrArg (· + 1) hcount, forall_mem_cons.mpr ⟨⟨hok, hshort⟩, hall⟩⟩
    rw [map_cons, sum_cons, Nat.add_assoc]

/-- An accepted single-value column of numbers holds payloads. -/
theorem openColumn_holds {reader : FastFieldReader} (hsingle : toc.multi = false)
    (htype : toc.columnType ≠ .textOrdinal) (h : FastFieldReader.openColumn file toc = .ok reader) :
    ∃ payloads, reader.Holds payloads := by
  obtain ⟨-, h⟩ := failIf_bind_eq_ok.mp h
  obtain ⟨-, h⟩ := failIf_bind_eq_ok.mp h
  obtain ⟨-, h⟩ := failIf_bind_eq_ok.mp h
  obtain ⟨-, h⟩ := failIf_bind_eq_ok.mp h
  obtain ⟨⟨blocks, stop, total⟩, hblocks, h⟩ := bind_eq_ok h
  obtain ⟨htotal, h⟩ := failIf_bind_eq_ok.mp h
  obtain ⟨-, h⟩ := failIf_bind_eq_ok.mp h
  obtain ⟨checkpoints, hcheckpoints, h⟩ := bind_eq_ok h
  cases h
  obtain ⟨payloads, rfl, rfl, hcount, hall⟩ := openBlocks_eq_ok hsingle htype
    (forall_mem_map.mpr fun _ _ => readLe_lt ..) hblocks
  have hok : PayloadsOk payloads := by
    refine ⟨fun p hp => (hall p hp).1, fun p hp => (hall p hp).2, ?_⟩
    rw [hcount, length_map, length_range]
    exact readLe_lt ..
  obtain ⟨cs, hcs, hon⟩ := newCheckpoints_encode hok toc.multi
  rw [map_data_columnBlocks, hcs] at hcheckpoints
  cases hcheckpoints
  refine ⟨payloads, hok, hsingle, htype, rfl, ?_, hon⟩
  dsimp only
  omega

end Open

namespace FastFieldReader.Holds

variable {reader : FastFieldReader} {payloads : List (Payload × Nat)} {payload : Payload} {n k : Nat}

section

variable (h : reader.Holds payloads)

include h

theorem getElem?_blocks (hk : payloads[k]? = some (payload, n)) :
    reader.blocks[k]? = some ⟨docsBefore payloads k, n, payload.encode n, [], [], none, []⟩ := by
  rw [h.blocks, getElem?_columnBlocks, hk, Option.map_some, Nat.zero_add]

theorem needsRemap : reader.needsRemap = false := decide_eq_false fun hc => h.numeric hc.1

/-- The search finds the block of a document. -/
theorem findBlock_eq (hk : payloads[k]? = some (payload, n)) {i : Nat} (hi : i < n) :
    reader.findBlock (docsBefore payloads k + i) = (k, i) := by
  have hlength : reader.blocks.length = payloads.length := by rw [h.blocks, length_columnBlocks]
  have hlt : k < payloads.length := (List.getElem?_eq_some_iff.mp hk).1
  rw [findBlock, hlength]
  split
  case isTrue hone =>
    obtain rfl : k = 0 := by omega
    rw [docsBefore, take_zero, map_nil, sum_nil, Nat.zero_add]
  case isFalse =>
    have hsplit : SplitsAt (fun j => (reader.blocks[j]?).any fun b =>
        decide (b.cumulativeDocs ≤ docsBefore payloads k + i)) payloads.length (k + 1) := by
      have hat : ∀ j < payloads.length, (reader.blocks[j]?).any (fun b =>
          decide (b.cumulativeDocs ≤ docsBefore payloads k + i)) =
            decide (docsBefore payloads j ≤ docsBefore payloads k + i) := by
        intro j hj
        rw [h.getElem?_blocks (getElem?_eq_getElem hj), Option.any_some]
      refine ⟨hlt, fun j hj => ?_, fun j hj hj' => ?_⟩
      · have := docsBefore_mono payloads (show j ≤ k by omega)
        rw [hat j (by omega)]
        exact decide_eq_true (by omega)
      · have := docsBefore_mono payloads hj
        rw [docsBefore_succ hk] at this
        rw [hat j hj']
        exact decide_eq_false (by omega)
    rw [partitionPoint_spec hsplit, Nat.add_sub_cancel]
    dsimp only
    rw [h.getElem?_blocks hk, Option.map_some, Option.getD_some, Nat.add_sub_cancel_left]

/-- A point read. -/
theorem getU64 (d : Nat) : reader.getU64 d = some (columnValue payloads d) := by
  rw [FastFieldReader.getU64, h.numDocs]
  split
  case isTrue hge => rw [columnValue_missing hge]
  case isFalse hlt =>
    obtain ⟨k, payload, n, hk, hle, hd⟩ := exists_block (Nat.lt_of_not_le hlt)
    obtain ⟨i, rfl⟩ := Nat.exists_eq_add_of_le hle
    have hi : i < n := by omega
    have hblock := h.getElem?_blocks hk
    have hread := readCheckpointed_encode h.ok h.checkpoints hk hi
    rw [rawValue, h.findBlock_eq hk hi]
    dsimp only
    rw [hblock, h.single, h.blocks, map_data_columnBlocks, hread, columnValue_eq hk hi]
    simp [remapOrdinal, h.needsRemap]

end

end FastFieldReader.Holds

end Summa.FastField
