import Summa.Structures.FastField.Opened
import Summa.Structures.FastField.RoundTrip

/-!
# Writing numeric columns (`structures/fast_field/mod.rs`)

A numeric writer collects one raw value for each document, or several; `serialize` writes a column of one block. A
document without a value holds `fastFieldMissing`, in the domain of the raw values: `u64::MAX`, and after zigzag
`i64::MIN`, read as missing when they are assigned.

* `written_raw`: values with another encoding are read back.
* `i64Min_missing`: an assigned `i64::MIN` is not there.
-/

namespace Summa.FastField

open List Fallible FastField.FastFieldReader BlockIndexEntry

section Encoding

/-- Zigzag-encode an `i64`. -/
def zigzagEncode (v : BitVec 64) : Nat := ((v <<< 1) ^^^ v.sshiftRight 63).toNat

/-- Zigzag-decode back to an `i64`. -/
def zigzagDecode (n : Nat) : BitVec 64 :=
  let v := BitVec.ofNat 64 n
  (v >>> 1) ^^^ -(v &&& 1#64)

theorem zigzagDecode_encode (v : BitVec 64) : zigzagDecode (zigzagEncode v) = v := by
  rw [zigzagDecode, zigzagEncode, BitVec.ofNat_toNat, BitVec.setWidth_eq]
  obtain ⟨s, hs⟩ : ∃ s, s = v.sshiftRight 63 := ⟨_, rfl⟩
  have hbit : ∀ i < 64, s.getLsbD i = v.msb := by
    intro i hi
    rw [hs, BitVec.getLsbD_sshiftRight]
    rcases Nat.eq_zero_or_pos i with rfl | hpos
    · simp [BitVec.msb_eq_getLsbD_last]
    · simp [show ¬ 64 ≤ i by omega, show ¬ 63 + i < 64 by omega]
  -- the lowest bit is the sign, so its negation is the sign in every place
  have hsign : -(((v <<< 1) ^^^ s) &&& 1#64) = s := by
    have hone : ((v <<< 1) ^^^ s) &&& 1#64 = if v.msb then 1#64 else 0#64 := by
      apply BitVec.eq_of_getLsbD_eq
      intro i hi
      rcases Nat.eq_zero_or_pos i with rfl | hpos
      · rw [BitVec.getLsbD_and, BitVec.getLsbD_xor, hbit 0 hi]
        cases v.msb <;> simp
      · cases hm : v.msb <;> simp [BitVec.getLsbD_one, show i ≠ 0 by omega]
    have hall : s = if v.msb then BitVec.allOnes 64 else 0#64 := by
      apply BitVec.eq_of_getLsbD_eq
      intro i hi
      rw [hbit i hi]
      cases v.msb
      · simp
      · rw [if_pos rfl, BitVec.getLsbD_allOnes]
        exact (decide_eq_true hi).symm
    rw [hone, hall]
    cases v.msb <;> decide
  rw [← hs, hsign]
  apply BitVec.eq_of_getLsbD_eq
  intro i hi
  rw [BitVec.getLsbD_xor, BitVec.getLsbD_ushiftRight, BitVec.getLsbD_xor, hbit i hi]
  by_cases hlast : i + 1 < 64
  · rw [Nat.add_comm, hbit (i + 1) hlast]
    simp [hlast]
    exact (BitVec.getLsbD_eq_getElem hi).symm
  · obtain rfl : i = 63 := by omega
    simp [BitVec.msb_eq_getLsbD_last]

theorem zigzagEncode_lt (v : BitVec 64) : zigzagEncode v < 2 ^ 64 := BitVec.isLt _

/-- The encoding that reads as missing. -/
theorem zigzagEncode_eq_missing {v : BitVec 64} : zigzagEncode v = fastFieldMissing ↔ v = BitVec.intMin 64 := by
  constructor
  · intro h
    have hv := zigzagDecode_encode v
    rw [h] at hv
    rw [← hv]
    decide
  · rintro rfl
    decide

/-- Encode an `f64`, given by its bits, preserving total order. -/
def f64ToSortableU64 (bits : BitVec 64) : Nat :=
  (if bits >>> 63 = 0#64 then bits ^^^ 1#64 <<< 63 else ~~~bits).toNat

end Encoding

/-- Get decoded i64 value. -/
def FastFieldReader.getI64 (self : FastFieldReader) (docId : Nat) : Option Int :=
  (self.getU64 docId).map fun raw => (zigzagDecode raw).toInt

/-- A writer for a numeric column. -/
structure FastFieldWriter where
  columnType : FastFieldColumnType
  multi : Bool
  values : List Nat
  multiValues : List Nat
  multiOffsets : List Nat
  multiCurrentDoc : Nat

namespace FastFieldWriter

def newNumeric (columnType : FastFieldColumnType) (multi : Bool) : FastFieldWriter := ⟨columnType, multi, [], [], [0], 0⟩

/-- Fill up with absent documents. -/
def grow (values : List Nat) (n : Nat) : List Nat := values ++ replicate (n - values.length) fastFieldMissing

variable (self : FastFieldWriter)

/-- Record a value in multi-value mode: an offset for each skipped document, then the value. -/
def addMultiU64 (docId value : Nat) : FastFieldWriter :=
  { self with
    multiOffsets := self.multiOffsets ++
      replicate (docId - self.multiCurrentDoc) (self.multiValues.length % 2 ^ 32)
    multiCurrentDoc := max self.multiCurrentDoc docId
    multiValues := self.multiValues ++ [value] }

def addU64 (docId value : Nat) : FastFieldWriter :=
  if self.multi then self.addMultiU64 docId value
  else { self with values := (grow self.values (docId + 1)).set docId value }

def addI64 (docId : Nat) (value : BitVec 64) : FastFieldWriter :=
  self.addU64 docId (zigzagEncode value)

/-- Ensure the column covers `numDocs` entries. -/
def padTo (numDocs : Nat) : FastFieldWriter :=
  if self.multi then
    { self with
      multiOffsets := self.multiOffsets ++
        replicate (numDocs + 1 - self.multiOffsets.length) (self.multiValues.length % 2 ^ 32)
      multiCurrentDoc := numDocs }
  else { self with values := grow self.values numDocs }

def numDocs : Nat :=
  if self.multi then self.multiOffsets.length % 2 ^ 32 - 1 else self.values.length % 2 ^ 32

def blockData : IoResult (List Byte) :=
  if self.multi then do
    let offsets ← serializeAuto self.multiOffsets
    let values ← serializeAuto self.multiValues
    .ok (leBytes 4 offsets.length ++ (offsets ++ values))
  else serializeAuto self.values

/-- Serialize as one block, with the entry for the table of contents. -/
def serialize (dataOffset : Nat) : IoResult (List Byte × FastFieldTocEntry) := do
  let data ← self.blockData
  let entry : BlockIndexEntry := ⟨self.numDocs, data.length, 0, 0⟩
  let bytes := leBytes 4 1 ++ (entry.writeTo ++ data)
  .ok (bytes, ⟨self.columnType, self.multi, dataOffset, bytes.length, self.numDocs⟩)

/-- Assign the values one after the other. -/
def assign (writes : List (Nat × Nat)) : FastFieldWriter :=
  writes.foldl (fun self w => self.addU64 w.1 w.2) self

end FastFieldWriter

section Single

variable (columnType : FastFieldColumnType)

/-- The value that a document is assigned last. -/
def assigned {α : Type} (writes : List (Nat × α)) (d : Nat) : Option α := writes.reverse.lookup d

variable (writes : List (Nat × Nat))

/-- The raw value that is stored for a document. -/
def stored (d : Nat) : Nat := (assigned writes d).getD fastFieldMissing

theorem assigned_append {α : Type} (writes : List (Nat × α)) (doc : Nat) (value : α) (d : Nat) :
    assigned (writes ++ [(doc, value)]) d = if d = doc then some value else assigned writes d := by
  rw [assigned, reverse_append, reverse_singleton, singleton_append, lookup_cons]
  split
  case h_1 h => rw [if_pos (beq_iff_eq.mp h)]
  case h_2 h => rw [if_neg (beq_eq_false_iff_ne.mp h), assigned]

open FastFieldWriter

theorem getElem?_grow (values : List Nat) (n i : Nat) :
    (grow values n)[i]? =
      if i < values.length then values[i]? else if i < n then some fastFieldMissing else none := by
  rw [grow, getElem?_append]
  split
  case isTrue => rfl
  case isFalse h =>
    rw [getElem?_replicate]
    exact if_congr (by omega) rfl rfl

/-- The values of a single-value writer after the assignments. -/
theorem assign_single :
    let self := (newNumeric columnType false).assign writes
    self.multi = false ∧ self.columnType = columnType ∧
      (∀ n, (∀ w ∈ writes, w.1 < n) → self.values.length ≤ n) ∧
      (∀ d, self.values.length ≤ d → assigned writes d = none) ∧
      ∀ d < self.values.length, self.values[d]? = some (stored writes d) := by
  induction writes using reverseRecOn with
  | nil => exact ⟨rfl, rfl, fun _ _ => Nat.zero_le _, fun _ _ => rfl, nofun⟩
  | append_singleton writes w ih =>
    obtain ⟨doc, value⟩ := w
    rw [assign, foldl_append, foldl_cons, foldl_nil, ← assign]
    generalize (newNumeric columnType false).assign writes = self at ih
    obtain ⟨hmulti, htype, hlength, habsent, hvalues⟩ := ih
    rw [addU64, if_neg (by simp [hmulti])]
    have hlen : ((grow self.values (doc + 1)).set doc value).length = max self.values.length (doc + 1) := by
      rw [length_set, grow, length_append, length_replicate]
      omega
    refine ⟨hmulti, htype, fun n hn => ?_, fun d hd => ?_, fun d hd => ?_⟩
    · have hbefore := hlength n fun w hw => hn w (mem_append_left _ hw)
      have hdoc := hn (doc, value) (mem_append_right _ mem_cons_self)
      dsimp only at hdoc ⊢
      omega
    · dsimp only at hd
      rw [assigned_append, if_neg (by omega)]
      exact habsent d (by omega)
    · dsimp only at hd ⊢
      rw [getElem?_set, stored, assigned_append]
      split
      case isTrue hat =>
        rw [if_pos (by rw [← hat, length_set] at *; omega), if_pos hat.symm]
        rfl
      case isFalse hne =>
        rw [if_neg (fun h : d = doc => hne h.symm), getElem?_grow]
        split
        case isTrue hin => exact hvalues d hin
        case isFalse hout =>
          rw [if_pos (by omega), habsent d (by omega)]
          rfl

/-- A column of one block with single numeric values opens; its bytes lie between `pre` and `post`. -/
theorem openColumn_written {payload : Payload} {n : Nat} (hok : payload.Ok n) (hn : n ≤ u32Max)
    (hlen : (payload.encode n).length < 2 ^ 32) (htype : columnType ≠ .textOrdinal) (pre post bytes : List Byte)
    (hbytes : bytes = leBytes 4 1 ++ ((⟨n, (payload.encode n).length, 0, 0⟩ : BlockIndexEntry).writeTo ++
      payload.encode n)) (hregion : pre.length + bytes.length ≤ u64Max) :
    ∃ reader, openColumn (pre ++ (bytes ++ post)) ⟨columnType, false, pre.length, bytes.length, n⟩ =
        .ok reader ∧
      reader.columnType = columnType ∧ reader.multi = false ∧ reader.numDocs = n ∧
      ∀ d < n, reader.getU64 d = some (payload.value n d) := by
  have hone : PayloadsOk [(payload, n)] := ⟨by simpa using hok, by simpa using hlen, by simp⟩
  obtain ⟨cs, hcs, hon⟩ := newCheckpoints_encode hone false
  generalize hencode : payload.encode n = data at hlen hbytes
  generalize hfile : pre ++ (bytes ++ post) = file
  have hsize : bytes.length = 20 + data.length := by
    rw [hbytes]
    simp [writeTo]
    omega
  -- the number of blocks and the entry of the only one are five numbers of four bytes
  have hcolumn : bytes ++ post = encodeColumn 4 [1, n, data.length, 0, 0] ++ (data ++ post) := by
    rw [hbytes, writeTo]
    simp only [encodeColumn_cons, encodeColumn_nil, append_assoc, nil_append]
  have hfit : ∀ m ∈ [1, n, data.length, 0, 0], m < 256 ^ 4 := by
    rw [u32Max] at hn
    simp
    omega
  have hblocks : readLe 4 file pre.length = 1 := by
    rw [← hfile, hcolumn]
    exact readLe_encodeColumn pre _ hfit (i := 0) (by simp)
  have hentry : readFrom file (pre.length + 4) =
      ⟨n, data.length, 0, 0⟩ := by
    rw [readFrom, ← hfile, hcolumn]
    congr 1
    · exact readLe_encodeColumn pre _ hfit (i := 1) (by simp)
    · exact readLe_encodeColumn pre _ hfit (i := 2) (by simp)
    · exact readLe_encodeColumn pre _ hfit (i := 3) (by simp)
    · exact readLe_encodeColumn pre _ hfit (i := 4) (by simp)
  have hdata : sliceBytes file (pre.length + 20) data.length = data := by
    have := sliceBytes_append (pre ++ encodeColumn 4 [1, n, data.length, 0, 0]) data post
    rwa [append_assoc, ← hcolumn, hfile, length_append, length_encodeColumn] at this
  obtain ⟨block, hblock⟩ : ∃ block : ColumnBlock, block = ⟨0, n, data, [], [], none, []⟩ := ⟨_, rfl⟩
  have hopen : openBlocks file ⟨columnType, false, pre.length, bytes.length, n⟩
      [⟨n, data.length, 0, 0⟩] (pre.length + 20) 0 = .ok ([block], pre.length + bytes.length, n) := by
    have hvalid : subColumns false data n = .ok ([], []) := by
      rw [subColumns, if_neg Bool.false_ne_true, validateAuto_eq_ok_iff.mpr ⟨payload, hok, hencode.symm⟩]
      rfl
    have hdict : checkDict columnType ⟨n, data.length, 0, 0⟩ [] = .ok () := by
      rw [checkDict, if_neg htype]
      exact failIf_of_not (by simp)
    rw [openBlocks, openBlock, hdata, failIf_bind (by dsimp only; omega)]
    dsimp only
    rw [hvalid]
    simp only [ok_bind, sliceBytes, take_zero, hdict]
    rw [failIf_bind (by omega), openBlocks, ok_bind, hblock, hsize]
    simp [Nat.add_assoc]
  refine ⟨⟨columnType, n, false, [block], cs⟩, ?_, rfl, rfl, rfl, fun d hd => ?_⟩
  · rw [openColumn]
    dsimp only
    rw [failIf_bind (by omega), failIf_bind (by simp only [← hfile, length_append]; omega),
      failIf_bind (by omega), hblocks, failIf_bind (by rw [blockIndexEntrySize]; omega)]
    have hentries : (range 1).map (fun i => readFrom file
        (pre.length + 4 + i * blockIndexEntrySize)) = [⟨n, data.length, 0, 0⟩] := by
      simp [range_succ, hentry]
    rw [hentries, show pre.length + 4 + 1 * blockIndexEntrySize = pre.length + 20 by rw [blockIndexEntrySize], hopen,
      ok_bind]
    rw [failIf_bind (by simp), failIf_bind (by simp)]
    have hnew : newCheckpoints ([block].map (·.data)) false = some cs := by
      rw [hblock, ← hencode]
      exact hcs
    rw [hnew]
    rfl
  · have hread := readCheckpointed_encode hone hon (k := 0) rfl hd
    have hfind : findBlock ⟨columnType, n, false, [block], cs⟩ d = (0, d) := if_pos rfl
    rw [getU64, if_neg (by dsimp only; omega), rawValue, hfind]
    simp only [getElem?_cons_zero, map_cons, map_nil, hblock, Option.bind_eq_bind, Option.bind_some,
      Bool.false_eq_true, if_false]
    rw [show [data] = payloadBytes [(payload, n)] by rw [← hencode]; rfl, hread, Option.bind_some,
      remapOrdinal, if_neg]
    simp [needsRemap, htype]

/-- Assignments to documents of a column of `numDocs` documents, none with the encoding of an absent one. -/
structure WritesOk (numDocs : Nat) : Prop where
  docs : ∀ w ∈ writes, w.1 < numDocs
  u64 : ∀ w ∈ writes, w.2 < 2 ^ 64
  present : ∀ w ∈ writes, w.2 ≠ fastFieldMissing
  numDocs : numDocs ≤ u32Max

theorem assigned_map {α β : Type} (f : α → β) (writes : List (Nat × α)) (d : Nat) :
    assigned (writes.map fun w => (w.1, f w.2)) d = (assigned writes d).map f := by
  induction writes using reverseRecOn with
  | nil => rfl
  | append_singleton writes w ih =>
    rw [map_append, map_singleton, assigned_append, ih, assigned_append]
    split <;> rfl

variable {writes : List (Nat × Nat)} {numDocs : Nat}

theorem mem_of_assigned {α : Type} {writes : List (Nat × α)} {d : Nat} {v : α} (h : assigned writes d = some v) :
    (d, v) ∈ writes := by
  induction writes using reverseRecOn with
  | nil => cases h
  | append_singleton writes w ih =>
    rw [assigned_append] at h
    split at h
    case isTrue heq =>
      cases h
      subst heq
      exact mem_append_right _ mem_cons_self
    case isFalse => exact mem_append_left _ (ih h)

/-- The values of the padded writer are the stored ones. -/
theorem values_padTo (h : WritesOk writes numDocs) :
    let self := ((newNumeric columnType false).assign writes).padTo numDocs
    self.multi = false ∧ self.columnType = columnType ∧ self.values = (range numDocs).map (stored writes) := by
  obtain ⟨hmulti, htype, hlength, habsent, hvalues⟩ := assign_single columnType writes
  generalize (newNumeric columnType false).assign writes = self at *
  rw [padTo, if_neg (by simp [hmulti])]
  refine ⟨hmulti, htype, ext_getElem? fun d => ?_⟩
  have hle := hlength numDocs h.docs
  rw [getElem?_grow, getElem?_map]
  split
  case isTrue hin => rw [hvalues d hin, getElem?_range (by omega), Option.map_some]
  case isFalse hout =>
    split
    case isTrue hin =>
      rw [getElem?_range hin, Option.map_some, stored, habsent d (by omega), Option.getD_none]
    case isFalse hin => rw [getElem?_eq_none (by simpa using hin), Option.map_none]

/-- The writer's column of `numDocs` documents is written behind `pre`, and if its payload is shorter than the block
index can say, it opens and the reader has the property. -/
def OpensAs (writer : FastFieldWriter) (numDocs : Nat) (pre post : List Byte) (P : FastFieldReader → Prop) : Prop :=
  ∃ bytes toc, (writer.padTo numDocs).serialize pre.length = .ok (bytes, toc) ∧
    (bytes.length < 2 ^ 32 + 20 → pre.length + bytes.length ≤ u64Max →
      ∃ reader, openColumn (pre ++ (bytes ++ post)) toc = .ok reader ∧ P reader)

theorem OpensAs.imp {writer : FastFieldWriter} {pre post : List Byte} {P Q : FastFieldReader → Prop}
    (h : OpensAs writer numDocs pre post P) (himp : ∀ reader, P reader → Q reader) :
    OpensAs writer numDocs pre post Q := by
  obtain ⟨bytes, toc, hwrite, hread⟩ := h
  refine ⟨bytes, toc, hwrite, fun hshort hregion => ?_⟩
  obtain ⟨reader, hopen, hP⟩ := hread hshort hregion
  exact ⟨reader, hopen, himp reader hP⟩

/-- The column opens, and every document of it reads as what is stored for it. -/
theorem written_raw (h : WritesOk writes numDocs) (htype : columnType ≠ .textOrdinal) (pre post : List Byte) :
    OpensAs ((newNumeric columnType false).assign writes) numDocs pre post fun reader =>
      (∃ payloads, reader.Holds payloads) ∧ reader.numDocs = numDocs ∧
        ∀ d, reader.getU64 d = some (stored writes d) ∧ reader.hasValue d = some (assigned writes d).isSome := by
  obtain ⟨hmulti, hcolumn, hvalues⟩ := values_padTo columnType h
  rw [OpensAs]
  generalize ((newNumeric columnType false).assign writes).padTo numDocs = self at *
  have hlen : self.values.length = numDocs := by rw [hvalues, length_map, length_range]
  have hencodable : Encodable self.values := by
    refine ⟨fun v hv => ?_, by rw [hlen]; have := h.numDocs; rw [u32Max] at this; omega⟩
    rw [hvalues] at hv
    obtain ⟨d, -, rfl⟩ := mem_map.mp hv
    rw [stored]
    cases ha : assigned writes d with
    | none => decide
    | some v => exact h.u64 _ (mem_of_assigned ha)
  obtain ⟨payload, ⟨hok, hvalue⟩, hserialize⟩ := serializeAuto_spec hencodable.u64 hencodable.length
  have hdocs : self.numDocs = numDocs := by
    rw [FastFieldWriter.numDocs, if_neg (by simp [hmulti]), hlen]
    exact Nat.mod_eq_of_lt (by have := h.numDocs; rw [u32Max] at this; omega)
  rw [FastFieldWriter.serialize, FastFieldWriter.blockData, if_neg (by simp [hmulti]), hserialize, ok_bind, hdocs,
    hmulti, hcolumn, hlen]
  rw [hlen] at hok
  simp only [hlen] at hvalue
  refine ⟨_, _, rfl, fun hshort hregion => ?_⟩
  have hsize : (payload.encode numDocs).length < 2 ^ 32 := by
    simp only [length_append, length_leBytes, writeTo] at hshort
    omega
  obtain ⟨reader, hopen, -, hsingle, hnum, hread⟩ :=
    openColumn_written columnType hok h.numDocs hsize htype pre post _ rfl hregion
  -- what is read is what is stored, also behind the last document
  have hget : ∀ d, reader.getU64 d = some (stored writes d) := by
    intro d
    by_cases hd : d < numDocs
    · rw [hread d hd, hvalue d (by omega)]
      simp [hvalues]
    · have hnone : assigned writes d = none := by
        cases ha : assigned writes d with
        | none => rfl
        | some v => exact absurd (h.docs _ (mem_of_assigned ha)) hd
      rw [getU64, if_pos (by omega), stored, hnone]
      rfl
  refine ⟨reader, hopen, openColumn_holds rfl htype hopen, hnum, fun d => ⟨hget d, ?_⟩⟩
  rw [hasValue, if_neg (by simp [hsingle]), hget d, Option.map_some, stored]
  cases ha : assigned writes d with
  | none => split <;> rfl
  | some v =>
    have hd : d < numDocs := h.docs _ (mem_of_assigned ha)
    rw [if_neg (by omega)]
    simpa using h.present _ (mem_of_assigned ha)

/-- `i64::MIN` and `u64::MAX` are assigned to document 0 and read as missing. -/
theorem i64Min_missing :
    (match (((newNumeric .i64 false).addI64 0 (BitVec.intMin 64)).padTo 1).serialize 0 with
      | .ok (bytes, toc) => (openColumn bytes toc).toOption.bind (·.hasValue 0)
      | .error _ => none) = some false ∧
    (match (((newNumeric .u64 false).addU64 0 u64Max).padTo 1).serialize 0 with
      | .ok (bytes, toc) => (openColumn bytes toc).toOption.bind (·.hasValue 0)
      | .error _ => none) = some false := by
  decide +kernel

end Single

end Summa.FastField
