import Summa.Error
import Summa.Lib.ByteColumn
import Summa.Query.DocBitset
import Summa.Structures.FastField

/-!
# Row visibility (`segment/deletion.rs`)

A deletion file stores the live rows of one segment: an `HDEL` header with the row count and the
number of deleted rows, the words of the bitset and an FNV-1a checksum. `DeletionMeta` is the
reference to one such file that the index metadata carries.

* **The file** (`write`, `decode`, `DeletionMeta.load`). A mask that `write` accepts is read back
  exactly (`write_of_fits`, `load_encode`).
* **Merged masks** (`appendDeadRows`). The dead rows of a source land at their positions shifted by
  the offset, also when the offset is not a multiple of the word size (`appendDeadRows_eq_ok`).
* **Targets** (`targetOrdinals`, `clearTargetRows`). The scan clears exactly the live rows whose
  key is one of the deleted keys (`contains_clearTargetRows`).
-/

namespace Summa

open List DocBitset

/-- A segment or deletion-file identity (a UUID in the source). -/
abbrev SegmentId := Nat

/-- A compact metadata reference to one immutable visibility generation. -/
structure DeletionMeta where
  /-- Independently tracked file identity, not the data segment identity. -/
  id : SegmentId
  numDeleted : Nat
  deriving DecidableEq, Repr

/-- The shape of every mask of a segment with `n` rows: one word for each 64 rows, padding bits
clear. -/
structure DocBitset.Fits (b : DocBitset) (n : Nat) : Prop where
  length : b.bits.length = divCeil64 n
  padding : ∀ d, n ≤ d → b.contains d = false

theorem DocBitset.fits_all (n : Nat) : (all n).Fits n :=
  ⟨length_all n, fun d hd => by simp; omega⟩

variable {b : DocBitset} {n : Nat}

theorem DocBitset.Fits.clear (h : b.Fits n) (d : Nat) : (b.clear d).Fits n :=
  ⟨by rw [length_clear, h.length], fun e he => by simp [h.padding e he]⟩

theorem DocBitset.Fits.count (h : b.Fits n) : b.count = (range n).countP b.contains :=
  count_eq_of_lt (by rw [h.length]; unfold divCeil64; omega) h.padding

theorem DocBitset.Fits.count_le (h : b.Fits n) : b.count ≤ n := by
  rw [h.count]
  simpa using countP_le_length (p := b.contains) (l := range n)

/-! ## The deletion file -/

namespace Deletion

/-- FNV-1a over the canonical little-endian header and payload. -/
def checksum (bytes : List Byte) : BitVec 64 :=
  bytes.foldl (fun hash byte => (hash ^^^ byte.setWidth 64) * 0x100000001b3#64)
    0xcbf29ce484222325#64

/-- `b"HDEL\x01\0\0\0"`. -/
def magic : List Byte := [0x48#8, 0x44#8, 0x45#8, 0x4c#8, 1#8, 0#8, 0#8, 0#8]

def header (numDocs numDeleted : Nat) : List Byte :=
  magic ++ (leBytes 4 numDocs ++ leBytes 4 numDeleted)

def decode (bytes : List Byte) (numDocs numDeleted : Nat) : Result DocBitset :=
  let invalid := Error.corruption "invalid row deletion bitset"
  let expected := 24 + divCeil64 numDocs * 8
  if numDeleted > numDocs ∨ bytes.length ≠ expected ∨ bytes.take 8 ≠ magic then .error invalid
  else if leNat ((bytes.drop 8).take 4) ≠ numDocs ∨ leNat ((bytes.drop 12).take 4) ≠ numDeleted then
    .error invalid
  else
    let last := bytes.length - 8
    if checksum (bytes.take last) ≠ wordOfBytes (bytes.drop last) then .error invalid
    else
      let alive : DocBitset := ⟨chunksExact8 ((bytes.take last).drop 16)⟩
      if alive.count ≠ numDocs - numDeleted ∨ (alive.nextSetBit numDocs).isSome then .error invalid
      else .ok alive

/-- The bytes of the deletion file of a mask. -/
def encode (numDocs numDeleted : Nat) (alive : DocBitset) : List Byte :=
  let payload := header numDocs numDeleted ++ alive.bits.flatMap wordBytes
  payload ++ wordBytes (checksum payload)

/-- Writes the mask `alive` under the identity `id`: the reference and the file's bytes. -/
def write (id : SegmentId) (numDocs : Nat) (alive : DocBitset) :
    Result (DeletionMeta × List Byte) :=
  if numDocs < alive.count then
    .error (.corruption "deletion population exceeds row count")
  else
    let numDeleted := numDocs - alive.count
    if numDeleted = 0 ∨ alive.bits.length ≠ divCeil64 numDocs ∨
        (alive.nextSetBit numDocs).isSome then
      .error (.corruption "invalid deletion output")
    else .ok (⟨id, numDeleted⟩, encode numDocs numDeleted alive)

end Deletion

/-- Reads the mask back; `file` is the file under `meta.id`, if there is one. -/
def DeletionMeta.load (self : DeletionMeta) (file : Option (List Byte)) (numDocs : Nat) :
    Result DocBitset :=
  if self.numDeleted = 0 ∨ self.numDeleted > numDocs then
    .error (.corruption "invalid deletion count")
  else match file with
    | none => .error (.corruption s!"referenced deletion file {self.id} is missing")
    | some bytes =>
      if bytes.length ≠ 24 + divCeil64 numDocs * 8 then
        .error (.corruption "invalid deletion file length")
      else Deletion.decode bytes numDocs self.numDeleted

namespace Deletion

theorem length_encode (n k : Nat) (alive : DocBitset) :
    (encode n k alive).length = 24 + alive.bits.length * 8 := by
  simp [encode, header, magic]; omega

variable {n : Nat} {alive : DocBitset} {id : SegmentId} {ordinals : List Nat} {state : DocBitset × Bool}

/-- A mask with at least one dead row is encoded so that `decode` returns it. -/
theorem decode_encode (hn : n < 2 ^ 32) (hf : alive.Fits n) :
    decode (encode n (n - alive.count) alive) n (n - alive.count) = .ok alive := by
  have hle := hf.count_le
  have hlen : (encode n (n - alive.count) alive).length = 24 + divCeil64 n * 8 := by
    rw [length_encode, hf.length]
  have hscan : alive.nextSetBit n = none := (nextSetBit_eq_none _ _).mpr hf.padding
  generalize hk : n - alive.count = k at *
  -- the four parts of the file: magic, counts, words, checksum
  have hparts : encode n k alive = magic ++ (leBytes 4 n ++ (leBytes 4 k ++
      (alive.bits.flatMap wordBytes ++ wordBytes (checksum (header n k ++
        alive.bits.flatMap wordBytes))))) := by
    simp [encode, header]
  have htake8 : (encode n k alive).take 8 = magic := by
    rw [hparts]
    exact take_left' rfl
  have hcount1 : leNat (((encode n k alive).drop 8).take 4) = n := by
    exact readLe_append magic _ (by omega)
  have hcount2 : leNat (((encode n k alive).drop 12).take 4) = k := by
    exact readLe_append (magic ++ leBytes 4 n) _ (by omega)
  have hlast : (header n k ++ alive.bits.flatMap wordBytes).length = (encode n k alive).length - 8 := by
    simp [encode, ← Nat.add_assoc]
  have htakelast : (encode n k alive).take ((encode n k alive).length - 8) =
      header n k ++ alive.bits.flatMap wordBytes := take_left' hlast
  have hdroplast : (encode n k alive).drop ((encode n k alive).length - 8) =
      wordBytes (checksum (header n k ++ alive.bits.flatMap wordBytes)) := drop_left' hlast
  have hwords : chunksExact8 ((header n k ++ alive.bits.flatMap wordBytes).drop 16) = alive.bits := by
    rw [drop_left' (by simp [header, magic]), chunksExact8_flatMap]
  unfold decode
  rw [if_neg (by rw [not_or, not_or]; exact ⟨by omega, not_not.mpr hlen, not_not.mpr htake8⟩),
    if_neg (by rw [not_or]; exact ⟨not_not.mpr hcount1, not_not.mpr hcount2⟩)]
  simp only [htakelast, hdroplast, wordOfBytes_wordBytes, hwords, ne_eq, not_true, ↓reduceIte]
  rw [if_neg (by rw [not_or]; exact ⟨not_not.mpr (show alive.count = n - k by omega), by rw [hscan]; simp⟩)]

/-- `write` accepts a well-formed mask with a dead row. -/
theorem write_of_fits (hf : alive.Fits n) (hlt : alive.count < n) :
    write id n alive = .ok (⟨id, n - alive.count⟩, encode n (n - alive.count) alive) := by
  have hscan : alive.nextSetBit n = none := (nextSetBit_eq_none _ _).mpr hf.padding
  unfold write
  rw [if_neg (by omega), if_neg]
  rw [not_or, not_or, hscan]
  exact ⟨by omega, not_not.mpr hf.length, by simp⟩

/-- What `write` wrote is read back. -/
theorem load_encode (hn : n < 2 ^ 32) (hf : alive.Fits n) (hlt : alive.count < n) :
    DeletionMeta.load ⟨id, n - alive.count⟩ (some (encode n (n - alive.count) alive)) n =
      .ok alive := by
  unfold DeletionMeta.load
  rw [if_neg (by simp only []; omega)]
  simp only [length_encode, hf.length, ne_eq, not_true, ↓reduceIte]
  exact decode_encode hn hf

/-- What `write` accepts: the mask is well formed and has a dead row. -/
theorem write_eq_ok {r : DeletionMeta × List Byte} (h : write id n alive = .ok r) :
    alive.Fits n ∧ alive.count < n ∧ r = (⟨id, n - alive.count⟩, encode n (n - alive.count) alive) := by
  unfold write at h
  split at h
  · cases h
  · simp only [] at h
    split at h
    · cases h
    · rename_i hbad
      rw [not_or, not_or] at hbad
      obtain ⟨h0, hlen, hscan⟩ := hbad
      rw [Option.not_isSome_iff_eq_none] at hscan
      refine ⟨⟨not_not.mp hlen, (nextSetBit_eq_none _ _).mp hscan⟩, by omega, ?_⟩
      injection h with h
      exact h.symm

/-- What a load returns: a well-formed mask with as many live rows as the reference says. -/
theorem load_eq_ok {self : DeletionMeta} {file : Option (List Byte)} (h : self.load file n = .ok alive) :
    alive.Fits n ∧ 0 < self.numDeleted ∧ alive.count + self.numDeleted = n := by
  unfold DeletionMeta.load at h
  split at h
  · cases h
  split at h
  · cases h
  split at h
  · cases h
  simp only [decode] at h
  split_ifs at h with _ _ _ hok
  injection h with h
  rw [h, not_or, Option.not_isSome_iff_eq_none, nextSetBit_eq_none] at hok
  refine ⟨⟨?_, hok.2⟩, by omega, by omega⟩
  rw [← h]
  simp only [length_chunksExact8, length_drop, length_take]
  omega

/-! ## Merged masks -/

/-- The low `valid` bits of a word. -/
def paddingMask (valid : Nat) : BitVec 64 :=
  if valid = 64 then BitVec.allOnes 64 else bit valid - 1#64

/-- One word of `append_dead_rows`: clear the dead rows of word number `wordIndex` of a source
with `numDocs` rows that starts at row `offset` of the output. -/
def appendDeadWord (target : DocBitset) (numDocs offset wordIndex : Nat) (word : BitVec 64) :
    DocBitset :=
  let valid := min (numDocs - wordIndex * 64) 64
  let dead := ~~~word &&& paddingMask valid
  let start := offset + wordIndex * 64
  let out := start / 64
  let shift := start % 64
  let bits := target.bits.modify out (· &&& ~~~(dead <<< shift))
  if shift ≠ 0 ∧ out + 1 < bits.length then
    ⟨bits.modify (out + 1) (· &&& ~~~(dead >>> (64 - shift)))⟩
  else ⟨bits⟩

/-- The loop over the source's words, from word `wordIndex` on. -/
def appendDeadWords (target : DocBitset) (numDocs offset wordIndex : Nat) :
    List (BitVec 64) → DocBitset
  | [] => target
  | word :: words =>
    appendDeadWords (appendDeadWord target numDocs offset wordIndex word) numDocs offset
      (wordIndex + 1) words

/-- Copy deletion bits into a concatenated physical row space. -/
def appendDeadRows (target source : DocBitset) (numDocs offset : Nat) : Result DocBitset :=
  if divCeil64 (offset + numDocs) > target.bits.length then
    .error (.corruption "deletion remap exceeds output row space")
  else .ok (appendDeadWords target numDocs offset 0 source.bits)

theorem length_appendDeadWord (t : DocBitset) (n off i : Nat) (w : BitVec 64) :
    (appendDeadWord t n off i w).bits.length = t.bits.length := by
  simp only [appendDeadWord]; split <;> simp

theorem getLsbD_paddingMask (valid j : Nat) (hv : valid ≤ 64) :
    (paddingMask valid).getLsbD j = decide (j < valid) := by
  unfold paddingMask
  split
  · rename_i h; rw [BitVec.getLsbD_allOnes, h]
  · exact getLsbD_bit_sub_one valid j (by omega)

/-- The second word of a shifted update; past the end there is no bit to clear. -/
theorem contains_appendDeadWord_raw (t : DocBitset) (n off i : Nat) (w : BitVec 64) (d : Nat)
    (dead : BitVec 64) (hd : dead = ~~~w &&& paddingMask (min (n - i * 64) 64)) :
    (appendDeadWord t n off i w).contains d =
      (t.contains d &&
        !(decide (d / 64 = (off + i * 64) / 64) &&
          (dead <<< ((off + i * 64) % 64)).getLsbD (d % 64)) &&
        !(decide (d / 64 = (off + i * 64) / 64 + 1) &&
          (dead >>> (64 - (off + i * 64) % 64)).getLsbD (d % 64))) := by
  simp only [appendDeadWord, ← hd]
  split
  · rw [contains_modify_and_not, contains_modify_and_not]
  · rename_i hno
    rw [contains_modify_and_not]
    by_cases hq : d / 64 = (off + i * 64) / 64 + 1
    · by_cases hs : (off + i * 64) % 64 = 0
      · rw [hs, BitVec.getLsbD_ushiftRight, BitVec.getLsbD_of_ge dead _ (by omega)]
        simp
      · have hlen : t.bits.length ≤ d / 64 := by
          simp only [length_modify] at hno; omega
        have : t.contains d = false := contains_of_length_le (by omega)
        simp [this]
    · simp [hq]

/-- One word clears its dead rows, at their shifted positions, and nothing else. -/
theorem contains_appendDeadWord (t : DocBitset) (n off i : Nat) (w : BitVec 64) (d : Nat) :
    (appendDeadWord t n off i w).contains d =
      (t.contains d && !(decide (off + i * 64 ≤ d ∧ d < off + i * 64 + 64 ∧ d < off + n) &&
        !w.getLsbD (d - (off + i * 64)))) := by
  have hr := Nat.mod_lt d (show 64 > 0 by omega)
  -- the dead bit of position `j` of this word
  have hdead : ∀ j, (~~~w &&& paddingMask (min (n - i * 64) 64)).getLsbD j =
      (!w.getLsbD j && decide (j < n - i * 64 ∧ j < 64)) := by
    intro j
    rw [BitVec.getLsbD_and, BitVec.getLsbD_not, getLsbD_paddingMask _ _ (by omega)]
    by_cases hj : j < 64
    · simp [hj]
    · simp [hj]
  rw [contains_appendDeadWord_raw t n off i w d _ rfl, Bool.and_assoc]
  congr 1
  rw [BitVec.getLsbD_shiftLeft, BitVec.getLsbD_ushiftRight, hdead, hdead]
  obtain ⟨start, hstart⟩ : ∃ start, start = off + i * 64 := ⟨_, rfl⟩
  rw [← hstart]
  -- `d` lies in the first word, in the second, or outside the 64 rows of this word
  by_cases hq : d / 64 = start / 64
  · by_cases hle : start ≤ d
    · have e : d - start = d % 64 - start % 64 := by omega
      have hiff : (d % 64 - start % 64 < n - i * 64 ∧ d % 64 - start % 64 < 64) ↔
          (start ≤ d ∧ d < start + 64 ∧ d < off + n) := by omega
      simp [hq, hr, e, hiff, show ¬ d % 64 < start % 64 by omega, Bool.and_comm]
    · simp [hq, hle, show d % 64 < start % 64 by omega]
  · by_cases hq1 : d / 64 = start / 64 + 1 ∧ d < start + 64
    · have e : d - start = 64 - start % 64 + d % 64 := by omega
      have hiff : (64 - start % 64 + d % 64 < n - i * 64 ∧ 64 - start % 64 + d % 64 < 64) ↔
          (start ≤ d ∧ d < start + 64 ∧ d < off + n) := by omega
      simp [hq1.1, e, hiff, Bool.and_comm]
    · have hout : ¬ (start ≤ d ∧ d < start + 64 ∧ d < off + n) := by omega
      have hhi : ¬ (d / 64 = start / 64 + 1 ∧ 64 - start % 64 + d % 64 < 64) := by omega
      rw [decide_eq_false hq, decide_eq_false hout, Bool.false_and, Bool.false_and]
      by_cases h1 : d / 64 = start / 64 + 1
      · have : ¬ 64 - start % 64 + d % 64 < 64 := fun h => hhi ⟨h1, h⟩
        simp [this]
      · simp [h1]

theorem length_appendDeadWords (t : DocBitset) (n off i : Nat) (ws : List (BitVec 64)) :
    (appendDeadWords t n off i ws).bits.length = t.bits.length := by
  induction ws generalizing t i with
  | nil => rfl
  | cons w ws ih => rw [appendDeadWords, ih, length_appendDeadWord]

/-- The loop clears the dead rows of the words it has left. -/
theorem contains_appendDeadWords (t : DocBitset) (n off i : Nat) (ws : List (BitVec 64)) (d : Nat) :
    (appendDeadWords t n off i ws).contains d =
      (t.contains d && !(decide (off + i * 64 ≤ d ∧ d < off + i * 64 + 64 * ws.length ∧
        d < off + n) && !contains ⟨ws⟩ (d - (off + i * 64)))) := by
  induction ws generalizing t i with
  | nil => simp [appendDeadWords]; omega
  | cons w ws ih =>
    rw [appendDeadWords, ih, contains_appendDeadWord, Bool.and_assoc]
    congr 1
    obtain ⟨start, hstart⟩ : ∃ start, start = off + i * 64 := ⟨_, rfl⟩
    have hnext : off + (i + 1) * 64 = start + 64 := by omega
    have hlen : (w :: ws).length = ws.length + 1 := rfl
    rw [← hstart, hnext, hlen]
    by_cases hfirst : d < start + 64
    · -- a row of the first word
      have h1 : ¬ (start + 64 ≤ d ∧ d < start + 64 + 64 * ws.length ∧ d < off + n) := by omega
      have h2 : (start ≤ d ∧ d < start + 64 * (ws.length + 1) ∧ d < off + n) ↔
          (start ≤ d ∧ d < start + 64 ∧ d < off + n) := by omega
      rw [contains_cons_lt _ _ (by omega)]
      simp [h1, h2]
    · have h1 : ¬ (start ≤ d ∧ d < start + 64 ∧ d < off + n) := by omega
      have h2 : (start ≤ d ∧ d < start + 64 * (ws.length + 1) ∧ d < off + n) ↔
          (start + 64 ≤ d ∧ d < start + 64 + 64 * ws.length ∧ d < off + n) := by omega
      rw [show d - start = 64 + (d - (start + 64)) by omega, contains_cons_add]
      simp [h1, h2]

/-- A source whose rows fit behind `offset` is appended: its dead rows are cleared at their
shifted positions, every other row of the target stays. -/
theorem appendDeadRows_eq_ok {t source : DocBitset} {off : Nat} (hs : source.Fits n)
    (ht : divCeil64 (off + n) ≤ t.bits.length) :
    ∃ t', appendDeadRows t source n off = .ok t' ∧ t'.bits.length = t.bits.length ∧
      ∀ d, t'.contains d =
        (t.contains d && !(decide (off ≤ d ∧ d < off + n) && !source.contains (d - off))) := by
  refine ⟨_, by rw [appendDeadRows, if_neg (by omega)], length_appendDeadWords .., fun d => ?_⟩
  rw [contains_appendDeadWords, Nat.zero_mul, Nat.add_zero]
  congr 4
  rw [eq_iff_iff, hs.length]
  unfold divCeil64
  omega

/-! ## Deletion targets -/

/-- Key resolution over the column's dictionary ordinals. `shutdown` is the cancellation flag of
the source's `check_cancelled`, read before the first key. -/
def targetOrdinals (column : FastFieldReader) (numDocs : Nat) (keys : List String)
    (shutdown : Bool) : Result (List Nat) :=
  if column.numDocs ≠ numDocs ∨ column.multi ∨ column.columnType ≠ .textOrdinal then
    .error (.corruption "primary-key column must contain one text value per physical row")
  else if shutdown ∧ keys ≠ [] then .error .indexClosed
  else .ok (keys.filterMap column.textOrdinal)

/-- One row of the scan: clear a live row whose ordinal is a target. -/
def clearTargetRow (ordinals : List Nat) (state : DocBitset × Bool) (row : Nat × Nat) :
    DocBitset × Bool :=
  if state.1.contains row.1 ∧ ordinals.contains row.2 then (state.1.clear row.1, true) else state

/-- Streaming batch decode: the mask without the target rows, and whether it changed. -/
def clearTargetRows (column : FastFieldReader) (ordinals : List Nat) (alive : DocBitset)
    (shutdown : Bool) : Result (DocBitset × Bool) :=
  if shutdown ∧ column.scanSingleValues ≠ [] then .error .indexClosed
  else .ok (column.scanSingleValues.foldl (clearTargetRow ordinals) (alive, false))

theorem clearTargetRow_target {row : Nat × Nat} (h : state.1.contains row.1 ∧ ordinals.contains row.2) :
    clearTargetRow ordinals state row = (state.1.clear row.1, true) :=
  if_pos h

theorem clearTargetRow_other {row : Nat × Nat} (h : ¬ (state.1.contains row.1 ∧ ordinals.contains row.2)) :
    clearTargetRow ordinals state row = state :=
  if_neg h

theorem contains_foldl_clearTargetRow (ordinals : List Nat) (rows : List (Nat × Nat))
    (alive : DocBitset) (changed : Bool) (d : Nat) :
    (rows.foldl (clearTargetRow ordinals) (alive, changed)).1.contains d =
      (alive.contains d && !rows.any fun r => decide (r.1 = d) && ordinals.contains r.2) := by
  induction rows generalizing alive changed with
  | nil => simp
  | cons row rows ih =>
    rw [foldl_cons, any_cons]
    by_cases hrow : alive.contains row.1 ∧ ordinals.contains row.2
    · rw [clearTargetRow_target hrow, ih, contains_clear]
      by_cases hd : row.1 = d
      · subst hd; simp [contains_iff_mem.mp hrow.2]
      · simp [hd, Ne.symm hd]
    · rw [clearTargetRow_other hrow, ih]
      by_cases hd : row.1 = d
      · subst hd
        rcases Bool.eq_false_or_eq_true (alive.contains row.1) with ha | ha
        · have : ordinals.contains row.2 = false := by simpa [ha] using hrow
          rw [this, Bool.and_false, Bool.false_or]
        · simp [ha]
      · simp [hd]

/-- The flag says whether the scan cleared a row. -/
theorem changed_foldl_clearTargetRow (ordinals : List Nat) (rows : List (Nat × Nat))
    (alive : DocBitset) (changed : Bool) :
    (rows.foldl (clearTargetRow ordinals) (alive, changed)).2 = true ↔
      changed = true ∨ ∃ r ∈ rows, alive.contains r.1 = true ∧ r.2 ∈ ordinals := by
  induction rows generalizing alive changed with
  | nil => simp
  | cons row rows ih =>
    rw [foldl_cons]
    by_cases hrow : alive.contains row.1 ∧ ordinals.contains row.2
    · rw [clearTargetRow_target hrow, ih]
      have hm : row.2 ∈ ordinals := contains_iff_mem.mp hrow.2
      simp only [true_or, mem_cons, exists_eq_or_imp, hrow.1, hm, and_self, or_true]
    · rw [clearTargetRow_other hrow, ih]
      have hno : ¬ (alive.contains row.1 = true ∧ row.2 ∈ ordinals) := fun h =>
        hrow ⟨h.1, contains_iff_mem.mpr h.2⟩
      simp only [mem_cons, exists_eq_or_imp, hno, false_or]

theorem fits_foldl_clearTargetRow {rows : List (Nat × Nat)} (h : state.1.Fits n) :
    (rows.foldl (clearTargetRow ordinals) state).1.Fits n := by
  refine foldlRecOn (motive := fun s => s.1.Fits n) rows (clearTargetRow ordinals) h fun state h row _ => ?_
  unfold clearTargetRow
  split
  · exact h.clear row.1
  · exact h

/-- The key of row `d` is one of `keys`. -/
def isTarget (rowKeys keys : List String) (d : Nat) : Bool :=
  (rowKeys[d]?).any (keys.contains ·)

section Targets

variable {column : FastFieldReader} {rowKeys : List String} (hc : column.Represents rowKeys)

include hc

theorem targetOrdinals_eq_ok (keys : List String) :
    targetOrdinals column rowKeys.length keys false = .ok (keys.filterMap column.textOrdinal) := by
  unfold targetOrdinals
  rw [if_neg (by simp [hc.numDocs, hc.multi, hc.columnType]), if_neg (by simp)]

theorem mem_ordinals_iff {keys : List String} {d v : Nat} (hv : column.values[d]? = some v) :
    v ∈ keys.filterMap column.textOrdinal ↔ isTarget rowKeys keys d = true := by
  obtain ⟨k, hk, hd⟩ := hc.value_eq_some hv
  simp only [mem_filterMap, hc.textOrdinal_eq_some, hd, Option.some.injEq, isTarget, hk,
    Option.any_some, contains_iff_mem]
  constructor
  · rintro ⟨a, ha, rfl⟩; exact ha
  · intro h; exact ⟨k, h, rfl⟩

/-- A target row's ordinal is one of the target ordinals. -/
theorem value_of_isTarget {keys : List String} {d : Nat} (h : isTarget rowKeys keys d = true) :
    ∃ v, column.values[d]? = some v ∧ v ∈ keys.filterMap column.textOrdinal := by
  have hk : ∃ k, rowKeys[d]? = some k := by
    unfold isTarget at h
    cases hk : rowKeys[d]? with
    | none => rw [hk] at h; cases h
    | some k => exact ⟨k, rfl⟩
  obtain ⟨k, hk⟩ := hk
  obtain ⟨v, hv, -⟩ := hc.value d k hk
  exact ⟨v, hv, (mem_ordinals_iff hc hv).mpr h⟩

/-- The scan clears exactly the live rows whose key is a target. -/
theorem contains_clearTargetRows (keys : List String) {alive : DocBitset} {n : Nat} (hf : alive.Fits n) :
    ∃ alive' changed,
      clearTargetRows column (keys.filterMap column.textOrdinal) alive false = .ok (alive', changed) ∧
      alive'.Fits n ∧ (∀ d, alive'.contains d = (alive.contains d && !isTarget rowKeys keys d)) ∧
      (changed = true ↔ ∃ d, alive.contains d = true ∧ isTarget rowKeys keys d = true) := by
  refine ⟨_, _, by rw [clearTargetRows, if_neg (by simp)], fits_foldl_clearTargetRow hf,
    fun d => ?_, ?_⟩
  · rw [contains_foldl_clearTargetRow]
    congr 2
    rw [Bool.eq_iff_iff, any_eq_true]
    constructor
    · rintro ⟨⟨e, v⟩, hm, hr⟩
      rw [hc.mem_scanSingleValues] at hm
      simp only [Bool.and_eq_true, decide_eq_true_eq, contains_iff_mem] at hr
      obtain ⟨rfl, hr⟩ := hr
      exact (mem_ordinals_iff hc hm).mp hr
    · intro ht
      obtain ⟨v, hv, ho⟩ := value_of_isTarget hc ht
      exact ⟨(d, v), hc.mem_scanSingleValues.mpr hv, by simpa using ho⟩
  · rw [changed_foldl_clearTargetRow]
    simp only [Bool.false_eq_true, false_or]
    constructor
    · rintro ⟨⟨d, v⟩, hm, ha, ho⟩
      exact ⟨d, ha, (mem_ordinals_iff hc (hc.mem_scanSingleValues.mp hm)).mp ho⟩
    · rintro ⟨d, ha, ht⟩
      obtain ⟨v, hv, ho⟩ := value_of_isTarget hc ht
      exact ⟨(d, v), hc.mem_scanSingleValues.mpr hv, ha, ho⟩

end Targets

end Deletion

end Summa
