import Summa.Structures.FastField.Opened

/-!
# Batch reads of a column (`structures/fast_field/mod.rs`)

A cursor reads batches from any document on; a scan visits the batches of all blocks in order, without those that a
test of the block excludes. Both decode into the caller's scratch.

* `readBatch_eq`: a batch read returns the values from its start on, up to the end of the block.
* `Holds.scan`: the invariant rule of a scan.
-/

namespace Summa.FastField

open List

/-- `remap_batch`. -/
def remapBatch (map values : List Nat) : List Nat := values.map (remap map)

/-- Seekable decoding state tied to one single-value reader. -/
structure SingleValueCursor where
  block : Nat
  codec : BlockwiseLinearCursor

namespace SingleValueCursor

/-- No block has the number `usize::MAX`. -/
def new : SingleValueCursor := ⟨u64Max, .default⟩

/-- Read at most one copied block into the scratch `out`. The result has the values that were read. -/
def readBatch (self : SingleValueCursor) (reader : FastFieldReader) (start : Nat) (out : List Nat) :
    Option (List Nat × SingleValueCursor) :=
  if reader.numDocs ≤ start ∨ out = [] then some ([], self)
  else do
    let (blockIdx, localDoc) := reader.findBlock start
    let codec := if blockIdx ≠ self.block then .default else self.codec
    let block ← reader.blocks[blockIdx]?
    let count := min out.length (block.numDocs - localDoc)
    let (values, codec) ← autoReadBatchWithCursor block.data localDoc (out.take count) codec
    let values ← if reader.needsRemap then (reader.ordinalMap blockIdx).map fun map => remapBatch map values
      else some values
    some (values, ⟨blockIdx, codec⟩)

end SingleValueCursor

section Scan

variable {σ : Type}

/-- `BATCH`. -/
def scanBatch : Nat := 256

/-- The batches of one block from `pos` on. -/
def scanBlock (block : ColumnBlock) (map : Option (List Nat)) (f : Nat → List Nat → σ → Option σ) :
    (turns pos : Nat) → (buf : List Nat) → BlockwiseLinearCursor → σ → Option (List Nat × σ)
  | 0, _, buf, _, s => some (buf, s)
  | turns + 1, pos, buf, cursor, s =>
    if pos < block.numDocs then do
      let chunk := min (block.numDocs - pos) scanBatch
      let (values, cursor) ← autoReadBatchWithCursor block.data pos (buf.take chunk) cursor
      let values := (map.map fun map => remapBatch map values).getD values
      let s ← f (block.cumulativeDocs + pos) values s
      scanBlock block map f turns (pos + chunk) (values ++ buf.drop chunk) cursor s
    else some (buf, s)

/-- The blocks from number `blockIdx` on; a batch has a document at least. -/
def scanBlocks (maps : Option (List (List Nat))) (shouldScan : ColumnBlock → Option Bool)
    (f : Nat → List Nat → σ → Option σ) : (blocks : List ColumnBlock) → (blockIdx : Nat) → (buf : List Nat) → σ → Option σ
  | [], _, _, s => some s
  | block :: blocks, blockIdx, buf, s => do
    if ← shouldScan block then
      let map ← match maps with
        | none => some none
        | some maps => maps[blockIdx]?.map some
      let (buf, s) ← scanBlock block map f block.numDocs 0 buf .default s
      scanBlocks maps shouldScan f blocks (blockIdx + 1) buf s
    else scanBlocks maps shouldScan f blocks (blockIdx + 1) buf s

/-- Reject complete copied blocks before reading their payloads. -/
def FastFieldReader.tryScanSingleValueBatchesWhere (self : FastFieldReader) (shouldScan : ColumnBlock → Option Bool)
    (f : Nat → List Nat → σ → Option σ) (s : σ) : Option σ :=
  if self.multi then some s
  else do
    let maps ← if self.needsRemap then (buildTextState self.blocks).map fun state => some state.ordinalMaps
      else some none
    scanBlocks maps shouldScan f self.blocks 0 (replicate scanBatch 0) s

end Scan

/-- Behind the column nothing is read. -/
theorem SingleValueCursor.readBatch_end {reader : FastFieldReader} {start : Nat} (h : reader.numDocs ≤ start)
    (cursor : SingleValueCursor) (out : List Nat) : cursor.readBatch reader start out = some ([], cursor) :=
  if_pos (.inl h)

/-- The cursor stands at a place of the block it read last. -/
def SingleValueCursor.At (cursor : SingleValueCursor) (payloads : List (Payload × Nat)) : Prop :=
  ∀ payload n, payloads[cursor.block]? = some (payload, n) → cursor.codec.At payload

theorem SingleValueCursor.new_at (payloads : List (Payload × Nat)) : SingleValueCursor.new.At payloads :=
  fun payload _ _ => BlockwiseLinearCursor.default_at payload

/-- The values of the documents from `start` on. -/
def columnValues (payloads : List (Payload × Nat)) (start len : Nat) : List Nat :=
  (range len).map fun i => columnValue payloads (start + i)

@[simp] theorem length_columnValues (payloads : List (Payload × Nat)) (start len : Nat) :
    (columnValues payloads start len).length = len := by
  rw [columnValues, length_map, length_range]

theorem values_eq_columnValues {payloads : List (Payload × Nat)} {payload : Payload} {n k start len : Nat}
    (hk : payloads[k]? = some (payload, n)) (hrange : start + len ≤ n) :
    payload.values n start len = columnValues payloads (docsBefore payloads k + start) len := by
  refine map_congr_left fun i hi => ?_
  have := mem_range.mp hi
  rw [Nat.add_assoc, columnValue_eq hk (by omega)]

namespace FastFieldReader.Holds

variable {reader : FastFieldReader} {payloads : List (Payload × Nat)}

section Cursor

variable (h : reader.Holds payloads) {cursor : SingleValueCursor} (hat : cursor.At payloads) {start : Nat} {out : List Nat}

include h hat

/-- A batch read of documents of the column returns some of their values, and at least one. -/
theorem readBatch_eq (hstart : start < reader.numDocs) (hout : out ≠ []) :
    ∃ len cursor', cursor.readBatch reader start out = some (columnValues payloads start len, cursor') ∧
      cursor'.At payloads ∧ 0 < len ∧ len ≤ out.length ∧ start + len ≤ reader.numDocs := by
  obtain ⟨k, payload, n, hk, hle, hlt⟩ := exists_block (h.numDocs ▸ hstart)
  obtain ⟨i, rfl⟩ := Nat.exists_eq_add_of_le hle
  have hi : i < n := by omega
  have hpos : 0 < out.length := length_pos_of_ne_nil hout
  have hlength : (out.take (min out.length (n - i))).length = min out.length (n - i) := by
    rw [length_take]
    omega
  have hcodec : (if k ≠ cursor.block then .default else cursor.codec : BlockwiseLinearCursor).At payload := by
    split
    case isTrue => exact BlockwiseLinearCursor.default_at payload
    case isFalse hsame => exact hat payload n (Decidable.not_not.mp hsame ▸ hk)
  have hrange : i + (out.take (min out.length (n - i))).length ≤ n := by omega
  obtain ⟨codec', hcodec', hread⟩ := autoReadBatchWithCursor_encode (h.ok.ok _ (mem_of_getElem? hk)) hrange hcodec
  have hend := docsBefore_mono payloads (Nat.succ_le_of_lt (List.getElem?_eq_some_iff.mp hk).1)
  rw [Nat.succ_eq_add_one, docsBefore_succ hk, docsBefore_length, ← h.numDocs] at hend
  refine ⟨min out.length (n - i), ⟨k, codec'⟩, ?_, ?_, by omega, by omega, by omega⟩
  · rw [SingleValueCursor.readBatch, if_neg (by simp [hout, Nat.not_le.mpr hstart]), h.findBlock_eq hk hi]
    simp only [h.getElem?_blocks hk, h.needsRemap, Option.bind_eq_bind, Option.bind_some]
    rw [hread, hlength, values_eq_columnValues hk (by omega)]
    rfl
  · intro payload' n' hk'
    obtain ⟨rfl, rfl⟩ : payload = payload' ∧ n = n' := by simpa [hk] using hk'
    exact hcodec'

end Cursor

section Scan

variable {σ : Type} {f : Nat → List Nat → σ → Option σ} {P : Nat → σ → Prop}
  (hf : ∀ start len s, start + len ≤ (payloads.map (·.2)).sum → P start s →
    ∃ s', f start (columnValues payloads start len) s = some s' ∧ P (start + len) s')

include hf

theorem scanBlock_rule (hok : PayloadsOk payloads) {k n : Nat} {payload : Payload} (hk : payloads[k]? = some (payload, n))
    {turns pos : Nat} {buf : List Nat} {cursor : BlockwiseLinearCursor} {s : σ} (hpos : pos ≤ n) (hturns : n - pos ≤ turns)
    (hbuf : buf.length = scanBatch) (hcursor : cursor.At payload) (hs : P (docsBefore payloads k + pos) s) :
    ∃ buf' s', scanBlock ⟨docsBefore payloads k, n, payload.encode n, [], [], none, []⟩ none f turns pos buf cursor s =
      some (buf', s') ∧ buf'.length = scanBatch ∧ P (docsBefore payloads k + n) s' := by
  induction turns generalizing pos buf cursor s with
  | zero =>
    obtain rfl : pos = n := by omega
    exact ⟨buf, s, rfl, hbuf, hs⟩
  | succ turns ih =>
    rw [scanBlock]
    split
    case isTrue hlt =>
      dsimp only at hlt ⊢
      have hchunk : 0 < min (n - pos) scanBatch ∧ pos + min (n - pos) scanBatch ≤ n := by
        rw [scanBatch]
        omega
      have hlength : (buf.take (min (n - pos) scanBatch)).length = min (n - pos) scanBatch := by
        rw [length_take]
        omega
      have hrange : pos + (buf.take (min (n - pos) scanBatch)).length ≤ n := by omega
      obtain ⟨cursor', hcursor', hread⟩ := autoReadBatchWithCursor_encode (hok.ok _ (mem_of_getElem? hk)) hrange hcursor
      have hend := docsBefore_mono payloads (Nat.succ_le_of_lt (List.getElem?_eq_some_iff.mp hk).1)
      rw [Nat.succ_eq_add_one, docsBefore_succ hk, docsBefore_length] at hend
      obtain ⟨s₁, hs₁, hP⟩ := hf _ (min (n - pos) scanBatch) s (by omega) hs
      rw [hread, hlength, values_eq_columnValues hk hchunk.2]
      dsimp only [Option.bind_eq_bind, Option.bind_some, Option.map_none, Option.getD_none]
      rw [hs₁, Option.bind_some]
      refine ih hchunk.2 (by omega) ?_ hcursor' (by rwa [← Nat.add_assoc])
      rw [length_append, length_columnValues, length_drop]
      omega
    case isFalse hge =>
      obtain rfl : pos = n := by
        dsimp only at hge
        omega
      exact ⟨buf, s, rfl, hbuf, hs⟩

/-- The invariant rule of a scan: `P d` holds when the documents before `d` are done. A visitor takes it over a batch,
and a block that is not scanned takes it over its documents. -/
theorem scan (h : reader.Holds payloads) {shouldScan : ColumnBlock → Option Bool}
    (hscan : ∀ k payload n, payloads[k]? = some (payload, n) →
      ∃ b, shouldScan ⟨docsBefore payloads k, n, payload.encode n, [], [], none, []⟩ = some b ∧
        (b = false → ∀ s, P (docsBefore payloads k) s → P (docsBefore payloads k + n) s))
    {s : σ} (hs : P 0 s) : ∃ s', reader.tryScanSingleValueBatchesWhere shouldScan f s = some s' ∧ P reader.numDocs s' := by
  -- over the blocks from number `k` on
  have hblocks : ∀ rest k buf s, payloads.drop k = rest → buf.length = scanBatch → P (docsBefore payloads k) s →
      ∃ s', scanBlocks none shouldScan f (columnBlocks (docsBefore payloads k) rest) k buf s = some s' ∧
        P reader.numDocs s' := by
    intro rest
    induction rest with
    | nil =>
      intro k buf s hrest _ hs
      have hlen := drop_eq_nil_iff.mp hrest
      rw [docsBefore, take_of_length_le hlen, ← h.numDocs] at hs
      exact ⟨s, rfl, hs⟩
    | cons p rest ih =>
      intro k buf s hrest hbuf hs
      have hk : payloads[k]? = some p := by
        rw [← Nat.add_zero k, ← getElem?_drop, hrest]
        rfl
      have hnext : payloads.drop (k + 1) = rest := by
        rw [← drop_drop, hrest]
        rfl
      have hbefore := docsBefore_succ hk
      obtain ⟨b, hb, hskip⟩ := hscan k p.1 p.2 hk
      rw [columnBlocks, scanBlocks, hb, ← hbefore]
      cases b with
      | false => exact ih (k + 1) buf s hnext hbuf (hbefore ▸ hskip rfl s hs)
      | true =>
        have hturns : p.2 - 0 ≤ p.2 := Nat.sub_le ..
        obtain ⟨buf', s₁, hrun, hbuf', hs₁⟩ := scanBlock_rule hf h.ok hk (Nat.zero_le _) hturns hbuf
          (BlockwiseLinearCursor.default_at p.1) hs
        dsimp only [Option.bind_eq_bind, Option.bind_some]
        rw [hrun]
        exact ih (k + 1) buf' s₁ hnext hbuf' (hbefore ▸ hs₁)
  rw [tryScanSingleValueBatchesWhere, h.single, h.needsRemap, h.blocks]
  exact hblocks payloads 0 _ s rfl length_replicate hs

end Scan

end FastFieldReader.Holds

end Summa.FastField
