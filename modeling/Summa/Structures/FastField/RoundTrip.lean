import Summa.Structures.FastField.CheckpointSpec
import Summa.Structures.FastField.CodecWrite

/-!
# Round trip of the fast-field codecs

The writer's half (`serializeAuto_spec`) and the readers' half (`autoRead_encode`, `autoReadBatchWithCursor_encode`,
`readCheckpointed_encode`) meet at `Payload`: a payload that is written is accepted, and every way to read it returns
the values.

* `serializeAuto_roundTrip`: for fewer than `2 ^ 32` values.
* `serializeAuto_steps_rejected`: a header counts values in 32 bits. The payload of `2 ^ 32` values of a codec with
  such a header is not accepted.
-/

namespace Summa.FastField

open List BlockwiseLinearEstimator

/-- Batch reads with one cursor, each into its own scratch. -/
def cursorReads (data : List Byte) : List (Nat × List Nat) → BlockwiseLinearCursor → Option (List (List Nat))
  | [], _ => some []
  | (start, out) :: reads, cursor => do
    let (values, cursor) ← autoReadBatchWithCursor data start out cursor
    let rest ← cursorReads data reads cursor
    some (values :: rest)

section Payload

variable {payload : Payload} {values : List Nat}

/-- The values of a batch are a window of the values. -/
theorem Payload.values_eq_window (hvalue : ∀ (i : Nat) (hi : i < values.length), payload.value values.length i = values[i])
    {start len : Nat} (hrange : start + len ≤ values.length) :
    payload.values values.length start len = (values.drop start).take len := by
  apply ext_getElem
  · rw [Payload.length_values, length_take, length_drop]
    omega
  · intro i hi _
    rw [Payload.length_values] at hi
    simp only [Payload.values, getElem_map, getElem_range, getElem_take, getElem_drop]
    exact hvalue (start + i) (by omega)

/-- Any sequence of batch reads; the cursor stays at a block of the payload. -/
theorem cursorReads_encode {n : Nat} (hok : payload.Ok n) {reads : List (Nat × List Nat)}
    (hreads : ∀ r ∈ reads, r.1 + r.2.length ≤ n) {cursor : BlockwiseLinearCursor} (hcursor : cursor.At payload) :
    cursorReads (payload.encode n) reads cursor = some (reads.map fun r => payload.values n r.1 r.2.length) := by
  induction reads generalizing cursor with
  | nil => rfl
  | cons r reads ih =>
    obtain ⟨next, hnext, hread⟩ := autoReadBatchWithCursor_encode hok (hreads _ mem_cons_self) hcursor
    rw [cursorReads, hread]
    dsimp only [Option.bind_eq_bind, Option.bind_some]
    rw [ih (fun r hr => hreads r (mem_cons_of_mem _ hr)) hnext]
    rfl

end Payload

/-- Values that a payload can hold: `u64`s, fewer than the header can count. -/
structure Encodable (values : List Nat) : Prop where
  u64 : ∀ v ∈ values, v < 2 ^ 64
  length : values.length < 2 ^ 32

/-- The payloads of the blocks of a column, each shorter than the block index can say. -/
structure Written (columns : List (List Nat)) (payloads : List (List Byte)) : Prop where
  encodable : ∀ values ∈ columns, Encodable values
  written : columns.map serializeAuto = payloads.map .ok
  length : ∀ data ∈ payloads, data.length < 2 ^ 32
  count : columns.length < 2 ^ 32

/-- The parsed payloads of the blocks of a column. -/
theorem Written.parsed {columns : List (List Nat)} {payloads : List (List Byte)} (h : Written columns payloads) :
    ∃ parsed : List (Payload × Nat), payloadBytes parsed = payloads ∧ PayloadsOk parsed ∧
      ∀ (k : Nat) (values : List Nat), columns[k]? = some values → ∃ payload : Payload,
        parsed[k]? = some (payload, values.length) ∧
          ∀ (i : Nat) (hi : i < values.length), payload.value values.length i = values[i] := by
  obtain ⟨hencodable, hwritten, hlength, hcount⟩ := h
  suffices hparsed : ∃ parsed : List (Payload × Nat), payloadBytes parsed = payloads ∧
      parsed.length = columns.length ∧ (∀ p ∈ parsed, p.1.Ok p.2) ∧
      ∀ (k : Nat) (values : List Nat), columns[k]? = some values → ∃ payload : Payload,
        parsed[k]? = some (payload, values.length) ∧
          ∀ (i : Nat) (hi : i < values.length), payload.value values.length i = values[i] by
    obtain ⟨parsed, hbytes, hlen, hok, hvalues⟩ := hparsed
    refine ⟨parsed, hbytes, ⟨hok, fun p hp => ?_, by rwa [hlen]⟩, hvalues⟩
    exact hlength _ (hbytes ▸ mem_map_of_mem hp)
  clear hlength hcount
  induction columns generalizing payloads with
  | nil =>
    have hnil : payloads = [] := map_eq_nil_iff.mp hwritten.symm
    exact ⟨[], hnil.symm, rfl, nofun, nofun⟩
  | cons values columns ih =>
    cases payloads with
    | nil => cases hwritten
    | cons data payloads =>
      rw [map_cons, map_cons, cons.injEq] at hwritten
      obtain ⟨hdata, hwritten⟩ := hwritten
      have hvalues := hencodable values mem_cons_self
      obtain ⟨payload, ⟨hok, hvalue⟩, hbytes⟩ := serializeAuto_spec hvalues.u64 hvalues.length
      rw [hdata, Except.ok.injEq] at hbytes
      obtain ⟨parsed, hparsed, hlen, hall, hrest⟩ := ih (fun v hv => hencodable v (mem_cons_of_mem _ hv)) hwritten
      refine ⟨(payload, values.length) :: parsed, ?_, by simp [hlen], ?_, ?_⟩
      · rw [payloadBytes, map_cons, ← payloadBytes, hparsed, hbytes]
      · intro p hp
        rcases mem_cons.mp hp with rfl | hp
        · exact hok
        · exact hall p hp
      · intro k other hk
        cases k with
        | zero =>
          cases hk
          exact ⟨payload, rfl, hvalue⟩
        | succ k => exact hrest k other hk

/-- A written payload is accepted, and a point read, a batch read, any sequence of batch reads with one cursor and a
point read through the checkpoints of a column return the values. -/
theorem serializeAuto_roundTrip {values : List Nat} (hvalues : Encodable values) :
    ∃ data, serializeAuto values = .ok data ∧ validateAuto data values.length = .ok () ∧
      (∀ (i : Nat) (hi : i < values.length), autoRead data i = some values[i]) ∧
      (∀ (start : Nat) (out : List Nat), start + out.length ≤ values.length →
        autoReadBatch data start out = some ((values.drop start).take out.length)) ∧
      (∀ reads : List (Nat × List Nat), (∀ r ∈ reads, r.1 + r.2.length ≤ values.length) →
        cursorReads data reads .default = some (reads.map fun r => (values.drop r.1).take r.2.length)) ∧
      ∀ (columns : List (List Nat)) (payloads : List (List Byte)), Written columns payloads →
        ∃ checkpoints, newCheckpoints payloads false = some checkpoints ∧
          ∀ (k : Nat), columns[k]? = some values → ∀ (i : Nat) (hi : i < values.length),
            readCheckpointed checkpoints payloads k i = some values[i] := by
  obtain ⟨payload, ⟨hok, hvalue⟩, hwritten⟩ := serializeAuto_spec hvalues.u64 hvalues.length
  refine ⟨payload.encode values.length, hwritten, validateAuto_eq_ok_iff.mpr ⟨payload, hok, rfl⟩, ?_, ?_, ?_, ?_⟩
  · intro i hi
    rw [autoRead_encode hok hi, hvalue i hi]
  · intro start out hrange
    rw [autoReadBatch_encode hok hrange, Payload.values_eq_window hvalue hrange]
  · intro reads hreads
    rw [cursorReads_encode hok hreads (BlockwiseLinearCursor.default_at payload)]
    refine congrArg some (map_congr_left fun r hr => ?_)
    exact Payload.values_eq_window hvalue (hreads r hr)
  · intro columns payloads hcolumn
    obtain ⟨parsed, rfl, hparsedOk, hparsed⟩ := hcolumn.parsed
    obtain ⟨checkpoints, hnew, hon⟩ := newCheckpoints_encode hparsedOk false
    refine ⟨checkpoints, hnew, fun k hk i hi => ?_⟩
    obtain ⟨stored, hstored, hstoredValue⟩ := hparsed k values hk
    rw [readCheckpointed_encode hparsedOk hon hstored hi, hstoredValue i hi]

theorem serializeAuto_roundTrip_two :
    Encodable [3, 7] ∧ ∃ data, serializeAuto [3, 7] = .ok data ∧ validateAuto data 2 = .ok () ∧
      autoRead data 1 = some 7 := by
  have hvalues : Encodable [3, 7] := ⟨by decide, by decide⟩
  obtain ⟨data, hwritten, haccept, hread, -⟩ := serializeAuto_roundTrip hvalues
  exact ⟨hvalues, data, hwritten, haccept, hread 1 (by decide)⟩

section Steps

variable {values : List Nat}

/-- Zeros and one more value. -/
def stepBlock (n last : Nat) : List Nat := replicate n 0 ++ [last]

@[simp] theorem length_stepBlock (n last : Nat) : (stepBlock n last).length = n + 1 := by simp [stepBlock]

/-- A one among zeros takes a bit for each value. -/
theorem bitpacked_estimate_stepBlock (n : Nat) :
    ((stepBlock (n + 1) 1).foldl .collect BitpackedEstimator.default).estimate =
      some (10 + packedBytes (n + 1 + 1) 1) := by
  have hzeros : ∀ k c, (replicate k 0).foldl .collect (⟨0, 0, c, true⟩ : BitpackedEstimator) =
      ⟨0, 0, c + k, true⟩ := by
    intro k
    induction k with
    | zero => exact fun c => rfl
    | succ k ih =>
      intro c
      rw [replicate_succ, foldl_cons, BitpackedEstimator.collect, if_pos rfl]
      refine (ih (c + 1)).trans ?_
      rw [Nat.add_right_comm, Nat.add_assoc]
  have hfirst : BitpackedEstimator.default.collect 0 = ⟨0, 0, 1, true⟩ := rfl
  rw [stepBlock, replicate_succ, cons_append, foldl_cons, hfirst, foldl_append, hzeros, Nat.add_comm 1 n]
  simp [BitpackedEstimator.collect, BitpackedEstimator.estimate, bitsNeededU64]

/-- A block with a step at its end lies on its line and takes a header only. -/
theorem estimateBlock_stepBlock {last : Nat} (hlast : last ≤ 1) :
    estimateBlock (stepBlock (blockSize - 1) last) = some ⟨0, 0, 29⟩ := by
  interval_cases last <;> decide +kernel

/-- Flat blocks are counted, 29 bytes each. -/
theorem collectBlocks_flat {blocks : List (List Nat)} (hflat : ∀ block ∈ blocks, estimateBlock block = some ⟨0, 0, 29⟩)
    (self : BlockwiseLinearEstimator) :
    (self.collectBlocks blocks).overflow = self.overflow ∧ (self.collectBlocks blocks).count = self.count ∧
      (self.collectBlocks blocks).completedSize = self.completedSize + 29 * blocks.length := by
  induction blocks generalizing self with
  | nil => exact ⟨rfl, rfl, rfl⟩
  | cons block blocks ih =>
    rw [collectBlocks, hflat block mem_cons_self]
    obtain ⟨hoverflow, hcount, hsize⟩ := ih (fun b hb => hflat b (mem_cons_of_mem _ hb))
      { self with
        completedSize := self.completedSize + 29
        completedBlocks := self.completedBlocks ++ [⟨0, 0, 29⟩] }
    refine ⟨hoverflow, hcount, hsize.trans ?_⟩
    rw [length_cons]
    dsimp only
    omega

/-- The estimate for whole flat blocks. -/
theorem blockwise_estimate_flat {m : Nat} (hm : 2 ≤ m) (hlen : values.length = m * blockSize)
    (hflat : ∀ b < m, estimateBlock (blockAt values b) = some ⟨0, 0, 29⟩) :
    (collectValues values).finalize.estimate = some (9 + 29 * m) := by
  have hblocks : values.length / blockSize = m := by
    rw [hlen]
    exact Nat.mul_div_cancel m (by decide)
  have hall : ∀ block ∈ (range m).map (blockAt values), estimateBlock block = some ⟨0, 0, 29⟩ := by
    intro block hblock
    obtain ⟨b, hb, rfl⟩ := mem_map.mp hblock
    exact hflat b (mem_range.mp hb)
  obtain ⟨hoverflow, hcount, hsize⟩ := collectBlocks_flat hall
    { default with count := values.length }
  have hnil : values.drop (m * blockSize) = [] := drop_of_length_le (by omega)
  rw [collectValues, hblocks, hnil]
  rw [if_neg (by rw [hoverflow]; exact Bool.false_ne_true), finalize, estimate]
  simp only [true_or, if_true, hoverflow, hcount, hsize]
  rw [if_neg]
  · simp [BlockwiseLinearEstimator.default]
  · simp only [BlockwiseLinearEstimator.default, hlen, blockSize]
    simp
    omega

/-- `m` blocks of zeros with a one at the end. -/
def steps (m : Nat) : List Nat := stepBlock (m * blockSize - 1) 1

theorem blockAt_steps {m b : Nat} (hb : b < m) :
    blockAt (steps m) b = stepBlock (blockSize - 1) (if b + 1 = m then 1 else 0) := by
  have hlast : b + 1 = m ↔ (b + 1) * blockSize = m * blockSize := by
    rw [Nat.mul_left_inj (by decide)]
  apply ext_getElem
  · rw [length_blockAt, blockCount, length_stepBlock, steps, length_stepBlock, blockSize]
    omega
  · intro i hi hi'
    rw [length_stepBlock, blockSize] at hi'
    obtain ⟨hlt, hget⟩ := getElem_blockAt hi
    rw [hget]
    simp only [steps, stepBlock, blockSize, getElem_append, length_replicate, getElem_replicate,
      getElem_singleton]
    split <;> split <;> first | rfl | (split <;> omega) | omega

/-- A block-wise payload of steps is smaller than one that takes a bit for each value. -/
theorem serializeAuto_steps_codec {m : Nat} (hm : 2 ≤ m) {data : List Byte}
    (hdata : serializeAuto (steps m) = .ok data) :
    data.head? = some CodecType.linear.toByte ∨ data.head? = some CodecType.blockwiseLinear.toByte := by
  have hlen : (steps m).length = m * blockSize := by
    rw [steps, length_stepBlock, blockSize]
    omega
  have hzero : 0 ∈ steps m := by
    rw [steps, stepBlock, blockSize]
    exact mem_append_left _ (mem_replicate.mpr ⟨by omega, rfl⟩)
  have hone : 1 ∈ steps m := by
    exact mem_append_right _ mem_cons_self
  have hflat : ∀ b < m, estimateBlock (blockAt (steps m) b) = some ⟨0, 0, 29⟩ := by
    intro b hb
    rw [blockAt_steps hb]
    exact estimateBlock_stepBlock (by split <;> omega)
  have hblockwise := blockwise_estimate_flat hm hlen hflat
  rw [serializeAuto] at hdata
  split at hdata
  case h_2 hnone =>
    simp [hblockwise] at hnone
  case h_1 best hbest =>
    have hle : best.1 ≤ 9 + 29 * m := by
      refine le_of_mem_argmin (f := fun c : Nat × IoResult (List Byte) => c.1)
        (a := (9 + 29 * m, (collectValues (steps m)).finalize.serialize (steps m))) ?_ hbest
      simp [hblockwise]
    have hpacked : 29 * m < packedBytes (steps m).length 1 := by
      rw [hlen, packedBytes, blockSize]
      omega
    obtain ⟨c, hc, hsized⟩ := mem_filterMap.mp (argmin_mem hbest)
    obtain ⟨size, hsize, rfl⟩ := Option.map_eq_some_iff.mp hsized
    simp only [mem_cons, not_mem_nil, or_false] at hc
    rcases hc with rfl | rfl | rfl | rfl
    · -- zero and one are not the same
      exfalso
      obtain ⟨-, hall⟩ := (constant_collect (steps m)).2 (allSame_of_estimate hsize)
      have := (hall 0 hzero).trans (hall 1 hone).symm
      omega
    · obtain ⟨n, hn⟩ : ∃ n, m * blockSize - 1 = n + 1 := ⟨m * blockSize - 2, by rw [blockSize]; omega⟩
      rw [steps, length_stepBlock, hn] at hpacked
      rw [steps, hn, bitpacked_estimate_stepBlock, Option.some.injEq] at hsize
      dsimp only at hle
      omega
    · obtain ⟨_, -, hdata⟩ := Fallible.bind_eq_ok hdata
      obtain ⟨_, -, hdata⟩ := Fallible.bind_eq_ok hdata
      cases hdata
      exact .inl rfl
    · obtain ⟨records, -, hdata⟩ := Fallible.bind_eq_ok hdata
      cases hdata
      exact .inr rfl

/-- What a header counts is cut to 32 bits: with `2 ^ 32` values or more the payload is not accepted. -/
theorem validateAuto_long {data : List Byte} {n : Nat} (hlong : 2 ^ 32 ≤ n) (hcodec : data.head? =
      some CodecType.linear.toByte ∨ data.head? = some CodecType.blockwiseLinear.toByte) :
    validateAuto data n ≠ .ok () := by
  intro haccept
  obtain ⟨payload, hok, rfl⟩ := validateAuto_eq_ok_iff.mp haccept
  cases payload with
  | constant | bitpacked => exact absurd hcodec (by simp [Payload.encode, Payload.codec, CodecType.toByte])
  | linear => exact absurd hok.2.1 hlong.not_gt
  | blockwise => exact absurd hok.1 hlong.not_gt

theorem serializeAuto_steps_rejected :
    (∀ v ∈ steps (2 ^ 23), v < 2 ^ 64) ∧ (steps (2 ^ 23)).length = 2 ^ 32 ∧
      ¬ ∃ data, serializeAuto (steps (2 ^ 23)) = .ok data ∧ validateAuto data (steps (2 ^ 23)).length = .ok () := by
  have hlen : (steps (2 ^ 23)).length = 2 ^ 32 := by
    rw [steps, length_stepBlock, blockSize]
    omega
  refine ⟨fun v hv => ?_, hlen, ?_⟩
  · rw [steps, stepBlock, mem_append, mem_replicate, mem_singleton] at hv
    omega
  · rintro ⟨data, hdata, haccept⟩
    exact validateAuto_long hlen.ge (serializeAuto_steps_codec (by omega) hdata) haccept

end Steps

end Summa.FastField
