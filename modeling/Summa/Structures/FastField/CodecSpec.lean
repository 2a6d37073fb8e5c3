import Mathlib.Tactic.IntervalCases
import Summa.Structures.FastField.Codec

/-!
# What a fast-field payload means

`Payload` is a parsed payload and `Payload.value` the value it has at an index. The bytes that `validateAuto`
accepts are exactly the encodings of well-formed payloads (`validateAuto_eq_ok_iff`), and on those every reader
returns the values and does not panic:

* `autoRead_encode`: point reads.
* `autoReadBatchWithCursor_encode`: batch reads, with a cursor that any earlier batch reads of the payload left
  behind; `BlockwiseLinearCursor.At` is what such cursors have in common.
* `blockwiseLinearReadFrom_encode`: reads that resume at a block.
-/

namespace Summa.FastField

open List Fallible Nat

theorem asU64_lt (z : Int) : asU64 z < 2 ^ 64 := by
  rw [asU64]
  omega

theorem asU64_of_range {z : Int} (h : 0 ≤ z ∧ z < 2 ^ 64) : (asU64 z : Int) = z := by
  rw [asU64]
  omega

theorem asU64_natCast {n : Nat} (h : n < 2 ^ 64) : asU64 n = n := by
  rw [asU64]
  omega

theorem asI64_asU64 {z : Int} (hmin : i64Min ≤ z) (hmax : z ≤ i64Max) : asI64 (asU64 z) = z := by
  rw [i64Min] at hmin
  rw [i64Max] at hmax
  rw [asI64, asU64]
  split <;> omega

theorem asU64_asI64 {n : Nat} (h : n < 2 ^ 64) : asU64 (asI64 n) = n := by
  rw [asI64, asU64]
  split <;> omega

theorem asI64_range {n : Nat} (h : n < 2 ^ 64) : i64Min ≤ asI64 n ∧ asI64 n ≤ i64Max := by
  rw [asI64, i64Min, i64Max]
  split <;> omega

/-- A block of linear residuals with its header. -/
structure BlockPayload where
  header : BlockHeader
  packed : List Byte

namespace BlockPayload

/-- The value at an index of a block of `len` values. -/
def value (self : BlockPayload) (len index : Nat) : Nat :=
  asU64 (interpolate self.header.first self.header.last len index + self.header.offset +
    fieldAt self.packed self.header.bpv index)

/-- The fields fit, and the packed part is that of `count` values. -/
structure Ok (block : BlockPayload) (count : Nat) : Prop where
  first : block.header.first < 2 ^ 64
  last : block.header.last < 2 ^ 64
  offsetMin : i64Min ≤ block.header.offset
  offsetMax : block.header.offset ≤ i64Max
  bpv : block.header.bpv ≤ 64
  packed : block.packed.length = packedBytes count block.header.bpv

/-- A block of the block-wise codec. -/
def encode (self : BlockPayload) : List Byte :=
  leBytes 8 self.header.first ++ (leBytes 8 self.header.last ++ (i64Bytes self.header.offset ++
    (leBytes 1 self.header.bpv ++ (leBytes 4 self.packed.length ++ self.packed))))

@[simp] theorem length_encode (self : BlockPayload) : self.encode.length = 29 + self.packed.length := by
  simp [encode, i64Bytes]
  omega

end BlockPayload

/-- The number of values of block `b` among `n`. -/
def blockCount (n b : Nat) : Nat := min (n - b * blockSize) blockSize

/-- A parsed payload. -/
inductive Payload where
  | constant (value : Nat)
  | bitpacked (minValue bpv : Nat) (packed : List Byte)
  | linear (block : BlockPayload)
  | blockwise (blocks : List BlockPayload)

namespace Payload

/-- The value at an index, of `n` values. -/
def value (n index : Nat) : Payload → Nat
  | constant value => value
  | bitpacked minValue bpv packed => (fieldAt packed bpv index + minValue) % 2 ^ 64
  | linear block => block.value n index
  | blockwise blocks =>
    match blocks[index / blockSize]? with
    | some block => block.value (blockCount n (index / blockSize)) (index % blockSize)
    | none => 0

/-- A payload of `n` values. -/
def Ok (n : Nat) : Payload → Prop
  | constant value => value < 2 ^ 64
  | bitpacked minValue bpv packed =>
    minValue < 2 ^ 64 ∧ bpv ≤ 64 ∧ packed.length = packedBytes n bpv ∧ n * bpv + 7 ≤ u64Max
  | linear block => 2 ≤ n ∧ n < 2 ^ 32 ∧ block.Ok n
  | blockwise blocks =>
    n < 2 ^ 32 ∧ blocks.length = (n + (blockSize - 1)) / blockSize ∧
      ∀ (b : Nat) (block : BlockPayload), blocks[b]? = some block → block.Ok (blockCount n b)

/-- The bytes behind the tag. -/
def body (n : Nat) : Payload → List Byte
  | constant value => leBytes 8 value
  | bitpacked minValue bpv packed => leBytes 8 minValue ++ (leBytes 1 bpv ++ packed)
  | linear block =>
    leBytes 8 block.header.first ++ (leBytes 8 block.header.last ++ (leBytes 4 n ++
      (i64Bytes block.header.offset ++ (leBytes 1 block.header.bpv ++ block.packed))))
  | blockwise blocks => leBytes 4 n ++ (leBytes 4 blocks.length ++ blocks.flatMap BlockPayload.encode)

def codec : Payload → CodecType
  | constant _ => .constant
  | bitpacked .. => .bitpacked
  | linear _ => .linear
  | blockwise _ => .blockwiseLinear

def encode (n : Nat) (self : Payload) : List Byte := self.codec.toByte :: self.body n

end Payload

open Payload (bitpacked blockwise linear)

section Fields

/-- The field of a value lies in the packed bytes. -/
theorem field_le {count bpv index : Nat} (h : index < count) : (index + 1) * bpv ≤ 8 * packedBytes count bpv := by
  have hmul : (index + 1) * bpv ≤ count * bpv := mul_le_mul_right _ h
  rw [packedBytes]
  omega

theorem BlockHeader.value_eq {block : BlockPayload} {count index : Nat} (hok : block.Ok count)
    (hindex : index < count) (rest : List Byte) (len : Nat) :
    block.header.value (block.packed ++ rest) len index = block.value len index := by
  have hfield : (if block.header.bpv = 0 then 0 else bitpackRead (block.packed ++ rest) block.header.bpv index) =
      fieldAt block.packed block.header.bpv index := by
    split
    case isTrue hzero => rw [hzero, fieldAt_zero]
    case isFalse =>
      rw [bitpackRead_eq hok.bpv, fieldAt_append]
      rw [hok.packed]
      exact field_le hindex
  rw [BlockHeader.value, BlockPayload.value, hfield]

variable {block : BlockPayload} {count : Nat}

theorem BlockPayload.Ok.bpv_lt (hok : block.Ok count) : block.header.bpv < 256 ^ 1 :=
  lt_of_le_of_lt hok.bpv (by decide)

/-- The bits of a block: at most 512 values of at most 64 bits. -/
theorem blockCount_mul_le {n b bpv : Nat} (hbpv : bpv ≤ 64) : blockCount n b * bpv ≤ 512 * 64 :=
  Nat.mul_le_mul (min_le_right ..) hbpv

theorem packedBytes_blockCount_lt {n b bpv : Nat} (hbpv : bpv ≤ 64) : packedBytes (blockCount n b) bpv < 256 ^ 4 := by
  have hmul := blockCount_mul_le (n := n) (b := b) hbpv
  rw [packedBytes]
  omega

/-- What a reader finds at the start of a block. -/
theorem readBlockHeader_encode (hok : block.Ok count) (hlen : block.packed.length < 256 ^ 4)
    {data pre post : List Byte} (hdata : data = pre ++ (block.encode ++ post)) :
    readBlockHeader data pre.length = some block.header ∧
      readLe? 1 data (pre.length + 24) = some block.header.bpv ∧
      readLe? 4 data (pre.length + 25) = some block.packed.length ∧
      dropBytes? data (pre.length + 29) = some (block.packed ++ post) := by
  have hoffset : asU64 block.header.offset < 256 ^ 8 := asU64_lt _
  simp only [BlockPayload.encode, i64Bytes, append_assoc] at hdata
  have h₀ : readLe? 8 data pre.length = some block.header.first := by
    rw [show pre.length = pre.length + 0 from rfl, hdata, readLe?_append, readLe?_leBytes hok.first]
  have h₁ : readLe? 8 data (pre.length + 8) = some block.header.last := by
    rw [hdata, readLe?_append, readLe?_skip le_rfl, Nat.sub_self, readLe?_leBytes hok.last]
  have h₂ : readLe? 8 data (pre.length + 16) = some (asU64 block.header.offset) := by
    simp [hdata, readLe?_append, readLe?_skip, readLe?_leBytes hoffset]
  have h₃ : readLe? 1 data (pre.length + 24) = some block.header.bpv := by
    simp [hdata, readLe?_append, readLe?_skip, readLe?_leBytes hok.bpv_lt]
  refine ⟨?_, h₃, ?_, ?_⟩
  · rw [readBlockHeader, h₀, h₁, h₂, h₃]
    simp [asI64_asU64 hok.offsetMin hok.offsetMax]
  · simp [hdata, readLe?_append, readLe?_skip, readLe?_leBytes hlen]
  · simp [hdata, dropBytes?_append, dropBytes?_skip, dropBytes?_zero]

end Fields

section Blocks

variable {n : Nat} {blocks : List BlockPayload}

/-- Where block `b` starts, behind the tag. -/
def blockOffset (blocks : List BlockPayload) (b : Nat) : Nat :=
  8 + ((blocks.take b).flatMap BlockPayload.encode).length

variable {b index : Nat}

theorem blockOffset_succ (hb : b < blocks.length) :
    blockOffset blocks (b + 1) = blockOffset blocks b + (29 + blocks[b].packed.length) := by
  rw [blockOffset, blockOffset, take_succ_eq_append_getElem hb, flatMap_append, length_append,
    flatMap_singleton, BlockPayload.length_encode, add_assoc]

/-- The bytes before, at and behind block `b`. -/
theorem body_split (hb : b < blocks.length) :
    ∃ pre post, (blockwise blocks).body n = pre ++ (blocks[b].encode ++ post) ∧
      pre.length = blockOffset blocks b := by
  refine ⟨leBytes 4 n ++ (leBytes 4 blocks.length ++ (blocks.take b).flatMap BlockPayload.encode),
    (blocks.drop (b + 1)).flatMap BlockPayload.encode, ?_, ?_⟩
  · have hsplit : blocks.flatMap BlockPayload.encode = (blocks.take b).flatMap BlockPayload.encode ++
        (blocks[b].encode ++ (blocks.drop (b + 1)).flatMap BlockPayload.encode) := by
      conv_lhs => rw [← take_append_drop b blocks, drop_eq_getElem_cons hb]
      rw [flatMap_append, flatMap_cons]
    rw [Payload.body, hsplit]
    simp only [append_assoc]
  · simp [blockOffset]
    omega

section

variable (hok : (blockwise blocks).Ok n)

include hok

theorem Payload.Ok.block (hb : b < blocks.length) : blocks[b].Ok (blockCount n b) :=
  hok.2.2 b blocks[b] (getElem?_eq_getElem hb)

/-- The reads at block `b`. -/
theorem read_block (hb : b < blocks.length) :
    readBlockHeader ((blockwise blocks).body n) (blockOffset blocks b) = some blocks[b].header ∧
      readLe? 1 ((blockwise blocks).body n) (blockOffset blocks b + 24) = some blocks[b].header.bpv ∧
      readLe? 4 ((blockwise blocks).body n) (blockOffset blocks b + 25) = some blocks[b].packed.length ∧
      ∃ post, dropBytes? ((blockwise blocks).body n) (blockOffset blocks b + 29) =
        some (blocks[b].packed ++ post) := by
  obtain ⟨pre, post, hbody, hpre⟩ := body_split (n := n) hb
  have hblock := hok.block hb
  have hlen : blocks[b].packed.length < 256 ^ 4 := by
    rw [hblock.packed]
    exact packedBytes_blockCount_lt hblock.bpv
  obtain ⟨hheader, hbpv, hpacked, hdrop⟩ := readBlockHeader_encode hblock hlen hbody
  rw [← hpre]
  exact ⟨hheader, hbpv, hpacked, post, hdrop⟩

theorem read_counts :
    readLe? 4 ((blockwise blocks).body n) 0 = some n ∧
      readLe? 4 ((blockwise blocks).body n) 4 = some blocks.length := by
  obtain ⟨hn, hlen, -⟩ := hok
  have hblocks : blocks.length < 256 ^ 4 := by
    rw [hlen, blockSize]
    omega
  rw [Payload.body]
  exact ⟨readLe?_leBytes hn _, by rw [readLe?_skip le_rfl, readLe?_leBytes hblocks]⟩

/-- An index lies in its block. -/
theorem index_in_block (h : index < n) :
    index / blockSize < blocks.length ∧ index % blockSize < blockCount n (index / blockSize) := by
  obtain ⟨-, hlen, -⟩ := hok
  rw [hlen, blockCount, blockSize]
  omega

end

/-- The loop reaches the block of the index from any block before it. -/
theorem blockwiseLinearReadLoop_body (hok : (blockwise blocks).Ok n) (hindex : index < n)
    {left : Nat} (hleft : left = blocks.length - b) (hb : b ≤ index / blockSize) :
    blockwiseLinearReadLoop ((blockwise blocks).body n) n index left b (blockOffset blocks b) =
      some ((blockwise blocks).value n index) := by
  obtain ⟨hblock, hin⟩ := index_in_block hok hindex
  induction left generalizing b with
  | zero => omega
  | succ left ih =>
    have hlt : b < blocks.length := by omega
    obtain ⟨hheader, -, hpacked, post, hdrop⟩ := read_block hok hlt
    rw [blockwiseLinearReadLoop, hheader, hpacked]
    dsimp only [Option.bind_eq_bind, Option.bind_some]
    split
    case isTrue heq =>
      subst heq
      have hlen : min ((index / blockSize + 1) * blockSize) n - index / blockSize * blockSize =
          blockCount n (index / blockSize) := by
        rw [blockCount, succ_mul]
        omega
      rw [hdrop, Option.bind_some, hlen, BlockHeader.value_eq (hok.block hlt) hin, Payload.value,
        getElem?_eq_getElem hblock]
    case isFalse hne =>
      rw [← blockOffset_succ hlt]
      exact ih (by omega) (by omega)

/-- A read that resumes at a block before its index. -/
theorem blockwiseLinearReadFrom_encode (hok : (blockwise blocks).Ok n) (hindex : index < n)
    (hb : b ≤ index / blockSize) :
    blockwiseLinearReadFrom ((blockwise blocks).body n) index b (blockOffset blocks b) =
      some ((blockwise blocks).value n index) := by
  obtain ⟨hn, hblocks⟩ := read_counts hok
  rw [blockwiseLinearReadFrom, hn, hblocks]
  exact blockwiseLinearReadLoop_body hok hindex rfl hb

/-- The position that batch reads of a payload leave behind. -/
def BlockwiseLinearCursor.At (cursor : BlockwiseLinearCursor) : Payload → Prop
  | .blockwise blocks => cursor.block ≤ blocks.length ∧ cursor.offset = blockOffset blocks cursor.block
  | _ => True

theorem BlockwiseLinearCursor.default_at (payload : Payload) : BlockwiseLinearCursor.default.At payload := by
  cases payload with
  | blockwise blocks => exact ⟨zero_le _, rfl⟩
  | _ => trivial

/-- The values from `start` on. -/
def Payload.values (payload : Payload) (n start len : Nat) : List Nat :=
  (range len).map fun k => payload.value n (start + k)

@[simp] theorem Payload.length_values (payload : Payload) (n start len : Nat) :
    (payload.values n start len).length = len := by
  simp [values]

theorem Payload.values_append (payload : Payload) (n start k len : Nat) :
    payload.values n start k ++ payload.values n (start + k) len = payload.values n start (k + len) := by
  rw [values, values, values, range_add, map_append, map_map]
  congr 1
  exact map_congr_left fun i _ => by rw [Function.comp_apply, add_assoc]

section

variable (hok : (blockwise blocks).Ok n)

include hok

/-- The values that a batch read takes from block `b`. -/
theorem values_of_block (hb : b < blocks.length) {take : Nat} (h : index + take ≤ blockCount n b) :
    (range take).map (fun i => blocks[b].header.value blocks[b].packed (blockCount n b) (index + i)) =
      (blockwise blocks).values n (b * blockSize + index) take := by
  apply map_congr_left
  intro i hi
  have hi : index + i < blockCount n b := by
    have := mem_range.mp hi
    omega
  have hcount : blockCount n b ≤ blockSize := min_le_right ..
  have hdiv : (b * blockSize + index + i) / blockSize = b := by
    rw [add_assoc, add_comm, add_mul_div_right _ _ (by decide), div_eq_of_lt (by omega), zero_add]
  have hmod : (b * blockSize + index + i) % blockSize = index + i := by
    rw [add_assoc, add_comm, add_mul_mod_self_right, mod_eq_of_lt (by omega)]
  have hvalue := BlockHeader.value_eq (hok.block hb) hi [] (blockCount n b)
  rw [append_nil] at hvalue
  rw [hvalue, Payload.value, hdiv, hmod, getElem?_eq_getElem hb]

/-- The batch loop at a block: what is written are the values up to the block, if it is behind the start. -/
theorem blockwiseBatchLoop_body {start len : Nat} (hlen : 0 < len)
    (hrange : start + len ≤ n) {left : Nat} (hleft : left = blocks.length - b)
    (hbefore : b * blockSize < start + len) {written : List Nat}
    (hwritten : written = (blockwise blocks).values n start (b * blockSize - start))
    (cursor : BlockwiseLinearCursor) :
    ∃ cursor' : BlockwiseLinearCursor, cursor'.At (.blockwise blocks) ∧
      blockwiseBatchLoop ((blockwise blocks).body n) n start len left b (blockOffset blocks b) written cursor =
        some ((blockwise blocks).values n start len, cursor') := by
  induction left generalizing b written cursor with
  | zero =>
    have hblocks := hok.2.1
    simp only [blockSize] at hbefore hblocks
    omega
  | succ left ih =>
    have hb : b < blocks.length := by omega
    have hwlen : written.length = b * blockSize - start := by rw [hwritten, Payload.length_values]
    obtain ⟨hheader, -, hpacked, post, hdrop⟩ := read_block hok hb
    rw [blockwiseBatchLoop, hpacked]
    dsimp only [Option.bind_eq_bind, Option.bind_some]
    rw [← blockOffset_succ hb]
    split
    case isTrue hskip =>
      -- the block ends before the start
      have hend : (b + 1) * blockSize ≤ start := by
        simp only [blockSize] at hskip ⊢
        omega
      have hstart : b * blockSize - start = (b + 1) * blockSize - start := by
        rw [succ_mul] at hend ⊢
        omega
      exact ih (by omega) (by omega) (by rw [hwritten, hstart]) cursor
    case isFalse hreach =>
      rw [hheader, Option.bind_some, sliceBytes?_of_dropBytes? hdrop, Option.bind_some]
      have hindex : (if b = start / blockSize then start - b * blockSize else 0) = start - b * blockSize := by
        split
        · rfl
        · simp only [blockSize] at *
          omega
      rw [hindex, hwlen, show min (n - b * blockSize) blockSize = blockCount n b from rfl]
      obtain ⟨take, htake⟩ : ∃ take,
          take = min (blockCount n b - (start - b * blockSize)) (len - (b * blockSize - start)) := ⟨_, rfl⟩
      have hcount : start - b * blockSize ≤ blockCount n b := by
        simp only [blockCount, blockSize] at *
        omega
      have hnext : b * blockSize + (start - b * blockSize) = start + (b * blockSize - start) := by omega
      rw [← htake, values_of_block hok hb (by omega), hnext, hwritten, Payload.values_append, Payload.length_values]
      -- the cursor stands at this block or at the next one
      have hcursor : ∀ done : Prop, [Decidable done] → (if done then
          (⟨b + 1, blockOffset blocks (b + 1)⟩ : BlockwiseLinearCursor)
          else ⟨b, blockOffset blocks b⟩).At (.blockwise blocks) := by
        intro done _
        split
        · exact ⟨hb, rfl⟩
        · exact ⟨hb.le, rfl⟩
      split
      case isTrue hdone =>
        exact ⟨_, hcursor _, by rw [hdone]⟩
      case isFalse hmore =>
        have hfull : b * blockSize - start + take = (b + 1) * blockSize - start ∧
            (b + 1) * blockSize < start + len := by
          simp only [blockCount, blockSize] at *
          omega
        exact ih (by omega) hfull.2 (by rw [hfull.1]) _

theorem blockwiseLinearReadBatchWithCursor_body {start : Nat} {out : List Nat}
    (hrange : start + out.length ≤ n) {cursor : BlockwiseLinearCursor} (hcursor : cursor.At (.blockwise blocks)) :
    ∃ cursor' : BlockwiseLinearCursor, cursor'.At (.blockwise blocks) ∧
      blockwiseLinearReadBatchWithCursor ((blockwise blocks).body n) start out cursor =
        some ((blockwise blocks).values n start out.length, cursor') := by
  rw [blockwiseLinearReadBatchWithCursor]
  split
  case isTrue hnil => exact ⟨cursor, hcursor, by rw [hnil]; rfl⟩
  case isFalse hne =>
    have hpos : 0 < out.length := length_pos_iff.mpr hne
    obtain ⟨hn, hblocks⟩ := read_counts hok
    have hvalid : min out.length (n - start) = out.length := by omega
    rw [hn, hblocks]
    dsimp only [Option.bind_eq_bind, Option.bind_some]
    rw [hvalid, if_neg hpos.ne', Nat.sub_self]
    obtain ⟨from_, hfrom⟩ : ∃ from_,
        from_ = if start / blockSize < cursor.block then .default else cursor := ⟨_, rfl⟩
    have hat : from_.offset = blockOffset blocks from_.block ∧ from_.block ≤ start / blockSize := by
      rw [hfrom]
      split
      · exact ⟨rfl, zero_le _⟩
      · exact ⟨hcursor.2, by omega⟩
    have hbefore : from_.block * blockSize ≤ start := by
      simp only [blockSize] at *
      omega
    have hwritten : [] = (blockwise blocks).values n start (from_.block * blockSize - start) := by
      rw [Nat.sub_eq_zero_of_le hbefore]
      rfl
    obtain ⟨cursor', hcursor', hloop⟩ := blockwiseBatchLoop_body hok hpos hrange (Eq.refl (blocks.length - from_.block))
      (by omega) hwritten from_
    rw [← hfrom, hat.1, hloop]
    refine ⟨cursor', hcursor', ?_⟩
    simp [drop_of_length_le]

end

end Blocks

section Readers

variable {n : Nat} {payload : Payload}

/-- A field of whole bytes is a number of a column. -/
theorem readLe_eq_fieldAt (w k : Nat) (data : List Byte) : readLe w data (k * w) = fieldAt data (8 * w) k := by
  apply eq_of_testBit_eq
  intro j
  rw [testBit_fieldAt]
  by_cases hj : j < 8 * w
  · rw [testBit_readLe _ hj, decide_eq_true hj, Bool.true_and,
      show 8 * (k * w) + j = j + k * (8 * w) by rw [mul_left_comm, add_comm]]
  · have hlt : readLe w data (k * w) < 2 ^ j := by
      calc readLe w data (k * w) < 256 ^ w := readLe_lt ..
        _ = 2 ^ (8 * w) := by rw [Nat.pow_mul]
        _ ≤ 2 ^ j := Nat.pow_le_pow_right (by decide) (by omega)
    rw [decide_eq_false hj, Bool.false_and, testBit_lt_two_pow hlt]

variable {minValue start : Nat} {packed : List Byte} {out : List Nat}

theorem bitpackedRead_body {bpv : Nat} (hok : (bitpacked minValue bpv packed).Ok n) (index : Nat) :
    bitpackedRead ((bitpacked minValue bpv packed).body n) index =
      some ((bitpacked minValue bpv packed).value n index) := by
  obtain ⟨hmin, hbpv, -, -⟩ := hok
  have hwidth : bpv < 256 ^ 1 := lt_of_le_of_lt hbpv (by decide)
  rw [bitpackedRead, Payload.body, readLe?_leBytes hmin, readLe?_skip le_rfl, readLe?_leBytes hwidth, Payload.value]
  dsimp only [Option.bind_eq_bind, Option.bind_some]
  split
  case isTrue hzero => rw [hzero, fieldAt_zero, zero_add, mod_eq_of_lt hmin]
  case isFalse =>
    simp [dropBytes?_skip, dropBytes?_zero, bitpackRead_eq hbpv]

theorem decodeByteAlignedBatch_eq {w count : Nat}
    (hpacked : packed.length = packedBytes count (8 * w)) (hrange : start + out.length ≤ count) :
    decodeByteAlignedBatch w packed start out minValue =
      some ((range out.length).map fun i => (fieldAt packed (8 * w) (start + i) + minValue) % 2 ^ 64) := by
  have hlen : packed.length = count * w := by
    rw [hpacked, packedBytes, show count * (8 * w) = 8 * (count * w) by rw [mul_left_comm]]
    omega
  have hbound : start * w + out.length * w ≤ packed.length := by
    rw [hlen, ← add_mul]
    exact mul_le_mul_right _ hrange
  rw [decodeByteAlignedBatch]
  split
  case isTrue hnil => rw [hnil]; rfl
  case isFalse =>
    rw [sliceBytes?, if_pos hbound]
    refine congrArg some (map_congr_left fun i hi => ?_)
    have hi := mem_range.mp hi
    have hin : i * w + w ≤ out.length * w := by
      rw [← succ_mul]
      exact mul_le_mul_right _ hi
    have hread : columnAt w (sliceBytes packed (start * w) (out.length * w)) i = readLe w packed ((start + i) * w) := by
      rw [columnAt, readLe, readLe, sliceBytes, sliceBytes, sliceBytes, drop_take, take_take,
        drop_drop, min_eq_left (by omega), add_mul]
    rw [hread, readLe_eq_fieldAt]

theorem bitpackedReadBatch_body {bpv : Nat} (hok : (bitpacked minValue bpv packed).Ok n)
    (hrange : start + out.length ≤ n) :
    bitpackedReadBatch ((bitpacked minValue bpv packed).body n) start out =
      some ((bitpacked minValue bpv packed).values n start out.length) := by
  obtain ⟨hmin, hbpv, hpacked, -⟩ := hok
  have hwidth : bpv < 256 ^ 1 := lt_of_le_of_lt hbpv (by decide)
  rw [bitpackedReadBatch, Payload.body, readLe?_leBytes hmin, readLe?_skip le_rfl, readLe?_leBytes hwidth,
    dropBytes?_skip (by decide), dropBytes?_skip le_rfl, dropBytes?_zero]
  dsimp only [Option.bind_eq_bind, Option.bind_some]
  have haligned : ∀ w, bpv = 8 * w → decodeByteAlignedBatch w packed start out minValue =
      some ((bitpacked minValue bpv packed).values n start out.length) := by
    rintro w rfl
    rw [decodeByteAlignedBatch_eq hpacked hrange]
    rfl
  split
  case isTrue hzero =>
    have hvalue : ∀ i, (fieldAt packed bpv (start + i) + minValue) % 2 ^ 64 = minValue := fun i => by
      rw [hzero, fieldAt_zero, zero_add, mod_eq_of_lt hmin]
    simp only [Payload.values, Payload.value, hvalue, map_const', length_range]
  case isFalse =>
    split
    · exact haligned 1 ‹_›
    split
    · exact haligned 2 ‹_›
    split
    · exact haligned 4 ‹_›
    split
    · exact haligned 8 ‹_›
    · refine congrArg some (map_congr_left fun i _ => ?_)
      rw [bitpackRead_eq hbpv, Payload.value]

theorem linearRead_body {block : BlockPayload} (hok : (linear block).Ok n) {index : Nat} (hindex : index < n) :
    linearRead ((linear block).body n) index = some ((linear block).value n index) := by
  obtain ⟨-, hn, hblock⟩ := hok
  have hoffset : asU64 block.header.offset < 256 ^ 8 := asU64_lt _
  rw [linearRead, Payload.body, i64Bytes]
  simp only [readLe?_leBytes (w := 8) hblock.first, reduceLeDiff, reduceSub, readLe?_skip, dropBytes?_skip, le_refl,
    readLe?_leBytes (w := 8) hblock.last, readLe?_leBytes (w := 4) hn, readLe?_leBytes hoffset,
    readLe?_leBytes hblock.bpv_lt, dropBytes?_zero, Option.bind_eq_bind, Option.bind_some, Option.map_some]
  have hvalue := BlockHeader.value_eq hblock hindex [] n
  rw [append_nil, BlockHeader.value] at hvalue
  rw [asI64_asU64 hblock.offsetMin hblock.offsetMax, Payload.value, ← hvalue]
  split <;> rfl

/-- A point read of a well-formed payload. -/
theorem autoRead_encode (hok : payload.Ok n) {index : Nat} (hindex : index < n) :
    autoRead (payload.encode n) index = some (payload.value n index) := by
  cases payload with
  | constant value =>
    have hread := readLe?_leBytes (w := 8) hok []
    exact hread
  | bitpacked minValue bpv packed => exact bitpackedRead_body hok index
  | linear block => exact linearRead_body hok hindex
  | blockwise blocks => exact blockwiseLinearReadFrom_encode hok hindex (zero_le _)

/-- A batch read with a cursor of the payload. -/
theorem autoReadBatchWithCursor_encode (hok : payload.Ok n)
    (hrange : start + out.length ≤ n) {cursor : BlockwiseLinearCursor} (hcursor : cursor.At payload) :
    ∃ cursor' : BlockwiseLinearCursor, cursor'.At payload ∧
      autoReadBatchWithCursor (payload.encode n) start out cursor =
        some (payload.values n start out.length, cursor') := by
  rw [Payload.encode, autoReadBatchWithCursor, CodecType.fromU8_toByte]
  split
  case isTrue hnil => exact ⟨cursor, hcursor, by rw [hnil]; rfl⟩
  case isFalse hne =>
    cases payload with
    | constant value =>
      have hread := readLe?_leBytes (w := 8) hok []
      rw [append_nil] at hread
      refine ⟨cursor, hcursor, ?_⟩
      dsimp only [Payload.codec, Payload.body]
      rw [hread]
      simp [Payload.values, Payload.value, map_const']
    | bitpacked minValue bpv packed =>
      refine ⟨cursor, hcursor, ?_⟩
      dsimp only [Payload.codec]
      rw [bitpackedReadBatch_body hok hrange, Option.map_some]
    | linear block =>
      refine ⟨cursor, hcursor, ?_⟩
      dsimp only [Payload.codec]
      have hreads : (range out.length).mapM (fun i => linearRead ((linear block).body n) (start + i)) =
          some ((linear block).values n start out.length) := by
        rw [mapM_eq_some_iff, Payload.values, map_map]
        refine map_congr_left fun i hi => ?_
        have := mem_range.mp hi
        exact linearRead_body hok (by omega)
      rw [hreads, Option.map_some]
    | blockwise blocks => exact blockwiseLinearReadBatchWithCursor_body hok hrange hcursor

theorem autoReadBatch_encode (hok : payload.Ok n) (hrange : start + out.length ≤ n) :
    autoReadBatch (payload.encode n) start out = some (payload.values n start out.length) := by
  obtain ⟨cursor, -, hread⟩ := autoReadBatchWithCursor_encode hok hrange (BlockwiseLinearCursor.default_at payload)
  rw [autoReadBatch, hread, Option.map_some]

end Readers

section Validation

variable {n : Nat} {rest : List Byte}

theorem checkedPackedLen_eq_ok {count bpv len : Nat} :
    checkedPackedLen count bpv = .ok len ↔ bpv ≤ 64 ∧ count * bpv + 7 ≤ u64Max ∧ len = packedBytes count bpv := by
  rw [checkedPackedLen, failIf_bind_eq_ok, failIf_bind_eq_ok, not_lt, not_lt, Except.ok.injEq, eq_comm (a := len)]

theorem blockCount_fits {n b bpv : Nat} (hbpv : bpv ≤ 64) : blockCount n b * bpv + 7 ≤ u64Max :=
  (Nat.add_le_add_right (blockCount_mul_le hbpv) 7).trans (by decide)

theorem validateBitpacked_eq_ok_iff : validateBitpacked rest n = .ok () ↔
    ∃ minValue bpv packed, (bitpacked minValue bpv packed).Ok n ∧
      rest = (bitpacked minValue bpv packed).body n := by
  constructor
  · intro h
    obtain ⟨-, h⟩ := failIf_bind_eq_ok.mp h
    obtain ⟨len, hlen, h⟩ := bind_eq_ok h
    have h := failIf_eq_ok.mp h
    obtain ⟨hbpv, hfits, rfl⟩ := checkedPackedLen_eq_ok.mp hlen
    refine ⟨readLe 8 rest 0, readLe 1 rest 8, rest.drop 9, ⟨readLe_lt .., hbpv, ?_, hfits⟩, ?_⟩
    · rw [length_drop]
      omega
    · rw [Payload.body, leBytes_readLe_append (show 8 + 1 ≤ _ by omega), leBytes_readLe_append (by omega),
        drop_zero]
  · rintro ⟨minValue, bpv, packed, ⟨hmin, hbpv, hpacked, hfits⟩, rfl⟩
    have hwidth : readLe 1 ((bitpacked minValue bpv packed).body n) 8 = bpv := by
      rw [Payload.body, readLe_skip 8 _ 0, readLe_leBytes (lt_of_le_of_lt hbpv (by decide))]
    have hlen : ((bitpacked minValue bpv packed).body n).length = 9 + packedBytes n bpv := by
      simp [Payload.body, hpacked]
      omega
    rw [validateBitpacked, failIf_bind (by omega), hwidth,
      checkedPackedLen_eq_ok.mpr ⟨hbpv, hfits, rfl⟩, ok_bind, failIf_of_not (not_not.mpr hlen)]

theorem validateLinear_eq_ok_iff : validateLinear rest n = .ok () ↔
    ∃ block, (linear block).Ok n ∧ rest = (linear block).body n := by
  constructor
  · intro h
    obtain ⟨-, h⟩ := failIf_bind_eq_ok.mp h
    obtain ⟨hcount, h⟩ := failIf_bind_eq_ok.mp h
    obtain ⟨len, hlen, h⟩ := bind_eq_ok h
    have h := failIf_eq_ok.mp h
    obtain ⟨hbpv, -, rfl⟩ := checkedPackedLen_eq_ok.mp hlen
    have hn : readLe 4 rest 16 = n := by omega
    have hnlt : readLe 4 rest 16 < 2 ^ 32 := readLe_lt ..
    have hoffset : readLe 8 rest 20 < 2 ^ 64 := readLe_lt ..
    refine ⟨⟨⟨readLe 8 rest 0, readLe 8 rest 8, asI64 (readLe 8 rest 20), readLe 1 rest 28⟩, rest.drop 29⟩,
      ⟨by omega, by omega, ?_⟩, ?_⟩
    · refine ⟨readLe_lt .., readLe_lt .., (asI64_range hoffset).1, (asI64_range hoffset).2, hbpv, ?_⟩
      rw [length_drop, ← hn]
      dsimp only
      omega
    · rw [Payload.body, i64Bytes, asU64_asI64 hoffset, ← hn,
        leBytes_readLe_append (show 28 + 1 ≤ _ by omega), leBytes_readLe_append (show 20 + 8 ≤ _ by omega),
        leBytes_readLe_append (show 16 + 4 ≤ _ by omega), leBytes_readLe_append (show 8 + 8 ≤ _ by omega),
        leBytes_readLe_append (by omega), drop_zero]
  · rintro ⟨block, ⟨htwo, hn, hblock⟩, rfl⟩
    have hwidth : readLe 1 ((linear block).body n) 28 = block.header.bpv := by
      rw [Payload.body, i64Bytes, readLe_skip 8 _ 20, readLe_skip 8 _ 12, readLe_skip 4 _ 8, readLe_skip 8 _ 0,
        readLe_leBytes hblock.bpv_lt]
    have hcount : readLe 4 ((linear block).body n) 16 = n := by
      rw [Payload.body, readLe_skip 8 _ 8, readLe_skip 8 _ 0, readLe_leBytes hn]
    have hlen : ((linear block).body n).length = 29 + packedBytes n block.header.bpv := by
      simp [Payload.body, i64Bytes, hblock.packed]
      omega
    have hfits : n * block.header.bpv + 7 ≤ u64Max := by
      have := Nat.mul_le_mul hn.le hblock.bpv
      exact (Nat.add_le_add_right this 7).trans (by decide)
    rw [validateLinear, failIf_bind (by omega), hcount, hwidth, failIf_bind (by omega),
      checkedPackedLen_eq_ok.mpr ⟨hblock.bpv, hfits, rfl⟩, ok_bind, failIf_of_not (not_not.mpr hlen)]

/-- Blocks that were checked: they are encodings, one behind the other. -/
theorem exists_of_validateBlocks {left b pos stop : Nat} (hpos : pos ≤ rest.length)
    (h : validateBlocks rest n left b pos = .ok stop) :
    ∃ blocks : List BlockPayload, blocks.length = left ∧ stop ≤ rest.length ∧
      rest.drop pos = blocks.flatMap BlockPayload.encode ++ rest.drop stop ∧
      ∀ (j : Nat) (block : BlockPayload), blocks[j]? = some block → block.Ok (blockCount n (b + j)) := by
  induction left generalizing b pos with
  | zero =>
    cases h
    exact ⟨[], rfl, hpos, rfl, nofun⟩
  | succ left ih =>
    obtain ⟨-, h⟩ := failIf_bind_eq_ok.mp h
    obtain ⟨len, hlen, h⟩ := bind_eq_ok h
    obtain ⟨hdeclared, h⟩ := failIf_bind_eq_ok.mp h
    obtain ⟨hdata, h⟩ := failIf_bind_eq_ok.mp h
    have hdeclared := not_not.mp hdeclared
    obtain ⟨hbpv, -, hpacked⟩ := checkedPackedLen_eq_ok.mp hlen
    obtain ⟨blocks, hblocks, hstop, hrest, hall⟩ := ih (by omega) h
    have hoffset : readLe 8 rest (pos + 16) < 2 ^ 64 := readLe_lt ..
    obtain ⟨packed, hslice⟩ : ∃ packed, packed = sliceBytes rest (pos + 29) len := ⟨_, rfl⟩
    have hlength : packed.length = len := by
      rw [hslice, sliceBytes, length_take, length_drop]
      omega
    refine ⟨⟨⟨readLe 8 rest pos, readLe 8 rest (pos + 8), asI64 (readLe 8 rest (pos + 16)),
      readLe 1 rest (pos + 24)⟩, packed⟩ :: blocks, by rw [length_cons, hblocks], hstop, ?_, ?_⟩
    · have hsplit : packed ++ rest.drop (pos + 29 + len) = rest.drop (pos + 29) := by
        rw [hslice, sliceBytes, ← drop_drop (i := len), take_append_drop]
      rw [flatMap_cons, append_assoc, ← hrest, hdeclared, BlockPayload.encode, hlength, i64Bytes]
      simp only [append_assoc]
      rw [hsplit, asU64_asI64 hoffset, ← hdeclared, leBytes_readLe_append (show pos + 25 + 4 ≤ _ by omega),
        leBytes_readLe_append (show pos + 24 + 1 ≤ _ by omega), leBytes_readLe_append (show pos + 16 + 8 ≤ _ by omega),
        leBytes_readLe_append (show pos + 8 + 8 ≤ _ by omega), leBytes_readLe_append (by omega)]
    · rintro (_ | j) found hj
      · obtain rfl := Option.some.inj hj
        exact ⟨readLe_lt .., readLe_lt .., (asI64_range hoffset).1, (asI64_range hoffset).2, hbpv,
          hlength.trans hpacked⟩
      · rw [show b + (j + 1) = b + 1 + j by omega]
        exact hall j found hj

/-- The check of encoded blocks ends behind the last. -/
theorem validateBlocks_body {blocks : List BlockPayload} (hok : (blockwise blocks).Ok n) {left b : Nat}
    (hleft : left = blocks.length - b) (hb : b ≤ blocks.length) :
    validateBlocks ((blockwise blocks).body n) n left b (blockOffset blocks b) =
      .ok (blockOffset blocks blocks.length) := by
  induction left generalizing b with
  | zero =>
    obtain rfl : b = blocks.length := by omega
    rfl
  | succ left ih =>
    have hlt : b < blocks.length := by omega
    have hblock := hok.block hlt
    obtain ⟨-, hbpv, hpacked, post, hdrop⟩ := read_block hok hlt
    have hdeclared := (readLe?_eq_some_iff.mp hpacked).2
    have hwidth := (readLe?_eq_some_iff.mp hbpv).2
    have hend := (Option.ite_none_right_eq_some.mp (sliceBytes?_of_dropBytes? hdrop)).1
    rw [validateBlocks, failIf_bind (by omega)]
    dsimp only
    rw [hdeclared, hwidth, show min (n - b * blockSize) blockSize = blockCount n b from rfl,
      checkedPackedLen_eq_ok.mpr ⟨hblock.bpv, blockCount_fits hblock.bpv, rfl⟩, ok_bind,
      failIf_bind (not_not.mpr hblock.packed), failIf_bind (by omega), add_assoc,
      ← blockOffset_succ hlt]
    exact ih (by omega) hlt

theorem validateBlockwise_eq_ok_iff : validateBlockwise rest n = .ok () ↔
    ∃ blocks, (blockwise blocks).Ok n ∧ rest = (blockwise blocks).body n := by
  constructor
  · intro h
    obtain ⟨hhead, h⟩ := failIf_bind_eq_ok.mp h
    obtain ⟨hcounts, h⟩ := failIf_bind_eq_ok.mp h
    obtain ⟨stop, hblocks, h⟩ := bind_eq_ok h
    have hstop := not_not.mp (failIf_eq_ok.mp h)
    have hn : readLe 4 rest 0 = n := by omega
    have hnlt : readLe 4 rest 0 < 2 ^ 32 := readLe_lt ..
    obtain ⟨blocks, hlength, -, hrest, hall⟩ := exists_of_validateBlocks (by omega) hblocks
    rw [hn] at hall
    refine ⟨blocks, ⟨by omega, by rw [hlength, ← hn]; omega, fun b block hb => ?_⟩, ?_⟩
    · have := hall b block hb
      rwa [zero_add] at this
    · rw [hstop, drop_length, append_nil] at hrest
      rw [Payload.body, ← hrest, hlength, ← hn, leBytes_readLe_append (show 4 + 4 ≤ _ by omega),
        leBytes_readLe_append (by omega), drop_zero]
  · rintro ⟨blocks, hok, rfl⟩
    obtain ⟨hn, hnum⟩ := read_counts hok
    have hlen : blockOffset blocks blocks.length = ((blockwise blocks).body n).length := by
      rw [blockOffset, take_length]
      simp [Payload.body]
      omega
    have hcheck := validateBlocks_body hok (Eq.refl (blocks.length - 0)) (zero_le _)
    have hhead : 8 ≤ ((blockwise blocks).body n).length := (readLe?_eq_some_iff.mp hnum).1
    rw [validateBlockwise, failIf_bind (by omega), (readLe?_eq_some_iff.mp hn).2,
      (readLe?_eq_some_iff.mp hnum).2]
    rw [failIf_bind (by have := hok.2.1; omega), show validateBlocks _ n blocks.length 0 8 = _ from hcheck,
      ok_bind, failIf_of_not (not_not.mpr hlen)]

/-- The accepted payloads are the encodings of well-formed ones. -/
theorem validateAuto_eq_ok_iff {data : List Byte} :
    validateAuto data n = .ok () ↔ ∃ payload : Payload, payload.Ok n ∧ data = payload.encode n := by
  constructor
  · intro h
    cases data with
    | nil => cases h
    | cons tag rest =>
      rw [validateAuto] at h
      have htag : ∀ codec, CodecType.fromU8 tag = some codec → tag = codec.toByte := by
        intro codec hcodec
        simp only [CodecType.fromU8] at hcodec
        split_ifs at hcodec with h₀ h₁ h₂ h₃
        all_goals
          obtain rfl := Option.some.inj hcodec
          assumption
      split at h
      · rename_i hcodec
        have hlen := not_not.mp (failIf_eq_ok.mp h)
        refine ⟨.constant (leNat rest), ?_, ?_⟩
        · have := leNat_lt rest
          rwa [hlen] at this
        · rw [Payload.encode, Payload.body, ← hlen, leBytes_leNat, htag _ hcodec]
          rfl
      · rename_i hcodec
        obtain ⟨minValue, bpv, packed, hok, rfl⟩ := validateBitpacked_eq_ok_iff.mp h
        exact ⟨_, hok, by rw [htag _ hcodec]; rfl⟩
      · rename_i hcodec
        obtain ⟨block, hok, rfl⟩ := validateLinear_eq_ok_iff.mp h
        exact ⟨_, hok, by rw [htag _ hcodec]; rfl⟩
      · rename_i hcodec
        obtain ⟨blocks, hok, rfl⟩ := validateBlockwise_eq_ok_iff.mp h
        exact ⟨_, hok, by rw [htag _ hcodec]; rfl⟩
      · cases h
  · rintro ⟨payload, hok, rfl⟩
    rw [Payload.encode, validateAuto, CodecType.fromU8_toByte]
    cases payload with
    | constant value => exact failIf_of_not (not_not.mpr (length_leBytes 8 value))
    | bitpacked minValue bpv packed => exact validateBitpacked_eq_ok_iff.mpr ⟨_, _, _, hok, rfl⟩
    | linear block => exact validateLinear_eq_ok_iff.mpr ⟨_, hok, rfl⟩
    | blockwise blocks => exact validateBlockwise_eq_ok_iff.mpr ⟨_, hok, rfl⟩

end Validation

end Summa.FastField
