import Summa.Structures.FastField.CodecSpec
import Summa.Structures.FastField.Column

/-!
# Point reads through checkpoints

A checkpoint names a codec block of a payload and the place at which that block starts (`Checkpoint.On`). All the
checkpoints of a column do (`newCheckpoints_encode`), so a point read that resumes at any of them returns the value of
the payload (`readCheckpointed_encode`). The search need not find the nearest checkpoint for that: whatever it finds
satisfies its predicate, and then lies at or before the block of the document.

Block and document numbers and places are stored as `u32`; the payloads here are shorter than `2 ^ 32` bytes, as the
lengths in the block index are.
-/

namespace Summa.FastField

open List Payload

/-- The bytes of payloads, each with its number of values. -/
def payloadBytes (payloads : List (Payload × Nat)) : List (List Byte) := payloads.map fun p => p.1.encode p.2

/-- Payloads as an opened column holds them. -/
structure PayloadsOk (payloads : List (Payload × Nat)) : Prop where
  ok : ∀ p ∈ payloads, p.1.Ok p.2
  length : ∀ p ∈ payloads, (p.1.encode p.2).length < 2 ^ 32
  count : payloads.length < 2 ^ 32

/-- The number of codec blocks; only a block-wise payload has any. -/
def Payload.numBlocks : Payload → Nat
  | .blockwise blocks => blocks.length
  | _ => 0

/-- The checkpoint is the start of a codec block. -/
def Checkpoint.On (c : Checkpoint) (payloads : List (Payload × Nat)) : Prop :=
  ∃ (blocks : List BlockPayload) (n : Nat), payloads[c.columnBlock]? = some (.blockwise blocks, n) ∧
    c.codecBlock < blocks.length ∧ c.offset = blockOffset blocks c.codecBlock

section Blockwise

variable {blocks : List BlockPayload} {n : Nat}

theorem blockOffset_le_length {b : Nat} (hb : b < blocks.length) :
    blockOffset blocks b < ((blockwise blocks).encode n).length := by
  obtain ⟨pre, post, hbody, hpre⟩ := body_split (n := n) hb
  rw [encode, length_cons, hbody, length_append, hpre]
  omega

/-- The length of a block, read behind the tag. -/
theorem read_packedLen (hok : (blockwise blocks).Ok n) {b : Nat} (hb : b < blocks.length) :
    readLe? 4 ((blockwise blocks).encode n) (blockOffset blocks b + 1 + 25) =
      some blocks[b].packed.length := by
  obtain ⟨-, -, hpacked, -⟩ := read_block hok hb
  rw [encode, ← hpacked, show blockOffset blocks b + 1 + 25 = [(blockwise blocks).codec.toByte].length
    + (blockOffset blocks b + 25) by simp; omega]
  exact readLe?_append [(blockwise blocks).codec.toByte] _ _

/-- The loop over the codec blocks from `b` on. -/
theorem payloadCheckpoints_encode (hok : (blockwise blocks).Ok n)
    (hlen : ((blockwise blocks).encode n).length < 2 ^ 32) (stride k : Nat) {left b : Nat}
    (hleft : b + left = blocks.length) (ordinal : Nat) :
    ∃ cs, payloadCheckpoints ((blockwise blocks).encode n) stride k left b (blockOffset blocks b + 1) ordinal =
        some cs ∧
      ∀ c ∈ cs, c.columnBlock = k % 2 ^ 32 ∧ c.codecBlock < blocks.length ∧
        c.offset = blockOffset blocks c.codecBlock := by
  induction left generalizing b ordinal with
  | zero => exact ⟨[], rfl, fun c hc => absurd hc not_mem_nil⟩
  | succ left ih =>
    have hb : b < blocks.length := by omega
    obtain ⟨rest, hrest, hall⟩ := ih (b := b + 1) (by omega) (ordinal + 1)
    have hnext : blockOffset blocks b + 1 + (29 + blocks[b].packed.length) = blockOffset blocks (b + 1) + 1 := by
      rw [blockOffset_succ hb]
      omega
    rw [payloadCheckpoints, read_packedLen hok hb]
    dsimp only [Option.bind_eq_bind, Option.bind_some]
    rw [hnext, hrest, Option.bind_some]
    refine ⟨_, rfl, fun c hc => ?_⟩
    split at hc
    case isTrue =>
      rcases mem_cons.mp hc with rfl | hc
      · -- neither number is cut: the block starts inside the payload
        have hoffset := blockOffset_le_length (n := n) hb
        have hcount : blocks.length < 2 ^ 32 := by
          obtain ⟨hn, hblocks, -⟩ := hok
          rw [hblocks, blockSize]
          omega
        have hcodec : b % 2 ^ 32 = b := Nat.mod_eq_of_lt (by omega)
        refine ⟨rfl, ?_, ?_⟩
        · show b % 2 ^ 32 < blocks.length
          rw [hcodec]
          exact hb
        · show (blockOffset blocks b + 1 - 1) % 2 ^ 32 = blockOffset blocks (b % 2 ^ 32)
          rw [hcodec, Nat.add_sub_cancel]
          exact Nat.mod_eq_of_lt (by omega)
      · exact hall c hc
    case isFalse => exact hall c hc

end Blockwise

section Column

variable {payloads : List (Payload × Nat)}

theorem Payload.eq_blockwise {payload : Payload} (h : payload.codec.toByte = CodecType.blockwiseLinear.toByte) :
    ∃ blocks, payload = .blockwise blocks := by
  cases payload with
  | blockwise blocks => exact ⟨blocks, rfl⟩
  | _ => cases h

theorem head?_encode (payload : Payload) (n : Nat) :
    (payload.encode n).head? = some payload.codec.toByte := rfl

theorem codecBlocks_encode {payload : Payload} {n : Nat} (hok : payload.Ok n) :
    codecBlocks (payload.encode n) = some payload.numBlocks := by
  rw [codecBlocks, head?_encode]
  cases payload with
  | blockwise blocks =>
    obtain ⟨-, hblocks⟩ := read_counts hok
    rw [if_pos (by rfl), numBlocks, ← hblocks]
    exact readLe?_append [(blockwise blocks).codec.toByte] _ 4
  | _ => rfl

/-- The loop over the payloads from number `before.length` on. -/
theorem columnCheckpoints_encode (stride : Nat) (before : List (Payload × Nat))
    (hok : PayloadsOk (before ++ payloads)) (ordinal : Nat) :
    ∃ cs, columnCheckpoints stride (payloadBytes payloads) before.length ordinal = some cs ∧
      ∀ c ∈ cs, c.On (before ++ payloads) := by
  induction payloads generalizing before ordinal with
  | nil => exact ⟨[], rfl, fun c hc => absurd hc not_mem_nil⟩
  | cons p payloads ih =>
    obtain ⟨payload, n⟩ := p
    have hmem : (payload, n) ∈ before ++ (payload, n) :: payloads := by simp
    have hp := hok.ok _ hmem
    have hshift : before ++ [(payload, n)] ++ payloads = before ++ (payload, n) :: payloads := by simp
    have hfirst : ∃ cs, payloadCheckpoints (payload.encode n) stride before.length
        payload.numBlocks 0 9 ordinal = some cs ∧
        ∀ c ∈ cs, c.On (before ++ (payload, n) :: payloads) := by
      cases payload with
      | blockwise blocks =>
        have hzero : 0 + blocks.length = blocks.length := Nat.zero_add _
        obtain ⟨cs, hcs, hall⟩ :=
          payloadCheckpoints_encode hp (hok.length _ hmem) stride before.length hzero ordinal
        refine ⟨cs, hcs, fun c hc => ?_⟩
        obtain ⟨hcolumn, hcodec, hoffset⟩ := hall c hc
        have hcount := hok.count
        rw [length_append, length_cons] at hcount
        refine ⟨blocks, n, ?_, hcodec, hoffset⟩
        rw [hcolumn, Nat.mod_eq_of_lt (by omega)]
        simp
      | _ => exact ⟨[], rfl, fun c hc => absurd hc not_mem_nil⟩
    obtain ⟨first, hcs, hall⟩ := hfirst
    obtain ⟨rest, hrest, hrestAll⟩ := ih (before ++ [(payload, n)]) (hshift ▸ hok)
      (ordinal + payload.numBlocks)
    rw [length_append, length_singleton] at hrest
    rw [hshift] at hrestAll
    rw [payloadBytes, map_cons, columnCheckpoints, codecBlocks_encode hp]
    dsimp only [Option.bind_eq_bind, Option.bind_some]
    rw [hcs, Option.bind_some, ← payloadBytes, hrest, Option.bind_some]
    refine ⟨_, rfl, fun c hc => ?_⟩
    rcases mem_append.mp hc with hc | hc
    · exact hall c hc
    · exact hrestAll c hc

/-- Building the checkpoints of a column does not panic, and each is the start of a codec block. -/
theorem newCheckpoints_encode (hok : PayloadsOk payloads) (multi : Bool) :
    ∃ cs, newCheckpoints (payloadBytes payloads) multi = some cs ∧ ∀ c ∈ cs, c.On payloads := by
  rw [newCheckpoints]
  split
  case isTrue => exact ⟨[], rfl, fun c hc => absurd hc not_mem_nil⟩
  case isFalse =>
    have hcounts : ∃ counts, (payloadBytes payloads).mapM codecBlocks = some counts := by
      refine ⟨payloads.map fun p => p.1.numBlocks, ?_⟩
      rw [payloadBytes, mapM_map]
      have hall := hok.ok
      clear hok
      induction payloads with
      | nil => rfl
      | cons p payloads ih =>
        have hrest := ih fun q hq => hall q (mem_cons_of_mem _ hq)
        rw [mapM_cons, hrest, Function.comp_apply, codecBlocks_encode (hall p mem_cons_self)]
        rfl
    obtain ⟨counts, hcounts⟩ := hcounts
    rw [hcounts]
    exact columnCheckpoints_encode _ [] hok 0

/-- A point read resumes at a checkpoint and returns the value of the payload. -/
theorem readCheckpointed_encode (hok : PayloadsOk payloads) {cs : List Checkpoint} (hcs : ∀ c ∈ cs, c.On payloads)
    {k n index : Nat} {payload : Payload} (hk : payloads[k]? = some (payload, n)) (hindex : index < n) :
    readCheckpointed cs (payloadBytes payloads) k index = some (payload.value n index) := by
  have hp := hok.ok _ (mem_of_getElem? hk)
  have hk32 : k % 2 ^ 32 = k := by
    obtain ⟨hlt, -⟩ := List.getElem?_eq_some_iff.mp hk
    exact Nat.mod_eq_of_lt (hlt.trans hok.count)
  have hdata : (payloadBytes payloads)[k]? = some (payload.encode n) := by
    rw [payloadBytes, getElem?_map, hk]
    rfl
  rw [readCheckpointed, hdata]
  dsimp only [Option.bind_eq_bind, Option.bind_some]
  rw [head?_encode, hk32]
  split
  case isTrue => exact autoRead_encode hp hindex
  case isFalse hcodec =>
    obtain ⟨blocks, rfl⟩ := eq_blockwise (Option.some.inj (not_not.mp hcodec))
    split
    case h_1 c hfound =>
      -- what the search found satisfies its predicate
      obtain ⟨hpos, hfound⟩ := Option.ite_none_left_eq_some.mp hfound
      obtain ⟨hget, hcolumn⟩ := Option.filter_eq_some_iff.mp hfound
      have hpred := partitionPoint_pred (Nat.pos_of_ne_zero hpos)
      rw [hget] at hpred
      have hcolumn : c.columnBlock = k := of_decide_eq_true hcolumn
      have hle : c.codecBlock ≤ index / blockSize := by
        rcases of_decide_eq_true hpred with h | h
        · omega
        · exact h.2
      obtain ⟨blocks', n', hc, -, hoffset⟩ := hcs c (mem_of_getElem? hget)
      rw [hcolumn, hk] at hc
      cases hc
      rw [hoffset]
      exact blockwiseLinearReadFrom_encode hp hindex hle
    case h_2 => exact blockwiseLinearReadFrom_encode hp hindex (Nat.zero_le _)

end Column

end Summa.FastField
