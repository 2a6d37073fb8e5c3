import Summa.Lib.BitStream
import Summa.Lib.ByteColumn
import Summa.Lib.Fold
import Summa.Structures.PrefixCoding

/-!
# Block addresses (`BlockAddrStore` of `structures/sstable_index.rs`)

The addresses of the data blocks, bit-packed: the gap to the end of the block before and the length, each
in as many bits as the largest one needs.

* `build_eq`, `load_encode`: the table of blocks that follow each other is accepted, whatever stands behind it. Its
  addresses are those that the bit writer kept (`readBack`).
* `readBack_eq_iff`: these are the addresses of the blocks exactly when no gap is too wide for the writer where it
  is written (`GapsFit`).
-/

namespace Summa

open List Fallible

/-- Offset and length in the data section. -/
structure BlockAddr where
  offset : Nat
  length : Nat
  deriving DecidableEq, Repr

namespace BlockAddr

/-- `checked_add` of a `u64`. -/
def end_ (addr : BlockAddr) : Option Nat :=
  if addr.offset + addr.length ≤ u64Max then some (addr.offset + addr.length) else none

end BlockAddr

/-- Bits that hold `n`, at least one. -/
def bitWidth (n : Nat) : Nat := if n = 0 then 1 else n.log2 + 1

theorem lt_two_pow_bitWidth (n : Nat) : n < 2 ^ bitWidth n := by
  rw [bitWidth]
  split
  case isTrue h => simp [h]
  case isFalse h => exact Nat.lt_log2_self

theorem bitWidth_pos (n : Nat) : 0 < bitWidth n := by
  rw [bitWidth]
  split <;> omega

theorem bitWidth_le {n k : Nat} (hk : 0 < k) (h : n < 2 ^ k) : bitWidth n ≤ k := by
  rw [bitWidth]
  split
  case isTrue => exact hk
  case isFalse h0 => exact Nat.log2_lt h0 |>.mpr h

structure BlockAddrStore where
  numBlocks : Nat
  offsetBits : Nat
  lengthBits : Nat
  addrs : List BlockAddr
  deriving DecidableEq, Repr

namespace BlockAddrStore

/-- The gaps between blocks, the first one to `prevEnd`. -/
def deltas (prevEnd : Nat) : List BlockAddr → IoResult (List Nat)
  | [] => .ok []
  | addr :: addrs =>
    match addr.end_ with
    | none => .error (.invalidInput "block address overflow")
    | some next => do
      let rest ← deltas next addrs
      .ok ((addr.offset - prevEnd) :: rest)

/-- The fields of the table in the order they are packed. -/
def fields (offsetBits lengthBits : Nat) (deltas : List Nat) (addrs : List BlockAddr) : List (Nat × Nat) :=
  (deltas.zip addrs).flatMap fun p => [(p.1, offsetBits), (p.2.length, lengthBits)]

/-- The size of a store before its packed bits. -/
def headerSize : Nat := 6

def build (addrs : List BlockAddr) : IoResult (List Byte) :=
  if addrs = [] then .ok (leBytes 4 0 ++ leBytes 1 0 ++ leBytes 1 0)
  else do
    let gaps ← deltas 0 addrs
    let offsetBits := bitWidth (gaps.foldl max 0)
    let lengthBits := bitWidth ((addrs.map (·.length)).foldl max 0)
    if u64Max < (offsetBits + lengthBits) * addrs.length then
      .error (.invalidInput "block address table too large")
    else
      .ok (leBytes 4 addrs.length ++ leBytes 1 offsetBits ++ leBytes 1 lengthBits ++
        packBits (fields offsetBits lengthBits gaps addrs))

/-- The loop of `load`. -/
def decodeAddrs (data : List Byte) (offsetBits lengthBits : Nat) :
    (numBlocks position currentOffset : Nat) → IoResult (List BlockAddr)
  | 0, _, _ => .ok []
  | n + 1, position, currentOffset =>
    match readBits data position offsetBits with
    | none => .error (.unexpectedEof "Not enough bits")
    | some (delta, position) =>
      match readBits data position lengthBits with
      | none => .error (.unexpectedEof "Not enough bits")
      | some (length, position) =>
        if u64Max < currentOffset + delta then .error (.invalidData "block address offset overflow")
        else if u32Max < length then .error (.invalidData "block length exceeds u32")
        else
          let addr : BlockAddr := ⟨currentOffset + delta, length⟩
          match addr.end_ with
          | none => .error (.invalidData "block address end overflow")
          | some next => do
            let rest ← decodeAddrs data offsetBits lengthBits n position next
            .ok (addr :: rest)

/-- The bytes of the packed bits. -/
def packedLen (numBlocks offsetBits lengthBits : Nat) : Nat := ((offsetBits + lengthBits) * numBlocks + 7) / 8

def load (data : List Byte) : IoResult BlockAddrStore :=
  if data.length < headerSize then .error (.invalidData "BlockAddrStore data too short")
  else
    let numBlocks := readLe 4 data 0
    let offsetBits := readLe 1 data 4
    let lengthBits := readLe 1 data 5
    if 64 < offsetBits ∨ 32 < lengthBits then .error (.invalidData "invalid block address bit width")
    else if 0 < numBlocks ∧ (offsetBits = 0 ∨ lengthBits = 0) then
      .error (.invalidData "non-empty block address table has a zero bit width")
    else if u64Max < (offsetBits + lengthBits) * numBlocks + 7 then
      .error (.invalidData "block address table overflow")
    else if data.length - headerSize < packedLen numBlocks offsetBits lengthBits then
      .error (.unexpectedEof "block address table truncated")
    else do
      let packed := sliceBytes data headerSize (packedLen numBlocks offsetBits lengthBits)
      let addrs ← decodeAddrs packed offsetBits lengthBits numBlocks 0 0
      .ok ⟨numBlocks, offsetBits, lengthBits, addrs⟩

/-- Blocks from `base` on, one behind the other, in the ranges of the machine. -/
def Fits : (base : Nat) → List BlockAddr → Prop
  | _, [] => True
  | base, addr :: addrs =>
    base ≤ addr.offset ∧ addr.length ≤ u32Max ∧ addr.offset + addr.length ≤ u64Max ∧
      Fits (addr.offset + addr.length) addrs

/-- The gap before each block. -/
def gaps : (base : Nat) → List BlockAddr → List Nat
  | _, [] => []
  | base, addr :: addrs => (addr.offset - base) :: gaps (addr.offset + addr.length) addrs

/-- The addresses that are read back from bit `position` on, behind a block whose end was read as `current`: of
each gap what the bit writer kept. -/
def readBack (entryBits : Nat) : (position base current : Nat) → List BlockAddr → List BlockAddr
  | _, _, _, [] => []
  | position, base, current, addr :: addrs =>
    let offset := current + BitWriter.kept position (addr.offset - base)
    ⟨offset, addr.length⟩ ::
      readBack entryBits (position + entryBits) (addr.offset + addr.length) (offset + addr.length) addrs

variable {base offsetBits lengthBits : Nat} {addr : BlockAddr} {addrs : List BlockAddr}

theorem Fits.le (h : Fits base addrs) :
    (∀ gap ∈ gaps base addrs, gap ≤ u64Max) ∧ ∀ addr ∈ addrs, addr.length ≤ u32Max := by
  induction addrs generalizing base with
  | nil => exact ⟨nofun, nofun⟩
  | cons addr addrs ih =>
    obtain ⟨-, hlength, hend, hrest⟩ := h
    obtain ⟨hgaps, hlengths⟩ := ih hrest
    exact ⟨forall_mem_cons.mpr ⟨by omega, hgaps⟩, forall_mem_cons.mpr ⟨hlength, hlengths⟩⟩

/-- The addresses are read back when each gap fits the buffer of the writer behind the bits that are in it. -/
theorem readBack_eq_iff {entryBits position : Nat} (h : Fits base addrs) :
    readBack entryBits position base base addrs = addrs ↔
      ∀ i gap, (gaps base addrs)[i]? = some gap → gap < 2 ^ (64 - (position + i * entryBits) % 8) := by
  induction addrs generalizing base position with
  | nil => simp [readBack, gaps]
  | cons addr addrs ih =>
    obtain ⟨hle, -, -, hrest⟩ := h
    have hfirst : base + BitWriter.kept position (addr.offset - base) = addr.offset ↔
        addr.offset - base < 2 ^ (64 - position % 8) := by
      rw [← Nat.mod_eq_iff_lt (Nat.two_pow_pos _).ne', BitWriter.kept]
      omega
    have hindex : ∀ i, position + entryBits + i * entryBits = position + (i + 1) * entryBits := by
      intro i
      ring
    simp only [readBack, gaps, cons.injEq]
    constructor
    · rintro ⟨haddr, hback⟩ i gap hgap
      have haddr := congrArg BlockAddr.offset haddr
      dsimp only at haddr
      rw [haddr] at hback
      cases i with
      | zero =>
        cases hgap
        simpa using hfirst.mp haddr
      | succ i =>
        rw [← hindex]
        exact (ih hrest).mp hback i gap hgap
    · intro hgaps
      have haddr := hfirst.mpr (by simpa using hgaps 0 _ rfl)
      rw [haddr]
      refine ⟨rfl, (ih hrest).mpr fun i gap hgap => ?_⟩
      rw [hindex]
      exact hgaps (i + 1) gap hgap

theorem deltas_of_fits (h : Fits base addrs) : deltas base addrs = .ok (gaps base addrs) := by
  induction addrs generalizing base with
  | nil => rfl
  | cons addr addrs ih =>
    obtain ⟨-, -, hend, hrest⟩ := h
    rw [deltas, BlockAddr.end_, if_pos hend]
    dsimp only
    rw [ih hrest, ok_bind, gaps]

theorem fields_gaps_cons : fields offsetBits lengthBits (gaps base (addr :: addrs)) (addr :: addrs) =
    (addr.offset - base, offsetBits) :: (addr.length, lengthBits) ::
      fields offsetBits lengthBits (gaps (addr.offset + addr.length) addrs) addrs := rfl

theorem packWidth_fields : packWidth (fields offsetBits lengthBits (gaps base addrs) addrs) =
    (offsetBits + lengthBits) * addrs.length := by
  induction addrs generalizing base with
  | nil => rfl
  | cons addr addrs ih =>
    have := @ih (addr.offset + addr.length)
    rw [packWidth] at this
    rw [length_cons, fields_gaps_cons, packWidth, map_cons, map_cons, sum_cons, sum_cons, this, Nat.mul_succ]
    omega

theorem decodeAddrs_of_packedAt {data : List Byte} {position current : Nat} (h : Fits base addrs)
    (hfit : FieldsFitBits (fields offsetBits lengthBits (gaps base addrs) addrs)) (hcurrent : current ≤ base)
    (hpacked : PackedAt data position
      (keptFields position (fields offsetBits lengthBits (gaps base addrs) addrs))) :
    decodeAddrs data offsetBits lengthBits addrs.length position current =
      .ok (readBack (offsetBits + lengthBits) position base current addrs) := by
  induction addrs generalizing base position current with
  | nil => rfl
  | cons addr addrs ih =>
    obtain ⟨hle, hlength, hend, hrest⟩ := h
    rw [fields_gaps_cons] at hfit hpacked
    obtain ⟨hgap, hfields⟩ := forall_mem_cons.mp hfit
    obtain ⟨hlen, hfields⟩ := forall_mem_cons.mp hfields
    rw [keptFields, keptFields, BitWriter.kept_of_lt (hlength.trans_lt (by decide)), Nat.add_assoc] at hpacked
    have hkept : BitWriter.kept position (addr.offset - base) ≤ addr.offset - base := Nat.mod_le ..
    obtain ⟨hdelta, hpacked⟩ := hpacked.readBits (hkept.trans_lt hgap)
    obtain ⟨hread, hpacked⟩ := hpacked.readBits hlen
    rw [Nat.add_assoc] at hpacked hread
    have hend' : current + BitWriter.kept position (addr.offset - base) + addr.length ≤
        addr.offset + addr.length := by omega
    simp only [length_cons, decodeAddrs, hdelta, hread, BlockAddr.end_]
    rw [if_neg (by omega), if_neg (by omega), if_pos (by omega)]
    dsimp only
    rw [ih hrest hfields hend' hpacked, ok_bind, readBack]

/-- The store that is read back. -/
def ofAddrs (addrs : List BlockAddr) : BlockAddrStore :=
  if addrs = [] then ⟨0, 0, 0, []⟩
  else
    let offsetBits := bitWidth ((gaps 0 addrs).foldl max 0)
    let lengthBits := bitWidth ((addrs.map (·.length)).foldl max 0)
    ⟨addrs.length, offsetBits, lengthBits, readBack (offsetBits + lengthBits) 0 0 0 addrs⟩

/-- No gap is too wide: where entry `i` starts, `i * entryBits % 8` bits of the writer's buffer are taken. -/
def GapsFit (addrs : List BlockAddr) : Prop :=
  ∀ i gap, (gaps 0 addrs)[i]? = some gap →
    gap < 2 ^ (64 - i * ((ofAddrs addrs).offsetBits + (ofAddrs addrs).lengthBits) % 8)

/-- The fields of the addresses. -/
def packed (addrs : List BlockAddr) : List (Nat × Nat) :=
  fields (ofAddrs addrs).offsetBits (ofAddrs addrs).lengthBits (gaps 0 addrs) addrs

/-- The bytes of the addresses, when they are to be read back. -/
def encode (addrs : List BlockAddr) : List Byte :=
  leBytes 4 (ofAddrs addrs).numBlocks ++ (leBytes 1 (ofAddrs addrs).offsetBits ++
    (leBytes 1 (ofAddrs addrs).lengthBits ++ packBits (packed addrs)))

@[simp] theorem ofAddrs_numBlocks (addrs : List BlockAddr) : (ofAddrs addrs).numBlocks = addrs.length := by
  rw [ofAddrs]
  split
  case isTrue h => rw [h]; rfl
  case isFalse => rfl

theorem mk_ofAddrs (addrs : List BlockAddr) :
    (⟨addrs.length, (ofAddrs addrs).offsetBits, (ofAddrs addrs).lengthBits,
      readBack ((ofAddrs addrs).offsetBits + (ofAddrs addrs).lengthBits) 0 0 0 addrs⟩ : BlockAddrStore) =
      ofAddrs addrs := by
  by_cases h : addrs = []
  · rw [h]
    rfl
  · simp [ofAddrs, h]

/-- The widths are those of the largest gap and of the largest length. -/
theorem packed_fit (addrs : List BlockAddr) : FieldsFitBits (packed addrs) := by
  intro f hf
  obtain ⟨p, hp, hf⟩ := mem_flatMap.mp hf
  obtain ⟨hgap, haddr⟩ := of_mem_zip hp
  rw [ofAddrs, if_neg (ne_nil_of_mem haddr)] at hf
  rcases mem_pair.mp hf with rfl | rfl
  · exact (le_foldl_max hgap).trans_lt (lt_two_pow_bitWidth _)
  · exact Nat.lt_of_le_of_lt (le_foldl_max (mem_map.mpr ⟨p.2, haddr, rfl⟩)) (lt_two_pow_bitWidth _)

theorem length_encode (addrs : List BlockAddr) : (encode addrs).length = headerSize +
    packedLen (ofAddrs addrs).numBlocks (ofAddrs addrs).offsetBits (ofAddrs addrs).lengthBits := by
  obtain ⟨-, hlength⟩ := packBits_spec (packed_fit addrs)
  rw [encode, length_append, length_append, length_append, length_leBytes, length_leBytes,
    length_leBytes, hlength, packed, packWidth_fields, packedLen, ofAddrs_numBlocks, headerSize]
  omega

section

variable (h : Fits 0 addrs)

include h

/-- The addresses are those of the blocks exactly when no gap is too wide. -/
theorem ofAddrs_addrs_eq_iff : (ofAddrs addrs).addrs = addrs ↔ GapsFit addrs := by
  rw [← mk_ofAddrs, readBack_eq_iff h]
  simp only [GapsFit, Nat.zero_add]

theorem ofAddrs_bits_le : (ofAddrs addrs).offsetBits ≤ 64 ∧ (ofAddrs addrs).lengthBits ≤ 32 := by
  rw [ofAddrs]
  split
  case isTrue => exact ⟨Nat.zero_le _, Nat.zero_le _⟩
  case isFalse =>
    have hgaps := foldl_max_le_iff.mpr ⟨Nat.zero_le u64Max, h.le.1⟩
    have hlengths := foldl_max_le_iff.mpr ⟨Nat.zero_le u32Max, forall_mem_map.mpr h.le.2⟩
    exact ⟨bitWidth_le (by decide) (hgaps.trans_lt (by decide)), bitWidth_le (by decide) (hlengths.trans_lt (by decide))⟩

variable (hcount : addrs.length ≤ u32Max)

include hcount

theorem entryBits_mul_le :
    ((ofAddrs addrs).offsetBits + (ofAddrs addrs).lengthBits) * addrs.length + 7 ≤ u64Max := by
  have hbits := ofAddrs_bits_le h
  have hmul : ((ofAddrs addrs).offsetBits + (ofAddrs addrs).lengthBits) * addrs.length ≤ 96 * u32Max :=
    Nat.mul_le_mul (by omega) hcount
  have hbound : 96 * u32Max + 7 ≤ u64Max := by decide
  omega

theorem build_eq : build addrs = .ok (encode addrs) := by
  rw [build]
  split
  case isTrue hnil => rw [hnil]; rfl
  case isFalse hne =>
    have hmul := entryBits_mul_le h hcount
    rw [ofAddrs, if_neg hne] at hmul
    dsimp only at hmul
    rw [deltas_of_fits h, ok_bind, if_neg (by omega), encode, packed, ofAddrs, if_neg hne, append_assoc,
      append_assoc]

/-- The table is read, whatever stands behind it. -/
theorem load_encode (rest : List Byte) : load (encode addrs ++ rest) = .ok (ofAddrs addrs) := by
  have hlength := length_encode addrs
  have hbits := ofAddrs_bits_le h
  have hmul := entryBits_mul_le h hcount
  have hfit := packed_fit addrs
  obtain ⟨-, hpackedLen⟩ := packBits_spec hfit
  rw [packed, packWidth_fields, ← packed] at hpackedLen
  -- the header
  have hcountRead : readLe 4 (encode addrs ++ rest) 0 = addrs.length := by
    rw [encode, append_assoc, ofAddrs_numBlocks,
      readLe_leBytes (hcount.trans_lt (by decide))]
  have hoffsetRead : readLe 1 (encode addrs ++ rest) 4 = (ofAddrs addrs).offsetBits := by
    rw [encode, append_assoc, readLe_skip 4 _ 0, append_assoc, readLe_leBytes (by omega)]
  have hlengthRead : readLe 1 (encode addrs ++ rest) 5 = (ofAddrs addrs).lengthBits := by
    rw [encode, append_assoc, readLe_skip 4 _ 1, append_assoc, readLe_skip 1 _ 0, append_assoc,
      readLe_leBytes (by omega)]
  have hzero : ¬(0 < addrs.length ∧ ((ofAddrs addrs).offsetBits = 0 ∨ (ofAddrs addrs).lengthBits = 0)) := by
    rintro ⟨hpos, hbits⟩
    rw [ofAddrs, if_neg (length_pos_iff.mp hpos)] at hbits
    exact hbits.elim (bitWidth_pos _).ne' (bitWidth_pos _).ne'
  -- the packed bits stand behind the header
  have hslice : sliceBytes (encode addrs ++ rest) headerSize
      (packedLen addrs.length (ofAddrs addrs).offsetBits (ofAddrs addrs).lengthBits) =
      packBits (packed addrs) := by
    have := sliceBytes_append
      (leBytes 4 (ofAddrs addrs).numBlocks ++ leBytes 1 (ofAddrs addrs).offsetBits ++
        leBytes 1 (ofAddrs addrs).lengthBits)
      (packBits (packed addrs)) rest
    rw [length_append, length_append, length_leBytes, length_leBytes, length_leBytes, hpackedLen] at this
    rw [encode, headerSize]
    simpa only [append_assoc, packedLen] using this
  rw [load]
  simp only [hcountRead, hoffsetRead, hlengthRead]
  rw [ofAddrs_numBlocks] at hlength
  have hdecode : decodeAddrs (packBits (packed addrs)) .. = _ :=
    decodeAddrs_of_packedAt h hfit le_rfl (packedAt_packBits hfit)
  rw [if_neg (by rw [length_append]; omega), if_neg (by omega), if_neg hzero, if_neg (by omega),
    if_neg (by rw [length_append]; omega), hslice, hdecode, ok_bind]
  exact congrArg Except.ok (mk_ofAddrs addrs)

end

end BlockAddrStore

end Summa
