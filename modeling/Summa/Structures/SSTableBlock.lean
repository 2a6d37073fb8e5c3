import Summa.Lib.ByteColumn
import Summa.Structures.PrefixCoding

/-!
# Data blocks of an SSTable (`structures/sstable.rs`)

A block holds entries as a prefix-coded stream, each key with its serialized value, and a trailer: the offsets
of the restarts and their number. A lookup searches the restarts by bisection and decodes entries from the last
one whose key is not above the target.

* `searchBlock_blockBytes`: a lookup in a block of sorted entries finds the value of the key, if there is one.
-/

namespace Summa

open List Fallible

/-- A value that can be stored in a table (`SSTableValue`). -/
structure SSTableValue (V : Type) where
  serialize : V → List Byte
  /-- Read one value, leaving subsequent entry bytes untouched. -/
  deserialize : List Byte → IoResult (V × List Byte)
  /-- Advance past one value without materializing it. -/
  skip : List Byte → IoResult (List Byte)

/-- `deserialize` consumes exactly the bytes written for the value, and so does `skip`. -/
structure SSTableValue.Inverts {V : Type} (codec : SSTableValue V) (value : V) : Prop where
  deserialize : ∀ rest, codec.deserialize (codec.serialize value ++ rest) = .ok (value, rest)
  skip : ∀ rest, codec.skip (codec.serialize value ++ rest) = .ok rest

/-- The implementation for `u64`; `skip` is the default, which decodes and drops. -/
def u64Value : SSTableValue Nat where
  serialize := writeVint
  deserialize := readVintIo
  skip reader := do
    let (_, reader) ← readVintIo reader
    .ok reader

theorem u64Value_inverts {value : Nat} (h : value < 2 ^ 64) : u64Value.Inverts value := by
  have hread : ∀ rest, readVintIo (writeVint value ++ rest) = .ok (value, rest) := readVintIo_writeVint h
  refine ⟨hread, fun rest => ?_⟩
  show (readVintIo (writeVint value ++ rest) >>= fun read => Except.ok read.2) = _
  rw [hread, ok_bind]

/-- A decompressed data block split into its entry stream and restart table. -/
structure BlockParts where
  entries : List Byte
  restartTable : List Byte

namespace BlockParts

def split (block : List Byte) : IoResult BlockParts := do
  failIf (block.length < 4) (.invalidData "SSTable block shorter than its restart trailer")
  let countAt := block.length - 4
  let count := readLe 4 block countAt
  failIf (countAt < count * 4) (.invalidData "SSTable restart table exceeds its block")
  let tableAt := countAt - count * 4
  .ok ⟨block.take tableAt, sliceBytes block tableAt (count * 4)⟩

variable (self : BlockParts)

def numRestarts : Nat := self.restartTable.length / 4

def restartOffset (i : Nat) : IoResult Nat :=
  let offset := columnAt 4 self.restartTable i
  if self.entries.length ≤ offset then .error (.invalidData "SSTable restart offset outside the block")
  else .ok offset

/-- The full key stored at restart `i` (restart entries carry no prefix). -/
def restartKey (i : Nat) : IoResult Key := do
  let offset ← self.restartOffset i
  let (prefixLen, reader) ← readVintIo (self.entries.drop offset)
  failIf (prefixLen ≠ 0) (.invalidData "SSTable restart entry has a non-zero key prefix")
  let (suffixLen, reader) ← readVintIo reader
  failIf (reader.length < suffixLen) (.unexpectedEof "SSTable restart key truncated")
  .ok (reader.take suffixLen)

/-- The offset of the last restart whose key is not above the target; none if the target sorts before the first
key of the block. -/
def searchStart (target : Key) : IoResult (Option Nat) :=
  if 0 < self.numRestarts then do
    let lo ← partitionPointM (fun mid => do
      let key ← self.restartKey mid
      .ok (decide (key ≤ target))) 0 self.numRestarts
    if lo = 0 then .ok none
    else do
      let start ← self.restartOffset (lo - 1)
      .ok (some start)
  else .ok (some 0)

end BlockParts

section Blocks

variable {V : Type} (codec : SSTableValue V)

/-- Decode one prefix-compressed key/value entry: the value, its key and what is left. -/
def decodeBlockEntry (reader : List Byte) (currentKey : Key) : IoResult (V × Key × List Byte) := do
  let (_, key, reader) ← decodeBlockKey reader currentKey
  let (value, reader) ← codec.deserialize reader
  .ok (value, key, reader)

/-- The loop of `search_block`. An entry has at least one byte, so that there are at most as many turns as
bytes. -/
def scanBlock (target : Key) : (turns : Nat) → (reader : List Byte) → (currentKey : Key) → IoResult (Option V)
  | 0, _, _ => .ok none
  | turns + 1, reader, currentKey =>
    if reader = [] then .ok none
    else do
      let (value, key, reader) ← decodeBlockEntry codec reader currentKey
      if key = target then .ok (some value)
      else if target < key then .ok none
      else scanBlock target turns reader key

def searchBlock (blockData : List Byte) (targetKey : Key) : IoResult (Option V) := do
  let parts ← BlockParts.split blockData
  match ← parts.searchStart targetKey with
  | none => .ok none
  | some start => scanBlock codec targetKey (parts.entries.drop start).length (parts.entries.drop start) []

/-- The entries of a block with their values serialized. -/
def SSTableValue.items (entries : List (Key × V)) : List Item := entries.map fun e => (e.1, codec.serialize e.2)

@[simp] theorem SSTableValue.length_items (entries : List (Key × V)) :
    (codec.items entries).length = entries.length := length_map ..

end Blocks

/-- The bytes of a block before compression. -/
def blockBytes (items : List Item) : List Byte :=
  encodeItems 0 [] items ++ (encodeColumn 4 (restartOffsets items) ++ leBytes 4 (restartCount items.length))

theorem length_blockBytes (items : List Item) : (blockBytes items).length =
    (encodeItems 0 [] items).length + (restartCount items.length * 4 + 4) := by
  simp [blockBytes]

/-- The two parts of a block. -/
def blockParts (items : List Item) : BlockParts :=
  ⟨encodeItems 0 [] items, encodeColumn 4 (restartOffsets items)⟩

theorem restartCount_le (count : Nat) : restartCount count ≤ count := by
  simp only [restartCount, restartInterval]
  omega

theorem split_blockBytes {items : List Item} (h : (encodeItems 0 [] items).length ≤ u32Max) :
    BlockParts.split (blockBytes items) = .ok (blockParts items) := by
  have hlength := length_blockBytes items
  have hcount : restartCount items.length ≤ u32Max :=
    (restartCount_le _).trans ((length_le_length_encodeItems 0 [] items).trans h)
  have hbytes : blockBytes items = (encodeItems 0 [] items ++ encodeColumn 4 (restartOffsets items)) ++
      (leBytes 4 (restartCount items.length) ++ []) := by
    rw [blockBytes, append_nil, append_assoc]
  have hcountAt : (encodeItems 0 [] items ++ encodeColumn 4 (restartOffsets items)).length =
      (blockBytes items).length - 4 := by
    rw [length_append, length_encodeColumn, length_restartOffsets]
    omega
  have hread : readLe 4 (blockBytes items) ((blockBytes items).length - 4) = restartCount items.length := by
    rw [← hcountAt, hbytes]
    exact readLe_append _ _ (hcount.trans_lt (by decide))
  have htableAt : (blockBytes items).length - 4 - restartCount items.length * 4 =
      (encodeItems 0 [] items).length := by
    omega
  have htable : sliceBytes (blockBytes items) (encodeItems 0 [] items).length (restartCount items.length * 4) =
      encodeColumn 4 (restartOffsets items) := by
    have hslice := sliceBytes_append (encodeItems 0 [] items) (encodeColumn 4 (restartOffsets items))
      (leBytes 4 (restartCount items.length))
    rwa [length_encodeColumn, length_restartOffsets] at hslice
  rw [BlockParts.split, failIf_bind (by omega)]
  dsimp only
  rw [hread, failIf_bind (by omega), htableAt, htable, blockParts]
  conv_lhs => rw [blockBytes, take_left]

namespace BlockParts

variable {items : List Item}

@[simp] theorem numRestarts_blockParts : (blockParts items).numRestarts = restartCount items.length := by
  simp [numRestarts, blockParts]

variable (h : (encodeItems 0 [] items).length ≤ u32Max) (hlen : ∀ item ∈ items, item.1.length < 2 ^ 64)

include h in
theorem restartOffset_blockParts {r : Nat}
    (hr : r < restartCount items.length) :
    (blockParts items).restartOffset r = .ok (Summa.restartOffset items r) := by
  have hlt := restartOffset_lt hr
  have hfit : ∀ n ∈ restartOffsets items, n < 256 ^ 4 := by
    intro n hn
    obtain ⟨r, hr, rfl⟩ := mem_map.mp hn
    exact (restartOffset_lt (mem_range.mp hr)).trans (h.trans_lt (by decide))
  have hread : columnAt 4 (encodeColumn 4 (restartOffsets items)) r = Summa.restartOffset items r := by
    rw [columnAt_encodeColumn hfit (by rwa [length_restartOffsets])]
    simp only [restartOffsets, getElem_map, getElem_range]
  rw [restartOffset, blockParts]
  simp only [hread]
  rw [if_neg hlt.not_ge]

include h hlen in
theorem restartKey_blockParts {r : Nat} (hr : r * restartInterval < items.length) :
    (blockParts items).restartKey r = .ok items[r * restartInterval].1 := by
  have hkey := hlen _ (getElem_mem hr)
  rw [restartKey, restartOffset_blockParts h (lt_restartCount_iff.mpr hr), ok_bind]
  -- the first item at a restart is stored in full
  rw [show (blockParts items).entries = encodeItems 0 [] items from rfl, drop_restart hr.le, drop_eq_getElem_cons hr,
    encodeItems, prefixLenAt, if_pos (Nat.mul_mod_left ..), readVintIo_encodeKey (by decide), ok_bind]
  dsimp only
  rw [failIf_bind (fun h => h rfl), readVintIo_writeVint (by omega), ok_bind]
  rw [Nat.sub_zero, drop_zero, failIf_bind, take_left]
  rw [length_append]
  omega

include h hlen in
/-- The search starts at a restart with only smaller keys before it, or all keys are above the target. -/
theorem searchStart_blockParts (hs : items.Pairwise fun a b => a.1 < b.1) (target : Key) :
    ((blockParts items).searchStart target = .ok none ∧ ∀ item ∈ items, target < item.1) ∨
      ∃ r, r * restartInterval ≤ items.length ∧
        (blockParts items).searchStart target = .ok (some (Summa.restartOffset items r)) ∧
        ∀ item ∈ items.take (r * restartInterval), item.1 < target := by
  rw [searchStart, numRestarts_blockParts]
  split
  case isFalse h0 =>
    have hiff : 0 < restartCount items.length ↔ 0 * restartInterval < items.length := lt_restartCount_iff
    have hnil : items = [] := length_eq_zero_iff.mp (by omega)
    exact .inr ⟨0, by omega, by rw [hnil]; rfl, by simp⟩
  case isTrue hpos =>
    have hless : ∀ {i j : Nat} (hij : i < j) (hj : j < items.length), items[i].1 < items[j].1 :=
      fun hij hj => pairwise_iff_getElem.mp hs _ _ (hij.trans hj) hj hij
    set key : Nat → Key := fun r => (items.map (·.1)).getD (r * restartInterval) [] with hkeyDef
    have hkey : ∀ {r} (hr : r * restartInterval < items.length), key r = items[r * restartInterval].1 := by
      intro r hr
      simp [hkeyDef, hr]
    obtain ⟨at_, hsplit⟩ := exists_splitsAt_restart (pairwise_map.mpr hs)
      (fun {r} hr => show key r = _ by rw [hkey (by simpa using hr), getElem_map]) target
    rw [length_map] at hsplit
    have hsearch : partitionPointM (fun mid => do
        let key ← (blockParts items).restartKey mid
        Except.ok (decide (key ≤ target))) 0 (restartCount items.length) = Except.ok at_ := by
      rw [← partitionPoint_spec hsplit]
      refine partitionPointM_eq_ok fun r hr => ?_
      have hlt := lt_restartCount_iff.mp hr
      rw [restartKey_blockParts h hlen hlt, ok_bind, hkey hlt]
    rw [hsearch, ok_bind]
    have hat := hsplit.le
    split
    case isTrue h0 =>
      have hfirst := of_decide_eq_false (hsplit.above 0 (by omega) hpos)
      rw [hkey (lt_restartCount_iff.mp hpos), not_le] at hfirst
      refine .inl ⟨rfl, fun item hitem => ?_⟩
      obtain ⟨i, hi, rfl⟩ := mem_iff_getElem.mp hitem
      rcases Nat.eq_zero_or_pos i with rfl | hipos
      · simpa using hfirst
      · exact hfirst.trans (hless (by omega) hi)
    case isFalse hne =>
      have hr : at_ - 1 < restartCount items.length := by omega
      have hlt := lt_restartCount_iff.mp hr
      have hle := of_decide_eq_true (hsplit.below (at_ - 1) (by omega))
      rw [hkey hlt] at hle
      refine .inr ⟨at_ - 1, hlt.le, by rw [restartOffset_blockParts h hr, ok_bind], fun item hitem => ?_⟩
      obtain ⟨i, hi, rfl⟩ := mem_iff_getElem.mp hitem
      rw [length_take] at hi
      rw [getElem_take]
      exact (hless (by omega) hlt).trans_le hle

end BlockParts

section Search

variable {V : Type} {codec : SSTableValue V} {entries : List (Key × V)} {target : Key}

theorem decodeBlockEntry_items {e : Key × V} (hlen : e.1.length < 2 ^ 64) (hvalue : codec.Inverts e.2)
    (count : Nat) (prev : Key) :
    decodeBlockEntry codec (encodeItems count prev (codec.items (e :: entries))) prev =
      .ok (e.2, e.1, encodeItems (count + 1) e.1 (codec.items entries)) := by
  rw [decodeBlockEntry, SSTableValue.items, map_cons, encodeItems, decodeBlockKey_prefixLenAt hlen,
    ok_bind]
  dsimp only
  rw [hvalue.deserialize, ok_bind]
  rfl

theorem encodeItems_cons_ne_nil (count : Nat) (prev : Key) (item : Item) (items : List Item) :
    encodeItems count prev (item :: items) ≠ [] := by
  apply ne_nil_of_length_pos
  have := length_le_length_encodeItems count prev (item :: items)
  rw [length_cons] at this
  omega

theorem lookup_eq_none_of_lt (h : ∀ e ∈ entries, target < e.1) : entries.lookup target = none := by
  rw [lookup_eq_none_iff]
  intro e he
  simpa using (h e he).ne

variable (hlen : ∀ e ∈ entries, e.1.length < 2 ^ 64) (hvalues : ∀ e ∈ entries, codec.Inverts e.2)
  (hs : entries.Pairwise fun a b => a.1 < b.1)

include hlen hvalues hs in
/-- The scan of sorted entries stops at the key or behind it. -/
theorem scanBlock_items {turns : Nat} (hturns : entries.length ≤ turns) (count : Nat)
    (prev : Key) :
    scanBlock codec target turns (encodeItems count prev (codec.items entries)) prev =
      .ok (entries.lookup target) := by
  induction entries generalizing turns count prev with
  | nil => cases turns <;> rfl
  | cons e entries ih =>
    obtain ⟨key, value⟩ := e
    obtain ⟨turns, rfl⟩ : ∃ n, turns = n + 1 := ⟨turns - 1, by rw [length_cons] at hturns; omega⟩
    obtain ⟨he, hs⟩ := pairwise_cons.mp hs
    obtain ⟨helen, hlen⟩ := forall_mem_cons.mp hlen
    obtain ⟨hevalue, hvalues⟩ := forall_mem_cons.mp hvalues
    rw [scanBlock, if_neg (show encodeItems count prev (codec.items ((key, value) :: entries)) ≠ [] from
      encodeItems_cons_ne_nil _ _ _ _), decodeBlockEntry_items helen hevalue, ok_bind]
    dsimp only
    rcases lt_trichotomy key target with hlt | rfl | hgt
    · rw [if_neg hlt.ne, if_neg hlt.asymm, ih hlen hvalues hs (Nat.le_of_succ_le_succ hturns), lookup_cons,
        beq_false_of_ne hlt.ne']
    · rw [if_pos rfl, lookup_cons_self]
    · rw [if_neg hgt.ne', if_pos hgt, lookup_eq_none_of_lt]
      exact forall_mem_cons.mpr ⟨hgt, fun f hf => hgt.trans (he f hf)⟩

include hlen hvalues hs in
/-- A lookup in a block. -/
theorem searchBlock_blockBytes (hsize : (encodeItems 0 [] (codec.items entries)).length ≤ u32Max) :
    searchBlock codec (blockBytes (codec.items entries)) target = .ok (entries.lookup target) := by
  have hitemsLen : ∀ item ∈ codec.items entries, item.1.length < 2 ^ 64 := by
    intro item hitem
    obtain ⟨e, he, rfl⟩ := mem_map.mp hitem
    exact hlen e he
  have hitems : (codec.items entries).Pairwise fun a b => a.1 < b.1 := pairwise_map.mpr hs
  rw [searchBlock, split_blockBytes hsize, ok_bind]
  rcases BlockParts.searchStart_blockParts hsize hitemsLen hitems target with ⟨hstart, habove⟩ | ⟨r, hr, hstart, hbelow⟩
  · have hnone : entries.lookup target = none :=
      lookup_eq_none_of_lt fun e he => habove _ (mem_map.mpr ⟨e, he, rfl⟩)
    rw [hstart, ok_bind, hnone]
  · -- the entries before the restart are below the target
    have hskip : (entries.take (r * restartInterval)).lookup target = none := by
      rw [lookup_eq_none_iff]
      intro e he
      have := hbelow (e.1, codec.serialize e.2) (by
        rw [SSTableValue.items, ← map_take]
        exact mem_map.mpr ⟨e, he, rfl⟩)
      simpa using this.ne'
    have hrest : (codec.items entries).drop (r * restartInterval) =
        codec.items (entries.drop (r * restartInterval)) := map_drop.symm
    have hlookup : entries.lookup target = (entries.drop (r * restartInterval)).lookup target := by
      conv_lhs => rw [← take_append_drop (r * restartInterval) entries, lookup_append, hskip]
      rfl
    have hsub : ∀ e ∈ entries.drop (r * restartInterval), e ∈ entries := fun e he => mem_of_mem_drop he
    rw [hstart, ok_bind, hlookup]
    dsimp only
    rw [show (blockParts (codec.items entries)).entries = encodeItems 0 [] (codec.items entries) from rfl,
      drop_restart hr, hrest]
    refine scanBlock_items (fun e he => hlen e (hsub e he)) (fun e he => hvalues e (hsub e he)) hs.drop ?_ _ _
    have := length_le_length_encodeItems (r * restartInterval) []
      (codec.items (entries.drop (r * restartInterval)))
    rwa [SSTableValue.length_items] at this

/-- Twenty keys with a common prefix in two restarts: a key behind the second restart is found, and one between
two keys is not. -/
theorem searchBlock_two_restarts :
    let entries := (range 20).map fun n => (([7, 7, BitVec.ofNat 8 n] : Key), 300 * n)
    let block := blockBytes (u64Value.items entries)
    restartCount entries.length = 2 ∧ searchBlock u64Value block [7, 7, 18] = .ok (some 5400) ∧
      searchBlock u64Value block [7, 7, 3, 0] = .ok none := by
  intro entries block
  have hlen : ∀ e ∈ entries, e.1.length < 2 ^ 64 := by decide +kernel
  have hsmall : ∀ e ∈ entries, e.2 < 2 ^ 64 := by decide +kernel
  have hvalues : ∀ e ∈ entries, u64Value.Inverts e.2 := fun e he => u64Value_inverts (hsmall e he)
  have hs : entries.Pairwise fun a b => a.1 < b.1 := by decide +kernel
  have hsize : (encodeItems 0 [] (u64Value.items entries)).length ≤ u32Max := by decide +kernel
  have hfound : entries.lookup [7, 7, 18] = some 5400 := by decide +kernel
  have hnone : entries.lookup [7, 7, 3, 0] = none := by decide +kernel
  refine ⟨by decide +kernel, ?_, ?_⟩
  · rw [← hfound]
    exact searchBlock_blockBytes hlen hvalues hs hsize
  · rw [← hnone]
    exact searchBlock_blockBytes hlen hvalues hs hsize

end Search

end Summa
