import Summa.Lib.BinarySearch
import Summa.Lib.ByteKeys
import Summa.Lib.Fallible
import Summa.Lib.SortedList
import Summa.Directories.Directory
import Summa.Structures.Vint

/-!
# Prefix-coded streams with restarts (`structures/sstable.rs`, `structures/sstable_index.rs`)

Data blocks and the block index store keys in the same way: each key as the length of what it shares with the
key before, the length of its rest and the rest. Every `RESTART_INTERVAL`-th key is a restart and is stored in
full, so that reading can start there. Here an item is a key with the bytes behind it (the value in a block,
nothing in the index).

* `decodeBlockKey_encodeKey`: a key that was written is read back after its predecessor.
* `encodeItems_append`, `encodeItems_of_restart`: the stream of two parts; at a restart it does not depend on
  what came before.
* `drop_restart`: what stands at the offset of a restart.
-/

namespace Summa

open List Fallible

/-- `RESTART_INTERVAL`: entries between two restart points. -/
def restartInterval : Nat := 16

/-- `read_vint` with its errors: fewer than ten bytes can only have run out. -/
def readVintIo (reader : List Byte) : IoResult (Nat × List Byte) :=
  match readVint reader with
  | some read => .ok read
  | none =>
    .error (if reader.length < 10 then .unexpectedEof "failed to fill whole buffer"
      else .invalidData "varint exceeds u64")

theorem readVintIo_writeVint {value : Nat} (h : value < 2 ^ 64) (rest : List Byte) :
    readVintIo (writeVint value ++ rest) = .ok (value, rest) := by
  rw [readVintIo, readVint_writeVint h]

theorem readVintIo_suffix {value : Nat} {reader rest : List Byte} (h : readVintIo reader = .ok (value, rest)) :
    rest <:+ reader := by
  rw [readVintIo] at h
  split at h
  case h_1 hread => exact readGroups_suffix (Except.ok.inj h ▸ hread)
  case h_2 => cases h

/-- Decode only the key of the next entry: its shared-prefix length, the key and what is left. -/
def decodeBlockKey (reader : List Byte) (currentKey : Key) : IoResult (Nat × Key × List Byte) := do
  let (commonPrefixLen, reader) ← readVintIo reader
  let (suffixLen, reader) ← readVintIo reader
  if reader.length < suffixLen then .error (.unexpectedEof "SSTable block suffix truncated")
  else .ok (commonPrefixLen, currentKey.take commonPrefixLen ++ reader.take suffixLen, reader.drop suffixLen)

/-- A key that shares `prefixLen` bytes with the key before. -/
def encodeKey (prefixLen : Nat) (key : Key) : List Byte :=
  writeVint prefixLen ++ (writeVint (key.length - prefixLen) ++ key.drop prefixLen)

variable {key : Key} {count r : Nat} {items : List Item}

theorem readVintIo_encodeKey {prefixLen : Nat} (hshort : prefixLen < 2 ^ 64) (rest : List Byte) :
    readVintIo (encodeKey prefixLen key ++ rest) =
      .ok (prefixLen, writeVint (key.length - prefixLen) ++ (key.drop prefixLen ++ rest)) := by
  rw [encodeKey, append_assoc, append_assoc, readVintIo_writeVint hshort]

theorem decodeBlockKey_encodeKey {prefixLen : Nat} {current : Key} (hle : prefixLen ≤ key.length)
    (hlen : key.length < 2 ^ 64) (hshared : current.take prefixLen = key.take prefixLen) (rest : List Byte) :
    decodeBlockKey (encodeKey prefixLen key ++ rest) current = .ok (prefixLen, key, rest) := by
  have hdrop : (key.drop prefixLen).length = key.length - prefixLen := length_drop ..
  have hsuffix : key.length - prefixLen < 2 ^ 64 := by omega
  rw [decodeBlockKey, readVintIo_encodeKey (by omega), ok_bind]
  dsimp only
  rw [readVintIo_writeVint hsuffix, ok_bind]
  rw [if_neg (by rw [length_append, hdrop]; omega), hshared, ← hdrop, take_left, drop_left,
    take_append_drop]

/-- A key and the bytes behind it. -/
abbrev Item := Key × List Byte

section

variable (count : Nat) (prev key : Key)

/-- What entry number `count` shares with the key before; a restart shares nothing. -/
def prefixLenAt : Nat :=
  if count % restartInterval = 0 then 0 else commonPrefixLen prev key

theorem prefixLenAt_le : prefixLenAt count prev key ≤ min prev.length key.length := by
  rw [prefixLenAt]
  split
  · exact Nat.zero_le _
  · exact commonPrefixLen_le prev key

theorem take_prefixLenAt :
    prev.take (prefixLenAt count prev key) = key.take (prefixLenAt count prev key) := by
  rw [prefixLenAt]
  split
  · simp
  · exact take_commonPrefixLen prev key

end

/-- Reading a key of the stream, after the key before it. -/
theorem decodeBlockKey_prefixLenAt {prev : Key} (hlen : key.length < 2 ^ 64) (rest : List Byte) :
    decodeBlockKey (encodeKey (prefixLenAt count prev key) key ++ rest) prev =
      .ok (prefixLenAt count prev key, key, rest) :=
  decodeBlockKey_encodeKey ((prefixLenAt_le ..).trans (min_le_right ..)) hlen (take_prefixLenAt ..) rest

/-- The stream of items, of which `count` came before, the last one with key `prev`. -/
def encodeItems (count : Nat) (prev : Key) : List Item → List Byte
  | [] => []
  | (key, payload) :: items =>
    encodeKey (prefixLenAt count prev key) key ++ (payload ++ encodeItems (count + 1) key items)

/-- The last key of a stream. -/
def lastKey (prev : Key) : List Item → Key
  | [] => prev
  | (key, _) :: items => lastKey key items

@[simp] theorem lastKey_append_singleton (prev : Key) (items : List Item) (item : Item) :
    lastKey prev (items ++ [item]) = item.1 := by
  induction items generalizing prev with
  | nil => rfl
  | cons i items ih => exact ih i.1

theorem encodeItems_append (count : Nat) (prev : Key) (xs ys : List Item) :
    encodeItems count prev (xs ++ ys) =
      encodeItems count prev xs ++ encodeItems (count + xs.length) (lastKey prev xs) ys := by
  induction xs generalizing count prev with
  | nil => rfl
  | cons x xs ih =>
    rw [cons_append, encodeItems, encodeItems, ih, length_cons, lastKey, append_assoc,
      append_assoc, Nat.add_assoc, Nat.add_comm 1]

theorem encodeItems_of_restart (h : count % restartInterval = 0) (prev prev' : Key)
    (items : List Item) : encodeItems count prev items = encodeItems count prev' items := by
  cases items with
  | nil => rfl
  | cons item items => rw [encodeItems, encodeItems, prefixLenAt, prefixLenAt, if_pos h, if_pos h]

/-- Every item takes at least two bytes. -/
theorem length_encodeKey_pos (prefixLen : Nat) (key : Key) : 0 < (encodeKey prefixLen key).length := by
  have : 0 < (writeVint prefixLen).length := by
    rw [writeVint, writeGroups]
    split <;> simp
  rw [encodeKey, length_append]
  omega

theorem length_le_length_encodeItems (count : Nat) (prev : Key) (items : List Item) :
    items.length ≤ (encodeItems count prev items).length := by
  induction items generalizing count prev with
  | nil => exact Nat.le_refl 0
  | cons item items ih =>
    have hkey := length_encodeKey_pos (prefixLenAt count prev item.1) item.1
    have hrest := ih (count + 1) item.1
    rw [encodeItems, length_cons, length_append, length_append]
    omega

/-- The number of restarts among `count` items. -/
def restartCount (count : Nat) : Nat := (count + (restartInterval - 1)) / restartInterval

theorem lt_restartCount_iff : r < restartCount count ↔ r * restartInterval < count := by
  simp only [restartCount, restartInterval]
  omega

/-- The keys of the restarts of a sorted list split at a target. -/
theorem exists_splitsAt_restart {keys : List Key} (hs : keys.Pairwise (· < ·)) {restartKey : Nat → Key}
    (hkey : ∀ {r} (hr : r * restartInterval < keys.length), restartKey r = keys[r * restartInterval]) (target : Key) :
    ∃ at_, SplitsAt (fun r => restartKey r ≤ target) (restartCount keys.length) at_ := by
  refine exists_splitsAt fun i j hij hj hle => ?_
  have hmul := Nat.mul_le_mul_right restartInterval hij
  have hjlt := lt_restartCount_iff.mp hj
  refine decide_eq_true (le_trans ?_ (of_decide_eq_true hle))
  rw [hkey (hmul.trans_lt hjlt), hkey hjlt]
  exact getElem_le_getElem hs hmul hjlt

/-- Where restart number `r` stands. -/
def restartOffset (items : List Item) (r : Nat) : Nat :=
  (encodeItems 0 [] (items.take (r * restartInterval))).length

def restartOffsets (items : List Item) : List Nat :=
  (range (restartCount items.length)).map (restartOffset items)

@[simp] theorem length_restartOffsets (items : List Item) :
    (restartOffsets items).length = restartCount items.length := by
  simp [restartOffsets]

/-- A new item at a restart adds an offset: the length of the stream. -/
theorem restartOffsets_append_singleton (items : List Item) (item : Item) :
    restartOffsets (items ++ [item]) = restartOffsets items ++
      if items.length % restartInterval = 0 then [(encodeItems 0 [] items).length] else [] := by
  have hold : ∀ r < restartCount items.length, restartOffset (items ++ [item]) r = restartOffset items r := by
    intro r hr
    rw [restartOffset, restartOffset, take_append_of_le_length (lt_restartCount_iff.mp hr).le]
  have hmap : (range (restartCount items.length)).map (restartOffset (items ++ [item])) =
      restartOffsets items :=
    map_congr_left fun r hr => hold r (mem_range.mp hr)
  rw [restartOffsets, length_append, length_singleton]
  split
  case isTrue h =>
    have hcount : restartCount (items.length + 1) = restartCount items.length + 1 ∧
        restartCount items.length * restartInterval = items.length := by
      simp only [restartCount, restartInterval] at h ⊢
      omega
    rw [hcount.1, range_succ, map_append, hmap, map_singleton, restartOffset, hcount.2,
      take_left]
  case isFalse h =>
    have hcount : restartCount (items.length + 1) = restartCount items.length := by
      simp only [restartCount, restartInterval] at h ⊢
      omega
    rw [hcount, hmap, append_nil]

/-- What stands at a restart is the stream of the items from there on. -/
theorem drop_restart (h : r * restartInterval ≤ items.length) :
    (encodeItems 0 [] items).drop (restartOffset items r) =
      encodeItems (r * restartInterval) [] (items.drop (r * restartInterval)) := by
  have hsplit : encodeItems 0 [] items = encodeItems 0 [] (items.take (r * restartInterval)) ++
      encodeItems (r * restartInterval) [] (items.drop (r * restartInterval)) := by
    have := encodeItems_append 0 [] (items.take (r * restartInterval)) (items.drop (r * restartInterval))
    rw [take_append_drop, length_take_of_le h, Nat.zero_add] at this
    rw [this, encodeItems_of_restart (Nat.mul_mod_left ..) (lastKey ..) []]
  rw [hsplit, restartOffset, drop_left]

theorem restartOffset_lt (h : r < restartCount items.length) :
    restartOffset items r < (encodeItems 0 [] items).length := by
  have hlt := lt_restartCount_iff.mp h
  have hlen : (items.drop (r * restartInterval)).length = items.length - r * restartInterval :=
    length_drop ..
  have hbytes := length_le_length_encodeItems (r * restartInterval) [] (items.drop (r * restartInterval))
  rw [← drop_restart hlt.le, hlen, length_drop] at hbytes
  omega

end Summa
