import Summa.Lib.Fold
import Summa.Lib.LittleEndian
import Summa.Query.DocBitset

/-!
# Bloom filters (`structures/sstable.rs`)

`BloomFilter` is the mutable filter of the primary-key index: `numHashes` positions for each key by
double hashing. A key that was inserted is found (`mayContain_insert_self`), and an insertion loses
no key (`mayContain_insert`); nothing else is needed of a filter that may give false positives.
-/

namespace Summa

open List

/-- `BLOOM_HASH_COUNT`. -/
def bloomHashCount : Nat := 7

/-- `bloom_hash_pair`. -/
def bloomHashPair (key : List Byte) : UInt64 × UInt64 :=
  key.foldl
    (fun h byte =>
      let byte := byte.toNat.toUInt64
      ((h.1 ^^^ byte) * 0x100000001b3, (h.2 * 0x100000001b3) ^^^ byte))
    (0xcbf29ce484222325, 0x84222325cbf29ce4)

/-- `as_bytes` of a primary key. -/
def utf8Bytes (key : String) : List Byte := key.toUTF8.toList.map (·.toBitVec)

/-- The words are the `Vec<u64>` of the source. A filter has a word for every bit. -/
structure BloomFilter where
  words : DocBitset
  numBits : Nat
  numHashes : Nat
  pos : 0 < numBits
  fits : numBits ≤ 64 * words.bits.length

theorem DocBitset.le_length_new (n : Nat) : n ≤ 64 * (DocBitset.new n).bits.length := by
  simp only [DocBitset.new, divCeil64, length_replicate]
  omega

namespace BloomFilter

variable {key key' : String}

def new (expectedKeys bitsPerKey : Nat) : BloomFilter where
  words := .new (max (expectedKeys * bitsPerKey) 64)
  numBits := max (expectedKeys * bitsPerKey) 64
  numHashes := bloomHashCount
  pos := by omega
  fits := DocBitset.le_length_new _

section

variable (self : BloomFilter)

variable (h : UInt64 × UInt64)

/-- The bit of hash number `i`. -/
def getBitPos (i : Nat) : Nat :=
  (h.1 + i.toUInt64 * h.2).toNat % self.numBits

/-- The bits of a hash pair. -/
def hashPositions : List Nat :=
  (range self.numHashes).map (self.getBitPos h)

theorem length_set (b : DocBitset) (d : Nat) : (b.set d).bits.length = b.bits.length :=
  length_modify ..

theorem length_foldl_set (ps : List Nat) (b : DocBitset) :
    (ps.foldl DocBitset.set b).bits.length = b.bits.length :=
  foldl_keep (·.bits.length) (fun p _ b => length_set b p) b

/-- Insert a pre-computed hash pair into the filter. -/
def insertHashed : BloomFilter :=
  { self with
    words := (self.hashPositions h).foldl DocBitset.set self.words
    fits := by rw [length_foldl_set]; exact self.fits }

/-- The check of `may_contain` on the hash pair of a key. -/
def mayContainHashed : Bool :=
  (self.hashPositions h).all self.words.contains

def insert (key : String) : BloomFilter := self.insertHashed (bloomHashPair (utf8Bytes key))

/-- False if the key is definitely not present. -/
def mayContain (key : String) : Bool := self.mayContainHashed (bloomHashPair (utf8Bytes key))

end

theorem contains_foldl_set {ps : List Nat} {b : DocBitset} (hps : ∀ p ∈ ps, p / 64 < b.bits.length)
    (d : Nat) : (ps.foldl DocBitset.set b).contains d = (b.contains d || decide (d ∈ ps)) := by
  induction ps generalizing b with
  | nil => simp
  | cons p ps ih =>
    rw [foldl_cons, ih fun q hq => by rw [length_set]; exact hps q (mem_cons_of_mem _ hq),
      DocBitset.contains_set _ _ _ (hps p mem_cons_self)]
    simp [Bool.or_assoc]

section Hashed

variable {h h' : UInt64 × UInt64}

section

variable (self : BloomFilter)

include self

theorem hashPositions_lt {p : Nat} (hp : p ∈ self.hashPositions h) : p / 64 < self.words.bits.length := by
  obtain ⟨i, -, rfl⟩ := mem_map.mp hp
  have hlt : self.getBitPos h i < self.numBits := Nat.mod_lt _ self.pos
  have hfits := self.fits
  omega

theorem contains_insertHashed (d : Nat) :
    (self.insertHashed h).words.contains d = (self.words.contains d || decide (d ∈ self.hashPositions h)) :=
  contains_foldl_set (fun _ => self.hashPositions_lt) d

theorem mayContainHashed_insertHashed_self : (self.insertHashed h).mayContainHashed h = true := by
  refine all_eq_true.mpr fun p hp => ?_
  rw [contains_insertHashed]
  have hp' : p ∈ self.hashPositions h := hp
  simp [hp']

/-- No hash pair is lost. -/
theorem mayContainHashed_insertHashed (hc : self.mayContainHashed h' = true) :
    (self.insertHashed h).mayContainHashed h' = true := by
  refine all_eq_true.mpr fun p hp => ?_
  rw [contains_insertHashed, all_eq_true.mp hc p hp, Bool.true_or]

theorem contains_foldl_insertHashed {hs : List (UInt64 × UInt64)} {d : Nat} :
    (hs.foldl insertHashed self).words.contains d = true ↔
      self.words.contains d = true ∨ ∃ h ∈ hs, d ∈ self.hashPositions h := by
  induction hs generalizing self with
  | nil => simp
  | cons k hs ih =>
    simp only [foldl_cons, ih, contains_insertHashed, Bool.or_eq_true, decide_eq_true_eq, or_assoc,
      mem_cons, exists_eq_or_imp]
    rfl

/-- A hash pair of an inserted list is found, and none is lost. -/
theorem mayContainHashed_foldl_insertHashed {hs : List (UInt64 × UInt64)}
    (hc : h ∈ hs ∨ self.mayContainHashed h = true) :
    (hs.foldl insertHashed self).mayContainHashed h = true := by
  refine all_eq_true.mpr fun p hp => ?_
  have hpositions : (hs.foldl insertHashed self).hashPositions h = self.hashPositions h :=
    foldl_keep (·.hashPositions h) (by exact fun _ _ _ => rfl) self
  rw [hpositions] at hp
  rw [contains_foldl_insertHashed]
  exact hc.symm.imp (fun hc => all_eq_true.mp hc p hp) fun hc => ⟨h, hc, hp⟩

end

end Hashed

@[simp] theorem mayContain_insert_self (self : BloomFilter) : (self.insert key).mayContain key = true :=
  mayContainHashed_insertHashed_self self

/-- No key is lost. -/
theorem mayContain_insert (self : BloomFilter) (h : self.mayContain key' = true) :
    (self.insert key).mayContain key' = true :=
  mayContainHashed_insertHashed self h

/-- A key of an inserted list is found, and no key is lost. -/
theorem mayContain_foldl_insert (self : BloomFilter) {keys : List String}
    (h : key ∈ keys ∨ self.mayContain key = true) : (keys.foldl insert self).mayContain key = true := by
  have hfold : (keys.map fun key => bloomHashPair (utf8Bytes key)).foldl insertHashed self = keys.foldl insert self :=
    foldl_map
  rw [← hfold]
  exact mayContainHashed_foldl_insertHashed self (h.imp_left mem_map_of_mem)

end BloomFilter

end Summa
