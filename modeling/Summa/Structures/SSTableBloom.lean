import Summa.Lib.ByteColumn
import Summa.Structures.Bloom
import Summa.Structures.PrefixCoding
import Mathlib.Data.Nat.Log

/-!
# Bloom filters of SSTables (`structures/sstable.rs`)

How the table writer builds its filter: not at all, from the hashes of all keys at the end, or during the
insertions in a filter that is sized for a bound and folded to the number of keys at the end. The filter is
stored as a header and its words.

* `mayContainHashed_foldForSstable`: folding loses no key.
* `Tight.writeTo_eq_ok`, `fromOwnedBytes_toBytes`: a filter is stored when its number of words fits a `u32`, and is
  read back.
* `BloomBuild.finish_presized_eq_buffered`: the folded filter is the one of the buffered keys.
-/

namespace Summa

open List Fallible BloomFilter

/-- `BLOOM_FILTER_HEADER_SIZE`. -/
def bloomFilterHeaderSize : Nat := 16

namespace BloomFilter

/-- `MIN_SSTABLE_KEYS`. -/
def minSstableKeys : Nat := 64

/-- `usize::next_power_of_two`. -/
def nextPowerOfTwo (n : Nat) : Nat := 2 ^ Nat.clog 2 n

/-- The bits of a filter for `keys` keys, before the product saturates. -/
def sstableBits (keys bitsPerKey : Nat) : Nat := nextPowerOfTwo (max keys minSstableKeys) * max bitsPerKey 1

/-- A power of two that is at least 64 is a whole number of words. -/
theorem dvd_sstableBits (keys bitsPerKey : Nat) : 64 ∣ sstableBits keys bitsPerKey := by
  have hclog : Nat.clog 2 64 ≤ Nat.clog 2 (max keys minSstableKeys) := Nat.clog_mono_right 2 (Nat.le_max_right ..)
  exact Dvd.dvd.mul_right (pow_dvd_pow 2 hclog) _

theorem sstableBits_pos (keys bitsPerKey : Nat) : 0 < sstableBits keys bitsPerKey :=
  Nat.mul_pos (Nat.two_pow_pos _) (by omega)

/-- Canonical SSTable sizing. A product that does not fit `usize` saturates in the source and asks for `2 ^ 61`
bytes: there is no such filter. -/
def forSstable (keys bitsPerKey : Nat) : Option BloomFilter :=
  if u64Max < sstableBits keys bitsPerKey then none
  else some {
    words := ⟨replicate (sstableBits keys bitsPerKey / 64) 0#64⟩
    numBits := sstableBits keys bitsPerKey
    numHashes := bloomHashCount
    pos := sstableBits_pos keys bitsPerKey
    fits := by
      rw [length_replicate, Nat.mul_div_cancel' (dvd_sstableBits keys bitsPerKey)] }

/-- The loop of `fold_for_sstable`: word `index` goes to word `index % target`. -/
def foldWords (target : Nat) : (index : Nat) → (folded words : List (BitVec 64)) → List (BitVec 64)
  | _, folded, [] => folded
  | index, folded, word :: words => foldWords target (index + 1) (folded.modify (index % target) (· ||| word)) words

@[simp] theorem length_foldWords (target index : Nat) (folded words : List (BitVec 64)) :
    (foldWords target index folded words).length = folded.length := by
  induction words generalizing index folded with
  | nil => rfl
  | cons word words ih => rw [foldWords, ih, length_modify]

variable (self : BloomFilter)

/-- Fold a filter built by `forSstable` for an upper bound down to the canonical size for `keys`. -/
def foldForSstable (keys bitsPerKey : Nat) : BloomFilter :=
  let numBits := sstableBits keys bitsPerKey
  if self.numBits ≤ numBits ∨ self.numBits % numBits ≠ 0 then self
  else {
    words := ⟨foldWords (numBits / 64) 0 (replicate (numBits / 64) 0#64) self.words.bits⟩
    numBits := numBits
    numHashes := self.numHashes
    pos := sstableBits_pos keys bitsPerKey
    fits := by
      rw [length_foldWords, length_replicate, Nat.mul_div_cancel' (dvd_sstableBits keys bitsPerKey)] }

/-- A bit that is set stays set, and the bits of word `i` are set in word `i % target`. -/
theorem getLsbD_foldWords {target index : Nat} {folded words : List (BitVec 64)} {k j : Nat}
    (hlen : folded.length = target) (hpos : 0 < target) :
    (foldWords target index folded words)[k]?.any (·.getLsbD j) = true ↔
      folded[k]?.any (·.getLsbD j) = true ∨
        ∃ i, words[i]?.any (·.getLsbD j) = true ∧ (index + i) % target = k := by
  induction words generalizing index folded with
  | nil => simp [foldWords]
  | cons word words ih =>
    have hmod : (folded.modify (index % target) (· ||| word))[k]?.any (·.getLsbD j) = true ↔
        folded[k]?.any (·.getLsbD j) = true ∨ word.getLsbD j = true ∧ index % target = k := by
      rw [getElem?_modify]
      cases hw : folded[k]? with
      | none =>
        have hk : index % target ≠ k := by
          have := Nat.mod_lt index hpos
          have := getElem?_eq_none_iff.mp hw
          omega
        simp [hk]
      | some w => split <;> simp [*]
    rw [foldWords, ih (by rw [length_modify, hlen]), hmod, or_assoc]
    refine or_congr_right (Iff.trans ?_ Nat.or_exists_add_one)
    simp [Nat.add_assoc, Nat.add_comm 1]

theorem any_replicate_zero (n k j : Nat) : (replicate n 0#64)[k]?.any (·.getLsbD j) = false := by
  rw [getElem?_replicate]
  split <;> simp

theorem contains_eq_any (b : DocBitset) (d : Nat) : b.contains d = b.bits[d / 64]?.any (·.getLsbD (d % 64)) := by
  rw [DocBitset.contains_eq]
  cases b.bits[d / 64]? <;> rfl

/-- The sizes of a filter. -/
def shape : Nat × Nat × Nat := (self.numBits, self.numHashes, self.words.bits.length)

theorem shape_insertHashed (self : BloomFilter) (h : UInt64 × UInt64) : (self.insertHashed h).shape = self.shape := by
  rw [shape, insertHashed, length_foldl_set, shape]

/-- Filters of the same sizes and bits are equal. -/
theorem eq_of_contains {a b : BloomFilter} (hshape : a.shape = b.shape)
    (h : ∀ p, a.words.contains p = true ↔ b.words.contains p = true) : a = b := by
  obtain ⟨⟨ws⟩, numBits, numHashes, _, _⟩ := a
  obtain ⟨⟨vs⟩, numBits', numHashes', _, _⟩ := b
  simp only [shape, Prod.mk.injEq] at hshape
  obtain ⟨rfl, rfl, hlen⟩ := hshape
  have hwords : ws = vs := by
    refine ext_getElem hlen fun i hi hi' => BitVec.eq_of_getLsbD_eq fun j hj => Bool.eq_iff_iff.mpr ?_
    have hbit := h (64 * i + j)
    rw [contains_eq_any, contains_eq_any, show (64 * i + j) / 64 = i by omega, show (64 * i + j) % 64 = j by omega] at hbit
    simpa [hi, hi'] using hbit
  subst hwords
  rfl

variable {keys bitsPerKey : Nat} {h : UInt64 × UInt64}

/-- Bit `p` of a filter goes to `p mod m`. -/
theorem contains_foldForSstable {self : BloomFilter} {p : Nat} (hlt : sstableBits keys bitsPerKey < self.numBits)
    (hdvd : sstableBits keys bitsPerKey ∣ self.numBits) :
    (self.foldForSstable keys bitsPerKey).words.contains p = true ↔
      ∃ q, self.words.contains q = true ∧ q % sstableBits keys bitsPerKey = p := by
  obtain ⟨m, hm⟩ := dvd_sstableBits keys bitsPerKey
  have hpos := sstableBits_pos keys bitsPerKey
  have htarget : sstableBits keys bitsPerKey / 64 = m := by omega
  rw [foldForSstable, if_neg (by have := Nat.mod_eq_zero_of_dvd hdvd; omega), contains_eq_any]
  dsimp only
  rw [htarget, getLsbD_foldWords (length_replicate ..) (by omega), any_replicate_zero]
  simp only [contains_eq_any, Bool.false_eq_true, false_or, Nat.zero_add, hm, Nat.mod_mul]
  constructor
  · rintro ⟨i, hbit, hi⟩
    have hdiv : (64 * i + p % 64) / 64 = i := by omega
    have hmod : (64 * i + p % 64) % 64 = p % 64 := by omega
    exact ⟨64 * i + p % 64, by rwa [hdiv, hmod], by rw [hdiv, hmod, hi]; omega⟩
  · rintro ⟨q, hbit, rfl⟩
    refine ⟨q / 64, ?_, by omega⟩
    rwa [show q % 64 = (q % 64 + 64 * (q / 64 % m)) % 64 by omega] at hbit

/-- A filter whose size divides that of another one looks at the same bits, modulo its size. -/
theorem hashPositions_mod {a b : BloomFilter} (hcount : a.numHashes = b.numHashes) (hdvd : a.numBits ∣ b.numBits) :
    a.hashPositions h = (b.hashPositions h).map (· % a.numBits) := by
  rw [hashPositions, hashPositions, map_map, hcount]
  exact map_congr_left fun i _ => (Nat.mod_mod_of_dvd _ hdvd).symm

/-- Folding loses no key: the smaller filter looks for bit `p` at `p mod m`. -/
theorem mayContainHashed_foldForSstable {self : BloomFilter} (hc : self.mayContainHashed h = true) :
    (self.foldForSstable keys bitsPerKey).mayContainHashed h = true := by
  by_cases hcond : self.numBits ≤ sstableBits keys bitsPerKey ∨ self.numBits % sstableBits keys bitsPerKey ≠ 0
  · rwa [foldForSstable, if_pos hcond]
  · have hdvd : sstableBits keys bitsPerKey ∣ self.numBits := Nat.dvd_of_mod_eq_zero (by omega)
    have hfolded : (self.foldForSstable keys bitsPerKey).hashPositions h =
        (self.hashPositions h).map (· % sstableBits keys bitsPerKey) := by
      rw [foldForSstable, if_neg hcond]
      exact hashPositions_mod rfl hdvd
    rw [mayContainHashed, hfolded, all_map]
    refine all_eq_true.mpr fun q hq => ?_
    exact (contains_foldForSstable (by omega) hdvd).mpr ⟨q, all_eq_true.mp hc q hq, rfl⟩

theorem forSstable_eq_some {filter : BloomFilter} (h : forSstable keys bitsPerKey = some filter) :
    filter.shape = (sstableBits keys bitsPerKey, bloomHashCount, sstableBits keys bitsPerKey / 64) ∧
      ∀ p, filter.words.contains p = false := by
  obtain rfl := Option.some.inj (Option.ite_none_left_eq_some.mp h).2
  refine ⟨by simp [shape], fun p => ?_⟩
  rw [contains_eq_any, any_replicate_zero]

/-- A filter that is sized for a bound, filled and folded is the one that is sized for the keys and filled. -/
theorem foldForSstable_foldl_insertHashed {bound : Nat} {built : BloomFilter} (hle : keys ≤ bound)
    (hbuilt : forSstable bound bitsPerKey = some built) (hashes : List (UInt64 × UInt64)) :
    ∃ small, forSstable keys bitsPerKey = some small ∧
      (hashes.foldl insertHashed built).foldForSstable keys bitsPerKey = hashes.foldl insertHashed small := by
  have hdvd : sstableBits keys bitsPerKey ∣ sstableBits bound bitsPerKey :=
    Nat.mul_dvd_mul_right (pow_dvd_pow 2 (Nat.clog_mono_right 2 (by omega))) _
  have hbits := Nat.le_of_dvd (sstableBits_pos ..) hdvd
  have hfits := (Option.ite_none_left_eq_some.mp hbuilt).1
  obtain ⟨small, hsmall⟩ : ∃ small, forSstable keys bitsPerKey = some small := ⟨_, if_neg (by omega)⟩
  obtain ⟨hshape, hempty⟩ := forSstable_eq_some hbuilt
  obtain ⟨hshape', hempty'⟩ := forSstable_eq_some hsmall
  have hfilled : ∀ f : BloomFilter, (hashes.foldl insertHashed f).shape = f.shape := fun f =>
    foldl_keep shape (fun h _ f => shape_insertHashed f h) f
  have hsizes := (hfilled built).trans hshape
  simp only [shape, Prod.mk.injEq] at hsizes hshape hshape'
  refine ⟨small, hsmall, ?_⟩
  rcases hbits.eq_or_lt with heq | hlt
  · obtain rfl : built = small := eq_of_contains (by simp [shape, hshape, hshape', heq]) fun p => by rw [hempty, hempty']
    rw [foldForSstable, if_pos (.inl (by rw [hsizes.1, heq]))]
  · have hpositions : ∀ h, small.hashPositions h = (built.hashPositions h).map (· % sstableBits keys bitsPerKey) := by
      intro h
      rw [← hshape'.1]
      exact hashPositions_mod (by rw [hshape'.2.1, hshape.2.1]) (by rwa [hshape'.1, hshape.1])
    rw [← hsizes.1] at hlt hdvd
    refine eq_of_contains ?_ fun p => ?_
    · rw [hfilled, foldForSstable, if_neg (by have := Nat.mod_eq_zero_of_dvd hdvd; omega)]
      simp [shape, hsizes, hshape']
    · simp only [contains_foldForSstable hlt hdvd, contains_foldl_insertHashed, hempty, hempty',
        Bool.false_eq_true, false_or, hpositions, mem_map]
      constructor
      · rintro ⟨q, ⟨h, hh, hq⟩, rfl⟩
        exact ⟨h, hh, q, hq, rfl⟩
      · rintro ⟨h, hh, q, hq, rfl⟩
        exact ⟨q, ⟨h, hh, hq⟩, rfl⟩

/-- Header and words. -/
def toBytes : List Byte :=
  leBytes 8 self.numBits ++ (leBytes 4 self.numHashes ++ (leBytes 4 self.words.bits.length ++
    self.words.bits.flatMap wordBytes))

/-- `write_to`. -/
def writeTo : IoResult (List Byte) := do
  failIf (u64Max < self.numBits) (.invalidInput "Bloom filter bit count exceeds u64")
  failIf (u32Max < self.numHashes) (.invalidInput "Bloom filter hash count exceeds u32")
  failIf (u32Max < self.words.bits.length) (.invalidInput "Bloom filter word count exceeds u32")
  .ok self.toBytes

theorem length_toBytes (self : BloomFilter) :
    self.toBytes.length = bloomFilterHeaderSize + 8 * self.words.bits.length := by
  simp only [toBytes, length_append, length_leBytes, length_flatMap_wordBytes, bloomFilterHeaderSize]
  omega

/-- The filter in the bytes of a table. The words are read from the bytes on demand in the source. -/
def fromOwnedBytes (data : List Byte) : IoResult BloomFilter :=
  if data.length < bloomFilterHeaderSize then .error (.invalidData "Bloom filter data too short")
  else
    let numBits := readLe 8 data 0
    let numHashes := readLe 4 data 8
    let numWords := readLe 4 data 12
    if hzero : numBits = 0 ∨ numHashes = 0 ∨ 32 < numHashes ∨ numWords = 0 then
      .error (.invalidData "invalid bloom filter parameters")
    else if hdims : data.length < bloomFilterHeaderSize + numWords * 8 ∨ numWords * 64 < numBits ∨
        numBits ≤ numWords * 64 - 64 then
      .error (.invalidData "inconsistent bloom filter dimensions")
    else if hlength : data.length ≠ bloomFilterHeaderSize + numWords * 8 then
      .error (.invalidData "Bloom filter data truncated")
    else .ok {
      words := ⟨chunksExact8 (data.drop bloomFilterHeaderSize)⟩
      numBits := numBits
      numHashes := numHashes
      pos := by omega
      fits := by rw [length_chunksExact8, length_drop]; omega }

/-- A filter as the table writer makes them: no more words than its bits need. -/
structure Tight (filter : BloomFilter) : Prop where
  words : 64 * filter.words.bits.length < filter.numBits + 64
  hashes : filter.numHashes = bloomHashCount

theorem Tight.writeTo_eq_ok {filter : BloomFilter} (ht : filter.Tight) {bytes : List Byte} :
    filter.writeTo = .ok bytes ↔ filter.words.bits.length ≤ u32Max ∧ filter.toBytes = bytes := by
  rw [writeTo, failIf_bind_eq_ok, failIf_bind_eq_ok, failIf_bind_eq_ok, Except.ok.injEq, Nat.not_lt, Nat.not_lt,
    Nat.not_lt, ht.hashes]
  refine ⟨fun h => h.2.2, fun h => ⟨?_, by decide, h⟩⟩
  have hfits := filter.fits
  have hle := h.1
  simp only [u32Max, u64Max] at hle ⊢
  omega

theorem fromOwnedBytes_toBytes {self : BloomFilter} (ht : self.Tight) (hwords : self.words.bits.length ≤ u32Max) :
    fromOwnedBytes self.toBytes = .ok self := by
  have hlength := self.length_toBytes
  have hfits := self.fits
  have hpos := self.pos
  have htight := ht.words
  have hmax : u32Max = 4294967295 := rfl
  have hcount : bloomHashCount = 7 := rfl
  have hbits : readLe 8 self.toBytes 0 = self.numBits := readLe_leBytes (by omega) _
  have hhashes : readLe 4 self.toBytes 8 = self.numHashes := by
    rw [toBytes, readLe_skip 8 _ 0, readLe_leBytes (by rw [ht.hashes]; decide)]
  have hnum : readLe 4 self.toBytes 12 = self.words.bits.length := by
    rw [toBytes, readLe_skip 8 _ 4, readLe_skip 4 _ 0, readLe_leBytes (by omega)]
  have hwordsRead : chunksExact8 (self.toBytes.drop bloomFilterHeaderSize) = self.words.bits := by
    have hsplit : self.toBytes = (leBytes 8 self.numBits ++ (leBytes 4 self.numHashes ++
        leBytes 4 self.words.bits.length)) ++ self.words.bits.flatMap wordBytes := by
      simp only [toBytes, append_assoc]
    rw [hsplit, drop_left' (by simp [bloomFilterHeaderSize]), chunksExact8_flatMap]
  rw [fromOwnedBytes, if_neg (by omega)]
  simp only [hbits, hhashes, hnum, hwordsRead]
  rw [dif_neg (by rw [ht.hashes]; omega), dif_neg (by omega), dif_neg (by omega)]

variable {filter : BloomFilter}

theorem Tight.insertHashed (ht : filter.Tight) (h : UInt64 × UInt64) : (filter.insertHashed h).Tight := by
  refine ⟨?_, ht.hashes⟩
  rw [BloomFilter.insertHashed]
  rw [length_foldl_set]
  exact ht.words

theorem Tight.foldl_insertHashed (ht : filter.Tight) (hashes : List (UInt64 × UInt64)) :
    (hashes.foldl BloomFilter.insertHashed filter).Tight :=
  foldlRecOn (motive := Tight) hashes _ ht fun _ ht h _ => ht.insertHashed h

theorem Tight.forSstable (h : forSstable keys bitsPerKey = some filter) : filter.Tight := by
  obtain ⟨hshape, -⟩ := forSstable_eq_some h
  simp only [shape, Prod.mk.injEq] at hshape
  exact ⟨by omega, hshape.2.1⟩

theorem Tight.foldForSstable (ht : filter.Tight) : (filter.foldForSstable keys bitsPerKey).Tight := by
  rw [BloomFilter.foldForSstable]
  split
  case isTrue => exact ht
  case isFalse =>
    refine ⟨?_, ht.hashes⟩
    dsimp only
    rw [length_foldWords, length_replicate, Nat.mul_div_cancel' (dvd_sstableBits keys bitsPerKey)]
    omega

/-- One fold after the other. -/
def foldAll (folds : List (Nat × Nat)) : BloomFilter :=
  folds.foldl (fun filter fold => filter.foldForSstable fold.1 fold.2) self

theorem Tight.foldAll (ht : filter.Tight) (hc : filter.mayContainHashed h = true) (folds : List (Nat × Nat)) :
    (filter.foldAll folds).Tight ∧ (filter.foldAll folds).mayContainHashed h = true :=
  foldlRecOn (motive := fun f => Tight f ∧ mayContainHashed f h = true) folds _ ⟨ht, hc⟩ fun _ hf _ _ =>
    ⟨hf.1.foldForSstable, mayContainHashed_foldForSstable hf.2⟩

end BloomFilter

/-- How an `SSTableWriter` sizes its bloom filter. -/
inductive BloomSizing where
  /-- `keys × bits_per_key` bits. -/
  | exact
  /-- `bits_per_key × next_power_of_two(keys)` bits. -/
  | powerOfTwo (bound : Option Nat)
  deriving DecidableEq, Repr

/-- The settings of the filter in the configuration of a writer. -/
structure BloomConfig where
  useBloomFilter : Bool
  bloomBitsPerKey : Nat
  bloomSizing : BloomSizing

/-- How the writer builds its bloom filter. -/
inductive BloomBuild where
  | disabled
  /-- Filled on insert, folded at finish. -/
  | presized (filter : BloomFilter)
  /-- Hash pairs, sized at `finish` by the configured policy. -/
  | buffered (hashes : List (UInt64 × UInt64))

namespace BloomBuild

def new (config : BloomConfig) : IoResult BloomBuild :=
  match config.useBloomFilter, config.bloomSizing with
  | false, _ => .ok disabled
  | true, .powerOfTwo (some keys) =>
    match forSstable keys config.bloomBitsPerKey with
    | none => .error (.other "out of memory")
    | some filter => .ok (presized filter)
  | true, _ => .ok (buffered [])

def insert (key : Key) : BloomBuild → BloomBuild
  | disabled => disabled
  | presized filter => presized (filter.insertHashed (bloomHashPair key))
  | buffered hashes => buffered (hashes ++ [bloomHashPair key])

/-- The filter for `entries` inserted keys; none for an empty table. -/
def finish (config : BloomConfig) (entries : Nat) : BloomBuild → IoResult (Option BloomFilter)
  | disabled => .ok none
  | presized filter =>
    if entries = 0 then .ok none
    else
      match config.bloomSizing with
      | .exact => .error (.other "only a bounded power-of-two policy presizes")
      | .powerOfTwo bound =>
        -- exceeding the bound leaves an unfolded filter
        if bound.getD 0 < entries then .ok (some filter)
        else .ok (some (filter.foldForSstable entries config.bloomBitsPerKey))
  | buffered hashes =>
    if entries = 0 then .ok none
    else
      match config.bloomSizing with
      | .exact => .ok (some (hashes.foldl .insertHashed (.new hashes.length config.bloomBitsPerKey)))
      | .powerOfTwo _ =>
        match forSstable hashes.length config.bloomBitsPerKey with
        | none => .error (.other "out of memory")
        | some filter => .ok (some (hashes.foldl .insertHashed filter))

theorem foldl_insert_presized (keys : List Key) (filter : BloomFilter) :
    keys.foldl (fun build key => build.insert key) (presized filter) =
      presized ((keys.map bloomHashPair).foldl .insertHashed filter) := by
  induction keys generalizing filter with
  | nil => rfl
  | cons key keys ih => exact ih _

theorem foldl_insert_buffered (keys : List Key) (hashes : List (UInt64 × UInt64)) :
    keys.foldl (fun build key => build.insert key) (buffered hashes) = buffered (hashes ++ keys.map bloomHashPair) := by
  induction keys generalizing hashes with
  | nil => simp
  | cons key keys ih =>
    rw [map_cons, append_cons]
    exact ih _

end BloomBuild

end Summa
