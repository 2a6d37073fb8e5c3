import Mathlib.Tactic.SplitIfs
import Summa.Structures.SSTableBlock
import Summa.Structures.VintReaders

/-!
# Dictionary values (`structures/sstable.rs`)

The value of a term in the dictionary: up to three postings inline, as pairs of a document difference and a
frequency in an array of sixteen bytes, or where the posting list and the positions stand in their files. Two
parsers read the layouts: `deserialize`, and `skip` for the entries that a scan passes over.

* `verdict_skip`: both accept the same bytes, consume as many of them and fail with the same kind of error.
* `deserialize_serialize`: what comes back of a value that was written.
* `decodeInline_tryInline`, `decodeInline_tryInlineIter`: postings that were put inline are read back.
* `codec_laws`: these laws, with the two constructors of inline values.
-/

namespace Summa

/-- `MAX_INLINE_POSTINGS`. -/
def maxInlinePostings : Nat := 3

/-- The size of the `data` array of an inline value. -/
def inlineDataSize : Nat := 16

abbrev InlineArray := Vector Byte inlineDataSize

/-- An array that starts with `bytes` and is zero behind them. -/
def padded (bytes : List Byte) : InlineArray := Vector.ofFn fun i => bytes.getD i 0

theorem length_inlineArray (data : InlineArray) : data.toList.length = inlineDataSize := Vector.length_toList

open List Fallible

inductive TermInfo where
  /-- `dataLen` is the actual length of data used. -/
  | inline (docFreq : Byte) (data : InlineArray) (dataLen : Byte)
  /-- Offset and length of the positions are 0 if there are none. -/
  | external (postingOffset postingLen : BitVec 64) (docFreq : BitVec 32) (positionOffset positionLen : BitVec 64)
  deriving DecidableEq, Repr

/-- A reader of a slice, which has a place after an error too. -/
abbrev SliceReader := ExceptT IoError (StateM (List Byte))

def readU8 : SliceReader Byte
  | [] => (.error (.unexpectedEof "failed to fill whole buffer"), [])
  | byte :: rest => (.ok byte, rest)

/-- `read_exact` of a slice, which is left empty when it is too short. -/
def readExact (len : Nat) : SliceReader (List Byte) := fun bytes =>
  if bytes.length < len then (.error (.unexpectedEof "failed to fill whole buffer"), [])
  else (.ok (bytes.take len), bytes.drop len)

def skipVints : Nat → SliceReader Unit
  | 0 => pure ()
  | n + 1 => do
    skipVint
    skipVints n

namespace TermInfo

/-- `data[..data_len]`. -/
def used (data : InlineArray) (dataLen : Byte) : List Byte := data.toList.take dataLen.toNat

abbrev InvalidInline (docFreq dataLen : Byte) : Prop :=
  docFreq = 0 ∨ maxInlinePostings < docFreq.toNat ∨ inlineDataSize < dataLen.toNat

/-! ## Inline postings -/

/-- The loop of `try_inline` and `try_inline_iter`: the written bytes, unless they outgrow the array. -/
def inlineData (prevDocId : BitVec 32) (written : List Byte) : List (BitVec 32 × BitVec 32) → Option (List Byte)
  | [] => some written
  | (docId, tf) :: postings =>
    -- `doc_id.checked_sub(prev_doc_id)?`
    if docId.toNat < prevDocId.toNat then none
    else
      let written := written ++ writeVint (docId.toNat - prevDocId.toNat)
      if inlineDataSize < written.length then none
      else
        let written := written ++ writeVint tf.toNat
        if inlineDataSize < written.length then none
        else inlineData docId written postings

/-- The inline value of `count` postings in `data`. -/
def ofData (count : Nat) (data : List Byte) : TermInfo :=
  .inline (.ofNat 8 count) (padded data) (.ofNat 8 data.length)

/-- Try to create an inline value; none if the posting list is too large to inline. -/
def tryInline (docIds termFreqs : List (BitVec 32)) : Option TermInfo :=
  if maxInlinePostings < docIds.length ∨ docIds = [] ∨ docIds.length ≠ termFreqs.length then none
  else
    (inlineData 0 [] (docIds.zip termFreqs)).bind fun data =>
      if inlineDataSize < data.length then none else some (ofData docIds.length data)

/-- Try to create an inline value from an iterator; `count` must match its length. -/
def tryInlineIter (count : Nat) (iter : List (BitVec 32 × BitVec 32)) : Option TermInfo :=
  if maxInlinePostings < count ∨ count = 0 then none
  -- a surplus posting ends the loop, a missing one is found behind it
  else if iter.length ≠ count then none
  else (inlineData 0 [] iter).map (ofData count)

/-- The loop of `decode_inline_fixed`. -/
def readInline : (len : Nat) → (prevDocId : BitVec 32) → List Byte → Option (List (BitVec 32 × BitVec 32))
  | 0, _, _ => some []
  | len + 1, prevDocId, reader =>
    match readVint reader with
    | none => none
    | some (delta, reader) =>
      if 2 ^ 32 ≤ delta then none
      else
        match readVint reader with
        | none => none
        | some (tf, reader) =>
          if 2 ^ 32 ≤ tf ∨ 2 ^ 32 ≤ prevDocId.toNat + delta then none
          else
            let docId := BitVec.ofNat 32 (prevDocId.toNat + delta)
            (readInline len docId reader).map ((docId, BitVec.ofNat 32 tf) :: ·)

/-- Decode inline postings into document ids and term frequencies; none for an external reference. -/
def decodeInline : TermInfo → Option (List (BitVec 32) × List (BitVec 32))
  | inline docFreq data dataLen =>
    if InvalidInline docFreq dataLen then none else (readInline docFreq.toNat 0 (used data dataLen)).map unzip
  | external .. => none

/-! ## The layouts -/

def serialize : TermInfo → IoResult (List Byte)
  | inline docFreq data dataLen =>
    if InvalidInline docFreq dataLen then .error (.invalidInput "invalid inline TermInfo")
    else .ok (0xFF :: docFreq :: dataLen :: used data dataLen)
  | external postingOffset postingLen docFreq positionOffset positionLen =>
    let posting := [docFreq.toNat, postingOffset.toNat, postingLen.toNat].flatMap writeVint
    .ok (if 0 < positionLen.toNat then
        0x01 :: (posting ++ [positionOffset.toNat, positionLen.toNat].flatMap writeVint)
      else 0x00 :: posting)

def truncatedTermInfo : IoError := .unexpectedEof "TermInfo truncated"

def invalidTermInfoTag (tag : Byte) : IoError := .invalidData ("Invalid TermInfo tag: " ++ toString tag.toNat)

/-- The part of `skip` behind the tag 0xFF. -/
def skipInline : SliceReader Unit
  | docFreq :: dataLen :: rest =>
    -- the slice is left at the tag
    if InvalidInline docFreq dataLen then
      (.error (.invalidData "invalid inline TermInfo lengths"), 0xFF :: docFreq :: dataLen :: rest)
    else if rest.length < dataLen.toNat then (.error truncatedTermInfo, [])
    else (.ok (), rest.drop dataLen.toNat)
  | _ => (.error truncatedTermInfo, [])

def skip : SliceReader Unit
  | [] => (.error truncatedTermInfo, [])
  | tag :: bytes =>
    if tag = 0xFF then skipInline bytes
    else if tag = 0x00 then skipVints 3 bytes
    else if tag = 0x01 then skipVints 5 bytes
    else (.error (invalidTermInfoTag tag), tag :: bytes)

def deserialize : SliceReader TermInfo := do
  let tag ← readU8
  if tag = 0xFF then
    let docFreq ← readU8
    let dataLen ← readU8
    if InvalidInline docFreq dataLen then throw (.invalidData "invalid inline TermInfo lengths")
    else
      let data ← readExact dataLen.toNat
      return .inline docFreq (padded data) dataLen
  else if tag = 0x00 then
    let docFreq ← readVintReader
    let postingOffset ← readVintReader
    let postingLen ← readVintReader
    return .external (.ofNat 64 postingOffset) (.ofNat 64 postingLen) (.ofNat 32 docFreq) 0 0
  else if tag = 0x01 then
    let docFreq ← readVintReader
    let postingOffset ← readVintReader
    let postingLen ← readVintReader
    let positionOffset ← readVintReader
    let positionLen ← readVintReader
    return .external (.ofNat 64 postingOffset) (.ofNat 64 postingLen) (.ofNat 32 docFreq)
      (.ofNat 64 positionOffset) (.ofNat 64 positionLen)
  else throw (invalidTermInfoTag tag)

/-- What a reader leaves of the slice, or the kind of its error. -/
def verdict {α : Type} (r : IoResult α × List Byte) : Except IoErrorKind (List Byte) :=
  match r.1 with
  | .ok _ => .ok r.2
  | .error e => .error e.kind

/-! ## The two parsers -/

section Readers

variable {α β γ δ : Type} {bytes rest : List Byte} {x : SliceReader α} {y : SliceReader β} {f : α → SliceReader γ}

theorem bind_ok {a : α} (h : x bytes = (.ok a, rest)) : (x >>= f) bytes = f a rest := by
  change ExceptT.bindCont f (x bytes).1 (x bytes).2 = _
  rw [h]
  rfl

theorem bind_error {e : IoError} (h : x bytes = (.error e, rest)) : (x >>= f) bytes = (.error e, rest) := by
  change ExceptT.bindCont f (x bytes).1 (x bytes).2 = _
  rw [h]
  rfl

theorem readU8_bind {f : Byte → SliceReader α} {byte : Byte} : (readU8 >>= f) (byte :: bytes) = f byte bytes := rfl

theorem vint_bind {f : Nat → SliceReader α} {n : Nat} (h : n < 2 ^ 64) (suffix : List Byte) :
    ((readVintReader : SliceReader Nat) >>= f) (writeVint n ++ suffix) = f n suffix :=
  bind_ok (readVintLoop_of_readGroups _ (readVint_writeVint h suffix))

/-- Two readers that stop at the same place, each followed by readers with one verdict. -/
theorem verdict_bind {g : β → SliceReader δ} (h : outcome (x bytes) = outcome (y bytes))
    (hrest : ∀ a b rest, verdict (f a rest) = verdict (g b rest)) :
    verdict ((x >>= f) bytes) = verdict ((y >>= g) bytes) := by
  rcases hx : x bytes with ⟨e | a, rest⟩ <;> rcases hy : y bytes with ⟨e' | b, rest'⟩ <;>
    simp [hx, hy, outcome] at h
  · rw [bind_error hx, bind_error hy]
    exact congrArg Except.error h.1
  · rw [bind_ok hx, bind_ok hy, h]
    exact hrest ..

end Readers

theorem verdict_skip (bytes : List Byte) : verdict (skip bytes) = verdict (deserialize bytes) := by
  have hvint : ∀ {γ δ} {f : Unit → SliceReader γ} {g : Nat → SliceReader δ} (bytes),
      (∀ a b rest, verdict (f a rest) = verdict (g b rest)) →
      verdict ((skipVint >>= f : SliceReader γ) bytes) = verdict ((readVintReader >>= g : SliceReader δ) bytes) :=
    fun bytes => verdict_bind (outcome_skipVint bytes)
  cases bytes with
  | nil => rfl
  | cons tag bytes =>
    rw [skip, deserialize, readU8_bind]
    split_ifs
    · rcases bytes with _ | ⟨docFreq, _ | ⟨dataLen, rest⟩⟩
      · rfl
      · rfl
      · rw [readU8_bind, readU8_bind, skipInline]
        split_ifs with hbad hshort
        · rfl
        · rw [bind_error (if_pos hshort)]
          rfl
        · rw [bind_ok (if_neg hshort)]
          rfl
    · exact hvint _ fun _ _ _ => hvint _ fun _ _ _ => hvint _ fun _ _ _ => rfl
    · exact hvint _ fun _ _ _ => hvint _ fun _ _ _ => hvint _ fun _ _ _ => hvint _ fun _ _ _ =>
        hvint _ fun _ _ _ => rfl
    · rfl

/-! ## Reading back -/

theorem take_padded {bytes : List Byte} (h : bytes.length ≤ inlineDataSize) :
    (padded bytes).toList.take bytes.length = bytes := by
  refine ext_getElem (by simpa using h) fun i hi hi' => ?_
  simp [padded, hi']

/-- What the layouts keep of a value: the used bytes of the array, and an offset of positions that have a length. -/
def stored : TermInfo → TermInfo
  | inline docFreq data dataLen => inline docFreq (padded (used data dataLen)) dataLen
  | external postingOffset postingLen docFreq positionOffset positionLen =>
    external postingOffset postingLen docFreq (if 0 < positionLen.toNat then positionOffset else 0) positionLen

variable {info : TermInfo} {bytes : List Byte}

theorem deserialize_serialize (h : info.serialize = .ok bytes) (suffix : List Byte) :
    deserialize (bytes ++ suffix) = (.ok info.stored, suffix) := by
  cases info with
  | inline docFreq data dataLen =>
    obtain ⟨hvalid, h⟩ := ite_eq_ok.mp h
    cases h
    have hlen : (used data dataLen).length = dataLen.toNat := by
      rw [used, length_take, length_inlineArray]
      exact Nat.min_eq_left (by omega)
    have hdata : readExact dataLen.toNat (used data dataLen ++ suffix) = (.ok (used data dataLen), suffix) := by
      rw [← hlen]
      simp [readExact]
    rw [cons_append, cons_append, cons_append, deserialize, readU8_bind, if_pos rfl, readU8_bind, readU8_bind,
      if_neg hvalid, bind_ok hdata]
    rfl
  | external postingOffset postingLen docFreq positionOffset positionLen =>
    have hfreq : docFreq.toNat < 2 ^ 64 := docFreq.isLt.trans (by decide)
    cases h
    rw [deserialize, stored]
    split
    case isTrue =>
      simp only [cons_append, flatMap_cons, flatMap_nil, append_assoc, nil_append]
      rw [readU8_bind, if_neg (by decide), if_neg (by decide), if_pos rfl, vint_bind hfreq,
        vint_bind postingOffset.isLt, vint_bind postingLen.isLt, vint_bind positionOffset.isLt,
        vint_bind positionLen.isLt]
      simp only [BitVec.ofNat_toNat, BitVec.setWidth_eq]
      rfl
    case isFalse hzero =>
      obtain rfl : positionLen = 0 := BitVec.eq_of_toNat_eq (Nat.eq_zero_of_not_pos hzero)
      simp only [cons_append, flatMap_cons, flatMap_nil, append_assoc, nil_append]
      rw [readU8_bind, if_neg (by decide), if_pos rfl, vint_bind hfreq, vint_bind postingOffset.isLt,
        vint_bind postingLen.isLt]
      simp only [BitVec.ofNat_toNat, BitVec.setWidth_eq]
      rfl

/-- The value of a dictionary. The writer of a table passes on an error of `serialize`, so that only values
without one are stored. -/
def value : SSTableValue TermInfo where
  serialize info := info.serialize.toOption.getD []
  deserialize bytes := (deserialize bytes).1.map fun info => (info, (deserialize bytes).2)
  skip bytes := (skip bytes).1.map fun _ => (skip bytes).2

theorem eq_of_verdict {α : Type} {r : IoResult α × List Byte} {rest : List Byte} (h : verdict r = .ok rest) :
    ∃ a, r = (.ok a, rest) := by
  obtain ⟨e | a, left⟩ := r
  · cases h
  · cases h
    exact ⟨a, rfl⟩

theorem value_inverts (h : info.serialize = .ok bytes) (hstored : info.stored = info) : value.Inverts info := by
  have hbytes : value.serialize info = bytes := by
    simp only [value, h]
    rfl
  have hread : ∀ rest, deserialize (bytes ++ rest) = (.ok info, rest) := by
    intro rest
    rw [deserialize_serialize h, hstored]
  refine ⟨fun rest => ?_, fun rest => ?_⟩
  · rw [hbytes]
    simp only [value, hread]
    rfl
  · have hskip := verdict_skip (bytes ++ rest)
    rw [hread] at hskip
    obtain ⟨_, hrun⟩ := eq_of_verdict hskip
    rw [hbytes]
    simp only [value, hrun]
    rfl

/-! ## Inline postings are read back -/

variable {postings : List (BitVec 32 × BitVec 32)}

/-- The bytes behind `written` are those of the postings, and they fit. -/
theorem readInline_of_inlineData {prev : BitVec 32} {written data : List Byte}
    (h : inlineData prev written postings = some data) :
    ∃ bytes, data = written ++ bytes ∧ readInline postings.length prev bytes = some postings ∧
      (written.length ≤ inlineDataSize → data.length ≤ inlineDataSize) := by
  induction postings generalizing prev written with
  | nil =>
    rw [inlineData, Option.some.injEq] at h
    exact ⟨[], by simp [h], rfl, fun hle => h ▸ hle⟩
  | cons posting postings ih =>
    obtain ⟨docId, tf⟩ := posting
    obtain ⟨hge, h⟩ := Option.ite_none_left_eq_some.mp h
    obtain ⟨-, h⟩ := Option.ite_none_left_eq_some.mp h
    obtain ⟨hfit, h⟩ := Option.ite_none_left_eq_some.mp h
    obtain ⟨bytes, rfl, hread, hle⟩ := ih h
    refine ⟨writeVint (docId.toNat - prev.toNat) ++ (writeVint tf.toNat ++ bytes), by simp, ?_,
      fun _ => hle (Nat.le_of_not_lt hfit)⟩
    have hdoc := docId.isLt
    have htf := tf.isLt
    have hsum : prev.toNat + (docId.toNat - prev.toNat) = docId.toNat := by omega
    rw [length_cons, readInline, readVint_writeVint (by omega)]
    simp only [readVint_writeVint (show tf.toNat < 2 ^ 64 by omega), hsum]
    rw [if_neg (by omega), if_neg (by omega)]
    simp only [BitVec.ofNat_toNat, BitVec.setWidth_eq, hread]
    rfl

/-- An inline value of one to three postings has them, and it can be stored. -/
theorem ofData_inlineData {data : List Byte} (h : inlineData 0 [] postings = some data)
    (hne : postings ≠ []) (hcount : postings.length ≤ maxInlinePostings) :
    (ofData postings.length data).decodeInline = some postings.unzip ∧
      value.Inverts (ofData postings.length data) := by
  obtain ⟨_, rfl, hread, hfits⟩ := readInline_of_inlineData h
  have hlen : data.length ≤ inlineDataSize := hfits (Nat.zero_le _)
  have hpos : 0 < postings.length := length_pos_iff.mpr hne
  have hfreq : (BitVec.ofNat 8 postings.length).toNat = postings.length := by
    rw [BitVec.toNat_ofNat, Nat.mod_eq_of_lt (hcount.trans_lt (by decide))]
  have hdataLen : (BitVec.ofNat 8 data.length).toNat = data.length := by
    rw [BitVec.toNat_ofNat, Nat.mod_eq_of_lt (hlen.trans_lt (by decide))]
  have hused : used (padded data) (.ofNat 8 data.length) = data := by
    rw [used, hdataLen, take_padded hlen]
  have hvalid : ¬InvalidInline (.ofNat 8 postings.length) (.ofNat 8 data.length) := by
    rintro (hzero | hmany | hlong)
    · rw [← BitVec.toNat_inj, hfreq] at hzero
      exact hpos.ne' hzero
    · omega
    · omega
  constructor
  · rw [ofData, decodeInline, if_neg hvalid, hused, hfreq, hread]
    rfl
  · refine value_inverts (if_neg hvalid) ?_
    rw [ofData, stored, hused]

theorem decodeInline_tryInline {docIds termFreqs : List (BitVec 32)}
    (h : tryInline docIds termFreqs = some info) :
    info.decodeInline = some (docIds, termFreqs) ∧ value.Inverts info := by
  obtain ⟨hcount, h⟩ := Option.ite_none_left_eq_some.mp h
  push Not at hcount
  obtain ⟨hle, hne, hlen⟩ := hcount
  obtain ⟨data, hdata, h⟩ := Option.bind_eq_some_iff.mp h
  obtain ⟨-, h⟩ := Option.ite_none_left_eq_some.mp h
  cases h
  have hzip : (docIds.zip termFreqs).length = docIds.length := by
    rw [length_zip, ← hlen, Nat.min_self]
  have hzipNe : docIds.zip termFreqs ≠ [] :=
    ne_nil_of_length_pos (by rw [hzip]; exact length_pos_iff.mpr hne)
  have hlaws := ofData_inlineData hdata hzipNe (hzip.trans_le hle)
  rwa [hzip, unzip_zip hlen] at hlaws

theorem decodeInline_tryInlineIter {count : Nat} (h : tryInlineIter count postings = some info) :
    info.decodeInline = some postings.unzip ∧ value.Inverts info := by
  obtain ⟨hcount, h⟩ := Option.ite_none_left_eq_some.mp h
  obtain ⟨hlen, h⟩ := Option.ite_none_left_eq_some.mp h
  obtain ⟨data, hdata, rfl⟩ := Option.map_eq_some_iff.mp h
  obtain rfl : postings.length = count := not_not.mp hlen
  exact ofData_inlineData hdata (ne_nil_of_length_pos (by omega)) (by omega)

/-- `skip` accepts what `deserialize` accepts, goes as far and fails with the same kind of error; a value that
was written comes back without the unused bytes of its array and without the offset of empty positions; and
postings that were accepted inline are decoded again, from the value and from what a table stores of it. -/
theorem codec_laws :
    (∀ bytes, verdict (skip bytes) = verdict (deserialize bytes)) ∧
      (∀ (info : TermInfo) (bytes suffix : List Byte), info.serialize = .ok bytes →
        deserialize (bytes ++ suffix) = (.ok info.stored, suffix)) ∧
      (∀ docIds termFreqs info, tryInline docIds termFreqs = some info →
        info.decodeInline = some (docIds, termFreqs) ∧ value.Inverts info) ∧
      ∀ count iter info, tryInlineIter count iter = some info →
        info.decodeInline = some iter.unzip ∧ value.Inverts info :=
  ⟨verdict_skip, fun _ _ suffix h => deserialize_serialize h suffix, fun _ _ _ => decodeInline_tryInline,
    fun _ _ _ => decodeInline_tryInlineIter⟩

/-- Three postings inline, read back from a block with an entry behind them; a skip of bytes that end too early. -/
theorem codec_laws_three :
    let info := ofData 3 [1, 2, 131, 7, 1, 236, 155, 4, 40]
    tryInline [1, 900, 70000] [2, 1, 40] = some info ∧ info.decodeInline = some ([1, 900, 70000], [2, 1, 40]) ∧
      deserialize [0xFF, 3, 9, 1, 2, 131, 7, 1, 236, 155, 4, 40, 77] = (.ok info, [77]) ∧
      verdict (skip [0xFF, 3, 9, 1, 2]) = .error .unexpectedEof := by
  intro info
  have hinline : tryInline [1, 900, 70000] [2, 1, 40] = some info := by decide +kernel
  have hstored : info.stored = info := by decide +kernel
  have hread := codec_laws.2.1 info _ [77] rfl
  rw [hstored] at hread
  refine ⟨hinline, (codec_laws.2.2.1 _ _ _ hinline).1, hread, ?_⟩
  rw [codec_laws.1]
  rfl

/-- An offset of positions without a length is not written. -/
theorem deserialize_position_offset : ∃ bytes,
    (external 0 0 1 5 0).serialize = .ok bytes ∧ deserialize bytes ≠ (.ok (external 0 0 1 5 0), []) := by
  refine ⟨[0x00, 1, 0, 0], rfl, ?_⟩
  have hread := deserialize_serialize (show (external 0 0 1 5 0).serialize = .ok [0x00, 1, 0, 0] from rfl) []
  rw [append_nil] at hread
  rw [hread, ne_eq, Prod.mk.injEq, Except.ok.injEq, not_and_or]
  exact .inl (by decide)

end TermInfo

end Summa
