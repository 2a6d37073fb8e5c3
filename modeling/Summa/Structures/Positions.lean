import Mathlib.Algebra.Order.BigOperators.Group.List
import Mathlib.Data.List.Destutter
import Mathlib.Data.List.Sort
import Mathlib.Tactic.Linarith

/-!
# Position streams (`structures/postings/positions_v2.rs`)

The positions of one term, for all its documents in posting order. Each document's positions are
sorted and stored as differences, and the values are cut into blocks of at most 128. A block is kept
with its logical start; a document is addressed by the number of values before it (its cursor) and
by its term frequency.

* `validateFrom_block`: in an admitted stream each block starts where the blocks before it end.
* `locateValue_spec`: the block of a cursor, by division in a stream of full blocks and by search
  over the logical starts otherwise.
* `readInto_eq`: a read returns the running sums of the addressed values.
* `readInto_encode`: reading a document's cursor and count in an encoded stream returns that
  document's positions.

A block is its decoded values; how its values are packed into bytes is left out.
-/

namespace Summa

open List

/-- `POSITION_STREAM_BLOCK`. -/
def positionStreamBlock : Nat := 128

/-- Running sums: the positions that a list of differences stands for. -/
def absolute (prev : Nat) : List Nat → List Nat
  | [] => []
  | d :: ds => (prev + d) :: absolute (prev + d) ds

/-- The values that `push_doc` stores for sorted positions. -/
def deltas (prev : Nat) : List Nat → List Nat
  | [] => []
  | p :: ps => (p - prev) :: deltas p ps

theorem absolute_append (prev : Nat) (ds ds' : List Nat) :
    absolute prev (ds ++ ds') = absolute prev ds ++ absolute (prev + ds.sum) ds' := by
  induction ds generalizing prev with
  | nil => simp [absolute]
  | cons d ds ih => simp [absolute, ih, Nat.add_assoc]

@[simp] theorem length_deltas (prev : Nat) (ps : List Nat) : (deltas prev ps).length = ps.length := by
  induction ps generalizing prev with
  | nil => rfl
  | cons p ps ih => simp [deltas, ih]

theorem absolute_deltas {prev : Nat} {ps : List Nat} (h : (prev :: ps).Pairwise (· ≤ ·)) :
    absolute prev (deltas prev ps) = ps := by
  induction ps generalizing prev with
  | nil => rfl
  | cons p ps ih =>
    obtain ⟨hle, htail⟩ := pairwise_cons.mp h
    have hp : prev + (p - prev) = p := Nat.add_sub_cancel' (hle p mem_cons_self)
    simp [deltas, absolute, hp, ih htail]

/-- A position stream: its blocks with their logical starts, and the footer's total and flag. -/
structure PositionStream where
  blocks : List (Nat × List Nat)
  total : Nat
  uniquePositions : Bool
  deriving DecidableEq, Repr

namespace PositionStream

variable {self : PositionStream} {n m : Nat} {bs bs' : List (Nat × List Nat)}

/-- The stored values, in order. -/
def values (self : PositionStream) : List Nat := self.blocks.flatMap (·.2)

/-- The loop of `validate_blocks`, from the logical start `total`. -/
def validateFrom : Nat → List (Nat × List Nat) → Option Nat
  | total, [] => some total
  | total, (start, vs) :: rest =>
    if start = total ∧ 0 < vs.length ∧ vs.length ≤ positionStreamBlock then
      validateFrom (total + vs.length) rest
    else none

/-- `validate_blocks`: what `open` and the merge admit. -/
def validateBlocks (self : PositionStream) : Bool :=
  validateFrom 0 self.blocks = some self.total

theorem validateFrom_append :
    validateFrom n (bs ++ bs') = (validateFrom n bs).bind fun m => validateFrom m bs' := by
  induction bs generalizing n with
  | nil => rfl
  | cons b bs ih =>
    simp only [cons_append, validateFrom, ih]
    split <;> rfl

/-- What admits the first block. -/
theorem validateFrom_cons {start : Nat} {vs : List Nat} : validateFrom n ((start, vs) :: bs) = some m ↔
    (start = n ∧ 0 < vs.length ∧ vs.length ≤ positionStreamBlock) ∧
      validateFrom (n + vs.length) bs = some m :=
  Option.ite_none_right_eq_some

theorem validateFrom_length (h : validateFrom n bs = some m) : m = n + (bs.flatMap (·.2)).length := by
  induction bs generalizing n with
  | nil => simpa [validateFrom, eq_comm] using h
  | cons b bs ih => rw [ih (validateFrom_cons.mp h).2, flatMap_cons, length_append, Nat.add_assoc]

variable {i start : Nat} {vs : List Nat}

/-- An admitted block starts where the blocks before it end, and is neither empty nor oversized. -/
theorem validateFrom_block (h : validateFrom n bs = some m) (hi : bs[i]? = some (start, vs)) :
    start = n + ((bs.take i).flatMap (·.2)).length ∧ 0 < vs.length ∧
      vs.length ≤ positionStreamBlock ∧ validateFrom start (bs.drop i) = some m := by
  induction bs generalizing n i with
  | nil => simp at hi
  | cons b bs ih =>
    obtain ⟨hb, hbs⟩ := validateFrom_cons.mp h
    cases i with
    | zero =>
      obtain rfl : b = (start, vs) := by simpa using hi
      obtain ⟨rfl, hpos, hle⟩ := hb
      exact ⟨by simp, hpos, hle, h⟩
    | succ i =>
      obtain ⟨hstart, hrest⟩ := ih hbs (by simpa using hi)
      refine ⟨?_, by simpa using hrest⟩
      rw [hstart, take_succ_cons, flatMap_cons, length_append, Nat.add_assoc]

variable (h : self.validateBlocks = true)

include h in
theorem total_eq : self.total = self.values.length := by
  have := validateFrom_length (of_decide_eq_true h)
  simpa [values] using this

variable (self)

/-- Whether every interior block is full, as `from_layout` decides from the last start. -/
def canonicalBlocks : Bool :=
  match self.blocks.getLast? with
  | none => true
  | some (start, _) => start == (self.blocks.length - 1) * positionStreamBlock

/-- The block that holds value `cursor`, and the value's place in it. -/
def locateValue (cursor : Nat) : Option (Nat × Nat) :=
  if self.total ≤ cursor ∨ self.blocks = [] then none
  else if self.canonicalBlocks then
    some (cursor / positionStreamBlock, cursor % positionStreamBlock)
  else
    match (self.blocks.takeWhile (·.1 ≤ cursor)).length with
    | 0 => none
    | idx + 1 => (self.blocks[idx]?).map fun b => (idx, cursor - b.1)

/-- The loop of `read_uncached`, from the located block on. -/
def readBlocks : List (Nat × List Nat) → Nat → Nat → Nat → Nat → Option (List Nat)
  | _, _, 0, _, _ => some []
  | [], _, _ + 1, _, _ => none
  | (start, vs) :: rest, inBlock, remaining + 1, nextCursor, prev =>
    if start + inBlock ≠ nextCursor then none
    else if vs.length ≤ inBlock then none
    else
      let taken := (vs.drop inBlock).take (remaining + 1)
      (readBlocks rest 0 (remaining + 1 - taken.length) (nextCursor + taken.length)
        (prev + taken.sum)).map (absolute prev taken ++ ·)

/-- Positions of one document: the `tf` values from `cursor` on, as absolute positions. -/
def readInto (cursor tf : Nat) : Option (List Nat) :=
  if tf = 0 then some []
  else if self.total < cursor + tf then none
  else
    match self.locateValue cursor with
    | none => none
    | some (idx, inBlock) => readBlocks (self.blocks.drop idx) inBlock tf cursor 0

variable {self}

/-- A start grows by at most a full block from each block to the next. -/
theorem start_le (h : validateFrom n bs = some m)
    (hi : bs[i]? = some (start, vs)) : start ≤ n + i * positionStreamBlock := by
  induction bs generalizing n i with
  | nil => simp at hi
  | cons b bs ih =>
    obtain ⟨hb, h⟩ := validateFrom_cons.mp h
    cases i with
    | zero =>
      obtain rfl : b = (start, vs) := by simpa using hi
      simpa using hb.1.le
    | succ i =>
      have := ih h (by simpa using hi)
      rw [Nat.add_mul]
      omega

include h in
/-- In a canonical stream block `i` starts at value `128 * i`. -/
theorem start_of_canonical
    (hc : self.canonicalBlocks = true) (hi : self.blocks[i]? = some (start, vs)) :
    start = i * positionStreamBlock := by
  have hv := of_decide_eq_true h
  have hlt : i < self.blocks.length := (List.getElem?_eq_some_iff.mp hi).1
  obtain ⟨⟨last, lvs⟩, hlast⟩ : ∃ b, self.blocks.getLast? = some b :=
    Option.ne_none_iff_exists'.mp (by
      intro hnil
      rw [getLast?_eq_none_iff] at hnil
      simp [hnil] at hlt)
  have hlaststart : last = (self.blocks.length - 1) * positionStreamBlock := by
    simpa [canonicalBlocks, hlast] using hc
  have hle := start_le hv hi
  -- from block `i` on the starts grow by at most 128, and the last one is `128 * (len - 1)`
  have hdrop := (validateFrom_block hv hi).2.2.2
  have hget : (self.blocks.drop i)[self.blocks.length - 1 - i]? = some (last, lvs) := by
    rw [getElem?_drop, ← hlast, getLast?_eq_getElem?]
    congr 1
    omega
  have hge := start_le hdrop hget
  have hsplit : self.blocks.length - 1 = i + (self.blocks.length - 1 - i) := by omega
  rw [hlaststart, hsplit, Nat.add_mul] at hge
  simp only [Nat.add_sub_cancel_left] at hge
  omega

/-- The blocks up to the first that starts after `cursor`: all earlier starts are at most it. -/
theorem takeWhile_start (cursor : Nat) (h : validateFrom n bs = some m) (hc : cursor < m) (hn : n ≤ cursor) :
    ∃ i start vs, (bs.takeWhile (·.1 ≤ cursor)).length = i + 1 ∧ bs[i]? = some (start, vs) ∧
      start ≤ cursor ∧ cursor < start + vs.length := by
  induction bs generalizing n with
  | nil =>
    have : n = m := by simpa [validateFrom] using h
    omega
  | cons b bs ih =>
    obtain ⟨start, vs⟩ := b
    obtain ⟨⟨rfl, -, -⟩, hrest⟩ := validateFrom_cons.mp h
    have htake : (((start, vs) :: bs).takeWhile (·.1 ≤ cursor)) =
        (start, vs) :: bs.takeWhile (·.1 ≤ cursor) := by simp [hn]
    rw [htake]
    by_cases hin : cursor < start + vs.length
    · -- the next block, if any, starts after the cursor
      refine ⟨0, start, vs, ?_, rfl, hn, hin⟩
      cases bs with
      | nil => rfl
      | cons b' bs' =>
        have hb' := (validateFrom_cons.mp hrest).1.1
        have : ¬ b'.1 ≤ cursor := by omega
        simp [this]
    · obtain ⟨i, s', vs', hlen, hi, h1, h2⟩ := ih hrest (by omega)
      exact ⟨i + 1, s', vs', by simp [hlen], by simpa using hi, h1, h2⟩

include h in
theorem locateValue_spec {cursor : Nat} (hc : cursor < self.total) :
    ∃ i inBlock start vs, self.locateValue cursor = some (i, inBlock) ∧
      self.blocks[i]? = some (start, vs) ∧ start + inBlock = cursor ∧ inBlock < vs.length := by
  have hv := of_decide_eq_true h
  obtain ⟨i, start, vs, hlen, hi, h1, h2⟩ := takeWhile_start cursor hv hc (Nat.zero_le _)
  have hne : self.blocks ≠ [] := by
    rintro hnil
    simp [hnil] at hi
  have hcond : ¬ (self.total ≤ cursor ∨ self.blocks = []) := by simp [hne, hc]
  unfold locateValue
  rw [if_neg hcond]
  split
  case isTrue hcanon =>
    have hs := start_of_canonical h hcanon hi
    have hle := (validateFrom_block hv hi).2.2.1
    have hdiv : cursor / positionStreamBlock = i := by
      unfold positionStreamBlock at *
      omega
    have hmod : start + cursor % positionStreamBlock = cursor := by
      unfold positionStreamBlock at *
      omega
    exact ⟨i, _, start, vs, by rw [hdiv], hi, hmod, by omega⟩
  case isFalse =>
    rw [hlen]
    exact ⟨i, cursor - start, start, vs, by simp [hi], hi, by omega, by omega⟩

theorem readBlocks_eq (h : validateFrom n bs = some m) {inBlock remaining prev : Nat}
    (hfit : n + inBlock + remaining ≤ m) (hin : ∀ b ∈ bs.head?, inBlock < b.2.length) :
    readBlocks bs inBlock remaining (n + inBlock) prev =
      some (absolute prev (((bs.flatMap (·.2)).drop inBlock).take remaining)) := by
  induction bs generalizing n inBlock remaining prev with
  | nil =>
    have hnm : n = m := by simpa [validateFrom] using h
    obtain rfl : remaining = 0 := by omega
    simp [readBlocks, absolute]
  | cons b bs ih =>
    obtain ⟨start, vs⟩ := b
    cases remaining with
    | zero => simp [readBlocks, absolute]
    | succ remaining =>
      obtain ⟨⟨rfl, -, -⟩, hrest⟩ := validateFrom_cons.mp h
      have hlt : inBlock < vs.length := hin (start, vs) rfl
      obtain ⟨taken, htaken⟩ : ∃ taken, (vs.drop inBlock).take (remaining + 1) = taken := ⟨_, rfl⟩
      have hlen : taken.length = min (remaining + 1) (vs.length - inBlock) := by simp [← htaken]
      -- the values of this block, then those of the next blocks from their first value on
      have hsplit : ((vs ++ bs.flatMap (·.2)).drop inBlock).take (remaining + 1) =
          taken ++ (bs.flatMap (·.2)).take (remaining + 1 - taken.length) := by
        rw [drop_append_of_le_length hlt.le, take_append, length_drop, htaken, hlen]
        congr 2
        omega
      have hread : readBlocks bs 0 (remaining + 1 - taken.length) (start + inBlock + taken.length)
          (prev + taken.sum) = some (absolute (prev + taken.sum)
            ((bs.flatMap (·.2)).take (remaining + 1 - taken.length))) := by
        by_cases hdone : remaining + 1 ≤ vs.length - inBlock
        · rw [show remaining + 1 - taken.length = 0 by omega]
          simp [readBlocks, absolute]
        · rw [show start + inBlock + taken.length = start + vs.length + 0 by omega, ih hrest (by omega), drop_zero]
          intro b hb
          cases bs with
          | nil => simp at hb
          | cons b' bs' =>
            obtain rfl : b' = b := by simpa using hb
            exact (validateFrom_cons.mp hrest).1.2.1
      simp only [readBlocks, ne_eq, not_true_eq_false, if_false, if_neg (Nat.not_le.mpr hlt), htaken, hread,
        Option.map_some, flatMap_cons, hsplit, absolute_append]

include h in
/-- A read inside an admitted stream returns the running sums of the addressed values. -/
theorem readInto_eq {cursor tf : Nat}
    (hfit : cursor + tf ≤ self.values.length) :
    self.readInto cursor tf = some (absolute 0 ((self.values.drop cursor).take tf)) := by
  unfold readInto
  split
  case isTrue h0 => simp [h0, absolute]
  case isFalse h0 =>
    have htotal := total_eq h
    rw [if_neg (by omega)]
    obtain ⟨i, inBlock, start, vs, hloc, hi, hcur, hin⟩ :=
      locateValue_spec h (show cursor < self.total by omega)
    have hv := of_decide_eq_true h
    obtain ⟨hstart, -, -, hdrop⟩ := validateFrom_block hv hi
    have hhead : (self.blocks.drop i).head? = some (start, vs) := by
      rw [head?_drop, hi]
    -- the values before block `i` are the first `start` values
    have hvalues : self.values.drop cursor = ((self.blocks.drop i).flatMap (·.2)).drop inBlock := by
      have : self.values = (self.blocks.take i).flatMap (·.2) ++ (self.blocks.drop i).flatMap (·.2) := by
        rw [← flatMap_append, take_append_drop, values]
      rw [this, drop_append, drop_eq_nil_of_le (by omega), nil_append]
      congr 1
      omega
    rw [hloc, hvalues]
    subst hcur
    exact readBlocks_eq hdrop (by omega) (by simpa [hhead] using hin)

end PositionStream

/-- The streaming writer of one term's position stream. -/
structure PositionStreamEncoder where
  pending : List Nat
  index : List (Nat × List Nat)
  total : Nat
  uniquePositions : Bool
  deriving DecidableEq, Repr

namespace PositionStreamEncoder

open PositionStream

variable {self : PositionStreamEncoder}

def new : PositionStreamEncoder := ⟨[], [], 0, true⟩

variable (self)

def flushBlock : PositionStreamEncoder :=
  if self.pending = [] then self
  else { self with
    pending := []
    index := self.index ++ [(self.total - self.pending.length, self.pending)] }

/-- The first half of `push_value`. -/
def appendValue (value : Nat) : PositionStreamEncoder :=
  { self with pending := self.pending ++ [value], total := self.total + 1 }

def pushValue (value : Nat) : PositionStreamEncoder :=
  if (self.appendValue value).pending.length = positionStreamBlock then
    (self.appendValue value).flushBlock
  else self.appendValue value

/-- The loop of `push_doc` over sorted positions; `first` is `index == 0`. -/
def pushSorted (first : Bool) (prev : Nat) :
    List Nat → PositionStreamEncoder → PositionStreamEncoder
  | [], self => self
  | position :: rest, self =>
    pushSorted false position rest
      ({ self with uniquePositions := self.uniquePositions && (first || position != prev) }.pushValue
        (position - prev))

variable (positions : List Nat)

/-- Append one document's positions: sorted, and stored as differences. -/
def pushDoc : PositionStreamEncoder :=
  pushSorted true 0 (positions.insertionSort (· ≤ ·)) self

def finish : PositionStream :=
  let self := self.flushBlock
  ⟨self.index, self.total, self.uniquePositions⟩

/-- The stream of the documents' positions, as `build_positions_streaming` writes it. -/
def encode (docs : List (List Nat)) : PositionStream := (docs.foldl pushDoc new).finish

/-- The values appended so far. -/
def values : List Nat := self.index.flatMap (·.2) ++ self.pending

variable {self}

/-- What the encoder keeps: admitted blocks, and a pending block that is not full. -/
structure Ok (e : PositionStreamEncoder) : Prop where
  blocks : validateFrom 0 e.index = some (e.total - e.pending.length)
  pending_lt : e.pending.length < positionStreamBlock
  pending_le : e.pending.length ≤ e.total

theorem ok_new : new.Ok := ⟨rfl, by decide, le_rfl⟩

/-- Flushing a pending block of any admitted size. -/
theorem flushBlock_spec {e : PositionStreamEncoder}
    (h : validateFrom 0 e.index = some (e.total - e.pending.length))
    (hlt : e.pending.length ≤ positionStreamBlock) (hle : e.pending.length ≤ e.total) :
    validateFrom 0 e.flushBlock.index = some e.flushBlock.total ∧
      e.flushBlock.pending = [] ∧ e.flushBlock.total = e.total ∧
      e.flushBlock.values = e.values ∧
      e.flushBlock.uniquePositions = e.uniquePositions := by
  unfold flushBlock
  split
  case isTrue hnil => simpa [hnil] using h
  case isFalse hne =>
    have hpos : 0 < e.pending.length := length_pos_iff.mpr hne
    have hsum : e.total - e.pending.length + e.pending.length = e.total := by omega
    refine ⟨?_, rfl, rfl, by simp [values], rfl⟩
    simp [validateFrom_append, h, validateFrom, hpos, hlt, hsum]

theorem Ok.pushValue (h : self.Ok) (value : Nat) :
    (self.pushValue value).Ok ∧ (self.pushValue value).values = self.values ++ [value] ∧
      (self.pushValue value).uniquePositions = self.uniquePositions := by
  have hlt := h.pending_lt
  have hle := h.pending_le
  unfold PositionStreamEncoder.pushValue
  split
  case isTrue hfull =>
    obtain ⟨h1, h2, h3, h4, h5⟩ :=
      flushBlock_spec (e := self.appendValue value) (by simpa [appendValue] using h.blocks) hfull.le
        (by simpa [appendValue] using hle)
    exact ⟨⟨by simpa [h2] using h1, by simp [h2, positionStreamBlock], by simp [h2]⟩,
      by rw [h4]; simp [values, appendValue], h5⟩
  case isFalse hfull =>
    have hlen : (self.pending ++ [value]).length ≠ positionStreamBlock := hfull
    rw [length_append, length_singleton] at hlen
    refine ⟨⟨?_, ?_, ?_⟩, by simp [values, appendValue], rfl⟩
    · simpa [appendValue] using h.blocks
    · simp only [appendValue, length_append, length_singleton]
      omega
    · simpa [appendValue] using hle

/-- A turn of `push_doc` sets the flag and pushes a value. -/
theorem Ok.turn (h : self.Ok) (unique : Bool) (value : Nat) {e : PositionStreamEncoder}
    (he : { self with uniquePositions := unique }.pushValue value = e) :
    e.Ok ∧ e.values = self.values ++ [value] ∧ e.uniquePositions = unique := by
  subst he
  have hflag : ({ self with uniquePositions := unique } : PositionStreamEncoder).Ok :=
    ⟨h.blocks, h.pending_lt, h.pending_le⟩
  exact hflag.pushValue value

theorem Ok.pushSorted (h : self.Ok) (first : Bool) (prev : Nat) (positions : List Nat) :
    (pushSorted first prev positions self).Ok ∧
      (PositionStreamEncoder.pushSorted first prev positions self).values =
        self.values ++ deltas prev positions := by
  induction positions generalizing self first prev with
  | nil => exact ⟨h, by simp [PositionStreamEncoder.pushSorted, deltas]⟩
  | cons p ps ih =>
    obtain ⟨hok, hvalues, -⟩ := h.turn (self.uniquePositions && (first || p != prev)) (p - prev) rfl
    obtain ⟨hok', hvalues'⟩ := ih hok false p
    refine ⟨hok', ?_⟩
    rw [PositionStreamEncoder.pushSorted, hvalues', hvalues, deltas, append_assoc]
    rfl

/-- The values of one document. -/
def docValues : List Nat := deltas 0 (positions.insertionSort (· ≤ ·))

@[simp] theorem length_docValues :
    (docValues positions).length = positions.length := by simp [docValues]

theorem absolute_docValues :
    absolute 0 (docValues positions) = positions.insertionSort (· ≤ ·) :=
  absolute_deltas (pairwise_cons.mpr ⟨fun _ _ => Nat.zero_le _, pairwise_insertionSort _ _⟩)

theorem Ok.foldl_pushDoc (h : self.Ok) (docs : List (List Nat)) :
    (docs.foldl pushDoc self).Ok ∧
      (docs.foldl pushDoc self).values = self.values ++ docs.flatMap docValues := by
  induction docs generalizing self with
  | nil => exact ⟨h, by simp⟩
  | cons doc docs ih =>
    obtain ⟨hok, hvalues⟩ := h.pushSorted true 0 (doc.insertionSort (· ≤ ·))
    obtain ⟨hok', hvalues'⟩ := ih (show (self.pushDoc doc).Ok from hok)
    refine ⟨hok', ?_⟩
    rw [foldl_cons, hvalues', pushDoc, hvalues, flatMap_cons, append_assoc]
    rfl

theorem encode_spec (docs : List (List Nat)) :
    (encode docs).validateBlocks = true ∧ (encode docs).values = docs.flatMap docValues := by
  obtain ⟨hok, hvalues⟩ := ok_new.foldl_pushDoc docs
  obtain ⟨h1, h2, -, h4, -⟩ := flushBlock_spec hok.blocks hok.pending_lt.le hok.pending_le
  refine ⟨decide_eq_true h1, ?_⟩
  simp only [values, h2, append_nil] at h4
  rw [encode, finish, PositionStream.values, h4]
  exact hvalues

variable {docs : List (List Nat)}

/-- The values of a document stand behind those of the documents before it. -/
theorem take_drop_encode {i : Nat} {positions : List Nat} (hi : docs[i]? = some positions) :
    ((encode docs).values.drop ((docs.take i).map length).sum).take positions.length =
        docValues positions ∧
      ((docs.take i).map length).sum + positions.length ≤ (encode docs).values.length := by
  obtain ⟨-, hvalues⟩ := encode_spec docs
  obtain ⟨hlt, rfl⟩ := List.getElem?_eq_some_iff.mp hi
  have hsplit : docs.flatMap docValues =
      (docs.take i).flatMap docValues ++ (docValues docs[i] ++ (docs.drop (i + 1)).flatMap docValues) := by
    rw [← flatMap_cons, getElem_cons_drop, ← flatMap_append, take_append_drop]
  have hbefore : ((docs.take i).flatMap docValues).length = ((docs.take i).map length).sum := by
    simp
  rw [hvalues, hsplit, ← hbefore, drop_left, ← length_docValues docs[i], take_left]
  refine ⟨rfl, ?_⟩
  rw [length_append, length_append]
  omega

/-- Reading a document's cursor and count returns that document's positions, sorted. -/
theorem readInto_encode {i : Nat} {positions : List Nat} (hi : docs[i]? = some positions) :
    (encode docs).readInto ((docs.take i).map length).sum positions.length =
      some (positions.insertionSort (· ≤ ·)) := by
  obtain ⟨hdrop, hfit⟩ := take_drop_encode hi
  rw [readInto_eq (encode_spec docs).1 hfit, hdrop, absolute_docValues]

/-! ## The certificate of distinct positions -/

/-- Pushing sorted positions keeps the flag exactly when no position equals the one before it. -/
theorem uniquePositions_pushSorted (h : self.Ok) (first : Bool) (prev : Nat) (positions : List Nat) :
    (pushSorted first prev positions self).uniquePositions = true →
      self.uniquePositions = true ∧ positions.IsChain (· ≠ ·) ∧
        (first = false → ∀ p ∈ positions.head?, p ≠ prev) := by
  induction positions generalizing self first prev with
  | nil => exact fun hu => ⟨hu, .nil, by simp⟩
  | cons p ps ih =>
    intro hu
    obtain ⟨hok, -, hsame⟩ := h.turn (self.uniquePositions && (first || p != prev)) (p - prev) rfl
    obtain ⟨hu', hchain, hhead⟩ := ih hok false p hu
    rw [hsame] at hu'
    have hboth : self.uniquePositions = true ∧ (first = true ∨ p ≠ prev) := by simpa using hu'
    refine ⟨hboth.1, ?_, fun hf q hq => ?_⟩
    · cases ps with
      | nil => exact .singleton p
      | cons q qs => exact .cons_cons (hhead rfl q rfl).symm hchain
    · obtain rfl : p = q := by simpa using hq
      exact hboth.2.resolve_left (by simp [hf])

theorem uniquePositions_foldl (h : self.Ok) (docs : List (List Nat))
    (hu : (docs.foldl pushDoc self).uniquePositions = true) :
    self.uniquePositions = true ∧ ∀ doc ∈ docs, doc.Nodup := by
  induction docs generalizing self with
  | nil => exact ⟨hu, by simp⟩
  | cons doc docs ih =>
    obtain ⟨hok, -⟩ := h.pushSorted true 0 (doc.insertionSort (· ≤ ·))
    obtain ⟨hu', hdocs⟩ := ih (show (self.pushDoc doc).Ok from hok) hu
    obtain ⟨hself, hchain, -⟩ := uniquePositions_pushSorted h _ _ _ hu'
    refine ⟨hself, forall_mem_cons.mpr ⟨?_, hdocs⟩⟩
    -- equal positions stand next to each other once they are sorted
    have hsorted := pairwise_insertionSort (· ≤ ·) doc
    have hdedup := hsorted.destutter_eq_dedup
    rw [destutter_of_isChain _ _ hchain] at hdedup
    exact ((perm_insertionSort (· ≤ ·) doc).nodup_iff).mp (dedup_eq_self.mp hdedup.symm)

/-- The flag of a stream certifies that no document repeats a position. -/
theorem nodup_of_uniquePositions (hu : (encode docs).uniquePositions = true) : ∀ doc ∈ docs, doc.Nodup := by
  obtain ⟨hok, -⟩ := ok_new.foldl_pushDoc docs
  obtain ⟨-, -, -, -, hsame⟩ := flushBlock_spec hok.blocks hok.pending_lt.le hok.pending_le
  exact (uniquePositions_foldl ok_new docs (hsame ▸ hu)).2

end PositionStreamEncoder

end Summa
