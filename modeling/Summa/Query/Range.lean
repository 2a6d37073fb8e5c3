import Summa.Query.DocSet
import Summa.Structures.FastField.Scan
import Summa.Structures.FastField.ValueBounds
import Summa.Structures.FastField.Writer

/-!
# Range queries (`query/range.rs`)

A range over a fast field is compiled to one comparison of raw values, `CompiledRange.contains`. The query answers in
three ways: by a predicate on documents, by a bitset that a scan of the column fills, where blocks are left out that
the bounds in their headers exclude, and by a scorer, a cursor over the matches.

The column is the one that the segment has for the field; a segment without it has no predicate, no bitset and an
empty scorer. As in the column readers, `none` is a panic of the source.
-/

namespace Summa.FastField

open List

/-- A compiled range: in the raw domain, or in the signed domain of zigzag values. -/
inductive CompiledRange where
  | raw (lo hi : Nat)
  | signed (lo hi : Int)

namespace CompiledRange

def contains (self : CompiledRange) (raw : Nat) : Bool :=
  if raw = fastFieldMissing then false
  else
    match self with
    | .raw lo hi => decide (lo ≤ raw ∧ raw ≤ hi)
    | .signed lo hi => decide (lo ≤ (zigzagDecode raw).toInt ∧ (zigzagDecode raw).toInt ≤ hi)

/-- Whether values between the bounds of a block can match. -/
def mayMatch (self : CompiledRange) (bounds : Option (Nat × Nat)) : Bool :=
  match bounds with
  | none => true
  | some (low, high) =>
    if low = high then self.contains low
    else
      match self with
      | .raw lo hi => decide (lo ≤ hi ∧ lo ≤ min high (fastFieldMissing - 1) ∧ low ≤ hi)
      -- zigzag does not preserve order: only exact constants reject
      | .signed .. => true

end CompiledRange

/-- Inclusive range bounds in the user's type domain; an `f64` is given by its bits. -/
inductive RangeBound where
  | u64 (min max : Option Nat)
  | i64 (min max : Option Int)
  | f64 (min max : Option (BitVec 64))

def RangeBound.compile : RangeBound → CompiledRange
  | u64 min max => .raw (min.getD 0) (max.getD (u64Max - 1))
  | i64 min max => .signed (min.getD i64Min) (max.getD i64Max)
  | f64 min max => .raw ((min.map f64ToSortableU64).getD 0) ((max.map f64ToSortableU64).getD (u64Max - 1))

section Query

variable (bound : RangeBound) (fastField : FastFieldReader)

def asDocPredicate (docId : Nat) : Option Bool :=
  (fastField.getU64 docId).map bound.compile.contains

/-- Bounds in the encoded domain, before any text-ordinal remapping. -/
def ColumnBlock.valueBounds (self : ColumnBlock) : Option (Option (Nat × Nat)) := FastField.valueBounds self.data

/-- The block test of the scan. -/
def mayScan (block : ColumnBlock) : Option Bool :=
  if fastField.columnType = .textOrdinal then some true else block.valueBounds.map bound.compile.mayMatch

/-- The bitset of the matches among `numDocs` documents. -/
def asDocBitset (numDocs : Nat) : Option DocBitset :=
  -- range predicates inspect the first value of a document
  if fastField.multi then DocBitset.fromPredicate numDocs (asDocPredicate bound fastField)
  else
    fastField.tryScanSingleValueBatchesWhere (mayScan bound fastField)
      (fun start values bits => bits.insertMatchingValues start values bound.compile.contains) (DocBitset.new numDocs)

end Query

/-- Scorer that scans a fast-field column and yields matching documents. `found` is the field `matches`: membership
in the batch that ends at `batchEnd`, with bit zero at its start. -/
structure RangeScorer where
  fastField : FastFieldReader
  bound : CompiledRange
  current : Nat
  numDocs : Nat
  cursor : Option SingleValueCursor
  batchStart : Nat
  batchEnd : Nat
  found : BitVec 64
  scalarProbes : Nat

namespace RangeScorer

variable (self : RangeScorer)

/-- The batch from `start` on; false when the column ends before it. -/
def refillBatch (start : Nat) : Option (Bool × RangeScorer) := do
  let cursor ← self.cursor
  let (values, cursor) ← cursor.readBatch self.fastField start (replicate 64 0)
  if values.length = 0 then some (false, { self with cursor := some cursor })
  else
    some (true, { self with
      cursor := some cursor
      batchStart := start
      batchEnd := start + values.length
      found := DocBitset.maskOf (values.map self.bound.contains) })

/-- The loop of `scan_from`: a batch is followed by a refill at the latest, so that every second turn moves on. -/
def scanLoop : (turns next : Nat) → RangeScorer → Option RangeScorer
  | 0, _, _ => none
  | turns + 1, next, self =>
    if next < self.numDocs then
      if next < self.batchEnd then
        let remaining := self.found &&& BitVec.allOnes 64 <<< (next - self.batchStart)
        if remaining ≠ 0#64 then some { self with current := self.batchStart + remaining.ctz.toNat }
        else scanLoop turns self.batchEnd self
      else if self.scalarProbes < 8 ∨ self.cursor.isNone then do
        let raw ← self.fastField.getU64 next
        let self := { self with scalarProbes := min (self.scalarProbes + 1) 255 }
        if self.bound.contains raw then some { self with current := next } else scanLoop turns (next + 1) self
      else do
        let (refilled, self) ← self.refillBatch next
        if refilled then scanLoop turns next self else some { self with current := self.numDocs }
    else some { self with current := self.numDocs }

/-- Keep isolated probes scalar; amortize sustained scans over one word. -/
def scanFrom (next : Nat) : Option RangeScorer := self.scanLoop (2 * (self.numDocs - next) + 2) next

def new (bound : RangeBound) (fastField : FastFieldReader) (numDocs : Nat) : Option RangeScorer :=
  let scorer : RangeScorer := {
    fastField := fastField
    bound := bound.compile
    current := 0
    numDocs := numDocs
    cursor := if fastField.multi then none else some .new
    batchStart := 0
    batchEnd := 0
    found := 0#64
    scalarProbes := 0 }
  scorer.scanFrom 0

def doc : Nat := if self.numDocs ≤ self.current then terminated else self.current

def advance : Option (Nat × RangeScorer) := do
  let self ← if self.current < self.numDocs then self.scanFrom (self.current + 1) else some self
  some (self.doc, self)

def seek (target : Nat) : Option (Nat × RangeScorer) :=
  if self.numDocs ≤ self.current then some (terminated, self)
  else if target ≤ self.current then some (self.current, self)
  else do
    let self := if self.batchEnd ≤ target ∧ self.current + 1 < target then { self with scalarProbes := 0 } else self
    let self ← self.scanFrom target
    some (self.doc, self)

/-- The answer of a call; a scorer that panicked answers nothing more. -/
def answer : Option (Nat × RangeScorer) → Nat × Option RangeScorer
  | some (doc, self) => (doc, some self)
  | none => (terminated, none)

def docSet : DocSet (Option RangeScorer) where
  doc self := (self.map doc).getD terminated
  advance self := answer (self.bind advance)
  seek self target := answer (self.bind fun self => self.seek target)

end RangeScorer

end Summa.FastField
