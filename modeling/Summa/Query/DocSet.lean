import Summa.Query.DocBitset
import Summa.Structures.PostingIterator

/-!
# Document cursors (`query/docset.rs`)

A `DocSet` is a forward-only cursor over sorted document ids. `Cursor` has the methods every
implementation writes, `DocSet` adds the ones with a default body; an implementation that overrides a
default gives the field itself.

* `SortedVecDocSet`, `BitsetDocSet`: cursors over a sorted vector and over a bitmap.
* `IntersectionDocSet`: the documents of two cursors.
* `PredicatedScorer`: a driving cursor, filtered by predicates and by cursors that are sought to each
  of its documents.

A method that moves the cursor returns what the source returns and the new state. The loops over an
inner cursor end because its documents rise; here they are given as many turns as there are
documents, which the laws of `Summa.Query.DocSetSpec` show to be enough.
-/

namespace Summa

/-- `DOC_WINDOW_WORDS`. -/
def docWindowWords : Nat := 64

/-- `DOC_WINDOW_SIZE`. -/
def docWindowSize : Nat := docWindowWords * 64

/-- `DOC_BATCH_SIZE`. -/
def docBatchSize : Nat := 128

/-- `[u64; DOC_WINDOW_WORDS]`: bit `i` stands for the document `base + i`. -/
abbrev DocWindow := DocBitset

/-- The zeroed window. -/
def DocWindow.zero : DocWindow := DocBitset.new docWindowSize

/-- The documents a window at `base` reports, in order. -/
def DocWindow.docs (window : DocWindow) (base : Nat) : List Nat :=
  ((List.range docWindowSize).filter window.contains).map (base + ·)

/-- `base.saturating_add(DOC_WINDOW_SIZE)`. -/
def windowEnd (base : Nat) : Nat := min (base + docWindowSize) terminated

/-- The methods of a cursor that have no default body. -/
structure Cursor (σ : Type) where
  /-- The current document, `terminated` at the end. -/
  doc : σ → Nat
  advance : σ → Nat × σ
  seek : σ → Nat → Nat × σ

namespace Cursor

variable {σ : Type} (cursor : Cursor σ)

/-- The loop of `fill_batch`, with room for so many more documents. -/
def fillBatchLoop : Nat → Nat → σ → List Nat × σ
  | 0, _, s => ([], s)
  | room + 1, doc, s =>
    if doc = terminated then ([], s)
    else
      let next := cursor.advance s
      let rest := fillBatchLoop room next.1 next.2
      (doc :: rest.1, rest.2)

def fillBatch (s : σ) : List Nat × σ := cursor.fillBatchLoop docBatchSize (cursor.doc s) s

/-- The documents of the batch that the cursor finds, each sought in turn. -/
def retainBatch (s : σ) : List Nat → List Nat × σ
  | [] => ([], s)
  | doc :: docs =>
    let found := cursor.seek s doc
    let rest := retainBatch found.2 docs
    (if found.1 = doc then doc :: rest.1 else rest.1, rest.2)

/-- The loop of `fill_window`. -/
def fillWindowLoop (base : Nat) : Nat → Nat → DocWindow → σ → DocWindow × σ
  | 0, _, bits, s => (bits, s)
  | turns + 1, doc, bits, s =>
    if doc < windowEnd base then
      let next := cursor.advance s
      fillWindowLoop base turns next.1 (bits.set (doc - base)) next.2
    else (bits, s)

def fillWindow (s : σ) (base : Nat) : DocWindow × σ :=
  let first := cursor.seek s base
  cursor.fillWindowLoop base docWindowSize first.1 .zero first.2

end Cursor

/-- A cursor with its batch and window methods. -/
structure DocSet (σ : Type) extends Cursor σ where
  /-- Up to `docBatchSize` documents from the current one on. -/
  fillDocBatch : σ → List Nat × σ := toCursor.fillBatch
  /-- The matches among the sorted documents given. -/
  retainDocBatch : σ → List Nat → List Nat × σ := toCursor.retainBatch
  /-- The matches from `base` on, below `windowEnd base`. -/
  fillDocWindow : σ → Nat → DocWindow × σ := toCursor.fillWindow

/-! ## Bitmaps -/

/-- A cursor over materialized membership. A bitmap has no bit for `terminated`, which is not a
document. -/
structure BitsetDocSet where
  bits : DocBitset
  current : Nat
  count : Nat
  below : ∀ d, bits.contains d = true → d < terminated

namespace BitsetDocSet

def new (bits : DocBitset) (below : ∀ d, bits.contains d = true → d < terminated) : BitsetDocSet :=
  ⟨bits, (bits.nextSetBit 0).getD terminated, bits.count, below⟩

variable (self : BitsetDocSet)

def doc : Nat := self.current

def seek (target : Nat) : Nat × BitsetDocSet :=
  let moved := if self.current < target then
      { self with current := (self.bits.nextSetBit target).getD terminated }
    else self
  (moved.current, moved)

def advance : Nat × BitsetDocSet :=
  self.seek (min (self.current + 1) terminated)

/-- Word number `index` of the bitmap, zero behind its end. -/
def word (index : Nat) : BitVec 64 := self.bits.bits[index]?.getD 0#64

/-- The 64 bits of the bitmap from `base + 64 * offset` on, from the two words they lie in. -/
def shiftedWord (base offset : Nat) : BitVec 64 :=
  let index := base / 64 + offset
  let low := self.word index >>> (base % 64)
  if base % 64 ≠ 0 then low ||| self.word (index + 1) <<< (64 - base % 64) else low

/-- What stays of a window after its first `consumed` bits are cleared. -/
def clearConsumed (window : List (BitVec 64)) (consumed : Nat) : List (BitVec 64) :=
  (List.replicate (consumed / 64) 0#64 ++ window.drop (consumed / 64)).modify (consumed / 64)
    (· &&& BitVec.allOnes 64 <<< (consumed % 64))

def fillDocWindow (base : Nat) : DocWindow × BitsetDocSet :=
  let start := max base self.current
  if windowEnd base ≤ start then (.zero, self)
  else
    let window := (List.range docWindowWords).map (self.shiftedWord base)
    (⟨clearConsumed window (start - base)⟩,
      { self with current := (self.bits.nextSetBit (windowEnd base)).getD terminated })

def docSet : DocSet BitsetDocSet where
  doc := doc
  advance := advance
  seek := seek
  fillDocWindow := fillDocWindow

end BitsetDocSet

/-! ## Sorted vectors -/

/-- Documents in strictly rising order, none of them `terminated`. -/
structure SortedDocs where
  docs : List Nat
  sorted : docs.Pairwise (· < ·)
  below : ∀ d ∈ docs, d < terminated

/-- `slice::binary_search` on distinct items: where `target` is, or where it would stand. -/
def binarySearch (docs : List Nat) (target : Nat) : Except Nat Nat :=
  let offset := (docs.takeWhile (· < target)).length
  if docs[offset]? = some target then .ok offset else .error offset

/-- A cursor over a sorted vector. -/
structure SortedVecDocSet extends SortedDocs where
  pos : Nat
  inside : pos ≤ docs.length

namespace SortedVecDocSet

def new (docs : SortedDocs) : SortedVecDocSet := ⟨docs, 0, Nat.zero_le _⟩

variable (self : SortedVecDocSet)

def doc : Nat := self.docs[self.pos]?.getD terminated

/-- The cursor moved `count` documents on, at most to the end. -/
def skip (count : Nat) : SortedVecDocSet :=
  ⟨self.toSortedDocs, min (self.pos + count) self.docs.length, Nat.min_le_right _ _⟩

def advance : Nat × SortedVecDocSet :=
  let moved := if self.pos < self.docs.length then self.skip 1 else self
  (moved.doc, moved)

def seek (target : Nat) : Nat × SortedVecDocSet :=
  if self.docs.length ≤ self.pos then (terminated, self)
  else
    match binarySearch (self.docs.drop self.pos) target with
    | .ok offset => ((self.skip offset).doc, self.skip offset)
    | .error offset => ((self.skip offset).doc, self.skip offset)

def fillDocBatch : List Nat × SortedVecDocSet :=
  let count := min (self.docs.length - self.pos) docBatchSize
  ((self.docs.drop self.pos).take count, self.skip count)

def docSet : DocSet SortedVecDocSet where
  doc := doc
  advance := advance
  seek := seek
  fillDocBatch := fillDocBatch

end SortedVecDocSet

/-! ## Intersections -/

/-- The documents of two cursors. -/
structure IntersectionDocSet (α β : Type) where
  a : α
  b : β

namespace IntersectionDocSet

variable {α β : Type} (A : Cursor α) (B : Cursor β)

/-- The loop that brings both cursors to a common document, from the documents they report. -/
def alignLoop : Nat → Nat → Nat → IntersectionDocSet α β → Nat × IntersectionDocSet α β
  | 0, _, _, s => (terminated, s)
  | turns + 1, da, db, s =>
    if da = terminated ∨ db = terminated then (terminated, s)
    else if da = db then (da, s)
    else if da < db then
      let found := A.seek s.a db
      alignLoop turns found.1 db { s with a := found.2 }
    else
      let found := B.seek s.b da
      alignLoop turns da found.1 { s with b := found.2 }

/-- Each turn of the loop raises one of the two documents. -/
def align (da db : Nat) (s : IntersectionDocSet α β) : Nat × IntersectionDocSet α β :=
  alignLoop A B (2 * terminated + 1) da db s

def new (a : α) (b : β) : IntersectionDocSet α β := (align A B (A.doc a) (B.doc b) ⟨a, b⟩).2

variable (s : IntersectionDocSet α β)

def doc : Nat :=
  if A.doc s.a = terminated ∨ B.doc s.b = terminated then terminated else A.doc s.a

def advance : Nat × IntersectionDocSet α β :=
  let next := A.advance s.a
  align A B next.1 (B.doc s.b) { s with a := next.2 }

def seek (target : Nat) : Nat × IntersectionDocSet α β :=
  let a := A.seek s.a target
  let b := B.seek s.b target
  align A B a.1 b.1 ⟨a.2, b.2⟩

def docSet : DocSet (IntersectionDocSet α β) where
  doc := doc A B
  advance := advance A B
  seek := seek A B

end IntersectionDocSet

/-! ## Filtered cursors -/

/-- A vector of boxed cursors with states `ω`: `allSeek doc test` is
`iter_mut().all(|s| test(s.seek(doc)))`. -/
structure CursorVec (ω : Type) where
  allSeek : Nat → (Nat → Bool) → ω → Bool × ω

namespace CursorVec

def nil : CursorVec Unit := ⟨fun _ _ s => (true, s)⟩

/-- The cursors behind the first failure stay put. -/
def cons {σ ω : Type} (cursor : Cursor σ) (rest : CursorVec ω) : CursorVec (σ × ω) where
  allSeek doc test s :=
    let found := cursor.seek s.1 doc
    if test found.1 then
      let tail := rest.allSeek doc test s.2
      (tail.1, found.2, tail.2)
    else (false, found.2, s.2)

end CursorVec

/-- A driving cursor with the filters pushed down to it. -/
structure PredicatedScorer (δ μ ν : Type) where
  driver : δ
  predicates : List (Nat → Bool)
  mustVerifiers : μ
  mustNotVerifiers : ν

namespace PredicatedScorer

variable {δ μ ν : Type} (driver : DocSet δ) (must : CursorVec μ) (mustNot : CursorVec ν)

variable (s : PredicatedScorer δ μ ν)

/-- Whether `doc` passes the filters: the predicates, then the verifiers. -/
def checkFilters (doc : Nat) : Bool × PredicatedScorer δ μ ν :=
  if !s.predicates.all (· doc) then (false, s)
  else
    let required := must.allSeek doc (· == doc) s.mustVerifiers
    let s := { s with mustVerifiers := required.2 }
    if !required.1 then (false, s)
    else
      let excluded := mustNot.allSeek doc (· != doc) s.mustNotVerifiers
      (excluded.1, { s with mustNotVerifiers := excluded.2 })

/-- The loop of `skip_non_matching`, from the driver's document. -/
def skipLoop : Nat → Nat → PredicatedScorer δ μ ν → Nat × PredicatedScorer δ μ ν
  | 0, doc, s => (doc, s)
  | turns + 1, doc, s =>
    if doc = terminated then (doc, s)
    else
      let checked := checkFilters must mustNot s doc
      if checked.1 then (doc, checked.2)
      else
        let next := driver.advance checked.2.driver
        skipLoop turns next.1 { checked.2 with driver := next.2 }

/-- Each turn of the loop raises the driver's document. -/
def skipNonMatching : Nat × PredicatedScorer δ μ ν :=
  skipLoop driver must mustNot (terminated + 1) (driver.doc s.driver) s

def new (start : δ) (predicates : List (Nat → Bool)) (mustVerifiers : μ) (mustNotVerifiers : ν) :
    PredicatedScorer δ μ ν :=
  (skipNonMatching driver must mustNot ⟨start, predicates, mustVerifiers, mustNotVerifiers⟩).2

/-- The loop over the set bits of word `wordIndex`, lowest first; each turn clears one of `remaining`. -/
def filterWordLoop (base wordIndex : Nat) :
    Nat → BitVec 64 → DocWindow → PredicatedScorer δ μ ν → DocWindow × PredicatedScorer δ μ ν
  | 0, _, bits, s => (bits, s)
  | turns + 1, remaining, bits, s =>
    if remaining = 0#64 then (bits, s)
    else
      let offset := wordIndex * 64 + remaining.ctz.toNat
      let checked := checkFilters must mustNot s (base + offset)
      filterWordLoop base wordIndex turns (remaining &&& (remaining - 1#64))
        (if checked.1 then bits else bits.clear offset) checked.2

/-- One word of a window. -/
def filterWord (base : Nat) (state : DocWindow × PredicatedScorer δ μ ν) (wordIndex : Nat) :
    DocWindow × PredicatedScorer δ μ ν :=
  filterWordLoop must mustNot base wordIndex 64 (state.1.bits[wordIndex]?.getD 0#64) state.1 state.2

def filterWindow (base : Nat) (bits : DocWindow) (s : PredicatedScorer δ μ ν) :
    DocWindow × PredicatedScorer δ μ ν :=
  let filtered := (List.range docWindowWords).foldl (filterWord must mustNot base) (bits, s)
  (filtered.1, (skipNonMatching driver must mustNot filtered.2).2)

def doc : Nat := driver.doc s.driver

def advance : Nat × PredicatedScorer δ μ ν :=
  skipNonMatching driver must mustNot { s with driver := (driver.advance s.driver).2 }

def seek (target : Nat) : Nat × PredicatedScorer δ μ ν :=
  skipNonMatching driver must mustNot { s with driver := (driver.seek s.driver target).2 }

def fillDocWindow (base : Nat) : DocWindow × PredicatedScorer δ μ ν :=
  let filled := driver.fillDocWindow s.driver base
  filterWindow driver must mustNot base filled.1 { s with driver := filled.2 }

def docSet : DocSet (PredicatedScorer δ μ ν) where
  doc := doc driver
  advance := advance driver must mustNot
  seek := seek driver must mustNot
  fillDocWindow := fillDocWindow driver must mustNot

end PredicatedScorer

end Summa
