import Mathlib.Data.List.MinMax
import Summa.Query.PhraseMatch
import Summa.Structures.PositionCursor
import Summa.Structures.PostingIntersection

/-!
# Phrase queries (`query/phrase.rs`)

A `PhraseScorer` intersects the posting lists of its terms and confirms a candidate by the positions of
the terms in it. The rarest list drives the intersection. Positions are checked by the cheapest way that
applies: a term with one occurrence fixes the only possible start, two terms are merged directly,
and otherwise the rarest term's positions are filtered by the other terms. A check stops at the first
match; `score` resumes it to count the rest.

The state of a check (`PhraseCheck`) and the posting cursors are parts of the scorer of their own, since
no function moves both. Deadlines are left out.
-/

namespace Summa

open Function

/-- The postings and positions of one term, as a segment stores them. -/
structure PhraseTerm where
  blocks : List (List PostingEntry)
  positions : PositionStream
  nonempty : ∀ b ∈ blocks, b ≠ []
  short : ∀ b ∈ blocks, b.length ≤ postingBlockSize
  sorted : (blocks.flatten.map (·.docId)).Pairwise (· < ·)
  bounded : ∀ e ∈ blocks.flatten, e.docId < terminated
  admitted : positions.validateBlocks = true
  addressed : ∀ e ∈ blocks.flatten, e.cursor + e.termFreq ≤ positions.values.length
  freq_lt : ∀ e ∈ blocks.flatten, e.termFreq < 2 ^ 32
  positions_lt : ∀ e ∈ blocks.flatten, ∀ p ∈ positions.positionsAt e.cursor e.termFreq, p < 2 ^ 32
  /-- The flag of the stream certifies that no document repeats a position. -/
  unique : positions.uniquePositions = true →
    ∀ e ∈ blocks.flatten, (positions.positionsAt e.cursor e.termFreq).Nodup

namespace PhraseTerm

def entries (self : PhraseTerm) : List PostingEntry := self.blocks.flatten

def docCount (self : PhraseTerm) : Nat := self.entries.length

/-- The term's positions in document `d`, empty if it is not there. -/
def positionsIn (self : PhraseTerm) (d : Nat) : List Nat :=
  ((self.entries.find? (·.docId = d)).map fun e =>
    self.positions.positionsAt e.cursor e.termFreq).getD []

end PhraseTerm

/-- What `unpositioned` derives from the terms once and for all. -/
structure PhrasePlan where
  numTerms : Nat
  /-- The rarest term. -/
  lead : Nat
  /-- The term whose frequency bounds the phrase's. -/
  boundTerm : Nat
  exactTermBounds : Bool
  /-- All terms, the rarest first. -/
  termOrder : List Nat
  /-- Distance of each term from the first. -/
  deltas : Nat → Nat
  slop : Nat

namespace PhrasePlan

def docCount (terms : List PhraseTerm) (i : Nat) : Nat := (terms[i]?.map (·.docCount)).getD 0

/-- The order of `sort_unstable_by_key(|&index| (doc_count, index))`. -/
def rarer (terms : List PhraseTerm) (i j : Nat) : Prop :=
  docCount terms i < docCount terms j ∨ docCount terms i = docCount terms j ∧ i ≤ j

instance (terms : List PhraseTerm) : DecidableRel (rarer terms) := fun _ _ =>
  inferInstanceAs (Decidable (_ ∨ _))

def unpositioned (terms : List PhraseTerm) (offsets : List Nat) (slop : Nat) : PhrasePlan :=
  let lead := ((List.range terms.length).argmin (docCount terms)).getD 0
  let exactTermBounds := slop == 0 && (terms.head?.any (·.positions.uniquePositions))
  { numTerms := terms.length
    lead
    exactTermBounds
    boundTerm := if exactTermBounds then lead else 0
    termOrder := (List.range terms.length).insertionSort (rarer terms)
    deltas := fun i => (offsets[i]?.map (· - offsets.headD 0)).getD i
    slop }

/-- The term that is intersected with the lead. -/
def second (plan : PhrasePlan) : Nat :=
  if plan.numTerms = 2 then (if plan.lead = 0 then 1 else 0) else (plan.termOrder[1]?).getD 0

end PhrasePlan

/-! ## Confirming a candidate -/

/-- The state of a check: position cursors, buffers and where the scan stopped. -/
structure PhraseCheck where
  positionLists : Nat → TermPositionCursor
  positionIndices : Nat → Nat
  positionBufs : Nat → List Nat
  nextStart : Nat
  firstMatch : Bool
  frequency : Option Nat

/-- The offset of the current posting's positions in the term's stream. -/
def BlockPostingIterator.positionCursor (self : BlockPostingIterator) : Nat :=
  (self.entry.map (·.cursor)).getD 0

namespace PhraseCheck

variable (plan : PhrasePlan) (its : Nat → BlockPostingIterator)

variable (self : PhraseCheck)

def readTermPositions (term : Nat) : Bool × PhraseCheck :=
  let r := (self.positionLists term).readInto (its term).positionCursor (its term).termFreq
  (r.1.isSome, { self with
    positionLists := update self.positionLists term r.2
    positionBufs := update self.positionBufs term (r.1.getD []) })

/-- `read_one` on the list of a term. -/
def readOne (self : PhraseCheck) (term : Nat) : Option Nat × PhraseCheck :=
  let r := (self.positionLists term).readOne (its term).positionCursor
  (r.1, { self with positionLists := update self.positionLists term r.2 })

/-- `contains` on the list of a term. -/
def contains (self : PhraseCheck) (term target : Nat) : Bool × PhraseCheck :=
  let r := (self.positionLists term).contains (its term).positionCursor (its term).termFreq target
  (r.1, { self with positionLists := update self.positionLists term r.2 })

/-- Probe the position of every other term for a fixed start. -/
def probeTerms (anchor start : Nat) : List Nat → PhraseCheck → Bool × PhraseCheck
  | [], self => (true, self)
  | term :: rest, self =>
    if term = anchor then probeTerms anchor start rest self
    else if 2 ^ 32 ≤ start + plan.deltas term then (false, self)
    else
      let r := self.contains its term (start + plan.deltas term)
      if r.1 then probeTerms anchor start rest r.2 else (false, r.2)

/-- A singleton of the bounding term fixes the only possible start. -/
def checkSingleton : Bool × PhraseCheck :=
  let r := self.readOne its plan.boundTerm
  match r.1 with
  | none => (false, r.2)
  | some position =>
    if position < plan.deltas plan.boundTerm then (false, r.2)
    else
      let p := probeTerms plan its plan.boundTerm (position - plan.deltas plan.boundTerm)
        plan.termOrder r.2
      if p.1 then (true, { p.2 with firstMatch := true, frequency := some 1 }) else (false, p.2)

/-- Two terms, one of which occurs once: the partner of its position decides. -/
def probePair (anchor other : Nat) : Bool × PhraseCheck :=
  let r := self.readOne its anchor
  let target := r.1.bind fun position =>
    if anchor = 0 then
      if 2 ^ 32 ≤ position + plan.deltas 1 then none else some (position + plan.deltas 1)
    else if position < plan.deltas 1 then none else some (position - plan.deltas 1)
  let p := match target with
    | none => (false, r.2)
    | some target => r.2.contains its other target
  (p.1, { p.2 with firstMatch := p.1, frequency := some (if p.1 then 1 else 0) })

/-- Look for the first match of buffer 0 with the buffer of `other`. -/
def firstExact (other delta : Nat) : Bool × PhraseCheck :=
  let r := nextExactPhraseMatch (self.positionBufs 0) (self.positionBufs other) delta 0 0
  (r.1.isSome, { self with
    nextStart := r.2.1
    positionIndices := update self.positionIndices other r.2.2
    firstMatch := r.1.isSome })

def checkPair : Bool × PhraseCheck :=
  if (its 0).termFreq = 1 then self.probePair plan its 0 1
  else if plan.exactTermBounds ∧ (its 1).termFreq = 1 then self.probePair plan its 1 0
  else
    let r₀ := self.readTermPositions its 0
    if ¬ r₀.1 then (false, r₀.2)
    else
      let r₁ := r₀.2.readTermPositions its 1
      if ¬ r₁.1 then (false, r₁.2) else r₁.2.firstExact 1 (plan.deltas 1)

/-- Keep the anchor's starts that every term of the list has; the term `last` is left to the end. -/
def filterStarts (anchor last : Nat) : List Nat → PhraseCheck → Bool × PhraseCheck
  | [], self => (true, self)
  | term :: rest, self =>
    if term = last ∧ (anchor = 0 ∨ rest = []) then filterStarts anchor last rest self
    else
      let r := self.readTermPositions its term
      if ¬ r.1 then (false, r.2)
      else
        let starts := retainExactPhraseStarts (r.2.positionBufs anchor) (r.2.positionBufs term)
          (plan.deltas term)
        let next := { r.2 with positionBufs := update r.2.positionBufs anchor starts }
        if starts = [] then (false, next) else filterStarts anchor last rest next

/-- The possible starts that the anchor's positions stand for. -/
def shiftStarts (anchor : Nat) (self : PhraseCheck) : PhraseCheck :=
  if anchor = 0 then self
  else { self with
    positionBufs := update self.positionBufs anchor
      (((self.positionBufs anchor).filter (plan.deltas anchor ≤ ·)).map (· - plan.deltas anchor)) }

/-- Filter the rarest term's starts, then enumerate the first term's. -/
def checkRarest : Bool × PhraseCheck :=
  let anchor := plan.lead
  let last := if anchor = 0 then plan.termOrder.getLastD 0 else 0
  let r := self.readTermPositions its anchor
  if ¬ r.1 then (false, r.2)
  else
    let shifted := r.2.shiftStarts plan anchor
    if shifted.positionBufs anchor = [] then (false, shifted)
    else
      let f := filterStarts plan its anchor last plan.termOrder.tail shifted
      if ¬ f.1 then (false, f.2)
      else
        let l := if anchor = 0 ∨ plan.termOrder.getLast? = some 0 then f.2.readTermPositions its last
          else (true, f.2)
        if ¬ l.1 then (false, l.2)
        else if anchor = 0 then l.2.firstExact last (plan.deltas last)
        else l.2.firstExact anchor 0

def checkExactPhrasePositions : Bool × PhraseCheck :=
  if 2 < plan.numTerms ∧ (its plan.boundTerm).termFreq = 1 then self.checkSingleton plan its
  else if plan.numTerms = 2 then self.checkPair plan its
  else self.checkRarest plan its

/-- The positions of the terms of a list, read one after the other. -/
def readAll : List Nat → PhraseCheck → Bool × PhraseCheck
  | [], self => (true, self)
  | term :: rest, self =>
    let r := self.readTermPositions its term
    if r.1 then readAll rest r.2 else (false, r.2)

/-- The other terms: all but the first. -/
def otherTerms : List Nat := (List.range plan.numTerms).tail

/-- Scan from where the state stands. -/
def scan (maxMatches : Nat) : Nat × List Nat × Nat :=
  scanPhraseMatches (self.positionBufs 0)
    ((otherTerms plan).map fun i => (self.positionBufs i, plan.deltas i)) plan.slop
    ((otherTerms plan).map self.positionIndices) self.nextStart maxMatches

def checkPhrasePositions : Bool × PhraseCheck :=
  let fresh := { self with firstMatch := false, frequency := none }
  if plan.slop = 0 then fresh.checkExactPhrasePositions plan its
  else
    let r := readAll its (List.range plan.numTerms) fresh
    if ¬ r.1 then (false, r.2)
    else
      let start := { r.2 with positionIndices := fun _ => 0, nextStart := 0 }
      let s := start.scan plan 1
      let found := s.1 != 0
      (found, { start with
        positionIndices := fun i => (s.2.1[i - 1]?).getD 0
        nextStart := s.2.2
        firstMatch := found })

/-- The buffer against which the first term's starts are enumerated, and its distance. -/
def enumerated : Nat × Nat :=
  if plan.numTerms = 2 then (1, plan.deltas 1)
  else if plan.lead = 0 then (plan.termOrder.getLastD 0, plan.deltas (plan.termOrder.getLastD 0))
  else (plan.lead, 0)

/-- Resume after the first match, unless the frequency is known. -/
def exactPhraseFrequency : Nat :=
  if ¬ self.firstMatch then 0
  else
    match self.frequency with
    | some frequency => frequency
    | none =>
      if plan.slop = 0 then
        countExactPhraseMatches (self.positionBufs 0) (self.positionBufs (enumerated plan).1)
          (enumerated plan).2 self.nextStart (self.positionIndices (enumerated plan).1) + 1
      else (self.scan plan u32Max).1 + 1

end PhraseCheck

/-! ## The scorer -/

structure PhraseScorer where
  intersection : PostingIntersection
  postingIters : Nat → BlockPostingIterator
  check : PhraseCheck
  currentDoc : Nat
  confirmed : Option Bool

namespace PhraseScorer

variable (plan : PhrasePlan) (kernel : IntersectKernel)

/-- `PhraseScorer::unpositioned`. -/
def unpositioned (terms : List PhraseTerm) (offsets : List Nat) (slop : Nat) : PhraseScorer where
  intersection :=
    let order := (PhrasePlan.unpositioned terms offsets slop).termOrder
    .withCosts (PhrasePlan.docCount terms (order.getD 0 0)) (PhrasePlan.docCount terms (order.getD 1 0))
  postingIters := fun i => .new ((terms[i]?.map (·.blocks)).getD [])
  check :=
    { positionLists := fun i => .new ((terms[i]?.map (·.positions)).getD ⟨[], 0, false⟩)
      positionIndices := fun _ => 0
      positionBufs := fun _ => []
      nextStart := 0
      firstMatch := false
      frequency := none }
  currentDoc := 0
  confirmed := none

variable (self : PhraseScorer)

/-- Move to `doc` and drop what is known about the current document. -/
def park (doc : Nat) (confirmed : Option Bool) : PhraseScorer :=
  { self with
    currentDoc := doc
    check := { self.check with firstMatch := false, frequency := none }
    confirmed }

/-- Seek the terms of a list to a candidate, up to the first that does not have it. -/
def alignOthers (candidate : Nat) :
    List Nat → (Nat → BlockPostingIterator) → Option Nat × (Nat → BlockPostingIterator)
  | [], its => (none, its)
  | index :: rest, its =>
    let it := (its index).seek candidate
    let its := update its index it
    if it.doc ≠ candidate then (some it.doc, its) else alignOthers candidate rest its

/-- The loops of `find_next_and_match_through`. -/
def findLoop : Nat → PostingIntersection → (Nat → BlockPostingIterator) →
    Nat × PostingIntersection × (Nat → BlockPostingIterator)
  | 0, x, its => (terminated, x, its)
  | fuel + 1, x, its =>
    let r := x.intersectBlock kernel (its plan.lead) (its plan.second)
    let its := update (update its plan.lead r.2.2.1) plan.second r.2.2.2
    match r.1 with
    | none => findLoop fuel r.2.1 its
    | some candidate =>
      if plan.numTerms = 2 ∨ candidate = terminated then (candidate, r.2.1, its)
      else
        match alignOthers candidate (plan.termOrder.drop 2) its with
        | (none, its) => (candidate, r.2.1, its)
        | (some doc, its) =>
          findLoop fuel r.2.1 (update its plan.lead ((its plan.lead).seek doc))

/-- The postings that the two intersected lists have left: a bound on the loop. -/
def fuel (its : Nat → BlockPostingIterator) : Nat :=
  (its plan.lead).rest.length + (its plan.second).rest.length + 1

/-- Find the next document where all terms appear. -/
def findNextAndMatch : Nat × PhraseScorer :=
  if plan.numTerms = 0 then (terminated, self)
  else if plan.numTerms = 1 then ((self.postingIters 0).doc, self)
  else
    let r := findLoop plan kernel (fuel plan self.postingIters) self.intersection self.postingIters
    (r.1, { self with intersection := r.2.1, postingIters := r.2.2 })

/-- Park on a posting intersection without reading positions. -/
def findNextCandidate : Nat × PhraseScorer :=
  let r := self.findNextAndMatch plan kernel
  (r.1, if r.1 ≠ r.2.currentDoc then r.2.park r.1 none else r.2)

def advanceAligned : PhraseScorer :=
  { self with
    postingIters :=
      if plan.numTerms = 2 then
        update (update self.postingIters 0 (self.postingIters 0).advance) 1
          (self.postingIters 1).advance
      else update self.postingIters plan.lead (self.postingIters plan.lead).advance }

def confirmCandidate : Bool × PhraseScorer :=
  if self.currentDoc = terminated then (false, self)
  else
    match self.confirmed with
    | some matched => (matched, self)
    | none =>
      let r := self.check.checkPhrasePositions plan self.postingIters
      (r.1, { self with check := r.2, confirmed := some r.1 })

/-- The loop of `find_next_phrase_match`. -/
def phraseLoop : Nat → PhraseScorer → PhraseScorer
  | 0, self => self
  | fuel + 1, self =>
    let c := self.findNextCandidate plan kernel
    if c.1 = terminated then c.2
    else
      let r := c.2.confirmCandidate plan
      if r.1 then r.2
      else if r.2.currentDoc = terminated then r.2
      else phraseLoop fuel (r.2.advanceAligned plan)

/-- Find the next document where all terms appear as a phrase. -/
def findNextPhraseMatch : PhraseScorer :=
  phraseLoop plan kernel ((self.postingIters plan.lead).rest.length + 1) self

/-- The scorer on its first match. -/
def start (terms : List PhraseTerm) (offsets : List Nat) (slop : Nat) : PhraseScorer :=
  (unpositioned terms offsets slop).findNextPhraseMatch
    (PhrasePlan.unpositioned terms offsets slop) kernel

variable (self : PhraseScorer)

def advance : PhraseScorer :=
  if self.currentDoc = terminated then self
  else (self.advanceAligned plan).findNextPhraseMatch plan kernel

/-- A seek of the driving list. -/
def seekLead (target : Nat) : PhraseScorer :=
  { self with
    postingIters :=
      update self.postingIters plan.lead ((self.postingIters plan.lead).seek target) }

def seek (target : Nat) : PhraseScorer :=
  if target = terminated ∨ self.currentDoc = terminated then self.park terminated self.confirmed
  else (self.seekLead plan target).findNextPhraseMatch plan kernel

def advanceCandidate : PhraseScorer :=
  if self.currentDoc = terminated then self
  else
    ({ self with
      postingIters :=
        update self.postingIters plan.lead (self.postingIters plan.lead).advance } :
        PhraseScorer).findNextCandidate plan kernel |>.2

def seekCandidate (target : Nat) : PhraseScorer :=
  if target = terminated ∨ self.currentDoc = terminated then self.park terminated (some false)
  else ((self.seekLead plan target).findNextCandidate plan kernel).2

/-- The phrase frequency that `score` uses; nothing at the end. Once computed it is kept. -/
def score : Option Nat × PhraseScorer :=
  if self.currentDoc = terminated then (none, self)
  else
    (some (max (self.check.exactPhraseFrequency plan) 1),
      if self.check.firstMatch then
        { self with check := { self.check with
          frequency := some (self.check.exactPhraseFrequency plan) } }
      else self)

end PhraseScorer

/-- A call on a scorer. -/
inductive PhraseCall where
  | advance
  | seek (target : Nat)
  | advanceCandidate
  | seekCandidate (target : Nat)
  | confirmCandidate
  | score
  deriving DecidableEq, Repr

/-- What a call returns. -/
inductive PhraseReply where
  | doc (doc : Nat)
  | confirmed (matched : Bool)
  | score (frequency : Option Nat)
  deriving DecidableEq, Repr

namespace PhraseScorer

variable (plan : PhrasePlan) (kernel : IntersectKernel)

def call (self : PhraseScorer) : PhraseCall → PhraseReply × PhraseScorer
  | .advance => reply (self.advance plan kernel)
  | .seek target => reply (self.seek plan kernel target)
  | .advanceCandidate => reply (self.advanceCandidate plan kernel)
  | .seekCandidate target => reply (self.seekCandidate plan kernel target)
  | .confirmCandidate =>
    let r := self.confirmCandidate plan
    (.confirmed r.1, r.2)
  | .score =>
    let r := self.score plan
    (.score r.1, r.2)
where
  reply (self : PhraseScorer) : PhraseReply × PhraseScorer := (.doc self.currentDoc, self)

/-- The replies to a sequence of calls. -/
def replies (self : PhraseScorer) : List PhraseCall → List PhraseReply
  | [] => []
  | c :: calls => (self.call plan kernel c).1 :: replies (self.call plan kernel c).2 calls

/-- The documents that a caller collects with `score` and `advance`, with the frequencies of their
scores. -/
def hits : Nat → PhraseScorer → List (Nat × Nat)
  | 0, _ => []
  | fuel + 1, self =>
    let r := self.score plan
    match r.1 with
    | none => []
    | some frequency => (self.currentDoc, frequency) :: hits fuel (r.2.advance plan kernel)

end PhraseScorer

end Summa
