import Mathlib.Data.Prod.Lex
import Summa.Error
import Summa.Lib.ByteKeys
import Summa.Segment.Builder.Alignment

/-!
# Text indexing of the segment builder (`segment/builder/mod.rs`)

`addDocument` hands each text value of a document to `indexTextField`, which counts the terms of the
value, records their positions and collects the occurrences of the field's common words. Values of a
chunked field are scoring units of their own, numbered over the segment; the values of another
field share the document id and differ in their element ordinal. At the end of the document
`indexWordPairs` adds one posting for each pair of common words that stand next to each other.

A value is the token list of the field's tokenizer. Field lengths, statistics, fast fields, vectors
and the document store are left out.
-/

namespace Summa

open Function

/-- The bytes of a term. A term is UTF-8 text, in which `0xFF` (`WORD_PAIR_MARK`) never occurs. -/
abbrev Term := { bytes : List Byte // 255#8 ∉ bytes }

instance : LawfulBEq Term := inferInstance

/-- Where a token stands in the values of a field. -/
inductive PositionMode where
  | ordinal
  | tokenPosition
  | full
  deriving DecidableEq, Repr

def PositionMode.tracksTokenPosition : PositionMode → Bool
  | .ordinal => false
  | .tokenPosition | .full => true

structure Token where
  text : Term
  position : Nat
  position_lt : position < 2 ^ 32
  deriving DecidableEq

/-- An indexed or stored text field. The last fields are what `validate_common_grams` admits. -/
structure TextField where
  indexed : Bool
  chunked : Bool
  positions : Option PositionMode
  commonGrams : List Term
  grams_plain : commonGrams ≠ [] → indexed = true ∧ chunked = false
  grams_positions : commonGrams ≠ [] → positions.any (·.tracksTokenPosition) = true
  grams_words : ∀ w ∈ commonGrams, w.1 ≠ [] ∧ 0 ∉ w.1

/-- The text fields of the schema, by field id. -/
abbrev TextSchema := Nat → Option TextField

/-- The text values of a document in order: the field and the tokens of the value. -/
abbrev TextDocument := List (Nat × List Token)

/-- `MAX_POSITION_ELEMENT_ORDINAL`. -/
def maxPositionElementOrdinal : Nat := 2 ^ 12 - 1

/-- `MAX_TOKEN_POSITION`. -/
def maxTokenPosition : Nat := 2 ^ 20 - 1

/-- The encoded position of a token; an ordinal or position that does not fit saturates. -/
def encodedPosition (mode : PositionMode) (elementOrdinal position : Nat) : Nat :=
  match mode with
  | .ordinal => min elementOrdinal maxPositionElementOrdinal <<< 20
  | .tokenPosition => position
  | .full => (min elementOrdinal maxPositionElementOrdinal <<< 20) ||| min position maxTokenPosition

/-- Interned term key. `wordPair` is `WORD_PAIR_FIELD_FLAG` of the field id: the term is then
`first\0second`. -/
structure TermKey where
  field : Nat
  wordPair : Bool
  term : Term
  deriving DecidableEq

/-- One call of `index_text_field`. -/
structure TextCall where
  field : Nat
  /-- The document id, or the virtual id of a chunk. -/
  unit : Nat
  elementOrdinal : Nat
  tokens : List Token

namespace TextCall

variable (self : TextCall)

/-- The keys of `local_tf_buffer`. -/
def terms : List Term := (self.tokens.map (·.text)).dedup

/-- The entry of `local_tf_buffer`. -/
def tf (term : Term) : Nat := self.tokens.countP (·.text = term)

/-- The entry of `local_positions`. -/
def positions (mode : PositionMode) (term : Term) : List Nat :=
  (self.tokens.filter (·.text = term)).map fun t => encodedPosition mode self.elementOrdinal t.position

@[simp] theorem length_positions (mode : PositionMode) (term : Term) :
    (self.positions mode term).length = self.tf term := by
  simp [positions, tf, List.countP_eq_length_filter]

theorem mem_terms {self : TextCall} {term : Term} : term ∈ self.terms ↔ self.tf term ≠ 0 := by
  simp only [terms, List.mem_dedup, List.mem_map, tf, ne_eq, List.countP_eq_zero, not_forall,
    decide_eq_true_eq, not_not, exists_prop]

end TextCall

/-- The loop of `add_document` over the values: which calls of `index_text_field` it makes. Element
ordinals start over with the document, virtual ids run over the segment. -/
def textCalls (schema : TextSchema) (docId : Nat) :
    (Nat → Nat) → (Nat → Nat) → TextDocument → Result (List TextCall × (Nat → Nat))
  | _, chunks, [] => .ok ([], chunks)
  | ordinals, chunks, (field, tokens) :: rest =>
    match schema field with
    | none => textCalls schema docId ordinals chunks rest
    | some entry =>
      if entry.indexed = false then textCalls schema docId ordinals chunks rest
      else if entry.chunked then
        if u16Max < ordinals field then
          .error (.document
            s!"chunked field {field} has more than {u16Max + 1} chunk values in one document")
        else do
          let r ← textCalls schema docId (update ordinals field (ordinals field + 1))
            (update chunks field (chunks field + 1)) rest
          return (⟨field, chunks field, 0, tokens⟩ :: r.1, r.2)
      else do
        let r ← textCalls schema docId (update ordinals field (ordinals field + 1)) chunks rest
        return (⟨field, docId, ordinals field, tokens⟩ :: r.1, r.2)

/-- The calls that adding the documents makes, from document id `docId` on. -/
def documentCalls (schema : TextSchema) : Nat → (Nat → Nat) → List TextDocument → Result (List TextCall)
  | _, _, [] => .ok []
  | docId, chunks, doc :: docs => do
    let r ← textCalls schema docId (fun _ => 0) chunks doc
    let calls ← documentCalls schema (docId + 1) r.2 docs
    return r.1 ++ calls

/-- An occurrence of a common word: field, encoded position and word. -/
abbrev Occurrence := Nat ×ₗ Nat ×ₗ Term

/-- The part of the segment builder that text indexing uses. -/
structure SegmentBuilder where
  nextDocId : Nat
  /-- Number of chunks of each chunked field. -/
  chunks : Nat → Nat
  invertedIndex : TermKey → Option PostingListBuilder
  positionIndex : TermKey → Option PositionPostingListBuilder
  pairOccurrences : List Occurrence

namespace SegmentBuilder

variable (schema : TextSchema) (shouldSpill : PostingListBuilder → Bool)

def new : SegmentBuilder := ⟨0, fun _ => 0, fun _ => none, fun _ => none, []⟩

/-- `position_enabled_fields`: the mode of an indexed field that records positions. -/
def positionMode (field : Nat) : Option PositionMode :=
  (schema field).bind fun entry => if entry.indexed then entry.positions else none

variable (self : SegmentBuilder)

def addTermPosting (self : SegmentBuilder) (key : TermKey) (docId tf : Nat) : SegmentBuilder :=
  { self with
    invertedIndex := update self.invertedIndex key
      (some (Summa.addTermPosting shouldSpill (self.invertedIndex key) docId tf)) }

/-- Phase 2 of `index_text_field`, for one term of the value. -/
def indexTerm (call : TextCall) (self : SegmentBuilder) (term : Term) : SegmentBuilder :=
  let key : TermKey := ⟨call.field, false, term⟩
  let self := self.addTermPosting shouldSpill key call.unit (call.tf term)
  match positionMode schema call.field with
  | none => self
  | some mode =>
    { self with
      positionIndex := update self.positionIndex key
        (some (addPositions (self.positionIndex key) call.unit (call.positions mode term))) }

/-- The occurrences of common words that a call records. -/
def commonOccurrences (call : TextCall) : List Occurrence :=
  match schema call.field, positionMode schema call.field with
  | some entry, some mode =>
    (call.tokens.filter (·.text ∈ entry.commonGrams)).map fun t =>
      toLex (call.field, toLex (encodedPosition mode call.elementOrdinal t.position, t.text))
  | _, _ => []

def indexTextField (call : TextCall) : SegmentBuilder :=
  call.terms.foldl (indexTerm schema shouldSpill call)
    { self with pairOccurrences := self.pairOccurrences ++ commonOccurrences schema call }

/-- The bytes `first\0second` under which a pair is interned. -/
def pairTerm (first second : Term) : Term :=
  ⟨first.1 ++ 0 :: second.1, by
    have h1 := first.2
    have h2 := second.2
    simp [h1, h2]⟩

/-- The loop of `index_word_pairs` over the sorted occurrences: the counter `(field, first, second)`
of each start, once for each distinct second word at the next position. -/
def pairStarts : List Occurrence → List (Nat × Term × Term)
  | [] => []
  | o :: rest =>
    let field := (ofLex o).1
    let position := (ofLex (ofLex o).2).1
    let first := (ofLex (ofLex o).2).2
    -- `checked_add` fails at the last `u32`
    if position + 1 < 2 ^ 32 then
      let following := (rest.dropWhile fun o =>
        toLex ((ofLex o).1, (ofLex (ofLex o).2).1) < toLex (field, position + 1)).takeWhile
          fun o => (ofLex o).1 = field ∧ (ofLex (ofLex o).2).1 = position + 1
      ((following.map fun o => (ofLex (ofLex o).2).2).destutter (· ≠ ·)).map (field, first, ·) ++
        pairStarts rest
    else pairStarts rest

/-- Index the adjacent pairs of the document's common-word occurrences. -/
def indexWordPairs (docId : Nat) : SegmentBuilder :=
  let counts := pairStarts (self.pairOccurrences.insertionSort (· ≤ ·))
  counts.dedup.foldl
    (fun self pair => self.addTermPosting shouldSpill
      ⟨pair.1, true, pairTerm pair.2.1 pair.2.2⟩ docId (counts.count pair))
    { self with pairOccurrences := [] }

def addDocument (doc : TextDocument) : Result SegmentBuilder := do
  let r ← textCalls schema self.nextDocId (fun _ => 0) self.chunks doc
  let indexed := r.1.foldl (indexTextField schema shouldSpill)
    { self with nextDocId := self.nextDocId + 1, chunks := r.2 }
  return indexed.indexWordPairs shouldSpill self.nextDocId

/-- The builder after the documents. -/
def addDocuments (docs : List TextDocument) : Result SegmentBuilder :=
  docs.foldlM (addDocument schema shouldSpill) new

end SegmentBuilder

end Summa
