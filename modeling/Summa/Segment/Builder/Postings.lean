import Summa.Lib.SortedList
import Summa.Structures.BlockPosting

/-!
# In-memory postings and positions of a segment build (`segment/builder/postings.rs`)

While a segment is built, each term has a posting list in memory, a part of it perhaps spilled to
disk, and a list of positions. `written` is what the flush makes of them. A term frequency is kept in
16 bits: a first value of a document is capped at 65535, while a further value of the same
document is added after a cast that drops its high bits. Positions are capped at 65535 at the flush.

* `min_docTotal_add`: up to the cap, `add` adds what it keeps of a count to the document's frequency.
* `Ok.written`: the flush writes one posting for each document, with the capped sum of what was
  kept, wherever the list was spilled in between.
-/

namespace Summa

open List

/-- `u16::MAX`, the largest term frequency that is stored. -/
def u16Max : Nat := 65535

/-- The frequencies stored for document `u`. -/
def docTotal (u : Nat) (ps : List Posting) : Nat :=
  ((ps.filter (·.docId = u)).map (·.termFreq)).sum

@[simp] theorem docTotal_nil (u : Nat) : docTotal u [] = 0 := rfl

theorem docTotal_append (u : Nat) (ps qs : List Posting) :
    docTotal u (ps ++ qs) = docTotal u ps + docTotal u qs := by simp [docTotal]

theorem docTotal_cons (u : Nat) (p : Posting) (ps : List Posting) :
    docTotal u (p :: ps) = (if p.docId = u then p.termFreq else 0) + docTotal u ps := by
  by_cases h : p.docId = u <;> simp [docTotal, h]

/-- In-memory posting list of a term. `spilled` holds the records that were written to the spill
file for it, in file order. A frequency is a `u16`. -/
structure PostingListBuilder where
  postings : List Posting
  spilled : List Posting
  deriving DecidableEq, Repr

namespace PostingListBuilder

variable {self : PostingListBuilder} {docId count u : Nat}

def new : PostingListBuilder := ⟨[], []⟩

variable (self)

/-- Whether `add` merges into the last posting. -/
def merges (docId : Nat) : Bool :=
  self.postings.getLast?.any (·.docId == docId)

/-- Add a posting, merging if same document as last. -/
def add (docId count : Nat) : PostingListBuilder :=
  match self.postings.getLast? with
  | some last =>
    if last.docId = docId then
      -- `last.term_freq.saturating_add(term_freq as u16)`: the cast keeps the low 16 bits
      { self with postings := self.postings.dropLast ++
          [⟨docId, min (last.termFreq + count % (u16Max + 1)) u16Max⟩] }
    else { self with postings := self.postings ++ [⟨docId, min count u16Max⟩] }
  | none => { self with postings := self.postings ++ [⟨docId, min count u16Max⟩] }

/-- Move the postings in memory to the spill file. -/
def spill : PostingListBuilder :=
  ⟨[], self.spilled ++ self.postings⟩

/-- `SPILL_THRESHOLD`. -/
def spillThreshold : Nat := 16384

def shouldSpill : Bool := spillThreshold ≤ self.postings.length

/-- The closure of `dedup_by`: `earlier` is the last posting that was retained. -/
def dedupFrom (earlier : Posting) : List Posting → List Posting
  | [] => [earlier]
  | later :: rest =>
    if earlier.docId = later.docId then
      dedupFrom ⟨earlier.docId, min (earlier.termFreq + later.termFreq) u16Max⟩ rest
    else earlier :: dedupFrom later rest

def dedup : List Posting → List Posting
  | [] => []
  | p :: ps => dedupFrom p ps

/-- The posting list that the flush writes: spilled records before the tail in memory, with the
adjacent postings of one document merged. -/
def written : List Posting :=
  if self.spilled = [] then self.postings else dedup (self.spilled ++ self.postings)

/-- All postings of the term, spilled or in memory. -/
def all : List Posting := self.spilled ++ self.postings

variable {self}

theorem add_of_merges (count : Nat) (h : self.merges docId = true) : ∃ init last,
    self.postings = init ++ [last] ∧ last.docId = docId ∧ self.add docId count =
      { self with postings := init ++ [⟨docId, min (last.termFreq + count % (u16Max + 1)) u16Max⟩] } := by
  rcases eq_nil_or_concat self.postings with hnil | ⟨init, last, hcat⟩
  · simp [merges, hnil] at h
  · have hd : last.docId = docId := by simpa [merges, hcat] using h
    exact ⟨init, last, by simp [hcat], hd, by simp [add, hcat, hd]⟩

theorem add_of_not_merges (h : self.merges docId = false) :
    self.add docId count = { self with postings := self.postings ++ [⟨docId, min count u16Max⟩] } := by
  rcases eq_nil_or_concat self.postings with hnil | ⟨init, last, hcat⟩
  · simp [add, hnil]
  · have hd : last.docId ≠ docId := by simpa [merges, hcat] using h
    simp [add, hcat, hd]

@[simp] theorem all_spill : self.spill.all = self.all := by simp [spill, all]

/-- The postings of a list that is sorted by document, with one frequency cap. -/
structure Ok (b : PostingListBuilder) : Prop where
  sorted : (b.all.map (·.docId)).Pairwise (· ≤ ·)
  strict : (b.postings.map (·.docId)).Pairwise (· < ·)
  capped : ∀ p ∈ b.all, p.termFreq ≤ u16Max

theorem ok_new : new.Ok := ⟨by simp [new, all], by simp [new], by simp [new, all]⟩

theorem Ok.spill (h : self.Ok) : self.spill.Ok :=
  ⟨by simpa using h.sorted, by simp [PostingListBuilder.spill], by simpa using h.capped⟩

theorem Ok.add (h : self.Ok) (hd : ∀ d ∈ self.all.map (·.docId), d ≤ docId) : (self.add docId count).Ok := by
  cases hm : self.merges docId with
  | true =>
    obtain ⟨init, last, hpost, hlast, hadd⟩ := add_of_merges count hm
    have hall : self.all = self.spilled ++ init ++ [last] := by simp [all, hpost]
    rw [hadd]
    refine ⟨?_, ?_, ?_⟩
    · have := h.sorted
      rw [hall] at this
      simpa [all, hlast] using this
    · have := h.strict
      rw [hpost] at this
      simpa [hlast] using this
    · intro p hp
      have hp' : p ∈ self.spilled ++ init ∨
          p = ⟨docId, min (last.termFreq + count % (u16Max + 1)) u16Max⟩ := by
        simpa [all, or_assoc] using hp
      rcases hp' with hp' | rfl
      · exact h.capped p (by rw [hall]; exact mem_append_left _ hp')
      · exact Nat.min_le_right ..
  | false =>
    rw [add_of_not_merges hm]
    refine ⟨?_, ?_, ?_⟩
    · have hsorted : ((self.all ++ [(⟨docId, min count u16Max⟩ : Posting)]).map (·.docId)).Pairwise (· ≤ ·) := by
        rw [map_append, pairwise_append]
        exact ⟨h.sorted, pairwise_singleton .., by simpa using hd⟩
      simpa [all] using hsorted
    · have hlt : ∀ d ∈ self.postings.map (·.docId), d < docId := by
        refine lt_of_getLast?_ne h.strict (fun d hmem => hd d (by simp [all, mem_append.mpr (.inr hmem)])) ?_
        simpa [merges, Option.any_eq_false] using hm
      rw [map_append, pairwise_append]
      exact ⟨h.strict, pairwise_singleton .., by simpa using hlt⟩
    · intro p hp
      have hp' : p ∈ self.all ∨ p = ⟨docId, min count u16Max⟩ := by
        simpa [all, or_assoc] using hp
      rcases hp' with hp' | rfl
      · exact h.capped p hp'
      · exact Nat.min_le_right ..

/-- What `add` keeps of a count. -/
def kept (self : PostingListBuilder) (docId count : Nat) : Nat :=
  if self.merges docId then count % (u16Max + 1) else min count u16Max

/-- Up to the cap, `add` adds what it keeps to the document's frequency. -/
theorem min_docTotal_add (x : Nat) :
    min (docTotal u (self.add docId count).all + x) u16Max =
      min (docTotal u self.all + (if u = docId then self.kept docId count else 0) + x) u16Max := by
  cases hm : self.merges docId with
  | true =>
    obtain ⟨init, last, hpost, hlast, hadd⟩ := add_of_merges count hm
    simp only [hadd, all, hpost, docTotal_append, docTotal_cons, docTotal_nil, hlast, kept, hm, if_true]
    rcases eq_or_ne u docId with rfl | hne
    · simp only [if_true]
      omega
    · simp [hne, hne.symm]
  | false =>
    simp only [add_of_not_merges hm, all, docTotal_append, docTotal_cons, docTotal_nil, kept, hm,
      Bool.false_eq_true, if_false]
    rcases eq_or_ne u docId with rfl | hne
    · omega
    · simp [hne, hne.symm]

theorem mem_docs_add {d : Nat} : d ∈ ((self.add docId count).all.map (·.docId)) ↔
    d ∈ self.all.map (·.docId) ∨ d = docId := by
  cases hm : self.merges docId with
  | true =>
    obtain ⟨init, last, hpost, hlast, hadd⟩ := add_of_merges count hm
    simp only [hadd, all, hpost, map_append, mem_append, map_cons, map_nil,
      mem_singleton, hlast]
    tauto
  | false =>
    simp only [add_of_not_merges hm, all, map_append, mem_append, map_cons, map_nil,
      mem_singleton]
    tauto

/-- `dedup_by` on postings sorted by document: one posting for each document, with the capped
sum of its frequencies. -/
theorem dedupFrom_spec {p : Posting} {ps : List Posting}
    (hs : ((p :: ps).map (·.docId)).Pairwise (· ≤ ·)) (hc : ∀ q ∈ p :: ps, q.termFreq ≤ u16Max) :
    ((dedupFrom p ps).map (·.docId)).Pairwise (· < ·) ∧
      (∀ d, d ∈ (dedupFrom p ps).map (·.docId) ↔ d ∈ (p :: ps).map (·.docId)) ∧
      ∀ q ∈ dedupFrom p ps, q.termFreq = min (docTotal q.docId (p :: ps)) u16Max := by
  induction ps generalizing p with
  | nil =>
    refine ⟨by simp [dedupFrom], by simp [dedupFrom], ?_⟩
    intro q hq
    obtain rfl : q = p := by simpa [dedupFrom] using hq
    have := hc q mem_cons_self
    simp [docTotal_cons, this]
  | cons r rs ih =>
    have hs' := hs
    simp only [map_cons, pairwise_cons] at hs'
    obtain ⟨hp, hr, hrs⟩ := hs'
    unfold dedupFrom
    split
    case isTrue heq =>
      -- the two postings of one document count once, with their capped sum
      obtain ⟨h1, h2, h3⟩ := ih (p := ⟨p.docId, min (p.termFreq + r.termFreq) u16Max⟩)
        (by
          simp only [map_cons, pairwise_cons]
          exact ⟨fun d hd => hp d (mem_cons_of_mem _ hd), hrs⟩)
        (by
          intro q hq
          rcases mem_cons.mp hq with rfl | hq
          · exact Nat.min_le_right ..
          · exact hc q (by simp [hq]))
      refine ⟨h1, ?_, ?_⟩
      · intro d
        rw [h2 d]
        simp [heq]
      · intro q hq
        rw [h3 q hq]
        simp only [docTotal_cons, ← heq]
        split <;> omega
    case isFalse hne =>
      obtain ⟨h1, h2, h3⟩ := ih (p := r) (pairwise_cons.mpr ⟨hr, hrs⟩)
        (fun q hq => hc q (mem_cons_of_mem _ hq))
      have hlt : ∀ d ∈ (r :: rs).map (·.docId), p.docId < d := by
        have hpr : p.docId < r.docId := lt_of_le_of_ne (hp r.docId (by simp)) hne
        exact forall_mem_cons.mpr ⟨hpr, fun d hd => hpr.trans_le (hr d hd)⟩
      refine ⟨?_, ?_, ?_⟩
      · rw [map_cons, pairwise_cons]
        exact ⟨fun d hd => hlt d ((h2 d).mp hd), h1⟩
      · intro d
        rw [map_cons, mem_cons, h2 d]
        simp only [map_cons, mem_cons]
      · intro q hq
        rcases mem_cons.mp hq with rfl | hq
        · have h0 : docTotal q.docId (r :: rs) = 0 := by
            rw [docTotal, filter_eq_nil_iff.mpr fun s hs => by simpa using (hlt _ (mem_map_of_mem hs)).ne']
            rfl
          rw [docTotal_cons, h0]
          have := hc q mem_cons_self
          simp [this]
        · have hqd : q.docId ∈ (r :: rs).map (·.docId) := (h2 _).mp (mem_map_of_mem hq)
          have hne' : p.docId ≠ q.docId := (hlt _ hqd).ne
          rw [h3 q hq, docTotal_cons (p := p), if_neg hne', Nat.zero_add]

/-- What the flush writes: sorted, one posting for each document, with the capped sum. -/
theorem Ok.written (h : self.Ok) :
    (self.written.map (·.docId)).Pairwise (· < ·) ∧
      (∀ d, d ∈ self.written.map (·.docId) ↔ d ∈ self.all.map (·.docId)) ∧
      ∀ q ∈ self.written, q.termFreq = min (docTotal q.docId self.all) u16Max := by
  unfold PostingListBuilder.written
  split
  case isTrue hnil =>
    have hall : self.all = self.postings := by simp [all, hnil]
    rw [hall]
    refine ⟨h.strict, fun _ => Iff.rfl, ?_⟩
    intro q hq
    -- documents are distinct, so the sum has one term
    have hle := h.capped q (by rw [hall]; exact hq)
    rw [docTotal, filter_key_eq_singleton h.strict hq]
    simp [hle]
  case isFalse hne =>
    cases hall : self.spilled ++ self.postings with
    | nil =>
      rw [append_eq_nil_iff] at hall
      exact absurd hall.1 hne
    | cons p ps =>
      have hs := h.sorted
      have hc := h.capped
      simp only [all, hall] at hs hc ⊢
      exact dedupFrom_spec hs hc

end PostingListBuilder

/-- `add_term_posting` for one term: a new term never spills, an indexed one spills when
`shouldSpill` says so after the addition. -/
def addTermPosting (shouldSpill : PostingListBuilder → Bool) (b : Option PostingListBuilder)
    (docId count : Nat) : PostingListBuilder :=
  match b with
  | some b =>
    if shouldSpill (b.add docId count) then (b.add docId count).spill else b.add docId count
  | none => PostingListBuilder.new.add docId count

/-- In-memory positions of a term: for each document its positions in the order of indexing. -/
structure PositionPostingListBuilder where
  postings : List (Nat × List Nat)
  deriving DecidableEq, Repr

namespace PositionPostingListBuilder

variable {self : PositionPostingListBuilder} {docId position : Nat}

def new : PositionPostingListBuilder := ⟨[]⟩

variable (self)

/-- Add a position for a document. -/
def addPosition (docId position : Nat) : PositionPostingListBuilder :=
  match self.postings.getLast? with
  | some (lastDoc, positions) =>
    if lastDoc = docId then ⟨self.postings.dropLast ++ [(lastDoc, positions ++ [position])]⟩
    else ⟨self.postings ++ [(docId, [position])]⟩
  | none => ⟨self.postings ++ [(docId, [position])]⟩

/-- What `build_positions_streaming` writes for each document: its positions, truncated. -/
def written : List (Nat × List Nat) :=
  self.postings.map fun d => (d.1, d.2.take u16Max)

/-- The positions recorded for document `u`. -/
def docPositions (u : Nat) : List Nat :=
  (self.postings.filter (·.1 = u)).flatMap (·.2)

variable {self}

theorem addPosition_of_last {init : List (Nat × List Nat)} {positions : List Nat}
    (h : self.postings = init ++ [(docId, positions)]) :
    self.addPosition docId position = ⟨init ++ [(docId, positions ++ [position])]⟩ := by
  simp [addPosition, h]

theorem addPosition_of_new (h : ∀ d ∈ self.postings, d.1 < docId) :
    self.addPosition docId position = ⟨self.postings ++ [(docId, [position])]⟩ := by
  rcases eq_nil_or_concat self.postings with hnil | ⟨init, last, hcat⟩
  · simp [addPosition, hnil]
  · have hne : last.1 ≠ docId := (h last (by simp [hcat])).ne
    simp [addPosition, hcat, hne]

end PositionPostingListBuilder

end Summa
