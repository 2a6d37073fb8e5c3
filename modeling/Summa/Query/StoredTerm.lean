import Summa.Query.PhraseRun
import Summa.Segment.Builder.PairPostings

/-!
# Terms of a segment as phrase terms

A phrase scorer reads the blocks and the position stream that a flush writes for a term. `Written` says
what the two lists of a flush have to agree on; `phraseTerm` is the term that the scorer reads then, and
`positionsIn_phraseTerm` its positions in a document.

* `written_term`: what the builder writes for a word with positions agrees, when the word occurs at most
  65535 times in each document.
-/

namespace Summa

open List

/-- The postings and positions that a flush writes for a term agree. -/
structure Written (postings : List Posting) (positions : List (Nat × List Nat)) : Prop where
  sorted : (postings.map (·.docId)).Pairwise (· < ·)
  bounded : ∀ p ∈ postings, p.docId < terminated
  docs : postings.map (·.docId) = positions.map (·.1)
  freqs : postings.map (·.termFreq) = positions.map (·.2.length)
  freq_lt : ∀ p ∈ postings, p.termFreq < 2 ^ 32
  positions_lt : ∀ d ∈ positions, ∀ p ∈ d.2, p < 2 ^ 32

namespace Written

open PositionStreamEncoder

variable {postings : List Posting} {positions : List (Nat × List Nat)}

/-- The blocks that are written for the postings, as iteration sees them. -/
def blocks (postings : List Posting) : List (List PostingEntry) :=
  (BlockPostingList.build postings true).blocks.map (·.entries)

variable (h : Written postings positions)

include h in
theorem flatten_blocks :
    (blocks postings).flatten = entriesFrom 0 postings := by
  exact BlockPostingList.entries_build h.sorted

include h in
/-- Each entry stands for a document and addresses its positions. -/
theorem entry {e : PostingEntry} (he : e ∈ entriesFrom 0 postings) :
    ∃ d ∈ positions, e.docId = d.1 ∧ e.termFreq = d.2.length ∧
      e.cursor + e.termFreq ≤ (encode (positions.map (·.2))).values.length ∧
      (encode (positions.map (·.2))).positionsAt e.cursor e.termFreq = d.2.insertionSort (· ≤ ·) := by
  obtain ⟨i, hi⟩ := getElem?_of_mem he
  rw [getElem?_entriesFrom, Option.map_eq_some_iff] at hi
  obtain ⟨p, hp, rfl⟩ := hi
  have hdoc := congrArg (·[i]?) h.docs
  have hfreq := congrArg (·[i]?) h.freqs
  simp only [getElem?_map, hp, Option.map_some] at hdoc hfreq
  obtain ⟨d, hd, hdoc⟩ := Option.map_eq_some_iff.mp hdoc.symm
  rw [hd, Option.map_some, Option.some.injEq] at hfreq
  -- the frequencies before the posting are the lengths of the position lists before it
  have hcursor : 0 + ((postings.take i).map (·.termFreq)).sum =
      (((positions.map (·.2)).take i).map length).sum := by
    rw [Nat.zero_add, map_take, h.freqs, map_take, map_map]
    rfl
  obtain ⟨htake, hfit⟩ := take_drop_encode
    (show (positions.map (·.2))[i]? = some d.2 by rw [getElem?_map, hd]; rfl)
  refine ⟨d, mem_of_getElem? hd, hdoc.symm, hfreq, ?_, ?_⟩
  · simp only [hcursor, hfreq]
    exact hfit
  · simp only [hcursor, hfreq, PositionStream.positionsAt, htake, absolute_docValues]

/-- The term that a phrase scorer reads. -/
def phraseTerm (h : Written postings positions) : PhraseTerm where
  blocks := blocks postings
  positions := encode (positions.map (·.2))
  nonempty := by
    intro es hes
    obtain ⟨b, hb, rfl⟩ := mem_map.mp hes
    exact (BlockPostingList.length_entries_buildBlocks h.sorted b hb).1
  short := by
    intro es hes
    obtain ⟨b, hb, rfl⟩ := mem_map.mp hes
    exact (BlockPostingList.length_entries_buildBlocks h.sorted b hb).2
  sorted := by
    rw [h.flatten_blocks, map_docId_entriesFrom]
    exact h.sorted
  bounded := by
    intro e he
    rw [h.flatten_blocks] at he
    have hmem : e.docId ∈ (entriesFrom 0 postings).map (·.docId) := mem_map_of_mem he
    rw [map_docId_entriesFrom] at hmem
    obtain ⟨p, hp, heq⟩ := mem_map.mp hmem
    exact heq ▸ h.bounded p hp
  admitted := (encode_spec _).1
  addressed := by
    intro e he
    rw [h.flatten_blocks] at he
    obtain ⟨d, -, -, -, hfit, -⟩ := h.entry he
    exact hfit
  freq_lt := by
    intro e he
    rw [h.flatten_blocks] at he
    obtain ⟨d, hd, -, hfreq, -⟩ := h.entry he
    have hmem : e.termFreq ∈ postings.map (·.termFreq) := by
      rw [h.freqs, hfreq]
      exact mem_map_of_mem hd
    obtain ⟨p, hp, heq⟩ := mem_map.mp hmem
    exact heq ▸ h.freq_lt p hp
  positions_lt := by
    intro e he p hp
    rw [h.flatten_blocks] at he
    obtain ⟨d, hd, -, -, -, heq⟩ := h.entry he
    rw [heq, mem_insertionSort] at hp
    exact h.positions_lt d hd p hp
  unique := by
    intro hu e he
    rw [h.flatten_blocks] at he
    obtain ⟨d, hd, -, -, -, heq⟩ := h.entry he
    rw [heq]
    exact (perm_insertionSort _ _).nodup_iff.mpr
      (nodup_of_uniquePositions hu d.2 (mem_map_of_mem hd))

include h in
theorem docs_phraseTerm :
    h.phraseTerm.entries.map (·.docId) = positions.map (·.1) := by
  rw [PhraseTerm.entries, show h.phraseTerm.blocks = blocks postings from rfl, h.flatten_blocks,
    map_docId_entriesFrom, h.docs]

include h in
/-- In a document the scorer reads the positions that were written for it, sorted. -/
theorem positionsIn_phraseTerm {d : Nat × List Nat}
    (hd : d ∈ positions) : h.phraseTerm.positionsIn d.1 = d.2.insertionSort (· ≤ ·) := by
  have hmem : d.1 ∈ h.phraseTerm.entries.map (·.docId) := by
    rw [h.docs_phraseTerm]
    exact mem_map_of_mem hd
  obtain ⟨e, he, hdoc⟩ := mem_map.mp hmem
  have he' : e ∈ entriesFrom 0 postings := h.flatten_blocks ▸ he
  obtain ⟨d', hd', hdoc', -, -, heq⟩ := h.entry he'
  obtain rfl : d = d' := by
    have hnodup : (positions.map (·.1)).Nodup := h.docs ▸ h.sorted.imp fun hlt => hlt.ne
    exact inj_on_of_nodup_map hnodup hd hd' (hdoc.symm.trans hdoc')
  rw [← hdoc, PhraseTerm.positionsIn_eq he]
  exact heq

end Written

namespace SegmentBuilder

variable {schema : TextSchema} {shouldSpill : PostingListBuilder → Bool} {docs : List TextDocument}
  {b : SegmentBuilder} {field : Nat} {mode : PositionMode} {per : List (List TextCall)} {word : Term}

theorem lt_of_callsAt {n u : Nat} (h : Recorded field n docs per) (hu : callsAt n per u ≠ []) :
    u < n + docs.length := by
  induction h with
  | nil => exact absurd rfl hu
  | @cons n doc docs cs per units tokens rest ih =>
    rw [callsAt] at hu
    rw [length_cons]
    split at hu
    · omega
    · have := ih hu
      omega

/-- What a segment stores for a word, as a phrase scorer reads it. -/
def StoresTerm (b : SegmentBuilder) (field : Nat) (word : Term) (t : PhraseTerm) : Prop :=
  ∃ postings positions, b.invertedIndex ⟨field, false, word⟩ = some postings ∧
    b.positionIndex ⟨field, false, word⟩ = some positions ∧
    t.blocks = Written.blocks postings.written ∧
    t.positions = PositionStreamEncoder.encode (positions.written.map (·.2))

/-- A word is stored as a phrase term that has its positions in every document, or it does not occur. -/
theorem written_term (hmode : positionMode schema field = some mode)
    (hle : ∀ doc ∈ docs, occurrences field word doc ≤ u16Max) (hids : docs.length ≤ terminated)
    (h : addDocuments schema shouldSpill docs = .ok b)
    (hcalls : documentCalls schema 0 (fun _ => 0) docs = .ok per.flatten) (hrec : Recorded field 0 docs per) :
    (b.invertedIndex ⟨field, false, word⟩ = none ∧
        ∀ d, wordPositions mode field word (callsAt 0 per d) = []) ∨
      ∃ t, b.StoresTerm field word t ∧ ∀ d, t.positionsIn d =
        (wordPositions mode field word (callsAt 0 per d)).insertionSort (· ≤ ·) := by
  obtain ⟨hinv, hpos⟩ := index_addDocuments field word h hcalls mode
  have hpos := hpos hmode
  have hne : ∀ v ∈ termValues mode field word per.flatten, v.2 ≠ [] := fun v hv => termValues_ne_nil hv
  have hs := termValues_sorted mode word (units_documentCalls hcalls field).1
  have hcount : ∀ u, valueCount u (termValues mode field word per.flatten) =
      (wordPositions mode field word (callsAt 0 per u)).length := by
    intro u
    rw [← length_flatMap_eq_valueCount, flatMap_termValues hrec]
  have hcap : ∀ u, valueCount u (termValues mode field word per.flatten) ≤ u16Max := fun u =>
    (hcount u).trans_le (length_wordPositions_le hrec hle u)
  cases hvs : termValues mode field word per.flatten with
  | nil =>
    refine .inl ⟨by rw [hinv, hvs]; rfl, fun d => ?_⟩
    rw [← flatMap_termValues hrec, hvs]
    rfl
  | cons v vs =>
    obtain ⟨pl, ql, hb, hq⟩ := runPostings_none_cons shouldSpill v vs
    rw [← hvs] at hb hq
    obtain ⟨hws, hwdocs, hwtf⟩ := runPostings_written hs hb
    obtain ⟨hqs, hqdocs, hqpos⟩ := runPositions_written hne hs hq
    have hdocs : pl.written.map (·.docId) = ql.written.map (·.1) :=
      eq_of_strict hws hqs fun d => (hwdocs d).trans (hqdocs d).symm
    have hpositions : ∀ d ∈ ql.written, d.2 = wordPositions mode field word (callsAt 0 per d.1) := by
      intro d hd
      rw [hqpos d hd, flatMap_termValues hrec]
      exact take_of_length_le ((hcount d.1) ▸ hcap d.1)
    have htf : ∀ p ∈ pl.written, p.termFreq =
        (wordPositions mode field word (callsAt 0 per p.docId)).length := by
      intro p hp
      have hkept := min_keptTotal_eq_iff.mpr (inStep_of_le shouldSpill (hcap p.docId))
      rw [hwtf p hp, hkept, countTotal_additions, Nat.min_eq_left (hcap _), hcount]
    have hmem : ∀ d, d ∈ ql.written.map (·.1) ↔ wordPositions mode field word (callsAt 0 per d) ≠ [] := by
      intro d
      rw [hqdocs d, mem_docs_iff hne, hcount, ne_eq, length_eq_zero_iff]
    have hwritten : Written pl.written ql.written :=
      { sorted := hws
        bounded := by
          intro p hp
          have hd : p.docId ∈ ql.written.map (·.1) := hdocs ▸ mem_map_of_mem hp
          have hcallsAt : callsAt 0 per p.docId ≠ [] := by
            intro hnil
            refine (hmem _).mp hd ?_
            rw [hnil]
            rfl
          have := lt_of_callsAt hrec hcallsAt
          omega
        docs := hdocs
        freqs := by
          have h1 : pl.written.map (·.termFreq) = (pl.written.map (·.docId)).map fun u =>
              (wordPositions mode field word (callsAt 0 per u)).length := by
            rw [map_map]
            exact map_congr_left htf
          rw [h1, hdocs, map_map]
          exact map_congr_left fun d hd => by rw [hpositions d hd]; rfl
        freq_lt := by
          intro p hp
          rw [htf p hp, ← hcount]
          exact lt_of_le_of_lt (hcap _) (by decide)
        positions_lt := by
          intro d hd p hp
          rw [hpositions d hd] at hp
          exact wordPositions_lt p hp }
    refine .inr ⟨hwritten.phraseTerm, ⟨pl, ql, hinv.trans hb, hpos.trans hq, rfl, rfl⟩, fun d => ?_⟩
    by_cases hd : d ∈ ql.written.map (·.1)
    · obtain ⟨doc, hdoc, rfl⟩ := mem_map.mp hd
      rw [hwritten.positionsIn_phraseTerm hdoc, ← hpositions doc hdoc]
    · have hnil : wordPositions mode field word (callsAt 0 per d) = [] := not_not.mp (mt (hmem d).mpr hd)
      rw [hnil, insertionSort_nil, eq_nil_iff_forall_not_mem]
      intro p hp
      exact hd (hwritten.docs_phraseTerm ▸ PhraseTerm.mem_docs_of_positionsIn hp)

end SegmentBuilder

end Summa
