import Summa.Query.DocSet

/-!
# Laws of document cursors

A cursor is described by the list of documents it has still to report. `LawfulCursor` says what each
method does to that list, `LawfulDocSet` adds the batch and window methods.

* The default batch and window methods of a lawful cursor are lawful (`LawfulCursor.docSet`).
* `SortedVecDocSet.lawful`, `BitsetDocSet.lawful`: the two leaves.

The law for windows has one exception. A window at `u32::MAX` is empty and ends where it starts, and a
`BitsetDocSet` that has documents left does not move then: `stuck` marks those states.
-/

namespace Summa

open List DocBitset Nat

/-! ## Documents still to report -/

/-- The document a cursor with `left` still to report stands on. -/
def front (left : List Nat) : Nat := left.headD terminated

@[simp] theorem front_nil : front [] = terminated := rfl

@[simp] theorem front_cons (d : Nat) (left : List Nat) : front (d :: left) = d := rfl

/-- Documents in strictly rising order. -/
structure RisingDocs (left : List Nat) : Prop where
  sorted : left.Pairwise (· < ·)
  below : ∀ d ∈ left, d < terminated

theorem SortedDocs.rising (docs : SortedDocs) : RisingDocs docs.docs := ⟨docs.sorted, docs.below⟩

/-- The documents of a list from `target` on. -/
def fromDoc (left : List Nat) (target : Nat) : List Nat := left.dropWhile (· < target)

namespace RisingDocs

variable {left other : List Nat} {d target : Nat}

section

variable (h : RisingDocs left)

include h

theorem sublist (hsub : other.Sublist left) : RisingDocs other :=
  ⟨h.sorted.sublist hsub, fun d hd => h.below d (hsub.subset hd)⟩

theorem tail : RisingDocs left.tail := h.sublist (tail_sublist _)

theorem filter (p : Nat → Bool) : RisingDocs (left.filter p) :=
  h.sublist filter_sublist

theorem fromDoc (target : Nat) : RisingDocs (fromDoc left target) :=
  h.sublist (dropWhile_suffix _).sublist

theorem mem_fromDoc : d ∈ Summa.fromDoc left target ↔ d ∈ left ∧ target ≤ d :=
  mem_dropWhile_lt h.sorted

theorem eq (h' : RisingDocs other) (hm : ∀ d, d ∈ left ↔ d ∈ other) : left = other :=
  eq_of_strict h.sorted h'.sorted hm

theorem front_le (hd : d ∈ left) : front left ≤ d := by
  cases left with
  | nil => cases hd
  | cons a left =>
    rcases mem_cons.mp hd with rfl | hd
    · exact le_refl _
    · exact ((pairwise_cons.mp h.sorted).1 d hd).le

theorem front_le_terminated : front left ≤ terminated := by
  cases left with
  | nil => exact le_refl _
  | cons a left => exact (h.below a mem_cons_self).le

theorem front_eq_terminated : front left = terminated ↔ left = [] := by
  cases left with
  | nil => simp
  | cons a left => simpa using (h.below a mem_cons_self).ne

end

theorem front_mem (hlt : front left < terminated) : front left ∈ left := by
  cases left with
  | nil => exact absurd hlt (lt_irrefl _)
  | cons a left => exact mem_cons_self

section

variable (h : RisingDocs left)

include h

/-- A seek finds `d` exactly when it is still to report. -/
theorem front_fromDoc_eq (hd : d < terminated) : front (Summa.fromDoc left d) = d ↔ d ∈ left := by
  constructor
  · intro hf
    have hm : d ∈ Summa.fromDoc left d := by
      have := front_mem (show front (Summa.fromDoc left d) < terminated by rw [hf]; exact hd)
      rwa [hf] at this
    exact (h.mem_fromDoc.mp hm).1
  · intro hm
    have hle := (h.fromDoc d).front_le (h.mem_fromDoc.mpr ⟨hm, le_refl _⟩)
    have hmem := front_mem (lt_of_le_of_lt hle hd)
    exact le_antisymm hle (h.mem_fromDoc.mp hmem).2

/-- A seek ends at or behind its target. -/
theorem le_front_fromDoc (ht : target ≤ terminated) : target ≤ front (Summa.fromDoc left target) := by
  by_cases hlt : front (Summa.fromDoc left target) < terminated
  · exact (h.mem_fromDoc.mp (front_mem hlt)).2
  · omega

theorem front_le_of_sublist (hsub : other.Sublist left) : front left ≤ front other := by
  by_cases hlt : front other < terminated
  · exact h.front_le (hsub.subset (front_mem hlt))
  · exact h.front_le_terminated.trans (not_lt.mp hlt)

theorem front_le_front_fromDoc (target : Nat) : front left ≤ front (Summa.fromDoc left target) :=
  h.front_le_of_sublist (dropWhile_suffix _).sublist

theorem front_le_front_tail : front left ≤ front left.tail := h.front_le_of_sublist (tail_sublist _)

theorem front_lt_front_tail (hne : left ≠ []) : front left < front left.tail := by
  obtain ⟨a, rest, rfl⟩ := exists_cons_of_ne_nil hne
  show a < front rest
  by_cases hlt : front rest < terminated
  · exact (pairwise_cons.mp h.sorted).1 _ (front_mem hlt)
  · exact (h.below a mem_cons_self).trans_le (not_lt.mp hlt)

theorem fromDoc_of_le (hle : ∀ d ∈ left, target ≤ d) : Summa.fromDoc left target = left :=
  (h.fromDoc target).eq h fun d => by rw [h.mem_fromDoc, and_iff_left_of_imp (hle d)]

theorem fromDoc_of_le_front (hle : target ≤ front left) : Summa.fromDoc left target = left :=
  h.fromDoc_of_le fun _ hd => hle.trans (h.front_le hd)

/-- A window that ends before the first document left is empty. -/
theorem not_mem_window {base : Nat} (hend : windowEnd base ≤ front left) (o : Nat) :
    ¬ (base + o ∈ left ∧ base + o < windowEnd base) := fun ⟨hm, hlt⟩ => by
  have := h.front_le hm
  omega

/-- Nothing is left from `terminated` on. -/
theorem fromDoc_terminated : Summa.fromDoc left terminated = [] := by
  rw [eq_nil_iff_forall_not_mem]
  intro d hd
  obtain ⟨hm, hle⟩ := h.mem_fromDoc.mp hd
  exact absurd (h.below d hm) (not_lt.mpr hle)

theorem filter_fromDoc (p : Nat → Bool) :
    (Summa.fromDoc left target).filter p = Summa.fromDoc (left.filter p) target := by
  refine ((h.fromDoc target).filter p).eq ((h.filter p).fromDoc target) fun d => ?_
  rw [mem_filter, h.mem_fromDoc, (h.filter p).mem_fromDoc, mem_filter]
  exact and_right_comm

theorem fromDoc_fromDoc {first : Nat} (hle : first ≤ target) :
    Summa.fromDoc (Summa.fromDoc left first) target = Summa.fromDoc left target := by
  refine ((h.fromDoc first).fromDoc target).eq (h.fromDoc target) fun d => ?_
  rw [(h.fromDoc first).mem_fromDoc, h.mem_fromDoc, h.mem_fromDoc]
  constructor
  · rintro ⟨⟨hm, -⟩, hd⟩
    exact ⟨hm, hd⟩
  · rintro ⟨hm, hd⟩
    exact ⟨⟨hm, hle.trans hd⟩, hd⟩

end

end RisingDocs

/-! ## Lawful cursors -/

/-- `Views s left`: in state `s` the cursor has exactly `left` still to report. -/
structure LawfulCursor {σ : Type} (cursor : Cursor σ) (Views : σ → List Nat → Prop) : Prop where
  rising : ∀ {s left}, Views s left → RisingDocs left
  doc : ∀ {s left}, Views s left → cursor.doc s = front left
  advance : ∀ {s left}, Views s left →
    (cursor.advance s).1 = front left.tail ∧ Views (cursor.advance s).2 left.tail
  seek : ∀ {s left}, Views s left → ∀ target,
    (cursor.seek s target).1 = front (fromDoc left target) ∧
      Views (cursor.seek s target).2 (fromDoc left target)

/-- The documents a batch method may be asked about: sorted, distinct and no more than a batch has. -/
structure Probes (docs : List Nat) : Prop extends RisingDocs docs where
  short : docs.length ≤ docBatchSize

/-- What is left after the documents `docs` have been sought in turn. -/
def afterProbes (left docs : List Nat) : List Nat :=
  match docs.getLast? with
  | some last => fromDoc left last
  | none => left

/-- The bits of a window at `base` over the documents `left`. -/
def WindowOf (window : DocWindow) (base : Nat) (left : List Nat) : Prop :=
  ∀ o < docWindowSize, window.contains o = true ↔ base + o ∈ left ∧ base + o < windowEnd base

/-- A cursor whose batch and window methods report the same documents. In a `stuck` state the window at
`terminated` leaves the documents that are left where they are. -/
structure LawfulDocSet {σ : Type} (docSet : DocSet σ) (Views : σ → List Nat → Prop) (stuck : σ → Bool) :
    Prop extends LawfulCursor docSet.toCursor Views where
  fillDocBatch : ∀ {s left}, Views s left → (docSet.fillDocBatch s).1 = left.take docBatchSize ∧
    Views (docSet.fillDocBatch s).2 (left.drop docBatchSize)
  retainDocBatch : ∀ {s left}, Views s left → ∀ {docs}, Probes docs →
    (docSet.retainDocBatch s docs).1 = docs.filter (· ∈ left) ∧
      Views (docSet.retainDocBatch s docs).2 (afterProbes left docs)
  fillDocWindow : ∀ {s left}, Views s left → ∀ {base}, base ≤ terminated →
    (base = terminated → stuck s = false) →
    WindowOf (docSet.fillDocWindow s base).1 base left ∧
      Views (docSet.fillDocWindow s base).2 (fromDoc left (windowEnd base))
  stuck_left : ∀ {s left}, Views s left → stuck s = true → left ≠ []
  stuck_window : ∀ {s left}, Views s left → stuck s = true →
    (∀ o < docWindowSize, (docSet.fillDocWindow s terminated).1.contains o = false) ∧
      Views (docSet.fillDocWindow s terminated).2 left

theorem windowEnd_le (base : Nat) : windowEnd base ≤ terminated := min_le_right _ _

theorem length_set (bits : DocBitset) (d : Nat) : (bits.set d).bits.length = bits.bits.length := by
  simp [DocBitset.set]

namespace LawfulCursor

variable {σ : Type} {cursor : Cursor σ} {Views : σ → List Nat → Prop} {s : σ} {left : List Nat}

section

variable (law : LawfulCursor cursor Views)

include law

theorem fillBatchLoop (room : Nat) (h : Views s left) :
    (cursor.fillBatchLoop room (front left) s).1 = left.take room ∧
      Views (cursor.fillBatchLoop room (front left) s).2 (left.drop room) := by
  induction room generalizing s left with
  | zero => simpa [Cursor.fillBatchLoop] using h
  | succ room ih =>
    cases left with
    | nil => simpa [Cursor.fillBatchLoop] using h
    | cons d left =>
      have hd : d ≠ terminated := ((law.rising h).below d mem_cons_self).ne
      obtain ⟨hnext, hview⟩ := law.advance h
      simp only [Cursor.fillBatchLoop, front_cons, hd, ↓reduceIte, take_succ_cons,
        drop_succ_cons]
      rw [tail_cons] at hnext hview
      obtain ⟨hdocs, hrest⟩ := ih hview
      rw [hnext]
      exact ⟨by rw [hdocs], hrest⟩

theorem fillBatch (h : Views s left) : (cursor.fillBatch s).1 = left.take docBatchSize ∧
    Views (cursor.fillBatch s).2 (left.drop docBatchSize) := by
  rw [Cursor.fillBatch, law.doc h]
  exact law.fillBatchLoop docBatchSize h

theorem retainBatch (h : Views s left) {docs : List Nat} (hdocs : RisingDocs docs) :
    (cursor.retainBatch s docs).1 = docs.filter (· ∈ left) ∧
      Views (cursor.retainBatch s docs).2 (afterProbes left docs) := by
  induction docs generalizing s left with
  | nil => exact ⟨rfl, h⟩
  | cons d docs ih =>
    have hrise := law.rising h
    have hd := hdocs.below d mem_cons_self
    have hlater := (pairwise_cons.mp hdocs.sorted).1
    obtain ⟨hfound, hview⟩ := law.seek h d
    obtain ⟨hkept, hrest⟩ := ih hview hdocs.tail
    -- the later probes lie behind `d`, so the seek drops none of them
    have hsame : docs.filter (· ∈ fromDoc left d) = docs.filter (· ∈ left) := by
      apply filter_congr
      intro e he
      rw [decide_eq_decide, hrise.mem_fromDoc, and_iff_left (hlater e he).le]
    have hafter : afterProbes (fromDoc left d) docs = afterProbes left (d :: docs) := by
      cases hlast : docs.getLast? with
      | none => rw [getLast?_eq_none_iff.mp hlast]; rfl
      | some last =>
        have hmem := mem_of_getLast? hlast
        obtain ⟨e, rest, rfl⟩ := exists_cons_of_ne_nil (ne_nil_of_mem hmem)
        simp only [afterProbes, getLast?_cons_cons, hlast]
        exact hrise.fromDoc_fromDoc (hlater last hmem).le
    simp only [Cursor.retainBatch]
    rw [hfound, hkept, hsame, ← hafter, filter_cons]
    refine ⟨?_, hrest⟩
    by_cases hm : d ∈ left
    · rw [if_pos ((hrise.front_fromDoc_eq hd).mpr hm), if_pos (decide_eq_true hm)]
    · rw [if_neg (mt (hrise.front_fromDoc_eq hd).mp hm), if_neg (by simpa using hm)]

theorem fillWindowLoop {base turns : Nat} {bits : DocWindow} (h : Views s left)
    (hbits : bits.bits.length = docWindowWords) (hbase : ∀ d ∈ left, base ≤ d)
    (hturns : windowEnd base ≤ front left + turns) :
    (∀ o < docWindowSize, (cursor.fillWindowLoop base turns (front left) bits s).1.contains o = true ↔
      bits.contains o = true ∨ base + o ∈ left ∧ base + o < windowEnd base) ∧
    Views (cursor.fillWindowLoop base turns (front left) bits s).2 (fromDoc left (windowEnd base)) := by
  -- a turn sets the bit of the first document left and moves behind it
  induction turns generalizing s left bits with
  | zero =>
    have hrise := law.rising h
    rw [hrise.fromDoc_of_le_front hturns]
    exact ⟨fun o _ => (or_iff_left (hrise.not_mem_window hturns o)).symm, h⟩
  | succ turns ih =>
    have hrise := law.rising h
    by_cases hlt : front left < windowEnd base
    · have hne : left ≠ [] := fun h0 => by
        have := windowEnd_le base
        rw [h0, front_nil] at hlt
        omega
      obtain ⟨d, rest, rfl⟩ := exists_cons_of_ne_nil hne
      rw [front_cons] at hlt hturns
      obtain ⟨hnext, hview⟩ := law.advance h
      rw [tail_cons] at hnext hview
      have hd := hbase d mem_cons_self
      have hoff : d - base < docWindowSize := by
        have : windowEnd base ≤ base + docWindowSize := min_le_left _ _
        omega
      have hword : (d - base) / 64 < bits.bits.length := by
        rw [hbits]
        simp only [docWindowSize, docWindowWords] at hoff ⊢
        omega
      have hstep := hrise.front_lt_front_tail hne
      rw [front_cons, tail_cons] at hstep
      have hbits' : (bits.set (d - base)).bits.length = docWindowWords := by rw [length_set, hbits]
      obtain ⟨hset, hrest⟩ := ih hview hbits' (fun e he => hbase e (mem_cons_of_mem _ he)) (by omega)
      have hdrop : fromDoc (d :: rest) (windowEnd base) = fromDoc rest (windowEnd base) :=
        dropWhile_cons_of_pos (by simpa using hlt)
      simp only [Cursor.fillWindowLoop, front_cons, if_pos hlt, hnext, hdrop]
      refine ⟨fun o ho => ?_, hrest⟩
      rw [hset o ho, contains_set _ _ _ hword, Bool.or_eq_true, decide_eq_true_iff,
        mem_cons, or_assoc]
      refine or_congr_right ?_
      constructor
      · rintro (rfl | ⟨hm, hend⟩)
        · have : base + (d - base) = d := by omega
          exact ⟨.inl this, by omega⟩
        · exact ⟨.inr hm, hend⟩
      · rintro ⟨hm | hm, hend⟩
        · exact .inl (by omega)
        · exact .inr ⟨hm, hend⟩
    · rw [Cursor.fillWindowLoop, if_neg hlt, hrise.fromDoc_of_le_front (not_lt.mp hlt)]
      exact ⟨fun o _ => (or_iff_left (hrise.not_mem_window (not_lt.mp hlt) o)).symm, h⟩

theorem fillWindow {base : Nat} (h : Views s left) (hb : base ≤ terminated) :
    WindowOf (cursor.fillWindow s base).1 base left ∧
      Views (cursor.fillWindow s base).2 (fromDoc left (windowEnd base)) := by
  have hrise := law.rising h
  obtain ⟨hfirst, hview⟩ := law.seek h base
  have hge := hrise.le_front_fromDoc hb
  have hend : windowEnd base ≤ base + docWindowSize := min_le_left _ _
  have hzero : DocWindow.zero.bits.length = docWindowWords := by
    rfl
  have hturns : windowEnd base ≤ front (fromDoc left base) + docWindowSize := by omega
  obtain ⟨hset, hrest⟩ :=
    law.fillWindowLoop hview hzero (fun d hd => (hrise.mem_fromDoc.mp hd).2) hturns
  rw [Cursor.fillWindow, hfirst]
  refine ⟨fun o ho => ?_, ?_⟩
  · rw [hset o ho, DocWindow.zero, contains_new, hrise.mem_fromDoc]
    simp
  · have hle : base ≤ windowEnd base := Nat.le_min.mpr ⟨by omega, hb⟩
    rwa [hrise.fromDoc_fromDoc hle] at hrest

end

/-- A cursor with the default methods. -/
theorem docSet (law : LawfulCursor cursor Views) :
    LawfulDocSet { toCursor := cursor } Views fun _ => false where
  toLawfulCursor := law
  fillDocBatch := law.fillBatch
  retainDocBatch h _ hdocs := law.retainBatch h hdocs.toRisingDocs
  fillDocWindow h base hb _ := by
    dsimp only
    exact law.fillWindow h hb
  stuck_left _ hs := absurd hs Bool.false_ne_true
  stuck_window _ hs := absurd hs Bool.false_ne_true

end LawfulCursor

/-! ## Sorted vectors -/

namespace SortedVecDocSet

/-- What a vector cursor has still to report. -/
def left (self : SortedVecDocSet) : List Nat := self.docs.drop self.pos

def Views (self : SortedVecDocSet) (left : List Nat) : Prop := self.left = left

variable (self : SortedVecDocSet)

theorem rising_left : RisingDocs self.left := self.rising.sublist (drop_sublist _ _)

theorem doc_eq : self.doc = front self.left := by
  rw [doc, left, front, headD_eq_head?_getD, head?_drop]

theorem left_skip (count : Nat) : (self.skip count).left = self.left.drop count := by
  simp only [left, skip, drop_drop]
  by_cases h : self.pos + count ≤ self.docs.length
  · rw [min_eq_left h]
  · rw [min_eq_right (by omega), drop_length, drop_eq_nil_of_le (by omega)]

theorem left_advance : (self.advance).2.left = self.left.tail := by
  unfold advance
  by_cases h : self.pos < self.docs.length
  · simp only [h, ↓reduceIte]
    rw [left_skip, drop_one]
  · simp only [h, ↓reduceIte]
    rw [left, drop_eq_nil_of_le (by omega), tail_nil]

theorem seek_eq (target : Nat) : (self.seek target).1 = (self.seek target).2.doc ∧
    (self.seek target).2.left = fromDoc self.left target := by
  have hskip : (self.skip (self.left.takeWhile (· < target)).length).left = fromDoc self.left target := by
    rw [left_skip, fromDoc, drop_length_takeWhile]
  unfold seek
  by_cases h : self.docs.length ≤ self.pos
  · have hnil : self.left = [] := drop_eq_nil_of_le h
    simp only [h, ↓reduceIte]
    exact ⟨by rw [doc_eq, hnil, front_nil], by rw [hnil]; rfl⟩
  · simp only [h, ↓reduceIte, binarySearch]
    split
    · next offset heq =>
      split at heq <;> cases heq
      exact ⟨rfl, hskip⟩
    · next offset heq =>
      split at heq <;> cases heq
      exact ⟨rfl, hskip⟩

theorem lawfulCursor : LawfulCursor docSet.toCursor Views where
  rising := by
    rintro s left rfl
    exact s.rising_left
  doc := by
    rintro s left rfl
    exact s.doc_eq
  advance := by
    rintro s left rfl
    refine ⟨?_, s.left_advance⟩
    show s.advance.2.doc = _
    rw [doc_eq, left_advance]
  seek := by
    rintro s left rfl target
    obtain ⟨hdoc, hleft⟩ := s.seek_eq target
    refine ⟨?_, hleft⟩
    show (s.seek target).1 = _
    rw [hdoc, doc_eq, hleft]

theorem lawful : LawfulDocSet docSet Views fun _ => false where
  toLawfulCursor := lawfulCursor
  fillDocBatch := by
    rintro s left rfl
    have hlen : s.left.length = s.docs.length - s.pos := length_drop ..
    refine ⟨?_, (s.left_skip _).trans ?_⟩
    · show s.left.take (min (s.docs.length - s.pos) docBatchSize) = _
      rw [← hlen, min_comm, ← take_eq_take_min]
    · rw [← hlen]
      rcases le_total s.left.length docBatchSize with hle | hle
      · rw [min_eq_left hle, drop_length, drop_eq_nil_of_le hle]
      · rw [min_eq_right hle]
  retainDocBatch h _ hdocs := lawfulCursor.retainBatch h hdocs.toRisingDocs
  fillDocWindow h base hb _ := by
    dsimp only [docSet]
    exact lawfulCursor.fillWindow h hb
  stuck_left _ hs := absurd hs Bool.false_ne_true
  stuck_window _ hs := absurd hs Bool.false_ne_true

end SortedVecDocSet

/-! ## Bitmaps -/

namespace BitsetDocSet

/-- A bitmap cursor has the documents of the map from the current one on. -/
structure Views (s : BitsetDocSet) (left : List Nat) : Prop where
  rising : RisingDocs left
  mem : ∀ d, d ∈ left ↔ s.bits.contains d = true ∧ s.current ≤ d
  current : s.current = front left

/-- A cursor with documents left does not move for the empty window at the end. -/
def stuck (self : BitsetDocSet) : Bool := self.current != terminated

variable {self : BitsetDocSet} {left : List Nat}

theorem nextSetBit_getD {target : Nat} (hr : RisingDocs left)
    (hmem : ∀ d, d ∈ left ↔ self.bits.contains d = true ∧ target ≤ d) :
    (self.bits.nextSetBit target).getD terminated = front left := by
  cases hnext : self.bits.nextSetBit target with
  | none =>
    have hnil : left = [] := by
      rw [eq_nil_iff_forall_not_mem]
      intro d hd
      obtain ⟨hc, hle⟩ := (hmem d).mp hd
      rw [(nextSetBit_eq_none _ _).mp hnext d hle] at hc
      cases hc
    rw [hnil]
    rfl
  | some e =>
    obtain ⟨hle, hc, hfirst⟩ := nextSetBit_eq_some hnext
    have hfront := hr.front_le ((hmem e).mpr ⟨hc, hle⟩)
    have hin := RisingDocs.front_mem (hfront.trans_lt (self.below e hc))
    obtain ⟨hcf, hlf⟩ := (hmem _).mp hin
    rcases hfront.lt_or_eq with hlt | heq
    · rw [hfirst _ hlf hlt] at hcf
      cases hcf
    · exact heq.symm

/-- The cursor moved to the first document from `target` on. -/
theorem views_of_target (self : BitsetDocSet) {left : List Nat} {target : Nat} (hr : RisingDocs left)
    (hmem : ∀ d, d ∈ left ↔ self.bits.contains d = true ∧ target ≤ d) :
    Views { self with current := (self.bits.nextSetBit target).getD terminated } left := by
  have hfront := nextSetBit_getD hr hmem
  refine ⟨hr, fun d => ?_, hfront⟩
  show d ∈ left ↔ self.bits.contains d = true ∧ (self.bits.nextSetBit target).getD terminated ≤ d
  rw [hfront, hmem]
  refine and_congr_right fun hc => ⟨fun hle => hr.front_le ((hmem d).mpr ⟨hc, hle⟩), fun hle => ?_⟩
  have hin := RisingDocs.front_mem (hle.trans_lt (self.below d hc))
  exact ((hmem _).mp hin).2.trans hle

theorem Views.mem_fromDoc (h : Views self left) {target d : Nat} (hle : self.current ≤ target) :
    d ∈ fromDoc left target ↔ self.bits.contains d = true ∧ target ≤ d := by
  rw [h.rising.mem_fromDoc, h.mem, and_assoc]
  exact and_congr_right fun _ => ⟨And.right, fun ht => ⟨hle.trans ht, ht⟩⟩

theorem Views.seek (h : Views self left) (target : Nat) :
    (self.seek target).1 = front (fromDoc left target) ∧
      Views (self.seek target).2 (fromDoc left target) := by
  unfold BitsetDocSet.seek
  by_cases hlt : self.current < target
  · have hmem : ∀ d, d ∈ fromDoc left target ↔ self.bits.contains d = true ∧ target ≤ d := fun d =>
      h.mem_fromDoc hlt.le
    simp only [hlt, ↓reduceIte]
    exact ⟨nextSetBit_getD (h.rising.fromDoc _) hmem, views_of_target _ (h.rising.fromDoc _) hmem⟩
  · have hsame := h.rising.fromDoc_of_le_front (h.current ▸ not_lt.mp hlt)
    simp only [hlt, ↓reduceIte, hsame]
    exact ⟨h.current, h⟩

theorem lawfulCursor : LawfulCursor docSet.toCursor Views where
  rising h := h.rising
  doc h := h.current
  advance := by
    intro s left h
    -- the advance is a seek behind the current document
    have hseek := h.seek (min (s.current + 1) terminated)
    have htail : fromDoc left (min (s.current + 1) terminated) = left.tail := by
      cases left with
      | nil => rfl
      | cons d rest =>
        have hcur : s.current = d := h.current
        have hd := h.rising.below d mem_cons_self
        have hlater := (pairwise_cons.mp h.rising.sorted).1
        rw [hcur, min_eq_left hd, fromDoc, dropWhile_cons_of_pos (by simp)]
        exact h.rising.tail.fromDoc_of_le fun e he => hlater e he
    rw [htail] at hseek
    exact hseek
  seek h target := h.seek target

theorem getLsbD_word (index : Nat) {i : Nat} (hi : i < 64) :
    (self.word index).getLsbD i = self.bits.contains (64 * index + i) := by
  rw [contains_eq, show (64 * index + i) / 64 = index by omega,
    show (64 * index + i) % 64 = i by omega, word]
  cases self.bits.bits[index]? with
  | none => simp
  | some w => rfl

/-- A shifted word holds the 64 bits from its place in the window on. -/
theorem getLsbD_shiftedWord (base offset : Nat) {i : Nat} (hi : i < 64) :
    (self.shiftedWord base offset).getLsbD i = self.bits.contains (base + 64 * offset + i) := by
  have hlow : (self.word (base / 64 + offset) >>> (base % 64)).getLsbD i =
      (self.word (base / 64 + offset)).getLsbD (base % 64 + i) := BitVec.getLsbD_ushiftRight ..
  unfold shiftedWord
  by_cases hin : base % 64 + i < 64
  · -- the bit lies in the first of the two words
    have hfirst : (self.word (base / 64 + offset)).getLsbD (base % 64 + i) =
        self.bits.contains (base + 64 * offset + i) := by
      rw [getLsbD_word _ hin]
      congr 1
      omega
    by_cases h0 : base % 64 = 0
    · simp only [h0, ne_eq, not_true_eq_false, ↓reduceIte]
      rw [h0] at hlow
      rw [hlow, ← hfirst, h0]
    · simp only [h0, ne_eq, not_false_eq_true, ↓reduceIte]
      rw [BitVec.getLsbD_or, hlow, hfirst, BitVec.getLsbD_shiftLeft,
        show decide (i < 64 - base % 64) = true by simp; omega]
      simp
  · have h0 : base % 64 ≠ 0 := by omega
    have hnone : (self.word (base / 64 + offset)).getLsbD (base % 64 + i) = false :=
      BitVec.getLsbD_of_ge _ _ (by omega)
    simp only [h0, ne_eq, not_false_eq_true, ↓reduceIte]
    rw [BitVec.getLsbD_or, hlow, hnone, BitVec.getLsbD_shiftLeft,
      show decide (i < 64 - base % 64) = false by simp; omega, getLsbD_word _ (by omega)]
    simp only [hi, decide_true, Bool.not_false, Bool.and_self, Bool.true_and, Bool.false_or]
    congr 1
    omega

theorem contains_clearConsumed {window : List (BitVec 64)} {consumed o : Nat} :
    contains ⟨clearConsumed window consumed⟩ o =
      (contains ⟨window⟩ o && decide (consumed ≤ o)) := by
  have ho := mod_lt o (show 64 > 0 by omega)
  rw [contains_eq, contains_eq, clearConsumed]
  simp only [getElem?_modify]
  have hword (hle : consumed / 64 ≤ o / 64) :
      (replicate (consumed / 64) 0#64 ++ window.drop (consumed / 64))[o / 64]? = window[o / 64]? := by
    rw [getElem?_append_right (by simpa using hle), length_replicate, getElem?_drop,
      Nat.add_sub_cancel' hle]
  rcases lt_trichotomy (o / 64) (consumed / 64) with hlt | heq | hgt
  · -- a word that was consumed whole
    rw [getElem?_append_left (by simpa using hlt), getElem?_replicate, if_pos hlt,
      decide_eq_false (show ¬ consumed ≤ o by omega), Bool.and_false]
    simp [show ¬ consumed / 64 = o / 64 by omega]
  · -- the word the consumed bits end in
    rw [hword heq.ge]
    cases window[o / 64]? with
    | none => rfl
    | some w =>
      have hiff : decide (consumed ≤ o) = !decide (o % 64 < consumed % 64) := by
        rw [← decide_not, decide_eq_decide]
        omega
      simp only [heq, ↓reduceIte, Option.map_eq_map, Option.map_some, Option.getD_some,
        BitVec.getLsbD_and, BitVec.getLsbD_shiftLeft, BitVec.getLsbD_allOnes, ho, decide_true,
        show o % 64 - consumed % 64 < 64 by omega, Bool.true_and, Bool.and_true, hiff]
  · rw [hword hgt.le, decide_eq_true (show consumed ≤ o by omega), Bool.and_true]
    simp [show ¬ consumed / 64 = o / 64 by omega]

theorem contains_shifted {base o : Nat} (ho : o < docWindowSize) :
    contains ⟨(range docWindowWords).map (self.shiftedWord base)⟩ o =
      self.bits.contains (base + o) := by
  have hw : o / 64 < docWindowWords := by
    simp only [docWindowSize, docWindowWords] at ho ⊢
    omega
  rw [contains_eq, getElem?_map, getElem?_range hw]
  show (self.shiftedWord base (o / 64)).getLsbD (o % 64) = _
  rw [getLsbD_shiftedWord _ _ (mod_lt o (by omega))]
  congr 1
  omega

theorem Views.fillDocWindow (h : Views self left) {base : Nat} (hb : base ≤ terminated)
    (hstuck : base = terminated → self.stuck = false) :
    WindowOf (self.fillDocWindow base).1 base left ∧
      Views (self.fillDocWindow base).2 (fromDoc left (windowEnd base)) := by
  have hend : windowEnd base ≤ base + docWindowSize := min_le_left _ _
  unfold BitsetDocSet.fillDocWindow
  by_cases hle : windowEnd base ≤ max base self.current
  · -- an empty window: the documents left lie behind it, or there are none
    have hcur : windowEnd base ≤ self.current := by
      rcases hb.lt_or_eq with hlt | rfl
      · have : base < windowEnd base := Nat.lt_min.mpr ⟨by simp [docWindowSize, docWindowWords], hlt⟩
        omega
      · have hdone := hstuck rfl
        rw [stuck, bne_eq_false_iff_eq] at hdone
        rw [hdone]
        exact windowEnd_le _
    simp only [hle, ↓reduceIte]
    rw [h.current] at hcur
    rw [h.rising.fromDoc_of_le_front hcur]
    refine ⟨fun o _ => ?_, h⟩
    rw [DocWindow.zero, contains_new]
    exact iff_of_false nofun (h.rising.not_mem_window hcur o)
  · simp only [hle, ↓reduceIte]
    refine ⟨fun o ho => ?_, views_of_target _ (h.rising.fromDoc _) fun d => h.mem_fromDoc (by omega)⟩
    rw [contains_clearConsumed, contains_shifted ho, Bool.and_eq_true,
      decide_eq_true_iff, h.mem]
    constructor
    · rintro ⟨hc, hcons⟩
      have hbelow := self.below _ hc
      exact ⟨⟨hc, by omega⟩, Nat.lt_min.mpr ⟨by omega, hbelow⟩⟩
    · rintro ⟨⟨hc, hcur⟩, -⟩
      exact ⟨hc, by omega⟩

theorem fillDocWindow_terminated : self.fillDocWindow terminated = (.zero, self) := by
  have : windowEnd terminated ≤ max terminated self.current :=
    (windowEnd_le _).trans (le_max_left _ _)
  simp only [fillDocWindow, this, ↓reduceIte]

theorem lawful : LawfulDocSet docSet Views stuck where
  toLawfulCursor := lawfulCursor
  fillDocBatch := lawfulCursor.fillBatch
  retainDocBatch h _ hdocs := lawfulCursor.retainBatch h hdocs.toRisingDocs
  fillDocWindow h _ hb hs := by
    dsimp only [docSet]
    exact h.fillDocWindow hb hs
  stuck_left := by
    rintro s left h hs rfl
    rw [stuck, h.current] at hs
    exact absurd hs (by simp)
  stuck_window := by
    intro s left h _
    dsimp only [docSet]
    rw [fillDocWindow_terminated]
    exact ⟨fun o _ => contains_new _ _, h⟩

end BitsetDocSet

end Summa
