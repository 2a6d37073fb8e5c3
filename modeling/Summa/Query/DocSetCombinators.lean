import Summa.Query.DocSetSpec

/-!
# Laws of the cursor combinators

* `IntersectionDocSet.lawful`: over two lawful cursors, the intersection reports the documents both
  have left.
* `PredicatedScorer.lawful`: over a lawful driver and lawful verifiers, the filtered cursor reports the
  driver's documents that pass every filter.

A verifier is only sought forward, so what matters about it is which documents from some point on it
still has: `CursorVec.Decides`.
-/

namespace Summa

/-! ## Intersections -/

/-- The documents of both lists. -/
def common (left right : List Nat) : List Nat := left.filter (· ∈ right)

variable {left right : List Nat}

theorem mem_common {d : Nat} : d ∈ common left right ↔ d ∈ left ∧ d ∈ right := by
  simp [common]

theorem RisingDocs.common (h : RisingDocs left) (right : List Nat) : RisingDocs (common left right) :=
  h.filter _

/-- Both cursors stand on one document, or one of them is at its end. -/
def CursorsAligned (left right : List Nat) : Prop := left = [] ∨ right = [] ∨ front left = front right

theorem common_nil_right (left : List Nat) : common left [] = [] := by simp [common]

theorem mem_of_front_eq {a : Nat} (hl : RisingDocs (a :: left)) (h : front (a :: left) = front right) :
    a ∈ right := by
  rw [front_cons] at h
  rw [h]
  exact RisingDocs.front_mem (h ▸ hl.below a List.mem_cons_self)

/-- CursorsAligned cursors stand on the first common document. -/
theorem CursorsAligned.front_common (hl : RisingDocs left) (hr : RisingDocs right)
    (h : CursorsAligned left right) :
    front (common left right) =
      if front left = terminated ∨ front right = terminated then terminated else front left := by
  rcases h with rfl | rfl | h
  · simp [common]
  · simp [common_nil_right]
  · cases left with
    | nil => simp [common]
    | cons a left =>
      have ha : a < terminated := hl.below a List.mem_cons_self
      have hmem := mem_of_front_eq hl h
      rw [if_neg (by rw [← h, front_cons]; omega)]
      simp [common, hmem]

theorem CursorsAligned.common_tail (hl : RisingDocs left) (h : CursorsAligned left right) :
    common left.tail right = (common left right).tail := by
  rcases h with rfl | rfl | h
  · rfl
  · simp [common_nil_right]
  · cases left with
    | nil => rfl
    | cons a left =>
      simp [common, mem_of_front_eq hl h]

theorem common_fromDoc_left (hl : RisingDocs left) {target : Nat}
    (h : ∀ d ∈ right, target ≤ d) : common (fromDoc left target) right = common left right := by
  refine ((hl.fromDoc _).common _).eq (hl.common _) fun d => ?_
  rw [mem_common, mem_common, hl.mem_fromDoc, and_assoc]
  exact and_congr_right fun _ => and_iff_right_of_imp (h d)

theorem common_fromDoc_right (hr : RisingDocs right) {target : Nat}
    (h : ∀ d ∈ left, target ≤ d) : common left (fromDoc right target) = common left right := by
  apply List.filter_congr
  intro d hd
  rw [decide_eq_decide, hr.mem_fromDoc]
  exact and_iff_left (h d hd)

namespace IntersectionDocSet

variable {α β : Type} {A : Cursor α} {B : Cursor β} {AViews : α → List Nat → Prop}
  {BViews : β → List Nat → Prop}

/-- Both cursors are lawful and aligned; the documents they share are left. -/
def Views (AViews : α → List Nat → Prop) (BViews : β → List Nat → Prop) (s : IntersectionDocSet α β)
    (left : List Nat) : Prop :=
  ∃ la lb, AViews s.a la ∧ BViews s.b lb ∧ CursorsAligned la lb ∧ left = common la lb

section

variable (lawA : LawfulCursor A AViews) (lawB : LawfulCursor B BViews)

include lawA lawB

theorem alignLoop_spec {turns : Nat} {s : IntersectionDocSet α β} {la lb : List Nat}
    (ha : AViews s.a la) (hb : BViews s.b lb) (hturns : 2 * terminated < front la + front lb + turns) :
    (alignLoop A B turns (front la) (front lb) s).1 = front (common la lb) ∧
      Views AViews BViews (alignLoop A B turns (front la) (front lb) s).2 (common la lb) := by
  have hla := lawA.rising ha
  have hlb := lawB.rising hb
  -- a turn that does not end the loop raises one of the two fronts
  induction turns generalizing s la lb with
  | zero =>
    have := hla.front_le_terminated
    have := hlb.front_le_terminated
    omega
  | succ turns ih =>
    unfold alignLoop
    by_cases hend : front la = terminated ∨ front lb = terminated
    · have hal : CursorsAligned la lb := by
        rcases hend with h | h
        · exact .inl (hla.front_eq_terminated.mp h)
        · exact .inr (.inl (hlb.front_eq_terminated.mp h))
      rw [if_pos hend]
      refine ⟨?_, la, lb, ha, hb, hal, rfl⟩
      rw [hal.front_common hla hlb, if_pos hend]
    rw [if_neg hend]
    by_cases heq : front la = front lb
    · have hal : CursorsAligned la lb := .inr (.inr heq)
      rw [if_pos heq]
      refine ⟨?_, la, lb, ha, hb, hal, rfl⟩
      rw [hal.front_common hla hlb, if_neg hend]
    rw [if_neg heq]
    by_cases hlt : front la < front lb
    · obtain ⟨hfound, hview⟩ := lawA.seek ha (front lb)
      have hge := hla.le_front_fromDoc hlb.front_le_terminated
      rw [if_pos hlt, ← common_fromDoc_left hla fun d hd => hlb.front_le hd]
      simp only [hfound]
      exact ih hview hb (by omega) (hla.fromDoc _) hlb
    · obtain ⟨hfound, hview⟩ := lawB.seek hb (front la)
      have hge := hlb.le_front_fromDoc hla.front_le_terminated
      rw [if_neg hlt, ← common_fromDoc_right hlb fun d hd => hla.front_le hd]
      simp only [hfound]
      exact ih ha hview (by omega) hla (hlb.fromDoc _)

theorem align_spec {s : IntersectionDocSet α β} {la lb : List Nat} (ha : AViews s.a la) (hb : BViews s.b lb) :
    (align A B (front la) (front lb) s).1 = front (common la lb) ∧
      Views AViews BViews (align A B (front la) (front lb) s).2 (common la lb) :=
  alignLoop_spec lawA lawB ha hb (by omega)

theorem views_new {a : α} {b : β} {la lb : List Nat} (ha : AViews a la) (hb : BViews b lb) :
    Views AViews BViews (new A B a b) (common la lb) := by
  rw [new, lawA.doc ha, lawB.doc hb]
  exact (align_spec lawA lawB ha hb).2

theorem lawfulCursor : LawfulCursor (docSet A B).toCursor (Views AViews BViews) where
  rising := by
    rintro s left ⟨la, lb, ha, -, -, rfl⟩
    exact (lawA.rising ha).common lb
  doc := by
    rintro s left ⟨la, lb, ha, hb, hal, rfl⟩
    rw [hal.front_common (lawA.rising ha) (lawB.rising hb)]
    show doc A B s = _
    rw [doc, lawA.doc ha, lawB.doc hb]
  advance := by
    rintro s left ⟨la, lb, ha, hb, hal, rfl⟩
    obtain ⟨hnext, hview⟩ := lawA.advance ha
    rw [← hal.common_tail (lawA.rising ha)]
    show (advance A B s).1 = _ ∧ Views AViews BViews (advance A B s).2 _
    simp only [advance, hnext, lawB.doc hb]
    exact align_spec lawA lawB hview hb
  seek := by
    rintro s left ⟨la, lb, ha, hb, -, rfl⟩ target
    obtain ⟨hfa, hva⟩ := lawA.seek ha target
    obtain ⟨hfb, hvb⟩ := lawB.seek hb target
    have hcommon : fromDoc (common la lb) target = common (fromDoc la target) (fromDoc lb target) := by
      rw [common_fromDoc_right (lawB.rising hb) fun d hd => ((lawA.rising ha).mem_fromDoc.mp hd).2]
      exact ((lawA.rising ha).filter_fromDoc _).symm
    rw [hcommon]
    show (seek A B s target).1 = _ ∧ Views AViews BViews (seek A B s target).2 _
    simp only [seek, hfa, hfb]
    exact align_spec lawA lawB hva hvb

theorem lawful : LawfulDocSet (docSet A B) (Views AViews BViews) fun _ => false :=
  (lawfulCursor lawA lawB).docSet

end

end IntersectionDocSet

/-! ## Verifiers -/

/-- The cursors of the vector have, from the document `start` on, the documents of `sets`. -/
inductive CursorVec.Decides (start : Nat) : {ω : Type} → CursorVec ω → ω → List (List Nat) → Prop where
  | nil : CursorVec.Decides start .nil () []
  | cons {σ ω : Type} {cursor : Cursor σ} {Views : σ → List Nat → Prop} {rest : CursorVec ω} {s : σ}
    {others : ω} {left set : List Nat} {sets : List (List Nat)} (law : LawfulCursor cursor Views)
    (view : Views s left) (agree : ∀ d, start ≤ d → (d ∈ left ↔ d ∈ set))
    (tail : CursorVec.Decides start rest others sets) :
    CursorVec.Decides start (.cons cursor rest) (s, others) (set :: sets)

namespace CursorVec.Decides

variable {start : Nat} {ω : Type} {cursors : CursorVec ω} {s : ω} {sets : List (List Nat)}

theorem mono (h : Decides start cursors s sets) {later : Nat} (hle : start ≤ later) :
    Decides later cursors s sets := by
  induction h with
  | nil => exact .nil
  | cons law view agree _ ih => exact .cons law view (fun d hd => agree d (hle.trans hd)) ih

/-- The seeks tell which sets hold `doc`, as long as the test goes by whether the cursor lands on it. -/
theorem allSeek (h : Decides start cursors s sets) {doc : Nat} (hle : start ≤ doc) (hd : doc < terminated)
    (test : Nat → Bool) (want : Bool) (htest : ∀ found, test found = (decide (found = doc) == want)) :
    (cursors.allSeek doc test s).1 = sets.all (fun set => decide (doc ∈ set) == want) ∧
      Decides doc cursors (cursors.allSeek doc test s).2 sets := by
  induction h with
  | nil => exact ⟨rfl, .nil⟩
  | @cons σ ω cursor Views rest s others left set sets law view agree tail ih =>
    obtain ⟨hfound, hview⟩ := law.seek view doc
    have hrise := law.rising view
    have hhead : test (cursor.seek s doc).1 = (decide (doc ∈ set) == want) := by
      rw [htest, hfound, decide_eq_decide.mpr ((hrise.front_fromDoc_eq hd).trans (agree doc hle))]
    have hagree : ∀ d, doc ≤ d → (d ∈ fromDoc left doc ↔ d ∈ set) := fun d hdd => by
      rw [hrise.mem_fromDoc, and_iff_left hdd]
      exact agree d (hle.trans hdd)
    simp only [CursorVec.cons, List.all_cons, ← hhead]
    cases htrue : test (cursor.seek s doc).1 with
    | true => exact ⟨by simpa using ih.1, .cons law hview hagree ih.2⟩
    | false => exact ⟨rfl, .cons law hview hagree (tail.mono hle)⟩

end CursorVec.Decides

/-! ## Filtered cursors -/

namespace PredicatedScorer

variable {δ μ ν : Type}

/-- The filters of a predicated cursor: its predicates, and the documents of its verifiers. -/
structure Filters where
  predicates : List (Nat → Bool)
  must : List (List Nat)
  mustNot : List (List Nat)

/-- Whether a document passes every filter. -/
def Filters.accepts (filters : Filters) (d : Nat) : Bool :=
  filters.predicates.all (· d) && filters.must.all (fun set => decide (d ∈ set) == true) &&
    filters.mustNot.all (fun set => decide (d ∈ set) == false)

/-- From the document `start` on, the filters in state `s` are `filters`. -/
structure Applies (must : CursorVec μ) (mustNot : CursorVec ν) (filters : Filters)
    (s : PredicatedScorer δ μ ν) (start : Nat) : Prop where
  predicates : s.predicates = filters.predicates
  must : must.Decides start s.mustVerifiers filters.must
  mustNot : mustNot.Decides start s.mustNotVerifiers filters.mustNot

variable {driver : DocSet δ} {must : CursorVec μ} {mustNot : CursorVec ν} {filters : Filters}
  {s : PredicatedScorer δ μ ν} {start : Nat}

section

variable (h : Applies must mustNot filters s start)

include h

theorem Applies.mono {later : Nat} (hle : start ≤ later) : Applies must mustNot filters s later :=
  ⟨h.predicates, h.must.mono hle, h.mustNot.mono hle⟩

theorem Applies.setDriver (d : δ) : Applies must mustNot filters { s with driver := d } start :=
  ⟨h.predicates, h.must, h.mustNot⟩

theorem Applies.checkFilters {doc : Nat} (hle : start ≤ doc) (hd : doc < terminated) :
    (checkFilters must mustNot s doc).1 = filters.accepts doc ∧
      (checkFilters must mustNot s doc).2.driver = s.driver ∧
      Applies must mustNot filters (checkFilters must mustNot s doc).2 doc := by
  obtain ⟨hmust, hmust'⟩ := h.must.allSeek hle hd (· == doc) true fun found => by
    simp [beq_eq_decide]
  obtain ⟨hnot, hnot'⟩ := h.mustNot.allSeek hle hd (· != doc) false fun found => by
    simp [bne, beq_eq_decide]
  unfold PredicatedScorer.checkFilters Filters.accepts
  rw [← h.predicates, ← hmust, ← hnot]
  cases hp : s.predicates.all (· doc) with
  | false => exact ⟨rfl, rfl, h.mono hle⟩
  | true =>
    cases hm : (must.allSeek doc (· == doc) s.mustVerifiers).1 with
    | false =>
      refine ⟨by simp [hm], by simp [hm], ?_⟩
      simpa [hm] using ⟨h.predicates, hmust', h.mustNot.mono hle⟩
    | true =>
      refine ⟨by simp [hm], by simp [hm], ?_⟩
      simpa [hm] using ⟨h.predicates, hmust', hnot'⟩

end

/-- The driver is lawful and stands on a document that passes the filters; the documents it has left
that pass them are left. -/
def Views (DViews : δ → List Nat → Prop) (must : CursorVec μ) (mustNot : CursorVec ν) (filters : Filters)
    (s : PredicatedScorer δ μ ν) (left : List Nat) : Prop :=
  ∃ rest, DViews s.driver rest ∧ Applies must mustNot filters s (front rest) ∧
    (rest = [] ∨ filters.accepts (front rest) = true) ∧ left = rest.filter filters.accepts

/-- A predicated cursor is stuck where its driver is. -/
def stuck (driverStuck : δ → Bool) (s : PredicatedScorer δ μ ν) : Bool := driverStuck s.driver

variable {DViews : δ → List Nat → Prop} {driverStuck : δ → Bool}

theorem front_tail_filter {rest : List Nat} {p : Nat → Bool} (h : rest = [] ∨ p (front rest) = true) :
    front (rest.filter p) = front rest ∧ rest.tail.filter p = (rest.filter p).tail := by
  cases rest with
  | nil => exact ⟨rfl, rfl⟩
  | cons d rest =>
    have hd : p d = true := h.resolve_left (List.cons_ne_nil _ _)
    rw [List.filter_cons_of_pos hd]
    exact ⟨rfl, rfl⟩

section

variable (law : LawfulDocSet driver DViews driverStuck)

include law

theorem skipLoop_spec {turns : Nat} {rest : List Nat}
    (hview : DViews s.driver rest) (happ : Applies must mustNot filters s (front rest))
    (hturns : terminated < front rest + turns) :
    (skipLoop driver must mustNot turns (front rest) s).1 = front (rest.filter filters.accepts) ∧
      Views DViews must mustNot filters (skipLoop driver must mustNot turns (front rest) s).2
        (rest.filter filters.accepts) := by
  -- a turn drops a document of the driver that does not pass
  induction turns generalizing s rest with
  | zero =>
    have := (law.rising hview).front_le_terminated
    omega
  | succ turns ih =>
    have hrise := law.rising hview
    unfold skipLoop
    by_cases hend : front rest = terminated
    · have hnil := hrise.front_eq_terminated.mp hend
      rw [if_pos hend]
      refine ⟨by rw [hnil]; rfl, rest, hview, happ, .inl hnil, rfl⟩
    have hd : front rest < terminated := Nat.lt_of_le_of_ne hrise.front_le_terminated hend
    have hne : rest ≠ [] := mt hrise.front_eq_terminated.mpr hend
    obtain ⟨hok, hdriver, happ'⟩ := happ.checkFilters (Nat.le_refl _) hd
    rw [if_neg hend]
    simp only [hok]
    cases hacc : filters.accepts (front rest) with
    | true =>
      rw [if_pos rfl]
      refine ⟨(front_tail_filter (.inr hacc)).1.symm, rest, ?_, happ', .inr hacc, rfl⟩
      rw [hdriver]
      exact hview
    | false =>
      obtain ⟨hnext, hview'⟩ := law.advance hview
      have hskip : rest.filter filters.accepts = rest.tail.filter filters.accepts := by
        obtain ⟨d, tail, rfl⟩ := List.exists_cons_of_ne_nil hne
        exact List.filter_cons_of_neg (by rw [front_cons] at hacc; simp [hacc])
      have hstep := hrise.front_lt_front_tail hne
      rw [if_neg Bool.false_ne_true, hskip, hdriver, hnext]
      exact ih hview' ((happ'.mono hstep.le).setDriver _) (by omega)

theorem skipNonMatching_spec {rest : List Nat}
    (hview : DViews s.driver rest) (happ : Applies must mustNot filters s (front rest)) :
    (skipNonMatching driver must mustNot s).1 = front (rest.filter filters.accepts) ∧
      Views DViews must mustNot filters (skipNonMatching driver must mustNot s).2
        (rest.filter filters.accepts) := by
  rw [skipNonMatching, law.doc hview]
  exact skipLoop_spec law hview happ (by omega)

theorem views_new (filters : Filters) {start : δ} {rest : List Nat} {mustVerifiers : μ} {mustNotVerifiers : ν}
    (hview : DViews start rest) (hmust : must.Decides 0 mustVerifiers filters.must)
    (hnot : mustNot.Decides 0 mustNotVerifiers filters.mustNot) :
    Views DViews must mustNot filters
      (new driver must mustNot start filters.predicates mustVerifiers mustNotVerifiers)
      (rest.filter filters.accepts) :=
  (skipNonMatching_spec law hview ⟨rfl, hmust.mono (Nat.zero_le _), hnot.mono (Nat.zero_le _)⟩).2

theorem lawfulCursor :
    LawfulCursor (docSet driver must mustNot).toCursor (Views DViews must mustNot filters) where
  rising := by
    rintro s left ⟨rest, hview, -, -, rfl⟩
    exact (law.rising hview).filter _
  doc := by
    rintro s left ⟨rest, hview, -, hfront, rfl⟩
    rw [(front_tail_filter hfront).1]
    exact law.doc hview
  advance := by
    rintro s left ⟨rest, hview, happ, hfront, rfl⟩
    obtain ⟨-, hview'⟩ := law.advance hview
    rw [← (front_tail_filter hfront).2]
    exact skipNonMatching_spec law hview'
      ((happ.mono (law.rising hview).front_le_front_tail).setDriver _)
  seek := by
    rintro s left ⟨rest, hview, happ, -, rfl⟩ target
    obtain ⟨-, hview'⟩ := law.seek hview target
    rw [← (law.rising hview).filter_fromDoc]
    exact skipNonMatching_spec law hview'
      ((happ.mono ((law.rising hview).front_le_front_fromDoc target)).setDriver _)

end

/-! ### Windows -/

/-- The window `bits` was filled with, after the bits before `done` have been filtered; the verifiers
have not moved behind `limit`. -/
structure Filtered (must : CursorVec μ) (mustNot : CursorVec ν) (filters : Filters) (driver : δ)
    (base limit : Nat) (filled : DocWindow) (done : Nat) (bits : DocWindow) (s : PredicatedScorer δ μ ν) :
    Prop where
  contains : ∀ o < docWindowSize, bits.contains o =
    (filled.contains o && (decide (done ≤ o) || filters.accepts (base + o)))
  driver : s.driver = driver
  applies : ∃ start, start ≤ limit ∧ Applies must mustNot filters s start ∧
    ∀ o < docWindowSize, done ≤ o → filled.contains o = true → start ≤ base + o

variable {driverState : δ} {base limit : Nat} {filled bits : DocWindow}

/-- Positions that were not set need no check. -/
theorem Filtered.skip {done : Nat} (next : Nat) (hle : done ≤ next)
    (hnone : ∀ o < docWindowSize, done ≤ o → o < next → filled.contains o = false)
    (h : Filtered must mustNot filters driverState base limit filled done bits s) :
    Filtered must mustNot filters driverState base limit filled next bits s := by
  obtain ⟨start, hlimit, happ, hstart⟩ := h.applies
  refine ⟨fun o ho => ?_, h.driver, start, hlimit, happ, fun o ho hn => hstart o ho (hle.trans hn)⟩
  rw [h.contains o ho]
  by_cases hdone : done ≤ o
  · by_cases hnext : next ≤ o
    · simp [hdone, hnext]
    · rw [hnone o ho hdone (by omega), Bool.false_and, Bool.false_and]
  · rw [decide_eq_false hdone, decide_eq_false (by omega)]

/-- One set bit is checked, and cleared if the document does not pass. -/
theorem Filtered.check {offset : Nat} (hoff : offset < docWindowSize)
    (hset : filled.contains offset = true) (hlimit : base + offset ≤ limit) (hd : base + offset < terminated)
    (h : Filtered must mustNot filters driverState base limit filled offset bits s) :
    Filtered must mustNot filters driverState base limit filled (offset + 1)
      (if (checkFilters must mustNot s (base + offset)).1 then bits else bits.clear offset)
      (checkFilters must mustNot s (base + offset)).2 := by
  obtain ⟨start, -, happ, hstart⟩ := h.applies
  obtain ⟨hok, hdriver, happ'⟩ := happ.checkFilters (hstart offset hoff (Nat.le_refl _) hset) hd
  refine ⟨fun o ho => ?_, hdriver.trans h.driver, base + offset, hlimit, happ', fun o _ hn _ => by omega⟩
  rw [hok]
  have hkeep : o ≠ offset → (if filters.accepts (base + offset) = true then bits
      else bits.clear offset).contains o = bits.contains o := by
    intro hne
    split
    · rfl
    · rw [DocBitset.contains_clear, decide_eq_true hne, Bool.and_true]
  rcases Nat.lt_trichotomy o offset with hlt | rfl | hgt
  · rw [hkeep hlt.ne, h.contains o ho, decide_eq_false (by omega), decide_eq_false (by omega)]
  · have hbit := h.contains o ho
    cases hacc : filters.accepts (base + o) with
    | true => simpa [hset] using hbit
    | false => simp
  · rw [hkeep hgt.ne', h.contains o ho, decide_eq_true (by omega), decide_eq_true (by omega)]

section

variable (hlimit : ∀ o < docWindowSize, filled.contains o = true → base + o ≤ limit)
  (hbelow : ∀ o < docWindowSize, filled.contains o = true → base + o < terminated)

include hlimit hbelow

theorem filterWordLoop_spec (place : Nat) {wordIndex turns : Nat} {remaining : BitVec 64}
    (hword : wordIndex < docWindowWords)
    (hremaining : ∀ i < 64, remaining.getLsbD i =
      (filled.contains (wordIndex * 64 + i) && decide (place ≤ i)))
    (hplace : place ≤ 64) (hturns : 64 ≤ place + turns)
    (h : Filtered must mustNot filters driverState base limit filled (wordIndex * 64 + place) bits s) :
    Filtered must mustNot filters driverState base limit filled ((wordIndex + 1) * 64)
      (filterWordLoop must mustNot base wordIndex turns remaining bits s).1
      (filterWordLoop must mustNot base wordIndex turns remaining bits s).2 := by
  -- `remaining` has the set bits of the word from `place` on; a turn passes the lowest of them
  induction turns generalizing remaining place bits s with
  | zero =>
    have hp : place = 64 := by omega
    rw [hp, ← Nat.succ_mul] at h
    exact h
  | succ turns ih =>
    unfold filterWordLoop
    by_cases h0 : remaining = 0#64
    · rw [if_pos h0]
      refine h.skip _ (by omega) fun o ho hlo hhi => ?_
      have hbit := hremaining (o - wordIndex * 64) (by omega)
      rw [h0, BitVec.getLsbD_zero, decide_eq_true (by omega), Bool.and_true,
        show wordIndex * 64 + (o - wordIndex * 64) = o by omega] at hbit
      exact hbit.symm
    · rw [if_neg h0]
      have hlt := DocBitset.toNat_ctz_lt h0
      have hbit : remaining.getLsbD remaining.ctz.toNat = true :=
        BitVec.getLsbD_true_ctz_of_ne_zero h0
      rw [hremaining _ hlt, Bool.and_eq_true, decide_eq_true_iff] at hbit
      obtain ⟨hset, hge⟩ := hbit
      have hoff : wordIndex * 64 + remaining.ctz.toNat < docWindowSize := by
        simp only [docWindowSize, docWindowWords] at hword ⊢
        omega
      have hskipped := h.skip (wordIndex * 64 + remaining.ctz.toNat) (by omega)
        fun o ho hlo hhi => by
          have hlow : remaining.getLsbD (o - wordIndex * 64) = false :=
            BitVec.getLsbD_false_of_lt_ctz (by omega)
          rw [hremaining _ (by omega), decide_eq_true (by omega), Bool.and_true,
            show wordIndex * 64 + (o - wordIndex * 64) = o by omega] at hlow
          exact hlow
      have hchecked := hskipped.check hoff hset (hlimit _ hoff hset) (hbelow _ hoff hset)
      refine ih (remaining.ctz.toNat + 1) (fun i hi => ?_) (by omega) (by omega) hchecked
      rw [DocBitset.getLsbD_and_sub_one h0, hremaining i hi, Bool.and_assoc]
      congr 1
      rw [← Bool.decide_and, decide_eq_decide]
      omega

theorem filterWord_spec {wordIndex : Nat} {state : DocWindow × PredicatedScorer δ μ ν}
    (hword : wordIndex < docWindowWords)
    (h : Filtered must mustNot filters driverState base limit filled (wordIndex * 64) state.1 state.2) :
    Filtered must mustNot filters driverState base limit filled ((wordIndex + 1) * 64)
      (filterWord must mustNot base state wordIndex).1 (filterWord must mustNot base state wordIndex).2 := by
  refine filterWordLoop_spec hlimit hbelow 0 hword (fun i hi => ?_) (by omega) (by omega) h
  have ho : wordIndex * 64 + i < docWindowSize := by
    simp only [docWindowSize, docWindowWords] at hword ⊢
    omega
  have hbit := h.contains _ ho
  rw [decide_eq_true (show wordIndex * 64 ≤ wordIndex * 64 + i by omega), Bool.true_or, Bool.and_true] at hbit
  rw [← hbit, DocBitset.contains_eq, show (wordIndex * 64 + i) / 64 = wordIndex by omega,
    show (wordIndex * 64 + i) % 64 = i by omega]
  cases state.1.bits[wordIndex]? with
  | none => simp
  | some w => simp

theorem filterWords_spec {words : Nat} (hwords : words ≤ docWindowWords)
    (h : Filtered must mustNot filters driverState base limit filled 0 filled s) :
    Filtered must mustNot filters driverState base limit filled (words * 64)
      ((List.range words).foldl (filterWord must mustNot base) (filled, s)).1
      ((List.range words).foldl (filterWord must mustNot base) (filled, s)).2 := by
  induction words with
  | zero => simpa using h
  | succ words ih =>
    rw [List.range_succ, List.foldl_append]
    exact filterWord_spec hlimit hbelow (by omega) (ih (by omega))

end

variable (base filled) in
/-- Filtering a window and moving the driver behind it. -/
theorem filterWindow_spec (law : LawfulDocSet driver DViews driverStuck)
    {rest : List Nat} (hview : DViews s.driver rest) (happ : Applies must mustNot filters s start)
    (hstart : start ≤ front rest)
    (hfilled : ∀ o < docWindowSize, filled.contains o = true →
      start ≤ base + o ∧ base + o ≤ front rest ∧ base + o < terminated) :
    (∀ o < docWindowSize, (filterWindow driver must mustNot base filled s).1.contains o =
      (filled.contains o && filters.accepts (base + o))) ∧
    Views DViews must mustNot filters (filterWindow driver must mustNot base filled s).2
      (rest.filter filters.accepts) := by
  have hbegin : Filtered must mustNot filters s.driver base (front rest) filled 0 filled s :=
    ⟨fun o _ => by simp, rfl, start, hstart, happ, fun o ho _ hs => (hfilled o ho hs).1⟩
  have hdone := filterWords_spec (fun o ho hs => (hfilled o ho hs).2.1)
    (fun o ho hs => (hfilled o ho hs).2.2) (Nat.le_refl docWindowWords) hbegin
  obtain ⟨from_, hfrom, happ', -⟩ := hdone.applies
  refine ⟨fun o ho => ?_, ?_⟩
  · rw [filterWindow, hdone.contains o ho, decide_eq_false (by simpa [docWindowSize] using ho),
      Bool.false_or]
  · have hview' : DViews ((List.range docWindowWords).foldl (filterWord must mustNot base)
        (filled, s)).2.driver rest := by
      rw [hdone.driver]
      exact hview
    exact (skipNonMatching_spec law hview' (happ'.mono hfrom)).2

theorem lawful (law : LawfulDocSet driver DViews driverStuck) :
    LawfulDocSet (docSet driver must mustNot) (Views DViews must mustNot filters) (stuck driverStuck) where
  toLawfulCursor := lawfulCursor law
  fillDocBatch := (lawfulCursor law).fillBatch
  retainDocBatch h _ hdocs := (lawfulCursor law).retainBatch h hdocs.toRisingDocs
  fillDocWindow := by
    rintro s left ⟨rest, hview, happ, -, rfl⟩ base hb hstuck
    have hrise := law.rising hview
    obtain ⟨hwindow, hview'⟩ := law.fillDocWindow hview hb hstuck
    have hpast := hrise.front_le_front_fromDoc (windowEnd base)
    obtain ⟨hbits, hleft⟩ := filterWindow_spec base _ law hview' (happ.setDriver _) hpast
      fun o ho hs => by
        obtain ⟨hm, hlt⟩ := (hwindow o ho).mp hs
        have hge := hrise.le_front_fromDoc (windowEnd_le base)
        exact ⟨hrise.front_le hm, by omega, hrise.below _ hm⟩
    rw [hrise.filter_fromDoc] at hleft
    dsimp only [docSet]
    refine ⟨fun o ho => ?_, hleft⟩
    rw [fillDocWindow, hbits o ho, Bool.and_eq_true, hwindow o ho, List.mem_filter]
    exact and_right_comm
  stuck_left := by
    rintro s left ⟨rest, hview, -, hfront, rfl⟩ hs hnil
    have hne := law.stuck_left hview hs
    have hfirst := (front_tail_filter hfront).1
    rw [hnil] at hfirst
    exact hne ((law.rising hview).front_eq_terminated.mp hfirst.symm)
  stuck_window := by
    rintro s left ⟨rest, hview, happ, -, rfl⟩ hs
    obtain ⟨hzero, hview'⟩ := law.stuck_window hview hs
    obtain ⟨hbits, hleft⟩ := filterWindow_spec terminated _ law hview' (happ.setDriver _)
      (Nat.le_refl _) fun o ho hset => by rw [hzero o ho] at hset; cases hset
    dsimp only [docSet]
    refine ⟨fun o ho => ?_, hleft⟩
    rw [fillDocWindow, hbits o ho, hzero o ho, Bool.false_and]

end PredicatedScorer

end Summa
