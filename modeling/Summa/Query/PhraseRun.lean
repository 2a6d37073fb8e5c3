import Summa.Query.PhraseCursors

/-!
# Runs of a phrase scorer

`PhraseView` says what a phrase scorer is for: it stands on one of the documents that hold all terms,
moves forward over them, and knows whether the current one was found to hold the phrase. A scorer answers
every sequence of calls as its view does.

* `replies_eq`: for all terms, offsets and slops, and every sequence of calls.
* `call_spec`: the same for one call, from any state that a run reaches.

A document holds the phrase if the first term has a position `p` in it for which every other term has a
position within `slop` of `p` plus the difference of their offsets (`PhraseAt`), and the phrase frequency
is the number of such positions, counted with multiplicity (`phraseFrequency`).
-/

namespace Summa

open List

/-! ## What a scorer stands for -/

variable (terms : List PhraseTerm)

/-- The positions of term `i` in document `d`. -/
def positionsOf (i d : Nat) : List Nat :=
  (terms[i]?.map (·.positionsIn d)).getD []

/-- The position stream of term `i`. -/
def streamOf (i : Nat) : PositionStream :=
  (terms[i]?.map (·.positions)).getD ⟨[], 0, false⟩

/-- The documents that hold all terms. -/
def phraseCandidates : List Nat :=
  ((terms.head?.map (·.entries)).getD []).map (·.docId) |>.filter fun d =>
    ∀ t ∈ terms, d ∈ t.entries.map (·.docId)

/-- Whether every other term has a position within `slop` of its place next to `p`. -/
def PhraseAt (offsets : List Nat) (slop d p : Nat) : Prop :=
  ∀ i < terms.length, 0 < i → ∃ q ∈ positionsOf terms i d,
    |(q : ℤ) - (p + (offsets.getD i 0 : ℤ) - (offsets.getD 0 0 : ℤ))| ≤ slop

instance (terms : List PhraseTerm) (offsets : List Nat) (slop d p : Nat) :
    Decidable (PhraseAt terms offsets slop d p) :=
  inferInstanceAs (Decidable (∀ i < terms.length, 0 < i → ∃ q ∈ positionsOf terms i d, _))

/-- The phrase frequency in document `d`. -/
def phraseFrequency (offsets : List Nat) (slop d : Nat) : Nat :=
  (positionsOf terms 0 d).countP fun p => PhraseAt terms offsets slop d p

/-- The documents that hold the phrase. -/
def phraseMatches (offsets : List Nat) (slop : Nat) : List Nat :=
  (phraseCandidates terms).filter fun d => 0 < phraseFrequency terms offsets slop d

/-- A scorer seen from outside: the candidates from the current one on, and whether the current one was
found to hold the phrase. -/
structure PhraseView where
  left : List Nat
  confirmed : Bool
  deriving DecidableEq, Repr

namespace PhraseView

variable (frequency : Nat → Nat)

/-- Whether a document holds the phrase. -/
def holds (d : Nat) : Bool := 0 < frequency d

/-- Go on to the first candidate that holds the phrase. -/
def toMatch (left : List Nat) : PhraseView :=
  let found := left.dropWhile fun d => !holds frequency d
  ⟨found, !found.isEmpty⟩

section

variable {frequency} {d : Nat} {ds : List Nat}

theorem toMatch_of_holds (h : holds frequency d = true) : toMatch frequency (d :: ds) = ⟨d :: ds, true⟩ := by
  simp [toMatch, h]

theorem toMatch_of_not_holds (h : holds frequency d = false) :
    toMatch frequency (d :: ds) = toMatch frequency ds := by
  simp [toMatch, h]

end

variable (self : PhraseView)

/-- The candidates from `target` on; `TERMINATED` ends the scorer. -/
def from_ (target : Nat) : List Nat :=
  if target = terminated then [] else self.left.dropWhile (· < target)

theorem from_nil (confirmed : Bool) (target : Nat) : from_ ⟨[], confirmed⟩ target = [] := by
  unfold from_
  split <;> rfl

def doc : Nat := self.left.headD terminated

def call : PhraseCall → PhraseReply × PhraseView
  | .advance => reply (toMatch frequency self.left.tail)
  | .seek target => reply (toMatch frequency (self.from_ target))
  | .advanceCandidate => reply ⟨self.left.tail, false⟩
  | .seekCandidate target =>
    reply ⟨self.from_ target, self.confirmed && (self.from_ target).head? == self.left.head?⟩
  | .confirmCandidate =>
    let matched := self.left.head?.any (holds frequency)
    (.confirmed matched, ⟨self.left, matched⟩)
  | .score =>
    (.score (self.left.head?.map fun d => if self.confirmed then frequency d else 1), self)
where
  reply (self : PhraseView) : PhraseReply × PhraseView := (.doc self.doc, self)

def replies (self : PhraseView) : List PhraseCall → List PhraseReply
  | [] => []
  | c :: calls => (self.call frequency c).1 :: replies (self.call frequency c).2 calls

/-- Advancing visits the candidates that hold the phrase, one after the other. -/
theorem replies_advances (left : List Nat) :
    .doc (toMatch frequency left).doc :: (toMatch frequency left).replies frequency
        (replicate (left.filter (holds frequency)).length .advance) =
      (left.filter (holds frequency)).map .doc ++ [.doc terminated] := by
  induction left with
  | nil => rfl
  | cons d ds ih =>
    cases hd : holds frequency d with
    | true =>
      rw [toMatch_of_holds hd, filter_cons_of_pos hd, map_cons, cons_append, ← ih]
      rfl
    | false =>
      rw [toMatch_of_not_holds hd, filter_cons_of_neg (by simp [hd])]
      exact ih

end PhraseView

/-! ## The positions of a document -/

namespace PhraseTerm

theorem positionsIn_eq {t : PhraseTerm} {e : PostingEntry} (he : e ∈ t.entries) :
    t.positionsIn e.docId = t.positions.positionsAt e.cursor e.termFreq := by
  rw [positionsIn, entries, BlockPostingIterator.find?_docId t.sorted he]
  rfl

theorem mem_docs_of_positionsIn {t : PhraseTerm} {d p : Nat} (hp : p ∈ t.positionsIn d) :
    d ∈ t.entries.map (·.docId) := by
  unfold positionsIn at hp
  cases hf : t.entries.find? (·.docId = d) with
  | none => simp [hf] at hp
  | some e =>
    have hd : e.docId = d := by simpa using find?_some hf
    exact hd ▸ mem_map_of_mem (mem_of_find?_eq_some hf)

/-- What holds of all positions of the term holds of those in a document. -/
theorem positionsIn_rec {t : PhraseTerm} (P : List Nat → Prop) (hnil : P [])
    (h : ∀ e ∈ t.entries, P (t.positions.positionsAt e.cursor e.termFreq)) (d : Nat) : P (t.positionsIn d) := by
  unfold positionsIn
  cases hf : t.entries.find? (·.docId = d) with
  | none => exact hnil
  | some e => exact h e (mem_of_find?_eq_some hf)

end PhraseTerm

variable {terms : List PhraseTerm} {offsets : List Nat} {slop : Nat}

theorem positionsOf_eq {i : Nat} (hi : i < terms.length) (d : Nat) :
    positionsOf terms i d = terms[i].positionsIn d := by
  simp [positionsOf, hi]

theorem streamOf_eq {i : Nat} (hi : i < terms.length) : streamOf terms i = terms[i].positions := by
  simp [streamOf, hi]

theorem positionsOk_unpositioned (h : 2 ≤ terms.length) (d : Nat) :
    PositionsOk (.unpositioned terms offsets slop) fun i => positionsOf terms i d where
  planOk := PhrasePlan.ok_unpositioned h
  lt := by
    intro i hi
    have hi' : i < terms.length := hi
    rw [positionsOf_eq hi']
    exact PhraseTerm.positionsIn_rec (fun l => ∀ p ∈ l, p < 2 ^ 32) nofun terms[i].positions_lt d
  unique := by
    intro hx
    have h0 : 0 < terms.length := by omega
    simp only [positionsOf_eq h0]
    have hu : (terms[0]).positions.uniquePositions = true := by
      have : terms.head?.any (·.positions.uniquePositions) = true := by
        have hx' : (slop == 0 && terms.head?.any (·.positions.uniquePositions)) = true := hx
        exact (Bool.and_eq_true .. ▸ hx').2
      rw [head?_eq_getElem?, getElem?_eq_getElem h0] at this
      exact this
    exact PhraseTerm.positionsIn_rec List.Nodup nodup_nil (terms[0].unique hu) d
  length_lt := by
    have h0 : 0 < terms.length := by omega
    simp only [positionsOf_eq h0]
    refine PhraseTerm.positionsIn_rec (·.length < 2 ^ 32) (by simp) (fun e he => ?_) d
    rw [PositionStream.positionsAt, length_absolute, length_take]
    have := (terms[0]).freq_lt e he
    omega

/-- The plan's count is the number of positions at which the phrase stands. -/
theorem phraseCount_eq (h : 2 ≤ terms.length) (hlen : offsets.length = terms.length)
    (hoff : offsets.Pairwise (· ≤ ·)) (d : Nat) :
    phraseCount (.unpositioned terms offsets slop) (fun i => positionsOf terms i d) =
      phraseFrequency terms offsets slop d := by
  refine countP_congr fun p _ => ?_
  rw [decide_eq_true_eq, startMatches, all_map, all_eq_true]
  simp only [Function.comp_apply, any_eq_true, inWindow, decide_eq_true_eq]
  have hdelta : ∀ i, 0 < i → i < terms.length →
      ((PhrasePlan.unpositioned terms offsets slop).deltas i : ℤ) =
        (offsets.getD i 0 : ℤ) - (offsets.getD 0 0 : ℤ) := by
    intro i hi hin
    have h0 : 0 < offsets.length := by omega
    have hi' : i < offsets.length := by omega
    have hle := pairwise_iff_getElem.mp hoff 0 i h0 hi' hi
    have hhead : offsets.headD 0 = offsets[0] := by
      cases offsets with
      | nil => simp at h0
      | cons o os => rfl
    simp only [PhrasePlan.unpositioned, getElem?_eq_getElem hi', Option.map_some, Option.getD_some,
      hhead, getD_eq_getElem?_getD, getElem?_eq_getElem h0]
    omega
  have hwindow : ∀ i, 0 < i → i < terms.length → ∀ q : Nat,
      p + (PhrasePlan.unpositioned terms offsets slop).deltas i - slop ≤ q ∧
          q ≤ p + (PhrasePlan.unpositioned terms offsets slop).deltas i + slop ↔
        |(q : ℤ) - (p + (offsets.getD i 0 : ℤ) - (offsets.getD 0 0 : ℤ))| ≤ slop := by
    intro i hi hin q
    have hd := hdelta i hi hin
    rw [abs_le]
    omega
  constructor
  · intro hall i hin hi
    obtain ⟨q, hq, hin'⟩ := hall i (PhraseCheck.mem_otherTerms.mpr ⟨hi, hin⟩)
    exact ⟨q, hq, (hwindow i hi hin q).mp hin'⟩
  · intro hall i hi
    obtain ⟨hi, hin⟩ := PhraseCheck.mem_otherTerms.mp hi
    obtain ⟨q, hq, habs⟩ := hall i hin hi
    exact ⟨q, hq, (hwindow i hi hin q).mpr habs⟩

/-! ## The simulation -/

namespace PhraseScorer

open BlockPostingIterator

/-- What every state keeps: cursors in the terms' lists and position streams. -/
structure Inv (terms : List PhraseTerm) (plan : PhrasePlan) (s : PhraseScorer) : Prop where
  cursors : CursorsOk plan s.intersection s.postingIters
  entries : ∀ i (h : i < terms.length), (s.postingIters i).rest <:+ terms[i].entries
  lists : ∀ i < terms.length, (s.check.positionLists i).Ok ∧
    (s.check.positionLists i).positions = streamOf terms i

/-- The plan belongs to the terms. -/
structure Planned (terms : List PhraseTerm) (plan : PhrasePlan) : Prop where
  numTerms : plan.numTerms = terms.length
  positions : ∀ d, PositionsOk plan fun i => positionsOf terms i d

theorem Planned.planOk {plan : PhrasePlan} (h : Planned terms plan) : plan.Ok := (h.positions 0).planOk

/-- The phrase frequency of a document by the plan. -/
def countIn (terms : List PhraseTerm) (plan : PhrasePlan) (d : Nat) : Nat :=
  phraseCount plan fun i => positionsOf terms i d

section

variable (terms : List PhraseTerm) (plan : PhrasePlan) (s : PhraseScorer)

/-- What the scorer knows about document `d`: nothing yet, or that it was checked. -/
def Knows (confirmed : Bool) (d : Nat) : Prop :=
  (s.confirmed = none ∧ s.check.firstMatch = false ∧ confirmed = false) ∨
    (s.confirmed = some confirmed ∧ confirmed = PhraseView.holds (countIn terms plan) d ∧
      s.check.firstMatch = confirmed ∧
      (confirmed = true → s.check.exactPhraseFrequency plan = countIn terms plan d))

/-- The common documents still to come are `l`. -/
structure Yields (l : List Nat) : Prop where
  inv : Inv terms plan s
  common : ∀ x, x ∈ l ↔ Common plan.numTerms s.postingIters x
  sorted : l.Pairwise (· < ·)

/-- A scorer between two documents: what it knows is about the first one to come, if it stays there. -/
structure Pending (l : List Nat) (confirmed : Bool) : Prop where
  yields : Yields terms plan s l
  knows : ∀ d, l.head? = some d → s.currentDoc = d → Knows terms plan s confirmed d

/-- A scorer on a document, or at the end, and its view. -/
def Sim (v : PhraseView) : Prop :=
  Inv terms plan s ∧
    match v.left with
    | [] => s.currentDoc = terminated
    | d :: _ => Yields terms plan s v.left ∧ s.currentDoc = d ∧ d < terminated ∧
        Aligned plan.numTerms s.postingIters d ∧ Knows terms plan s v.confirmed d

end

variable {plan : PhrasePlan} {kernel : IntersectKernel} {s : PhraseScorer} {l : List Nat} {b : Bool}

variable {d i fuel : Nat} {v : PhraseView}

/-- Parking forgets what was known, and nothing else. -/
theorem Inv.park (h : Inv terms plan s) (doc : Nat) (confirmed : Option Bool) :
    Inv terms plan (s.park doc confirmed) := ⟨h.cursors, h.entries, h.lists⟩

theorem Sim.doc_eq (h : Sim terms plan s v) : s.currentDoc = v.doc := by
  obtain ⟨left, confirmed⟩ := v
  cases left with
  | nil => exact h.2
  | cons d ds => exact h.2.2.1

/-- At the end, nothing is known of a document. -/
theorem Sim.ended (h : Inv terms plan s) (hdoc : s.currentDoc = terminated) :
    Sim terms plan s ⟨[], b⟩ := ⟨h, hdoc⟩

theorem common_of_aligned {n : Nat} {its : Nat → BlockPostingIterator} (hok : ∀ i < n, (its i).Ok)
    (ha : Aligned n its d) : Common n its d := by
  intro i hi
  rw [← (ha i hi).2]
  exact PostingIntersection.doc_mem (hok i hi) (ha i hi).1

/-- After a step over its document the scorer knows nothing of the next one. -/
theorem Pending.of_past (h : Yields terms plan s l) (hdoc : s.currentDoc = d)
    (hpast : ∀ x ∈ l, d < x) : Pending terms plan s l b where
  yields := h
  knows := by
    intro x hx hcur
    have := hpast x (mem_of_head? hx)
    omega

theorem score_spec (h : Sim terms plan s v) :
    (s.score plan).1 = (v.left.head?.map fun d => if v.confirmed then countIn terms plan d else 1) ∧
      Sim terms plan (s.score plan).2 v := by
  obtain ⟨left, confirmed⟩ := v
  unfold score
  cases left with
  | nil =>
    rw [if_pos h.2]
    exact ⟨rfl, h⟩
  | cons d ds =>
    obtain ⟨hinv, hyields, hdoc, hlt, ha, hk⟩ := h
    simp only [] at hyields hdoc hlt ha hk
    rw [if_neg (by omega)]
    cases hfirst : s.check.firstMatch with
    | false =>
      -- not confirmed, or checked and no match
      have hzero : s.check.exactPhraseFrequency plan = 0 := by
        simp [PhraseCheck.exactPhraseFrequency, hfirst]
      obtain rfl : confirmed = false := by
        rcases hk with ⟨-, -, hc⟩ | ⟨-, -, hc, -⟩
        · exact hc
        · rw [← hc, hfirst]
      rw [hzero]
      exact ⟨rfl, hinv, hyields, hdoc, hlt, ha, hk⟩
    | true =>
      rcases hk with ⟨-, hc, -⟩ | ⟨hsome, hholds, hc, hfreq⟩
      · rw [hc] at hfirst
        cases hfirst
      · obtain rfl : confirmed = true := hc.symm.trans hfirst
        have hpos : 0 < countIn terms plan d := by simpa [PhraseView.holds] using hholds
        rw [hfreq rfl]
        refine ⟨congrArg some (max_eq_left hpos), ⟨hinv.cursors, hinv.entries, hinv.lists⟩,
          ⟨⟨hinv.cursors, hinv.entries, hinv.lists⟩, hyields.common, hyields.sorted⟩, hdoc, hlt, ha,
          .inr ⟨hsome, hholds, hfirst, fun _ => ?_⟩⟩
        simp [PhraseCheck.exactPhraseFrequency, hfirst]

section

variable (hp : Planned terms plan)

include hp

theorem Inv.reads (h : Inv terms plan s) (ha : Aligned plan.numTerms s.postingIters d) :
    Reads plan.numTerms (streamOf terms) s.postingIters s.check.positionLists
      fun i => positionsOf terms i d where
  ok := fun i hi => (h.lists i (hp.numTerms ▸ hi)).1
  stream := fun i hi => (h.lists i (hp.numTerms ▸ hi)).2
  entry := by
    intro i hi
    have hi' : i < terms.length := hp.numTerms ▸ hi
    obtain ⟨hne, hdoc⟩ := ha i hi
    have hok := h.cursors.ok i hi
    obtain ⟨e, es, hrest⟩ := exists_cons_of_ne_nil hne
    have hentry : (s.postingIters i).entry = some e := by rw [hok.entry_eq, hrest, head?_cons]
    have hmem : e ∈ terms[i].entries := (h.entries i hi').subset (by rw [hrest]; exact mem_cons_self)
    have hd : e.docId = d := by
      rw [← hdoc, doc, hentry, Option.map_some, Option.getD_some]
    refine ⟨e, hentry, ?_, ?_⟩
    · rw [(h.lists i hi').2, streamOf_eq hi']
      exact terms[i].addressed e hmem
    · rw [(h.lists i hi').2, streamOf_eq hi', ← PhraseTerm.positionsIn_eq hmem, hd, positionsOf_eq hi']

theorem Inv.move (h : Inv terms plan s) {x : PostingIntersection}
    {its : Nat → BlockPostingIterator} (hc : CursorsOk plan x its)
    (hs : ∀ i < plan.numTerms, (its i).rest <:+ (s.postingIters i).rest) :
    Inv terms plan { s with intersection := x, postingIters := its } :=
  ⟨hc, fun i hi => (hs i (hp.numTerms.symm ▸ hi)).trans (h.entries i hi), h.lists⟩

/-! ## Moving the cursors -/

/-- The common documents are among those of the driving list. -/
theorem Yields.length_le (h : Yields terms plan s l) : l.length ≤ (s.postingIters plan.lead).rest.length := by
  have hnodup : l.Nodup := h.sorted.imp fun hlt => hlt.ne
  have hsub : l ⊆ (s.postingIters plan.lead).docs := fun x hx =>
    (h.common x).mp hx _ hp.planOk.lead_lt
  have := (subperm_of_subset hnodup hsub).length_le
  rwa [docs, length_map] at this

/-- One cursor moves forward: what it leaves behind is no longer common. -/
theorem Yields.update (h : Yields terms plan s l)
    {it : BlockPostingIterator} {l' : List Nat} (hi : i < plan.numTerms) (hit : it.Ok)
    (hsuf : it.rest <:+ (s.postingIters i).rest) (hfwd : Forward (s.postingIters i) it)
    (hsorted : l'.Pairwise (· < ·)) (hl : ∀ x, x ∈ l' ↔ x ∈ l ∧ x ∈ it.docs) :
    Yields terms plan { s with postingIters := Function.update s.postingIters i it } l' := by
  have hforward : ∀ j, Forward (s.postingIters j) (Function.update s.postingIters i it j) :=
    (Function.forall_update_iff _ fun j => Forward (s.postingIters j)).mpr ⟨hfwd, fun _ _ => .refl⟩
  have hsuffix : ∀ j, (Function.update s.postingIters i it j).rest <:+ (s.postingIters j).rest :=
    (Function.forall_update_iff _ fun j it => rest it <:+ (s.postingIters j).rest).mpr
      ⟨hsuf, fun _ _ => suffix_rfl⟩
  have hcommon : ∀ x, Common plan.numTerms s.postingIters x ∧ x ∈ it.docs ↔
      Common plan.numTerms (Function.update s.postingIters i it) x := by
    intro x
    constructor
    · rintro ⟨hx, hxi⟩ j hj
      rcases eq_or_ne j i with rfl | hne
      · rwa [Function.update_self]
      · rw [Function.update_of_ne hne]
        exact hx j hj
    · intro hx
      refine ⟨fun j hj => map_subset _ (hsuffix j).subset (hx j hj), ?_⟩
      have := hx i hi
      rwa [Function.update_self] at this
  refine ⟨h.inv.move hp ⟨ok_update h.inv.cursors.ok hit, ?_⟩ fun j _ => hsuffix j, fun x => ?_, hsorted⟩
  · exact h.inv.cursors.cache.forward (hforward _) (hforward _)
  · rw [hl, h.common]
    exact hcommon x

/-- A cursor that stands on the first common document steps over it. -/
theorem Yields.advance (h : Yields terms plan s (d :: l))
    (hi : i < plan.numTerms) (hne : (s.postingIters i).rest ≠ []) (hdoc : (s.postingIters i).doc = d) :
    Yields terms plan
      { s with postingIters := Function.update s.postingIters i (s.postingIters i).advance } l := by
  have hok := h.inv.cursors.ok i hi
  have hsorted := pairwise_cons.mp h.sorted
  refine h.update hp hi hok.advance.1 (hok.advance.2 ▸ tail_suffix _) forward_advance hsorted.2
    fun x => ?_
  rw [hok.mem_docs_advance hne, hdoc, mem_cons]
  constructor
  · intro hx
    exact ⟨.inr hx, (h.common x).mp (mem_cons_of_mem _ hx) i hi, (hsorted.1 x hx).ne'⟩
  · rintro ⟨hx, -, hxd⟩
    exact hx.resolve_left hxd

theorem Yields.advanceAligned (h : Yields terms plan s (d :: l))
    (ha : Aligned plan.numTerms s.postingIters d) : Yields terms plan (s.advanceAligned plan) l := by
  unfold PhraseScorer.advanceAligned
  split
  case isTrue h2 =>
    obtain ⟨hne₀, hdoc₀⟩ := ha 0 (by omega)
    obtain ⟨hne₁, hdoc₁⟩ := ha 1 (by omega)
    have hfirst := h.advance hp (by omega) hne₀ hdoc₀
    -- the second cursor steps over the same document
    have hok := h.inv.cursors.ok 1 (by omega)
    refine hfirst.update hp (i := 1) (by omega) hok.advance.1 ?_ ?_ hfirst.sorted fun x => ?_
    · show _ <:+ (Function.update s.postingIters 0 (s.postingIters 0).advance 1).rest
      rw [Function.update_of_ne (by decide), hok.advance.2]
      exact tail_suffix _
    · show Forward (Function.update s.postingIters 0 (s.postingIters 0).advance 1) _
      exact forward_advance
    · refine ⟨fun hx => ⟨hx, ?_⟩, And.left⟩
      rw [hok.mem_docs_advance hne₁, hdoc₁]
      exact ⟨(h.common x).mp (mem_cons_of_mem _ hx) 1 (by omega),
        ((pairwise_cons.mp h.sorted).1 x hx).ne'⟩
  case isFalse =>
    obtain ⟨hne, hdoc⟩ := ha _ hp.planOk.lead_lt
    exact h.advance hp hp.planOk.lead_lt hne hdoc

theorem Yields.seekLead (h : Yields terms plan s l) (target : Nat) :
    Yields terms plan (s.seekLead plan target) (l.dropWhile (· < target)) := by
  have hlead := hp.planOk.lead_lt
  have hok := h.inv.cursors.ok _ hlead
  refine h.update hp hlead (hok.seek target).1 (hok.rest_seek_suffix target) forward_seek
    (h.sorted.sublist (dropWhile_sublist _)) fun x => ?_
  rw [mem_dropWhile_lt h.sorted, hok.mem_docs_seek]
  exact ⟨fun ⟨hx, ht⟩ => ⟨hx, (h.common x).mp hx _ hlead, ht⟩, fun ⟨hx, _, ht⟩ => ⟨hx, ht⟩⟩

/-! ## Searches -/

variable (kernel) in
/-- A search parks on the first common document. -/
theorem findNextCandidate_spec (h : Pending terms plan s l b) :
    (s.findNextCandidate plan kernel).1 = l.headD terminated ∧
      Sim terms plan (s.findNextCandidate plan kernel).2 ⟨l, b && l.head? == some s.currentDoc⟩ := by
  have hplan := hp.planOk
  have hn := hplan.two_le
  have hfound : Found plan s.postingIters
      (findLoop plan kernel (fuel plan s.postingIters) s.intersection s.postingIters) :=
    findLoop_spec hplan h.yields.inv.cursors (Nat.lt_succ_self _)
  obtain ⟨hok, hkept, hres⟩ := hfound
  unfold findNextCandidate findNextAndMatch
  rw [if_neg (by omega), if_neg (by omega)]
  generalize findLoop plan kernel (fuel plan s.postingIters) s.intersection s.postingIters = r
    at hok hkept hres
  obtain ⟨doc, x, its⟩ := r
  simp only [] at hok hkept hres ⊢
  have hinv : Inv terms plan { s with intersection := x, postingIters := its } :=
    h.yields.inv.move hp hok hkept.suffix
  have hyields : Yields terms plan { s with intersection := x, postingIters := its } l :=
    ⟨hinv, fun y => (h.yields.common y).trans hkept.common_iff.symm, h.yields.sorted⟩
  rcases hres with ⟨rfl, hnone⟩ | ⟨hlt, ha⟩
  · -- no common document is left
    obtain rfl : l = [] := eq_nil_iff_forall_not_mem.mpr fun y hy =>
      hnone y ((h.yields.common y).mp hy)
    refine ⟨rfl, ?_⟩
    split
    case isTrue => exact .ended (hinv.park ..) rfl
    case isFalse heq => exact .ended hinv (not_not.mp heq).symm
  · -- the cursors stand on the first of them
    have hmem : doc ∈ l := (hyields.common doc).mpr (common_of_aligned hok.ok ha)
    obtain ⟨d, ds, rfl⟩ := exists_cons_of_ne_nil (ne_nil_of_mem hmem)
    obtain rfl : d = doc := by
      have hge : doc ≤ d := by
        have h0 : 0 < plan.numTerms := by omega
        rw [← (ha 0 h0).2]
        exact common_ge (hok.ok 0 h0) h0 ((hyields.common d).mp mem_cons_self)
      rcases mem_cons.mp hmem with heq | hmem
      · exact heq.symm
      · have := (pairwise_cons.mp h.yields.sorted).1 doc hmem
        omega
    refine ⟨rfl, ?_⟩
    split
    case isTrue hne =>
      have hflag : (b && (d :: ds).head? == some s.currentDoc) = false := by
        have hne' : d ≠ s.currentDoc := hne
        simp [hne']
      exact ⟨hinv.park .., ⟨hinv.park .., hyields.common, hyields.sorted⟩, rfl, hlt, ha,
        .inl ⟨rfl, rfl, hflag⟩⟩
    case isFalse heq =>
      have hcur : d = s.currentDoc := not_not.mp heq
      have hflag : (b && (d :: ds).head? == some s.currentDoc) = b := by simp [← hcur]
      rw [hflag]
      exact ⟨hinv, hyields, hcur.symm, hlt, ha, h.knows d rfl hcur.symm⟩

theorem confirmCandidate_spec (h : Sim terms plan s ⟨d :: l, b⟩) :
    (s.confirmCandidate plan).1 = PhraseView.holds (countIn terms plan) d ∧
      Sim terms plan (s.confirmCandidate plan).2
        ⟨d :: l, PhraseView.holds (countIn terms plan) d⟩ := by
  obtain ⟨hinv, hyields, hdoc, hlt, ha, hk⟩ := h
  unfold confirmCandidate
  rw [if_neg (by omega)]
  rcases hk with ⟨hnone, -, -⟩ | ⟨hsome, rfl, hfirst, hfreq⟩
  · obtain ⟨hreads, hmatched, hfirst, hfreq⟩ :=
      PhraseCheck.checkPhrasePositions_spec (hp.positions d) (hinv.reads hp ha)
    rw [hnone]
    generalize s.check.checkPhrasePositions plan s.postingIters = r at hreads hmatched hfirst hfreq
    obtain ⟨matched, check⟩ := r
    have hm : matched = PhraseView.holds (countIn terms plan) d := hmatched
    have hinv' : Inv terms plan { s with check, confirmed := some matched } :=
      ⟨hinv.cursors, hinv.entries, fun i hi =>
        ⟨hreads.ok i (hp.numTerms.symm ▸ hi), hreads.stream i (hp.numTerms.symm ▸ hi)⟩⟩
    exact ⟨hm, hinv', ⟨hinv', hyields.common, hyields.sorted⟩, hdoc, hlt, ha,
      .inr ⟨congrArg some hm, rfl, hfirst.trans hm, fun ht => hfreq (hm.trans ht)⟩⟩
  · rw [hsome]
    exact ⟨rfl, hinv, hyields, hdoc, hlt, ha, .inr ⟨hsome, rfl, hfirst, hfreq⟩⟩

variable (kernel) in
theorem phraseLoop_spec (h : Pending terms plan s l b) (hfuel : l.length < fuel) :
    Sim terms plan (phraseLoop plan kernel fuel s) (PhraseView.toMatch (countIn terms plan) l) := by
  induction fuel generalizing s l b with
  | zero => omega
  | succ fuel ih =>
    obtain ⟨hres, hsim⟩ := findNextCandidate_spec kernel hp h
    unfold phraseLoop
    simp only []
    rw [hres]
    cases l with
    | nil =>
      exact hsim
    | cons d ds =>
      have hlt : d < terminated := hsim.2.2.2.1
      rw [headD_cons, if_neg (by omega)]
      obtain ⟨hmatched, hsim'⟩ := confirmCandidate_spec hp hsim
      rw [hmatched]
      have hdoc : ((s.findNextCandidate plan kernel).2.confirmCandidate plan).2.currentDoc = d :=
        hsim'.doc_eq
      cases hd : PhraseView.holds (countIn terms plan) d with
      | true =>
        rw [hd] at hsim'
        rw [PhraseView.toMatch_of_holds hd]
        exact hsim'
      | false =>
        rw [if_neg (by simp), if_neg (by omega), PhraseView.toMatch_of_not_holds hd]
        obtain ⟨-, hyields, -, -, ha, -⟩ := hsim'
        rw [length_cons] at hfuel
        exact ih (b := false) (.of_past (hyields.advanceAligned hp ha) hdoc
          (pairwise_cons.mp hyields.sorted).1) (by omega)

variable (kernel) in
theorem findNextPhraseMatch_spec (h : Pending terms plan s l b) :
    Sim terms plan (s.findNextPhraseMatch plan kernel) (PhraseView.toMatch (countIn terms plan) l) :=
  phraseLoop_spec kernel hp h (Nat.lt_succ_of_le (h.yields.length_le hp))

/-! ## Calls -/

/-- A seek of the driving list keeps what is known while the document stays. -/
theorem pending_seekLead (h : Sim terms plan s ⟨d :: l, b⟩) (target : Nat) :
    Pending terms plan (s.seekLead plan target) ((d :: l).dropWhile (· < target)) b := by
  obtain ⟨-, hyields, hdoc, -, -, hk⟩ := h
  refine ⟨Yields.seekLead hp hyields target, fun x _ hcur => ?_⟩
  obtain rfl : d = x := hdoc.symm.trans hcur
  exact hk

variable (kernel) in
/-- Every call answers and moves as the view does. -/
theorem call_spec (h : Sim terms plan s v) (c : PhraseCall) :
    (s.call plan kernel c).1 = (v.call (countIn terms plan) c).1 ∧
      Sim terms plan (s.call plan kernel c).2 (v.call (countIn terms plan) c).2 := by
  -- a call that returns the document is settled by the state it leaves
  have hmoves : ∀ {s' v'}, Sim terms plan s' v' →
      (call.reply s').1 = (PhraseView.call.reply v').1 ∧
        Sim terms plan (call.reply s').2 (PhraseView.call.reply v').2 :=
    fun hs => ⟨congrArg PhraseReply.doc hs.doc_eq, hs⟩
  obtain ⟨left, confirmed⟩ := v
  cases left with
  | nil =>
    obtain ⟨hinv, hend⟩ := id h
    simp only [PhraseView.call, PhraseView.from_nil]
    cases c with
    | score => exact ⟨congrArg PhraseReply.score (score_spec h).1, (score_spec h).2⟩
    | advance | advanceCandidate =>
      simp only [call, advance, advanceCandidate, if_pos hend]
      exact hmoves (.ended hinv hend)
    | seek | seekCandidate =>
      simp only [call, seek, seekCandidate, if_pos (Or.inr hend)]
      exact hmoves (.ended (hinv.park ..) rfl)
    | confirmCandidate =>
      simp only [call, confirmCandidate, if_pos hend]
      exact ⟨rfl, .ended hinv hend⟩
  | cons d ds =>
    obtain ⟨-, hyields, hdoc, hlt, ha, -⟩ := id h
    have hcur : s.currentDoc ≠ terminated := by omega
    have hpast := (pairwise_cons.mp hyields.sorted).1
    cases c with
    | score => exact ⟨congrArg PhraseReply.score (score_spec h).1, (score_spec h).2⟩
    | advance =>
      simp only [call, advance, if_neg hcur]
      exact hmoves (findNextPhraseMatch_spec kernel (b := false) hp
        (.of_past (hyields.advanceAligned hp ha) hdoc hpast))
    | seek target =>
      refine hmoves ?_
      unfold seek PhraseView.from_
      by_cases ht : target = terminated
      · rw [if_pos (.inl ht), if_pos ht]
        exact .ended (h.1.park ..) rfl
      · rw [if_neg (not_or.mpr ⟨ht, hcur⟩), if_neg ht]
        exact findNextPhraseMatch_spec kernel hp (pending_seekLead hp h target)
    | advanceCandidate =>
      simp only [call, advanceCandidate, if_neg hcur]
      obtain ⟨hne, hleadDoc⟩ := ha _ hp.planOk.lead_lt
      have hnext := hyields.advance hp hp.planOk.lead_lt hne hleadDoc
      exact hmoves (findNextCandidate_spec kernel hp (Pending.of_past (b := false) hnext hdoc hpast)).2
    | seekCandidate target =>
      refine hmoves ?_
      unfold seekCandidate PhraseView.from_
      by_cases ht : target = terminated
      · simp only [if_pos ht]
        rw [if_pos (.inl ht)]
        exact .ended (h.1.park ..) rfl
      · simp only [if_neg ht]
        rw [if_neg (not_or.mpr ⟨ht, hcur⟩)]
        have hs := (findNextCandidate_spec kernel hp (pending_seekLead hp h target)).2
        rw [show (s.seekLead plan target).currentDoc = d from hdoc] at hs
        exact hs
    | confirmCandidate =>
      obtain ⟨hres, hsim⟩ := confirmCandidate_spec hp h
      exact ⟨congrArg PhraseReply.confirmed hres, hsim⟩

variable (kernel) in
theorem replies_of_sim (h : Sim terms plan s v) (calls : List PhraseCall) :
    s.replies plan kernel calls = v.replies (countIn terms plan) calls := by
  induction calls generalizing s v with
  | nil => rfl
  | cons c calls ih =>
    obtain ⟨hreply, hsim⟩ := call_spec kernel hp h c
    rw [replies, PhraseView.replies, hreply, ih hsim]

/-- Collecting visits the documents that hold the phrase. -/
theorem hits_of_sim (h : Sim terms plan s (PhraseView.toMatch (countIn terms plan) l))
    (hfuel : (l.filter (PhraseView.holds (countIn terms plan))).length < fuel) :
    hits plan kernel fuel s = (l.filter (PhraseView.holds (countIn terms plan))).map fun d =>
      (d, countIn terms plan d) := by
  induction l generalizing s fuel with
  | nil =>
    obtain ⟨fuel, rfl⟩ := Nat.exists_eq_succ_of_ne_zero (Nat.ne_zero_of_lt hfuel)
    rw [hits]
    simp only [(score_spec h).1]
    rfl
  | cons d ds ih =>
    cases hd : PhraseView.holds (countIn terms plan) d with
    | true =>
      rw [PhraseView.toMatch_of_holds hd] at h
      rw [filter_cons_of_pos hd] at hfuel ⊢
      rw [length_cons] at hfuel
      obtain ⟨fuel, rfl⟩ := Nat.exists_eq_succ_of_ne_zero (Nat.ne_zero_of_lt hfuel)
      obtain ⟨hscore, hsim⟩ := score_spec h
      obtain ⟨-, hnext⟩ := call_spec kernel hp hsim .advance
      have hdoc : s.currentDoc = d := h.doc_eq
      rw [hits]
      simp only [hscore]
      rw [map_cons, hdoc]
      exact congrArg _ (ih hnext (by omega))
    | false =>
      rw [PhraseView.toMatch_of_not_holds hd] at h
      rw [filter_cons_of_neg (by simp [hd])] at hfuel ⊢
      exact ih h hfuel

end

/-! ## The start -/

theorem mem_phraseCandidates (h : terms ≠ []) :
    d ∈ phraseCandidates terms ↔ ∀ t ∈ terms, d ∈ t.entries.map (·.docId) := by
  obtain ⟨t, ts, rfl⟩ := exists_cons_of_ne_nil h
  simp only [phraseCandidates, head?_cons, Option.map_some, Option.getD_some, mem_filter,
    decide_eq_true_eq, and_iff_right_iff_imp]
  exact fun hall => hall t mem_cons_self

theorem phraseCandidates_sorted : (phraseCandidates terms).Pairwise (· < ·) := by
  refine List.Pairwise.filter _ ?_
  cases terms with
  | nil => exact .nil
  | cons t ts => exact t.sorted

variable (offsets slop) in
theorem planned_unpositioned (h : 2 ≤ terms.length) : Planned terms (.unpositioned terms offsets slop) :=
  ⟨rfl, fun d => positionsOk_unpositioned h d⟩

theorem iters_unpositioned (hi : i < terms.length) :
    (unpositioned terms offsets slop).postingIters i = .new terms[i].blocks := by
  simp [unpositioned, hi]

variable (offsets slop) in
theorem pending_unpositioned (h : 2 ≤ terms.length) :
    Pending terms (.unpositioned terms offsets slop) (unpositioned terms offsets slop)
      (phraseCandidates terms) false where
  knows := fun _ _ _ => .inl ⟨rfl, rfl, rfl⟩
  yields :=
    { inv :=
        { cursors := by
            refine ⟨fun i hi => ?_, PostingIntersection.cacheOk_withCosts ..⟩
            have hi' : i < terms.length := hi
            rw [iters_unpositioned hi']
            exact .new terms[i].nonempty terms[i].short terms[i].sorted terms[i].bounded
          entries := by
            intro i hi
            rw [iters_unpositioned hi, rest_new]
            exact suffix_rfl
          lists := by
            intro i hi
            have hlist : (unpositioned terms offsets slop).check.positionLists i =
              .new (streamOf terms i) := rfl
            rw [hlist, streamOf_eq hi]
            exact ⟨TermPositionCursor.ok_new terms[i].admitted, rfl⟩ }
      common := by
        intro d
        rw [mem_phraseCandidates (ne_nil_of_length_pos (by omega)), forall_mem_iff_getElem]
        refine forall₂_congr fun i hi => ?_
        rw [docs, iters_unpositioned hi, rest_new]
        rfl
      sorted := phraseCandidates_sorted }

theorem mem_phraseMatches (h : terms ≠ []) : d ∈ phraseMatches terms offsets slop ↔
    ∃ p ∈ positionsOf terms 0 d, PhraseAt terms offsets slop d p := by
  rw [phraseMatches, mem_filter, mem_phraseCandidates h, decide_eq_true_eq, phraseFrequency,
    countP_pos_iff]
  simp only [decide_eq_true_eq]
  refine and_iff_right_of_imp ?_
  rintro ⟨p, hp, hat⟩ t ht
  obtain ⟨i, hi, rfl⟩ := mem_iff_getElem.mp ht
  rcases Nat.eq_zero_or_pos i with rfl | hpos
  · rw [positionsOf_eq hi] at hp
    exact PhraseTerm.mem_docs_of_positionsIn hp
  · obtain ⟨q, hq, -⟩ := hat i hi hpos
    rw [positionsOf_eq hi] at hq
    exact PhraseTerm.mem_docs_of_positionsIn hq

/-- A scorer of two or more terms visits the documents that hold the phrase in ascending order, and
answers every sequence of calls as its view does. -/
theorem replies_eq (kernel : IntersectKernel) (terms : List PhraseTerm) (offsets : List Nat) (slop : Nat)
    (calls : List PhraseCall) (hterms : 2 ≤ terms.length) (hlen : offsets.length = terms.length)
    (hoff : offsets.Pairwise (· ≤ ·)) :
    (∀ d, d ∈ phraseMatches terms offsets slop ↔
        ∃ p ∈ positionsOf terms 0 d, PhraseAt terms offsets slop d p) ∧
      (phraseMatches terms offsets slop).Pairwise (· < ·) ∧
      (.doc (start kernel terms offsets slop).currentDoc ::
          (start kernel terms offsets slop).replies (.unpositioned terms offsets slop) kernel
            (replicate (phraseMatches terms offsets slop).length .advance) =
        (phraseMatches terms offsets slop).map .doc ++ [.doc terminated]) ∧
      (start kernel terms offsets slop).replies (.unpositioned terms offsets slop) kernel calls =
        (PhraseView.toMatch (phraseFrequency terms offsets slop) (phraseCandidates terms)).replies
          (phraseFrequency terms offsets slop) calls := by
  have hp := planned_unpositioned offsets slop hterms
  have hcount : countIn terms (.unpositioned terms offsets slop) = phraseFrequency terms offsets slop :=
    funext fun d => phraseCount_eq hterms hlen hoff d
  have hstart := findNextPhraseMatch_spec kernel hp
    (pending_unpositioned offsets slop hterms)
  rw [hcount] at hstart
  have hruns := fun calls => hcount ▸ replies_of_sim kernel hp hstart calls
  refine ⟨fun d => mem_phraseMatches (ne_nil_of_length_pos (by omega)),
    phraseCandidates_sorted.filter _, ?_, hruns calls⟩
  refine Eq.trans ?_ (PhraseView.replies_advances _ _)
  exact congrArg₂ _ (congrArg _ hstart.doc_eq) (hruns _)

/-- A caller collects the documents that hold the phrase, with their phrase frequencies. -/
theorem hits_start (kernel : IntersectKernel) (hterms : 2 ≤ terms.length)
    (hlen : offsets.length = terms.length) (hoff : offsets.Pairwise (· ≤ ·))
    (hfuel : (phraseMatches terms offsets slop).length < fuel) :
    hits (.unpositioned terms offsets slop) kernel fuel (start kernel terms offsets slop) =
      (phraseMatches terms offsets slop).map fun d => (d, phraseFrequency terms offsets slop d) := by
  have hp := planned_unpositioned offsets slop hterms
  have hcount : countIn terms (.unpositioned terms offsets slop) = phraseFrequency terms offsets slop :=
    funext fun d => phraseCount_eq hterms hlen hoff d
  have hstart := findNextPhraseMatch_spec kernel hp (pending_unpositioned offsets slop hterms)
  have hres : hits _ kernel fuel (start kernel terms offsets slop) = _ :=
    hits_of_sim hp hstart (by rw [hcount]; exact hfuel)
  rw [hcount] at hres
  exact hres

/-- A word at positions 0, 0 and 4 of one document and 2 of another. -/
def sampleFirst : PhraseTerm where
  blocks := [[⟨0, 3, 0⟩, ⟨1, 1, 3⟩]]
  positions := ⟨[(0, [0, 0, 4, 2])], 4, false⟩
  nonempty := by decide
  short := by decide
  sorted := by decide
  bounded := by decide
  admitted := by decide
  addressed := by decide
  freq_lt := by decide
  positions_lt := by decide
  unique := by decide

/-- A word at position 1 of the first document and 5 of the second. -/
def sampleSecond : PhraseTerm where
  blocks := [[⟨0, 1, 0⟩, ⟨1, 1, 1⟩]]
  positions := ⟨[(0, [1, 5])], 2, true⟩
  nonempty := by decide
  short := by decide
  sorted := by decide
  bounded := by decide
  admitted := by decide
  addressed := by decide
  freq_lt := by decide
  positions_lt := by decide
  unique := by decide

theorem replies_sample :
    phraseMatches [sampleFirst, sampleSecond] [0, 1] 0 = [0] ∧
      (start intersectPostingBlocks [sampleFirst, sampleSecond] [0, 1] 0).replies
          (.unpositioned [sampleFirst, sampleSecond] [0, 1] 0) intersectPostingBlocks
          [.score, .advanceCandidate, .confirmCandidate] =
        [.score (some 2), .doc 1, .confirmed false] := by
  refine ⟨by decide, ?_⟩
  rw [(replies_eq intersectPostingBlocks [sampleFirst, sampleSecond] [0, 1] 0
    [.score, .advanceCandidate, .confirmCandidate] (by decide) (by decide) (by decide)).2.2.2]
  decide

end PhraseScorer

end Summa
