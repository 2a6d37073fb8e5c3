import Summa.Query.DocSetCombinators

/-!
# Runs of document cursors

A `DocSetTree` is a nesting of the cursors of `Summa.Query.DocSet` over lawful inner cursors. It denotes
a set of documents (`members`); `ScalarDocs` answers the calls by going through that set one document
at a time. `DocSetTree.run_iff` compares the two: a run of the tree gives the answers of the scalar
iteration exactly when no window at `u32::MAX` is asked of a tree that is stuck on a bitmap.
-/

namespace Summa

open List

/-! ## Calls -/

/-- The calls that move a cursor. -/
inductive DocSetCall where
  | advance
  | seek (target : Nat)
  | fillDocBatch
  | retainDocBatch (docs : List Nat)
  | fillDocWindow (base : Nat)
  deriving DecidableEq, Repr

/-- What the trait asks of the arguments: ids are `u32`, a batch is sorted and holds documents. -/
def DocSetCall.Ok : DocSetCall → Prop
  | .seek target => target ≤ terminated
  | .retainDocBatch docs => Probes docs
  | .fillDocWindow base => base ≤ terminated
  | _ => True

instance (docs : List Nat) : Decidable (Probes docs) :=
  decidable_of_iff (docs.Pairwise (· < ·) ∧ (∀ d ∈ docs, d < terminated) ∧ docs.length ≤ docBatchSize)
    ⟨fun h => ⟨⟨h.1, h.2.1⟩, h.2.2⟩, fun h => ⟨h.sorted, h.below, h.short⟩⟩

instance : (call : DocSetCall) → Decidable call.Ok
  | .seek target => inferInstanceAs (Decidable (target ≤ terminated))
  | .retainDocBatch docs => inferInstanceAs (Decidable (Probes docs))
  | .fillDocWindow base => inferInstanceAs (Decidable (base ≤ terminated))
  | .advance => .isTrue trivial
  | .fillDocBatch => .isTrue trivial

/-- The documents a call reports, and the document the cursor rests on after it. -/
structure DocSetReply where
  reported : List Nat
  rests : Nat
  deriving DecidableEq, Repr

section

variable {σ : Type} (docSet : DocSet σ)

/-- One call. A move reports the document it returns. -/
def DocSet.call (s : σ) : DocSetCall → List Nat × σ
  | .advance => ([(docSet.advance s).1], (docSet.advance s).2)
  | .seek target => ([(docSet.seek s target).1], (docSet.seek s target).2)
  | .fillDocBatch => docSet.fillDocBatch s
  | .retainDocBatch docs => docSet.retainDocBatch s docs
  | .fillDocWindow base => ((docSet.fillDocWindow s base).1.docs base, (docSet.fillDocWindow s base).2)

def DocSet.replies (s : σ) : List DocSetCall → List DocSetReply
  | [] => []
  | call :: calls =>
    let answer := docSet.call s call
    ⟨answer.1, docSet.doc answer.2⟩ :: DocSet.replies answer.2 calls

end

/-- Scalar iteration: the documents still to report. -/
abbrev ScalarDocs := List Nat

namespace ScalarDocs

def call (left : ScalarDocs) : DocSetCall → List Nat × ScalarDocs
  | .advance => ([front left.tail], left.tail)
  | .seek target => ([front (fromDoc left target)], fromDoc left target)
  | .fillDocBatch => (left.take docBatchSize, left.drop docBatchSize)
  | .retainDocBatch docs => (docs.filter (· ∈ left), afterProbes left docs)
  | .fillDocWindow base => (left.filter (fun d => base ≤ d ∧ d < windowEnd base), fromDoc left (windowEnd base))

def replies (left : ScalarDocs) : List DocSetCall → List DocSetReply
  | [] => []
  | call :: calls =>
    let answer := ScalarDocs.call left call
    ⟨answer.1, front answer.2⟩ :: ScalarDocs.replies answer.2 calls

end ScalarDocs

/-! ## Trees -/

/-- A cursor from elsewhere that keeps the contract of the trait. -/
structure InnerCursor (σ : Type) where
  docSet : DocSet σ
  Views : σ → List Nat → Prop
  lawful : LawfulDocSet docSet Views fun _ => false
  start : σ
  members : List Nat
  view : Views start members

mutual

/-- A nesting of cursors, with the type of its state. -/
inductive DocSetTree : Type → Type 1 where
  | inner {σ : Type} (cursor : InnerCursor σ) : DocSetTree σ
  | sortedVec (docs : SortedDocs) : DocSetTree SortedVecDocSet
  | bitset (bits : DocBitset) (below : ∀ d, bits.contains d = true → d < terminated) :
    DocSetTree BitsetDocSet
  | intersection {α β : Type} (a : DocSetTree α) (b : DocSetTree β) : DocSetTree (IntersectionDocSet α β)
  | predicated {δ μ ν : Type} (driver : DocSetTree δ) (predicates : List (Nat → Bool))
    (must : VerifierTrees μ) (mustNot : VerifierTrees ν) : DocSetTree (PredicatedScorer δ μ ν)

/-- A vector of boxed nestings. -/
inductive VerifierTrees : Type → Type 1 where
  | nil : VerifierTrees Unit
  | cons {σ ω : Type} (verifier : DocSetTree σ) (rest : VerifierTrees ω) : VerifierTrees (σ × ω)

end

mutual

/-- The methods of a tree. -/
def DocSetTree.docSet : {σ : Type} → DocSetTree σ → DocSet σ
  | _, .inner cursor => cursor.docSet
  | _, .sortedVec _ => SortedVecDocSet.docSet
  | _, .bitset _ _ => BitsetDocSet.docSet
  | _, .intersection a b => IntersectionDocSet.docSet a.docSet.toCursor b.docSet.toCursor
  | _, .predicated driver _ must mustNot =>
    PredicatedScorer.docSet driver.docSet must.cursors mustNot.cursors

def VerifierTrees.cursors : {ω : Type} → VerifierTrees ω → CursorVec ω
  | _, .nil => .nil
  | _, .cons verifier rest => .cons verifier.docSet.toCursor rest.cursors

end

mutual

/-- The tree as it is constructed. -/
def DocSetTree.new : {σ : Type} → DocSetTree σ → σ
  | _, .inner cursor => cursor.start
  | _, .sortedVec docs => SortedVecDocSet.new docs
  | _, .bitset bits below => BitsetDocSet.new bits below
  | _, .intersection a b => IntersectionDocSet.new a.docSet.toCursor b.docSet.toCursor a.new b.new
  | _, .predicated driver predicates must mustNot =>
    PredicatedScorer.new driver.docSet must.cursors mustNot.cursors driver.new predicates must.new mustNot.new

def VerifierTrees.new : {ω : Type} → VerifierTrees ω → ω
  | _, .nil => ()
  | _, .cons verifier rest => (verifier.new, rest.new)

end

mutual

/-- The documents a tree denotes, in order. -/
def DocSetTree.members : {σ : Type} → DocSetTree σ → List Nat
  | _, .inner cursor => cursor.members
  | _, .sortedVec docs => docs.docs
  | _, .bitset bits _ => (range (64 * bits.bits.length)).filter bits.contains
  | _, .intersection a b => common a.members b.members
  | _, .predicated driver predicates must mustNot =>
    driver.members.filter (PredicatedScorer.Filters.accepts ⟨predicates, must.members, mustNot.members⟩)

def VerifierTrees.members : {ω : Type} → VerifierTrees ω → List (List Nat)
  | _, .nil => []
  | _, .cons verifier rest => verifier.members :: rest.members

end

namespace DocSetTree

/-- Whether a window at `u32::MAX` would leave documents unconsumed: the tree, or the driver of the
predicated cursors at its root, is a bitmap that has documents left. -/
def stuck : {σ : Type} → DocSetTree σ → σ → Bool
  | _, .inner _, _ => false
  | _, .sortedVec _, _ => false
  | _, .bitset _ _, s => s.stuck
  | _, .intersection _ _, _ => false
  | _, .predicated driver _ _ _, s => driver.stuck s.driver

/-- What a state of the tree has still to report. -/
def Views : {σ : Type} → DocSetTree σ → σ → List Nat → Prop
  | _, .inner cursor => cursor.Views
  | _, .sortedVec _ => SortedVecDocSet.Views
  | _, .bitset _ _ => BitsetDocSet.Views
  | _, .intersection a b => IntersectionDocSet.Views a.Views b.Views
  | _, .predicated driver predicates must mustNot =>
    PredicatedScorer.Views driver.Views must.cursors mustNot.cursors
      ⟨predicates, must.members, mustNot.members⟩

theorem lawful {σ : Type} : (tree : DocSetTree σ) → LawfulDocSet tree.docSet tree.Views tree.stuck
  | .inner cursor => cursor.lawful
  | .sortedVec _ => SortedVecDocSet.lawful
  | .bitset _ _ => BitsetDocSet.lawful
  | .intersection a b => IntersectionDocSet.lawful a.lawful.toLawfulCursor b.lawful.toLawfulCursor
  | .predicated driver _ _ _ => PredicatedScorer.lawful driver.lawful

end DocSetTree

theorem BitsetDocSet.views_new (bits : DocBitset) (below : ∀ d, bits.contains d = true → d < terminated) :
    BitsetDocSet.Views (.new bits below) ((range (64 * bits.bits.length)).filter bits.contains) := by
  have hrise : RisingDocs ((range (64 * bits.bits.length)).filter bits.contains) :=
    ⟨pairwise_lt_range.filter _, fun d hd => below d (mem_filter.mp hd).2⟩
  have hmem : ∀ d, d ∈ (range (64 * bits.bits.length)).filter bits.contains ↔
      bits.contains d = true ∧ 0 ≤ d := by
    intro d
    rw [mem_filter, mem_range, and_iff_left (Nat.zero_le d)]
    refine and_iff_right_of_imp fun hc => ?_
    by_contra hlt
    rw [DocBitset.contains_of_length_le (not_lt.mp hlt)] at hc
    cases hc
  let start : BitsetDocSet := .new bits below
  exact start.views_of_target hrise hmem

mutual

theorem DocSetTree.views_new : {σ : Type} → (tree : DocSetTree σ) → tree.Views tree.new tree.members
  | _, .inner cursor => cursor.view
  | _, .sortedVec _ => drop_zero
  | _, .bitset bits below => BitsetDocSet.views_new bits below
  | _, .intersection a b =>
    IntersectionDocSet.views_new a.lawful.toLawfulCursor b.lawful.toLawfulCursor a.views_new b.views_new
  | _, .predicated driver predicates must mustNot =>
    PredicatedScorer.views_new driver.lawful ⟨predicates, must.members, mustNot.members⟩ driver.views_new must.decides_new mustNot.decides_new

theorem VerifierTrees.decides_new : {ω : Type} → (trees : VerifierTrees ω) →
    trees.cursors.Decides 0 trees.new trees.members
  | _, .nil => .nil
  | _, .cons verifier rest =>
    .cons verifier.lawful.toLawfulCursor verifier.views_new (fun _ _ => Iff.rfl) rest.decides_new

end

/-! ## Runs -/

theorem windowEnd_terminated : windowEnd terminated = terminated := Nat.min_eq_right (Nat.le_add_right _ _)

/-- The documents of a window are those of the list inside it. -/
theorem WindowOf.docs_eq {window : DocWindow} {base : Nat} {left : List Nat} (hl : RisingDocs left)
    (h : WindowOf window base left) :
    window.docs base = left.filter (fun d => base ≤ d ∧ d < windowEnd base) := by
  have hend : windowEnd base ≤ base + docWindowSize := Nat.min_le_left _ _
  have hmem : ∀ d, d ∈ window.docs base ↔ d ∈ left ∧ base ≤ d ∧ d < windowEnd base := by
    intro d
    simp only [DocWindow.docs, mem_map, mem_filter, mem_range]
    constructor
    · rintro ⟨o, ⟨ho, hc⟩, rfl⟩
      obtain ⟨hm, hlt⟩ := (h o ho).mp hc
      exact ⟨hm, by omega, hlt⟩
    · rintro ⟨hm, hle, hlt⟩
      have ho : d - base < docWindowSize := by omega
      have hd : base + (d - base) = d := by omega
      refine ⟨d - base, ⟨ho, (h _ ho).mpr ?_⟩, hd⟩
      rw [hd]
      exact ⟨hm, hlt⟩
  have hrise : RisingDocs (window.docs base) := by
    refine ⟨?_, fun d hd => hl.below d ((hmem d).mp hd).1⟩
    rw [DocWindow.docs, pairwise_map]
    exact (pairwise_lt_range.filter _).imp fun hlt => by omega
  refine hrise.eq (hl.filter _) fun d => ?_
  rw [hmem, mem_filter, decide_eq_true_iff]

/-- One call that does not ask a stuck cursor for the window at the end answers as the scalar iteration
does. -/
theorem LawfulDocSet.call_spec {σ : Type} {docSet : DocSet σ} {Views : σ → List Nat → Prop}
    {stuck : σ → Bool} (law : LawfulDocSet docSet Views stuck) {s : σ} {left : List Nat} (h : Views s left)
    {call : DocSetCall} (hok : call.Ok) (hsafe : call = .fillDocWindow terminated → stuck s = false) :
    (docSet.call s call).1 = (ScalarDocs.call left call).1 ∧
      Views (docSet.call s call).2 (ScalarDocs.call left call).2 := by
  cases call with
  | advance =>
    obtain ⟨hdoc, hview⟩ := law.advance h
    exact ⟨congrArg (fun d => [d]) hdoc, hview⟩
  | seek target =>
    obtain ⟨hdoc, hview⟩ := law.seek h target
    exact ⟨congrArg (fun d => [d]) hdoc, hview⟩
  | fillDocBatch => exact law.fillDocBatch h
  | retainDocBatch docs => exact law.retainDocBatch h hok
  | fillDocWindow base =>
    obtain ⟨hwindow, hview⟩ := law.fillDocWindow h hok fun hb => hsafe (by rw [hb])
    dsimp only [DocSet.call, ScalarDocs.call]
    exact ⟨hwindow.docs_eq (law.rising h), hview⟩

namespace DocSetTree

variable {σ : Type} (tree : DocSetTree σ)

/-- The call is not a window at `u32::MAX` asked of a stuck tree. -/
def safeCall (s : σ) : DocSetCall → Bool
  | .fillDocWindow base => base != terminated || !tree.stuck s
  | _ => true

/-- No call of the run is a window at `u32::MAX` asked of a stuck tree. -/
def safeRun (s : σ) : List DocSetCall → Bool
  | [] => true
  | call :: calls => tree.safeCall s call && safeRun (tree.docSet.call s call).2 calls

variable {tree}

theorem replies_iff {s : σ} {left : List Nat} (h : tree.Views s left) {calls : List DocSetCall}
    (hcalls : ∀ call ∈ calls, call.Ok) :
    tree.docSet.replies s calls = ScalarDocs.replies left calls ↔ tree.safeRun s calls = true := by
  induction calls generalizing s left with
  | nil => simp [DocSet.replies, ScalarDocs.replies, safeRun]
  | cons call calls ih =>
    have law := tree.lawful
    have hok := hcalls call mem_cons_self
    simp only [DocSet.replies, ScalarDocs.replies, safeRun, Bool.and_eq_true]
    rw [cons.injEq, DocSetReply.mk.injEq]
    by_cases hsafe : call = .fillDocWindow terminated → tree.stuck s = false
    · have hcall : tree.safeCall s call = true := by
        unfold safeCall
        split
        · next base =>
          rw [Bool.or_eq_true, bne_iff_ne, Bool.not_eq_true']
          exact Classical.or_iff_not_imp_left.mpr fun hb => hsafe (by rw [not_not.mp hb])
        · rfl
      obtain ⟨hreported, hview⟩ := law.call_spec h hok hsafe
      rw [ih hview fun c hc => hcalls c (mem_cons_of_mem _ hc)]
      simp only [hreported, law.doc hview, hcall, true_and]
    · -- the tree still stands on a document; the scalar iteration has consumed them all
      obtain ⟨rfl, hstuck⟩ := Classical.not_imp.mp hsafe
      rw [Bool.not_eq_false] at hstuck
      have hview : tree.Views (tree.docSet.call s (.fillDocWindow terminated)).2 left :=
        (law.stuck_window h hstuck).2
      have hrests : tree.docSet.doc (tree.docSet.call s (.fillDocWindow terminated)).2 ≠ terminated := by
        rw [law.doc hview]
        exact mt (law.rising h).front_eq_terminated.mp (law.stuck_left h hstuck)
      have hscalar : front (ScalarDocs.call left (.fillDocWindow terminated)).2 = terminated := by
        show front (fromDoc left (windowEnd terminated)) = terminated
        rw [windowEnd_terminated, (law.rising h).fromDoc_terminated, front_nil]
      have hcall : tree.safeCall s (.fillDocWindow terminated) = false := by simp [safeCall, hstuck]
      rw [hscalar, hcall]
      exact iff_of_false (fun hall => hrests hall.1.2) fun hall => Bool.false_ne_true hall.1

/-- A run of any tree of cursors gives the answers of a scalar iteration over the documents the tree
denotes, and rests where that iteration rests, exactly when no window at `u32::MAX` is asked of a tree
that is stuck on a bitmap. -/
theorem run_iff (tree : DocSetTree σ) (calls : List DocSetCall) (hcalls : ∀ call ∈ calls, call.Ok) :
    tree.docSet.replies tree.new calls = ScalarDocs.replies tree.members calls ↔
      tree.safeRun tree.new calls = true :=
  replies_iff tree.views_new hcalls

/-- A bitmap with the documents 0, 3 and 70. -/
def sampleBits : DocBitset := ⟨[9#64, 64#64]⟩

theorem sampleBits_below (d : Nat) (h : sampleBits.contains d = true) : d < terminated := by
  by_contra hge
  have hlen : 64 * sampleBits.bits.length ≤ terminated := by decide
  rw [DocBitset.contains_of_length_le (hlen.trans (not_lt.mp hge))] at h
  cases h

/-- The bitmap, filtered by a predicate and by a vector. -/
def sampleTree : DocSetTree (PredicatedScorer BitsetDocSet (SortedVecDocSet × Unit) Unit) :=
  .predicated (.bitset sampleBits sampleBits_below) [fun d => d != 0]
    (.cons (.sortedVec ⟨[0, 3, 5, 70], by decide, by decide⟩) .nil) .nil

theorem run_sampleTree :
    sampleTree.docSet.replies sampleTree.new [.fillDocWindow 2, .fillDocWindow terminated] =
      ScalarDocs.replies [3, 70] [.fillDocWindow 2, .fillDocWindow terminated] :=
  (run_iff sampleTree [.fillDocWindow 2, .fillDocWindow terminated] (by decide)).mpr (by decide +kernel)

/-- The window at `u32::MAX` leaves a bitmap on its first document, where the scalar iteration has
passed every document. -/
theorem bitset_window_at_end :
    (bitset sampleBits sampleBits_below).docSet.replies (bitset sampleBits sampleBits_below).new
      [.fillDocWindow terminated] ≠
    ScalarDocs.replies (bitset sampleBits sampleBits_below).members [.fillDocWindow terminated] := by
  decide +kernel

end DocSetTree

end Summa
