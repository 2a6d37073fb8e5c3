import Summa.Structures.IntersectAvx2
import Summa.Structures.PostingIntersection

/-!
# Runs of a posting intersection

A caller calls `intersect_block` until it gives a document, reads the frequencies there, and advances or
seeks one of the iterators or both. `replies` is what such a caller sees. It is what a cursor over the
common documents of the two lists gives (`replies_eq_commonReplies`): with every kernel, whether or not a
rare list drives the other one.
-/

namespace Summa

open List PostingIntersection

open BlockPostingIterator

/-- A caller's move to a later document. -/
inductive IntersectionCall where
  | advance
  | seek (target : Nat)
  deriving DecidableEq, Repr

namespace IntersectionCall

def apply (it : BlockPostingIterator) : IntersectionCall → BlockPostingIterator
  | .advance => it.advance
  | .seek target => it.seek target

/-- The call on a list of documents, the current one first. -/
def after (docs : List Nat) : IntersectionCall → List Nat
  | .advance => docs.tail
  | .seek target => docs.dropWhile (· < target)

variable {it : BlockPostingIterator} {docs : List Nat} {d : Nat}

theorem apply_ok (h : it.Ok) (call : IntersectionCall) : (call.apply it).Ok := by
  cases call with
  | advance => exact h.advance.1
  | seek target => exact (h.seek target).1

theorem apply_suffix (h : it.Ok) (call : IntersectionCall) : (call.apply it).rest <:+ it.rest := by
  cases call with
  | advance =>
    rw [apply, h.advance.2]
    exact tail_suffix _
  | seek target => exact h.rest_seek_suffix target

theorem forward_apply (it : BlockPostingIterator) (call : IntersectionCall) : Forward it (call.apply it) := by
  cases call with
  | advance => exact forward_advance
  | seek target => exact forward_seek

theorem after_suffix (call : IntersectionCall) : call.after docs <:+ docs := by
  cases call with
  | advance => exact tail_suffix _
  | seek target => exact dropWhile_suffix _

/-- A call drops the same from an iterator as from a list that starts with the same document. -/
theorem mem_after (h : it.Ok) (hs : docs.Pairwise (· < ·)) (hhead : ∀ x ∈ docs.head?, it.doc = x)
    (hd : d ∈ docs) (hit : d ∈ it.docs) (call : IntersectionCall) :
    d ∈ call.after docs ↔ d ∈ (call.apply it).docs := by
  cases call with
  | advance =>
    obtain ⟨x, xs, rfl⟩ := exists_cons_of_ne_nil (ne_nil_of_mem hd)
    have hne : it.rest ≠ [] := by simpa [BlockPostingIterator.docs] using ne_nil_of_mem hit
    rw [apply, h.mem_docs_advance hne, hhead x rfl, and_iff_right hit]
    constructor
    · exact fun hmem => ((pairwise_cons.mp hs).1 d hmem).ne'
    · exact fun hne => (mem_cons.mp hd).resolve_left hne
  | seek target =>
    rw [after, apply, mem_dropWhile_lt hs, h.mem_docs_seek, and_iff_right hd, and_iff_right hit]

end IntersectionCall

/-- The iterators that a caller moves. -/
inductive IntersectionSide where
  | left
  | right
  | both
  deriving DecidableEq, Repr

/-- The frequency of a document in a list. -/
def termFreqIn (list : List PostingEntry) (d : Nat) : Nat :=
  ((list.find? (·.docId = d)).map (·.termFreq)).getD 0

/-- The documents of both lists. -/
def commonDocs (left right : List PostingEntry) : List Nat :=
  (left.map (·.docId)).filter (· ∈ right.map (·.docId))

/-- A cursor over the common documents: the document and its frequencies before the first call and after
each one, and nothing once it is exhausted. -/
def commonReplies (left right : List PostingEntry) : List Nat → List IntersectionCall →
    List (Option (Nat × Nat × Nat))
  | docs, [] => [docs.head?.map fun d => (d, termFreqIn left d, termFreqIn right d)]
  | docs, call :: calls => (docs.head?.map fun d => (d, termFreqIn left d, termFreqIn right d)) ::
      commonReplies left right (call.after docs) calls

namespace PostingIntersection

/-- The caller's loop, for at most `fuel` calls. -/
def untilDoc (kernel : IntersectKernel) : Nat → PostingIntersection → BlockPostingIterator →
    BlockPostingIterator → Option (Nat × PostingIntersection × BlockPostingIterator × BlockPostingIterator)
  | 0, _, _, _ => none
  | fuel + 1, self, left, right =>
    let r := self.intersectBlock kernel left right
    match r.1 with
    | some d => some (d, r.2)
    | none => untilDoc kernel fuel r.2.1 r.2.2.1 r.2.2.2

/-- What the caller reads at a document. -/
def reply (d : Nat) (left right : BlockPostingIterator) : Option (Nat × Nat × Nat) :=
  if d = terminated then none else some (d, left.termFreq, right.termFreq)

def replies (kernel : IntersectKernel) (fuel : Nat) (self : PostingIntersection)
    (left right : BlockPostingIterator) :
    List (IntersectionSide × IntersectionCall) → Option (List (Option (Nat × Nat × Nat)))
  | [] => (untilDoc kernel fuel self left right).map fun r => [reply r.1 r.2.2.1 r.2.2.2]
  | (side, call) :: calls =>
    match untilDoc kernel fuel self left right with
    | none => none
    | some (d, self, left, right) =>
      (replies kernel fuel self (if side = .right then left else call.apply left)
        (if side = .left then right else call.apply right) calls).map (reply d left right :: ·)

/-- The iterators are good, lie in the lists `l` and `r`, and have the documents `docs` in common. -/
structure Views (l r : List PostingEntry) (c : PostingIntersection)
    (left right : BlockPostingIterator) (docs : List Nat) : Prop where
  leftOk : left.Ok
  rightOk : right.Ok
  cache : c.CacheOk left right
  leftSuffix : left.rest <:+ l
  rightSuffix : right.rest <:+ r
  sorted : docs.Pairwise (· < ·)
  mem_iff : ∀ d, d ∈ docs ↔ d ∈ left.docs ∧ d ∈ right.docs

/-- Both iterators stand on the first common document, if there is one. -/
def Aligned (left right : BlockPostingIterator) (docs : List Nat) : Prop :=
  ∀ d ∈ docs.head?, left.doc = d ∧ right.doc = d

variable {l r : List PostingEntry} (kernel : IntersectKernel) {self : PostingIntersection}
  {left right : BlockPostingIterator} {docs : List Nat}

theorem docs_subset {it it' : BlockPostingIterator} (h : it'.rest <:+ it.rest) : it'.docs ⊆ it.docs :=
  (h.map PostingEntry.docId).subset

variable (h : Views l r self left right docs)

include h in
/-- Postings are dropped from either side, none of them common but what the call drops. -/
theorem Views.move {left' right' : BlockPostingIterator} {c : PostingIntersection} {docs' : List Nat} (hc : c.CacheOk left' right') (hl : left'.Ok)
    (hr : right'.Ok) (hls : left'.rest <:+ left.rest) (hrs : right'.rest <:+ right.rest)
    (hsub : docs' <:+ docs) (hmem : ∀ d ∈ left.docs, d ∈ right.docs → (d ∈ docs' ↔ d ∈ left'.docs ∧ d ∈ right'.docs)) :
    Views l r c left' right' docs' where
  leftOk := hl
  rightOk := hr
  cache := hc
  leftSuffix := hls.trans h.leftSuffix
  rightSuffix := hrs.trans h.rightSuffix
  sorted := h.sorted.sublist hsub.sublist
  mem_iff := by
    intro d
    constructor
    · intro hd
      obtain ⟨hdl, hdr⟩ := (h.mem_iff d).mp (hsub.subset hd)
      exact (hmem d hdl hdr).mp hd
    · intro hd
      exact (hmem d (docs_subset hls hd.1) (docs_subset hrs hd.2)).mpr hd

include h in
theorem Views.untilDoc {fuel : Nat}
    (hfuel : left.rest.length + right.rest.length < fuel) :
    ∃ self' left' right', untilDoc kernel fuel self left right =
        some (docs.headD terminated, self', left', right') ∧
      Views l r self' left' right' docs ∧ Aligned left' right' docs := by
  induction fuel generalizing self left right with
  | zero => omega
  | succ fuel ih =>
    obtain ⟨hcache, hstep, hresult⟩ := intersectBlock_spec kernel h.leftOk h.rightOk h.cache
    have hviews := h.move hcache hstep.leftOk hstep.rightOk hstep.leftSuffix hstep.rightSuffix
      suffix_rfl fun d hd hd' =>
        ⟨fun _ => hstep.common d hd hd', fun _ => (h.mem_iff d).mpr ⟨hd, hd'⟩⟩
    rw [untilDoc]
    cases hres : (self.intersectBlock kernel left right).1 with
    | none =>
      rw [hres] at hresult
      exact ih hviews (by simp only [Result] at hresult; omega)
    | some d =>
      rw [hres] at hresult
      suffices hhead : d = docs.headD terminated ∧ Aligned _ _ docs from
        ⟨_, _, _, by rw [hhead.1], hviews, hhead.2⟩
      rcases hresult with ⟨rfl, hnil⟩ | ⟨hdl, hdr, hlne, hrne⟩
      · obtain rfl : docs = [] := by
          rw [eq_nil_iff_forall_not_mem]
          intro d hd
          obtain ⟨h1, h2⟩ := (hviews.mem_iff d).mp hd
          rcases hnil with hnil | hnil
          · simp [BlockPostingIterator.docs, hnil] at h1
          · simp [BlockPostingIterator.docs, hnil] at h2
        exact ⟨rfl, by simp [Aligned]⟩
      · have hd : d ∈ docs := (hviews.mem_iff d).mpr
          ⟨hdl ▸ doc_mem hstep.leftOk hlne, hdr ▸ doc_mem hstep.rightOk hrne⟩
        cases docs with
        | nil => cases hd
        | cons x xs =>
          have hle := doc_le hstep.leftOk ((hviews.mem_iff x).mp mem_cons_self).1
          obtain rfl : d = x := by
            rcases mem_cons.mp hd with heq | hd
            · exact heq
            · have := (pairwise_cons.mp h.sorted).1 d hd
              omega
          exact ⟨rfl, by simp [Aligned, ← hdl, ← hdr]⟩

include h in
theorem Views.call (ha : Aligned left right docs)
    (side : IntersectionSide) (call : IntersectionCall) :
    Views l r self (if side = .right then left else call.apply left)
      (if side = .left then right else call.apply right) (call.after docs) := by
  have hleft := fun d hd => call.mem_after (d := d) h.leftOk h.sorted (fun x hx => (ha x hx).1)
    ((h.mem_iff d).mpr hd) hd.1
  have hright := fun d hd => call.mem_after (d := d) h.rightOk h.sorted (fun x hx => (ha x hx).2)
    ((h.mem_iff d).mpr hd) hd.2
  have hlf := call.forward_apply left
  have hrf := call.forward_apply right
  have hls := call.apply_suffix h.leftOk
  have hrs := call.apply_suffix h.rightOk
  cases side with
  | left =>
    refine h.move (h.cache.forward hlf .refl) (call.apply_ok h.leftOk) h.rightOk hls suffix_rfl
      call.after_suffix fun d hd hd' => ?_
    simp [hleft d ⟨hd, hd'⟩, hd']
  | right =>
    refine h.move (h.cache.forward .refl hrf) h.leftOk (call.apply_ok h.rightOk) suffix_rfl hrs
      call.after_suffix fun d hd hd' => ?_
    simp [hright d ⟨hd, hd'⟩, hd]
  | both =>
    refine h.move (h.cache.forward hlf hrf) (call.apply_ok h.leftOk) (call.apply_ok h.rightOk) hls hrs
      call.after_suffix fun d hd hd' => ?_
    simp [← hleft d ⟨hd, hd'⟩, ← hright d ⟨hd, hd'⟩]

theorem termFreq_eq {it : BlockPostingIterator} {d : Nat} (h : it.Ok) (hsuf : it.rest <:+ l)
    (hs : (l.map (·.docId)).Pairwise (· < ·)) (hd : d ∈ it.docs) (hdoc : it.doc = d) :
    it.termFreq = termFreqIn l d := by
  obtain ⟨e, es, hes⟩ := exists_cons_of_ne_nil
    (show it.rest ≠ [] by simpa [BlockPostingIterator.docs] using ne_nil_of_mem hd)
  have hentry : it.entry = some e := by rw [h.entry_eq, hes, head?_cons]
  have he : e ∈ l := hsuf.subset (by rw [hes]; exact mem_cons_self)
  have hed : e.docId = d := by simpa [doc, hentry] using hdoc
  rw [termFreqIn, ← hed, find?_docId hs he, termFreq, hentry]

include h in
theorem Views.reply (ha : Aligned left right docs)
    (hl : (l.map (·.docId)).Pairwise (· < ·)) (hr : (r.map (·.docId)).Pairwise (· < ·)) :
    reply (docs.headD terminated) left right =
      docs.head?.map fun d => (d, termFreqIn l d, termFreqIn r d) := by
  cases docs with
  | nil => rfl
  | cons d ds =>
    obtain ⟨hdl, hdr⟩ := (h.mem_iff d).mp mem_cons_self
    obtain ⟨hal, har⟩ := ha d rfl
    have hlt := h.leftOk.docs_lt d hdl
    rw [reply, headD_cons, if_neg hlt.ne, termFreq_eq h.leftOk h.leftSuffix hl hdl hal,
      termFreq_eq h.rightOk h.rightSuffix hr hdr har]
    rfl

include h in
theorem Views.replies {fuel : Nat}
    (hl : (l.map (·.docId)).Pairwise (· < ·)) (hr : (r.map (·.docId)).Pairwise (· < ·))
    (hfuel : l.length + r.length < fuel) (calls : List (IntersectionSide × IntersectionCall)) :
    self.replies kernel fuel left right calls = some (commonReplies l r docs (calls.map (·.2))) := by
  have hlen : ∀ {self left right docs}, Views l r self left right docs →
      left.rest.length + right.rest.length < fuel := by
    intro _ _ _ _ h
    have := h.leftSuffix.length_le
    have := h.rightSuffix.length_le
    omega
  induction calls generalizing self left right docs with
  | nil =>
    obtain ⟨_, _, _, hrun, hviews, haligned⟩ := h.untilDoc kernel (hlen h)
    rw [replies, hrun, Option.map_some, hviews.reply haligned hl hr]
    rfl
  | cons call calls ih =>
    obtain ⟨_, _, _, hrun, hviews, haligned⟩ := h.untilDoc kernel (hlen h)
    rw [replies, hrun]
    simp only [ih (hviews.call haligned call.1 call.2), Option.map_some, hviews.reply haligned hl hr]
    rfl

/-- The documents and frequencies that a caller sees are those of the common documents, for enough calls
of `intersect_block` before each of them. -/
theorem replies_eq_commonReplies (kernel : IntersectKernel) (leftCost rightCost : Nat) (l r : List (List PostingEntry))
    (hl : (new l).Ok) (hr : (new r).Ok) (calls : List (IntersectionSide × IntersectionCall)) (fuel : Nat)
    (hfuel : l.flatten.length + r.flatten.length < fuel) :
    (withCosts leftCost rightCost).replies kernel fuel (new l) (new r) calls =
      some (commonReplies l.flatten r.flatten (commonDocs l.flatten r.flatten) (calls.map (·.2))) := by
  have hviews : Views l.flatten r.flatten (withCosts leftCost rightCost) (new l) (new r)
      (commonDocs l.flatten r.flatten) := by
    refine ⟨hl, hr, cacheOk_withCosts _ _, ?_, ?_, hl.sorted.filter _, fun d => ?_⟩
    · rw [rest_new]
    · rw [rest_new]
    · rw [commonDocs, mem_filter, decide_eq_true_eq, BlockPostingIterator.docs, rest_new,
        BlockPostingIterator.docs, rest_new]
  exact hviews.replies kernel hl.sorted hr.sorted hfuel calls

/-- Two common documents, the second one in later blocks of both lists. -/
theorem replies_two_blocks :
    (withCosts 3 2).replies intersectPostingBlocksAvx2 6 (new [[⟨1, 2, 0⟩, ⟨4, 1, 2⟩], [⟨9, 3, 3⟩]])
      (new [[⟨4, 5, 0⟩], [⟨9, 1, 5⟩]]) [(.left, .advance), (.both, .seek 10)] =
      some [some (4, 1, 5), some (9, 3, 1), none] :=
  (replies_eq_commonReplies intersectPostingBlocksAvx2 3 2 _ _ (.new (by decide) (by decide) (by decide) (by decide))
    (.new (by decide) (by decide) (by decide) (by decide)) _ 6 (by decide)).trans (by decide)

end PostingIntersection

end Summa
