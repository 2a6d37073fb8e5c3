import Summa.Structures.IntersectBlocks
import Summa.Structures.PostingIterator

/-!
# Intersection of two posting iterators (`PostingIntersection`)

`intersectBlock` moves two iterators towards their next common document. A list that is much rarer
drives the other by seeks; otherwise the two current blocks are intersected at once, and the pairs of
places that were found are kept for the following calls. A call returns a document when both
iterators stand on it, and nothing when it stopped at a block boundary.

* `intersectBlock_spec`: no common document is lost, a returned document is common and the first
  one, and a call without a result made progress.

The blocks are intersected by any kernel with the contract `Intersects`.
-/

namespace Summa

open List

open BlockPostingIterator

structure PostingIntersection where
  seekDriven : Bool
  leftIsRare : Bool
  /-- The blocks whose pairs are kept. -/
  blocks : Option (Nat × Nat)
  /-- `pairs[next..count]`. -/
  pairs : List (Nat × Nat)
  ends : Nat × Nat

namespace PostingIntersection

variable {kernel : IntersectKernel} {self : PostingIntersection} {left right : BlockPostingIterator}

def withCosts (left right : Nat) : PostingIntersection where
  seekDriven := min left right * 4 < max left right
  leftIsRare := left ≤ right
  blocks := none
  pairs := []
  ends := (0, 0)

/-- One step in which `lead` drives `other` by a seek. -/
def align (lead other : BlockPostingIterator) :
    Option Nat × BlockPostingIterator × BlockPostingIterator :=
  let next := other.seek lead.doc
  if next.doc = lead.doc then (some lead.doc, lead, next) else (none, lead.seek next.doc, next)

/-- The decoded document ids of the current block. -/
def blockDocs (it : BlockPostingIterator) : List Nat := it.block.map (·.docId)

/-- Intersect the current blocks unless their pairs are kept. -/
def prepare (kernel : IntersectKernel) (self : PostingIntersection)
    (left right : BlockPostingIterator) : PostingIntersection :=
  if self.blocks = some (left.currentBlock, right.currentBlock) then self
  else
    let r := kernel.run (blockDocs left) left.positionInBlock (blockDocs right) right.positionInBlock
    { self with
      blocks := some (left.currentBlock, right.currentBlock)
      pairs := r.1
      ends := r.2 }

/-- Stand behind the end of a block: on the first posting of the next one. -/
def settle (it : BlockPostingIterator) (position : Nat) : BlockPostingIterator :=
  let it := { it with positionInBlock := position }
  if it.positionInBlock = it.block.length then it.loadNext else it

/-- Whether an iterator is already beyond its place of a pair. -/
def passed (left right : BlockPostingIterator) (p : Nat × Nat) : Bool :=
  p.1 < left.positionInBlock || p.2 < right.positionInBlock

/-- Stop at the next pair that is ahead of both iterators, or leave the blocks. -/
def takePair (self : PostingIntersection) (left right : BlockPostingIterator) :
    Option Nat × PostingIntersection × BlockPostingIterator × BlockPostingIterator :=
  match self.pairs.dropWhile (passed left right) with
  | p :: rest =>
    let left := { left with positionInBlock := p.1 }
    let right := { right with positionInBlock := p.2 }
    (some left.doc, { self with pairs := rest }, left, right)
  | [] =>
    (none, { self with pairs := [] }, settle left (max left.positionInBlock self.ends.1),
      settle right (max right.positionInBlock self.ends.2))

/-- `None` yields at a block boundary. -/
def intersectBlock (kernel : IntersectKernel) (self : PostingIntersection)
    (left right : BlockPostingIterator) :
    Option Nat × PostingIntersection × BlockPostingIterator × BlockPostingIterator :=
  if left.exhausted || right.exhausted then (some terminated, self, left, right)
  else if left.doc = right.doc then (some left.doc, self, left, right)
  else if self.seekDriven then
    if self.leftIsRare then
      let r := align left right
      (r.1, self, r.2.1, r.2.2)
    else
      let r := align right left
      (r.1, self, r.2.2, r.2.1)
  else if endsBefore right.doc left.block then (none, self, left.seekLaterBlock right.doc, right)
  else if endsBefore left.doc right.block then (none, self, left, right.seekLaterBlock left.doc)
  else (self.prepare kernel left right).takePair left right

/-- The kept pairs are those of the blocks they are kept for, ahead of the iterators. -/
structure CacheOk (c : PostingIntersection) (left right : BlockPostingIterator) : Prop where
  behind : ∀ k ∈ c.blocks, k.1 ≤ left.currentBlock ∧ k.2 ≤ right.currentBlock
  valid : c.blocks = some (left.currentBlock, right.currentBlock) → left.remaining ≠ [] →
    right.remaining ≠ [] → ∃ a b consumed,
      Intersects (blockDocs left) a (blockDocs right) b (consumed ++ c.pairs) c.ends.1 c.ends.2 ∧
      a ≤ left.positionInBlock ∧ b ≤ right.positionInBlock ∧
      ∀ p ∈ consumed, (left.positionInBlock ≤ p.1 → right.positionInBlock ≤ p.2 →
        p = (left.positionInBlock, right.positionInBlock))

theorem cacheOk_withCosts (l r : Nat) : (withCosts l r).CacheOk left right :=
  ⟨by simp [withCosts], by simp [withCosts]⟩

variable {left' right' : BlockPostingIterator} {d n : Nat}

/-- Kept pairs stay good while the iterators move forward. -/
theorem CacheOk.forward (h : self.CacheOk left right)
    (hl : Forward left left') (hr : Forward right right') : self.CacheOk left' right' := by
  have hlb : left.currentBlock ≤ left'.currentBlock := by
    rcases hl with ⟨h1, -, -⟩ | h1 <;> omega
  have hrb : right.currentBlock ≤ right'.currentBlock := by
    rcases hr with ⟨h1, -, -⟩ | h1 <;> omega
  refine ⟨fun k hk => ⟨(h.behind k hk).1.trans hlb, (h.behind k hk).2.trans hrb⟩, ?_⟩
  intro hkey hlne hrne
  have hk := h.behind _ hkey
  -- the key stands for the current blocks, so neither iterator left its block
  rcases hl with ⟨hl1, hl2, hl3⟩ | hl
  case inr => omega
  rcases hr with ⟨hr1, hr2, hr3⟩ | hr
  case inr => omega
  rw [hl1, hr1] at hkey
  obtain ⟨a, b, consumed, hint, ha, hb, hcons⟩ := h.valid hkey (hl2 ▸ hlne) (hr2 ▸ hrne)
  have hlblock : blockDocs left' = blockDocs left := by simp [blockDocs, block, hl2]
  have hrblock : blockDocs right' = blockDocs right := by simp [blockDocs, block, hr2]
  refine ⟨a, b, consumed, by rw [hlblock, hrblock]; exact hint, by omega, by omega, ?_⟩
  intro p hp h1 h2
  have := hcons p hp (by omega) (by omega)
  rw [this] at h1 h2
  rw [this, Prod.mk.injEq]
  omega

/-- The two iterators after a step: nothing common was dropped. -/
structure Step (left right left' right' : BlockPostingIterator) : Prop where
  leftOk : left'.Ok
  rightOk : right'.Ok
  leftForward : Forward left left'
  rightForward : Forward right right'
  leftSuffix : left'.rest <:+ left.rest
  rightSuffix : right'.rest <:+ right.rest
  common : ∀ d ∈ left.docs, d ∈ right.docs → d ∈ left'.docs ∧ d ∈ right'.docs

theorem Step.refl (hl : left.Ok) (hr : right.Ok) : Step left right left right :=
  ⟨hl, hr, .refl, .refl, suffix_rfl, suffix_rfl, fun _ h h' => ⟨h, h'⟩⟩

theorem Step.symm (h : Step left right left' right') : Step right left right' left' :=
  ⟨h.rightOk, h.leftOk, h.rightForward, h.leftForward, h.rightSuffix, h.leftSuffix,
    fun d hd hd' => (h.common d hd' hd).symm⟩

theorem Step.trans {l₁ r₁ l₂ r₂ : BlockPostingIterator} (h : Step left right l₁ r₁)
    (h' : Step l₁ r₁ l₂ r₂) : Step left right l₂ r₂ :=
  ⟨h'.leftOk, h'.rightOk, h.leftForward.trans h'.leftForward, h.rightForward.trans h'.rightForward,
    h'.leftSuffix.trans h.leftSuffix, h'.rightSuffix.trans h.rightSuffix,
    fun d hd hd' => h'.common d (h.common d hd hd').1 (h.common d hd hd').2⟩

/-- What a result says about the iterators it leaves. -/
def Result (res : Option Nat) (left right left' right' : BlockPostingIterator) : Prop :=
  match res with
  | none => left'.rest.length + right'.rest.length < left.rest.length + right.rest.length
  | some d => (d = terminated ∧ (left'.rest = [] ∨ right'.rest = [])) ∨
      (d = left'.doc ∧ d = right'.doc ∧ left'.rest ≠ [] ∧ right'.rest ≠ [])

/-- A call left the iterators and the kept pairs in order. -/
structure Moved (left right : BlockPostingIterator)
    (r : Option Nat × PostingIntersection × BlockPostingIterator × BlockPostingIterator) : Prop where
  cache : r.2.1.CacheOk r.2.2.1 r.2.2.2
  step : Step left right r.2.2.1 r.2.2.2
  result : Result r.1 left right r.2.2.1 r.2.2.2

theorem Result.symm {res : Option Nat}
    (h : Result res left right left' right') : Result res right left right' left' := by
  cases res with
  | none =>
    simp only [Result] at h ⊢
    omega
  | some d =>
    rcases h with ⟨hd, hnil⟩ | ⟨h1, h2, h3, h4⟩
    · exact .inl ⟨hd, hnil.symm⟩
    · exact .inr ⟨h2, h1, h4, h3⟩

theorem doc_le (h : left.Ok) (hd : d ∈ left.docs) : left.doc ≤ d := by
  have hs := h.docs_sorted
  rw [h.doc_eq]
  cases hl : left.docs with
  | nil => simp [hl] at hd
  | cons x xs =>
    rw [hl, pairwise_cons] at hs
    rw [hl] at hd
    rcases mem_cons.mp hd with rfl | hd
    · exact le_rfl
    · exact (hs.1 d hd).le

theorem doc_mem (h : left.Ok) (hne : left.rest ≠ []) : left.doc ∈ left.docs := by
  rw [h.doc_eq]
  obtain ⟨e, es, hes⟩ := exists_cons_of_ne_nil hne
  simp [docs, hes]

/-- A seek to a target that the other list does not go below loses nothing. -/
theorem step_seek {target : Nat} (hl : left.Ok) (hr : right.Ok) (ht : target ≤ right.doc) :
    Step left right (left.seek target) right where
  leftOk := (hl.seek target).1
  rightOk := hr
  leftForward := forward_seek
  rightForward := .refl
  leftSuffix := hl.rest_seek_suffix target
  rightSuffix := suffix_rfl
  common := fun _ hd hd' => ⟨hl.mem_docs_seek.mpr ⟨hd, ht.trans (doc_le hr hd')⟩, hd'⟩

/-- A seek beyond the current posting drops it. -/
theorem length_seek_lt {target : Nat} (hl : left.Ok) (hne : left.rest ≠ []) (ht : left.doc < target) :
    (left.seek target).rest.length < left.rest.length := by
  have hsuf := hl.rest_seek_suffix target
  refine lt_of_le_of_ne hsuf.length_le fun heq => ?_
  have hmem : left.doc ∈ (left.seek target).docs := by
    rw [docs, hsuf.eq_of_length heq]
    exact doc_mem hl hne
  have := (hl.mem_docs_seek.mp hmem).2
  omega

theorem align_spec (hl : left.Ok) (hr : right.Ok) (hlne : left.rest ≠ []) :
    Step left right (align left right).2.1 (align left right).2.2 ∧
      Result (align left right).1 left right (align left right).2.1 (align left right).2.2 := by
  have hstep := (step_seek hr hl le_rfl).symm
  have hnext := hr.seek left.doc
  unfold align
  simp only []
  split
  case isTrue heq =>
    refine ⟨hstep, .inr ⟨rfl, heq.symm, hlne, ?_⟩⟩
    rw [ne_eq, ← hnext.1.doc_eq_terminated_iff, heq, hl.doc_eq_terminated_iff]
    exact hlne
  case isFalse hne =>
    refine ⟨hstep.trans (step_seek hl hnext.1 le_rfl), ?_⟩
    -- the other list has nothing at the candidate, so the candidate is dropped
    have hlt : left.doc < (right.seek left.doc).doc := by
      refine lt_of_le_of_ne ?_ (Ne.symm hne)
      by_cases hnil : (right.seek left.doc).rest = []
      · rw [hnext.1.doc_eq_terminated_iff.mpr hnil]
        exact (hl.docs_lt _ (doc_mem hl hlne)).le
      · exact (hr.mem_docs_seek.mp (doc_mem hnext.1 hnil)).2
    have h1 := length_seek_lt hl hlne hlt
    have h2 := (hr.rest_seek_suffix left.doc).length_le
    simp only [Result]
    omega

/-- The current block ends before the other iterator's document. -/
theorem step_later (hl : left.Ok) (hr : right.Ok) (hne : left.remaining ≠ [])
    (hend : endsBefore right.doc left.block = true) :
    Step left right (left.seekLaterBlock right.doc) right ∧
      (left.seekLaterBlock right.doc).rest.length < left.rest.length := by
  have hex : left.exhausted = false := by
    rw [Bool.eq_false_iff, ne_eq, exhausted_iff]
    exact hne
  have hlt : left.doc < right.doc := by
    have hin := hl.inBlock hne
    have := (endsBefore_iff hl.block_sorted).mp hend _ (getElem_mem hin)
    simpa [doc, entry, hin] using this
  have heq : left.seekLaterBlock right.doc = left.seek right.doc := by
    simp [seek, hex, Nat.not_le.mpr hlt, hend]
  rw [heq]
  exact ⟨step_seek hl hr le_rfl, length_seek_lt hl (hl.rest_ne_nil hne) hlt⟩

theorem getElem?_blockDocs {i : Nat} :
    (blockDocs left)[i]? = some d ↔ ∃ e, left.block[i]? = some e ∧ e.docId = d := by
  simp [blockDocs]

theorem length_blockDocs : (blockDocs left).length = left.block.length := by simp [blockDocs]

variable (kernel) in
theorem cacheOk_prepare (hl : left.Ok) (hr : right.Ok) (hlne : left.remaining ≠ [])
    (hrne : right.remaining ≠ []) (h : self.CacheOk left right) :
    (self.prepare kernel left right).CacheOk left right ∧
      (self.prepare kernel left right).blocks = some (left.currentBlock, right.currentBlock) := by
  unfold prepare
  split
  case isTrue hkey => exact ⟨h, hkey⟩
  case isFalse =>
    refine ⟨⟨?_, ?_⟩, rfl⟩
    · rintro k ⟨⟩
      exact ⟨le_rfl, le_rfl⟩
    · rintro - - -
      have hla := hl.inBlock hlne
      have hrb := hr.inBlock hrne
      have hspec := kernel.spec (blockDocs left) left.positionInBlock (blockDocs right)
        right.positionInBlock hl.block_sorted hr.block_sorted
        (length_blockDocs ▸ hl.block_short) (length_blockDocs ▸ hr.block_short)
        (length_blockDocs ▸ hla.le) (length_blockDocs ▸ hrb.le)
      exact ⟨_, _, [], hspec, le_rfl, le_rfl, by simp⟩

/-- Moving inside the current block. -/
theorem rest_drop (hn : left.positionInBlock ≤ n) :
    left.rest = (left.block.drop left.positionInBlock).take (n - left.positionInBlock) ++
      (left.block.drop n ++ left.remaining.tail.flatten) := by
  rw [← append_assoc]
  have hsplit : left.block.drop left.positionInBlock =
      (left.block.drop left.positionInBlock).take (n - left.positionInBlock) ++ left.block.drop n := by
    conv_lhs => rw [← take_append_drop (n - left.positionInBlock) (left.block.drop _)]
    rw [drop_drop]
    congr 2
    omega
  rw [← hsplit]
  rfl

/-- The postings between the current place and `n`. -/
theorem mem_between {e : PostingEntry} (he : e ∈ (left.block.drop left.positionInBlock).take (n - left.positionInBlock)) :
    ∃ i, left.positionInBlock ≤ i ∧ i < n ∧ left.block[i]? = some e := by
  obtain ⟨k, hk, rfl⟩ := mem_iff_getElem.mp he
  rw [length_take, length_drop] at hk
  refine ⟨left.positionInBlock + k, by omega, by omega, ?_⟩
  rw [getElem_take, getElem_drop, getElem?_eq_getElem]

theorem settle_spec (hl : left.Ok) (hle : n ≤ left.block.length)
    (hn : left.positionInBlock ≤ n) : (settle left n).Ok ∧
      Forward left (settle left n) ∧
      (settle left n).rest = left.block.drop n ++ left.remaining.tail.flatten := by
  unfold settle
  simp only []
  split
  case isTrue heq =>
    have heq' : n = left.block.length := heq
    refine ⟨(show ({ left with positionInBlock := n } : BlockPostingIterator).loadNext.Ok from
      ⟨hl.loadNext.nonempty, hl.loadNext.short, hl.loadNext.inBlock, hl.loadNext.sorted,
        hl.loadNext.bounded⟩), ?_, ?_⟩
    · exact .inr (Nat.lt_succ_self _)
    · rw [rest_loadNext, heq', drop_length, nil_append]
  case isFalse hneq =>
    have hlt : n < left.block.length := lt_of_le_of_ne hle hneq
    exact ⟨hl.setPosition fun _ => hlt, .inl ⟨rfl, rfl, hn⟩, rfl⟩

/-- Postings that the other list does not have can be dropped. -/
theorem common_of_dropped {dl dr : List PostingEntry}
    (hl : left.rest = dl ++ left'.rest) (hr : right.rest = dr ++ right'.rest)
    (hdl : ∀ e ∈ dl, e.docId ∉ right.docs) (hdr : ∀ e ∈ dr, e.docId ∉ left.docs) :
    ∀ d ∈ left.docs, d ∈ right.docs → d ∈ left'.docs ∧ d ∈ right'.docs := by
  intro d hd hd'
  have hd1 : d ∈ dl.map (·.docId) ∨ d ∈ left'.docs := by simpa [docs, hl] using hd
  have hd2 : d ∈ dr.map (·.docId) ∨ d ∈ right'.docs := by simpa [docs, hr] using hd'
  constructor
  · rcases hd1 with h | h
    · obtain ⟨e, he, rfl⟩ := mem_map.mp h
      exact absurd hd' (hdl e he)
    · exact h
  · rcases hd2 with h | h
    · obtain ⟨e, he, rfl⟩ := mem_map.mp h
      exact absurd hd (hdr e he)
    · exact h

/-- A document that the rest of the block does not hold, and that does not go beyond the block. -/
theorem not_mem_docs (hr : right.Ok) (hcov : ∃ d' ∈ blockDocs right, d ≤ d')
    (hno : ∀ y, right.positionInBlock ≤ y → (blockDocs right)[y]? ≠ some d) : d ∉ right.docs := by
  intro hd
  obtain ⟨e, he, rfl⟩ := mem_map.mp hd
  rcases mem_append.mp he with he | he
  · obtain ⟨k, hk⟩ := mem_iff_getElem?.mp he
    rw [getElem?_drop] at hk
    exact hno _ (Nat.le_add_right _ k) (getElem?_blockDocs.mpr ⟨e, hk, rfl⟩)
  · obtain ⟨d', hd', hle⟩ := hcov
    obtain ⟨f, hf, rfl⟩ := mem_map.mp hd'
    have := hr.lt_later hf he
    omega

/-- Both iterators go forward in their blocks over documents that are not common. -/
theorem common_of_places {m : Nat} (hl : left.Ok)
    (hr : right.Ok) (hn : left.positionInBlock ≤ n) (hm : right.positionInBlock ≤ m)
    (hleft : left'.rest = left.block.drop n ++ left.remaining.tail.flatten)
    (hright : right'.rest = right.block.drop m ++ right.remaining.tail.flatten)
    (hL : ∀ x d, left.positionInBlock ≤ x → x < n → (blockDocs left)[x]? = some d →
      (∃ d' ∈ blockDocs right, d ≤ d') ∧
        ∀ y, right.positionInBlock ≤ y → (blockDocs right)[y]? ≠ some d)
    (hR : ∀ y d, right.positionInBlock ≤ y → y < m → (blockDocs right)[y]? = some d →
      (∃ d' ∈ blockDocs left, d ≤ d') ∧
        ∀ x, left.positionInBlock ≤ x → (blockDocs left)[x]? ≠ some d) :
    ∀ d ∈ left.docs, d ∈ right.docs → d ∈ left'.docs ∧ d ∈ right'.docs := by
  refine common_of_dropped (hleft ▸ rest_drop hn) (hright ▸ rest_drop hm) ?_ ?_
  · intro e he
    obtain ⟨x, hx, hxn, hxe⟩ := mem_between he
    obtain ⟨hcov, hno⟩ := hL x e.docId hx hxn (getElem?_blockDocs.mpr ⟨e, hxe, rfl⟩)
    exact not_mem_docs hr hcov hno
  · intro e he
    obtain ⟨y, hy, hym, hye⟩ := mem_between he
    obtain ⟨hcov, hno⟩ := hR y e.docId hy hym (getElem?_blockDocs.mpr ⟨e, hye, rfl⟩)
    exact not_mem_docs hl hcov hno

theorem rest_suffix_of_drop (hn : left.positionInBlock ≤ n)
    (h : left'.rest = left.block.drop n ++ left.remaining.tail.flatten) : left'.rest <:+ left.rest :=
  ⟨_, by rw [h]; exact (rest_drop hn).symm⟩

theorem length_rest : left.rest.length =
    left.block.length - left.positionInBlock + left.remaining.tail.flatten.length := by
  rw [rest, length_append, length_drop]

theorem passed_eq_false {p : Nat × Nat} : passed left right p = false ↔
    left.positionInBlock ≤ p.1 ∧ right.positionInBlock ≤ p.2 := by
  simp [passed]

/-- A match ahead of both iterators was not consumed, for they stand on different documents. -/
theorem CacheOk.mem_pairs (h : self.CacheOk left right)
    (hkey : self.blocks = some (left.currentBlock, right.currentBlock)) (hlne : left.remaining ≠ [])
    (hrne : right.remaining ≠ []) (hdoc : left.doc ≠ right.doc) {x y : Nat}
    (hx : left.positionInBlock ≤ x) (hy : right.positionInBlock ≤ y)
    (hxd : (blockDocs left)[x]? = some d) (hyd : (blockDocs right)[y]? = some d) :
    (x, y) ∈ self.pairs.dropWhile (passed left right) := by
  obtain ⟨a, b, consumed, hint, ha, hb, hcons⟩ := h.valid hkey hlne hrne
  rcases mem_append.mp (hint.complete x y d (ha.trans hx) (hb.trans hy) hxd hyd) with hmem | hmem
  · exfalso
    obtain ⟨rfl, rfl⟩ := Prod.mk.inj (hcons _ hmem hx hy)
    obtain ⟨e, he, hed⟩ := getElem?_blockDocs.mp hxd
    obtain ⟨f, hf, hfd⟩ := getElem?_blockDocs.mp hyd
    exact hdoc (by simp [doc, entry, he, hf, hed, hfd])
  · rw [← takeWhile_append_dropWhile (p := passed left right) (l := self.pairs),
      mem_append] at hmem
    rcases hmem with hmem | hmem
    · have hpassed := mem_takeWhile_imp hmem
      rw [passed_eq_false.mpr ⟨hx, hy⟩] at hpassed
      cases hpassed
    · exact hmem

section Pair

variable (hl : left.Ok) (hr : right.Ok) (hlne : left.remaining ≠ []) (hrne : right.remaining ≠ [])
  (hdoc : left.doc ≠ right.doc) (h : self.CacheOk left right)
  (hkey : self.blocks = some (left.currentBlock, right.currentBlock))

include hl hr hlne hrne hdoc h hkey

/-- The next pair: both iterators stand on its document. -/
theorem takePair_cons {p : Nat × Nat} {rest : List (Nat × Nat)}
    (hdrop : self.pairs.dropWhile (passed left right) = p :: rest) :
    Moved left right (self.takePair left right) := by
  obtain ⟨a, b, consumed, hint, ha, hb, -⟩ := h.valid hkey hlne hrne
  have hsplit := takeWhile_append_dropWhile (p := passed left right) (l := self.pairs)
  rw [hdrop] at hsplit
  have hord := hint.ordered
  rw [← hsplit, ← append_assoc] at hord
  obtain ⟨-, hord2, hcross⟩ := pairwise_append.mp hord
  obtain ⟨hx, hy⟩ : left.positionInBlock ≤ p.1 ∧ right.positionInBlock ≤ p.2 := by
    have := head?_dropWhile_not (passed left right) self.pairs
    rw [hdrop, head?_cons] at this
    exact passed_eq_false.mp (by simpa using this)
  have hp : p ∈ self.pairs := (dropWhile_suffix _).subset (by rw [hdrop]; exact mem_cons_self)
  obtain ⟨d, hpl, hpr⟩ := hint.sound p (mem_append_right _ hp)
  obtain ⟨e, hel, hed⟩ := getElem?_blockDocs.mp hpl
  obtain ⟨f, hfr, hfd⟩ := getElem?_blockDocs.mp hpr
  have hlOk := hl.setPosition (n := p.1) fun _ => (List.getElem?_eq_some_iff.mp hel).1
  have hrOk := hr.setPosition (n := p.2) fun _ => (List.getElem?_eq_some_iff.mp hfr).1
  -- a later match has later places
  have hfirst : ∀ x y d', left.positionInBlock ≤ x → right.positionInBlock ≤ y →
      (blockDocs left)[x]? = some d' → (blockDocs right)[y]? = some d' → p = (x, y) ∨ d < d' := by
    intro x y d' hx' hy' hxd hyd
    have hmem := h.mem_pairs hkey hlne hrne hdoc hx' hy' hxd hyd
    rw [hdrop] at hmem
    rcases mem_cons.mp hmem with heq | hmem
    · exact .inl heq.symm
    · exact .inr (lt_of_place hl.block_sorted ((pairwise_cons.mp hord2).1 _ hmem) hpl hxd)
  rw [takePair, hdrop]
  refine ⟨⟨?_, ?_⟩, ⟨hlOk, hrOk, .inl ⟨rfl, rfl, hx⟩, .inl ⟨rfl, rfl, hy⟩,
    rest_suffix_of_drop hx rfl, rest_suffix_of_drop hy rfl, ?_⟩, ?_⟩
  · exact fun k hk => h.behind k hk
  · rintro - - -
    refine ⟨a, b, consumed ++ self.pairs.takeWhile (passed left right) ++ [p], ?_, ha.trans hx,
      hb.trans hy, ?_⟩
    · show Intersects (blockDocs left) a (blockDocs right) b _ self.ends.1 self.ends.2
      rw [append_assoc, append_assoc, singleton_append, hsplit]
      exact hint
    · intro q hq h1 h2
      rcases mem_append.mp hq with hq | hq
      · have := hcross q hq p mem_cons_self
        simp only at h1
        omega
      · simpa using hq
  · refine common_of_places hl hr hx hy rfl rfl ?_ ?_
    · intro x d' hx' hxp hxd
      have hlt := lt_of_place hl.block_sorted hxp hxd hpl
      refine ⟨⟨d, mem_of_getElem? hpr, hlt.le⟩, fun y hy' hyd => ?_⟩
      rcases hfirst x y d' hx' hy' hxd hyd with rfl | hgt
      · exact absurd hxp (lt_irrefl _)
      · omega
    · intro y d' hy' hyp hyd
      have hlt := lt_of_place hr.block_sorted hyp hyd hpr
      refine ⟨⟨d, mem_of_getElem? hpl, hlt.le⟩, fun x hx' hxd => ?_⟩
      rcases hfirst x y d' hx' hy' hxd hyd with rfl | hgt
      · exact absurd hyp (lt_irrefl _)
      · omega
  · refine .inr ⟨rfl, ?_, hlOk.rest_ne_nil hlne, hrOk.rest_ne_nil hrne⟩
    show ((left.block[p.1]?).map (·.docId)).getD terminated =
      ((right.block[p.2]?).map (·.docId)).getD terminated
    rw [hel, hfr, Option.map_some, Option.map_some, hed, hfd]

/-- No pair is left: one of the blocks is finished. -/
theorem takePair_nil (hdrop : self.pairs.dropWhile (passed left right) = []) :
    Moved left right (self.takePair left right) := by
  obtain ⟨a, b, consumed, hint, ha, hb, hcons⟩ := h.valid hkey hlne hrne
  have hlpos := hl.inBlock hlne
  have hrpos := hr.inBlock hrne
  have hle := hint.left_le
  have hre := hint.right_le
  rw [length_blockDocs] at hle hre
  obtain ⟨hlOk, hlf, hlrest⟩ := settle_spec hl (max_le hlpos.le hle) (le_max_left _ self.ends.1)
  obtain ⟨hrOk, hrf, hrrest⟩ := settle_spec hr (max_le hrpos.le hre) (le_max_left _ self.ends.2)
  have hnone : ∀ x y d, left.positionInBlock ≤ x → right.positionInBlock ≤ y →
      (blockDocs left)[x]? = some d → (blockDocs right)[y]? ≠ some d := by
    intro x y d hx hy hxd hyd
    have hmem := h.mem_pairs hkey hlne hrne hdoc hx hy hxd hyd
    simp [hdrop] at hmem
  have hcache : ({ self with pairs := [] } : PostingIntersection).CacheOk left right := by
    refine ⟨h.behind, fun _ _ _ => ⟨a, b, consumed ++ self.pairs, by simpa using hint, ha, hb, ?_⟩⟩
    intro p hp h1 h2
    rcases mem_append.mp hp with hp | hp
    · exact hcons p hp h1 h2
    · have := dropWhile_eq_nil_iff.mp hdrop p hp
      rw [passed_eq_false.mpr ⟨h1, h2⟩] at this
      cases this
  rw [takePair, hdrop]
  refine ⟨hcache.forward hlf hrf, ⟨hlOk, hrOk, hlf, hrf, rest_suffix_of_drop (le_max_left _ _) hlrest,
    rest_suffix_of_drop (le_max_left _ _) hrrest, ?_⟩, ?_⟩
  · refine common_of_places hl hr (le_max_left _ _) (le_max_left _ _) hlrest hrrest ?_ ?_
    · intro x d hx hlt hxd
      exact ⟨hint.left_covered x d (ha.trans hx) (by omega) hxd, fun y hy => hnone x y d hx hy hxd⟩
    · intro y d hy hlt hyd
      exact ⟨hint.right_covered y d (hb.trans hy) (by omega) hyd,
        fun x hx hxd => hnone x y d hx hy hxd hyd⟩
  · have hends := hint.ends
    rw [length_blockDocs, length_blockDocs] at hends
    simp only [Result]
    rw [hlrest, hrrest, length_rest, length_rest, length_append, length_append,
      length_drop, length_drop]
    omega

end Pair

variable (kernel) in
/-- One call: the iterators only move over documents that are not common, and a call without a result
moves at least one of them. -/
theorem intersectBlock_spec (hl : left.Ok) (hr : right.Ok) (h : self.CacheOk left right) :
    Moved left right (self.intersectBlock kernel left right) := by
  unfold intersectBlock
  split
  case isTrue hex =>
    refine ⟨h, .refl hl hr, .inl ⟨rfl, ?_⟩⟩
    rw [Bool.or_eq_true, exhausted_iff, exhausted_iff] at hex
    exact hex.imp rest_of_exhausted rest_of_exhausted
  case isFalse hex =>
    rw [Bool.or_eq_true, exhausted_iff, exhausted_iff, not_or] at hex
    obtain ⟨hlne, hrne⟩ := hex
    have hlr := hl.rest_ne_nil hlne
    have hrr := hr.rest_ne_nil hrne
    split
    case isTrue heq => exact ⟨h, .refl hl hr, .inr ⟨rfl, heq, hlr, hrr⟩⟩
    case isFalse hdoc =>
      split
      case isTrue =>
        split
        case isTrue =>
          obtain ⟨hstep, hres⟩ := align_spec hl hr hlr
          exact ⟨h.forward hstep.leftForward hstep.rightForward, hstep, hres⟩
        case isFalse =>
          obtain ⟨hstep, hres⟩ := align_spec hr hl hrr
          exact ⟨h.forward hstep.rightForward hstep.leftForward, hstep.symm, hres.symm⟩
      case isFalse =>
        split
        case isTrue hend =>
          obtain ⟨hstep, hlt⟩ := step_later hl hr hlne hend
          exact ⟨h.forward hstep.leftForward hstep.rightForward, hstep, Nat.add_lt_add_right hlt _⟩
        case isFalse =>
          split
          case isTrue hend =>
            obtain ⟨hstep, hlt⟩ := step_later hr hl hrne hend
            exact ⟨h.forward hstep.rightForward hstep.leftForward, hstep.symm,
              Nat.add_lt_add_left hlt _⟩
          case isFalse =>
            obtain ⟨hcache, hkey⟩ := cacheOk_prepare kernel hl hr hlne hrne h
            cases hdrop : (self.prepare kernel left right).pairs.dropWhile (passed left right) with
            | nil => exact takePair_nil hl hr hlne hrne hdoc hcache hkey hdrop
            | cons p rest => exact takePair_cons hl hr hlne hrne hdoc hcache hkey hdrop

end PostingIntersection

end Summa
