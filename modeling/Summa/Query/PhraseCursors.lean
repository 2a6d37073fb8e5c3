import Summa.Query.PhraseCheck

/-!
# Posting cursors of a phrase

The cursors of a phrase move together to the documents that all terms have.

* `findLoop_spec`: the search stops at the first such document, or when there is none left; it never
  passes one.
* `ok_unpositioned`: the plan's order of the terms starts with the term that drives the search.
-/

namespace Summa

open List Function PostingIntersection

namespace PhrasePlan

variable {terms : List PhraseTerm} {offsets : List Nat} {slop : Nat}

instance : IsTrans Nat (rarer terms) where
  trans := by
    unfold rarer
    omega

instance : Std.Total (rarer terms) where
  total := by
    unfold rarer
    omega

/-- The first of the rarest terms comes first in the order. -/
theorem head_termOrder (h : terms ≠ []) :
    ((range terms.length).insertionSort (rarer terms)).head? =
      some (((range terms.length).argmin (docCount terms)).getD 0) := by
  have hlen : 0 < terms.length := length_pos_iff.mpr h
  have hne : range terms.length ≠ [] := by
    rw [ne_eq, range_eq_nil]
    omega
  obtain ⟨m, hm⟩ : ∃ m, (range terms.length).argmin (docCount terms) = some m :=
    Option.ne_none_iff_exists'.mp fun hnone => hne (argmin_eq_none.mp hnone)
  have hperm := perm_insertionSort (rarer terms) (range terms.length)
  cases hsorted : (range terms.length).insertionSort (rarer terms) with
  | nil =>
    rw [hsorted] at hperm
    exact absurd hperm.nil_eq.symm hne
  | cons a rest =>
    have hpair := pairwise_insertionSort (rarer terms) (range terms.length)
    rw [hsorted] at hperm hpair
    have ha : a ∈ range terms.length := hperm.mem_iff.mp mem_cons_self
    have hmem : m ∈ a :: rest := hperm.mem_iff.mpr (argmin_mem hm)
    have hle : docCount terms m ≤ docCount terms a := le_of_mem_argmin ha hm
    rw [hm, head?_cons, Option.getD_some]
    rcases mem_cons.mp hmem with rfl | hmem
    · rfl
    · rcases (pairwise_cons.mp hpair).1 m hmem with hlt | ⟨heq, hle'⟩
      · omega
      · -- equally rare terms: `argmin` takes the first
        have hidx := index_of_argmin hm ha heq.le
        have hidx' : ∀ x ∈ range terms.length, (range terms.length).idxOf x = x := by
          intro x hx
          have hx' := mem_range.mp hx
          have := nodup_range.idxOf_getElem x (by simpa using hx')
          simpa using this
        rw [hidx' m (argmin_mem hm), hidx' a ha] at hidx
        rw [le_antisymm hidx hle']

theorem ok_unpositioned (h : 2 ≤ terms.length) : (unpositioned terms offsets slop).Ok where
  two_le := h
  order := perm_insertionSort _ _
  lead := head_termOrder (ne_nil_of_length_pos (by omega))
  delta_zero := by
    cases offsets with
    | nil => rfl
    | cons o os => simp [unpositioned]
  bound := rfl

variable {plan : PhrasePlan}

namespace Ok

section

variable (h : plan.Ok)

include h

/-- The order is the lead, the second term and the others. -/
theorem order_eq : plan.termOrder = plan.lead :: plan.second :: plan.termOrder.drop 2 := by
  have hlen : plan.termOrder.length = plan.numTerms := by
    rw [h.order.length_eq, length_range]
  have h2 := h.two_le
  have h1 : 1 < plan.termOrder.length := by omega
  have hsplit := h.termOrder_eq
  have htail : plan.termOrder.tail = plan.termOrder[1] :: plan.termOrder.drop 2 := by
    rw [← drop_one, drop_eq_getElem_cons h1]
  rw [htail] at hsplit
  have hsecond : plan.second = plan.termOrder[1] := by
    unfold second
    split
    case isTrue heq =>
      -- of two terms, the second is the one that does not lead
      have hmem : plan.termOrder[1] ∈ plan.termOrder.tail := by rw [htail]; exact mem_cons_self
      obtain ⟨hlt, hne⟩ := h.mem_tail.mp hmem
      have hlead := h.lead_lt
      split <;> omega
    case isFalse => simp [h1]
  rw [hsecond]
  exact hsplit

theorem second_lt : plan.second < plan.numTerms :=
  h.mem_termOrder.mp (by rw [h.order_eq]; simp)

theorem nodup : (plan.lead :: plan.second :: plan.termOrder.drop 2).Nodup := by
  rw [← h.order_eq]
  exact h.order.nodup_iff.mpr nodup_range

theorem second_ne : plan.second ≠ plan.lead := by
  have := (nodup_cons.mp h.nodup).1
  exact fun heq => this (by simp [heq])

theorem mem_others {t : Nat} (ht : t < plan.numTerms) :
    t = plan.lead ∨ t = plan.second ∨ t ∈ plan.termOrder.drop 2 := by
  have hmem := h.mem_termOrder.mpr ht
  rw [h.order_eq] at hmem
  simpa using hmem

theorem others_ne {t : Nat} (ht : t ∈ plan.termOrder.drop 2) :
    t < plan.numTerms ∧ t ≠ plan.lead ∧ t ≠ plan.second := by
  have hn := h.nodup
  rw [nodup_cons, nodup_cons] at hn
  refine ⟨h.mem_termOrder.mp (by rw [h.order_eq]; simp [ht]), ?_, ?_⟩
  · rintro rfl
    exact hn.1 (mem_cons_of_mem _ ht)
  · rintro rfl
    exact hn.2.1 ht

end

end Ok

end PhrasePlan

namespace PhraseScorer

open BlockPostingIterator

/-- The documents that all terms have still to yield. -/
def Common (n : Nat) (its : Nat → BlockPostingIterator) (d : Nat) : Prop := ∀ i < n, d ∈ (its i).docs

/-- The cursors stand on document `d`. -/
def Aligned (n : Nat) (its : Nat → BlockPostingIterator) (d : Nat) : Prop :=
  ∀ i < n, (its i).rest ≠ [] ∧ (its i).doc = d

structure CursorsOk (plan : PhrasePlan) (x : PostingIntersection) (its : Nat → BlockPostingIterator) :
    Prop where
  ok : ∀ i < plan.numTerms, (its i).Ok
  cache : x.CacheOk (its plan.lead) (its plan.second)

/-- The cursors moved forward, over no common document. -/
structure Kept (n : Nat) (its its' : Nat → BlockPostingIterator) : Prop where
  suffix : ∀ i < n, (its' i).rest <:+ (its i).rest
  common : ∀ d, Common n its d → Common n its' d

variable {n i : Nat} {its : Nat → BlockPostingIterator}

theorem Kept.refl : Kept n its its :=
  ⟨fun _ _ => suffix_rfl, fun _ h => h⟩

theorem Kept.trans {its' its'' : Nat → BlockPostingIterator} (h : Kept n its its')
    (h' : Kept n its' its'') : Kept n its its'' :=
  ⟨fun i hi => (h'.suffix i hi).trans (h.suffix i hi), fun d hd => h'.common d (h.common d hd)⟩

theorem Kept.common_iff {its' : Nat → BlockPostingIterator} (h : Kept n its its') {d : Nat} :
    Common n its' d ↔ Common n its d :=
  ⟨fun hd i hi => map_subset _ (h.suffix i hi).subset (hd i hi), h.common d⟩

variable {plan : PhrasePlan} {kernel : IntersectKernel} {its : Nat → BlockPostingIterator}
  {x : PostingIntersection}

theorem common_ge (hok : (its i).Ok) (hi : i < n) {d : Nat} (hd : Common n its d) :
    (its i).doc ≤ d := doc_le hok (hd i hi)

/-- One cursor is replaced by one that moved over documents which are not common. -/
theorem kept_update {it : BlockPostingIterator} (hs : it.rest <:+ (its i).rest)
    (hc : ∀ d, Common n its d → d ∈ it.docs) : Kept n its (update its i it) where
  suffix := fun j _ => (forall_update_iff its fun j it => rest it <:+ (its j).rest).mpr
    ⟨hs, fun _ _ => suffix_rfl⟩ j
  common := fun d hd => (forall_update_iff its fun j it => j < n → d ∈ docs it).mpr
    ⟨fun _ => hc d hd, fun j _ => hd j⟩

theorem ok_update {it : BlockPostingIterator} (hok : ∀ j < n, (its j).Ok) (hit : it.Ok) :
    ∀ j < n, (update its i it j).Ok :=
  (forall_update_iff its fun j it => j < n → it.Ok).mpr ⟨fun _ => hit, fun j _ => hok j⟩

/-- Seeking the other terms to a candidate that no common document precedes. -/
theorem alignOthers_spec {candidate : Nat} {l : List Nat} {r : Option Nat} {its' : Nat → BlockPostingIterator}
    (hok : ∀ i < n, (its i).Ok) (hl : ∀ i ∈ l, i < n) (hlow : ∀ d, Common n its d → candidate ≤ d)
    (hc : candidate < terminated) (hr : alignOthers candidate l its = (r, its')) :
    (∀ i < n, (its' i).Ok) ∧ Kept n its its' ∧ (∀ i ∉ l, its' i = its i) ∧
      match r with
      | none => ∀ i ∈ l, (its' i).rest ≠ [] ∧ (its' i).doc = candidate
      | some doc => candidate < doc ∧ ∃ i ∈ l, (its' i).doc = doc := by
  induction l generalizing its with
  | nil =>
    cases hr
    exact ⟨hok, .refl, fun _ _ => rfl, by simp⟩
  | cons i l ih =>
    have hi := hl i mem_cons_self
    obtain ⟨hseek, -⟩ := (hok i hi).seek candidate
    have hkept : Kept n its (update its i ((its i).seek candidate)) :=
      kept_update ((hok i hi).rest_seek_suffix candidate) fun d hd =>
        (hok i hi).mem_docs_seek.mpr ⟨hd i hi, hlow d hd⟩
    have hok' := ok_update (i := i) hok hseek
    unfold alignOthers at hr
    simp only [] at hr
    split at hr
    case isTrue hne =>
      cases hr
      refine ⟨hok', hkept, fun j hj => update_of_ne (ne_of_not_mem_cons hj) _ _,
        ?_, i, mem_cons_self, congrArg _ (update_self ..)⟩
      refine lt_of_le_of_ne ?_ (Ne.symm hne)
      by_cases hnil : ((its i).seek candidate).rest = []
      · rw [hseek.doc_eq_terminated_iff.mpr hnil]
        exact hc.le
      · exact ((hok i hi).mem_docs_seek.mp (doc_mem hseek hnil)).2
    case isFalse heq =>
      obtain ⟨h1, h2, h3, h4⟩ := ih hok' (fun j hj => hl j (mem_cons_of_mem _ hj))
        (fun d hd => hlow d (hkept.common_iff.mp hd)) hr
      refine ⟨h1, hkept.trans h2, fun j hj => ?_, ?_⟩
      · rw [mem_cons, not_or] at hj
        rw [h3 j hj.2, update_of_ne hj.1]
      · have hdoc : ((its i).seek candidate).doc = candidate := not_not.mp heq
        have hrest : ((its i).seek candidate).rest ≠ [] := by
          intro hnil
          rw [hseek.doc_eq_terminated_iff.mpr hnil] at hdoc
          omega
        cases r with
        | none =>
          intro j hj
          by_cases hjl : j ∈ l
          · exact h4 j hjl
          · obtain rfl : j = i := by simpa [hjl] using hj
            rw [h3 j hjl, update_self]
            exact ⟨hrest, hdoc⟩
        | some doc =>
          obtain ⟨hlt, j, hj, hjd⟩ := h4
          exact ⟨hlt, j, mem_cons_of_mem _ hj, hjd⟩

/-- The search ended on the first common document, or there is none. -/
structure Found (plan : PhrasePlan) (its : Nat → BlockPostingIterator)
    (r : Nat × PostingIntersection × (Nat → BlockPostingIterator)) : Prop where
  ok : CursorsOk plan r.2.1 r.2.2
  kept : Kept plan.numTerms its r.2.2
  result : (r.1 = terminated ∧ ∀ d, ¬ Common plan.numTerms its d) ∨
    (r.1 < terminated ∧ Aligned plan.numTerms r.2.2 r.1)

theorem Found.of_kept {its' : Nat → BlockPostingIterator}
    {r : Nat × PostingIntersection × (Nat → BlockPostingIterator)} (hk : Kept plan.numTerms its its')
    (h : Found plan its' r) : Found plan its r :=
  ⟨h.ok, hk.trans h.kept, h.result.imp_left fun ⟨ht, hno⟩ => ⟨ht, fun d hd => hno d (hk.common d hd)⟩⟩

/-- The cursors after a call on the two intersected lists. -/
theorem cursorsOk_intersected (hplan : plan.Ok) (h : CursorsOk plan x its)
    {m : Option Nat × PostingIntersection × BlockPostingIterator × BlockPostingIterator}
    (hm : Moved (its plan.lead) (its plan.second) m) :
    CursorsOk plan m.2.1
        (update (update its plan.lead m.2.2.1) plan.second m.2.2.2) ∧
      Kept plan.numTerms its
        (update (update its plan.lead m.2.2.1) plan.second m.2.2.2) := by
  have hne := hplan.second_ne
  have hfirst : update (update its plan.lead m.2.2.1) plan.second m.2.2.2 plan.lead =
      m.2.2.1 := by
    rw [update_of_ne hne.symm, update_self]
  have hstep : ∀ d, Common plan.numTerms its d → d ∈ m.2.2.1.docs ∧ d ∈ m.2.2.2.docs := fun d hd =>
    hm.step.common d (hd _ hplan.lead_lt) (hd _ hplan.second_lt)
  have hkept : Kept plan.numTerms its (update its plan.lead m.2.2.1) :=
    kept_update hm.step.leftSuffix fun d hd => (hstep d hd).1
  refine ⟨⟨ok_update (ok_update h.ok hm.step.leftOk) hm.step.rightOk, ?_⟩, hkept.trans (kept_update ?_ ?_)⟩
  · rw [hfirst, update_self]
    exact hm.cache
  · rw [update_of_ne hne]
    exact hm.step.rightSuffix
  · exact fun d hd => (hstep d (hkept.common_iff.mp hd)).2

theorem findLoop_spec {fuel : Nat} (hplan : plan.Ok) (h : CursorsOk plan x its)
    (hfuel : (its plan.lead).rest.length + (its plan.second).rest.length < fuel) :
    Found plan its (findLoop plan kernel fuel x its) := by
  induction fuel generalizing x its with
  | zero => omega
  | succ fuel ih =>
    have hlead := hplan.lead_lt
    have hsecond := hplan.second_lt
    have hne := hplan.second_ne
    have hm := intersectBlock_spec kernel (h.ok _ hlead)
      (h.ok _ hsecond) h.cache
    obtain ⟨hok, hkept⟩ := cursorsOk_intersected hplan h hm
    unfold findLoop
    simp only []
    set m := x.intersectBlock kernel (its plan.lead) (its plan.second) with hmdef
    set its₁ := update (update its plan.lead m.2.2.1) plan.second m.2.2.2 with hits
    have h1 : its₁ plan.lead = m.2.2.1 := by
      rw [hits, update_of_ne hne.symm, update_self]
    have h2 : its₁ plan.second = m.2.2.2 := by rw [hits, update_self]
    have hres := hm.result
    rw [← h1, ← h2] at hres
    cases hcase : m.1 with
    | none =>
      rw [hcase] at hres
      have hlt : (its₁ plan.lead).rest.length + (its₁ plan.second).rest.length <
          (its plan.lead).rest.length + (its plan.second).rest.length := hres
      exact .of_kept hkept (ih hok (by omega))
    | some candidate =>
      rw [hcase] at hres
      simp only []
      -- a document at which both lists stand is not the end
      have hdoc : candidate ≠ terminated → candidate < terminated ∧ candidate = (its₁ plan.lead).doc ∧
          candidate = (its₁ plan.second).doc ∧ (its₁ plan.lead).rest ≠ [] ∧
          (its₁ plan.second).rest ≠ [] := by
        intro hc
        rcases hres with ⟨ht, -⟩ | ⟨hc1, hc2, hr1, hr2⟩
        · exact absurd ht hc
        · refine ⟨?_, hc1, hc2, hr1, hr2⟩
          rw [hc1]
          exact (hok.ok _ hlead).docs_lt _ (doc_mem (hok.ok _ hlead) hr1)
      split
      case isTrue hstop =>
        refine ⟨hok, hkept, ?_⟩
        rcases eq_or_ne candidate terminated with hc | hc
        · refine .inl ⟨hc, fun d hd => ?_⟩
          have hd' := hkept.common d hd
          rcases hres with ⟨-, hnil | hnil⟩ | ⟨hc1, -, hr1, -⟩
          · have := hd' _ hlead
            simp [docs, hnil] at this
          · have := hd' _ hsecond
            simp [docs, hnil] at this
          · exact hr1 ((hok.ok _ hlead).doc_eq_terminated_iff.mp (hc1 ▸ hc))
        · obtain ⟨hlt, hc1, hc2, hr1, hr2⟩ := hdoc hc
          refine .inr ⟨hlt, fun i hi => ?_⟩
          have hi' : i = plan.lead ∨ i = plan.second := by omega
          rcases hi' with rfl | rfl
          · exact ⟨hr1, hc1.symm⟩
          · exact ⟨hr2, hc2.symm⟩
      case isFalse hgo =>
        rw [not_or] at hgo
        obtain ⟨hlt, hc1, hc2, hr1, hr2⟩ := hdoc hgo.2
        obtain ⟨⟨res, its₂⟩, ha⟩ : ∃ a, alignOthers candidate (plan.termOrder.drop 2) its₁ = a := ⟨_, rfl⟩
        obtain ⟨ho, hk, hsame, halign⟩ := alignOthers_spec hok.ok (fun i hi => (hplan.others_ne hi).1)
          (fun d hd => hc1 ▸ common_ge (hok.ok _ hlead) hlead hd) hlt ha
        rw [ha]
        have hal : its₂ plan.lead = its₁ plan.lead :=
          hsame _ fun hmem => (hplan.others_ne hmem).2.1 rfl
        have has : its₂ plan.second = its₁ plan.second :=
          hsame _ fun hmem => (hplan.others_ne hmem).2.2 rfl
        have hcache : m.2.1.CacheOk (its₂ plan.lead) (its₂ plan.second) := by
          rw [hal, has]
          exact hok.cache
        cases res with
        | none =>
          have haligned : Aligned plan.numTerms its₂ candidate := by
            intro i hi
            rcases hplan.mem_others hi with rfl | rfl | hmem
            · rw [hal]
              exact ⟨hr1, hc1.symm⟩
            · rw [has]
              exact ⟨hr2, hc2.symm⟩
            · exact halign i hmem
          exact ⟨⟨ho, hcache⟩, hkept.trans hk, .inr ⟨hlt, haligned⟩⟩
        | some doc =>
          obtain ⟨hgt, i, hi, hidoc⟩ := halign
          have hin := (hplan.others_ne hi).1
          have hlok := ho _ hlead
          have hkept' : Kept plan.numTerms its₂
              (update its₂ plan.lead ((its₂ plan.lead).seek doc)) :=
            kept_update (hlok.rest_seek_suffix doc) fun d hd =>
              hlok.mem_docs_seek.mpr ⟨hd _ hlead, hidoc ▸ common_ge (ho i hin) hin hd⟩
          have hshort : ((its₂ plan.lead).seek doc).rest.length < (its₂ plan.lead).rest.length :=
            length_seek_lt hlok (hal ▸ hr1) (by rw [hal, ← hc1]; exact hgt)
          have hle1 := (hkept.suffix _ hlead).length_le
          have hle2 := (hkept.suffix _ hsecond).length_le
          have hcur : CursorsOk plan m.2.1
              (update its₂ plan.lead ((its₂ plan.lead).seek doc)) := by
            refine ⟨ok_update ho (hlok.seek doc).1, ?_⟩
            rw [update_self, update_of_ne hne]
            exact hcache.forward forward_seek .refl
          refine .of_kept (hkept.trans (hk.trans hkept')) (ih hcur ?_)
          rw [update_self, update_of_ne hne, has]
          rw [hal] at hshort ⊢
          omega

end PhraseScorer

end Summa
