import Summa.Lib.Fallible
import Summa.Lib.KWayMerge
import Summa.Segment.Builder.Text
import Summa.Structures.TermInfo

/-!
# Traversal of several dictionaries (`segment/merger/terms.rs`)

A merge reads the dictionaries of its source segments side by side. A heap holds the next entry of each
source; `next` takes all entries of the least key off it and moves their sources on.

* `Holds`: what an iterator over the sources still has to return.
* `next_spec`: `next` visits the least key with all its sources, in segment order.
* `new_spec`: a new iterator stands in front of all entries.
* `visits_eq`: calls of `next` visit every key once, in order, with its sources.
* `keyBoundFromCounts_eq_some`: the bound on the distinct keys for the filter of the rewritten dictionary.
* `visits_new`: a whole traversal, and the bound for it.

The heap is a parameter: of the standard library's heap only `MinHeap` is used. Cancellation is left out.
-/

namespace Summa

open List Fallible

/-- A dictionary key: four bytes of the field id, then the term. -/
abbrev DictKey := Key

/-- An opened dictionary, as its iterator returns the entries. -/
abbrev TermDict := List (DictKey × TermInfo)

structure MergedTerms where
  iterators : List TermDict
  heap : List (HeapEntry DictKey TermInfo)
  deriving DecidableEq, Repr

namespace MergedTerms

def advance (self : MergedTerms) (segmentIdx : Nat) : Result MergedTerms :=
  match self.iterators[segmentIdx]? with
  | some ((key, termInfo) :: rest) =>
    if key.length < 4 then .error (.corruption "term key is missing its field ID")
    else .ok ⟨self.iterators.set segmentIdx rest, ⟨key, termInfo, segmentIdx⟩ :: self.heap⟩
  | _ => .ok self

def new (dicts : List TermDict) : Result MergedTerms :=
  (range dicts.length).foldlM advance ⟨dicts, []⟩

section

variable (binaryHeap : MinHeap DictKey TermInfo)

/-- The loop of `next`: the further sources of `key`. A key has at most one entry in each source, which
bounds the iterations. -/
def collect (key : DictKey) : (fuel : Nat) → (sources : List (Nat × TermInfo)) → MergedTerms →
    Result (List (Nat × TermInfo) × MergedTerms)
  | 0, sources, self => .ok (sources, self)
  | fuel + 1, sources, self =>
    match binaryHeap.pop self.heap with
    | none => .ok (sources, self)
    | some (entry, heap) =>
      if entry.key = key then do
        let self ← advance ⟨self.iterators, heap⟩ entry.source
        collect key fuel (sources ++ [(entry.source, entry.value)]) self
      else .ok (sources, self)

/-- The next key with its sources in segment order. -/
def next (self : MergedTerms) : Result (Option (DictKey × List (Nat × TermInfo)) × MergedTerms) :=
  match binaryHeap.pop self.heap with
  | none => .ok (none, self)
  | some (first, heap) => do
    let self ← advance ⟨self.iterators, heap⟩ first.source
    let (sources, self) ←
      collect binaryHeap first.key self.iterators.length [(first.source, first.value)] self
    return (some (first.key, sources.insertionSort fun a b => a.1 ≤ b.1), self)

end

/-- The iterator still returns the entries `left`: the heap holds the first entry of each source. -/
structure Holds (t : MergedTerms) (left : List TermDict) : Prop where
  iterators : t.iterators = left.map tail
  heap : (heads left).Perm t.heap

/-- Keys have a field id. -/
def KeysOk (left : List TermDict) : Prop := ∀ l ∈ left, ∀ item ∈ l, 4 ≤ item.1.length

variable {left : List TermDict} {rest : TermDict} {e : HeapEntry DictKey TermInfo}

theorem KeysOk.set (h : KeysOk left) {i : Nat} {item : DictKey × TermInfo}
    (hi : left[i]? = some (item :: rest)) : KeysOk (left.set i rest) := by
  intro l hl
  rcases mem_or_eq_of_mem_set hl with hl | rfl
  · exact h l hl
  · exact fun x hx => h _ (mem_of_getElem? hi) x (mem_cons_of_mem _ hx)

theorem dropKey_sublist (k : DictKey) (l : TermDict) : (dropKey k l).Sublist l := by
  cases l with
  | nil => exact List.Sublist.refl _
  | cons item rest =>
    rw [dropKey]
    split
    · exact sublist_cons_self ..
    · exact List.Sublist.refl _

theorem KeysOk.dropKey (h : KeysOk left) (k : DictKey) : KeysOk (left.map (dropKey k)) := by
  intro l hl item hitem
  obtain ⟨l', hl', rfl⟩ := mem_map.mp hl
  exact h l' hl' item ((dropKey_sublist k l').subset hitem)

theorem sortedSources_dropKey (h : SortedSources left) (k : DictKey) :
    SortedSources (left.map (dropKey k)) := by
  intro l hl
  obtain ⟨l', hl', rfl⟩ := mem_map.mp hl
  exact (h l' hl').sublist ((dropKey_sublist k l').map _)

/-- The source of an entry that left the heap moves on. -/
theorem advance_spec {t : MergedTerms} {es : List (HeapEntry DictKey TermInfo)} (hkeys : KeysOk left)
    (h : t.Holds left) (hpop : t.heap.Perm (e :: es))
    (hi : left[e.source]? = some ((e.key, e.value) :: rest)) :
    ∃ t', advance ⟨t.iterators, es⟩ e.source = .ok t' ∧ t'.Holds (left.set e.source rest) := by
  have hit : t.iterators[e.source]? = some rest := by
    rw [h.iterators, getElem?_map, hi]
    rfl
  have hheads := heads_set hi (h.heap.trans hpop)
  obtain ⟨hlt, hget⟩ := List.getElem?_eq_some_iff.mp hit
  cases rest with
  | nil =>
    refine ⟨⟨t.iterators, es⟩, by simp only [advance, hit], ?_, hheads⟩
    -- the source is exhausted: its iterator stays empty
    have hself : t.iterators.set e.source [] = t.iterators := by
      rw [← hget, set_getElem_self]
    rw [map_set, ← h.iterators]
    exact hself.symm
  | cons item rest =>
    obtain ⟨key, info⟩ := item
    have hlen : ¬ key.length < 4 := by
      have := hkeys _ (mem_of_getElem? hi) (key, info) (by simp)
      exact Nat.not_lt.mpr this
    refine ⟨⟨t.iterators.set e.source rest, ⟨key, info, e.source⟩ :: es⟩, ?_, ?_, hheads⟩
    · simp only [advance, hit]
      rw [if_neg hlen]
    · rw [map_set, ← h.iterators]
      rfl

variable {t : MergedTerms} {left : List TermDict} (binaryHeap : MinHeap DictKey TermInfo)

/-- An entry of the heap is the first of its source. -/
theorem Holds.source (h : t.Holds left)
    {es : List (HeapEntry DictKey TermInfo)} (hpop : t.heap.Perm (e :: es)) :
    ∃ rest, left[e.source]? = some ((e.key, e.value) :: rest) :=
  mem_heads.mp ((h.heap.trans hpop).mem_iff.mpr mem_cons_self)

/-- After a source at the least key moved on, no source stands before that key. -/
theorem le_heads_set (hs : SortedSources left)
    (hi : left[e.source]? = some ((e.key, e.value) :: rest)) (hle : ∀ x ∈ heads left, e.key ≤ x.key) :
    ∀ x ∈ heads (left.set e.source rest), e.key ≤ x.key := by
  intro x hx
  obtain ⟨xs, hxs⟩ := mem_heads.mp hx
  rw [getElem?_set] at hxs
  split at hxs
  case isTrue heq =>
    split at hxs
    case isTrue =>
      obtain rfl : rest = (x.key, x.value) :: xs := by simpa using hxs
      exact (lt_of_sorted (hs _ (mem_of_getElem? hi)) _ mem_cons_self).le
    case isFalse => cases hxs
  case isFalse => exact hle x (mem_heads.mpr ⟨xs, hxs⟩)

/-- When no source stands at `key`, there is nothing to find and no source to move. -/
theorem Holds.found_nil {key : DictKey} (hs : SortedSources left) (h : t.Holds left)
    (hlt : ∀ e ∈ heads left, key < e.key) (sources : List (Nat × TermInfo)) :
    ∃ found t', (.ok (sources, t) : Result (List (Nat × TermInfo) × MergedTerms)) = .ok (sources ++ found, t') ∧
      found.Perm (sourcesAt key left) ∧ t'.Holds (left.map (dropKey key)) := by
  obtain ⟨hnone, hsame⟩ := sourcesAt_of_lt hs hlt
  refine ⟨[], t, by rw [append_nil], ?_, ?_⟩
  · rw [hnone]
  · rw [hsame]
    exact h

/-- The loop finds the sources that stand at `key` and moves them on. -/
theorem collect_spec {key : DictKey} (hs : SortedSources left) (hkeys : KeysOk left) (h : t.Holds left)
    (hle : ∀ e ∈ heads left, key ≤ e.key) {fuel : Nat} (hfuel : (sourcesAt key left).length ≤ fuel)
    (sources : List (Nat × TermInfo)) :
    ∃ found t', collect binaryHeap key fuel sources t = .ok (sources ++ found, t') ∧
      found.Perm (sourcesAt key left) ∧ t'.Holds (left.map (dropKey key)) := by
  induction fuel generalizing t left sources with
  | zero =>
    refine h.found_nil hs (fun e he => lt_of_le_of_ne (hle e he) ?_) sources
    rintro rfl
    obtain ⟨rest, hi⟩ := mem_heads.mp he
    have := (sourcesAt_set hs hi).length_eq
    rw [length_cons] at this
    omega
  | succ fuel ih =>
    rw [collect]
    cases hpop : binaryHeap.pop t.heap with
    | none =>
      have hnil : heads left = [] := by
        have := h.heap
        rw [binaryHeap.pop_none hpop] at this
        exact this.eq_nil
      exact h.found_nil hs (by simp [hnil]) sources
    | some r =>
      obtain ⟨e, es⟩ := r
      have hperm := binaryHeap.pop_perm hpop
      dsimp only
      split
      case isTrue hkey =>
        subst hkey
        obtain ⟨rest, hi⟩ := h.source hperm
        obtain ⟨t₁, ht₁, h₁⟩ := advance_spec hkeys h hperm hi
        have hset := sourcesAt_set hs hi
        have hlen := hset.length_eq
        rw [length_cons] at hlen
        rw [ht₁, ok_bind]
        obtain ⟨found, t', hrun, hfound, h'⟩ := ih (hs.set hi) (hkeys.set hi) h₁
          (le_heads_set hs hi hle) (by omega) (sources ++ [(e.source, e.value)])
        refine ⟨(e.source, e.value) :: found, t', by rw [hrun, append_assoc]; rfl, ?_, ?_⟩
        · exact (hfound.cons _).trans hset.symm
        · rw [← map_dropKey_set hs hi]
          exact h'
      case isFalse hne =>
        have hmem : e ∈ heads left := (h.heap.trans hperm).mem_iff.mpr mem_cons_self
        have hlt : key < e.key := lt_of_le_of_ne (hle e hmem) (Ne.symm hne)
        refine h.found_nil hs (fun x hx => ?_) sources
        rcases mem_cons.mp ((h.heap.trans hperm).mem_iff.mp hx) with rfl | hx
        · exact hlt
        · exact hlt.trans_le (binaryHeap.pop_least hpop x hx)

theorem length_sourcesAt_le (key : DictKey) (left : List TermDict) :
    (sourcesAt key left).length ≤ left.length := by
  refine (length_filterMap_le _ _).trans ?_
  rw [length_zipIdx]

/-- `next` ends when the sources are exhausted, and otherwise visits the least key. -/
theorem next_spec (hs : SortedSources left) (hkeys : KeysOk left) (h : t.Holds left) :
    (heads left = [] ∧ next binaryHeap t = .ok (none, t)) ∨
      ∃ key t', (∃ e ∈ heads left, e.key = key) ∧ (∀ e ∈ heads left, key ≤ e.key) ∧
        next binaryHeap t = .ok (some (key, sourcesAt key left), t') ∧
        t'.Holds (left.map (dropKey key)) := by
  unfold next
  cases hpop : binaryHeap.pop t.heap with
  | none =>
    have hheap := h.heap
    rw [binaryHeap.pop_none hpop] at hheap
    exact .inl ⟨hheap.eq_nil, rfl⟩
  | some r =>
    obtain ⟨first, es⟩ := r
    right
    have hperm := binaryHeap.pop_perm hpop
    have hmem : first ∈ heads left := (h.heap.trans hperm).mem_iff.mpr mem_cons_self
    have hle : ∀ e ∈ heads left, first.key ≤ e.key := by
      intro e he
      rcases mem_cons.mp ((h.heap.trans hperm).mem_iff.mp he) with rfl | he
      · exact le_rfl
      · exact binaryHeap.pop_least hpop e he
    obtain ⟨rest, hi⟩ := h.source hperm
    obtain ⟨t₁, ht₁, h₁⟩ := advance_spec hkeys h hperm hi
    have hfuel : (sourcesAt first.key (left.set first.source rest)).length ≤ t₁.iterators.length := by
      rw [h₁.iterators, length_map]
      exact length_sourcesAt_le ..
    obtain ⟨found, t', hrun, hfound, h'⟩ := collect_spec binaryHeap (hs.set hi) (hkeys.set hi) h₁
      (le_heads_set hs hi hle) hfuel [(first.source, first.value)]
    refine ⟨first.key, t', ⟨first, hmem, rfl⟩, hle, ?_, ?_⟩
    · have hall : ((first.source, first.value) :: found).Perm (sourcesAt first.key left) :=
        (hfound.cons _).trans (sourcesAt_set hs hi).symm
      dsimp only
      rw [ht₁, ok_bind, hrun, ok_bind]
      simp only [singleton_append, insertionSort_sourcesAt hall]
      rfl
    · rw [← map_dropKey_set hs hi]
      exact h'

theorem heads_append_singleton (left : List TermDict) (dict : TermDict) :
    heads (left ++ [dict]) =
      heads left ++ (dict.head?.map fun item => ⟨item.1, item.2, left.length⟩).toList := by
  rw [heads, zipIdx_append, filterMap_append, heads]
  congr 1
  cases dict <;> simp

/-- After `n` sources the heap holds the first entries of the first `n` sources. -/
theorem foldlM_advance {dicts : List TermDict} (hkeys : KeysOk dicts) {n : Nat} (hn : n ≤ dicts.length) :
    ∃ t, (range n).foldlM advance ⟨dicts, []⟩ = .ok t ∧ t.iterators = (dicts.take n).map tail ++ dicts.drop n ∧
      (heads (dicts.take n)).Perm t.heap := by
  induction n with
  | zero => exact ⟨⟨dicts, []⟩, rfl, rfl, .refl _⟩
  | succ n ih =>
    obtain ⟨t, ht, hiter, hheap⟩ := ih (by omega)
    have hlt : n < dicts.length := by omega
    have htake : dicts.take (n + 1) = dicts.take n ++ [dicts[n]] := take_succ_eq_append_getElem hlt
    have hlen : ((dicts.take n).map tail).length = n := by simp [hlt.le]
    have hlen' : (dicts.take n).length = n := by simp [hlt.le]
    have hdrop : dicts.drop n = dicts[n] :: dicts.drop (n + 1) := drop_eq_getElem_cons hlt
    have hget : t.iterators[n]? = some dicts[n] := by
      rw [hiter, hdrop, getElem?_append_right (by omega), hlen, Nat.sub_self]
      rfl
    rw [range_succ, foldlM_append, ht, htake, heads_append_singleton, hlen']
    show ∃ t', (advance t n >>= fun s => [].foldlM advance s) = .ok t' ∧ _
    cases hdict : dicts[n] with
    | nil =>
      rw [hdict] at hget hdrop
      refine ⟨t, by simp only [advance, hget]; rfl, ?_, by simpa using hheap⟩
      rw [hiter, hdrop, map_append, append_assoc]
      rfl
    | cons item rest =>
      obtain ⟨key, info⟩ := item
      rw [hdict] at hget hdrop
      have hkey : ¬ key.length < 4 := by
        have := hkeys dicts[n] (getElem_mem hlt) (key, info) (by simp [hdict])
        exact Nat.not_lt.mpr this
      refine ⟨⟨t.iterators.set n rest, ⟨key, info, n⟩ :: t.heap⟩, ?_, ?_, ?_⟩
      · simp only [advance, hget]
        rw [if_neg hkey]
        rfl
      · rw [hiter, hdrop, set_append_right _ _ (by omega), hlen, Nat.sub_self, map_append,
          append_assoc]
        rfl
      · exact (perm_append_singleton _ _).trans (hheap.cons _)

/-- A new iterator stands in front of all entries. -/
theorem new_spec {dicts : List TermDict} (hkeys : KeysOk dicts) : ∃ t, new dicts = .ok t ∧ t.Holds dicts := by
  obtain ⟨t, ht, hiter, hheap⟩ := foldlM_advance hkeys le_rfl
  rw [take_length] at hiter hheap
  exact ⟨t, ht, by simpa using hiter, hheap⟩

/-! ## A whole traversal -/

/-- The loop `while let Some(key) = terms.next(&mut sources)` of a caller: the keys with their sources. -/
def visits : (calls : Nat) → MergedTerms → Result (List (DictKey × List (Nat × TermInfo)))
  | 0, _ => .ok []
  | calls + 1, self => do
    let (group, self) ← next binaryHeap self
    match group with
    | none => .ok []
    | some group => do
      let groups ← visits calls self
      .ok (group :: groups)

/-- A visit takes an entry off the sources. -/
theorem sum_length_dropKey_lt {k : DictKey} (h : ∃ e ∈ heads left, e.key = k) :
    ((left.map (dropKey k)).map length).sum < (left.map length).sum := by
  obtain ⟨e, he, rfl⟩ := h
  obtain ⟨rest, hi⟩ := mem_heads.mp he
  rw [map_map]
  refine sum_lt_sum _ _ (fun l _ => (dropKey_sublist e.key l).length_le) ⟨_, mem_of_getElem? hi, ?_⟩
  simp [dropKey]

/-- As many calls as there are entries visit every key. -/
theorem visits_eq {calls : Nat} (hs : SortedSources left) (hkeys : KeysOk left) (ht : t.Holds left)
    (hcalls : (left.map length).sum ≤ calls) :
    ∃ groups, Grouped left groups ∧ visits binaryHeap calls t = .ok groups := by
  induction calls generalizing t left with
  | zero =>
    refine ⟨[], .nil ?_, rfl⟩
    -- without entries there are no first entries
    rw [eq_nil_iff_forall_not_mem]
    intro e he
    have := sum_length_dropKey_lt ⟨e, he, rfl⟩
    omega
  | succ calls ih =>
    rcases next_spec binaryHeap hs hkeys ht with ⟨hnil, hnext⟩ | ⟨k, t', hk, hle, hnext, ht'⟩
    · refine ⟨[], .nil hnil, ?_⟩
      rw [visits, hnext]
      rfl
    · have hlt := sum_length_dropKey_lt hk
      obtain ⟨groups, hgroups, hrun⟩ := ih (sortedSources_dropKey hs k) (hkeys.dropKey k) ht' (by omega)
      refine ⟨_, hgroups.cons hs hk hle, ?_⟩
      rw [visits, hnext, ok_bind]
      dsimp only
      rw [hrun, ok_bind]

end MergedTerms

/-- `BLOOM_BITS_PER_KEY`. -/
def bloomBitsPerKey : Nat := 10

/-- One turn of the loop of `key_bound_from_counts`, on `total` and `largest`. -/
def addCount (bounds : Nat × Nat) (count : Nat) : Option (Nat × Nat) :=
  if u64Max < bounds.1 + count then none else some (bounds.1 + count, max bounds.2 count)

/-- The bound on the distinct terms of `rewrite_bloom_sizing`, if a filter of that size costs no more than the
hashes of the keys. -/
def keyBoundFromCounts (counts : List Nat) : Option Nat := do
  let (total, largest) ← counts.foldlM addCount (0, 0)
  if min (total * bloomBitsPerKey) u64Max ≤ min (largest * 64) u64Max then some total else none

theorem foldlM_addCount {counts : List Nat} {bounds bounds' : Nat × Nat}
    (h : counts.foldlM addCount bounds = some bounds') :
    bounds'.1 = bounds.1 + counts.sum ∧ (bounds'.2 = bounds.2 ∨ bounds'.2 ∈ counts) := by
  induction counts generalizing bounds with
  | nil =>
    cases h
    exact ⟨rfl, .inl rfl⟩
  | cons count counts ih =>
    rw [foldlM_cons] at h
    obtain ⟨next, hnext, h⟩ := Option.bind_eq_some_iff.mp h
    obtain ⟨-, hnext⟩ := Option.ite_none_left_eq_some.mp hnext
    cases hnext
    obtain ⟨htotal, hlargest⟩ := ih h
    refine ⟨by rw [htotal, sum_cons, Nat.add_assoc], ?_⟩
    rcases hlargest with heq | hmem
    · rcases max_choice bounds.2 count with hmax | hmax
      · exact .inl (heq.trans hmax)
      · exact .inr (by rw [heq, hmax]; exact mem_cons_self)
    · exact .inr (mem_cons_of_mem _ hmem)

/-- The bound is the total, and the largest count is a part of it that is not too small. -/
theorem keyBoundFromCounts_eq_some {counts : List Nat} {bound : Nat} (h : keyBoundFromCounts counts = some bound) :
    bound = counts.sum ∧ ∃ largest, (largest = 0 ∨ largest ∈ counts) ∧
      min (bound * bloomBitsPerKey) u64Max ≤ min (largest * 64) u64Max := by
  obtain ⟨⟨total, largest⟩, hfold, h⟩ := Option.bind_eq_some_iff.mp h
  obtain ⟨htotal, hlargest⟩ := foldlM_addCount hfold
  obtain ⟨hcost, h⟩ := Option.ite_none_right_eq_some.mp h
  cases h
  exact ⟨by simpa using htotal, largest, hlargest, hcost⟩

namespace MergedTerms

/-- A traversal of sorted dictionaries returns every key once, in order, each with its sources in segment order,
whatever the heap does with equal keys. A bound that was taken for the filter is one for these keys, and twice
the bits of a filter for the bound are no more than the sixteen bytes that buffering takes for each key. -/
theorem visits_new {dicts : List TermDict} (hs : SortedSources dicts) (hkeys : KeysOk dicts) :
    ∃ t groups, new dicts = .ok t ∧ Grouped dicts groups ∧
      (∀ (binaryHeap : MinHeap DictKey TermInfo) (calls : Nat), (dicts.map length).sum ≤ calls →
        visits binaryHeap calls t = .ok groups) ∧
      ∀ bound, keyBoundFromCounts (dicts.map length) = some bound → groups.length ≤ bound ∧
        (64 * bound ≤ u64Max → 2 * bloomBitsPerKey * bound ≤ 16 * 8 * groups.length) := by
  obtain ⟨t, hnew, hholds⟩ := new_spec hkeys
  obtain ⟨groups, hgroups, -⟩ := visits_eq .sorting hs hkeys hholds le_rfl
  refine ⟨t, groups, hnew, hgroups, fun binaryHeap calls hcalls => ?_, fun bound hbound => ?_⟩
  · obtain ⟨groups', hgroups', hrun⟩ := visits_eq binaryHeap hs hkeys hholds hcalls
    rw [hrun, hgroups'.unique hgroups]
  · obtain ⟨rfl, largest, hlargest, hcost⟩ := keyBoundFromCounts_eq_some hbound
    refine ⟨hgroups.length_le, fun hfits => ?_⟩
    have hle : largest ≤ groups.length := by
      rcases hlargest with rfl | hmem
      · exact Nat.zero_le _
      · obtain ⟨l, hl, rfl⟩ := mem_map.mp hmem
        exact hgroups.le_length hs hl
    simp only [bloomBitsPerKey, u64Max] at hcost hfits ⊢
    omega

/-- Two dictionaries with a key in common; the filter is sized for four keys, and there are three. -/
theorem visits_new_two :
    let info (docFreq : Nat) : TermInfo := .external 0 8 (.ofNat 32 docFreq) 0 0
    let dicts : List TermDict := [[([0, 0, 0, 0, 1], info 4), ([0, 0, 0, 0, 3], info 5)],
      [([0, 0, 0, 0, 1], info 6), ([0, 0, 0, 0, 2], info 7)]]
    let groups := [([0, 0, 0, 0, 1], [(0, info 4), (1, info 6)]), ([0, 0, 0, 0, 2], [(1, info 7)]),
      ([0, 0, 0, 0, 3], [(0, info 5)])]
    (∃ t, new dicts = .ok t ∧ ∀ binaryHeap, visits binaryHeap 4 t = .ok groups) ∧
      keyBoundFromCounts (dicts.map length) = some 4 ∧ groups.length ≤ 4 := by
  intro info dicts groups
  have hs : SortedSources dicts := by
    unfold SortedSources
    decide +kernel
  have hkeys : KeysOk dicts := by
    unfold KeysOk
    decide +kernel
  have hbound : keyBoundFromCounts (dicts.map length) = some 4 := by decide +kernel
  obtain ⟨t, visited, hnew, hvisited, hrun, hfits⟩ := visits_new hs hkeys
  have hexpected : Grouped dicts groups := by
    refine ⟨by decide +kernel, fun k => ?_, by decide +kernel⟩
    simp only [groups, dicts, map_cons, map_nil, mem_cons, not_mem_nil, or_false, exists_eq_or_imp, exists_eq_left]
    constructor
    · rintro (h | h | h)
      · exact .inl (.inl h)
      · exact .inr (.inr h)
      · exact .inl (.inr h)
    · rintro ((h | h) | (h | h))
      · exact .inl h
      · exact .inr (.inr h)
      · exact .inl h
      · exact .inr (.inl h)
  obtain rfl := hvisited.unique hexpected
  exact ⟨⟨t, hnew, fun binaryHeap => hrun binaryHeap 4 (by decide)⟩, hbound, (hfits 4 hbound).1⟩

end MergedTerms

end Summa
