import Mathlib.Algebra.Ring.Nat
import Mathlib.Data.List.Sort

/-!
# Merging sorted sources

Sources are lists of keyed items, each sorted strictly by key. A merge visits the keys of all sources in
order, and at each key the items that stand at it, with the places of their sources.

* `MinHeap`: what a merge relies on in a heap.
* `Grouped`: the visits of a merge, with nothing said about how they are found.
* `Grouped.cons`: a merge visits the least key first, then merges what is left.
* `Grouped.unique`: the visits do not depend on how they are found.
* `sourcesAt_set`, `heads_set`: the items and the heads after one source moved on.
-/

namespace Summa

open List

variable {κ ν : Type}

/-- The next item of a source, as a merge keeps it in its heap. -/
structure HeapEntry (κ ν : Type) where
  key : κ
  value : ν
  source : Nat
  deriving DecidableEq, Repr

/-- A heap of entries with the least key on top; entries with equal keys come out in any order. -/
structure MinHeap (κ ν : Type) [LinearOrder κ] where
  pop : List (HeapEntry κ ν) → Option (HeapEntry κ ν × List (HeapEntry κ ν))
  pop_none : ∀ {es}, pop es = none → es = []
  pop_perm : ∀ {es e rest}, pop es = some (e, rest) → es.Perm (e :: rest)
  pop_least : ∀ {es e rest}, pop es = some (e, rest) → ∀ x ∈ rest, e.key ≤ x.key

/-- The heap that keeps its entries in a list and sorts it for each `pop`. -/
def MinHeap.sorting [LinearOrder κ] : MinHeap κ ν where
  pop es :=
    match es.insertionSort (fun a b => a.key ≤ b.key) with
    | [] => none
    | e :: rest => some (e, rest)
  pop_none := by
    intro es h
    have hperm := perm_insertionSort (fun a b : HeapEntry κ ν => a.key ≤ b.key) es
    split at h
    case h_1 hnil => exact nil_perm.mp (hnil ▸ hperm)
    case h_2 => cases h
  pop_perm := by
    intro es e rest h
    have hperm := perm_insertionSort (fun a b : HeapEntry κ ν => a.key ≤ b.key) es
    split at h
    case h_1 => cases h
    case h_2 hcons =>
      cases h
      exact hcons ▸ hperm.symm
  pop_least := by
    intro es e rest h
    let _ : Std.Total (fun a b : HeapEntry κ ν => a.key ≤ b.key) := ⟨fun a b => le_total a.key b.key⟩
    let _ : IsTrans (HeapEntry κ ν) (fun a b => a.key ≤ b.key) := ⟨fun _ _ _ h h' => le_trans h h'⟩
    have hsorted := pairwise_insertionSort (fun a b : HeapEntry κ ν => a.key ≤ b.key) es
    split at h
    case h_1 => cases h
    case h_2 hcons =>
      cases h
      rw [hcons] at hsorted
      exact (pairwise_cons.mp hsorted).1

/-! ## One place of a numbered list -/

/-- What a numbered list yields around place `i`, whatever stands there. -/
theorem filterMap_zipIdx_set {α β : Type} (f : α × Nat → Option β) {l : List α} {i : Nat} {a : α}
    (hi : l[i]? = some a) :
    ∃ before after, l.zipIdx.filterMap f = before ++ (f (a, i)).toList ++ after ∧
      ∀ x, (l.set i x).zipIdx.filterMap f = before ++ (f (x, i)).toList ++ after := by
  obtain ⟨hlt, rfl⟩ := List.getElem?_eq_some_iff.mp hi
  have hlen : (l.take i).length = i := by simp [hlt.le]
  have hsplit : ∀ x, (l.take i ++ x :: l.drop (i + 1)).zipIdx.filterMap f =
      (l.take i).zipIdx.filterMap f ++ (f (x, i)).toList ++
        ((l.drop (i + 1)).zipIdx (i + 1)).filterMap f := by
    intro x
    rw [zipIdx_append, filterMap_append, zipIdx_cons, filterMap_cons, hlen, Nat.zero_add]
    cases f (x, i) <;> simp
  refine ⟨(l.take i).zipIdx.filterMap f, ((l.drop (i + 1)).zipIdx (i + 1)).filterMap f, ?_, fun x => ?_⟩
  · rw [← hsplit, getElem_cons_drop, take_append_drop]
  · rw [← hsplit, set_eq_take_append_cons_drop, if_pos hlt]

/-! ## What is left of the sources -/

/-- The value of a source at key `k`. -/
def valueAt [LinearOrder κ] (k : κ) (l : List (κ × ν)) : Option ν := (l.find? (·.1 = k)).map (·.2)

/-- The items at key `k`, with the places of their sources. -/
def sourcesAt [LinearOrder κ] (k : κ) (left : List (List (κ × ν))) : List (Nat × ν) :=
  left.zipIdx.filterMap fun (l, i) => (valueAt k l).map fun v => (i, v)

/-- The first items of the sources. -/
def heads (left : List (List (κ × ν))) : List (HeapEntry κ ν) :=
  left.zipIdx.filterMap fun (l, i) => l.head?.map fun item => ⟨item.1, item.2, i⟩

/-- A source after key `k` was visited. -/
def dropKey [LinearOrder κ] (k : κ) : List (κ × ν) → List (κ × ν)
  | [] => []
  | item :: rest => if item.1 = k then rest else item :: rest

/-- Every source is sorted strictly by key. -/
def SortedSources [LinearOrder κ] (left : List (List (κ × ν))) : Prop :=
  ∀ l ∈ left, (l.map (·.1)).Pairwise (· < ·)

theorem mem_heads {left : List (List (κ × ν))} {e : HeapEntry κ ν} :
    e ∈ heads left ↔ ∃ rest, left[e.source]? = some ((e.key, e.value) :: rest) := by
  rw [heads, mem_filterMap]
  constructor
  · rintro ⟨⟨l, i⟩, hmem, hhead⟩
    obtain ⟨item, hitem, rfl⟩ := Option.map_eq_some_iff.mp hhead
    obtain ⟨rest, rfl⟩ := head?_eq_some_iff.mp hitem
    exact ⟨rest, mem_zipIdx_iff_getElem?.mp hmem⟩
  · rintro ⟨rest, hi⟩
    exact ⟨(_, e.source), mem_zipIdx_iff_getElem?.mpr hi, rfl⟩

theorem heads_set {left : List (List (κ × ν))} {e : HeapEntry κ ν} {rest : List (κ × ν)}
    (hi : left[e.source]? = some ((e.key, e.value) :: rest)) {es : List (HeapEntry κ ν)}
    (h : (heads left).Perm (e :: es)) :
    (heads (left.set e.source rest)).Perm
      ((rest.head?.map fun item => ⟨item.1, item.2, e.source⟩).toList ++ es) := by
  obtain ⟨before, after, hall, hset⟩ := filterMap_zipIdx_set
    (fun (l, i) => l.head?.map fun item => (⟨item.1, item.2, i⟩ : HeapEntry κ ν)) hi
  have hes : (before ++ after).Perm es := by
    rw [heads, hall] at h
    have hcons : (before ++ [e] ++ after).Perm (e :: es) := h
    rw [append_assoc] at hcons
    exact (perm_cons e).mp (perm_middle.symm.trans hcons)
  rw [heads, hset rest, append_assoc]
  have hmove := perm_append_comm_assoc before
    (rest.head?.map fun item => (⟨item.1, item.2, e.source⟩ : HeapEntry κ ν)).toList after
  exact hmove.trans (hes.append_left _)

section

variable [LinearOrder κ]

variable {k k' : κ} {l rest : List (κ × ν)} {left : List (List (κ × ν))}

theorem valueAt_of_lt (h : ∀ item ∈ l, k < item.1) : valueAt k l = none := by
  rw [valueAt, Option.map_eq_none_iff, find?_eq_none]
  intro item hitem
  simpa using (h item hitem).ne'

/-- The items behind the first one of a source stand at larger keys. -/
theorem lt_of_sorted {item : κ × ν}
    (h : ((item :: rest).map (·.1)).Pairwise (· < ·)) : ∀ x ∈ rest, item.1 < x.1 := by
  rw [map_cons, pairwise_cons] at h
  exact fun x hx => h.1 x.1 (mem_map_of_mem hx)

/-- One source moves on from key `k`: its item is one of those at `k`. -/
theorem sourcesAt_set {e : HeapEntry κ ν}
    (hs : SortedSources left) (hi : left[e.source]? = some ((e.key, e.value) :: rest)) :
    (sourcesAt e.key left).Perm ((e.source, e.value) :: sourcesAt e.key (left.set e.source rest)) := by
  have hlt := lt_of_sorted (hs _ (mem_of_getElem? hi))
  obtain ⟨before, after, hall, hset⟩ := filterMap_zipIdx_set
    (fun (l, i) => (valueAt e.key l).map fun v : ν => (i, v)) hi
  have hfirst : valueAt e.key ((e.key, e.value) :: rest) = some e.value := by simp [valueAt]
  have hrest : valueAt e.key rest = none := valueAt_of_lt hlt
  rw [sourcesAt, hall, sourcesAt, hset rest]
  simp only [hfirst, hrest]
  simp

theorem SortedSources.set {i : Nat} {item : κ × ν}
    (hs : SortedSources left) (hi : left[i]? = some (item :: rest)) : SortedSources (left.set i rest) := by
  intro l hl
  rcases mem_or_eq_of_mem_set hl with hl | rfl
  · exact hs l hl
  · have := hs _ (mem_of_getElem? hi)
    rw [map_cons, pairwise_cons] at this
    exact this.2

theorem dropKey_of_lt (h : ∀ item ∈ l, k < item.1) : dropKey k l = l := by
  cases l with
  | nil => rfl
  | cons item rest => rw [dropKey, if_neg (h item mem_cons_self).ne']

/-- Moving one source on and then visiting `k` is visiting `k`. -/
theorem map_dropKey_set {e : HeapEntry κ ν}
    (hs : SortedSources left) (hi : left[e.source]? = some ((e.key, e.value) :: rest)) :
    (left.set e.source rest).map (dropKey e.key) = left.map (dropKey e.key) := by
  have hlt := lt_of_sorted (hs _ (mem_of_getElem? hi))
  obtain ⟨hlen, hget⟩ := List.getElem?_eq_some_iff.mp hi
  have hlen' : e.source < (left.map (dropKey e.key)).length := by simpa using hlen
  have hsame : (left.map (dropKey e.key))[e.source] = rest := by
    simp [hget, dropKey]
  rw [map_set, dropKey_of_lt hlt, ← hsame, set_getElem_self]

/-- What holds of the first keys and goes on to larger ones holds of all keys. -/
theorem forall_of_heads {P : κ → Prop} (hP : ∀ {a b}, P a → a < b → P b) (hs : SortedSources left)
    (h : ∀ e ∈ heads left, P e.key) : ∀ l ∈ left, ∀ item ∈ l, P item.1 := by
  intro l hl
  obtain ⟨i, hi⟩ := getElem?_of_mem hl
  cases l with
  | nil => simp
  | cons item rest =>
    have hhead : P item.1 := h ⟨item.1, item.2, i⟩ (mem_heads.mpr ⟨rest, hi⟩)
    exact forall_mem_cons.mpr ⟨hhead, fun x hx => hP hhead (lt_of_sorted (hs _ hl) x hx)⟩

/-- When all sources stand behind `k`, nothing is at `k` and nothing is visited. -/
theorem sourcesAt_of_lt (hs : SortedSources left)
    (h : ∀ e ∈ heads left, k < e.key) : sourcesAt k left = [] ∧ left.map (dropKey k) = left := by
  have hlt := forall_of_heads lt_trans hs h
  constructor
  · rw [sourcesAt, filterMap_eq_nil_iff]
    intro ⟨l, i⟩ hmem
    have hl : l ∈ left := mem_of_getElem? (mem_zipIdx_iff_getElem?.mp hmem)
    simp [valueAt_of_lt (hlt l hl)]
  · exact (map_congr_left fun l hl => dropKey_of_lt (hlt l hl)).trans (map_id' left)

/-- The sources at a key are numbered in order. -/
theorem sourcesAt_sorted (k : κ) (left : List (List (κ × ν))) :
    ((sourcesAt k left).map (·.1)).Pairwise (· < ·) := by
  have hidx : (left.zipIdx.map (·.2)).Pairwise (· < ·) := by
    rw [zipIdx_map_snd]
    exact pairwise_lt_range'
  rw [pairwise_map] at hidx ⊢
  refine hidx.filterMap _ ?_
  rintro ⟨l, i⟩ ⟨l', i'⟩ hlt a ha b hb
  obtain ⟨item, -, rfl⟩ := Option.map_eq_some_iff.mp ha
  obtain ⟨item', -, rfl⟩ := Option.map_eq_some_iff.mp hb
  exact hlt

/-- Sorting the sources at a key by their numbers, in whatever order they were found. -/
theorem insertionSort_sourcesAt {found : List (Nat × ν)} (h : found.Perm (sourcesAt k left)) :
    found.insertionSort (fun a b => a.1 ≤ b.1) = sourcesAt k left := by
  let _ : Std.Total (fun a b : Nat × ν => a.1 ≤ b.1) := ⟨fun a b => le_total a.1 b.1⟩
  let _ : IsTrans (Nat × ν) (fun a b => a.1 ≤ b.1) := ⟨fun _ _ _ h h' => le_trans h h'⟩
  have hperm := (perm_insertionSort (fun a b : Nat × ν => a.1 ≤ b.1) found).trans h
  have hnodup : ((sourcesAt k left).map (·.1)).Nodup := (sourcesAt_sorted k left).imp fun h => h.ne
  refine hperm.eq_of_pairwise (fun a b ha hb hab hba => ?_) (pairwise_insertionSort _ found)
    ((pairwise_map.mp (sourcesAt_sorted k left)).imp fun h => h.le)
  exact inj_on_of_nodup_map hnodup (hperm.subset ha) hb (hab.antisymm hba)

/-! ## The visits of a merge -/

/-- Each key of the sources is visited once, in order, with all its items. -/
structure Grouped (left : List (List (κ × ν))) (groups : List (κ × List (Nat × ν))) : Prop where
  sorted : (groups.map (·.1)).Pairwise (· < ·)
  mem : ∀ k, k ∈ groups.map (·.1) ↔ ∃ l ∈ left, k ∈ l.map (·.1)
  sources : ∀ g ∈ groups, g.2 = sourcesAt g.1 left

theorem Grouped.nil (h : heads left = []) : Grouped left [] := by
  refine ⟨.nil, fun k => ⟨by simp, ?_⟩, by simp⟩
  rintro ⟨l, hl, hk⟩
  obtain ⟨i, hi⟩ := getElem?_of_mem hl
  cases l with
  | nil => simp at hk
  | cons item rest =>
    have : (⟨item.1, item.2, i⟩ : HeapEntry κ ν) ∈ heads left := mem_heads.mpr ⟨rest, hi⟩
    simp [h] at this

theorem mem_dropKey (hs : (l.map (·.1)).Pairwise (· < ·)) (hle : ∀ item ∈ l, k ≤ item.1) :
    k' ∈ (dropKey k l).map (·.1) ↔ k' ∈ l.map (·.1) ∧ k < k' := by
  cases l with
  | nil => simp [dropKey]
  | cons item rest =>
    have hrest := lt_of_sorted hs
    by_cases heq : item.1 = k
    · rw [dropKey, if_pos heq, map_cons, mem_cons]
      constructor
      · intro hk
        obtain ⟨x, hx, rfl⟩ := mem_map.mp hk
        exact ⟨.inr hk, heq ▸ hrest x hx⟩
      · rintro ⟨rfl | hk, hlt⟩
        · exact absurd hlt (heq ▸ lt_irrefl _)
        · exact hk
    · have hlt : k < item.1 := lt_of_le_of_ne (hle item mem_cons_self) (Ne.symm heq)
      rw [dropKey, if_neg heq]
      refine ⟨fun hk => ⟨hk, ?_⟩, And.left⟩
      obtain ⟨x, hx, rfl⟩ := mem_map.mp hk
      rcases mem_cons.mp hx with rfl | hx
      · exact hlt
      · exact hlt.trans (hrest x hx)

theorem valueAt_dropKey (h : k' ≠ k) (l : List (κ × ν)) : valueAt k' (dropKey k l) = valueAt k' l := by
  cases l with
  | nil => rfl
  | cons item rest =>
    by_cases heq : item.1 = k
    · rw [dropKey, if_pos heq, valueAt, valueAt, find?_cons_of_neg]
      simpa [heq] using h.symm
    · rw [dropKey, if_neg heq]

theorem sourcesAt_map_dropKey (h : k' ≠ k) (left : List (List (κ × ν))) :
    sourcesAt k' (left.map (dropKey k)) = sourcesAt k' left := by
  rw [sourcesAt, zipIdx_map, filterMap_map, sourcesAt]
  refine filterMap_congr fun item _ => ?_
  simp only [Function.comp_apply, Prod.map_fst, Prod.map_snd, id_eq, valueAt_dropKey h]

/-- A merge visits the least of the first keys, and then what is left of the sources. -/
theorem Grouped.cons {groups : List (κ × List (Nat × ν))}
    (hs : SortedSources left) (hk : ∃ e ∈ heads left, e.key = k) (hle : ∀ e ∈ heads left, k ≤ e.key)
    (h : Grouped (left.map (dropKey k)) groups) : Grouped left ((k, sourcesAt k left) :: groups) := by
  have hall := forall_of_heads (fun hle hlt => hle.trans hlt.le) hs hle
  have hmem : ∀ k', k' ∈ groups.map (·.1) ↔ (∃ l ∈ left, k' ∈ l.map (·.1)) ∧ k < k' := by
    intro k'
    rw [h.mem]
    simp only [mem_map (l := left), exists_exists_and_eq_and]
    constructor
    · rintro ⟨l, hl, hk'⟩
      obtain ⟨hk', hlt⟩ := (mem_dropKey (hs l hl) (hall l hl)).mp hk'
      exact ⟨⟨l, hl, hk'⟩, hlt⟩
    · rintro ⟨⟨l, hl, hk'⟩, hlt⟩
      exact ⟨l, hl, (mem_dropKey (hs l hl) (hall l hl)).mpr ⟨hk', hlt⟩⟩
  refine ⟨?_, fun k' => ?_, forall_mem_cons.mpr ⟨rfl, fun g hg => ?_⟩⟩
  · rw [map_cons, pairwise_cons]
    exact ⟨fun k' hk' => ((hmem k').mp hk').2, h.sorted⟩
  · rw [map_cons, mem_cons, hmem]
    constructor
    · rintro (rfl | ⟨hk', -⟩)
      · obtain ⟨e, he, rfl⟩ := hk
        obtain ⟨rest, hi⟩ := mem_heads.mp he
        exact ⟨_, mem_of_getElem? hi, by simp⟩
      · exact hk'
    · rintro ⟨l, hl, hk'⟩
      by_cases heq : k' = k
      · exact .inl heq
      · refine .inr ⟨⟨l, hl, hk'⟩, ?_⟩
        obtain ⟨x, hx, rfl⟩ := mem_map.mp hk'
        exact lt_of_le_of_ne (hall l hl x hx) (Ne.symm heq)
  · have hne : g.1 ≠ k := ((hmem g.1).mp (mem_map_of_mem hg)).2.ne'
    rw [h.sources g hg, sourcesAt_map_dropKey hne]

variable {groups groups' : List (κ × List (Nat × ν))}

/-- The visits are determined by the sources. -/
theorem Grouped.unique (h : Grouped left groups) (h' : Grouped left groups') : groups = groups' := by
  have hperm : (groups.map (·.1)).Perm (groups'.map (·.1)) :=
    (perm_ext_iff_of_nodup h.sorted.nodup h'.sorted.nodup).mpr fun k => (h.mem k).trans (h'.mem k).symm
  have hkeys := hperm.eq_of_pairwise (fun a b _ _ hab hba => absurd hba hab.asymm) h.sorted h'.sorted
  have hgroups : ∀ {gs : List (κ × List (Nat × ν))}, Grouped left gs →
      gs = (gs.map (·.1)).map fun k => (k, sourcesAt k left) := by
    intro gs hgs
    rw [map_map]
    refine (map_id gs).symm.trans (map_congr_left fun g hg => ?_)
    rw [Function.comp_apply, ← hgs.sources g hg]
    rfl
  rw [hgroups h, hgroups h', hkeys]

/-- There are at most as many visits as items. -/
theorem Grouped.length_le (h : Grouped left groups) : groups.length ≤ (left.map length).sum := by
  have hsub : groups.map (·.1) ⊆ (left.map fun l => l.map (·.1)).flatten := by
    intro k hk
    obtain ⟨l, hl, hk⟩ := (h.mem k).mp hk
    exact mem_flatten.mpr ⟨_, mem_map_of_mem hl, hk⟩
  have hlen := (subperm_of_subset h.sorted.nodup hsub).length_le
  have hlengths : (left.map fun l => l.map (·.1)).map length = left.map length := by
    rw [map_map]
    exact map_congr_left fun l _ => length_map ..
  rwa [length_map, length_flatten, hlengths] at hlen

/-- Every item of one source is at another visit. -/
theorem Grouped.le_length (hs : SortedSources left) (h : Grouped left groups) (hl : l ∈ left) :
    l.length ≤ groups.length := by
  have hsub : l.map (·.1) ⊆ groups.map (·.1) := fun k hk => (h.mem k).mpr ⟨l, hl, hk⟩
  simpa using (subperm_of_subset (hs l hl).nodup hsub).length_le

end

end Summa
