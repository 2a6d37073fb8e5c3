import Summa.Lib.Fold
import Summa.Directories.SliceCache
import Mathlib.Data.List.TakeWhile

/-!
# What the slice cache serves

A cached slice agrees with the file (`Cached`) when it is what a read of its range returns. Insertion,
merging of overlapping slices and eviction keep that.

* `FileSliceCache.tryRead_spec`, `FileSliceCache.insert_ok`: one file.
* `CacheState.Ok`: all files; kept by `insertSlice`, `evictFor`, `removeFile` and `renameFile`.
* `Coherent`: the slices and the sizes of a directory agree with the inner directory;
  `readThrough_spec`, `fileSize_spec`, `openRead_spec`: reads of a coherent directory.
-/

namespace Summa

open List

/-! ## Ranges -/

variable {start stop : Nat} {d x : List Byte}

theorem sliceRange_eq_some :
    sliceRange start stop d = some x ↔
      start ≤ stop ∧ stop ≤ d.length ∧ (d.drop start).take (stop - start) = x := by
  rw [sliceRange, Option.ite_none_right_eq_some, Option.some.injEq, and_assoc]

theorem length_of_sliceRange (h : sliceRange start stop d = some x) : x.length = stop - start := by
  obtain ⟨hle, hfit, rfl⟩ := sliceRange_eq_some.mp h
  rw [length_take, length_drop]
  omega

/-- A part of a range. -/
theorem sliceRange_sub {a b : Nat} (h : sliceRange a b d = some x)
    (ha : a ≤ start) (hle : start ≤ stop) (hb : stop ≤ b) :
    sliceRange start stop d = some ((x.drop (start - a)).take (stop - start)) := by
  obtain ⟨hab, hfit, rfl⟩ := sliceRange_eq_some.mp h
  rw [sliceRange_eq_some]
  refine ⟨hle, hb.trans hfit, ?_⟩
  rw [drop_take, drop_drop, take_take, Nat.add_sub_cancel' ha, min_eq_left (by omega)]

/-- A range byte by byte. -/
theorem sliceRange_iff (hle : start ≤ stop) :
    sliceRange start stop d = some x ↔
      stop ≤ d.length ∧ x.length = stop - start ∧ ∀ i < stop - start, x[i]? = d[start + i]? := by
  constructor
  · intro h
    obtain ⟨-, hfit, hx⟩ := sliceRange_eq_some.mp h
    refine ⟨hfit, length_of_sliceRange h, fun i hi => ?_⟩
    rw [← hx, getElem?_take_of_lt hi, getElem?_drop]
  · rintro ⟨hfit, hlen, hget⟩
    refine sliceRange_eq_some.mpr ⟨hle, hfit, ext_getElem? fun i => ?_⟩
    by_cases hi : i < stop - start
    · rw [getElem?_take_of_lt hi, getElem?_drop, hget i hi]
    · rw [getElem?_eq_none (by rw [length_take]; omega), getElem?_eq_none (by omega)]

theorem length_copyFromSlice {buffer data : List Byte} {offset : Nat}
    (h : offset + data.length ≤ buffer.length) : (copyFromSlice buffer offset data).length = buffer.length := by
  simp only [copyFromSlice, length_append, length_take, length_drop]
  omega

theorem getElem?_copyFromSlice {buffer data : List Byte} {offset : Nat}
    (h : offset + data.length ≤ buffer.length) (i : Nat) :
    (copyFromSlice buffer offset data)[i]? =
      if offset ≤ i ∧ i < offset + data.length then data[i - offset]? else buffer[i]? := by
  have hlen : (buffer.take offset).length = offset := by
    rw [length_take]
    omega
  rw [copyFromSlice, append_assoc]
  by_cases hlow : i < offset
  · rw [getElem?_append_left (by omega), getElem?_take_of_lt hlow, if_neg (by omega)]
  · rw [getElem?_append_right (by omega), hlen]
    by_cases hhigh : i < offset + data.length
    · rw [getElem?_append_left (by omega), if_pos (by omega)]
    · rw [getElem?_append_right (by omega), if_neg (by omega), getElem?_drop]
      congr 1
      omega

/-! ## One file -/

/-- A slice is what a read of its range returns. -/
def Cached (content : Option (List Byte)) (entry : Nat × CachedSlice) : Prop :=
  content.bind (sliceRange entry.1 entry.2.rangeEnd) = some entry.2.data

theorem Cached.exists {content : Option (List Byte)} {entry : Nat × CachedSlice} (h : Cached content entry) :
    ∃ d, content = some d ∧ sliceRange entry.1 entry.2.rangeEnd d = some entry.2.data :=
  Option.bind_eq_some_iff.mp h

namespace FileSliceCache

variable {content : Option (List Byte)} {file : FileSliceCache} {start stop : Nat} {data : List Byte}

/-- All slices of a file agree with its content. -/
def Ok (content : Option (List Byte)) (file : FileSliceCache) : Prop :=
  ∀ entry ∈ file.slices.entries, Cached content entry

theorem tryRead_spec (hok : file.Ok content) (hle : start ≤ stop) {stamp : Nat} {file' : FileSliceCache}
    (h : file.tryRead start stop stamp = some (data, file')) :
    content.bind (sliceRange start stop) = some data ∧ file'.Ok content := by
  unfold tryRead at h
  split at h
  case h_1 => cases h
  case h_2 sliceStart slice hfloor =>
    obtain ⟨hmem, hstart⟩ := SortedMap.mem_of_floor hfloor
    obtain ⟨hend, h⟩ := Option.ite_none_left_eq_some.mp h
    cases h
    obtain ⟨d, rfl, hslice⟩ := (hok _ hmem).exists
    refine ⟨sliceRange_sub hslice hstart hle (Nat.le_of_not_lt hend), fun entry hentry => ?_⟩
    rcases SortedMap.mem_insert.mp hentry with rfl | ⟨hentry, -⟩
    · have hcached := hok _ hmem
      exact hcached
    · exact hok entry hentry

theorem mergedStart_spec (start : Nat) (l : List (Nat × CachedSlice)) :
    mergedStart start l ≤ start ∧ (∀ entry ∈ l, mergedStart start l ≤ entry.1) ∧
      (mergedStart start l = start ∨ ∃ entry ∈ l, entry.1 = mergedStart start l) := by
  have hfold : mergedStart start l = (l.map (·.1)).foldl min start := foldl_map.symm
  rw [hfold]
  exact ⟨(le_foldl_min_iff.mp le_rfl).1, fun e he => foldl_min_le (mem_map_of_mem he),
    (foldl_choice min_choice _ _).imp_right mem_map.mp⟩

theorem mergedEnd_spec (stop : Nat) (l : List (Nat × CachedSlice)) :
    stop ≤ mergedEnd stop l ∧ (∀ entry ∈ l, entry.2.rangeEnd ≤ mergedEnd stop l) ∧
      (mergedEnd stop l = stop ∨ ∃ entry ∈ l, entry.2.rangeEnd = mergedEnd stop l) := by
  have hfold : mergedEnd stop l = (l.map (·.2.rangeEnd)).foldl max stop := foldl_map.symm
  rw [hfold]
  exact ⟨(foldl_max_le_iff.mp le_rfl).1, fun e he => le_foldl_max (mem_map_of_mem he),
    (foldl_choice max_choice _ _).imp_right mem_map.mp⟩

variable {l : List (Nat × CachedSlice)}

/-- After copies of slices of `d` into a buffer for `a..b`, the bytes that a slice covers are those of `d`. -/
theorem copySlices_spec {d : List Byte} {a b : Nat}
    (hl : ∀ e ∈ l, Cached (some d) e ∧ a ≤ e.1 ∧ e.2.rangeEnd ≤ b) {buffer : List Byte}
    (hlen : buffer.length = b - a) :
    (copySlices a buffer l).length = b - a ∧
      ∀ i, (buffer[i]? = d[a + i]? ∨ ∃ e ∈ l, e.1 ≤ a + i ∧ a + i < e.2.rangeEnd) →
        (copySlices a buffer l)[i]? = d[a + i]? := by
  induction l generalizing buffer with
  | nil =>
    refine ⟨hlen, fun i hi => ?_⟩
    rcases hi with hi | ⟨e, he, -⟩
    · exact hi
    · cases he
  | cons e l ih =>
    obtain ⟨⟨hcached, ha, hb⟩, hrest⟩ := forall_mem_cons.mp hl
    have hslice : sliceRange e.1 e.2.rangeEnd d = some e.2.data := hcached
    obtain ⟨hle, -, -⟩ := sliceRange_eq_some.mp hslice
    obtain ⟨-, hdata, hget⟩ := (sliceRange_iff hle).mp hslice
    have hfit : e.1 - a + e.2.data.length ≤ buffer.length := by omega
    obtain ⟨hr, hbytes⟩ := ih hrest ((length_copyFromSlice hfit).trans hlen)
    refine ⟨hr, fun i hi => hbytes i ?_⟩
    -- the byte comes from this slice, from the buffer before it or from a later slice
    rw [getElem?_copyFromSlice hfit]
    by_cases hin : e.1 - a ≤ i ∧ i < e.1 - a + e.2.data.length
    · left
      rw [if_pos hin, hget _ (by omega)]
      congr 1
      omega
    · rw [if_neg hin]
      rcases hi with hi | ⟨e', he', hcover⟩
      · exact .inl hi
      · rcases mem_cons.mp he' with rfl | he'
        · omega
        · exact .inr ⟨e', he', hcover⟩

/-- A range and the slices that overlap it have no gap between them. -/
theorem merge_spec {d : List Byte} (hdata : sliceRange start stop d = some data)
    (hl : ∀ e ∈ l, Cached (some d) e ∧ e.1 < stop ∧ start < e.2.rangeEnd) :
    ∃ b, sliceRange (merge l start stop data).1 b d = some (merge l start stop data).2 := by
  obtain ⟨hle, hfit, -⟩ := sliceRange_eq_some.mp hdata
  obtain ⟨-, hlen, hget⟩ := (sliceRange_iff hle).mp hdata
  unfold merge
  split
  case isTrue => exact ⟨stop, hdata⟩
  case isFalse =>
    obtain ⟨ha, hastart, hamin⟩ := mergedStart_spec start l
    obtain ⟨hb, hbend, hbmax⟩ := mergedEnd_spec stop l
    dsimp only
    generalize mergedStart start l = a at *
    generalize mergedEnd stop l = b at *
    refine ⟨b, ?_⟩
    obtain ⟨hcopied, hbytes⟩ := copySlices_spec (fun e he => ⟨(hl e he).1, hastart e he, hbend e he⟩)
      (show (replicate (b - a) (0 : Byte)).length = b - a from length_replicate)
    have hoff : start - a + data.length ≤ b - a := by
      clear hamin hbmax
      omega
    have hbd : b ≤ d.length := by
      rcases hbmax with heq | ⟨e, he, heq⟩
      · omega
      · have hslice : sliceRange e.1 e.2.rangeEnd d = some e.2.data := (hl e he).1
        have := (sliceRange_eq_some.mp hslice).2.1
        omega
    rw [sliceRange_iff (by omega)]
    refine ⟨hbd, by rw [length_copyFromSlice (hcopied.symm ▸ hoff), hcopied], fun i hi => ?_⟩
    rw [getElem?_copyFromSlice (hcopied.symm ▸ hoff)]
    by_cases hin : start - a ≤ i ∧ i < start - a + data.length
    · rw [if_pos hin, hget _ (by omega)]
      congr 1
      omega
    · rw [if_neg hin]
      refine hbytes i (.inr ?_)
      -- before the range the first slice covers the byte, behind it the one that ends last
      by_cases hlow : a + i < start
      · rcases hamin with heq | ⟨e, he, heq⟩
        · omega
        · exact ⟨e, he, by omega, by have := (hl e he).2.2; omega⟩
      · rcases hbmax with heq | ⟨e, he, heq⟩
        · omega
        · exact ⟨e, he, by have := (hl e he).2.1; omega, by omega⟩

theorem mem_foldl_erase {slices : SortedMap Nat CachedSlice} {e : Nat × CachedSlice}
    (h : e ∈ (l.foldl (fun slices (sliceStart, _) => slices.erase sliceStart) slices).entries) :
    e ∈ slices.entries := by
  induction l generalizing slices with
  | nil => exact h
  | cons x l ih => exact (SortedMap.mem_erase.mp (ih h)).1

theorem insert_ok (hok : file.Ok content) (hdata : content.bind (sliceRange start stop) = some data)
    (stamp : Nat) : (file.insert start stop data stamp).2.2.Ok content := by
  obtain ⟨d, rfl, hslice⟩ := Option.bind_eq_some_iff.mp hdata
  have hl : ∀ e ∈ file.overlapping start stop, Cached (some d) e ∧ e.1 < stop ∧ start < e.2.rangeEnd := by
    intro e he
    obtain ⟨hmem, hlt⟩ := SortedMap.mem_below.mp ((takeWhile_sublist _).subset he)
    exact ⟨hok e hmem, hlt, by simpa using mem_takeWhile_imp he⟩
  intro entry hentry
  rcases SortedMap.mem_insert.mp hentry with heq | ⟨hentry, -⟩
  · obtain ⟨b, hmerged⟩ := merge_spec hslice hl
    have hend : (merge (file.overlapping start stop) start stop data).1 +
        (merge (file.overlapping start stop) start stop data).2.length = b := by
      rw [length_of_sliceRange hmerged, Nat.add_sub_cancel' (sliceRange_eq_some.mp hmerged).1]
    rw [← hend] at hmerged
    rw [heq]
    exact hmerged
  · exact hok entry (mem_foldl_erase hentry)

end FileSliceCache

/-! ## All files -/

namespace CacheState

variable {files files' : Files} {s : CacheState}

/-- All cached slices agree with the files. -/
def Ok (files : Files) (s : CacheState) : Prop :=
  ∀ path, ∀ file ∈ s.files.lookup path, file.Ok (files path)

theorem Ok.new (files : Files) : (new).Ok files := by
  intro path file hfile
  simp [CacheState.new] at hfile

/-- A file's cache is replaced. -/
theorem Ok.insert (h : s.Ok files) {path : Path} {file : FileSliceCache} (hfile : file.Ok (files path))
    {s' : CacheState} (hs' : s'.files = s.files.insert path file) : s'.Ok files := by
  intro p f hf
  rw [hs'] at hf
  by_cases hp : p = path
  · subst hp
    rw [AList.lookup_insert, Option.mem_some_iff] at hf
    exact hf ▸ hfile
  · rw [AList.lookup_insert_ne hp] at hf
    exact h p f hf

theorem lookup_removeFile (s : CacheState) (path p : Path) :
    (s.removeFile path).files.lookup p = if p = path then none else s.files.lookup p := by
  unfold removeFile
  by_cases hp : p = path
  · subst hp
    cases h : s.files.lookup p with
    | none => simp [h]
    | some file => simp
  · cases s.files.lookup path with
    | none => rw [if_neg hp]
    | some file => rw [if_neg hp, AList.lookup_erase_ne hp]

/-- A file without cached slices may change. -/
theorem Ok.removeFile (h : s.Ok files) {path : Path} (hfiles : ∀ p, p ≠ path → files' p = files p) :
    (s.removeFile path).Ok files' := by
  intro p file hfile
  rw [lookup_removeFile] at hfile
  split at hfile
  case isTrue => cases hfile
  case isFalse hp => exact hfiles p hp ▸ h p file hfile

theorem Ok.renameFile (h : s.Ok files) (src dst : Path) : (s.renameFile src dst).Ok (files.move src dst) := by
  -- slices exist for existing files only
  have hempty : files src = none → ∀ file ∈ s.files.lookup src, file.slices.entries = [] := by
    intro hnone file hfile
    rw [eq_nil_iff_forall_not_mem]
    intro entry hentry
    have := h src file hfile entry hentry
    simp [Cached, hnone] at this
  intro p file hfile
  unfold CacheState.renameFile at hfile
  cases hsrc : (s.removeFile dst).files.lookup src with
  | none =>
    simp only [hsrc] at hfile
    rw [lookup_removeFile] at hfile
    obtain ⟨hp, hfile⟩ := Option.ite_none_left_eq_some.mp hfile
    by_cases hpsrc : p = src
    · subst hpsrc
      rw [lookup_removeFile, if_neg hp] at hsrc
      simp [hsrc] at hfile
    · exact Files.move_of_ne hpsrc hp ▸ h p file hfile
  | some moved =>
    simp only [hsrc] at hfile
    rw [lookup_removeFile] at hsrc
    obtain ⟨-, hmoved⟩ := Option.ite_none_left_eq_some.mp hsrc
    by_cases hp : p = dst
    · subst hp
      rw [AList.lookup_insert, Option.mem_some_iff] at hfile
      subst hfile
      cases hdata : files src with
      | none =>
        intro entry hentry
        rw [hempty hdata moved hmoved] at hentry
        cases hentry
      | some data =>
        exact (Files.move_dst hdata p).trans hdata.symm ▸ h src moved hmoved
    · rw [AList.lookup_insert_ne hp] at hfile
      by_cases hpsrc : p = src
      · subst hpsrc
        simp at hfile
      · rw [AList.lookup_erase_ne hpsrc, lookup_removeFile, if_neg hp] at hfile
        exact Files.move_of_ne hpsrc hp ▸ h p file hfile

theorem Ok.fileMut (h : s.Ok files) (path : Path) :
    (s.fileMut path).1.Ok (files path) ∧ (s.fileMut path).2.Ok files := by
  unfold CacheState.fileMut
  cases hfile : s.files.lookup path with
  | some file => exact ⟨h path file hfile, h⟩
  | none =>
    have hnew : (FileSliceCache.new s.nextFileId).Ok (files path) := fun entry hentry => by cases hentry
    exact ⟨hnew, h.insert hnew rfl⟩

theorem files_compactLruIfBloated (s : CacheState) : s.compactLruIfBloated.files = s.files := by
  unfold compactLruIfBloated
  split <;> rfl

theorem Ok.insertSlice (h : s.Ok files) {path : Path} {start stop : Nat} {data : List Byte}
    (hdata : (files path).bind (sliceRange start stop) = some data) (stamp : Nat) :
    (s.insertSlice path start stop data stamp).Ok files := by
  obtain ⟨hfile, hs⟩ := h.fileMut path
  exact hs.insert (FileSliceCache.insert_ok hfile hdata stamp) (files_compactLruIfBloated _)

theorem slot_eq_some {entry : LruEntry} {path : Path} {file : FileSliceCache} {slice : CachedSlice}
    (h : s.slot entry = some (path, file, slice)) : s.files.lookup path = some file := by
  obtain ⟨p, -, h⟩ := Option.bind_eq_some_iff.mp h
  obtain ⟨f, hf, h⟩ := Option.bind_eq_some_iff.mp h
  obtain ⟨sl, -, h⟩ := Option.bind_eq_some_iff.mp h
  cases h
  exact hf

/-- Eviction only drops slices. -/
theorem Ok.evictLoop {target freed : Nat} {rebuilt : Bool} (h : s.Ok files) :
    (evictLoop target s freed rebuilt).2.Ok files := by
  fun_induction CacheState.evictLoop target s freed rebuilt with
  | case1 | case2 => exact h
  | case3 _ _ _ _ _ _ ih => exact ih h
  | case4 _ _ _ _ _ _ _ _ ih => exact ih h
  | case5 _ _ _ _ _ _ _ _ _ _ _ _ ih => exact ih h
  | case6 s freed rebuilt hlt entry lru hpop path file slice hslot hstamp file' ih =>
    have hfile' : file'.Ok (files path) := fun e he =>
      h path file (slot_eq_some hslot) e (SortedMap.mem_erase.mp he).1
    exact ih (h.insert hfile' rfl)

theorem Ok.evictFor (h : s.Ok files) (maxBytes needed : Nat) : (s.evictFor maxBytes needed).Ok files := by
  unfold CacheState.evictFor
  dsimp only
  split
  case isTrue => exact h
  case isFalse => exact h.evictLoop

end CacheState

/-! ## The directory -/

namespace SliceCachingDirectory

variable {σ η α : Type} (inner : MapDirectory σ η) (stamps : Nat → Nat) {dir : SliceCachingDirectory σ}
  {path : Path} {start stop : Nat}

/-- The cached slices and sizes agree with the inner directory. -/
structure Coherent (dir : SliceCachingDirectory σ) : Prop where
  slices : dir.state.Ok (inner.files dir.inner)
  sizes : ∀ path, ∀ size ∈ dir.fileSizes.lookup path,
    (inner.files dir.inner path).map length = some size

/-- A read answers as expected and leaves a coherent directory over the same inner one. -/
structure Served (dir : SliceCachingDirectory σ) (r : IoResult α × SliceCachingDirectory σ)
    (expected : Option α) : Prop where
  answer : r.1.toOption = expected
  coherent : r.2.Coherent inner
  inner_eq : r.2.inner = dir.inner

variable {inner} in
theorem Served.map {β : Type} {r : IoResult α × SliceCachingDirectory σ} {expected : Option α}
    (h : Served inner dir r expected) (f : α → β) : Served inner dir (r.1.map f, r.2) (expected.map f) := by
  refine ⟨?_, h.coherent, h.inner_eq⟩
  rw [← h.answer]
  cases r.1 <;> rfl

theorem Coherent.new (s : σ) (maxBytes : Nat) : (new s maxBytes).Coherent inner :=
  ⟨.new _, fun path size h => by simp [SliceCachingDirectory.new] at h⟩

variable {inner}

section

variable (h : dir.Coherent inner)

include h

theorem tryRead_spec (hle : start ≤ stop) {data : List Byte}
    {dir' : SliceCachingDirectory σ} (hread : dir.tryRead stamps path start stop = some (data, dir')) :
    (inner.files dir.inner path).bind (sliceRange start stop) = some data ∧ dir'.Coherent inner ∧
      dir'.inner = dir.inner := by
  obtain ⟨file, hfile, hread⟩ := Option.bind_eq_some_iff.mp hread
  obtain ⟨⟨bytes, file'⟩, hbytes, hread⟩ := Option.bind_eq_some_iff.mp hread
  cases hread
  obtain ⟨hdata, hfile'⟩ := FileSliceCache.tryRead_spec (h.slices path file hfile) hle hbytes
  exact ⟨hdata, ⟨h.slices.insert hfile' rfl, h.sizes⟩, rfl⟩

theorem Coherent.insert {data : List Byte}
    (hdata : (inner.files dir.inner path).bind (sliceRange start stop) = some data) :
    (dir.insert stamps path start stop data).Coherent inner ∧
      (dir.insert stamps path start stop data).inner = dir.inner := by
  unfold SliceCachingDirectory.insert
  split
  case isTrue => exact ⟨h, rfl⟩
  case isFalse =>
    exact ⟨⟨(h.slices.evictFor dir.maxBytes data.length).insertSlice hdata _, h.sizes⟩, rfl⟩

/-- A range that is fetched from the inner directory when it is not cached. -/
theorem readThrough_spec (hle : start ≤ stop) {fetch : IoResult (List Byte)}
    (hfetch : fetch.toOption = (inner.files dir.inner path).bind (sliceRange start stop)) :
    Served inner dir (dir.readThrough stamps path start stop fetch)
      ((inner.files dir.inner path).bind (sliceRange start stop)) := by
  unfold readThrough
  cases hread : dir.tryRead stamps path start stop with
  | some r =>
    obtain ⟨hdata, hcoherent, hinner⟩ := tryRead_spec stamps h hle hread
    exact ⟨hdata.symm, hcoherent, hinner⟩
  | none =>
    cases fetch with
    | error e => exact ⟨hfetch, h, rfl⟩
    | ok data =>
      obtain ⟨hcoherent, hinner⟩ := h.insert stamps hfetch.symm
      exact ⟨hfetch, hcoherent, hinner⟩

theorem readRange_spec (path : Path) (start stop : Nat) :
    Served inner dir (dir.readRange inner stamps path start stop)
      ((inner.files dir.inner path).bind (sliceRange start stop)) := by
  unfold readRange
  split
  case isTrue hrev =>
    refine ⟨?_, h, rfl⟩
    cases inner.files dir.inner path with
    | none => rfl
    | some d => exact (if_neg (by omega)).symm
  case isFalse hle => exact readThrough_spec stamps h (Nat.le_of_not_lt hle) (inner.readRange_eq ..)

theorem fileSize_spec (path : Path) :
    Served inner dir (dir.fileSize inner path) ((inner.files dir.inner path).map length) := by
  unfold fileSize
  cases hsize : dir.fileSizes.lookup path with
  | some size => exact ⟨(h.sizes path size hsize).symm, h, rfl⟩
  | none =>
    have heq := inner.fileSize_eq dir.inner path
    cases hinner : inner.fileSize dir.inner path with
    | error e => exact ⟨by rw [← heq, hinner], h, rfl⟩
    | ok size =>
      rw [hinner] at heq
      refine ⟨heq, ⟨h.slices, fun p n hn => ?_⟩, rfl⟩
      by_cases hp : p = path
      · subst hp
        rw [AList.lookup_insert, Option.mem_some_iff] at hn
        exact hn ▸ heq.symm
      · rw [AList.lookup_insert_ne hp] at hn
        exact h.sizes p n hn

end

/-- All of a file, as `open_read` fetches it. -/
theorem openRead_fetch {s : σ} {d : List Byte} (hd : inner.files s path = some d) :
    (do let handle ← inner.openRead s path
        inner.readHandle s handle 0 (inner.handleLen handle)).toOption =
      (inner.files s path).bind (sliceRange 0 d.length) := by
  have hopen := inner.openRead_eq s path
  cases hhandle : inner.openRead s path with
  | error e => simp [hhandle, hd, Except.map, Except.toOption] at hopen
  | ok handle =>
    rw [hhandle, hd] at hopen
    have hlen : inner.handleLen handle = d.length := Option.some.inj hopen
    have hread := inner.readHandle_eq s s path handle 0 d.length (.inl hhandle) rfl
    rw [← hlen] at hread ⊢
    exact hread

theorem openRead_spec (h : dir.Coherent inner) (path : Path) :
    Served inner dir (dir.openRead inner stamps path)
      ((inner.files dir.inner path).map FileHandle.fromBytes) := by
  obtain ⟨hsize, hcoherent, hinner⟩ := fileSize_spec h path
  unfold openRead
  generalize dir.fileSize inner path = r at *
  obtain ⟨size, dir'⟩ := r
  cases size with
  | error e =>
    have hnone : inner.files dir.inner path = none := Option.map_eq_none_iff.mp hsize.symm
    exact ⟨by rw [hnone]; rfl, hcoherent, hinner⟩
  | ok size =>
    obtain ⟨d, hd, rfl⟩ := Option.map_eq_some_iff.mp hsize.symm
    rw [← hinner] at hd ⊢
    have hall : (inner.files dir'.inner path).bind (sliceRange 0 d.length) = some d := by
      simp [hd, sliceRange]
    have hserved := readThrough_spec stamps hcoherent (Nat.zero_le d.length) (openRead_fetch hd)
    rw [hall, ← hd] at hserved
    exact ⟨(hserved.map FileHandle.fromBytes).answer, hserved.coherent, hserved.inner_eq.trans hinner⟩

theorem openLazy_spec (h : dir.Coherent inner) (path : Path) :
    Served inner dir (dir.openLazy inner path)
      ((inner.files dir.inner path).map fun d => .lazy (.range path) 0 d.length) := by
  have hserved := (fileSize_spec h path).map fun size => (.lazy (.range path) 0 size : FileHandle η)
  rw [Option.map_map] at hserved
  exact hserved

end SliceCachingDirectory

end Summa
