import Summa.Directories.Directory
import Summa.Lib.SortedMap
import Mathlib.Data.Prod.Lex
import Mathlib.Data.List.MinMax

/-!
# Slice-level caching directory (`directories/slice_cache.rs`, `directories/file_handle.rs`)

A directory that keeps byte ranges of the files of another directory, and their sizes. Ranges of a file that
overlap are merged; when the limit is reached, the least recently used ones are evicted through a lazily
maintained heap. Reads go to the slices first, directly or through a file handle.

The recency stamps are drawn from blocks that threads reserve: `stamps` is any sequence of them. Hit counts,
metrics and the serialized form of the cache are left out.
-/

namespace Summa

/-- The bytes of `data` written over those of `buffer` at `offset`. -/
def copyFromSlice (buffer : List Byte) (offset : Nat) (data : List Byte) : List Byte :=
  buffer.take offset ++ data ++ buffer.drop (offset + data.length)

/-- A cached slice of a file; its start is its key. -/
structure CachedSlice where
  rangeEnd : Nat
  data : List Byte
  /-- Recency stamp for LRU eviction. -/
  accessCount : Nat

/-- Per-file slice cache: non-overlapping slices keyed by start offset. -/
structure FileSliceCache where
  id : Nat
  slices : SortedMap Nat CachedSlice
  totalBytes : Nat

namespace FileSliceCache

def new (id : Nat) : FileSliceCache := ⟨id, .empty, 0⟩

/-- Try to read from cache; none if the range is not fully cached. The slice gets the stamp. -/
def tryRead (self : FileSliceCache) (start stop stamp : Nat) : Option (List Byte × FileSliceCache) :=
  match self.slices.floor start with
  | none => none
  | some (sliceStart, slice) =>
    if slice.rangeEnd < stop then none
    else
      let offset := start - sliceStart
      some ((slice.data.drop offset).take (stop - start),
        { self with slices := self.slices.insert sliceStart { slice with accessCount := stamp } })

/-- The slices that overlap a range: those that start before its end, up to the first that ends before it. -/
def overlapping (self : FileSliceCache) (start stop : Nat) : List (Nat × CachedSlice) :=
  (self.slices.below stop).takeWhile fun (_, slice) => start < slice.rangeEnd

/-- `merged_start`. -/
def mergedStart (start : Nat) (toRemove : List (Nat × CachedSlice)) : Nat :=
  toRemove.foldl (fun acc entry => min acc entry.1) start

/-- `merged_end`. -/
def mergedEnd (stop : Nat) (toRemove : List (Nat × CachedSlice)) : Nat :=
  toRemove.foldl (fun acc entry => max acc entry.2.rangeEnd) stop

/-- The copies of slices into a buffer whose first byte is byte `mergedStart` of the file. -/
def copySlices (mergedStart : Nat) (buffer : List Byte) (toRemove : List (Nat × CachedSlice)) : List Byte :=
  toRemove.foldl (fun buffer entry => copyFromSlice buffer (entry.1 - mergedStart) entry.2.data) buffer

/-- The slice that replaces overlapping slices: the existing slices, then the new data over any overlap. -/
def merge (toRemove : List (Nat × CachedSlice)) (start stop : Nat) (data : List Byte) : Nat × List Byte :=
  if toRemove.isEmpty then (start, data)
  else
    let mergedStart := mergedStart start toRemove
    let mergedEnd := mergedEnd stop toRemove
    let newData := copySlices mergedStart (List.replicate (mergedEnd - mergedStart) 0) toRemove
    (mergedStart, copyFromSlice newData (start - mergedStart) data)

/-- Insert a slice, merging with overlapping slices. Returns the net change in bytes and the start of the
merged slice. -/
def insert (self : FileSliceCache) (start stop : Nat) (data : List Byte) (accessCounter : Nat) :
    Int × Nat × FileSliceCache :=
  let toRemove := self.overlapping start stop
  let (finalStart, finalData) := merge toRemove start stop data
  let bytesRemoved : Nat := (toRemove.map fun (_, slice) => slice.data.length).sum
  let bytesAdded := finalData.length
  let slices := toRemove.foldl (fun slices (sliceStart, _) => slices.erase sliceStart) self.slices
  ((bytesAdded : Int) - bytesRemoved, finalStart,
    { self with
      slices := slices.insert finalStart ⟨finalStart + bytesAdded, finalData, accessCounter⟩
      totalBytes := self.totalBytes - bytesRemoved + bytesAdded })

end FileSliceCache

/-- Lazily maintained LRU heap entry. -/
structure LruEntry where
  stamp : Nat
  fileId : Nat
  start : Nat
  deriving DecidableEq, Repr

/-- Ordered by stamp first, so the heap minimum is the least recently used candidate. -/
def LruEntry.key (self : LruEntry) : Nat ×ₗ Nat ×ₗ Nat := toLex (self.stamp, toLex (self.fileId, self.start))

/-- `BinaryHeap::pop` over reversed entries. -/
def popLru (lru : List LruEntry) : Option (LruEntry × List LruEntry) :=
  (lru.argmin LruEntry.key).map fun entry => (entry, lru.erase entry)

theorem popLru_perm {lru rest : List LruEntry} {entry : LruEntry} (h : popLru lru = some (entry, rest)) :
    lru.Perm (entry :: rest) := by
  obtain ⟨e, he, heq⟩ := Option.map_eq_some_iff.mp h
  obtain ⟨rfl, rfl⟩ := Prod.mk.inj heq
  exact List.perm_cons_erase (List.argmin_mem he)

/-- Everything protected by the cache lock. -/
structure CacheState where
  files : AList fun _ : Path => FileSliceCache
  /-- File id to path, so heap entries survive renames. -/
  paths : AList fun _ : Nat => Path
  lru : List LruEntry
  currentBytes : Nat
  totalSlices : Nat
  nextFileId : Nat

namespace CacheState

def new : CacheState := ⟨∅, ∅, [], 0, 0, 0⟩

variable (self : CacheState)

/-- The cache of a file, which is created when there is none. -/
def fileMut (path : Path) : FileSliceCache × CacheState :=
  match self.files.lookup path with
  | some file => (file, self)
  | none =>
    let file := FileSliceCache.new self.nextFileId
    (file, { self with
      nextFileId := self.nextFileId + 1
      paths := self.paths.insert self.nextFileId path
      files := self.files.insert path file })

def removeFile (path : Path) : CacheState :=
  match self.files.lookup path with
  | none => self
  | some file =>
    -- heap entries of the removed file are discarded lazily on pop
    { self with
      files := self.files.erase path
      paths := self.paths.erase file.id
      currentBytes := self.currentBytes - file.totalBytes
      totalSlices := self.totalSlices - file.slices.entries.length }

def renameFile (src dst : Path) : CacheState :=
  -- any cache already present under the destination is superseded
  let self := self.removeFile dst
  match self.files.lookup src with
  | none => self
  | some file =>
    { self with
      paths := self.paths.insert file.id dst
      files := (self.files.erase src).insert dst file }

def rebuildLru : CacheState :=
  { self with
    lru := self.files.entries.flatMap fun entry =>
      entry.2.slices.entries.map fun (start, slice) => ⟨slice.accessCount, entry.2.id, start⟩ }

/-- Stale heap entries are discarded lazily; rebuild when they clearly dominate. -/
def compactLruIfBloated : CacheState :=
  if 2 * self.totalSlices + 1024 < self.lru.length then self.rebuildLru else self

/-- Insert one slice into a file cache and account for it globally. -/
def insertSlice (path : Path) (start stop : Nat) (data : List Byte) (stamp : Nat) : CacheState :=
  let (file, self) := self.fileMut path
  let slicesBefore := file.slices.entries.length
  let (netChange, start, file) := file.insert start stop data stamp
  compactLruIfBloated { self with
    files := self.files.insert path file
    totalSlices := self.totalSlices + file.slices.entries.length - slicesBefore
    currentBytes := (self.currentBytes + netChange).toNat
    lru := ⟨stamp, file.id, start⟩ :: self.lru }

/-- The file and the slice that a heap entry is about. -/
def slot (entry : LruEntry) : Option (Path × FileSliceCache × CachedSlice) := do
  let path ← self.paths.lookup entry.fileId
  let file ← self.files.lookup path
  let slice ← file.slices.find entry.start
  return (path, file, slice)

/-- An entry whose slice was touched since the entry was recorded. -/
def stale (entry : LruEntry) : Bool :=
  (self.slot entry).any fun (_, _, slice) => slice.accessCount ≠ entry.stamp

theorem countP_stale_lt {s : CacheState} {entry : LruEntry} {rest : List LruEntry} {path : Path}
    {file : FileSliceCache} {slice : CachedSlice} (hpop : popLru s.lru = some (entry, rest))
    (hslot : s.slot entry = some (path, file, slice)) (hstale : slice.accessCount ≠ entry.stamp) :
    ({ entry with stamp := slice.accessCount } :: rest).countP s.stale < s.lru.countP s.stale := by
  have hfresh : s.stale { entry with stamp := slice.accessCount } = false := by
    have : s.slot { entry with stamp := slice.accessCount } = s.slot entry := rfl
    simp [stale, this, hslot]
  have hentry : s.stale entry = true := by simp [stale, hslot, hstale]
  rw [(popLru_perm hpop).countP_eq, List.countP_cons_of_neg (by simp [hfresh]),
    List.countP_cons_of_pos hentry]
  exact Nat.lt_succ_self _

/-- The loop of `evict_for`. -/
def evictLoop (target : Nat) (self : CacheState) (freed : Nat) (rebuilt : Bool) : Nat × CacheState :=
  if target ≤ freed then (freed, self)
  else
    match _ : popLru self.lru with
    | none =>
      -- every live slice owns at least one heap entry; give up only when truly empty
      if self.totalSlices = 0 ∨ rebuilt = true then (freed, self)
      else evictLoop target self.rebuildLru freed true
    | some (entry, lru) =>
      match _ : self.slot entry with
      | none => evictLoop target { self with lru } freed rebuilt
      | some (path, file, slice) =>
        if slice.accessCount ≠ entry.stamp then
          -- touched since this entry was recorded: not the LRU anymore
          evictLoop target { self with lru := { entry with stamp := slice.accessCount } :: lru }
            freed rebuilt
        else
          let file := { file with
            slices := file.slices.erase entry.start
            totalBytes := file.totalBytes - slice.data.length }
          evictLoop target
            { self with lru, files := self.files.insert path file, totalSlices := self.totalSlices - 1 }
            (freed + slice.data.length) rebuilt
  termination_by ((if rebuilt then 0 else 1 : Nat), self.lru.length, self.lru.countP self.stale)
  decreasing_by
    · simp only [Prod.lex_def]
      left
      simp_all
    · simp only [Prod.lex_def]
      right
      have := (popLru_perm ‹popLru self.lru = some (entry, lru)›).length_eq
      simp_all
    · simp only [Prod.lex_def]
      right
      have hpop : popLru self.lru = some (entry, lru) := ‹_›
      refine ⟨trivial, .inr ⟨?_, countP_stale_lt hpop ‹self.slot entry = some (path, file, slice)› ‹_›⟩⟩
      simpa using (popLru_perm hpop).length_eq.symm
    · simp only [Prod.lex_def]
      right
      have := (popLru_perm ‹popLru self.lru = some (entry, lru)›).length_eq
      simp_all

/-- Evict least recently used slices until `needed` more bytes fit under `maxBytes`. -/
def evictFor (self : CacheState) (maxBytes needed : Nat) : CacheState :=
  let target := self.currentBytes + needed - maxBytes
  if target = 0 then self
  else
    let (freed, self) := evictLoop target self 0 false
    { self with currentBytes := self.currentBytes - freed }

end CacheState

/-! ## File handles -/

/-- What a lazy handle calls: a range read of the cached directory, or the inner directory's payload handle
behind the cache. -/
inductive RangeReadFn (η : Type) where
  | range (path : Path)
  | payload (path : Path) (handle : η)

/-- Unified file handle, a view of `len` bytes from `offset` on. -/
inductive FileHandle (η : Type) where
  /-- Data available inline. -/
  | inline (data : List Byte) (offset len : Nat)
  /-- Data fetched on demand. -/
  | lazy (readFn : RangeReadFn η) (offset len : Nat)

namespace FileHandle

variable {η : Type}

def fromBytes (data : List Byte) : FileHandle η := .inline data 0 data.length

def len : FileHandle η → Nat
  | inline _ _ len => len
  | lazy _ _ len => len

/-- Create a sub-range view; none where the source panics. -/
def slice (self : FileHandle η) (start stop : Nat) : Option (FileHandle η) :=
  if start ≤ stop ∧ stop ≤ self.len then
    match self with
    | inline data offset _ => some (inline data (offset + start) (stop - start))
    | lazy readFn offset _ => some (lazy readFn (offset + start) (stop - start))
  else none

def checkRange (self : FileHandle η) (start stop : Nat) : IoResult Unit :=
  if stop < start ∨ self.len < stop then
    .error ⟨.invalidInput, s!"range {start}..{stop} out of bounds (len: {self.len})"⟩
  else .ok ()

end FileHandle

/-! ## The directory -/

structure SliceCachingDirectory (σ : Type) where
  inner : σ
  state : CacheState
  maxBytes : Nat
  /-- Cached file sizes. -/
  fileSizes : AList fun _ : Path => Nat
  /-- The number of stamps that were drawn. -/
  clock : Nat

namespace SliceCachingDirectory

variable {σ η : Type} (inner : MapDirectory σ η) (stamps : Nat → Nat)

def new (s : σ) (maxBytes : Nat) : SliceCachingDirectory σ := ⟨s, .new, maxBytes, ∅, 0⟩

variable (self : SliceCachingDirectory σ)

variable (path : Path)

/-- `try_read` and `try_read_direct`. -/
def tryRead (start stop : Nat) : Option (List Byte × SliceCachingDirectory σ) := do
  let file ← self.state.files.lookup path
  let (data, file) ← file.tryRead start stop (stamps self.clock)
  return (data, { self with
    clock := self.clock + 1
    state := { self.state with files := self.state.files.insert path file } })

/-- Miss path: a single eviction pass, then a merge-insert. -/
def insert (start stop : Nat) (data : List Byte) : SliceCachingDirectory σ :=
  -- an individual entry larger than the entire cache can never fit
  if self.maxBytes < data.length then self
  else { self with
    clock := self.clock + 1
    state := (self.state.evictFor self.maxBytes data.length).insertSlice path start stop data
      (stamps self.clock) }

/-- Serve a range from the cache, or fetch it and cache the result. -/
def readThrough (start stop : Nat)
    (fetch : IoResult (List Byte)) : IoResult (List Byte) × SliceCachingDirectory σ :=
  match self.tryRead stamps path start stop with
  | some (data, self) => (.ok data, self)
  | none =>
    match fetch with
    | .error e => (.error e, self)
    | .ok data => (.ok data, self.insert stamps path start stop data)

def invalidate : SliceCachingDirectory σ :=
  { self with state := self.state.removeFile path, fileSizes := self.fileSizes.erase path }

def fileSize : IoResult Nat × SliceCachingDirectory σ :=
  match self.fileSizes.lookup path with
  | some size => (.ok size, self)
  | none =>
    match inner.fileSize self.inner path with
    | .error e => (.error e, self)
    | .ok size => (.ok size, { self with fileSizes := self.fileSizes.insert path size })

def openRead : IoResult (FileHandle η) × SliceCachingDirectory σ :=
  match self.fileSize inner path with
  | (.error e, self) => (.error e, self)
  | (.ok fileSize, self) =>
    let (data, self) := self.readThrough stamps path 0 fileSize do
      let handle ← inner.openRead self.inner path
      inner.readHandle self.inner handle 0 (inner.handleLen handle)
    (data.map .fromBytes, self)

def readRange (start stop : Nat) : IoResult (List Byte) × SliceCachingDirectory σ :=
  if stop < start then (.error ⟨.invalidInput, "reversed read range"⟩, self)
  else self.readThrough stamps path start stop (inner.readRange self.inner path start stop)

def openLazy : IoResult (FileHandle η) × SliceCachingDirectory σ :=
  let (fileSize, self) := self.fileSize inner path
  (fileSize.map fun fileSize => .lazy (.range path) 0 fileSize, self)

/-- `cache_payload_handle` over the inner directory's payload handle. -/
def openPayload : IoResult (FileHandle η) :=
  (inner.openPayload self.inner path).map fun handle => .lazy (.payload path handle) 0 (inner.handleLen handle)

/-- The closure that a lazy handle calls. -/
def callReadFn (start stop : Nat) :
    RangeReadFn η → IoResult (List Byte) × SliceCachingDirectory σ
  | .range path => self.readThrough stamps path start stop (inner.readRange self.inner path start stop)
  | .payload path handle =>
    self.readThrough stamps path start stop (inner.readHandle self.inner handle start stop)

/-- `FileHandle::read_bytes_range`. -/
def readBytesRange (handle : FileHandle η) (start stop : Nat) :
    IoResult (List Byte) × SliceCachingDirectory σ :=
  match handle.checkRange start stop with
  | .error e => (.error e, self)
  | .ok () =>
    if stop ≤ start then (.ok [], self)
    else
      match handle with
      | .inline data offset _ => (.ok ((data.drop (offset + start)).take (stop - start)), self)
      | .lazy readFn offset _ =>
        match self.callReadFn inner stamps (offset + start) (offset + stop) readFn with
        | (.error e, self) => (.error e, self)
        | (.ok bytes, self) =>
          if bytes.length ≠ stop - start then
            (.error ⟨.unexpectedEof, "range reader returned an incorrect byte count"⟩, self)
          else (.ok bytes, self)

def write (data : List Byte) : SliceCachingDirectory σ :=
  let self := self.invalidate path
  { self with inner := inner.write self.inner path data }

def delete : SliceCachingDirectory σ :=
  let self := self.invalidate path
  { self with inner := inner.delete self.inner path }

def rename (src dst : Path) : SliceCachingDirectory σ where
  inner := inner.rename self.inner src dst
  -- move cache entries from old path to new path
  state := self.state.renameFile src dst
  maxBytes := self.maxBytes
  -- move file size cache
  fileSizes :=
    match self.fileSizes.lookup src with
    | some size => (self.fileSizes.erase src).insert dst size
    | none => self.fileSizes
  clock := self.clock

/-- A streaming writer of any kind, from its creation to `finish`. -/
def streamingWrite (buffers : List (List Byte)) : SliceCachingDirectory σ :=
  let self := self.invalidate path
  { self with inner := inner.streamingWrite self.inner path buffers }

end SliceCachingDirectory

end Summa
