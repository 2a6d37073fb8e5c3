import Summa.Directories.SliceCacheSpec

/-!
# Runs of a slice-caching directory

A session is a sequence of operations on a directory and on the handles that were opened. `MapSession` says
what a session over a map from paths to bytes answers; `CacheSession` is the session over a
`SliceCachingDirectory`.

* `Sim`: the relation between both; `step_sim`: an operation answers the same and keeps it.
* `coherent_rename`: a rename keeps the sizes coherent exactly when the destination has no other size in
  the cache, or the size of the source takes its place.
* `sliceCache_run`: the answers of a run.
-/

namespace Summa

open FileHandle

/-- An operation of a session; handles are numbered in the order in which they were opened. -/
inductive DirOp where
  | write (path : Path) (data : List Byte)
  | delete (path : Path)
  | rename (src dst : Path)
  | streamingRewrite (path : Path) (buffers : List (List Byte))
  | fileSize (path : Path)
  | openRead (path : Path)
  | openLazy (path : Path)
  | openPayload (path : Path)
  | readRange (path : Path) (start stop : Nat)
  | sliceHandle (handle start stop : Nat)
  | readHandle (handle start stop : Nat)
  deriving DecidableEq, Repr

/-- What an operation returns; an answer without a value is an error. -/
inductive DirAnswer where
  | done
  | size (value : Option Nat)
  | opened (len : Option Nat)
  | bytes (value : Option (List Byte))
  deriving DecidableEq, Repr

/-- The paths whose files an operation changes. -/
def DirOp.changes : DirOp → List Path
  | .write path _ => [path]
  | .delete path => [path]
  | .rename src dst => [src, dst]
  | .streamingRewrite path _ => [path]
  | _ => []

/-! ## The map -/

/-- A view of `len` bytes of a file, from `offset` on. -/
structure MapHandle where
  path : Path
  offset : Nat
  len : Nat
  /-- The file has not changed since the handle was opened. -/
  fresh : Bool
  deriving DecidableEq, Repr

structure MapSession where
  files : Files
  handles : List MapHandle

namespace MapSession

/-- The files after an operation. -/
def filesAfter (files : Files) : DirOp → Files
  | .write path data => Function.update files path (some data)
  | .delete path => Function.update files path none
  | .rename src dst => files.move src dst
  | .streamingRewrite path buffers => Function.update files path (some buffers.flatten)
  | _ => files

def openHandle (files : Files) (path : Path) : Option MapHandle :=
  (files path).map fun data => ⟨path, 0, data.length, true⟩

variable (self : MapSession)

/-- The handle that an operation opens. -/
def opens : DirOp → Option MapHandle
  | .openRead path => openHandle self.files path
  | .openLazy path => openHandle self.files path
  | .openPayload path => openHandle self.files path
  | .sliceHandle handle start stop =>
    self.handles[handle]?.bind fun h =>
      if start ≤ stop ∧ stop ≤ h.len then some { h with offset := h.offset + start, len := stop - start }
      else none
  | _ => none

/-- The bytes `start..stop` of a handle. -/
def readBytes (files : Files) (h : MapHandle) (start stop : Nat) : Option (List Byte) :=
  if start ≤ stop ∧ stop ≤ h.len then
    (files h.path).bind (sliceRange (h.offset + start) (h.offset + stop))
  else none

def answer : DirOp → DirAnswer
  | .fileSize path => .size ((self.files path).map List.length)
  | .readRange path start stop => .bytes ((self.files path).bind (sliceRange start stop))
  | .openRead path => .opened ((openHandle self.files path).map (·.len))
  | .openLazy path => .opened ((openHandle self.files path).map (·.len))
  | .openPayload path => .opened ((openHandle self.files path).map (·.len))
  | .sliceHandle handle start stop => .opened ((self.opens (.sliceHandle handle start stop)).map (·.len))
  | .readHandle handle start stop =>
    .bytes (self.handles[handle]?.bind fun h => readBytes self.files h start stop)
  | _ => .done

/-- The session after an operation: handles of changed files are no longer fresh. -/
def next (op : DirOp) : MapSession where
  files := filesAfter self.files op
  handles := (self.handles.map fun h => { h with fresh := h.fresh && !(op.changes.contains h.path) }) ++
    (self.opens op).toList

/-- Reads go through handles that were opened after the last change of their file. -/
def Allowed : DirOp → Prop
  | .readHandle handle _ _ => ∀ h ∈ self.handles[handle]?, h.fresh = true
  | _ => True

def AllowedRun (self : MapSession) : List DirOp → Prop
  | [] => True
  | op :: ops => self.Allowed op ∧ (self.next op).AllowedRun ops

instance (self : MapSession) : (op : DirOp) → Decidable (self.Allowed op)
  | .readHandle handle _ _ => inferInstanceAs (Decidable (∀ h ∈ self.handles[handle]?, h.fresh = true))
  | .write .. | .delete .. | .rename .. | .streamingRewrite .. | .fileSize .. | .openRead .. | .openLazy ..
  | .openPayload .. | .readRange .. | .sliceHandle .. => .isTrue trivial

instance decidableAllowedRun (self : MapSession) : (ops : List DirOp) → Decidable (self.AllowedRun ops)
  | [] => .isTrue trivial
  | op :: ops =>
    have := decidableAllowedRun (self.next op) ops
    inferInstanceAs (Decidable (self.Allowed op ∧ (self.next op).AllowedRun ops))

def answers (self : MapSession) : List DirOp → List DirAnswer
  | [] => []
  | op :: ops => self.answer op :: (self.next op).answers ops

def run (ops : List DirOp) : MapSession := ops.foldl next self

end MapSession

/-! ## The cached directory -/

structure CacheSession (σ η : Type) where
  dir : SliceCachingDirectory σ
  handles : List (FileHandle η)

namespace CacheSession

open SliceCachingDirectory

variable {σ η : Type} (inner : MapDirectory σ η) (stamps : Nat → Nat)

variable (self : CacheSession σ η)

/-- An open that returned, with the handle added to the session. -/
def addHandle (r : IoResult (FileHandle η) × SliceCachingDirectory σ) : DirAnswer × CacheSession σ η :=
  (.opened (r.1.toOption.map len), ⟨r.2, self.handles ++ r.1.toOption.toList⟩)

def step : DirOp → DirAnswer × CacheSession σ η
  | .write path data => (.done, { self with dir := self.dir.write inner path data })
  | .delete path => (.done, { self with dir := self.dir.delete inner path })
  | .rename src dst => (.done, { self with dir := self.dir.rename inner src dst })
  | .streamingRewrite path buffers =>
    (.done, { self with dir := self.dir.streamingWrite inner path buffers })
  | .fileSize path =>
    let (size, dir) := self.dir.fileSize inner path
    (.size size.toOption, { self with dir })
  | .readRange path start stop =>
    let (bytes, dir) := self.dir.readRange inner stamps path start stop
    (.bytes bytes.toOption, { self with dir })
  | .openRead path => self.addHandle (self.dir.openRead inner stamps path)
  | .openLazy path => self.addHandle (self.dir.openLazy inner path)
  | .openPayload path => self.addHandle (self.dir.openPayload inner path, self.dir)
  | .sliceHandle handle start stop =>
    let sliced := self.handles[handle]?.bind fun h => h.slice start stop
    (.opened (sliced.map len), { self with handles := self.handles ++ sliced.toList })
  | .readHandle handle start stop =>
    match self.handles[handle]? with
    | none => (.bytes none, self)
    | some h =>
      let (bytes, dir) := self.dir.readBytesRange inner stamps h start stop
      (.bytes bytes.toOption, { self with dir })

def answers (self : CacheSession σ η) : List DirOp → List DirAnswer
  | [] => []
  | op :: ops => (self.step inner stamps op).1 :: (self.step inner stamps op).2.answers ops

def run (ops : List DirOp) : CacheSession σ η :=
  ops.foldl (fun s op => (s.step inner stamps op).2) self

/-- A rename after which the cached sizes are right: when the source exists and its size is not cached, a
cached size of the destination is the size of the source. -/
def RenameSafe (dir : SliceCachingDirectory σ) (src dst : Path) : Prop :=
  ∀ data ∈ inner.files dir.inner src, dir.fileSizes.lookup src = none →
    ∀ size ∈ dir.fileSizes.lookup dst, size = data.length

def SafeStep : DirOp → Prop
  | .rename src dst => RenameSafe inner self.dir src dst
  | _ => True

def SafeRun (self : CacheSession σ η) : List DirOp → Prop
  | [] => True
  | op :: ops => self.SafeStep inner op ∧ (self.step inner stamps op).2.SafeRun ops

instance (dir : SliceCachingDirectory σ) (src dst : Path) : Decidable (RenameSafe inner dir src dst) :=
  inferInstanceAs (Decidable (∀ data ∈ inner.files dir.inner src, dir.fileSizes.lookup src = none →
    ∀ size ∈ dir.fileSizes.lookup dst, size = data.length))

instance (self : CacheSession σ η) : (op : DirOp) → Decidable (self.SafeStep inner op)
  | .rename src dst => inferInstanceAs (Decidable (RenameSafe inner self.dir src dst))
  | .write .. | .delete .. | .streamingRewrite .. | .fileSize .. | .openRead .. | .openLazy ..
  | .openPayload .. | .readRange .. | .sliceHandle .. | .readHandle .. => .isTrue trivial

instance decidableSafeRun (self : CacheSession σ η) : (ops : List DirOp) →
    Decidable (self.SafeRun inner stamps ops)
  | [] => .isTrue trivial
  | op :: ops =>
    have := decidableSafeRun (self.step inner stamps op).2 ops
    inferInstanceAs (Decidable (self.SafeStep inner op ∧ (self.step inner stamps op).2.SafeRun inner stamps ops))

end CacheSession

/-! ## Changes -/

namespace SliceCachingDirectory

variable {σ η : Type} {inner : MapDirectory σ η} {dir : SliceCachingDirectory σ}

/-- A file that was invalidated may change. -/
theorem Coherent.invalidate (h : dir.Coherent inner) {path : Path} {s : σ} {value : Option (List Byte)}
    (hs : inner.files s = Function.update (inner.files dir.inner) path value) :
    Coherent inner { dir.invalidate path with inner := s } := by
  have hother : ∀ p, p ≠ path → inner.files s p = inner.files dir.inner p := fun p hp => by
    rw [hs, Function.update_of_ne hp]
  refine ⟨h.slices.removeFile hother, fun p size hsize => ?_⟩
  have hsize : size ∈ (dir.fileSizes.erase path).lookup p := hsize
  by_cases hp : p = path
  · subst hp
    simp at hsize
  · rw [AList.lookup_erase_ne hp] at hsize
    exact hother p hp ▸ h.sizes p size hsize

theorem coherent_rename (h : dir.Coherent inner) (src dst : Path) :
    (dir.rename inner src dst).Coherent inner ↔ CacheSession.RenameSafe inner dir src dst := by
  have hfiles : inner.files (dir.rename inner src dst).inner = (inner.files dir.inner).move src dst :=
    inner.rename_eq dir.inner src dst
  have hslices : (dir.rename inner src dst).state.Ok (inner.files (dir.rename inner src dst).inner) :=
    hfiles ▸ h.slices.renameFile src dst
  constructor
  · intro hafter data hdata hsrc size hsize
    -- the destination keeps its size and gets the file
    have hkept : size ∈ (dir.rename inner src dst).fileSizes.lookup dst := by
      simp only [rename, hsrc]
      exact hsize
    have hlen := hafter.sizes dst size hkept
    rw [hfiles, Files.move_dst hdata] at hlen
    exact (Option.some.inj hlen).symm
  · intro hsafe
    refine ⟨hslices, fun p size hsize => ?_⟩
    rw [hfiles]
    cases hdata : inner.files dir.inner src with
    | none =>
      -- without the source nothing moves, and it has no size
      have hsrc : dir.fileSizes.lookup src = none := by
        cases hlookup : dir.fileSizes.lookup src with
        | none => rfl
        | some n =>
          have := h.sizes src n hlookup
          simp [hdata] at this
      rw [Files.move_of_none hdata]
      simp only [rename, hsrc] at hsize
      exact h.sizes p size hsize
    | some data =>
      cases hsrc : dir.fileSizes.lookup src with
      | none =>
        simp only [rename, hsrc] at hsize
        by_cases hp : p = dst
        · subst hp
          rw [Files.move_dst hdata, Option.map_some, hsafe data hdata hsrc size hsize]
        · have hpsrc : p ≠ src := by
            rintro rfl
            simp [hsrc] at hsize
          rw [Files.move_of_ne hpsrc hp]
          exact h.sizes p size hsize
      | some n =>
        simp only [rename, hsrc] at hsize
        by_cases hp : p = dst
        · subst hp
          rw [AList.lookup_insert, Option.mem_some_iff] at hsize
          rw [Files.move_dst hdata, ← hsize, ← h.sizes src n hsrc, hdata]
        · rw [AList.lookup_insert_ne hp] at hsize
          have hpsrc : p ≠ src := by
            rintro rfl
            simp at hsize
          rw [AList.lookup_erase_ne hpsrc] at hsize
          rw [Files.move_of_ne hpsrc hp]
          exact h.sizes p size hsize

end SliceCachingDirectory

/-! ## Handles -/

namespace FileHandle

variable {σ η : Type} (inner : MapDirectory σ η)

def offset : FileHandle η → Nat
  | inline _ offset _ => offset
  | lazy _ offset _ => offset

/-- Where a handle on a file with the content `data` gets its bytes from. -/
def Reads (path : Path) (data : List Byte) : FileHandle η → Prop
  | inline bytes _ _ => bytes = data
  | lazy (.range p) _ _ => p = path
  | lazy (.payload p handle) _ _ =>
    p = path ∧ ∃ s, inner.openPayload s path = .ok handle ∧ inner.files s path = some data

/-- A handle of a session and the view that it stands for. -/
structure Views (files : Files) (h : FileHandle η) (view : MapHandle) : Prop where
  len_eq : h.len = view.len
  reads : view.fresh = true → ∃ data, files view.path = some data ∧ h.offset = view.offset ∧
    view.offset + view.len ≤ data.length ∧ h.Reads inner view.path data

variable {inner}

/-- A change of other files. -/
theorem Views.change {files files' : Files} {h : FileHandle η} {view : MapHandle}
    (hv : h.Views inner files view) {changed : List Path} (hfiles : ∀ p ∉ changed, files' p = files p) :
    h.Views inner files' { view with fresh := view.fresh && !(changed.contains view.path) } := by
  refine ⟨hv.len_eq, fun hfresh => ?_⟩
  have hboth : view.fresh = true ∧ view.path ∉ changed := by simpa using hfresh
  obtain ⟨data, hdata, hrest⟩ := hv.reads hboth.1
  exact ⟨data, (hfiles view.path hboth.2).trans hdata, hrest⟩

/-- A sub-range view. -/
theorem Views.slice {files : Files} {h h' : FileHandle η} {view : MapHandle} (hv : h.Views inner files view)
    {start stop : Nat} (hle : start ≤ stop ∧ stop ≤ view.len) (hslice : h.slice start stop = some h') :
    h'.Views inner files { view with offset := view.offset + start, len := stop - start } := by
  unfold FileHandle.slice at hslice
  rw [if_pos (hv.len_eq ▸ hle)] at hslice
  cases h with
  | inline bytes offset len =>
    cases hslice
    refine ⟨rfl, fun hfresh => ?_⟩
    obtain ⟨data, hdata, hoffset, hfit, hreads⟩ := hv.reads hfresh
    exact ⟨data, hdata, congrArg (· + start) hoffset, by dsimp only; omega, hreads⟩
  | lazy readFn offset len =>
    cases hslice
    refine ⟨rfl, fun hfresh => ?_⟩
    obtain ⟨data, hdata, hoffset, hfit, hreads⟩ := hv.reads hfresh
    refine ⟨data, hdata, congrArg (· + start) hoffset, by dsimp only; omega, ?_⟩
    cases readFn <;> exact hreads

theorem map_len_slice (h : FileHandle η) (start stop : Nat) :
    (h.slice start stop).map len = if start ≤ stop ∧ stop ≤ h.len then some (stop - start) else none := by
  unfold slice
  split
  case isTrue => cases h <;> rfl
  case isFalse => rfl

end FileHandle

namespace SliceCachingDirectory

variable {σ η : Type} {inner : MapDirectory σ η} (stamps : Nat → Nat) {dir : SliceCachingDirectory σ}

/-- The callback of a lazy handle on a file that has not changed. -/
theorem callReadFn_spec (h : dir.Coherent inner) {path : Path} {data : List Byte}
    (hdata : inner.files dir.inner path = some data) {readFn : RangeReadFn η} {offset len : Nat}
    (hreads : (lazy readFn offset len).Reads inner path data) {start stop : Nat}
    (hle : start ≤ stop) :
    Served inner dir (dir.callReadFn inner stamps start stop readFn) (sliceRange start stop data) := by
  have hbind : (inner.files dir.inner path).bind (sliceRange start stop) = sliceRange start stop data := by
    rw [hdata, Option.bind_some]
  rw [← hbind]
  cases readFn with
  | range p =>
    obtain rfl : p = path := hreads
    exact readThrough_spec stamps h hle (inner.readRange_eq ..)
  | payload p handle =>
    obtain ⟨rfl, s, hopen, hs⟩ := hreads
    have hread := inner.readHandle_eq s dir.inner p handle start stop (.inr hopen) (hdata.trans hs.symm)
    exact readThrough_spec stamps h hle (by rw [hread, hs, hdata])

/-- A read through a handle on a file that has not changed. -/
theorem readBytesRange_spec (h : dir.Coherent inner) {handle : FileHandle η} {view : MapHandle}
    (hv : handle.Views inner (inner.files dir.inner) view) (hfresh : view.fresh = true) (start stop : Nat) :
    Served inner dir (dir.readBytesRange inner stamps handle start stop)
      (MapSession.readBytes (inner.files dir.inner) view start stop) := by
  obtain ⟨data, hdata, hoffset, hfit, hreads⟩ := hv.reads hfresh
  unfold readBytesRange MapSession.readBytes checkRange
  by_cases hrange : start ≤ stop ∧ stop ≤ view.len
  · have hsub : sliceRange (view.offset + start) (view.offset + stop) data =
        some ((data.drop (view.offset + start)).take (stop - start)) := by
      rw [sliceRange_eq_some]
      exact ⟨by omega, by omega, by rw [Nat.add_sub_add_left]⟩
    rw [if_neg (by rw [hv.len_eq]; omega), if_pos hrange, hdata, Option.bind_some]
    dsimp only
    split
    case isTrue hempty =>
      obtain rfl : start = stop := by omega
      rw [hsub]
      exact ⟨by simp [Except.toOption], h, rfl⟩
    case isFalse hne =>
      cases handle with
      | inline bytes offset len =>
        obtain rfl : bytes = data := hreads
        obtain rfl : offset = view.offset := hoffset
        rw [hsub]
        exact ⟨rfl, h, rfl⟩
      | lazy readFn offset len =>
        obtain rfl : offset = view.offset := hoffset
        have hserved := callReadFn_spec stamps h hdata hreads
          (show view.offset + start ≤ view.offset + stop by omega)
        dsimp only
        generalize dir.callReadFn inner stamps (view.offset + start) (view.offset + stop) readFn = r at *
        obtain ⟨bytes, dir'⟩ := r
        cases bytes with
        | error e => exact hserved
        | ok bytes =>
          -- the callback returned as many bytes as it was asked for
          have hlen := length_of_sliceRange hserved.answer.symm
          dsimp only
          rw [if_neg (by rw [hlen]; omega)]
          exact hserved
  · rw [if_pos (by rw [hv.len_eq]; omega), if_neg hrange]
    exact ⟨rfl, h, rfl⟩

end SliceCachingDirectory

/-! ## Simulation -/

theorem MapSession.filesAfter_of_not_mem {files : Files} {op : DirOp} {p : Path} (hp : p ∉ op.changes) :
    MapSession.filesAfter files op p = files p := by
  cases op with
  | write | delete | streamingRewrite => exact Function.update_of_ne (by simpa [DirOp.changes] using hp) ..
  | rename src dst =>
    obtain ⟨hsrc, hdst⟩ : p ≠ src ∧ p ≠ dst := by simpa [DirOp.changes] using hp
    exact Files.move_of_ne hsrc hdst
  | _ => rfl

namespace CacheSession

open SliceCachingDirectory FileHandle

variable {σ η : Type} {inner : MapDirectory σ η} (stamps : Nat → Nat) {c : CacheSession σ η} {m : MapSession}

variable (inner) in
/-- A cached session and the session over the map that it stands for. -/
structure Sim (c : CacheSession σ η) (m : MapSession) : Prop where
  files : m.files = inner.files c.dir.inner
  coherent : c.dir.Coherent inner
  handles : List.Forall₂ (Views inner m.files) c.handles m.handles

theorem Sim.start (s : σ) (maxBytes : Nat) : Sim inner ⟨.new s maxBytes, []⟩ ⟨inner.files s, []⟩ :=
  ⟨rfl, .new inner s maxBytes, .nil⟩

/-- The next states are related when the directory is coherent and the new handles are views. -/
theorem Sim.next (h : Sim inner c m) {op : DirOp} {dir : SliceCachingDirectory σ} {new : List (FileHandle η)}
    (hdir : dir.Coherent inner) (hfiles : inner.files dir.inner = MapSession.filesAfter m.files op)
    (hnew : List.Forall₂ (Views inner (MapSession.filesAfter m.files op)) new (m.opens op).toList) :
    Sim inner ⟨dir, c.handles ++ new⟩ (m.next op) := by
  refine ⟨hfiles.symm, hdir, List.rel_append ?_ hnew⟩
  rw [List.forall₂_map_right_iff]
  exact h.handles.imp fun _ _ hv => hv.change fun _ hp => MapSession.filesAfter_of_not_mem hp

/-- A change leaves the handles of the session as they are. -/
theorem Sim.next_change (h : Sim inner c m) {op : DirOp} {dir : SliceCachingDirectory σ}
    (hopens : m.opens op = none) (hdir : dir.Coherent inner)
    (hfiles : inner.files dir.inner = MapSession.filesAfter m.files op) :
    Sim inner { c with dir } (m.next op) := by
  have hnew : List.Forall₂ (Views inner (MapSession.filesAfter m.files op)) [] (m.opens op).toList := by
    rw [hopens]
    exact .nil
  simpa only [List.append_nil] using h.next hdir hfiles hnew

/-- A read that opens no handle. -/
theorem Sim.next_read (h : Sim inner c m) {op : DirOp} {α : Type}
    {r : IoResult α × SliceCachingDirectory σ} {expected : Option α} (hr : Served inner c.dir r expected)
    (hopens : m.opens op = none) (hfiles : MapSession.filesAfter m.files op = m.files) :
    Sim inner { c with dir := r.2 } (m.next op) :=
  h.next_change hopens hr.coherent (by rw [hr.inner_eq, hfiles, h.files])

/-- The handles of both sessions under one number. -/
theorem Sim.getHandle (h : Sim inner c m) (i : Nat) :
    (c.handles[i]? = none ∧ m.handles[i]? = none) ∨
      ∃ handle view, c.handles[i]? = some handle ∧ m.handles[i]? = some view ∧
        handle.Views inner m.files view := by
  obtain ⟨hlen, hget⟩ := List.forall₂_iff_get.mp h.handles
  by_cases hi : i < c.handles.length
  · exact .inr ⟨_, _, List.getElem?_eq_getElem hi, List.getElem?_eq_getElem (hlen ▸ hi), hget i hi (hlen ▸ hi)⟩
  · exact .inl ⟨List.getElem?_eq_none (by omega), List.getElem?_eq_none (by omega)⟩

variable (inner) in
/-- What an open returns: a handle on the whole file, if the file exists. -/
def OpenOk (files : Files) (path : Path) (opened : Option (FileHandle η)) : Prop :=
  match files path with
  | none => opened = none
  | some data => ∃ handle ∈ opened, handle.len = data.length ∧ handle.offset = 0 ∧
    handle.Reads inner path data

/-- An open: the handle is a view of the file that is there now. -/
theorem Sim.addHandle (h : Sim inner c m) (op : DirOp) {path : Path}
    {r : IoResult (FileHandle η) × SliceCachingDirectory σ} {expected : Option (FileHandle η)}
    (hr : Served inner c.dir r expected) (hopen : OpenOk inner m.files path expected)
    (hopens : m.opens op = MapSession.openHandle m.files path)
    (hfiles : MapSession.filesAfter m.files op = m.files) :
    (c.addHandle r).1 = .opened ((MapSession.openHandle m.files path).map (·.len)) ∧
      Sim inner (c.addHandle r).2 (m.next op) := by
  have hinner : inner.files r.2.inner = MapSession.filesAfter m.files op := by
    rw [hr.inner_eq, hfiles, h.files]
  unfold CacheSession.addHandle
  rw [hr.answer]
  unfold OpenOk at hopen
  cases hdata : m.files path with
  | none =>
    simp only [hdata] at hopen
    subst hopen
    refine ⟨by simp [MapSession.openHandle, hdata], h.next hr.coherent hinner ?_⟩
    rw [hopens, MapSession.openHandle, hdata]
    exact .nil
  | some data =>
    simp only [hdata] at hopen
    obtain ⟨handle, rfl, hlen, hoffset, hreads⟩ := hopen
    refine ⟨by simp [MapSession.openHandle, hdata, hlen], h.next hr.coherent hinner ?_⟩
    rw [hopens, MapSession.openHandle, hdata, hfiles]
    refine .cons ⟨hlen, fun _ => ⟨data, hdata, hoffset, ?_, hreads⟩⟩ .nil
    exact (Nat.zero_add _).le

/-- An open that is computed from the file's content. -/
theorem openOk_map {files : Files} {path : Path} {f : List Byte → FileHandle η}
    (hf : ∀ data, (f data).len = data.length ∧ (f data).offset = 0 ∧ (f data).Reads inner path data) :
    OpenOk inner files path ((files path).map f) := by
  unfold OpenOk
  cases files path with
  | none => rfl
  | some data => exact ⟨f data, rfl, hf data⟩

theorem openPayload_ok (dir : SliceCachingDirectory σ) (path : Path) :
    OpenOk inner (inner.files dir.inner) path (dir.openPayload inner path).toOption := by
  have hopen := inner.openPayload_eq dir.inner path
  unfold OpenOk SliceCachingDirectory.openPayload
  cases hdata : inner.files dir.inner path with
  | none =>
    rw [hdata] at hopen
    cases hhandle : inner.openPayload dir.inner path with
    | error e => rfl
    | ok handle => simp [hhandle, Except.map, Except.toOption] at hopen
  | some data =>
    rw [hdata] at hopen
    cases hhandle : inner.openPayload dir.inner path with
    | error e => simp [hhandle, Except.map, Except.toOption] at hopen
    | ok handle =>
      rw [hhandle] at hopen
      exact ⟨_, rfl, Option.some.inj hopen, rfl, rfl, dir.inner, hhandle, hdata⟩

/-- A session answers as the map, and keeps the relation unless a rename makes a cached size wrong. -/
theorem step_sim (h : Sim inner c m) {op : DirOp} (hallowed : m.Allowed op) :
    (c.step inner stamps op).1 = m.answer op ∧
      (c.SafeStep inner op → Sim inner (c.step inner stamps op).2 (m.next op)) := by
  cases op with
  | write path data =>
    have hfiles := inner.write_eq c.dir.inner path data
    exact ⟨rfl, fun _ => h.next_change rfl (h.coherent.invalidate hfiles) (by rw [h.files]; exact hfiles)⟩
  | delete path =>
    have hfiles := inner.delete_eq c.dir.inner path
    exact ⟨rfl, fun _ => h.next_change rfl (h.coherent.invalidate hfiles) (by rw [h.files]; exact hfiles)⟩
  | streamingRewrite path buffers =>
    have hfiles := inner.streamingWrite_eq c.dir.inner path buffers
    exact ⟨rfl, fun _ => h.next_change rfl (h.coherent.invalidate hfiles) (by rw [h.files]; exact hfiles)⟩
  | rename src dst =>
    refine ⟨rfl, fun hsafe => h.next_change rfl ((coherent_rename h.coherent src dst).mpr hsafe) ?_⟩
    rw [h.files]
    exact inner.rename_eq c.dir.inner src dst
  | fileSize path =>
    have hserved := fileSize_spec h.coherent path
    exact ⟨congrArg DirAnswer.size (hserved.answer.trans (by rw [h.files])),
      fun _ => h.next_read hserved rfl rfl⟩
  | readRange path start stop =>
    have hserved := readRange_spec stamps h.coherent path start stop
    exact ⟨congrArg DirAnswer.bytes (hserved.answer.trans (by rw [h.files])),
      fun _ => h.next_read hserved rfl rfl⟩
  | openRead path =>
    have hserved := openRead_spec stamps h.coherent path
    rw [← h.files] at hserved
    obtain ⟨hanswer, hsim⟩ := h.addHandle (.openRead path) hserved (openOk_map fun _ => ⟨rfl, rfl, rfl⟩) rfl rfl
    exact ⟨hanswer, fun _ => hsim⟩
  | openLazy path =>
    have hserved := openLazy_spec h.coherent path
    rw [← h.files] at hserved
    obtain ⟨hanswer, hsim⟩ := h.addHandle (.openLazy path) hserved (openOk_map fun _ => ⟨rfl, rfl, rfl⟩) rfl rfl
    exact ⟨hanswer, fun _ => hsim⟩
  | openPayload path =>
    have hserved : Served inner c.dir (c.dir.openPayload inner path, c.dir) _ := ⟨rfl, h.coherent, rfl⟩
    obtain ⟨hanswer, hsim⟩ := h.addHandle (.openPayload path) hserved
      (h.files ▸ openPayload_ok c.dir path) rfl rfl
    exact ⟨hanswer, fun _ => hsim⟩
  | sliceHandle handle start stop =>
    rcases h.getHandle handle with ⟨hc, hm⟩ | ⟨ch, view, hc, hm, hv⟩
    · simp only [step, MapSession.answer, MapSession.opens, hc, hm, Option.bind_none, Option.map_none, true_and]
      exact fun _ => h.next h.coherent h.files.symm (by simp [MapSession.opens, hm])
    · refine ⟨?_, fun _ => h.next h.coherent h.files.symm ?_⟩
      · simp only [step, MapSession.answer, MapSession.opens, hc, hm, Option.bind_some, map_len_slice, hv.len_eq]
        split <;> rfl
      · simp only [MapSession.opens, hm, Option.bind_some, hc]
        have hslice := map_len_slice ch start stop
        rw [hv.len_eq] at hslice
        by_cases hle : start ≤ stop ∧ stop ≤ view.len
        · rw [if_pos hle] at hslice ⊢
          obtain ⟨h', hslice, -⟩ := Option.map_eq_some_iff.mp hslice
          rw [hslice]
          exact .cons (hv.slice hle hslice) .nil
        · rw [if_neg hle] at hslice ⊢
          rw [Option.map_eq_none_iff.mp hslice]
          exact .nil
  | readHandle handle start stop =>
    rcases h.getHandle handle with ⟨hc, hm⟩ | ⟨ch, view, hc, hm, hv⟩
    · simp only [step, MapSession.answer, hc, hm, Option.bind_none, true_and]
      exact fun _ => h.next_change rfl h.coherent h.files.symm
    · have hserved := readBytesRange_spec stamps h.coherent (h.files ▸ hv) (hallowed view hm) start stop
      simp only [step, MapSession.answer, hc, hm, Option.bind_some]
      exact ⟨congrArg DirAnswer.bytes (hserved.answer.trans (by rw [h.files])),
        fun _ => h.next_read hserved rfl rfl⟩

theorem run_sim (h : Sim inner c m) {ops : List DirOp} (hallowed : m.AllowedRun ops)
    (hsafe : c.SafeRun inner stamps ops) :
    c.answers inner stamps ops = m.answers ops ∧ Sim inner (c.run inner stamps ops) (m.run ops) := by
  induction ops generalizing c m with
  | nil => exact ⟨rfl, h⟩
  | cons op ops ih =>
    obtain ⟨hanswer, hsim⟩ := step_sim stamps h hallowed.1
    obtain ⟨hanswers, hrun⟩ := ih (hsim hsafe.1) hallowed.2 hsafe.2
    exact ⟨by rw [answers, MapSession.answers, hanswer, hanswers], hrun⟩

/-- After a rename that is not safe, the size of the destination is wrong. -/
theorem renameSafe_of_fileSize (h : Sim inner c m) {src dst : Path}
    (hsize : ((c.dir.rename inner src dst).fileSize inner dst).1.toOption =
      ((m.files.move src dst) dst).map List.length) : RenameSafe inner c.dir src dst := by
  intro data hdata hsrc size hdst
  rw [h.files, Files.move_dst hdata] at hsize
  have hkept : (c.dir.rename inner src dst).fileSizes.lookup dst = some size := by
    simp only [rename, hsrc]
    exact hdst
  simp only [SliceCachingDirectory.fileSize, hkept] at hsize
  exact Option.some.inj hsize

/-- A run of which every rename is safe answers as the map, and goes on doing so after one more operation
exactly when that operation is safe. -/
theorem sliceCache_run (inner : MapDirectory σ η) (s : σ) (maxBytes : Nat) (ops : List DirOp)
    (hallowed : MapSession.AllowedRun ⟨inner.files s, []⟩ ops)
    (hsafe : SafeRun inner stamps ⟨.new s maxBytes, []⟩ ops) :
    answers inner stamps ⟨.new s maxBytes, []⟩ ops = MapSession.answers ⟨inner.files s, []⟩ ops ∧
    ∀ op, (MapSession.run ⟨inner.files s, []⟩ ops).Allowed op →
      ((∀ read, ((MapSession.run ⟨inner.files s, []⟩ ops).next op).Allowed read →
        (((run inner stamps ⟨.new s maxBytes, []⟩ ops).step inner stamps op).2.step inner stamps read).1 =
          ((MapSession.run ⟨inner.files s, []⟩ ops).next op).answer read) ↔
        (run inner stamps ⟨.new s maxBytes, []⟩ ops).SafeStep inner op) := by
  obtain ⟨hanswers, hsim⟩ := run_sim stamps (Sim.start s maxBytes) hallowed hsafe
  refine ⟨hanswers, fun op hop => ⟨fun hreads => ?_, fun hstep read hread => ?_⟩⟩
  · cases op with
    | rename src dst => exact renameSafe_of_fileSize hsim (DirAnswer.size.inj (hreads (.fileSize dst) trivial))
    | _ => trivial
  · exact (step_sim stamps ((step_sim stamps hsim hop).2 hstep) hread).1

/-- Reads and a rename onto a file whose size is cached, from one whose size is cached as well. -/
def safeRenameRun : List DirOp :=
  [.write "a" [1, 2, 3], .write "b" [9], .fileSize "b", .readRange "a" 1 3, .openRead "a", .rename "a" "b",
    .fileSize "b", .readRange "b" 0 2, .openLazy "b", .readHandle 1 0 3]

theorem sliceCache_run_rename :
    MapSession.AllowedRun ⟨ramDirectory.files ∅, []⟩ safeRenameRun ∧
    SafeRun ramDirectory id ⟨.new ∅ 1024, []⟩ safeRenameRun ∧
    answers ramDirectory id ⟨.new ∅ 1024, []⟩ safeRenameRun =
      MapSession.answers ⟨ramDirectory.files ∅, []⟩ safeRenameRun := by
  have hallowed : MapSession.AllowedRun ⟨ramDirectory.files ∅, []⟩ safeRenameRun := by decide
  have hsafe : SafeRun ramDirectory id ⟨.new ∅ 1024, []⟩ safeRenameRun := by decide
  exact ⟨hallowed, hsafe, (sliceCache_run id ramDirectory ∅ 1024 safeRenameRun hallowed hsafe).1⟩

/-- A rename onto a file whose size is cached, from one whose size is not: the size of the destination stays,
and reads through a handle fail. -/
theorem sliceCache_stale_size :
    let ops : List DirOp := [.write "a" [1, 2, 3], .write "b" [9], .fileSize "b", .rename "a" "b",
      .fileSize "b", .openLazy "b", .readHandle 0 0 3]
    MapSession.AllowedRun ⟨ramDirectory.files ∅, []⟩ ops ∧
    answers ramDirectory id ⟨.new ∅ 1024, []⟩ ops =
      [.done, .done, .size (some 1), .done, .size (some 1), .opened (some 1), .bytes none] ∧
    MapSession.answers ⟨ramDirectory.files ∅, []⟩ ops =
      [.done, .done, .size (some 1), .done, .size (some 3), .opened (some 3), .bytes (some [1, 2, 3])] := by
  decide

end CacheSession

end Summa
