import Summa.Lib.LittleEndian
import Mathlib.Data.List.AList

/-!
# Directories (`directories/directory.rs`)

A directory maps paths to the bytes of files. `MapDirectory` says what a directory implementation has to do
to behave as such a map; `ramDirectory` is the in-memory one.
-/

namespace Summa

open Function

abbrev Path := String

inductive IoErrorKind where
  | notFound
  | invalidInput
  | invalidData
  | unexpectedEof
  | other
  deriving DecidableEq, Repr

structure IoError where
  kind : IoErrorKind
  message : String
  deriving DecidableEq, Repr

namespace IoError

def invalidData (message : String) : IoError := ⟨.invalidData, message⟩

def invalidInput (message : String) : IoError := ⟨.invalidInput, message⟩

def unexpectedEof (message : String) : IoError := ⟨.unexpectedEof, message⟩

def other (message : String) : IoError := ⟨.other, message⟩

end IoError

abbrev IoResult (α : Type) := Except IoError α

/-- The files of a directory. -/
abbrev Files := Path → Option (List Byte)

/-- The bytes `start..stop`, if the range is one of the data's. -/
def sliceRange (start stop : Nat) (data : List Byte) : Option (List Byte) :=
  if start ≤ stop ∧ stop ≤ data.length then some ((data.drop start).take (stop - start)) else none

/-- A file under another name; nothing happens when it does not exist. -/
def Files.move (files : Files) (src dst : Path) : Files :=
  match files src with
  | none => files
  | some data => update (update files src none) dst (some data)

theorem Files.move_of_none {files : Files} {src : Path} (h : files src = none) (dst : Path) :
    files.move src dst = files := by
  simp [move, h]

theorem Files.move_dst {files : Files} {src : Path} {data : List Byte} (h : files src = some data)
    (dst : Path) : files.move src dst dst = some data := by
  simp [move, h]

theorem Files.move_of_ne {files : Files} {src dst p : Path} (hsrc : p ≠ src) (hdst : p ≠ dst) :
    files.move src dst p = files p := by
  cases h : files src with
  | none => rw [move_of_none h]
  | some data => simp only [move, h, update_of_ne hdst, update_of_ne hsrc]

/-- A directory with states `σ` and handles `η` that behaves as a map from paths to bytes. -/
structure MapDirectory (σ η : Type) where
  fileSize : σ → Path → IoResult Nat
  readRange : σ → Path → Nat → Nat → IoResult (List Byte)
  openRead : σ → Path → IoResult η
  openPayload : σ → Path → IoResult η
  handleLen : η → Nat
  readHandle : σ → η → Nat → Nat → IoResult (List Byte)
  write : σ → Path → List Byte → σ
  delete : σ → Path → σ
  rename : σ → Path → Path → σ
  /-- A streaming writer that is opened, given some buffers and finished. -/
  streamingWrite : σ → Path → List (List Byte) → σ
  /-- The map. -/
  files : σ → Files
  fileSize_eq : ∀ s p, (fileSize s p).toOption = (files s p).map List.length
  readRange_eq : ∀ s p start stop,
    (readRange s p start stop).toOption = (files s p).bind (sliceRange start stop)
  openRead_eq : ∀ s p, ((openRead s p).map handleLen).toOption = (files s p).map List.length
  openPayload_eq : ∀ s p, ((openPayload s p).map handleLen).toOption = (files s p).map List.length
  /-- A handle reads the file as long as it is the one that was opened. -/
  readHandle_eq : ∀ s s' p h start stop, openRead s p = .ok h ∨ openPayload s p = .ok h →
    files s' p = files s p → (readHandle s' h start stop).toOption = (files s p).bind (sliceRange start stop)
  write_eq : ∀ s p data, files (write s p data) = update (files s) p (some data)
  delete_eq : ∀ s p, files (delete s p) = update (files s) p none
  rename_eq : ∀ s src dst, files (rename s src dst) = (files s).move src dst
  streamingWrite_eq : ∀ s p buffers,
    files (streamingWrite s p buffers) = update (files s) p (some buffers.flatten)

/-! ## The in-memory directory -/

/-- The state of a `RamDirectory`. -/
abbrev RamFiles := AList fun _ : Path => List Byte

namespace RamFiles

def notFound : IoError := ⟨.notFound, "File not found"⟩

variable (self : RamFiles)

def get (path : Path) : IoResult (List Byte) :=
  match self.lookup path with
  | some data => .ok data
  | none => .error notFound

/-- `read_bytes_range_sync` of an inline handle on all of `data`. -/
def readBytesRangeSync (data : List Byte) (start stop : Nat) : IoResult (List Byte) :=
  if stop < start ∨ data.length < stop then
    .error ⟨.invalidInput, s!"range {start}..{stop} out of bounds (len: {data.length})"⟩
  else .ok ((data.drop start).take (stop - start))

def rename (src dst : Path) : RamFiles :=
  match self.lookup src with
  | some data => (self.erase src).insert dst data
  | none => self

theorem toOption_get (path : Path) : (self.get path).toOption = self.lookup path := by
  unfold get
  cases self.lookup path <;> rfl

theorem toOption_readBytesRangeSync (data : List Byte) (start stop : Nat) :
    (readBytesRangeSync data start stop).toOption = sliceRange start stop data := by
  unfold readBytesRangeSync sliceRange
  by_cases h : start ≤ stop ∧ stop ≤ data.length
  · rw [if_neg (by omega), if_pos h]
    rfl
  · rw [if_pos (by omega), if_neg h]
    rfl

theorem lookup_insert_eq (path : Path) (data : List Byte) :
    (fun p => (self.insert path data).lookup p) = update (fun p => self.lookup p) path (some data) := by
  funext p
  by_cases hp : p = path
  · subst hp
    simp
  · rw [AList.lookup_insert_ne hp, update_of_ne hp]

theorem lookup_erase_eq (path : Path) :
    (fun p => (self.erase path).lookup p) = update (fun p => self.lookup p) path none := by
  funext p
  by_cases hp : p = path
  · subst hp
    simp
  · rw [AList.lookup_erase_ne hp, update_of_ne hp]

end RamFiles

open RamFiles in
/-- `RamDirectory`. A handle is the data that the file had when it was opened. -/
def ramDirectory : MapDirectory RamFiles (List Byte) where
  fileSize s p := (s.get p).map List.length
  readRange s p start stop := do readBytesRangeSync (← s.get p) start stop
  openRead s p := s.get p
  openPayload s p := s.get p
  handleLen := List.length
  readHandle _ h start stop := readBytesRangeSync h start stop
  write s p data := s.insert p data
  delete s p := s.erase p
  rename := RamFiles.rename
  streamingWrite s p buffers := s.insert p buffers.flatten
  files s p := s.lookup p
  fileSize_eq s p := by
    rw [← toOption_get]
    cases s.get p <;> rfl
  readRange_eq s p start stop := by
    rw [← toOption_get]
    cases s.get p with
    | error e => rfl
    | ok data => exact toOption_readBytesRangeSync data start stop
  openRead_eq s p := by
    rw [← toOption_get]
    cases s.get p <;> rfl
  openPayload_eq s p := by
    rw [← toOption_get]
    cases s.get p <;> rfl
  readHandle_eq s s' p h start stop hopen _ := by
    have hget : s.get p = .ok h := hopen.elim id id
    rw [toOption_readBytesRangeSync, ← toOption_get, hget]
    rfl
  write_eq := lookup_insert_eq
  delete_eq := lookup_erase_eq
  rename_eq s src dst := by
    cases h : s.lookup src with
    | none => simp only [RamFiles.rename, Files.move, h]
    | some data => simp only [RamFiles.rename, Files.move, h, lookup_insert_eq, lookup_erase_eq]
  streamingWrite_eq s p buffers := lookup_insert_eq s p buffers.flatten

end Summa
