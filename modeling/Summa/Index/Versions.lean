import Summa.Index.Writer
import Summa.Merge.LiveBag

/-!
# Versions of keys

What a primary-key index is for, without segments, queues or caches: each key has a committed
version and a current one, which is the last accepted version of the generation. A commit makes the
current versions the committed ones; a generation that is given up leaves the committed ones.

`system cfg` runs a writer together with the versions that its accepted calls define.
-/

namespace Summa

structure Versions where
  committed : String → Option Document
  current : String → Option Document

/-- The content hash of a document, if it has a valid one. -/
def hashOf (schema : Schema) (doc : Document) : Option FieldValue :=
  match documentHash doc schema with
  | .ok hash => hash
  | .error _ => none

/-- The document has a content hash, and this version has the same. -/
def sameHash (schema : Schema) (doc : Document) (version : Option Document) : Bool :=
  match hashOf schema doc with
  | none => false
  | some hash => version.bind (hashOf schema) == some hash

namespace Versions

/-- The current version of a key. -/
def set (self : Versions) (key : String) (version : Option Document) : Versions :=
  { self with current := Function.update self.current key version }

/-- An accepted call changes the current version of its key; an upsert with an equal content hash
is an accepted no-op. -/
def apply (cfg : WriterConfig) (self : Versions) : WriterEvent → Versions
  | .add doc (.ok _) => self.set (doc.key cfg.field) (some doc)
  | .upsert doc (.ok _) =>
    if sameHash cfg.schema doc (self.current (doc.key cfg.field)) then self
    else self.set (doc.key cfg.field) (some doc)
  | .delete key (.ok _) => self.set key none
  | .commit => { self with committed := self.current }
  | .discard => { self with current := self.committed }
  | .add _ (.error _) | .upsert _ (.error _) | .delete _ (.error _) | .internal => self

variable {self : Versions} {key k : String} {version version' : Option Document}

@[simp] theorem set_current_self : (self.set key version).current key = version :=
  Function.update_self ..

theorem set_current_ne (h : k ≠ key) : (self.set key version).current k = self.current k :=
  Function.update_of_ne h ..

@[simp] theorem set_set : (self.set key version).set key version' = self.set key version' := by
  simp [set]

end Versions

namespace IndexWriter

/-- The published live rows of a key. -/
def rowsOfKey (w : IndexWriter) (cfg : WriterConfig) (key : String) : Multiset Document :=
  w.manager.rowsOf fun doc => doc.key cfg.field = key

/-- A writer whose deduplication was just initialized over an opened index. -/
structure Init (cfg : WriterConfig) (w : IndexWriter) (v : Versions) : Prop where
  manager : w.manager.Init
  /-- Each key has at most one live row in the opened index. -/
  rows : ∀ k, w.rowsOfKey cfg k = ((v.committed k).toList : Multiset Document)
  current : v.current = v.committed
  uncommitted : w.staging.keys.uncommitted = ∅
  deletes : w.staging.keys.deletes = []
  queue : w.staging.queue = []
  /-- All published segments are loaded, and the filter has their keys. -/
  loaded : ∃ loaded, { w with committedData := [] }.loadNewData cfg = .ok loaded ∧
    w.committedData.Perm loaded
  bloom : ∀ key ∈ PrimaryKeyState.dictKeys w.committedData,
    w.staging.keys.bloom.mayContain key = true
  workers : ∃ ws heap, freshWorkers ws heap = (w.workers, w.staging.heap) ∧
    (∀ x ∈ ws, x.received = none ∧ x.docs = [] ∧ x.building = none) ∧
    ∀ row, (heap.rows row).location = none
  builtSegments : w.builtSegments = []
  flushedSegments : w.flushedSegments = []
  phase : w.phase = .idle
  pkReservationsRetained : w.pkReservationsRetained = false
  cycleFailed : w.cycleFailed = false
  refresh : w.refresh = none

/-- A writer with the versions that its accepted calls define. -/
def system (cfg : WriterConfig) : Lts (IndexWriter × Versions) WriterEvent where
  init s := Init cfg s.1 s.2
  step s e s' := Step cfg s.1 e s'.1 ∧ s'.2 = s.2.apply cfg e

end IndexWriter

end Summa
