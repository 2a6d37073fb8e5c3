import Summa.Index.PrimaryKey
import Summa.Merge.Lifecycle

/-!
# The writer of a primary-key index (`index/writer.rs`)

One writer with its indexing workers, its prepared generation and its key state, over the segment
lifecycle. Calls, workers, the commit, the refresh of the committed readers and all other parties of
the lifecycle (`background`) interleave freely.

* Calls (`addDocument`, `upsertDocument`, `deletePrimaryKey`) are functions on the staging state.
* Workers take documents from the queue, attach them to the rows of their builders in any order and
  build segments; any failure marks the whole generation (`cycleFailed`).
* `prepare_commit` closes the queue and waits for the workers (`close`, `collect`); the prepared
  generation is committed, aborted, or kept for a retry (`failPublish`).
* After publication the committed readers are refreshed. While that has failed the reservations are
  retained (`pkReservationsRetained`). Replacements refresh the readers at any time.
-/

namespace Summa

open EState Fallible

/-- The schema of a primary-key index. -/
structure WriterConfig where
  schema : Schema
  field : Field
  primary : schema.primaryField = some field
  layout : PkLayout

/-- An indexing worker: the document it took from the queue, its builder, and the segment it is
building. -/
structure Worker where
  received : Option QueuedDocument
  stagedRows : Nat
  docs : List Document
  /-- The identity and the operation token of the segment that is being built. -/
  building : Option (SegmentId × Nat)

/-- The worker after its builder was taken, with a new staged segment. -/
def Worker.restart (self : Worker) (stagedRows : Nat) : Worker :=
  { self with stagedRows, docs := [], building := none }

/-- A built segment that is not published. -/
structure PreparedSegment where
  id : SegmentId
  token : Nat
  numDocs : Nat
  stagedRows : Nat
  deriving DecidableEq, Repr

/-- Where the writer is between `prepare_commit` and the end of the commit. -/
inductive CommitPhase where
  | idle
  /-- A `PreparedCommit` is held. -/
  | prepared
  /-- The finalizer runs; metadata is not published yet. -/
  | publishing
  /-- Metadata is published; the committed readers are not refreshed yet. -/
  | published
  deriving DecidableEq, Repr

inductive PrimaryKeyRefresh where
  | commit | replacement
  deriving DecidableEq, Repr

/-- A refresh that has loaded its segments and is not installed yet. It holds the refresh lock. -/
structure PendingRefresh where
  kind : PrimaryKeyRefresh
  newData : List PkSegmentData
  segmentIds : List SegmentId

/-- The single-writer lock of the directory. -/
inductive WriterLock where
  | held
  | unavailable (reason : String)
  /-- Acquiring it fails with an I/O error. -/
  | failed
  deriving DecidableEq, Repr

def WriterLock.ensure : WriterLock → Result Unit
  | .held => .ok ()
  | .unavailable reason => .error (.internal reason)
  | .failed => .error .io

structure IndexWriter where
  manager : Manager Document
  staging : Staging
  committedData : List PkSegmentData
  workers : List Worker
  builtSegments : List PreparedSegment
  flushedSegments : List PreparedSegment
  phase : CommitPhase
  /-- `doc_sender.is_closed()`. -/
  senderClosed : Bool
  pkReservationsRetained : Bool
  cycleFailed : Bool
  shutdown : Bool
  refresh : Option PendingRefresh

namespace IndexWriter

/-- `PIPELINE_MAX_SIZE_IN_DOCS`. -/
def pipelineMaxSizeInDocs : Nat := 10000

variable (self : IndexWriter)

/-- `commit_finalization.in_progress`. -/
def inProgress : Bool :=
  self.phase = .publishing || self.phase = .published

/-! ## Calls

`lock` is what `ensure_writer_lock` finds, `read` the outcome of the read of a stored content
hash. -/

/-- `sender.try_send`. -/
def trySend (doc : Document) (row : Nat) : Call Unit := fun s =>
  if self.senderClosed then .error .commitInProgress s
  else if s.queue.length ≥ pipelineMaxSizeInDocs then .error .queueFull s
  else .ok () { s with queue := s.queue ++ [⟨doc, row⟩] }

variable (cfg : WriterConfig)

variable (lock : WriterLock)

def enqueueDocument (doc : Document) (replace : Bool) : Call Unit := do
  check lock.ensure
  check (failIf self.shutdown .indexClosed)
  check (failIf self.inProgress .commitInProgress)
  check (failIf self.senderClosed .commitInProgress)
  -- Unencodable documents are rejected before they enter a worker queue.
  check (validateVectorValueCounts doc cfg.schema)
  let _ ← check (documentHash doc cfg.schema)
  PrimaryKeyIndex.admitDocument cfg.layout self.committedData cfg.schema cfg.field doc replace
    self.trySend

def addDocument (doc : Document) : Call Unit :=
  self.enqueueDocument cfg lock doc false

def deletePrimaryKey (key : String) : Call Unit := do
  check lock.ensure
  check (failIf self.shutdown .indexClosed)
  check (failIf (self.inProgress || self.senderClosed) .commitInProgress)
  check (failIf self.pkReservationsRetained .commitInProgress)
  let _ ← PrimaryKeyIndex.delete cfg.layout key

/-- The current version of the key has this content hash; a document without a hash is never
unchanged. -/
def hashUnchanged (keys : PrimaryKeyState)
    (read : Result Unit) (key : String) : Option FieldValue → Result Bool
  | none => .ok false
  | some hash =>
    match PrimaryKeyIndex.stagedHashMatches keys key hash with
    | some equal => .ok equal
    | none => do
      match ← PrimaryKeyIndex.contentHashTarget self.committedData keys key with
      | none => return false
      | some target => target.matches hash cfg.schema read

/-- Replace a committed row or insert a missing key. Equal content hashes are accepted no-ops. -/
def upsertDocument (read : Result Unit) (doc : Document) : Call Unit := do
  let key ← check (documentKey doc cfg.field)
  check (validateVectorValueCounts doc cfg.schema)
  let hash ← check (documentHash doc cfg.schema)
  check lock.ensure
  check (failIf self.shutdown .indexClosed)
  check (failIf
    (self.inProgress || self.senderClosed || self.pkReservationsRetained) .commitInProgress)
  let s ← get
  let unchanged ← check (self.hashUnchanged cfg s.keys read key hash)
  if unchanged then return else self.enqueueDocument cfg lock doc true

/-- Run a call on the staging state of the writer. -/
def call (c : Call Unit) : Result Unit × IndexWriter :=
  match c self.staging with
  | .ok _ staging => (.ok (), { self with staging })
  | .error e staging => (.error e, { self with staging })

/-! ## Workers -/

/-- Every worker has flushed: the queue is drained and no builder holds a document. -/
def flushed : Prop :=
  self.staging.queue = [] ∧ ∀ w ∈ self.workers, w.received = none ∧ w.docs = [] ∧ w.building = none

def withKeys (keys : PrimaryKeyState) : IndexWriter :=
  { self with staging := { self.staging with keys } }

/-! ## Commit and refresh -/

/-- `metadata_entries`. -/
def metadataEntries : List (SegmentId × Nat) :=
  self.flushedSegments.map fun p => (p.id, p.numDocs)

/-- `staged_deletions`: the prepared segments with a cancelled row. -/
def stagedDeletions : List (SegmentId × StagedSegment) :=
  (self.flushedSegments.filter fun p => (self.staging.heap.segments p.stagedRows).dead ≠ []).map
    fun p => (p.id, self.staging.heap.segments p.stagedRows)

/-- Every worker starts its next cycle with a new staged segment. -/
def freshWorkers : List Worker → StagedHeap → List Worker × StagedHeap
  | [], heap => ([], heap)
  | w :: ws, heap =>
    let rest := freshWorkers ws heap.newSegment.2
    ({ w with stagedRows := heap.newSegment.1 } :: rest.1, rest.2)

/-- A fresh channel for the workers. -/
def resumeWorkers : IndexWriter :=
  if self.shutdown then self
  else { self with
    staging := { self.staging with
      queue := []
      heap := (freshWorkers self.workers self.staging.heap).2 }
    workers := (freshWorkers self.workers self.staging.heap).1
    senderClosed := false
    cycleFailed := false }

/-- Skipped while a failed refresh has left the reservations as the only record of committed keys. -/
def clearUncommittedPkReservations : IndexWriter :=
  if self.pkReservationsRetained then self
  else self.withKeys self.staging.keys.clearUncommitted

/-- Drop the segments and the reservations of the generation. -/
def dropGeneration : IndexWriter :=
  { self with
    builtSegments := []
    flushedSegments := []
    phase := .idle }.clearUncommittedPkReservations

/-- Give the generation up. -/
def discard : IndexWriter := self.dropGeneration.resumeWorkers

/-- The mask of a segment in the metadata, with its row count. -/
def recordedDeletion (md : IndexMetadata) (id : SegmentId) : Option (Nat × DeletionMeta) :=
  (md.get id).bind fun info => info.deletions.map fun deletion => (info.numDocs, deletion)

/-- The segments whose readers are up to date. -/
def existingIds : List SegmentId :=
  (self.committedData.filter fun d =>
    d.deletionMeta = (recordedDeletion self.manager.metadata d.segmentId).map Prod.snd).map
      (·.segmentId)

/-- Load the segments that the committed readers do not hold. -/
def loadNewData : Result (List PkSegmentData) :=
  (self.manager.metadata.segmentIds.filter fun id => id ∉ self.existingIds).mapM fun id =>
    PkSegmentData.prepareLiveKeys <$> loadPkSegmentData self.manager.dir cfg.schema cfg.field id
      (recordedDeletion self.manager.metadata id)

/-- The committed readers after a refresh. -/
def refreshedData (r : PendingRefresh) : List PkSegmentData :=
  replaceCommittedData self.committedData r.newData r.segmentIds

/-- The segments that the writer owns: built, prepared and being built. -/
def ownedSegments : List (SegmentId × Nat) :=
  self.workers.filterMap (·.building) ++
    (self.builtSegments ++ self.flushedSegments).map fun p => (p.id, p.token)

end IndexWriter

/-- What a step of the writer means for the versions of the keys. -/
inductive WriterEvent where
  | add (doc : Document) (outcome : Result Unit)
  | upsert (doc : Document) (outcome : Result Unit)
  | delete (key : String) (outcome : Result Unit)
  /-- A commit that returns without error. -/
  | commit
  /-- The generation is given up. -/
  | discard
  | internal

namespace IndexWriter

variable {cfg : WriterConfig}

/-- The steps of the writer and of everybody else. -/
inductive Step (cfg : WriterConfig) : IndexWriter → WriterEvent → IndexWriter → Prop
  | add {s : IndexWriter} (lock : WriterLock) (doc : Document) :
    Step cfg s (.add doc (s.call (s.addDocument cfg lock doc)).1)
      (s.call (s.addDocument cfg lock doc)).2
  | upsert {s : IndexWriter} (lock : WriterLock) (read : Result Unit) (doc : Document) :
    Step cfg s (.upsert doc (s.call (s.upsertDocument cfg lock read doc)).1)
      (s.call (s.upsertDocument cfg lock read doc)).2
  | delete {s : IndexWriter} (lock : WriterLock) (key : String) :
    Step cfg s (.delete key (s.call (s.deletePrimaryKey cfg lock key)).1)
      (s.call (s.deletePrimaryKey cfg lock key)).2
  /-- A worker takes the next document of the queue. -/
  | receive {s : IndexWriter} {q queue pre w post} (hq : s.staging.queue = q :: queue)
    (hw : s.workers = pre ++ w :: post) (hrec : w.received = none) (hidle : w.building = none) :
    Step cfg s .internal { s with
      staging := { s.staging with queue }
      workers := pre ++ { w with received := some q } :: post }
  /-- It attaches the document to the next row of its builder and indexes it. -/
  | attach {s : IndexWriter} {q pre w post heap} (hw : s.workers = pre ++ w :: post)
    (hrec : w.received = some q)
    (hattach : s.staging.heap.attach q.row w.stagedRows w.docs.length = (true, heap)) :
    Step cfg s .internal { s with
      staging := { s.staging with heap }
      workers := pre ++ { w with received := none, docs := w.docs ++ [q.doc] } :: post }
  /-- The document was cancelled in the queue. -/
  | skip {s : IndexWriter} {q pre w post heap} (hw : s.workers = pre ++ w :: post)
    (hrec : w.received = some q)
    (hattach : s.staging.heap.attach q.row w.stagedRows w.docs.length = (false, heap)) :
    Step cfg s .internal { s with
      staging := { s.staging with heap }
      workers := pre ++ { w with received := none } :: post }
  /-- Creating the builder fails, or indexing an attached document fails. -/
  | failDocument {s : IndexWriter} {q pre w post heap} (hw : s.workers = pre ++ w :: post)
    (hrec : w.received = some q)
    (hheap : heap = s.staging.heap ∨
      s.staging.heap.attach q.row w.stagedRows w.docs.length = (true, heap)) :
    Step cfg s .internal { s with
      staging := { s.staging with heap }
      workers := pre ++ { w with received := none } :: post
      cycleFailed := true }
  /-- The generation has failed: documents are only drained. -/
  | drain {s : IndexWriter} {q pre w post} (hw : s.workers = pre ++ w :: post)
    (hrec : w.received = some q) (hfail : s.cycleFailed = true) :
    Step cfg s .internal { s with workers := pre ++ { w with received := none } :: post }
  /-- A worker claims the identity of the segment that it is going to build. -/
  | claimSegment {s : IndexWriter} {pre w post id active guard} (hw : s.workers = pre ++ w :: post)
    (hrec : w.received = none) (hdocs : w.docs ≠ []) (hidle : w.building = none)
    (hid : id ∉ s.manager.used)
    (hreg : s.manager.active.tryRegisterIndexing [id] = some (active, guard)) :
    Step cfg s .internal { s with
      manager := s.manager.start active guard (.segment id) {id}
      workers := pre ++ { w with building := some (id, guard.operationToken) } :: post }
  /-- The segment is written. The builder starts again with a new staged segment. -/
  | buildSegment {s : IndexWriter} {pre w post id token} (hw : s.workers = pre ++ w :: post)
    (hbuild : w.building = some (id, token)) (hnew : s.manager.dir id = none)
    (hlen : w.docs.length < 2 ^ 32) :
    Step cfg s .internal { s with
      manager := s.manager.writeFile id (some (.segment w.docs))
      staging := { s.staging with heap := s.staging.heap.newSegment.2 }
      workers := pre ++ w.restart s.staging.heap.newSegment.1 :: post
      builtSegments := s.builtSegments ++ [⟨id, token, w.docs.length, w.stagedRows⟩] }
  /-- The build fails, or a failed generation is not built. -/
  | failSegment {s : IndexWriter} {pre w post} (hw : s.workers = pre ++ w :: post)
    (hrec : w.received = none) (hdocs : w.docs ≠ []) :
    Step cfg s .internal { s with
      staging := { s.staging with heap := s.staging.heap.newSegment.2 }
      workers := pre ++ w.restart s.staging.heap.newSegment.1 :: post
      cycleFailed := true }
  /-- `prepare_commit` closes the queue. -/
  | close {s : IndexWriter} (hphase : s.phase = .idle) (hopen : s.shutdown = false) :
    Step cfg s .internal { s with senderClosed := true }
  /-- All workers have flushed: the built segments are the prepared generation. -/
  | collect {s : IndexWriter} (hphase : s.phase = .idle) (hopen : s.shutdown = false)
    (hclosed : s.senderClosed = true) (hflush : s.flushed) (hok : s.cycleFailed = false) :
    Step cfg s .internal { s with
      builtSegments := []
      flushedSegments := s.flushedSegments ++ s.builtSegments
      phase := .prepared }
  /-- A generation with an error is not published in part. -/
  | discardFailed {s : IndexWriter} (hphase : s.phase = .idle) (hopen : s.shutdown = false)
    (hclosed : s.senderClosed = true) (hflush : s.flushed) (hfail : s.cycleFailed = true) :
    Step cfg s .discard s.discard
  /-- The prepared generation is aborted or dropped. -/
  | abort {s : IndexWriter} (hphase : s.phase = .prepared) : Step cfg s .discard s.discard
  /-- There is nothing to commit. -/
  | commitNothing {s : IndexWriter} (hphase : s.phase = .prepared) (hseg : s.flushedSegments = [])
    (hdel : s.staging.keys.deletes = []) :
    Step cfg s .commit { s with phase := .idle }.resumeWorkers
  | beginCommit {s : IndexWriter} (hphase : s.phase = .prepared)
    (hsome : s.flushedSegments ≠ [] ∨ s.staging.keys.deletes ≠ []) :
    Step cfg s .internal { s with phase := .publishing }
  /-- The metadata is published, with the pending deletions and the cancelled rows. -/
  | publish {s : IndexWriter} {env manager} (hphase : s.phase = .publishing)
    (hkey : env.key = fun doc => doc.key cfg.field) (hprimary : env.primaryField = true)
    (hcommit : Manager.Step s.manager
      (.commit env s.metadataEntries s.staging.keys.deletes s.stagedDeletions) manager) :
    Step cfg s .commit ({ s with
      manager
      flushedSegments := []
      phase := .published }.withKeys s.staging.keys.markDeletesPublished)
  /-- The same with `CommitMode::Shutdown`: no refresh, the workers stay paused. -/
  | publishShutdown {s : IndexWriter} {env manager} (hphase : s.phase = .publishing)
    (hkey : env.key = fun doc => doc.key cfg.field) (hprimary : env.primaryField = true)
    (hcommit : Manager.Step s.manager
      (.commit env s.metadataEntries s.staging.keys.deletes s.stagedDeletions) manager) :
    Step cfg s .commit ({ s with
      manager
      flushedSegments := []
      phase := .idle
      pkReservationsRetained := true }.withKeys s.staging.keys.markDeletesPublished)
  /-- The publication fails before the metadata is saved; the generation stays for a retry. -/
  | failPublish {s : IndexWriter} (hphase : s.phase = .publishing) :
    Step cfg s .internal { s with phase := .idle }
  /-- A refresh takes the lock and loads the segments that it does not hold. -/
  | beginRefresh {s : IndexWriter} (kind : PrimaryKeyRefresh) {loaded newData}
    (hlock : s.refresh = none) (hkind : kind = .commit → s.phase = .published)
    (hload : s.loadNewData cfg = .ok loaded) (hperm : newData.Perm loaded) :
    Step cfg s .internal
      { s with refresh := some ⟨kind, newData, s.manager.metadata.segmentIds⟩ }
  | finishReplacement {s : IndexWriter} {r} (hr : s.refresh = some r) (hkind : r.kind = .replacement) :
    Step cfg s .internal { s with committedData := s.refreshedData r, refresh := none }
  | failReplacement {s : IndexWriter} {r} (hr : s.refresh = some r) (hkind : r.kind = .replacement) :
    Step cfg s .internal { s with refresh := none }
  /-- The refresh of a commit succeeds: the reservations go and the workers resume. -/
  | finishCommit {s : IndexWriter} {r} (hr : s.refresh = some r) (hkind : r.kind = .commit) :
    Step cfg s .internal ({ s with
      committedData := s.refreshedData r
      refresh := none
      pkReservationsRetained := false
      phase := .idle }.withKeys (s.staging.keys.refreshData r.newData)).resumeWorkers
  /-- It fails: the reservations are retained. -/
  | failCommitRefresh {s : IndexWriter} (hphase : s.phase = .published)
    (hlock : ∀ r, s.refresh = some r → r.kind = .commit) :
    Step cfg s .internal { s with
      refresh := none
      pkReservationsRetained := true
      phase := .idle }.resumeWorkers
  | signalShutdown {s : IndexWriter} :
    Step cfg s .internal { s with shutdown := true, senderClosed := true }
  /-- Any other party of the lifecycle. It does not touch the operations of the writer. -/
  | background {s : IndexWriter} {e manager} (hstep : Manager.Step s.manager e manager)
    (hcommit : ∀ env newSegments keys staged, e ≠ .commit env newSegments keys staged)
    (hown : ∀ p ∈ s.ownedSegments, manager.ops p.2 = s.manager.ops p.2) :
    Step cfg s .internal { s with manager }

end IndexWriter

end Summa
