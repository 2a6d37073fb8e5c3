import Summa.Lib.Lts
import Summa.Segment.Tracker
import Summa.Merge.ActiveOperations
import Summa.Merge.Ownership

/-!
# The segment lifecycle of one index

All parties that add, replace, read and delete the files of an index, as one transition system.
The metadata, the tracker and the active operations are the manager's three owners; an operation is
a guard with what it is doing (`Task`). A metadata transaction runs under the state lock, so it is
one step; between two steps of an operation any other party may run.

* Producers: `beginSegment`, `beginRewrite`, `beginVector` claim their identities, then write their
  output. Merges, reorders, rewrites and compactions are `rewrite` tasks.
* Publications: `commit`, `publish`, `publishVectors`, with the functions of `Publication.lean` and
  `Replace.lean`; `failTransaction` is one that does not get through.
* Deletions: the retired identities (`deleteRetired`), a claimed output or orphan (`deleteClaimed`),
  and the cleanup of a dropped operation, which no longer holds a claim (`deleteDetached`).
* Readers: `acquireSnapshot`, `dropSnapshot`.
-/

namespace Summa

open Function

/-- What an operation is doing with the identities it claims. -/
inductive Task (ρ : Type) where
  /-- An indexing producer of a new segment. -/
  | segment (id : SegmentId)
  /-- A producer of the output of a replacement; `rows` are the rows it read. -/
  | rewrite (r : Replacement) (rows : List ρ)
  | vector (staged : StagedVectorSegment) (rows : List ρ)
  /-- Deleting the files of an identity: an orphan, or the output of a failed task with these
  sources. -/
  | deleting (id : SegmentId) (sources : List SegmentId)
  /-- Published or given up; the guard is still to be dropped. -/
  | closed (output : Option SegmentId)

namespace Task

variable {ρ : Type}

/-- The identity that the task may still publish. -/
def output : Task ρ → Option SegmentId
  | .segment id => some id
  | .rewrite r _ => some r.newId
  | .vector staged _ => some staged.outputId
  | .deleting _ _ | .closed _ => none

/-- The segments that the publication of the task would replace. -/
def sources : Task ρ → List SegmentId
  | .rewrite r _ => r.oldIds
  | .vector staged _ => [staged.sourceId]
  | .deleting _ sources => sources
  | .segment _ | .closed _ => []

/-- The identity whose files the task deletes. -/
def deletes : Task ρ → Option SegmentId
  | .deleting id _ => some id
  | .segment _ | .rewrite _ _ | .vector _ _ | .closed _ => none

/-- The task is done with its identities; only its guard is left. -/
def isClosed : Task ρ → Bool
  | .closed _ => true
  | .segment _ | .rewrite _ _ | .vector _ _ | .deleting _ _ => false

/-- The file that the task writes as its output, once it knows it. -/
def writes : Task ρ → Option (File ρ)
  | .rewrite _ rows | .vector _ rows => some (.segment rows)
  | .segment _ | .deleting _ _ | .closed _ => none

/-- The output that the unwind cleanup of the task deletes. -/
def cleanup : Task ρ → Option SegmentId
  | .rewrite r _ => some r.newId
  | .vector staged _ => some staged.outputId
  | .closed output => output
  | .segment _ | .deleting _ _ => none

end Task

structure Operation (ρ : Type) where
  guard : SegmentOperationGuard
  task : Task ρ

/-- The state of the segment manager, its directory and its readers. -/
structure Manager (ρ : Type) where
  metadata : IndexMetadata
  dir : Directory ρ
  tracker : SegmentTracker
  active : ActiveOperationState
  /-- The running operations, by token. -/
  ops : Nat → Option (Operation ρ)
  /-- The identities that each live snapshot holds. -/
  snapshots : List (List SegmentId)
  /-- Outputs of dropped operations whose cleanup has not run yet. -/
  pendingCleanup : Finset SegmentId
  /-- Outputs of dropped operations that were not in the metadata when their cleanup ran. -/
  detached : Finset SegmentId
  /-- Every identity that was ever generated. -/
  used : Finset SegmentId

/-- Who deletes a file. -/
inductive Deleter where
  /-- The tracker, after the identity was retired and its last holder is gone. -/
  | retired
  /-- An operation that claims the identity. -/
  | claimed (token : Nat)
  /-- The cleanup of a dropped operation. -/
  | detached
  deriving DecidableEq, Repr

/-- What a step does to the published state or to files. -/
inductive Event (ρ : Type) where
  | commit (env : TxEnv ρ) (newSegments : List (SegmentId × Nat)) (keys : List String)
    (staged : List (SegmentId × StagedSegment))
  | replace (r : Replacement)
  | replaceVectors (staged : List StagedVectorSegment)
  | delete (deleter : Deleter) (id : SegmentId)
  | internal

namespace Manager

variable {ρ : Type}

variable (s : Manager ρ)

def guards (t : Nat) : Option SegmentOperationGuard := (s.ops t).map (·.guard)

/-- The number of holds of an identity. -/
def held (i : SegmentId) : Nat := (s.snapshots.map fun snap => snap.count i).sum

/-- Start an operation. -/
def start (active : ActiveOperationState) (guard : SegmentOperationGuard)
    (task : Task ρ) (fresh : Finset SegmentId) : Manager ρ :=
  { s with
    active
    ops := update s.ops guard.operationToken (some ⟨guard, task⟩)
    used := s.used ∪ fresh }

/-- The operation with token `t` goes on with `task`. -/
def setTask (t : Nat) (op : Operation ρ) (task : Task ρ) : Manager ρ :=
  { s with ops := update s.ops t (some { op with task }) }

/-- Claim the deletion files of a transaction, one guard each. The claims outlive the publication;
in the source they come before the files, which one step does not show. -/
def claimMasks : List SegmentId → Manager ρ → Option (Manager ρ)
  | [], s => some s
  | id :: ids, s =>
    match s.active.tryRegisterIndexing [id] with
    | none => none
    | some (active, guard) => claimMasks ids (s.start active guard (.closed none) {id})

/-- Install a publication: metadata, deletion files, tracker. -/
def install (pub : Publication) : Manager ρ :=
  { s with
    metadata := pub.next
    dir := s.dir.writeAll pub.written
    tracker := ((pub.registered.foldl SegmentTracker.register s.tracker).markForDeletion
      pub.retired).1
    used := s.used ∪ (pub.written.map Prod.fst).toFinset }

/-- The operations after the vector rewrites in `staged` are published. -/
def closeVectors (staged : List StagedVectorSegment) : Manager ρ :=
  { s with ops := fun t => (s.ops t).map fun op =>
      match op.task with
      | .vector v _ => if v ∈ staged then { op with task := .closed (some v.outputId) } else op
      | _ => op }

/-- The rows that a rewrite reads: all rows of its sources, or the live rows for a compaction. -/
def readRows (r : Replacement) : List ρ :=
  if r.layout = .compacted then r.oldIds.flatMap (liveRows s.dir s.metadata)
  else r.oldIds.flatMap fun id => (s.dir.rows id).getD []

/-- The visibility that a compaction reads; the other rewrites read none. -/
def readDeletions (r : Replacement) : Option (List (SegmentId × Option DeletionMeta)) :=
  if r.layout = .compacted then
    some (r.oldIds.map fun id => (id, ((s.metadata.get id).map (·.deletions)).getD none))
  else none

def writeFile (id : SegmentId) (file : Option (File ρ)) : Manager ρ :=
  { s with dir := update s.dir id file }

@[simp] theorem dir_writeFile_self (id : SegmentId) (file : Option (File ρ)) :
    (s.writeFile id file).dir id = file :=
  update_self _ _ _

theorem dir_writeFile_ne {id i : SegmentId} (h : i ≠ id) (file : Option (File ρ)) :
    (s.writeFile id file).dir i = s.dir i :=
  update_of_ne h _ _

/-- The steps of the lifecycle. -/
inductive Step : Manager ρ → Event ρ → Manager ρ → Prop
  /-- An indexing worker claims a new segment. -/
  | beginSegment {s : Manager ρ} {id active guard} (hid : id ∉ s.used)
    (hreg : s.active.tryRegisterIndexing [id] = some (active, guard)) :
    Step s .internal (s.start active guard (.segment id) {id})
  /-- Its builder writes the segment. -/
  | writeSegment {s : Manager ρ} {t op id} (rows : List ρ) (hop : s.ops t = some op)
    (htask : op.task = .segment id) (hnew : s.dir id = none) (hlen : rows.length < 2 ^ 32) :
    Step s .internal (s.writeFile id (some (.segment rows)))
  /-- A prepared generation is committed. Its segments are still claimed by their producers. -/
  | commit {s s' : Manager ρ} {env newSegments keys staged pub}
    (hprep : ∀ n ∈ newSegments, ∃ t op, s.ops t = some op ∧ op.task = .segment n.1)
    (hinj : Function.Injective env.newId) (hnew : ∀ i, env.newId i ∉ s.used)
    (hpub : commitWithDeletes env s.dir s.metadata newSegments keys staged = .ok pub)
    (hclaim : claimMasks (pub.written.map Prod.fst) (s.install pub) = some s') :
    Step s (.commit env newSegments keys staged) s'
  /-- A transaction fails after it wrote some deletion files; their cleanup is spawned. -/
  | failTransaction {s : Manager ρ} (files : List (SegmentId × List Byte))
    (hnew : ∀ w ∈ files, w.1 ∉ s.used) :
    Step s .internal { s with
      dir := s.dir.writeAll files
      pendingCleanup := s.pendingCleanup ∪ (files.map Prod.fst).toFinset
      used := s.used ∪ (files.map Prod.fst).toFinset }
  /-- A merge, reorder, rewrite or compaction claims live sources and a new output. -/
  | beginRewrite {s : Manager ρ} {r active guard vectorUpdate} (hnodup : r.oldIds.Nodup)
    (hsrc : ∀ id ∈ r.oldIds, s.metadata.hasSegment id = true) (hid : r.newId ∉ s.used)
    (hone : r.layout = .compacted → ∃ id info deletion, r.oldIds = [id] ∧
      s.metadata.get id = some info ∧ info.deletions = some deletion)
    (hcount : r.docCount = (s.readRows r).length) (hlen : r.docCount < 2 ^ 32)
    (hexp : r.expectedDeletions = s.readDeletions r)
    (hreg : s.active.tryRegisterKind (r.oldIds ++ [r.newId]) false vectorUpdate =
      some (active, guard)) :
    Step s .internal (s.start active guard (.rewrite r (s.readRows r)) {r.newId})
  | writeRewrite {s : Manager ρ} {t op r rows} (hop : s.ops t = some op)
    (htask : op.task = .rewrite r rows) :
    Step s .internal (s.writeFile r.newId (some (.segment rows)))
  | publish {s s' : Manager ρ} {t op r rows env reader pub} (hop : s.ops t = some op)
    (htask : op.task = .rewrite r rows)
    (hinj : Function.Injective env.newId) (hnew : ∀ i, env.newId i ∉ s.used)
    (hpub : r.replaceSegments env s.dir s.metadata reader = .ok pub)
    (hclaim : claimMasks (pub.written.map Prod.fst)
      ((s.setTask t op (.closed (some r.newId))).install pub) = some s') :
    Step s (.replace r) s'
  | beginVector {s : Manager ρ} {staged : StagedVectorSegment} {active guard}
    (hsrc : s.metadata.hasSegment staged.sourceId = true) (hid : staged.outputId ∉ s.used)
    (hreg : s.active.tryRegisterVectorUpdate [staged.sourceId, staged.outputId] =
      some (active, guard)) :
    Step s .internal (s.start active guard
      (.vector staged ((s.dir.rows staged.sourceId).getD [])) {staged.outputId})
  | writeVector {s : Manager ρ} {t op staged rows} (hop : s.ops t = some op)
    (htask : op.task = .vector staged rows) :
    Step s .internal (s.writeFile staged.outputId (some (.segment rows)))
  /-- The staged vector segments of one update are published together. -/
  | publishVectors {s : Manager ρ} {staged : List StagedVectorSegment} {pub}
    (hprep : ∀ v ∈ staged, ∃ t op rows, s.ops t = some op ∧ op.task = .vector v rows)
    (hpub : publishVectorGeneration s.dir s.metadata staged = .ok pub) :
    Step s (.replaceVectors staged) ((s.closeVectors staged).install pub)
  /-- A producer gives up: its output is deleted under its claim, unless it is published. -/
  | failOutput {s : Manager ρ} {t op id} (hop : s.ops t = some op) (htask : op.task.output = some id) :
    Step s .internal
      (s.setTask t op (if s.metadata.ownsId id then .closed none else .deleting id op.task.sources))
  /-- The orphan sweeper claims an identity that nobody protects. -/
  | sweep {s : Manager ρ} {id active guard} (hid : id ∈ s.used) (howns : s.metadata.ownsId id = false)
    (hreg : s.active.tryRegister [id] = some (active, guard))
    (hprot : s.tracker.isDeletionProtected id = false) :
    Step s .internal (s.start active guard (.deleting id []) ∅)
  | deleteClaimed {s : Manager ρ} {t op id} (hop : s.ops t = some op)
    (htask : op.task.deletes = some id) :
    Step s (.delete (.claimed t) id) (s.writeFile id none)
  /-- An operation ends, or is cancelled with its cleanup disarmed. -/
  | drop {s : Manager ρ} {t op} (hop : s.ops t = some op) :
    Step s .internal { s with
      active := s.active.dropGuard op.guard
      ops := update s.ops t none }
  /-- An operation is cancelled with its cleanup armed: the claim goes, the cleanup runs later. -/
  | abandon {s : Manager ρ} {t op id} (hop : s.ops t = some op) (htask : op.task.cleanup = some id) :
    Step s .internal { s with
      active := s.active.dropGuard op.guard
      ops := update s.ops t none
      pendingCleanup := insert id s.pendingCleanup }
  /-- `delete_output_if_unregistered` looks at the metadata, then deletes without any lock. -/
  | checkCleanup {s : Manager ρ} {id} (hid : id ∈ s.pendingCleanup) :
    Step s .internal { s with
      pendingCleanup := s.pendingCleanup.erase id
      detached := if s.metadata.ownsId id then s.detached else insert id s.detached }
  | deleteDetached {s : Manager ρ} {id} (hid : id ∈ s.detached) :
    Step s (.delete .detached id) (s.writeFile id none)
  | finishDetached {s : Manager ρ} {id} :
    Step s .internal { s with detached := s.detached.erase id }
  | deleteRetired {s : Manager ρ} {id} (hid : id ∈ s.tracker.scheduledDeletions) :
    Step s (.delete .retired id) (s.writeFile id none)
  | completeDeletion {s : Manager ρ} (ids : List SegmentId) :
    Step s .internal { s with tracker := s.tracker.completeDeletion ids }
  /-- A reader takes a snapshot of published identities. -/
  | acquireSnapshot {s : Manager ρ} (ids : List SegmentId) (hids : ∀ i ∈ ids, i ∈ s.metadata.ownedIds) :
    Step s .internal { s with
      tracker := (s.tracker.acquire ids).1
      snapshots := (s.tracker.acquire ids).2 :: s.snapshots }
  | dropSnapshot {s : Manager ρ} {snap} (hsnap : snap ∈ s.snapshots) :
    Step s .internal { s with
      tracker := (s.tracker.release snap).1
      snapshots := s.snapshots.erase snap }
  | stopMaintenance {s : Manager ρ} :
    Step s .internal { s with active := s.active.stopMaintenance }
  | stopAccepting {s : Manager ρ} : Step s .internal { s with active := s.active.stopAccepting }
  | pauseNonIndexing {s : Manager ρ} :
    Step s .internal { s with active := s.active.pauseNonIndexing }
  | resumeNonIndexing {s : Manager ρ} :
    Step s .internal { s with active := s.active.resumeNonIndexing }

/-- An index that was just opened: its published files are there, nothing runs. -/
structure Init : Prop where
  wellFormed : WellFormed s.dir s.metadata
  rows : ∀ i rows, s.dir.rows i = some rows → rows.length < 2 ^ 32
  tracker : s.tracker = ⟨fun i => if s.metadata.ownsId i then some 0 else none, ∅, ∅⟩
  active : s.active = .new
  ops : s.ops = fun _ => none
  snapshots : s.snapshots = []
  pendingCleanup : s.pendingCleanup = ∅
  detached : s.detached = ∅
  used : ∀ i, s.dir i ≠ none → i ∈ s.used

/-- The lifecycle of an index with rows `ρ`. -/
def lifecycle (ρ : Type) : Lts (Manager ρ) (Event ρ) where
  init := Init
  step := Step

end Manager

end Summa
