import Summa.Dsl.Document
import Summa.Index.StagedRow
import Summa.Lib.EState
import Summa.Structures.Bloom

/-!
# The primary-key index (`index/primary_key.rs`, `index/content_hash.rs`)

The deduplication state of a writer: a Bloom filter, the latest staged row of each key
(`uncommitted`), the keys staged for deletion and the byte accounts of both, over the readers of the
committed segments (`PkSegmentData`).

The functions that change the state run in `Call`, where the state survives an error: that a
rejected call changes nothing is a theorem about them and not a property of the monad. `accept` of
`admitDocument` is the caller's queue.
-/

namespace Summa

/-! ## The readers of the committed segments -/

/-- `NO_ROW`. -/
def noRow : Nat := u32Max

/-- The row of each live key of a segment, by ordinal; `none` selects the scan. -/
structure ContentHashLookup where
  /-- The document store of the segment. -/
  store : List Document
  rows : Option (List Nat)
  deriving DecidableEq, Repr

/-- What a writer reads of one committed segment. -/
structure PkSegmentData where
  segmentId : SegmentId
  /-- The segment whose files the readers have open. -/
  rows : List Document
  contentHash : Option ContentHashLookup
  deletionMeta : Option DeletionMeta
  aliveDocs : Option DocBitset
  liveKeyOrdinals : Option DocBitset
  /-- The column of the primary field. -/
  fastField : Option FastFieldReader
  deriving DecidableEq, Repr

namespace PkSegmentData

/-- Row `n` is alive in the loaded visibility; without one every row is. -/
def alive (self : PkSegmentData) (n : Nat) : Bool := self.aliveDocs.all (·.contains n)

/-- One scan at visibility refresh: the ordinals of the live keys. -/
def liveOrdinals (alive : DocBitset) (column : FastFieldReader) : DocBitset :=
  column.scanSingleValues.foldl (fun keys v =>
    if alive.contains v.1 && decide (v.2 < column.dict.length) then keys.set v.2 else keys)
    (.new column.dict.length)

def prepareLiveKeys (self : PkSegmentData) : PkSegmentData :=
  if self.liveKeyOrdinals.isSome then self
  else match self.aliveDocs, self.fastField with
    | some alive, some column =>
      if column.columnType = .textOrdinal then
        { self with liveKeyOrdinals := some (liveOrdinals alive column) }
      else self
    | _, _ => self

/-- The key is in the dictionary of the segment, at an ordinal that a live row has. -/
def hasLiveKey (self : PkSegmentData) (key : String) : Bool :=
  match self.fastField.bind (·.textOrdinal key) with
  | none => false
  | some ordinal => self.liveKeyOrdinals.all (·.contains (ordinal % 2 ^ 32))

end PkSegmentData

namespace ContentHashLookup

/-- `MAX_ROW_LOOKUP_BYTES`. -/
def maxRowLookupBytes : Nat := 64 * 1024 * 1024

/-- Enter one value of the column in the row table. -/
def fillRow (data : PkSegmentData) (rows : List Nat) (v : Nat × Nat) : Result (List Nat) :=
  if !data.alive v.1 then .ok rows
  else match rows[v.2]? with
    | none => .error (.corruption "invalid primary-key ordinal")
    | some row =>
      if row ≠ noRow then .error (.corruption "multiple live rows share a primary key")
      else .ok (rows.set v.2 v.1)

def new (store : List Document) (column : FastFieldReader) (data : PkSegmentData) :
    Result ContentHashLookup :=
  if column.columnType ≠ .textOrdinal then
    .error (.corruption "primary-key dictionary is missing")
  else if column.multi ∨ column.numDocs ≠ store.length then
    .error (.corruption "primary-key column and document store disagree")
  else if column.dict.length > maxRowLookupBytes / 4 then .ok ⟨store, none⟩
  else do
    let rows ← column.scanSingleValues.foldlM (fillRow data)
      (List.replicate column.dict.length noRow)
    return ⟨store, some rows⟩

/-- One value of the column in the scan for `ordinal`. -/
def scanRow (data : PkSegmentData) (ordinal row : Nat) (v : Nat × Nat) : Result Nat :=
  if v.2 = ordinal ∧ data.alive v.1 then
    if row ≠ noRow then .error (.corruption "multiple live rows share a primary key")
    else .ok v.1
  else .ok row

/-- The row of an ordinal, from the table or by a scan; `noRow` if there is none. -/
def findRow (self : ContentHashLookup) (ordinal : Nat) (column : FastFieldReader)
    (data : PkSegmentData) : Result Nat :=
  match self.rows with
  | some rows => .ok ((rows[ordinal]?).getD noRow)
  | none => column.scanSingleValues.foldlM (scanRow data ordinal) noRow

def row (self : ContentHashLookup) (ordinal : Nat) (column : FastFieldReader)
    (data : PkSegmentData) : Result Nat := do
  let row ← self.findRow ordinal column data
  if row = noRow then .error (.corruption "live primary key has no document row")
  else return row

end ContentHashLookup

/-- The visibility of a segment; `deletion` is the row count and the mask of its record. -/
def loadAlive (dir : Directory Document) : Option (Nat × DeletionMeta) → Result (Option DocBitset)
  | none => .ok none
  | some (numDocs, mask) => do
    let alive ← mask.load (dir.deletionFile mask.id) numDocs
    return some alive

/-- Load what the writer reads of a segment. -/
def loadPkSegmentData (dir : Directory Document) (schema : Schema) (field : Field) (id : SegmentId)
    (deletion : Option (Nat × DeletionMeta)) : Result PkSegmentData :=
  match dir.rows id with
  | none => .error .io
  | some rows => do
    let column := FastFieldReader.ofKeys (rows.map (·.key field))
    let alive ← loadAlive dir deletion
    let data : PkSegmentData := {
      segmentId := id
      rows
      contentHash := none
      deletionMeta := deletion.map Prod.snd
      aliveDocs := alive
      liveKeyOrdinals := none
      fastField := some column }
    if schema.contentHashField = none then return data
    let lookup ← ContentHashLookup.new rows column data
    return { data with contentHash := some lookup }

/-! ## The state -/

/-- The sizes of the platform's types and the growth of its hash map. -/
structure PkLayout where
  /-- `KEY_SLOT_BYTES`. -/
  keySlotBytes : Nat
  /-- `size_of::<StagedRow>()`. -/
  stagedRowBytes : Nat
  /-- `size_of::<usize>()`. -/
  usizeBytes : Nat
  /-- The capacity of the map after an insertion, from the capacity before and the new length. -/
  growCapacity : Nat → Nat → Nat

/-- The latest staged row of a key. -/
structure PendingKey where
  row : Nat
  hash : Option FieldValue
  bytes : Nat
  deriving DecidableEq, Repr

structure PrimaryKeyState where
  bloom : BloomFilter
  uncommitted : AList fun _ : String => PendingKey
  /-- `uncommitted.capacity()`. -/
  capacity : Nat
  pendingBytes : Nat
  cancelledBytes : Nat
  deletes : List String
  deleteBytes : Nat

def maxPendingKeyBytes : Nat := 64 * 1024 * 1024

/-- `CANCELLED_ROW_BYTES`. -/
def cancelledRowBytes : Nat := 4 * 4

variable (layout : PkLayout)

def PkLayout.pendingBytes (key : String) (hash : Option FieldValue) : Nat :=
  layout.keySlotBytes + layout.stagedRowBytes + 2 * layout.usizeBytes + key.utf8ByteSize +
    match hash with
    | some (.text value) => value.utf8ByteSize
    | some (.bytes value) => value.length
    | _ => 0

variable (state : PrimaryKeyState)

/-- The bytes of the staged map when an entry of `old` bytes becomes one of `new` bytes; 0 stands
for no entry. The map may grow on the accepted insertion, to a conservative next capacity. -/
def pendingUsed (old new cancelled : Nat) : Nat :=
  let nextLen := state.uncommitted.entries.length + (if new > 0 then 1 else 0) -
    if old > 0 then 1 else 0
  let capacity := if nextLen > state.capacity then max (nextLen * 2) 3 else state.capacity
  let payload := state.pendingBytes - old + new - nextLen * layout.keySlotBytes
  payload + capacity * layout.keySlotBytes + state.cancelledBytes + cancelled

def checkPendingBudget (old new cancelled : Nat) :
    Result Unit :=
  if pendingUsed layout state old new cancelled > maxPendingKeyBytes then
    .error (.document "pending primary-key metadata exceeds 64 MiB; commit before continuing")
  else .ok ()

def validateMutationKey (key : String) : Result Unit :=
  if key = "" ∨ key.utf8ByteSize > 64 * 1024 then
    .error (.document "deletion key must contain 1..=65536 bytes")
  else .ok ()

def checkDeleteBudget (key : String) : Result Unit :=
  if key ∉ state.deletes ∧ (state.deletes.length ≥ 100000 ∨
      state.deleteBytes + key.utf8ByteSize > 8 * 1024 * 1024) then
    .error (.document "pending deletions exceed 100000 keys or 8 MiB; commit before continuing")
  else .ok ()

def stageDelete (key : String) : Bool × PrimaryKeyState :=
  if key ∈ state.deletes then (false, state)
  else (true, { state with
    deleteBytes := state.deleteBytes + key.utf8ByteSize
    deletes := state.deletes ++ [key] })

/-! ## Calls -/

structure QueuedDocument where
  doc : Document
  row : Nat
  deriving DecidableEq, Repr

/-- What the calls of a writer change: the keys, the staged rows and the indexing queue. -/
structure Staging where
  keys : PrimaryKeyState
  heap : StagedHeap
  queue : List QueuedDocument

/-- A call on the staging state, which an error does not restore. -/
abbrev Call (α : Type) := EStateM Error Staging α

/-- `Arc::new(StagedRow::default())`. -/
def Call.newRow : Call Nat := fun s => .ok s.heap.newRow.1 { s with heap := s.heap.newRow.2 }

/-- Drop the staged entry of a key and cancel its row. -/
def Staging.removePending (self : Staging) (key : String) : Staging :=
  match self.keys.uncommitted.lookup key with
  | none => self
  | some old => { self with
    keys := { self.keys with
      uncommitted := self.keys.uncommitted.erase key
      pendingBytes := self.keys.pendingBytes - old.bytes
      cancelledBytes := self.keys.cancelledBytes + cancelledRowBytes }
    heap := self.heap.cancel old.row }

/-- Enter an admitted document; the row it replaces is cancelled. -/
def Staging.finishAdmission (key : String) (pending : PendingKey)
    (replace : Bool) (self : Staging) : Staging :=
  let keys := if replace then (stageDelete self.keys key).2 else self.keys
  let keys := { keys with
    bloom := keys.bloom.insert key
    pendingBytes := keys.pendingBytes + pending.bytes }
  let uncommitted := keys.uncommitted.insert key pending
  let inserted := { keys with
    uncommitted
    capacity := layout.growCapacity keys.capacity uncommitted.entries.length }
  match keys.uncommitted.lookup key with
  | none => { self with keys := inserted }
  | some old => { self with
    keys := { inserted with
      pendingBytes := inserted.pendingBytes - old.bytes
      cancelledBytes := inserted.cancelledBytes + cancelledRowBytes }
    heap := self.heap.cancel old.row }

namespace PrimaryKeyIndex

variable (layout : PkLayout)

/-- The budget for cancelling the staged row of a key, if it has one. -/
def checkRemoval (state : PrimaryKeyState) (key : String) : Result Unit :=
  match state.uncommitted.lookup key with
  | none => .ok ()
  | some old => checkPendingBudget layout state old.bytes 0 cancelledRowBytes

/-- Stage deletion of the latest row, including an unpublished insertion. -/
def delete (key : String) : Call Bool := do
  EState.check (validateMutationKey key)
  let s ← get
  EState.check (checkDeleteBudget s.keys key)
  EState.check (checkRemoval layout s.keys key)
  let staged := stageDelete s.keys key
  set { s with keys := staged.2 }
  modify (·.removePending key)
  return staged.1

/-- `some false` means that a staged version exists and committed content must not be consulted. -/
def stagedHashMatches (state : PrimaryKeyState) (key : String) (hash : FieldValue) : Option Bool :=
  (state.uncommitted.lookup key).map fun pending => pending.hash == some hash

variable (committedData : List PkSegmentData)

def checkAdmission
    (state : PrimaryKeyState) (key : String) (replace : Bool) (bytes : Nat) : Result Unit := do
  if replace then checkDeleteBudget state key
  else if (state.uncommitted.lookup key).isSome then .error (.duplicatePrimaryKey key)
  else if key ∉ state.deletes ∧ state.bloom.mayContain key then
    if committedData.any (·.hasLiveKey key) then .error (.duplicatePrimaryKey key)
  let oldBytes := ((state.uncommitted.lookup key).map (·.bytes)).getD 0
  checkPendingBudget layout state oldBytes bytes (if oldBytes > 0 then cancelledRowBytes else 0)

def admitDocument (schema : Schema)
    (field : Field) (doc : Document) (replace : Bool) (accept : Document → Nat → Call Unit) :
    Call Unit := do
  let key ← EState.check (documentKey doc field)
  let hash ← EState.check (documentHash doc schema)
  let bytes := layout.pendingBytes key hash
  let s ← get
  EState.check (checkAdmission layout committedData s.keys key replace bytes)
  let row ← .newRow
  accept doc row
  modify (Staging.finishAdmission layout key ⟨row, hash, bytes⟩ replace)

/-- The row of a live committed key, with the store it is in. -/
structure ContentHashTarget where
  store : List Document
  row : Nat
  deriving DecidableEq, Repr

/-- One committed segment in the search for the row of a key. -/
def probeTarget (key : String) (target : Option ContentHashTarget) (data : PkSegmentData) :
    Result (Option ContentHashTarget) :=
  match data.fastField with
  | none => .error (.corruption "primary-key column is missing")
  | some column =>
    match column.textOrdinal key with
    | none => .ok target
    | some ordinal =>
      if !data.liveKeyOrdinals.all (·.contains (ordinal % 2 ^ 32)) then .ok target
      else if target.isSome then
        .error (.corruption "multiple live segments share a primary key")
      else match data.contentHash with
        | none => .error (.internal "content hash lookup was not initialized")
        | some lookup => do
          let row ← lookup.row ordinal column data
          return some ⟨lookup.store, row⟩

/-- Resolve committed content only when there is no latest staged row. -/
def contentHashTarget (state : PrimaryKeyState)
    (key : String) : Result (Option ContentHashTarget) :=
  if !state.bloom.mayContain key ∨ (state.uncommitted.lookup key).isSome ∨ key ∈ state.deletes then
    .ok none
  else committedData.foldlM (probeTarget key) none

/-- The stored content hash equals the incoming one; `read` is the outcome of the store's I/O. -/
def ContentHashTarget.matches (self : ContentHashTarget) (incoming : FieldValue) (schema : Schema)
    (read : Result Unit) : Result Bool := do
  read
  match self.store[self.row]? with
  | none => .error (.corruption "primary-key row is missing from document store")
  | some stored =>
    match documentHash stored schema with
    | .error (.document message) => .error (.corruption s!"Document error: {message}")
    | .error e => .error e
    | .ok hash => return hash == some incoming

end PrimaryKeyIndex

/-! ## Publication and refresh -/

namespace PrimaryKeyState

def clearUncommitted (self : PrimaryKeyState) : PrimaryKeyState :=
  { self with
    uncommitted := ∅
    pendingBytes := 0
    cancelledBytes := 0
    deletes := []
    deleteBytes := 0 }

/-- Clear at the publication boundary, independently of the fallible refresh. -/
def markDeletesPublished (self : PrimaryKeyState) : PrimaryKeyState :=
  { self with
    deletes := []
    deleteBytes := 0 }

/-- The keys of these segments, as their dictionaries list them. -/
def dictKeys (data : List PkSegmentData) : List String :=
  data.flatMap fun d => (d.fastField.map (·.dict)).getD []

/-- Refresh after commit: the keys of the new segments enter the filter, the staged state goes. -/
def refreshData (self : PrimaryKeyState) (newData : List PkSegmentData) : PrimaryKeyState :=
  { self with bloom := (dictKeys newData).foldl BloomFilter.insert self.bloom }.clearUncommitted

end PrimaryKeyState

/-- Keep the readers of the segments that are still there and were not loaded again. -/
def replaceCommittedData (committedData newData : List PkSegmentData) (segmentIds : List SegmentId) :
    List PkSegmentData :=
  (committedData.filter fun d => decide (d.segmentId ∈ segmentIds) &&
    !decide (d.segmentId ∈ newData.map (·.segmentId))) ++ newData

end Summa
