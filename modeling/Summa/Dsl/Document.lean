import Summa.Error
import Summa.Lib.LittleEndian

/-!
# Documents and schemas (`dsl/schema.rs`)

The parts of a schema that admission reads, and a document as the list of its field values. The
checks of a document before it is admitted: `validateVectorValueCounts` (`segment/builder/mod.rs`),
`documentHash` (`index/content_hash.rs`) and `documentKey` (`index/primary_key.rs`).
-/

namespace Summa

abbrev Field := Nat

inductive FieldType where
  | text | u64 | i64 | f64 | bytes | sparseVector | denseVector | json | binaryDenseVector
  deriving DecidableEq, Repr

/-- A value of a field. Floats are their bit patterns, JSON is its text. -/
inductive FieldValue where
  | text (value : String)
  | u64 (value : Nat)
  | i64 (value : Int)
  | f64 (bits : BitVec 64)
  | bytes (value : List Byte)
  | sparseVector (entries : List (Nat × BitVec 32))
  | denseVector (values : List (BitVec 32))
  | json (value : String)
  | binaryDenseVector (value : List Byte)
  deriving DecidableEq, Repr

def FieldValue.asText : FieldValue → Option String
  | .text value => some value
  | _ => none

structure FieldEntry where
  name : String
  fieldType : FieldType
  indexed : Bool
  stored : Bool
  fast : Bool
  primaryKey : Bool
  contentHash : Bool
  deriving DecidableEq, Repr

structure Schema where
  fields : List FieldEntry
  deriving DecidableEq, Repr

namespace Schema

def getFieldEntry (self : Schema) (field : Field) : Option FieldEntry := self.fields[field]?

def contentHashField (self : Schema) : Option Field := self.fields.findIdx? (·.contentHash)

def primaryField (self : Schema) : Option Field := self.fields.findIdx? (·.primaryKey)

end Schema

structure Document where
  fieldValues : List (Field × FieldValue)
  deriving DecidableEq, Repr

def Document.getAll (self : Document) (field : Field) : List FieldValue :=
  (self.fieldValues.filter fun v => v.1 == field).map Prod.snd

/-- `MAX_VECTOR_VALUES_PER_FIELD`. -/
def maxVectorValuesPerField : Nat := 2 ^ 16

/-- The value takes one of the vector ordinals of its field. -/
def FieldEntry.consumesVectorOrdinal (entry : FieldEntry) (value : FieldValue) : Bool :=
  match entry.fieldType, value with
  | .denseVector, .denseVector _ | .binaryDenseVector, .binaryDenseVector _ =>
    entry.indexed || entry.stored
  | .sparseVector, .sparseVector _ => entry.indexed || entry.fast
  | _, _ => false

/-- One more value of a field; `counts` are the vector values so far. -/
def countVectorValue (schema : Schema) (counts : Field → Nat) (v : Field × FieldValue) :
    Result (Field → Nat) :=
  match schema.getFieldEntry v.1 with
  | none => .ok counts
  | some entry =>
    if !entry.consumesVectorOrdinal v.2 then .ok counts
    else
      let count := counts v.1 + 1
      if count > maxVectorValuesPerField then
        .error (.document (s!"field '{entry.name}' (id {v.1}) has more than " ++
          s!"{maxVectorValuesPerField} vector values in one document"))
      else .ok (Function.update counts v.1 count)

def validateVectorValueCounts (doc : Document) (schema : Schema) : Result Unit := do
  let _ ← doc.fieldValues.foldlM (countVectorValue schema) fun _ => 0

/-- A value of the declared type of a content hash. -/
def FieldType.isHashOf : FieldType → FieldValue → Bool
  | .text, .text _ | .bytes, .bytes _ | .u64, .u64 _ => true
  | _, _ => false

/-- The content hash of a document. A missing one is deliberately not an equality assertion. -/
def documentHash (doc : Document) (schema : Schema) : Result (Option FieldValue) :=
  match schema.contentHashField with
  | none => .ok none
  | some field =>
    match doc.getAll field with
    | [] => .ok none
    | value :: rest =>
      if rest ≠ [] ∨ ¬ ((schema.getFieldEntry field).any fun e => e.fieldType.isHashOf value) then
        .error (.document "content_hash requires one value of its declared type")
      else .ok (some value)

/-- The key of a document, validated before any writer state changes. -/
def documentKey (doc : Document) (field : Field) : Result String :=
  match doc.getAll field with
  | [] => .error (.document "Missing primary key field")
  | value :: rest =>
    match value.asText with
    | none => .error (.document "Primary key must be text")
    | some key =>
      if rest ≠ [] then .error (.document "primary key requires exactly one text value")
      else if key = "" then .error (.document "Primary key must not be empty")
      else if key.utf8ByteSize > 64 * 1024 then
        .error (.document "primary key must contain 1..=65536 bytes")
      else .ok key

/-- The key under which the fast field of `field` stores a document; a document that has passed
`documentKey` has that key. -/
def Document.key (self : Document) (field : Field) : String :=
  ((self.getAll field).head?.bind FieldValue.asText).getD ""

theorem Document.key_of_documentKey {doc : Document} {field : Field} {key : String}
    (h : documentKey doc field = .ok key) : doc.key field = key := by
  unfold documentKey at h
  unfold Document.key
  split at h
  · cases h
  rename_i value rest hall
  rw [hall, List.head?_cons, Option.bind_some]
  split at h
  · cases h
  rename_i text htext
  rw [htext, Option.getD_some]
  repeat' split at h
  all_goals cases h
  rfl

end Summa
