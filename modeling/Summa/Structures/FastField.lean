import Mathlib.Data.List.Dedup

/-!
# Fast-field columns (`structures/fast_field/mod.rs`)

The decoded view of a single-valued column: `values` holds the value of each document in document
order, for a text column its ordinal in the global dictionary `dict`. `Represents col keys` says
that a text column stores `keys`; the column that the builder writes does (`represents_ofKeys`).
-/

namespace Summa

inductive FastFieldColumnType where
  | u64 | i64 | f64 | textOrdinal
  deriving DecidableEq, Repr

structure FastFieldReader where
  columnType : FastFieldColumnType
  numDocs : Nat
  multi : Bool
  /-- The distinct texts of the column; a text's ordinal is its index. -/
  dict : List String
  values : List Nat
  deriving DecidableEq, Repr

namespace FastFieldReader

def textOrdinal (self : FastFieldReader) (text : String) : Option Nat :=
  if self.columnType ≠ .textOrdinal then none else self.dict.findIdx? (· == text)

/-- The `(document, value)` pairs of `scan_single_values`, in document order. -/
def scanSingleValues (self : FastFieldReader) : List (Nat × Nat) :=
  if self.multi then [] else self.values.zipIdx.map fun (value, doc) => (doc, value)

/-- The text column of the documents with these values. -/
def ofKeys (keys : List String) : FastFieldReader where
  columnType := .textOrdinal
  numDocs := keys.length
  multi := false
  dict := keys.dedup
  values := keys.map keys.dedup.idxOf

/-- `col` is a text column with one value for each of `keys.length` documents. -/
structure Represents (col : FastFieldReader) (keys : List String) : Prop where
  columnType : col.columnType = .textOrdinal
  numDocs : col.numDocs = keys.length
  multi : col.multi = false
  nodup : col.dict.Nodup
  length : col.values.length = keys.length
  value : ∀ (d : Nat) (k : String), keys[d]? = some k → ∃ v : Nat, col.values[d]? = some v ∧ col.dict[v]? = some k

theorem represents_ofKeys (keys : List String) : (ofKeys keys).Represents keys where
  columnType := rfl
  numDocs := rfl
  multi := rfl
  nodup := List.nodup_dedup keys
  length := by simp [ofKeys]
  value d k h := by
    have hk : k ∈ keys.dedup := List.mem_dedup.mpr (List.mem_of_getElem? h)
    refine ⟨keys.dedup.idxOf k, by simp [ofKeys, h], ?_⟩
    show keys.dedup[keys.dedup.idxOf k]? = some k
    rw [List.getElem?_eq_getElem (List.idxOf_lt_length_of_mem hk), List.getElem_idxOf]

variable {col : FastFieldReader} {keys : List String}

/-- A text has the ordinal `v` exactly when it is the dictionary's text number `v`. -/
theorem Represents.textOrdinal_eq_some (h : col.Represents keys) {text : String} {v : Nat} :
    col.textOrdinal text = some v ↔ col.dict[v]? = some text := by
  unfold textOrdinal
  rw [if_neg (by rw [h.columnType]; simp), List.findIdx?_eq_some_iff_getElem]
  constructor
  · rintro ⟨hv, he, -⟩
    rw [List.getElem?_eq_getElem hv]
    simpa using he
  · intro hv
    obtain ⟨hlt, he⟩ := List.getElem?_eq_some_iff.mp hv
    refine ⟨hlt, by simpa using he, fun j hj hje => ?_⟩
    have hd : col.dict[j] = col.dict[v] := by rw [he]; simpa using hje
    have := (List.Nodup.getElem_inj_iff h.nodup).mp hd
    omega

/-- A document's ordinal is the ordinal of its key. -/
theorem Represents.value_eq_some (h : col.Represents keys) {d v : Nat}
    (hv : col.values[d]? = some v) : ∃ k, keys[d]? = some k ∧ col.dict[v]? = some k := by
  obtain ⟨hlt, -⟩ := List.getElem?_eq_some_iff.mp hv
  rw [h.length] at hlt
  obtain ⟨v', hv', hd⟩ := h.value d keys[d] (List.getElem?_eq_getElem hlt)
  rw [hv] at hv'
  cases hv'
  exact ⟨_, List.getElem?_eq_getElem hlt, hd⟩

theorem Represents.mem_scanSingleValues (h : col.Represents keys) {d v : Nat} :
    (d, v) ∈ col.scanSingleValues ↔ col.values[d]? = some v := by
  simp only [scanSingleValues, h.multi, Bool.false_eq_true, ↓reduceIte, List.mem_map, Prod.exists,
    Prod.mk.injEq, List.mem_zipIdx_iff_getElem?]
  constructor
  · rintro ⟨v', d', hm, rfl, rfl⟩; exact hm
  · intro hm; exact ⟨v, d, hm, rfl, rfl⟩

end FastFieldReader

end Summa
