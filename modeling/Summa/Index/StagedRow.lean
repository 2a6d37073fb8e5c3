import Summa.Merge.Publication

/-!
# Unpublished row visibility (`index/staged_row.rs`)

A staged row is the handle of a document from its admission to its commit. A worker attaches it to
the row of its builder; a later call that replaces or deletes the key cancels it. `StagedHeap` holds
the rows and the staged segments that these handles share. Whichever comes first, the document of a
cancelled row is not published: a queued row that is cancelled is not attached (`attach_of_cancelled`),
and an attached one is marked dead in its segment (`mem_dead_cancel`).
-/

namespace Summa

open Function

structure RowState where
  cancelled : Bool
  /-- The staged segment and the row of its builder. -/
  location : Option (Nat × Nat)
  deriving DecidableEq, Repr

/-- The staged rows and segments, by handle. -/
structure StagedHeap where
  rows : Nat → RowState
  segments : Nat → StagedSegment
  nextRow : Nat
  nextSegment : Nat

namespace StagedHeap

variable {self : StagedHeap} {row row' segment n : Nat}

section

variable (self : StagedHeap)

/-- `StagedRow::default`. -/
def newRow : Nat × StagedHeap :=
  (self.nextRow, { self with
    rows := update self.rows self.nextRow ⟨false, none⟩
    nextRow := self.nextRow + 1 })

/-- `StagedSegment::default`. -/
def newSegment : Nat × StagedHeap :=
  (self.nextSegment, { self with
    segments := update self.segments self.nextSegment ⟨[]⟩
    nextSegment := self.nextSegment + 1 })

/-- Claim the physical builder row before indexing. A queued cancellation skips indexing. -/
def attach (row segment n : Nat) : Bool × StagedHeap :=
  if (self.rows row).cancelled then (false, self)
  else (true, { self with
    rows := update self.rows row ⟨false, some (segment, n)⟩ })

/-- `StagedSegment::cancel`. -/
def cancelAt (segment n : Nat) : StagedHeap :=
  { self with
    segments := update self.segments segment ⟨(self.segments segment).dead ++ [n]⟩ }

def cancel (row : Nat) : StagedHeap :=
  if (self.rows row).cancelled then self
  else
    let taken := { self with rows := update self.rows row ⟨true, none⟩ }
    match (self.rows row).location with
    | none => taken
    | some (segment, n) => taken.cancelAt segment n

end

@[simp] theorem rows_newRow_self : self.newRow.2.rows self.nextRow = ⟨false, none⟩ :=
  update_self ..

theorem rows_newRow_ne (h : row ≠ self.nextRow) : self.newRow.2.rows row = self.rows row :=
  update_of_ne h ..

@[simp] theorem segments_newSegment_self : self.newSegment.2.segments self.nextSegment = ⟨[]⟩ :=
  update_self ..

theorem segments_newSegment_ne (h : segment ≠ self.nextSegment) :
    self.newSegment.2.segments segment = self.segments segment :=
  update_of_ne h ..

theorem attach_of_cancelled (h : (self.rows row).cancelled = true) :
    self.attach row segment n = (false, self) := if_pos h

theorem cancel_of_cancelled (h : (self.rows row).cancelled = true) : self.cancel row = self := if_pos h

theorem cancel_of_active (h : (self.rows row).cancelled = false) : self.cancel row =
    match (self.rows row).location with
    | none => { self with rows := update self.rows row ⟨true, none⟩ }
    | some (segment, n) =>
      { self with rows := update self.rows row ⟨true, none⟩ }.cancelAt segment n := by
  rw [cancel, if_neg (by simp [h])]

@[simp] theorem cancelled_cancel_self : ((self.cancel row).rows row).cancelled = true := by
  cases h : (self.rows row).cancelled with
  | true => rw [cancel_of_cancelled h, h]
  | false => rw [cancel_of_active h]; split <;> simp [cancelAt]

theorem rows_cancel_ne (h : row' ≠ row) : (self.cancel row).rows row' = self.rows row' := by
  unfold cancel
  split
  · rfl
  · split <;> simp [cancelAt, h]

theorem location_cancel {loc : Nat × Nat} (h : ((self.cancel row).rows row').location = some loc) :
    (self.rows row').location = some loc := by
  rcases eq_or_ne row' row with rfl | hne
  · cases hc : (self.rows row').cancelled with
    | true => rwa [cancel_of_cancelled hc] at h
    | false =>
      rw [cancel_of_active hc] at h
      split at h <;> simp [cancelAt] at h
  · rwa [rows_cancel_ne hne] at h

@[simp] theorem nextRow_cancel : (self.cancel row).nextRow = self.nextRow := by
  unfold cancel
  split
  · rfl
  · split <;> rfl

@[simp] theorem nextSegment_cancel : (self.cancel row).nextSegment = self.nextSegment := by
  unfold cancel
  split
  · rfl
  · split <;> rfl

/-- A cancellation kills the row where the handle is attached, and no other. -/
theorem mem_dead_cancel : n ∈ ((self.cancel row).segments segment).dead ↔
    n ∈ (self.segments segment).dead ∨
      (self.rows row).cancelled = false ∧ (self.rows row).location = some (segment, n) := by
  cases h : (self.rows row).cancelled with
  | true => rw [cancel_of_cancelled h]; simp
  | false =>
    rw [cancel_of_active h]
    cases hl : (self.rows row).location with
    | none => simp
    | some loc =>
      obtain ⟨segment', n'⟩ := loc
      rcases eq_or_ne segment segment' with rfl | hne
      · simp [cancelAt, eq_comm]
      · simp [cancelAt, hne, hne.symm]

/-- A cancellation of an older handle commutes with a new one. -/
theorem newRow_cancel (h : row ≠ self.nextRow) : self.newRow.2.cancel row = (self.cancel row).newRow.2 := by
  have hcomm := update_comm h.symm (⟨false, none⟩ : RowState) ⟨true, none⟩ self.rows
  unfold cancel
  rw [rows_newRow_ne h]
  split
  · rfl
  · cases (self.rows row).location with
    | none => simp only [newRow, hcomm]
    | some loc => simp only [newRow, cancelAt, hcomm]

end StagedHeap

end Summa
