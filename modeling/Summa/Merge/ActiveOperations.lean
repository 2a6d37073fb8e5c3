import Mathlib.Data.Finset.Union
import Summa.Segment.Deletion

/-!
# Active operations (`merge/segment_manager.rs`)

`ActiveOperationState` holds the identities that running lifecycle operations claim. A claim is
taken with `tryRegisterKind`, which fails on any overlap, and given back when its guard is dropped.

`ActiveOk active guards`: the claimed identities are the disjoint union of the identities of the
live guards. Taking and dropping guards keeps it.
-/

namespace Summa

open Function

section

variable {κ α : Type} [DecidableEq κ] {f : κ → Option α} {v : Option α} {t t' : κ} {a : α}

theorem update_eq_some (h : update f t v t' = some a) : (t' = t ∧ v = some a) ∨ (t' ≠ t ∧ f t' = some a) := by
  rcases eq_or_ne t' t with rfl | hne
  · rw [update_self] at h; exact .inl ⟨rfl, h⟩
  · rw [update_of_ne hne] at h; exact .inr ⟨hne, h⟩

theorem of_update_none (h : update f t none t' = some a) : t' ≠ t ∧ f t' = some a :=
  (update_eq_some h).resolve_left fun hself => nomatch hself.2

end

/-- RAII ownership of segment identities by an active operation. -/
structure SegmentOperationGuard where
  segmentIds : List SegmentId
  operationToken : Nat
  deriving DecidableEq, Repr

structure ActiveOperationState where
  segmentIds : Finset SegmentId
  operationTokens : Finset Nat
  /-- The tokens of indexing producers. -/
  indexingTokens : Finset Nat
  nextOperationToken : Nat
  accepting : Bool
  nonIndexingPaused : Bool
  maintenanceStopped : Bool

namespace ActiveOperationState

/-- No operation was ever registered. -/
def new : ActiveOperationState where
  segmentIds := ∅
  operationTokens := ∅
  indexingTokens := ∅
  nextOperationToken := 0
  accepting := true
  nonIndexingPaused := false
  maintenanceStopped := false

variable (self : ActiveOperationState)

variable (segmentIds : List SegmentId)

/-- Try to claim identities; `none` if the operation is not admitted or one of them is owned by
another active operation. -/
def tryRegisterKind
    (indexing vectorUpdate : Bool) : Option (ActiveOperationState × SegmentOperationGuard) :=
  if !self.accepting then none
  else if !indexing && self.maintenanceStopped then none
  else if !indexing && !vectorUpdate && self.nonIndexingPaused then none
  else if segmentIds.any fun id => decide (id ∈ self.segmentIds) then none
  else if self.nextOperationToken + 1 ≥ 2 ^ 64 then none
  else
    some ({ self with
      segmentIds := self.segmentIds ∪ segmentIds.toFinset
      nextOperationToken := self.nextOperationToken + 1
      operationTokens := insert self.nextOperationToken self.operationTokens
      indexingTokens := if indexing then insert self.nextOperationToken self.indexingTokens
        else self.indexingTokens }, ⟨segmentIds, self.nextOperationToken⟩)

def tryRegister :=
  self.tryRegisterKind segmentIds false false

def tryRegisterIndexing :=
  self.tryRegisterKind segmentIds true false

def tryRegisterVectorUpdate :=
  self.tryRegisterKind segmentIds false true

/-- `Drop` of a guard. -/
def dropGuard (guard : SegmentOperationGuard) : ActiveOperationState :=
  { self with
    segmentIds := self.segmentIds \ guard.segmentIds.toFinset
    operationTokens := self.operationTokens.erase guard.operationToken
    indexingTokens := self.indexingTokens.erase guard.operationToken }

def stopMaintenance : ActiveOperationState :=
  { self with maintenanceStopped := true }

def stopAccepting : ActiveOperationState :=
  { self.stopMaintenance with accepting := false }

def pauseNonIndexing : ActiveOperationState :=
  { self with nonIndexingPaused := true }

def resumeNonIndexing : ActiveOperationState :=
  { self with nonIndexingPaused := false }

end ActiveOperationState

/-- The claimed identities are the disjoint union of the identities of the live guards, which are
kept by token. -/
structure ActiveOk (active : ActiveOperationState) (guards : Nat → Option SegmentOperationGuard) :
    Prop where
  token : ∀ t g, guards t = some g → g.operationToken = t ∧ t < active.nextOperationToken
  tokens : ∀ t, t ∈ active.operationTokens ↔ ∃ g, guards t = some g
  segmentIds : ∀ i, i ∈ active.segmentIds ↔ ∃ t g, guards t = some g ∧ i ∈ g.segmentIds
  disjoint : ∀ t t' g g' i, guards t = some g → guards t' = some g' → i ∈ g.segmentIds →
    i ∈ g'.segmentIds → t = t'

namespace ActiveOk

variable {active active' : ActiveOperationState} {guards : Nat → Option SegmentOperationGuard}
  {ids : List SegmentId} {indexing vectorUpdate : Bool} {guard : SegmentOperationGuard}

/-- Admission flags do not matter. -/
theorem flags (h : ActiveOk active guards) (hids : active'.segmentIds = active.segmentIds)
    (htok : active'.operationTokens = active.operationTokens)
    (hnext : active'.nextOperationToken = active.nextOperationToken) : ActiveOk active' guards :=
  ⟨by rw [hnext]; exact h.token, by rw [htok]; exact h.tokens, by rw [hids]; exact h.segmentIds,
    h.disjoint⟩

theorem new : ActiveOk .new fun _ => none :=
  ⟨nofun, by simp [ActiveOperationState.new], by simp [ActiveOperationState.new],
    nofun⟩

section

variable (h : active.tryRegisterKind ids indexing vectorUpdate = some (active', guard))

include h

/-- Inversion of a registration. -/
theorem tryRegisterKind_eq_some :
    guard = ⟨ids, active.nextOperationToken⟩ ∧ (∀ i ∈ ids, i ∉ active.segmentIds) ∧
      active'.segmentIds = active.segmentIds ∪ ids.toFinset ∧
      active'.operationTokens = insert active.nextOperationToken active.operationTokens ∧
      active'.nextOperationToken = active.nextOperationToken + 1 := by
  unfold ActiveOperationState.tryRegisterKind at h
  iterate 3
    split at h
    · cases h
  split at h
  · cases h
  rename_i hfree
  split at h
  · cases h
  cases h
  refine ⟨rfl, fun i hi => ?_, rfl, rfl, rfl⟩
  simp only [List.any_eq_true, decide_eq_true_eq, not_exists, not_and] at hfree
  exact hfree i hi

/-- A registration leaves the pause as it is, and gets through it only as an indexing producer or as the
update itself. -/
theorem tryRegisterKind_paused :
    active'.nonIndexingPaused = active.nonIndexingPaused ∧
      (indexing = false → vectorUpdate = false → active.nonIndexingPaused = false) := by
  unfold ActiveOperationState.tryRegisterKind at h
  iterate 2
    split at h
    · cases h
  split at h
  · cases h
  rename_i hpaused
  iterate 2
    split at h
    · cases h
  cases h
  refine ⟨rfl, ?_⟩
  rintro rfl rfl
  simpa using hpaused

end

theorem not_registered (hok : ActiveOk active guards) : guards active.nextOperationToken = none := by
  cases hg : guards active.nextOperationToken with
  | none => rfl
  | some g => exact absurd (hok.token _ g hg).2 (lt_irrefl _)

theorem register (hok : ActiveOk active guards)
    (h : active.tryRegisterKind ids indexing vectorUpdate = some (active', guard)) :
    ActiveOk active' (update guards guard.operationToken (some guard)) := by
  obtain ⟨rfl, hfree, hids, htok, hnext⟩ := tryRegisterKind_eq_some h
  -- no old guard has one of the new identities
  have hnew : ∀ t g i, guards t = some g → i ∈ g.segmentIds → i ∉ ids := fun t g i hg hi hmem =>
    hfree i hmem ((hok.segmentIds i).mpr ⟨t, g, hg, hi⟩)
  have hget : ∀ t g, update guards active.nextOperationToken
      (some ⟨ids, active.nextOperationToken⟩) t = some g ↔
      (t = active.nextOperationToken ∧ g = ⟨ids, active.nextOperationToken⟩) ∨ guards t = some g := by
    intro t g
    rcases eq_or_ne t active.nextOperationToken with rfl | hne
    · simp [hok.not_registered, eq_comm]
    · simp [hne]
  refine ⟨fun t g hg => ?_, fun t => ?_, fun i => ?_, fun t t' g g' i hg hg' hi hi' => ?_⟩
  · rw [hnext]
    rcases (hget t g).mp hg with ⟨rfl, rfl⟩ | hg
    · exact ⟨rfl, Nat.lt_succ_self _⟩
    · exact ⟨(hok.token t g hg).1, Nat.lt_succ_of_lt (hok.token t g hg).2⟩
  · simp only [htok, Finset.mem_insert, hok.tokens, hget, exists_or, exists_and_left, exists_eq, and_true]
  · rw [hids, Finset.mem_union, List.mem_toFinset, hok.segmentIds, or_comm]
    simp only [hget, or_and_right, exists_or]
    exact or_congr_left ⟨fun hi => ⟨_, _, ⟨rfl, rfl⟩, hi⟩, fun ⟨_, _, ⟨_, hg⟩, hi⟩ => by rwa [hg] at hi⟩
  · rcases (hget t g).mp hg with ⟨rfl, rfl⟩ | hg
    · rcases (hget t' g').mp hg' with ⟨rfl, rfl⟩ | hg'
      · rfl
      · exact absurd hi (hnew t' g' i hg' hi')
    · rcases (hget t' g').mp hg' with ⟨rfl, rfl⟩ | hg'
      · exact absurd hi' (hnew t g i hg hi)
      · exact hok.disjoint t t' g g' i hg hg' hi hi'

theorem drop (hok : ActiveOk active guards) {t : Nat} (hg : guards t = some guard) :
    ActiveOk (active.dropGuard guard) (update guards t none) := by
  have htok := (hok.token t guard hg).1
  refine ⟨fun t' g hg' => hok.token t' g (of_update_none hg').2, fun t' => ?_, fun i => ?_,
    fun t' t'' g g' i hg' hg'' => hok.disjoint t' t'' g g' i (of_update_none hg').2 (of_update_none hg'').2⟩
  · rw [ActiveOperationState.dropGuard, Finset.mem_erase, hok.tokens, htok]
    constructor
    · rintro ⟨hne, g, hg'⟩
      exact ⟨g, by rw [update_of_ne hne]; exact hg'⟩
    · rintro ⟨g, hg'⟩
      obtain ⟨hne, hg'⟩ := of_update_none hg'
      exact ⟨hne, g, hg'⟩
  · rw [ActiveOperationState.dropGuard, Finset.mem_sdiff, List.mem_toFinset, hok.segmentIds]
    constructor
    · rintro ⟨⟨t', g, hg', hi⟩, hno⟩
      have hne : t' ≠ t := by
        rintro rfl
        rw [hg] at hg'
        cases hg'
        exact hno hi
      exact ⟨t', g, by rw [update_of_ne hne]; exact hg', hi⟩
    · rintro ⟨t', g, hg', hi⟩
      obtain ⟨hne, hg'⟩ := of_update_none hg'
      exact ⟨⟨t', g, hg', hi⟩, fun hmem => hne (hok.disjoint t' t g guard i hg' hg hi hmem)⟩

end ActiveOk

end Summa
