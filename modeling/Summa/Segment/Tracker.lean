import Mathlib.Data.Finset.Basic
import Summa.Segment.Deletion

/-!
# Segment tracker (`segment/tracker.rs`)

Reference counts of the identities that snapshots hold, and the retired identities that wait for
their last holder (`pendingDeletions`) or for their files to be deleted (`scheduledDeletions`).

`TrackerOk tracker held owned` relates the tracker to the snapshots (`held i` is the number of
holds of `i`) and to the metadata (`owned`). Each operation keeps it, for the next `held` and
`owned`.
-/

namespace Summa

open Function List

/-- `TrackerInner`. The value of a pending deletion is its key, so the map is a set. -/
structure SegmentTracker where
  refCounts : SegmentId → Option Nat
  pendingDeletions : Finset SegmentId
  scheduledDeletions : Finset SegmentId

namespace SegmentTracker

variable (self : SegmentTracker)

variable (id : SegmentId)

/-- Register a new segment (called when a segment is committed). -/
def register : SegmentTracker :=
  { self with refCounts := update self.refCounts id (some ((self.refCounts id).getD 0)) }

/-- Whether files must remain protected from orphan sweeping. -/
def isDeletionProtected : Bool :=
  decide (id ∈ self.pendingDeletions) || decide (id ∈ self.scheduledDeletions)

/-- Count one more reference. -/
def acquireOne : SegmentTracker :=
  { self with
    refCounts := update self.refCounts id (some ((self.refCounts id).getD 0 + 1)) }

/-- Acquire references; returns the identities that were acquired. -/
def acquire (self : SegmentTracker) : List SegmentId → SegmentTracker × List SegmentId
  | [] => (self, [])
  | id :: ids =>
    if self.isDeletionProtected id then self.acquire ids
    else
      let rest := (self.acquireOne id).acquire ids
      (rest.1, id :: rest.2)

/-- Release one reference; the identity is ready for deletion when it was the last one. -/
def releaseOne : SegmentTracker × List SegmentId :=
  match self.refCounts id with
  | none => (self, [])
  | some count =>
    if count - 1 = 0 ∧ id ∈ self.pendingDeletions then
      ({ refCounts := update self.refCounts id none
         pendingDeletions := self.pendingDeletions.erase id
         scheduledDeletions := insert id self.scheduledDeletions }, [id])
    else ({ self with refCounts := update self.refCounts id (some (count - 1)) }, [])

/-- Release references; returns the identities that are now ready for deletion. -/
def release (self : SegmentTracker) : List SegmentId → SegmentTracker × List SegmentId
  | [] => (self, [])
  | id :: ids =>
    let one := self.releaseOne id
    let rest := one.1.release ids
    (rest.1, one.2 ++ rest.2)

/-- Mark one identity for deletion; ready at once when nothing refers to it. -/
def markOne : SegmentTracker × List SegmentId :=
  match self.refCounts id with
  | none => (self, [])
  | some 0 =>
    ({ self with
       refCounts := update self.refCounts id none
       scheduledDeletions := insert id self.scheduledDeletions }, [id])
  | some (_ + 1) => ({ self with pendingDeletions := insert id self.pendingDeletions }, [])

/-- Mark identities for deletion; returns those that are ready at once. -/
def markForDeletion (self : SegmentTracker) : List SegmentId → SegmentTracker × List SegmentId
  | [] => (self, [])
  | id :: ids =>
    let one := self.markOne id
    let rest := one.1.markForDeletion ids
    (rest.1, one.2 ++ rest.2)

/-- Finish the scheduled-deletion lifecycle after the filesystem attempt. -/
def completeDeletion (ids : List SegmentId) : SegmentTracker :=
  { self with scheduledDeletions := ids.foldl Finset.erase self.scheduledDeletions }

theorem mem_of_mem_foldl_erase {ids : List SegmentId} {set : Finset SegmentId} {i : SegmentId}
    (h : i ∈ ids.foldl Finset.erase set) : i ∈ set := by
  induction ids generalizing set with
  | nil => exact h
  | cons id ids ih => exact Finset.mem_of_mem_erase (ih h)

end SegmentTracker

/-- The tracker agrees with the snapshots and the metadata. -/
structure TrackerOk (tracker : SegmentTracker) (held : SegmentId → Nat) (owned : SegmentId → Prop) :
    Prop where
  count : ∀ i, (tracker.refCounts i).getD 0 = held i
  registered : ∀ i, owned i → tracker.refCounts i ≠ none
  owned_not_pending : ∀ i, owned i → i ∉ tracker.pendingDeletions
  scheduled : ∀ i ∈ tracker.scheduledDeletions, tracker.refCounts i = none
  pending : ∀ i ∈ tracker.pendingDeletions, 0 < held i
  /-- A held identity is owned or waits for its last holder. -/
  held_owned : ∀ i, 0 < held i → owned i ∨ i ∈ tracker.pendingDeletions

namespace TrackerOk

variable {tracker : SegmentTracker} {held : SegmentId → Nat} {owned : SegmentId → Prop}
  {id : SegmentId}

section

variable (h : TrackerOk tracker held owned)

include h

theorem owned_not_scheduled (ho : owned id) : id ∉ tracker.scheduledDeletions :=
  fun hs => h.registered id ho (h.scheduled id hs)

theorem scheduled_not_held (hs : id ∈ tracker.scheduledDeletions) : held id = 0 := by
  rw [← h.count, h.scheduled id hs]; rfl

theorem not_protected (ho : owned id) : tracker.isDeletionProtected id = false := by
  simp [SegmentTracker.isDeletionProtected, h.owned_not_pending id ho, h.owned_not_scheduled ho]

/-! The count of one identity changes. -/

theorem count_update {held' : SegmentId → Nat} {c : Option Nat} (hc : c.getD 0 = held' id)
    (hother : ∀ i, i ≠ id → held i = held' i) (i : SegmentId) :
    (update tracker.refCounts id c i).getD 0 = held' i := by
  rcases eq_or_ne i id with rfl | hne
  · rw [update_self, hc]
  · rw [update_of_ne hne, h.count, hother i hne]

theorem registered_update {i : SegmentId} (hi : i ≠ id → owned i) (count : Nat) :
    update tracker.refCounts id (some count) i ≠ none := by
  rcases eq_or_ne i id with rfl | hne
  · simp
  · simpa [hne] using h.registered i (hi hne)

theorem scheduled_update (hs : id ∉ tracker.scheduledDeletions) (c : Option Nat) :
    ∀ i ∈ tracker.scheduledDeletions, update tracker.refCounts id c i = none := by
  intro i hi
  have hne : i ≠ id := fun heq => hs (heq ▸ hi)
  rw [update_of_ne hne, h.scheduled i hi]

/-- An identity without a count is scheduled. -/
theorem scheduled_insert : ∀ i ∈ insert id tracker.scheduledDeletions,
    update tracker.refCounts id none i = none := by
  intro i hi
  rcases eq_or_ne i id with rfl | hne
  · simp
  · simpa [hne] using h.scheduled i ((Finset.mem_insert.mp hi).resolve_left hne)

theorem register (hp : id ∉ tracker.pendingDeletions) (hs : id ∉ tracker.scheduledDeletions) :
    TrackerOk (tracker.register id) held (fun i => owned i ∨ i = id) where
  count := h.count_update (h.count id) fun _ _ => rfl
  registered _ hi := h.registered_update (fun hne => hi.resolve_right hne) _
  owned_not_pending i hi := by
    rcases hi with hi | rfl
    · exact h.owned_not_pending i hi
    · exact hp
  scheduled := h.scheduled_update hs _
  pending := h.pending
  held_owned i hi := (h.held_owned i hi).imp_left .inl

theorem acquireOne (ho : owned id) :
    TrackerOk (tracker.acquireOne id) (fun i => held i + if i = id then 1 else 0) owned := by
  refine ⟨h.count_update ?_ fun i hne => ?_, fun i hi => h.registered_update (fun _ => hi) _, h.owned_not_pending,
    h.scheduled_update (h.owned_not_scheduled ho) _, fun i hi => ?_, fun i hi => ?_⟩
  · simp [h.count]
  · simp [hne]
  · exact Nat.lt_of_lt_of_le (h.pending i hi) (Nat.le_add_right _ _)
  · by_cases hne : i = id
    · exact .inl (hne ▸ ho)
    · exact h.held_owned i (by simpa [hne] using hi)

/-- A snapshot of owned identities holds all of them. -/
theorem acquire {ids : List SegmentId} (ho : ∀ i ∈ ids, owned i) :
    (tracker.acquire ids).2 = ids ∧
      TrackerOk (tracker.acquire ids).1 (fun i => held i + ids.count i) owned := by
  induction ids generalizing tracker held with
  | nil => exact ⟨rfl, h⟩
  | cons id ids ih =>
    have hid := ho id mem_cons_self
    obtain ⟨hids, hok⟩ := ih (h.acquireOne hid) fun i hi => ho i (mem_cons_of_mem _ hi)
    have hcount : (fun i => held i + (id :: ids).count i) =
        fun i => (held i + if i = id then 1 else 0) + ids.count i := by
      funext i
      simp only [count_cons, beq_iff_eq, eq_comm (a := id)]
      omega
    rw [SegmentTracker.acquire, h.not_protected hid, hcount]
    exact ⟨congrArg _ hids, hok⟩

theorem releaseOne {held' : SegmentId → Nat} (hheld : ∀ i, held i = held' i + if i = id then 1 else 0) :
    TrackerOk (tracker.releaseOne id).1 held' owned := by
  have hcount : (tracker.refCounts id).getD 0 = held' id + 1 := by rw [h.count, hheld]; simp
  have hother : ∀ i, i ≠ id → held i = held' i := fun i hi => by rw [hheld]; simp [hi]
  cases hc : tracker.refCounts id with
  | none => rw [hc] at hcount; cases hcount
  | some count =>
    have hcount' : count = held' id + 1 := by rwa [hc] at hcount
    simp only [SegmentTracker.releaseOne, hc]
    split
    · -- the last holder of a retired identity
      rename_i hlast
      have hno : ¬ owned id := fun ho => h.owned_not_pending id ho hlast.2
      refine ⟨h.count_update (by simp; omega) hother, fun i hi => ?_, fun i hi => ?_, h.scheduled_insert,
        fun i hi => ?_, fun i hi => ?_⟩
      · have hne : i ≠ id := fun heq => hno (heq ▸ hi)
        simpa [hne] using h.registered i hi
      · exact fun hp => h.owned_not_pending i hi (Finset.mem_of_mem_erase hp)
      · have hne := Finset.ne_of_mem_erase hi
        rw [← hother i hne]; exact h.pending i (Finset.mem_of_mem_erase hi)
      · have hne : i ≠ id := by rintro rfl; omega
        refine (h.held_owned i (by rw [hother i hne]; exact hi)).imp_right fun hp => ?_
        exact Finset.mem_erase.mpr ⟨hne, hp⟩
    · rename_i hmore
      refine ⟨h.count_update (by simp; omega) hother, fun i hi => h.registered_update (fun _ => hi) _,
        h.owned_not_pending, h.scheduled_update (fun hs => ?_) _, fun i hi => ?_, fun i hi => ?_⟩
      · rw [h.scheduled id hs] at hc
        cases hc
      · rcases eq_or_ne i id with rfl | hne
        · have : ¬ (count - 1 = 0) := fun hz => hmore ⟨hz, hi⟩
          omega
        · rw [← hother i hne]; exact h.pending i hi
      · exact h.held_owned i (by rw [hheld]; omega)

/-- Dropping a snapshot gives back its holds. -/
theorem release {held' : SegmentId → Nat} {ids : List SegmentId}
    (hheld : ∀ i, held i = held' i + ids.count i) : TrackerOk (tracker.release ids).1 held' owned := by
  induction ids generalizing tracker held with
  | nil =>
    have heq : held = held' := funext fun i => by rw [hheld]; simp
    rw [← heq]; exact h
  | cons id ids ih =>
    have hone : TrackerOk (tracker.releaseOne id).1 (fun i => held' i + ids.count i) owned := by
      refine h.releaseOne fun i => ?_
      simp only [hheld, count_cons, beq_iff_eq, eq_comm (a := id)]
      omega
    exact ih hone fun i => rfl

theorem markOne (id : SegmentId) : TrackerOk (tracker.markOne id).1 held (fun i => owned i ∧ i ≠ id) := by
  unfold SegmentTracker.markOne
  split
  · rename_i hnone
    refine ⟨h.count, fun i hi => h.registered i hi.1, fun i hi => h.owned_not_pending i hi.1,
      h.scheduled, h.pending, fun i hi => ?_⟩
    rcases h.held_owned i hi with hown | hp
    · refine .inl ⟨hown, ?_⟩
      rintro rfl
      exact h.registered i hown hnone
    · exact .inr hp
  · rename_i hzero
    have hz : held id = 0 := by rw [← h.count, hzero]; rfl
    refine ⟨h.count_update hz.symm fun _ _ => rfl, fun i hi => ?_, fun i hi => h.owned_not_pending i hi.1,
      h.scheduled_insert, h.pending, fun i hi => ?_⟩
    · simpa [hi.2] using h.registered i hi.1
    · have hne : i ≠ id := by rintro rfl; omega
      exact (h.held_owned i hi).imp_left fun hown => ⟨hown, hne⟩
  · rename_i n hn
    have hpos : 0 < held id := by rw [← h.count, hn]; simp
    refine ⟨h.count, fun i hi => h.registered i hi.1, fun i hi => ?_, h.scheduled, fun i hi => ?_,
      fun i hi => ?_⟩
    · rw [Finset.mem_insert, not_or]
      exact ⟨hi.2, h.owned_not_pending i hi.1⟩
    · rcases Finset.mem_insert.mp hi with rfl | hi
      · exact hpos
      · exact h.pending i hi
    · rcases eq_or_ne i id with rfl | hne
      · exact .inr (Finset.mem_insert_self _ _)
      · exact (h.held_owned i hi).imp (fun hown => ⟨hown, hne⟩) (Finset.mem_insert_of_mem ·)

/-- Retired identities are no longer owned. -/
theorem markForDeletion (ids : List SegmentId) :
    TrackerOk (tracker.markForDeletion ids).1 held (fun i => owned i ∧ i ∉ ids) := by
  induction ids generalizing tracker owned with
  | nil => simpa [SegmentTracker.markForDeletion] using h
  | cons id ids ih =>
    have hset : (fun i => owned i ∧ i ∉ id :: ids) = fun i => (owned i ∧ i ≠ id) ∧ i ∉ ids := by
      funext i; simp only [mem_cons, not_or, and_assoc]
    rw [hset]
    exact ih (h.markOne id)

theorem completeDeletion (ids : List SegmentId) : TrackerOk (tracker.completeDeletion ids) held owned :=
  ⟨h.count, h.registered, h.owned_not_pending,
    fun i hi => h.scheduled i (SegmentTracker.mem_of_mem_foldl_erase hi), h.pending, h.held_owned⟩

theorem registerAll {ids : List SegmentId} (hp : ∀ i ∈ ids, tracker.isDeletionProtected i = false) :
    TrackerOk (ids.foldl SegmentTracker.register tracker) held (fun i => owned i ∨ i ∈ ids) := by
  induction ids generalizing tracker owned with
  | nil => simpa using h
  | cons id ids ih =>
    have hset : (fun i => owned i ∨ i ∈ id :: ids) = fun i => (owned i ∨ i = id) ∨ i ∈ ids := by
      funext i; simp only [mem_cons, or_assoc]
    have hid := hp id mem_cons_self
    simp only [SegmentTracker.isDeletionProtected, Bool.or_eq_false_iff, decide_eq_false_iff_not] at hid
    rw [hset]
    exact ih (h.register hid.1 hid.2) fun i hi => hp i (mem_cons_of_mem _ hi)

end

end TrackerOk

/-! ## What the operations protect -/

namespace SegmentTracker

variable {tracker : SegmentTracker} {i : SegmentId}

theorem isDeletionProtected_iff : tracker.isDeletionProtected i = true ↔
    i ∈ tracker.pendingDeletions ∨ i ∈ tracker.scheduledDeletions := by
  simp [isDeletionProtected]

theorem isDeletionProtected_registerAll (ids : List SegmentId) :
    (ids.foldl register tracker).isDeletionProtected i = tracker.isDeletionProtected i := by
  induction ids generalizing tracker with
  | nil => rfl
  | cons id ids ih => rw [foldl_cons, ih]; rfl

theorem isDeletionProtected_acquire (ids : List SegmentId) :
    (tracker.acquire ids).1.isDeletionProtected i = tracker.isDeletionProtected i := by
  induction ids generalizing tracker with
  | nil => rfl
  | cons id ids ih =>
    rw [acquire]
    split
    · exact ih
    · exact ih

theorem isDeletionProtected_of_release {ids : List SegmentId}
    (h : (tracker.release ids).1.isDeletionProtected i = true) : tracker.isDeletionProtected i = true := by
  induction ids generalizing tracker with
  | nil => exact h
  | cons id ids ih =>
    have hone := ih h
    rw [isDeletionProtected_iff] at hone ⊢
    unfold releaseOne at hone
    split at hone
    · exact hone
    · split at hone
      · rename_i hlast
        simp only [Finset.mem_erase, Finset.mem_insert] at hone
        rcases hone with hone | rfl | hone
        · exact .inl hone.2
        · exact .inl hlast.2
        · exact .inr hone
      · exact hone

theorem isDeletionProtected_of_mark {ids : List SegmentId}
    (h : (tracker.markForDeletion ids).1.isDeletionProtected i = true) :
    tracker.isDeletionProtected i = true ∨ i ∈ ids := by
  induction ids generalizing tracker with
  | nil => exact .inl h
  | cons id ids ih =>
    rcases ih h with hone | hmem
    · rw [isDeletionProtected_iff] at hone ⊢
      unfold markOne at hone
      split at hone
      · exact .inl hone
      · simp only [Finset.mem_insert] at hone
        rcases hone with hone | rfl | hone
        · exact .inl (.inl hone)
        · exact .inr mem_cons_self
        · exact .inl (.inr hone)
      · simp only [Finset.mem_insert] at hone
        rcases hone with (rfl | hone) | hone
        · exact .inr mem_cons_self
        · exact .inl (.inl hone)
        · exact .inl (.inr hone)
    · exact .inr (mem_cons_of_mem _ hmem)

theorem isDeletionProtected_of_complete {ids : List SegmentId}
    (h : (tracker.completeDeletion ids).isDeletionProtected i = true) :
    tracker.isDeletionProtected i = true := by
  rw [isDeletionProtected_iff] at h ⊢
  exact h.imp_right mem_of_mem_foldl_erase

end SegmentTracker

end Summa
