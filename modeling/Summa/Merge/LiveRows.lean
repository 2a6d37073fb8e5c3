import Summa.Lib.Select
import Mathlib.Data.List.Induction
import Summa.Lib.Fallible
import Summa.Merge.Publication

/-!
# The rows a published state shows

A published state is a metadata generation over a directory. `visible` says which rows of a segment
a reader sees, `liveRows` lists them. `WellFormed` is what every publication keeps: each segment's
files are there with the recorded row count, and its deletion file loads.

* `visible_congr`, `WellFormed.congr`: only the owned identities matter.
* `writeMask_spec`: writing a mask under a fresh identity changes the visibility of one segment to
  that mask, and nothing else.
-/

namespace Summa

open Function Fallible Directory SegmentMetaInfo IndexMetadata

variable {ρ : Type}

/-- Row `d` of a segment with this lifecycle record is visible. -/
def SegmentMetaInfo.shows (self : SegmentMetaInfo) (dir : Directory ρ) (d : Nat) : Bool :=
  match self.visibility dir with
  | .ok alive => alive.contains d
  | .error _ => false

variable (dir : Directory ρ)

/-- Row `d` of segment `id` is visible in the published state. -/
def visible (md : IndexMetadata) (id : SegmentId) (d : Nat) : Bool :=
  match md.get id with
  | none => false
  | some info => info.shows dir d

/-- The visible rows of a segment, in row order. -/
def liveRows (md : IndexMetadata) (id : SegmentId) : List ρ :=
  select (visible dir md id) ((dir.rows id).getD [])

/-- The files of a segment match its lifecycle record. -/
structure SegmentOk (id : SegmentId) (info : SegmentMetaInfo) : Prop where
  files : ∃ rows, dir.rows id = some rows ∧ rows.length = info.numDocs
  bound : info.numDocs < 2 ^ 32
  mask : ∃ alive, info.visibility dir = .ok alive

/-- The files of every published segment match its lifecycle record. -/
def WellFormed (md : IndexMetadata) : Prop :=
  ∀ id info, md.get id = some info → SegmentOk dir id info

/-! ## Only the owned files matter -/

variable {dir dir' : Directory ρ} {md : IndexMetadata} {id m : SegmentId} {info : SegmentMetaInfo}

theorem Directory.rows_congr (h : dir' id = dir id) : dir'.rows id = dir.rows id := by
  unfold rows; rw [h]

theorem Directory.deletionFile_congr (h : dir' id = dir id) : dir'.deletionFile id = dir.deletionFile id := by
  unfold deletionFile; rw [h]

variable {rows : List ρ} {alive : DocBitset} {written : List (SegmentId × List Byte)}

theorem Directory.rows_eq_some : dir.rows id = some rows ↔ dir id = some (.segment rows) := by
  unfold Directory.rows
  split
  · rename_i heq; rw [heq]; simp
  · rename_i hne
    exact ⟨nofun, fun h => absurd h (hne rows)⟩

theorem Directory.rows_ne_none (h : dir.rows id = some rows) : dir id ≠ none := by
  intro hn; simp [Directory.rows, hn] at h

theorem visibility_congr (h : ∀ m, info.deletionId = some m → dir' m = dir m) :
    info.visibility dir' = info.visibility dir := by
  unfold visibility
  cases hd : info.deletions with
  | none => rfl
  | some deletion =>
    have hm : dir' deletion.id = dir deletion.id :=
      h _ (by simp [deletionId, hd])
    simp only [deletionFile_congr hm]

/-- The mask of a segment has the shape of its row count. -/
theorem fits_of_visibility (h : info.visibility dir = .ok alive) : alive.Fits info.numDocs := by
  unfold visibility at h
  split at h
  · cases h; exact DocBitset.fits_all _
  · exact (Deletion.load_eq_ok h).1

/-- A deletion file that loads is there. -/
theorem deletionFile_of_visibility (h : info.visibility dir = .ok alive)
    (hm : info.deletionId = some m) : dir m ≠ none := by
  intro hn
  obtain ⟨deletion, hd, rfl⟩ : ∃ deletion, info.deletions = some deletion ∧ deletion.id = m := by
    simpa [deletionId] using hm
  have hfile : dir.deletionFile deletion.id = none := by simp [deletionFile, hn]
  simp only [visibility, hd, hfile, DeletionMeta.load] at h
  split at h <;> cases h

theorem mem_ownedIds_self (h : md.get id = some info) : id ∈ md.ownedIds :=
  mem_ownedIds.mpr (.inl ⟨info, h⟩)

theorem mem_ownedIds_mask (h : md.get id = some info) (hm : info.deletionId = some m) : m ∈ md.ownedIds :=
  mem_ownedIds.mpr (.inr ⟨id, info, h, hm⟩)

theorem shows_eq (hv : info.visibility dir = .ok alive) : info.shows dir = alive.contains := by
  funext d; simp [shows, hv]

/-- Without a deletion file every row is visible. -/
theorem shows_of_deletions_eq_none (h : info.deletions = none) (d : Nat) :
    info.shows dir d = decide (d < info.numDocs) := by
  simp [shows, visibility, h]

theorem visible_of_get (hg : md.get id = some info) : visible dir md id = info.shows dir := by
  funext d; simp [visible, hg]

theorem visible_eq (hg : md.get id = some info)
    (hv : info.visibility dir = .ok alive) : visible dir md id = alive.contains := by
  rw [visible_of_get hg, shows_eq hv]

theorem visible_of_get_eq_none (h : md.get id = none) : visible dir md id = fun _ => false := by
  funext d; simp [visible, h]

theorem visible_congr (h : ∀ i ∈ md.ownedIds, dir' i = dir i) : visible dir' md = visible dir md := by
  funext id d
  unfold visible
  cases hg : md.get id with
  | none => rfl
  | some info =>
    have hv : info.visibility dir' = info.visibility dir :=
      visibility_congr fun m hm => h m (mem_ownedIds_mask hg hm)
    simp only [shows, hv]

/-- A segment with the same mask and row count, over the same files, has the same live rows. -/
theorem liveRows_congr {md' : IndexMetadata} {info' : SegmentMetaInfo} (hg : md.get id = some info)
    (hg' : md'.get id = some info') (hd : info.deletions = info'.deletions)
    (hn : info.numDocs = info'.numDocs) (hid : dir' id = dir id)
    (hm : ∀ m, info.deletionId = some m → dir' m = dir m) : liveRows dir' md' id = liveRows dir md id := by
  have hvis : info'.visibility dir' = info.visibility dir := by
    rw [← visibility_congr hm]
    unfold visibility
    rw [hd, hn]
  have hshow : info'.shows dir' = info.shows dir := by
    funext d; unfold shows; rw [hvis]
  rw [liveRows, liveRows, visible_of_get hg, visible_of_get hg', hshow, rows_congr hid]

namespace SegmentOk

theorem congr (hok : SegmentOk dir id info) (hid : dir' id = dir id)
    (hm : ∀ m, info.deletionId = some m → dir' m = dir m) : SegmentOk dir' id info where
  files := by rw [rows_congr hid]; exact hok.files
  bound := hok.bound
  mask := by rw [visibility_congr hm]; exact hok.mask

end SegmentOk

namespace WellFormed

section

variable (hwf : WellFormed dir md)

include hwf

theorem congr (h : ∀ i ∈ md.ownedIds, dir' i = dir i) : WellFormed dir' md :=
  fun id _ hg => (hwf id _ hg).congr (h id (mem_ownedIds_self hg))
    fun m hm => h m (mem_ownedIds_mask hg hm)

/-- The files of the owned identities are there. -/
theorem ne_none (h : id ∈ md.ownedIds) : dir id ≠ none := by
  rcases mem_ownedIds.mp h with ⟨info, hg⟩ | ⟨s, info, hg, hm⟩
  · obtain ⟨rows, hrows, -⟩ := (hwf id info hg).files
    exact rows_ne_none hrows
  · obtain ⟨alive, hv⟩ := (hwf s info hg).mask
    exact deletionFile_of_visibility hv hm

theorem not_mem_ownedIds (h : dir id = none) : id ∉ md.ownedIds :=
  fun hm => hwf.ne_none hm h

/-- A file under a new identity leaves the published state as it was. -/
theorem update_eq {new : SegmentId} (hnew : dir new = none)
    (f : Option (File ρ)) : ∀ i ∈ md.ownedIds, update dir new f i = dir i := by
  intro i hi
  rw [update_of_ne]
  rintro rfl
  exact hwf.not_mem_ownedIds hnew hi

theorem visibility_eq_ok (hg : md.get id = some info) :
    ∃ alive, info.visibility dir = .ok alive ∧ alive.Fits info.numDocs ∧
      visible dir md id = alive.contains := by
  obtain ⟨alive, hv⟩ := (hwf id info hg).mask
  exact ⟨alive, hv, fits_of_visibility hv, visible_eq hg hv⟩

end

end WellFormed

/-! ## Writing masks -/

/-- The `i`-th identities of a transaction are unused and distinct. -/
structure TxEnv.Fresh (env : TxEnv ρ) (dir : Directory ρ) : Prop where
  injective : Function.Injective env.newId
  unused : ∀ i, dir (env.newId i) = none

/-- The deletion files of a transaction took the first identities, in order. -/
def TxEnv.Wrote (env : TxEnv ρ) (written : List (SegmentId × List Byte)) : Prop :=
  written.map Prod.fst = (List.range written.length).map env.newId

@[simp] theorem Directory.writeAll_nil : dir.writeAll [] = dir := rfl

theorem Directory.writeAll_append (written : List (SegmentId × List Byte))
    (w : SegmentId × List Byte) : dir.writeAll (written ++ [w]) =
      update (dir.writeAll written) w.1 (some (.deletions w.2)) := by
  simp [writeAll]

theorem Directory.writeAll_of_not_mem (h : id ∉ written.map Prod.fst) : dir.writeAll written id = dir id := by
  induction written generalizing dir with
  | nil => rfl
  | cons w written ih =>
    simp only [List.map_cons, List.mem_cons, not_or] at h
    exact (ih h.2).trans (update_of_ne h.1 _ _)

theorem Directory.writeAll_of_mem (dir : Directory ρ)
    (h : id ∈ written.map Prod.fst) : ∃ bytes, dir.writeAll written id = some (.deletions bytes) := by
  induction written using List.reverseRecOn with
  | nil => cases h
  | append_singleton written w ih =>
    rw [writeAll_append]
    rcases eq_or_ne id w.1 with rfl | hne
    · exact ⟨w.2, update_self _ _ _⟩
    · rw [update_of_ne hne]
      refine ih ?_
      simpa [hne] using h

/-- Deletion files add no rows. -/
theorem Directory.rows_of_writeAll
    (h : (dir.writeAll written).rows id = some rows) : dir.rows id = some rows := by
  by_cases hw : id ∈ written.map Prod.fst
  · obtain ⟨bytes, hb⟩ := writeAll_of_mem dir hw
    rw [rows_eq_some, hb] at h
    cases h
  · rwa [rows_congr (writeAll_of_not_mem hw)] at h

theorem Directory.ne_none_of_writeAll
    (h : dir.writeAll written id ≠ none) : dir id ≠ none ∨ id ∈ written.map Prod.fst := by
  by_cases hw : id ∈ written.map Prod.fst
  · exact .inr hw
  · rw [writeAll_of_not_mem hw] at h
    exact .inl h

namespace TxEnv

variable {env : TxEnv ρ} {written : List (SegmentId × List Byte)}

theorem Wrote.append (h : env.Wrote written) (bytes : List Byte) :
    env.Wrote (written ++ [(env.newId written.length, bytes)]) := by
  unfold Wrote at *
  simp [h, List.range_succ]

/-- The next identity is still unused. -/
theorem Fresh.writeAll_next (hf : env.Fresh dir) (hw : env.Wrote written) :
    dir.writeAll written (env.newId written.length) = none := by
  rw [writeAll_of_not_mem, hf.unused]
  rw [hw, List.mem_map]
  rintro ⟨i, hi, heq⟩
  have := hf.injective heq
  simp only [List.mem_range] at hi; omega

theorem Fresh.writeAll_eq (hf : env.Fresh dir) (hw : env.Wrote written) (hid : dir id ≠ none) :
    dir.writeAll written id = dir id := by
  apply writeAll_of_not_mem
  rw [hw, List.mem_map]
  rintro ⟨i, -, rfl⟩
  exact hid (hf.unused i)

end TxEnv

section WriteMask

variable {env : TxEnv ρ} {acc acc' : Publication} {alive : DocBitset} {retired : List SegmentId}

/-- Inversion of `writeMask`. -/
theorem writeMask_eq_ok (h : writeMask env acc id info alive retired = .ok acc') :
    alive.Fits info.numDocs ∧ alive.count < info.numDocs ∧
      env.protect (env.newId acc.written.length) = .ok () ∧
      acc' = { acc with
        next := acc.next.addSegmentMeta id { info with
          deletions := some ⟨env.newId acc.written.length, info.numDocs - alive.count⟩ }
        written := acc.written ++ [(env.newId acc.written.length,
          Deletion.encode info.numDocs (info.numDocs - alive.count) alive)]
        retired := acc.retired ++ retired } := by
  obtain ⟨⟨⟩, hp, h⟩ := bind_eq_ok h
  obtain ⟨mask, hw, h⟩ := bind_eq_ok h
  obtain ⟨hf, hlt, rfl⟩ := Deletion.write_eq_ok hw
  cases h
  exact ⟨hf, hlt, hp, rfl⟩

/-- Inversion of `hideCommitted`. -/
theorem hideCommitted_eq_ok {target : SegmentId × DocBitset} (h : hideCommitted env md acc target = .ok acc') :
    ∃ info, md.get target.1 = some info ∧
      writeMask env acc target.1 info target.2 info.deletionId.toList = .ok acc' := by
  unfold hideCommitted at h
  split at h
  · cases h
  · exact ⟨_, ‹_›, h⟩

/-- Inversion of `hideStaged`. -/
theorem hideStaged_eq_ok {staged : SegmentId × StagedSegment} (h : hideStaged env md acc staged = .ok acc') :
    ∃ info alive, md.get staged.1 = none ∧ acc.next.get staged.1 = some info ∧
      staged.2.liveRows info.numDocs = some alive ∧ writeMask env acc staged.1 info alive [] = .ok acc' := by
  unfold hideStaged at h
  split at h
  · cases h
  rename_i hnew
  rw [Bool.not_eq_true, hasSegment_eq_false] at hnew
  split at h
  · cases h
  split at h
  · cases h
  · exact ⟨_, _, hnew, ‹_›, ‹_›, h⟩

/-- The published state `(dir', md')` shows segment `s` through the mask `alive`, and the other
segments as `(dir, md)` does. -/
structure SetsMask (dir : Directory ρ) (md : IndexMetadata) (dir' : Directory ρ)
    (md' : IndexMetadata) (s : SegmentId) (alive : DocBitset) : Prop where
  visible_eq : visible dir' md' = update (visible dir md) s alive.contains
  numDocs : ∀ t, (md'.get t).map (·.numDocs) = (md.get t).map (·.numDocs)

/-- A mask under a fresh identity changes the visibility of one segment to that mask. -/
theorem writeMask_spec (hfresh : env.Fresh dir) (hw : env.Wrote acc.written)
    (hwf : WellFormed (dir.writeAll acc.written) acc.next) {old : SegmentMetaInfo}
    (hold : acc.next.get id = some old) (hnum : old.numDocs = info.numDocs)
    (h : writeMask env acc id info alive retired = .ok acc') :
    env.Wrote acc'.written ∧ WellFormed (dir.writeAll acc'.written) acc'.next ∧
      SetsMask (dir.writeAll acc.written) acc.next (dir.writeAll acc'.written) acc'.next id alive := by
  obtain ⟨hf, hlt, -, rfl⟩ := writeMask_eq_ok h
  have hnew := hfresh.writeAll_next hw
  set D := dir.writeAll acc.written
  set new := env.newId acc.written.length
  set bytes := Deletion.encode info.numDocs (info.numDocs - alive.count) alive
  set info' : SegmentMetaInfo := { info with deletions := some ⟨new, info.numDocs - alive.count⟩ }
  have hD : dir.writeAll (acc.written ++ [(new, bytes)]) =
      update D new (some (.deletions bytes)) := writeAll_append _ _
  have hkeep := hwf.update_eq hnew (some (.deletions bytes))
  have hok := hwf id old hold
  have hload : info'.visibility (update D new (some (.deletions bytes))) = .ok alive := by
    simp only [info', visibility, deletionFile, update_self]
    exact Deletion.load_encode (hnum ▸ hok.bound) hf hlt
  have hvis : ∀ t, t ≠ id → visible (update D new (some (.deletions bytes)))
      (acc.next.addSegmentMeta id info') t = visible D acc.next t := by
    intro t ht
    rw [← visible_congr hkeep]
    funext d
    simp only [visible, get_addSegmentMeta_ne ht]
  refine ⟨hw.append _, ?_, ?_⟩
  · rw [hD]
    intro t infoT ht
    rcases eq_or_ne t id with rfl | hne
    · rw [get_addSegmentMeta_self] at ht
      cases ht
      obtain ⟨rows, hrows, hlen⟩ := hok.files
      refine ⟨⟨rows, ?_, hlen.trans hnum⟩, hnum ▸ hok.bound, alive, hload⟩
      rw [rows_congr (hkeep t (mem_ownedIds_self hold))]; exact hrows
    · rw [get_addSegmentMeta_ne hne] at ht
      exact (hwf.congr hkeep) t infoT ht
  · rw [hD]
    refine ⟨?_, fun t => ?_⟩
    · funext t
      rcases eq_or_ne t id with rfl | hne
      · rw [update_self, visible_eq get_addSegmentMeta_self hload]
      · rw [update_of_ne hne, hvis t hne]
    · rw [get_addSegmentMeta]
      split
      · rename_i ht; rw [ht, hold]; exact congrArg some hnum.symm
      · rfl

end WriteMask

end Summa
