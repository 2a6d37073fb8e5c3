import Summa.Index.Admission
import Summa.Index.WriterInvariant

/-!
# Calls keep the invariant of the writer

A rejected call keeps the invariant with the versions as they are (`Inv.rejected`). An accepted call
is a removal of the key's version (`Inv.remove`), an insertion of a new one (`Inv.insert`) or, for an
upsert, both. Whether an upsert is a no-op agrees with the current version (`hashUnchanged_eq`).
-/

namespace Summa

open Function Fallible PrimaryKeyIndex IndexWriter Versions

namespace IndexWriter

variable {cfg : WriterConfig} {w : IndexWriter} {v : Versions} {s' : Staging} {doc : Document}
  {key : String}

theorem Inv.phase_idle (h : Inv cfg w v) (hopen : w.senderClosed = false) : w.phase = .idle := by
  by_contra hne
  have := (h.closed hne).2.2.1
  rw [hopen] at this
  cases this

theorem Inv.not_stale (h : Inv cfg w v) (hopen : w.senderClosed = false)
    (hret : w.pkReservationsRetained = false) : ¬ w.stale := by
  rintro (hs | hs)
  · rw [hret] at hs
    cases hs
  · rw [h.phase_idle hopen] at hs
    cases hs

theorem Inv.rejected (h : Inv cfg w v) (hr : w.staging.Rejected s') : Inv cfg (w.withStaging s') v := by
  obtain ⟨keys, heap, queue⟩ := s'
  obtain ⟨hkeys, hqueue, hheap⟩ := hr
  cases hkeys
  cases hqueue
  rcases hheap with hheap | hheap
  · cases hheap
    exact h
  · cases hheap
    exact { h with
      reservations := h.reservations.newRow
      generation := fun hok => ((h.generation hok).newRow h.reservations).1
      latest := fun hok => (h.latest hok).congr fun d =>
        exists_congr fun r => ((h.generation hok).newRow h.reservations).2 d r }

/-! ## Removals -/

/-- The staged version of a key is cancelled and the key is deleted. -/
structure Removed (s s' : Staging) (key : String) : Prop where
  lookup : ∀ k, s'.keys.uncommitted.lookup k =
    if k = key then none else s.keys.uncommitted.lookup k
  bloom : s'.keys.bloom = s.keys.bloom
  deletes : ∀ k, k ∈ s'.keys.deletes ↔ k ∈ s.keys.deletes ∨ k = key
  heap : s'.heap = ((s.keys.uncommitted.lookup key).map fun p => s.heap.cancel p.row).getD s.heap
  queue : s'.queue = s.queue

theorem mem_stageDelete {state : PrimaryKeyState} {k : String} :
    k ∈ (stageDelete state key).2.deletes ↔ k ∈ state.deletes ∨ k = key := by
  unfold stageDelete
  split
  · rename_i hmem
    exact ⟨.inl, fun h => h.elim id fun heq => heq ▸ hmem⟩
  · simp

theorem uncommitted_stageDelete (state : PrimaryKeyState) (key : String) :
    (stageDelete state key).2.uncommitted = state.uncommitted := by
  unfold stageDelete
  split <;> rfl

theorem bloom_stageDelete (state : PrimaryKeyState) (key : String) :
    (stageDelete state key).2.bloom = state.bloom := by
  unfold stageDelete
  split <;> rfl

theorem removed_deleted (s : Staging) (key : String) : Removed s (deleted s key) key := by
  cases hl : s.keys.uncommitted.lookup key with
  | none =>
    have heq : deleted s key = { s with keys := (stageDelete s.keys key).2 } := by
      simp only [deleted, Staging.removePending, uncommitted_stageDelete, hl]
    rw [heq]
    refine ⟨fun k => ?_, bloom_stageDelete _ _, fun k => mem_stageDelete, by rw [hl]; rfl, rfl⟩
    rw [uncommitted_stageDelete]
    split
    · rename_i heq
      rw [heq, hl]
    · rfl
  | some old =>
    unfold deleted Staging.removePending
    simp only [uncommitted_stageDelete, hl]
    refine ⟨fun k => ?_, bloom_stageDelete _ _, fun k => mem_stageDelete, by rw [hl]; rfl, rfl⟩
    by_cases hk : k = key
    · rw [if_pos hk, hk]
      exact AList.lookup_erase _ _
    · rw [if_neg hk]
      exact AList.lookup_erase_ne hk

/-- The reservation of one key changes. -/
theorem reserved_withStaging {entry : Option PendingKey} (h : ∀ k, s'.keys.uncommitted.lookup k =
      if k = key then entry else w.staging.keys.uncommitted.lookup k) :
    (w.withStaging s').reserved = update w.reserved key (entry.map (·.row)) := by
  funext k
  rw [reserved, withStaging_staging, h]
  by_cases hk : k = key
  · rw [if_pos hk, hk, update_self]
  · rw [if_neg hk, update_of_ne hk]
    rfl

theorem Inv.remove (h : Inv cfg w v) (hopen : w.senderClosed = false) (hstale : ¬ w.stale)
    (hr : Removed w.staging s' key) : Inv cfg (w.withStaging s') (v.set key none) := by
  have hphase := h.phase_idle hopen
  have hres := reserved_withStaging hr.lookup
  rw [Option.map_none] at hres
  have hcovers : ∀ {data}, Accurate w.manager data → ∀ k, v.committed k ≠ none →
      (w.withStaging s').reserved k = none → SnapshotLive cfg.field data k :=
    fun hacc k hk _ => (hacc.snapshotLive (h.rows k)).mpr hk
  have hsub : ∀ k, (w.withStaging s').reserved k ≠ none → w.reserved k ≠ none := by
    intro k hk
    rw [hres] at hk
    by_cases heq : k = key
    · rw [heq, update_self] at hk
      exact absurd rfl hk
    · rwa [update_of_ne heq] at hk
  have hview : ∀ {data}, Accurate w.manager data →
      View cfg.field w.manager w.reserved w.staging.keys.bloom v.committed data →
      View cfg.field w.manager (w.withStaging s').reserved s'.keys.bloom v.committed data :=
    fun hacc hv => hv.mono (fun k hk => by rwa [hr.bloom]) (hcovers hacc)
  -- the rows and the live documents of the generation
  have hgen : Reserved s'.heap (w.withStaging s').reserved ∧
      s'.heap.nextSegment = w.staging.heap.nextSegment ∧ (w.cycleFailed = false →
        (w.withStaging s').generation.Inv cfg.field (w.withStaging s').reserved ∧
        ∀ d, (∃ r, (w.withStaging s').generation.Live d r) ↔
          (∃ r, w.generation.Live d r) ∧ d.key cfg.field ≠ key) := by
    have hgeneration : (w.withStaging s').generation =
        { w.generation with heap := s'.heap } := by
      simp only [IndexWriter.generation, withStaging_staging, hr.queue]
      rfl
    rw [hgeneration]
    cases hl : w.staging.keys.uncommitted.lookup key with
    | none =>
      have hkey : w.reserved key = none := by rw [reserved, hl]; rfl
      have hsame : (w.withStaging s').reserved = w.reserved := by
        rw [hres, ← hkey, update_eq_self]
      have hheap : s'.heap = w.staging.heap := by rw [hr.heap, hl]; rfl
      rw [hsame, hheap]
      refine ⟨h.reservations, rfl, fun hok => ⟨h.generation hok, fun d => ?_⟩⟩
      refine (and_iff_left_of_imp fun hlive heq => ?_).symm
      have := (h.generation hok).linked hlive.choose_spec
      rw [heq, hkey] at this
      cases this
    | some p =>
      have hkey : w.reserved key = some p.row := by rw [reserved, hl]; rfl
      have hheap : s'.heap = w.staging.heap.cancel p.row := by rw [hr.heap, hl]; rfl
      rw [hres, hheap]
      refine ⟨h.reservations.release, StagedHeap.nextSegment_cancel, fun hok => ?_⟩
      obtain ⟨hi, hlive⟩ := (h.generation hok).cancel h.reservations hkey
      exact ⟨hi, fun d => (exists_congr fun r => hlive d r).trans exists_and_right⟩
  obtain ⟨hreserved, hnext, hgen⟩ := hgen
  exact { h with
    view := hview (h.accurate hstale) h.view
    pending := fun r hr' => hview (h.pending_accurate r hr' (.inl hstale)) (h.pending r hr')
    bloom := fun k hk => by
      rw [withStaging_staging, hr.bloom]
      exact h.bloom k (hk.imp id (hsub k))
    deletes := fun hs => absurd hs hstale
    entries := fun _ k p hl => by
      rw [withStaging_staging, hr.lookup] at hl
      split at hl
      · cases hl
      · rw [set_current_ne ‹_›]
        exact h.entries hstale k p hl
    idle := fun _ k hl => by
      rw [withStaging_staging, hr.lookup] at hl
      by_cases hk : k = key
      · rw [hk, set_current_self, withStaging_staging,
          if_pos ((hr.deletes key).mpr (.inr rfl))]
      · rw [if_neg hk] at hl
        rw [set_current_ne hk, h.idle hstale k hl]
        simp only [withStaging_staging, hr.deletes, hk, or_false]
        rfl
    closed := fun hne => absurd hphase hne
    published := fun hp => by cases hphase.symm.trans hp
    reservations := hreserved
    workers := fun x hx => by
      rw [withStaging_staging, hnext]
      exact h.workers x hx
    generation := fun hok => (hgen hok).1
    latest := fun hok => (h.latest hok).remove hr.deletes (hgen hok).2 }

/-! ## Insertions -/

/-- A document takes the free reservation of its key and enters the queue. -/
structure Inserted (s s' : Staging) (doc : Document) (key : String) (p : PendingKey) : Prop where
  lookup : ∀ k, s'.keys.uncommitted.lookup k =
    if k = key then some p else s.keys.uncommitted.lookup k
  bloom : s'.keys.bloom = s.keys.bloom.insert key
  deletes : s'.keys.deletes = s.keys.deletes
  row : p.row = s.heap.newRow.1
  heap : s'.heap = s.heap.newRow.2
  queue : s'.queue = s.queue ++ [⟨doc, s.heap.newRow.1⟩]

variable {p : PendingKey} {hash : Option FieldValue}

theorem Inv.insert (h : Inv cfg w v) (hopen : w.senderClosed = false)
    (hkey : doc.key cfg.field = key) (hhash : documentHash doc cfg.schema = .ok p.hash)
    (hfree : w.reserved key = none) (hdel : key ∈ w.staging.keys.deletes ∨ v.committed key = none)
    (hr : Inserted w.staging s' doc key p) : Inv cfg (w.withStaging s') (v.set key (some doc)) := by
  have hphase := h.phase_idle hopen
  have hres := reserved_withStaging hr.lookup
  rw [Option.map_some, hr.row] at hres
  have hsub : ∀ {k}, (w.withStaging s').reserved k = none → k ≠ key ∧ w.reserved k = none := by
    intro k hk
    rw [hres] at hk
    by_cases heq : k = key
    · rw [heq, update_self] at hk
      cases hk
    · rw [update_of_ne heq] at hk
      exact ⟨heq, hk⟩
  have hgrow : ∀ k, w.staging.keys.bloom.mayContain k = true → s'.keys.bloom.mayContain k = true := by
    intro k hk
    rw [hr.bloom]
    exact BloomFilter.mayContain_insert _ hk
  have hview : ∀ {data}, View cfg.field w.manager w.reserved w.staging.keys.bloom v.committed data →
      View cfg.field w.manager (w.withStaging s').reserved s'.keys.bloom v.committed data :=
    fun hv => hv.mono hgrow fun k hk hnone => hv.covers k hk (hsub hnone).2
  have hgen : w.cycleFailed = false →
      (w.withStaging s').generation.Inv cfg.field (w.withStaging s').reserved ∧
      ∀ d, (∃ r, (w.withStaging s').generation.Live d r) ↔
        (∃ r, w.generation.Live d r) ∨ d = doc := by
    intro hok
    set q : QueuedDocument := ⟨doc, w.staging.heap.newRow.1⟩ with hq
    obtain ⟨hi₁, hl₁⟩ := (h.generation hok).newRow h.reservations
    obtain ⟨hi₂, hl₂⟩ := hi₁.push (q := q) StagedHeap.rows_newRow_self (Nat.lt_succ_self _)
      (fun p hp => ((h.generation hok).rows_bound p hp).ne) (hkey.symm ▸ hfree)
    have hinflight : (w.withStaging s').generation.inflight.Perm (w.generation.inflight ++ [q]) := by
      simp only [IndexWriter.generation, withStaging_staging, hr.queue, List.append_assoc]
      exact List.perm_append_comm.append_left _
    obtain ⟨hi₃, hl₃⟩ := hi₂.perm hinflight (.refl _) hr.heap
    rw [hres, ← hkey]
    refine ⟨hi₃, fun d => ?_⟩
    simp only [hl₃, hl₂, hl₁, exists_or, exists_and_left, exists_eq, and_true]
    rfl
  obtain ⟨hreserved, hnext⟩ : Reserved s'.heap (w.withStaging s').reserved ∧
      s'.heap.nextSegment = w.staging.heap.nextSegment := by
    rw [hr.heap, hres]
    exact ⟨h.reservations.reserve, rfl⟩
  exact { h with
    view := hview h.view
    pending := fun r hr' => hview (h.pending r hr')
    bloom := fun k hk => by
      rw [withStaging_staging]
      by_cases heq : k = key
      · rw [hr.bloom, heq]
        exact BloomFilter.mayContain_insert_self _
      · rw [hres, update_of_ne heq] at hk
        exact hgrow k (h.bloom k hk)
    deletes := fun hs => hr.deletes.trans (h.deletes hs)
    entries := fun hs k e hl => by
      rw [withStaging_staging, hr.lookup] at hl
      split at hl
      · rename_i heq
        cases hl
        exact ⟨doc, by rw [heq, set_current_self], hhash⟩
      · rw [set_current_ne ‹_›]
        exact h.entries hs k e hl
    idle := fun hs k hl => by
      rw [withStaging_staging, hr.lookup] at hl
      split at hl
      · cases hl
      · rw [set_current_ne ‹_›, withStaging_staging, hr.deletes]
        exact h.idle hs k hl
    closed := fun hne => absurd hphase hne
    published := fun hp => by cases hphase.symm.trans hp
    reservations := hreserved
    workers := fun x hx => by
      rw [withStaging_staging, hnext]
      exact h.workers x hx
    generation := fun hok => (hgen hok).1
    latest := fun hok => by
      subst hkey
      rw [withStaging_staging, hr.deletes]
      refine (h.latest hok).insert (fun d hlive heq => ?_) hdel (hgen hok).2
      have := (h.generation hok).linked hlive.choose_spec
      rw [heq, hfree] at this
      cases this }

theorem lookup_insert_ite {m : AList fun _ : String => PendingKey} (k : String) :
    (m.insert key p).lookup k = if k = key then some p else m.lookup k := by
  by_cases hk : k = key
  · rw [if_pos hk, hk, AList.lookup_insert]
  · rw [if_neg hk, AList.lookup_insert_ne hk]

theorem inserted_admitted {s : Staging} (hfree : s.keys.uncommitted.lookup key = none) :
    Inserted s (admitted cfg s doc key hash false) doc key
      ⟨s.heap.newRow.1, hash, cfg.layout.pendingBytes key hash⟩ := by
  unfold admitted Staging.finishAdmission
  simp only [hfree, Bool.false_eq_true, if_false]
  exact ⟨lookup_insert_ite, rfl, rfl, rfl, rfl, rfl⟩

/-- A replacement is an insertion after a removal. -/
theorem inserted_replaced {s : Staging}
    (hbound : ∀ p, s.keys.uncommitted.lookup key = some p → p.row ≠ s.heap.nextRow) :
    Inserted (deleted s key) (admitted cfg s doc key hash true) doc key
      ⟨s.heap.newRow.1, hash, cfg.layout.pendingBytes key hash⟩ := by
  have hrem := removed_deleted s key
  unfold admitted Staging.finishAdmission
  simp only [if_true, uncommitted_stageDelete, bloom_stageDelete]
  have hlook : ∀ k, ((s.keys.uncommitted.insert key
      ⟨s.heap.newRow.1, hash, cfg.layout.pendingBytes key hash⟩).lookup k) =
      if k = key then some ⟨s.heap.newRow.1, hash, cfg.layout.pendingBytes key hash⟩
      else (deleted s key).keys.uncommitted.lookup k := by
    intro k
    rw [lookup_insert_ite, hrem.lookup]
    split <;> rfl
  have hdel : (deleted s key).keys.deletes = (stageDelete s.keys key).2.deletes := by
    unfold deleted Staging.removePending
    split <;> rfl
  cases hl : s.keys.uncommitted.lookup key with
  | none =>
    have hheap : (deleted s key).heap = s.heap := by rw [hrem.heap, hl]; rfl
    refine ⟨hlook, by rw [hrem.bloom], hdel.symm, ?_, ?_, ?_⟩
    all_goals simp only [hheap, hrem.queue]
  | some old =>
    have hheap : (deleted s key).heap = s.heap.cancel old.row := by rw [hrem.heap, hl]; rfl
    have hrow : (s.heap.cancel old.row).newRow.1 = s.heap.newRow.1 := StagedHeap.nextRow_cancel
    refine ⟨hlook, by rw [hrem.bloom], hdel.symm, ?_, ?_, ?_⟩
    · rw [hheap, hrow]
    · rw [hheap, ← StagedHeap.newRow_cancel (hbound old hl)]
    · rw [hheap, hrow, hrem.queue]

/-! ## The steps of the calls -/

/-- A document that is admitted without a replacement has no other version. -/
theorem Inv.free_of_admission (h : Inv cfg w v) {bytes : Nat}
    (hadm : checkAdmission cfg.layout w.committedData w.staging.keys key false bytes =
      .ok ()) :
    w.staging.keys.uncommitted.lookup key = none ∧
      (key ∈ w.staging.keys.deletes ∨ v.committed key = none) := by
  have hdup := mt checkAdmission_duplicate.mpr
    (show ¬ checkAdmission cfg.layout w.committedData w.staging.keys key false bytes =
      .error (.duplicatePrimaryKey key) by rw [hadm]; nofun)
  simp only [true_and, not_or, not_and] at hdup
  obtain ⟨hfree, hlive⟩ := hdup
  have hfree : w.staging.keys.uncommitted.lookup key = none := by simpa using hfree
  refine ⟨hfree, or_iff_not_imp_left.mpr fun hdel => ?_⟩
  by_contra hne
  refine hlive hdel (h.bloom key (.inl hne)) ((any_hasLiveKey_iff fun d hd =>
    (h.view.held d hd).reads).mpr (h.view.covers key hne ?_))
  rw [reserved, hfree]
  rfl

theorem Inv.add (h : Inv cfg w v) (lock : WriterLock) (doc : Document) :
    Inv cfg (w.call (w.addDocument cfg lock doc)).2
      (v.apply cfg (.add doc (w.call (w.addDocument cfg lock doc)).1)) := by
  rcases addDocument_cases w cfg lock doc with ⟨key, hash, ha, hh, hadm, heq⟩ | ⟨e, s', hr, heq⟩
  · rw [heq]
    obtain ⟨hfree, hdel⟩ := h.free_of_admission hadm
    have hkey := Document.key_of_documentKey ha.key
    rw [apply, hkey]
    exact h.insert (p := ⟨_, hash, _⟩) ha.senderClosed hkey hh
      (by rw [reserved, hfree]; rfl) hdel (inserted_admitted hfree)
  · rw [heq]
    exact h.rejected hr

/-- A stored document with this content hash. -/
theorem sameHash_some {hash : FieldValue} {stored : Document} {hash' : Option FieldValue}
    (hhash : documentHash doc cfg.schema = .ok (some hash))
    (hstored : documentHash stored cfg.schema = .ok hash') :
    sameHash cfg.schema doc (some stored) = (hash' == some hash) := by
  simp only [sameHash, hashOf, hhash, hstored, Option.bind_some]

theorem sameHash_none (doc : Document) : sameHash cfg.schema doc none = false := by
  unfold sameHash
  split <;> rfl

/-- The committed row that is read for the content hash of a key without a staged version is its
current version. -/
theorem Inv.current_of_target (h : Inv cfg w v) (hstale : ¬ w.stale)
    (hfree : w.staging.keys.uncommitted.lookup key = none) {target : Option ContentHashTarget}
    (ht : contentHashTarget w.committedData w.staging.keys key = .ok target) :
    (target = none ∧ v.current key = none) ∨
      ∃ t stored, target = some t ∧ t.store[t.row]? = some stored ∧ v.current key = some stored := by
  have hidle := h.idle hstale key hfree
  have hacc := h.accurate hstale
  unfold contentHashTarget at ht
  split at ht
  · rename_i hskip
    cases ht
    refine .inl ⟨rfl, ?_⟩
    rw [hidle]
    rcases hskip with hbloom | hsome | hdel
    · have hnone : v.committed key = none := by
        by_contra hne
        rw [h.bloom key (.inl hne)] at hbloom
        cases hbloom
      rw [hnone, ite_self]
    · rw [hfree] at hsome
      cases hsome
    · rw [if_pos hdel]
  · rename_i hskip
    rw [not_or, not_or] at hskip
    rw [if_neg hskip.2.2] at hidle
    rcases foldlM_probeTarget (fun d hd => (h.view.held d hd).reads) ht with
      ⟨rfl, hno⟩ | ⟨t, stored, rfl, hstored, hmem⟩
    · refine .inl ⟨rfl, hidle.trans ?_⟩
      by_contra hne
      exact hno ((hacc.snapshotLive (h.rows key)).mpr hne)
    · refine .inr ⟨t, stored, rfl, hstored, hidle.trans ?_⟩
      rw [(hacc.rows (h.rows key)).mem_iff, Option.mem_toList] at hmem
      exact hmem

/-- An upsert is a no-op exactly when the current version has its content hash. -/
theorem Inv.hashUnchanged_eq (h : Inv cfg w v) (hstale : ¬ w.stale) {read : Result Unit}
    {unchanged : Bool} (hhash : documentHash doc cfg.schema = .ok hash)
    (hu : w.hashUnchanged cfg w.staging.keys read key hash = .ok unchanged) :
    unchanged = sameHash cfg.schema doc (v.current key) := by
  unfold hashUnchanged at hu
  cases hash with
  | none =>
    cases hu
    simp only [sameHash, hashOf, hhash]
  | some hash =>
    cases hl : w.staging.keys.uncommitted.lookup key with
    | some p =>
      obtain ⟨stored, hcur, hstored⟩ := h.entries hstale key p hl
      simp only [stagedHashMatches, hl, Option.map_some] at hu
      cases hu
      rw [hcur, sameHash_some hhash hstored]
    | none =>
      simp only [stagedHashMatches, hl, Option.map_none] at hu
      obtain ⟨target, htarget, hu⟩ := bind_eq_ok hu
      rcases h.current_of_target hstale hl htarget with ⟨rfl, hcur⟩ | ⟨t, stored, rfl, hrow, hcur⟩
      · cases hu
        rw [hcur, sameHash_none]
      · obtain ⟨-, -, hu⟩ := bind_eq_ok hu
        rw [hrow] at hu
        simp only at hu
        split at hu
        · cases hu
        · cases hu
        · rename_i hash' hstored
          cases hu
          rw [hcur, sameHash_some hhash hstored]

theorem Inv.upsert (h : Inv cfg w v) (lock : WriterLock) (read : Result Unit) (doc : Document) :
    Inv cfg (w.call (w.upsertDocument cfg lock read doc)).2
      (v.apply cfg (.upsert doc (w.call (w.upsertDocument cfg lock read doc)).1)) := by
  rcases upsertDocument_cases w cfg lock read doc with
    ⟨key, hash, unchanged, ha, hret, hh, hu, heq⟩ | ⟨e, s', hr, heq⟩
  · have hstale := h.not_stale ha.senderClosed hret
    have hkey := Document.key_of_documentKey ha.key
    rw [heq, apply, hkey, ← h.hashUnchanged_eq hstale hh hu]
    cases unchanged with
    | true => exact h
    | false =>
      have hrem := h.remove ha.senderClosed hstale (removed_deleted w.staging key)
      have hins : Inserted (deleted w.staging key) (admitted cfg w.staging doc key hash true) doc key
          ⟨w.staging.heap.newRow.1, hash, cfg.layout.pendingBytes key hash⟩ := by
        refine inserted_replaced fun p hp => (h.reservations.bound (k := key) ?_).ne
        rw [reserved, hp]
        rfl
      have hadm := hrem.insert ha.senderClosed hkey hh
        (by rw [reserved_withStaging (removed_deleted w.staging key).lookup, update_self]; rfl)
        (.inl (((removed_deleted w.staging key).deletes key).mpr (.inr rfl))) hins
      rwa [set_set] at hadm
  · rw [heq]
    exact h.rejected hr

theorem Inv.delete (h : Inv cfg w v) (lock : WriterLock) (key : String) :
    Inv cfg (w.call (w.deletePrimaryKey cfg lock key)).2
      (v.apply cfg (.delete key (w.call (w.deletePrimaryKey cfg lock key)).1)) := by
  rcases deletePrimaryKey_cases w cfg lock key with ⟨hprog, hopen, hret, heq⟩ | ⟨e, heq⟩
  · rw [heq]
    exact h.remove hopen (h.not_stale hopen hret) (removed_deleted w.staging key)
  · rw [heq]
    exact h

end IndexWriter

end Summa
