import Summa.Index.WriterCalls
import Summa.Index.WriterCommit
import Summa.Index.WriterWorkers

/-!
# A primary-key index publishes the versions of its keys

The invariant of the writer holds in every reachable state (`inductive_inv`): calls, workers,
commits, aborts, refreshes and all other parties of the segment lifecycle may interleave in any
order. `versions_of_reach` says what this means for the calls and for the published rows.
`rowsOfKey_of_run`: what is not committed is not visible, and what is given up never is.
-/

namespace Summa

open List

/-- The event is a rejected call. -/
def WriterEvent.Rejected : WriterEvent → Prop
  | .add _ (.error _) | .upsert _ (.error _) | .delete _ (.error _) => True
  | .add _ (.ok _) | .upsert _ (.ok _) | .delete _ (.ok _) | .commit | .discard | .internal => False

namespace IndexWriter

variable {cfg : WriterConfig} {w w' : IndexWriter} {v : Versions} {e : WriterEvent}

/-! ## The invariant holds -/

/-- The keys of live rows are in the dictionaries. -/
theorem mem_dictKeys {field : Field} {data : List PkSegmentData} {key : String}
    (hreads : ∀ d ∈ data, d.Reads field) (h : SnapshotLive field data key) :
    key ∈ PrimaryKeyState.dictKeys data := by
  obtain ⟨d, hd, n, doc, hdoc, hkey, -⟩ := h
  refine mem_flatMap.mpr ⟨d, hd, ?_⟩
  rw [(hreads d hd).fastField, Option.map_some, Option.getD_some]
  refine mem_dedup.mpr (mem_map.mpr ⟨doc, mem_of_getElem? hdoc, hkey⟩)

theorem Init.inv (h : Init cfg w v) : Inv cfg w v := by
  obtain ⟨loaded, hload, hperm⟩ := h.loaded
  have hmanager := h.manager.inv
  obtain ⟨hheld, hnodup, hacc⟩ := snapshotRows_refreshed (s := { w with committedData := [] })
    hmanager (forall_mem_nil _) nodup_nil hload hperm rfl
  have hacc : Accurate w.manager w.committedData := hacc
  have hlive := fun k => hacc.snapshotLive (h.rows k)
  have hbloom : ∀ k, SnapshotLive cfg.field w.committedData k →
      w.staging.keys.bloom.mayContain k = true :=
    fun k hk => h.bloom k (mem_dictKeys (fun d hd => (hheld d hd).reads) hk)
  have hlookup : ∀ k, w.staging.keys.uncommitted.lookup k = none := by
    intro k
    rw [h.uncommitted]
    rfl
  have hfree : w.reserved = fun _ => none := by
    funext k
    rw [reserved, hlookup]
    rfl
  -- the workers have just started
  obtain ⟨ws, heap, hfresh, hidle, hrows⟩ := h.workers
  have hspec := freshWorkers_fresh ws heap
  have hws := freshWorkers_idle heap hidle
  rw [hfresh] at hspec hws
  have hres : Reserved heap fun _ => none := .empty fun r => by rw [hrows r]
  have hgen := hspec.generation cfg.field hws hres
  have hgeneration : w.generation =
      ⟨[], w.workers.map (fun x => (x.stagedRows, x.docs)), w.staging.heap⟩ := by
    simp only [IndexWriter.generation, h.queue, h.builtSegments, h.flushedSegments, append_nil,
      nil_append, map_nil, Generation.mk.injEq, and_true]
    exact filterMap_eq_nil_iff.mpr fun x hx => (hws x hx).1
  exact {
    manager := hmanager
    rows := h.rows
    owned := by
      rw [h.builtSegments, h.flushedSegments,
        filterMap_eq_nil_iff.mpr fun x hx => (hws x hx).2.2]
      exact ⟨nodup_nil, forall_mem_nil _, forall_mem_nil _⟩
    view := ⟨hheld, hnodup, fun k hk _ => (hlive k).mpr hk, hbloom⟩
    accurate := fun _ => hacc
    pending := fun r hr => by rw [h.refresh] at hr; cases hr
    pending_accurate := fun r hr => by rw [h.refresh] at hr; cases hr
    pending_commit := fun r hr => by rw [h.refresh] at hr; cases hr
    bloom := fun k hk => by
      rw [hfree] at hk
      exact hbloom k ((hlive k).mpr (hk.resolve_right fun hne => hne rfl))
    deletes := fun _ => h.deletes
    entries := fun _ k p hp => by rw [hlookup] at hp; cases hp
    idle := fun _ k _ => by rw [h.current, h.deletes, if_neg not_mem_nil]
    closed := fun hne => absurd h.phase hne
    published := fun hp => by cases h.phase.symm.trans hp
    reservations := by
      rw [hfree]
      exact .empty fun r => by rw [hspec.rows, hrows r]
    workers := fun x hx => (hspec.bound x hx).2
    generation := fun _ => by
      rw [hgeneration, hfree]
      exact hgen.1
    latest := fun _ => by
      rw [hgeneration, h.deletes]
      exact Latest.of_empty (fun d hd => hgen.2 d hd.choose hd.choose_spec) h.current }

theorem inv_step (h : Inv cfg w v) (hstep : Step cfg w e w') : Inv cfg w' (v.apply cfg e) := by
  cases hstep with
  | add lock doc => exact h.add lock doc
  | upsert lock read doc => exact h.upsert lock read doc
  | delete lock key => exact h.delete lock key
  | receive hq hw hrec hidle => exact h.receive hq hw hrec
  | attach hw hrec hattach => exact h.attach hw hrec hattach
  | skip hw hrec hattach => exact h.skip hw hrec hattach
  | failDocument hw hrec hheap => exact h.failDocument hw hrec hheap
  | drain hw hrec hfail => exact h.drain hw hrec hfail
  | claimSegment hw hrec hdocs hidle hid hreg => exact h.claimSegment hw hdocs hidle hid hreg
  | buildSegment hw hbuild hnew hlen => exact h.buildSegment hw hbuild hnew hlen
  | failSegment hw hrec hdocs => exact h.failSegment hw hdocs
  | close hphase hopen => exact h.close hphase
  | collect hphase hopen hclosed hflush hok => exact h.collect hphase hclosed hflush hok
  | discardFailed hphase hopen hclosed hflush hfail =>
    exact h.discard (by rw [hphase]; nofun) hflush
  | abort hphase =>
    exact h.discard (by rw [hphase]; nofun) (h.closed (by rw [hphase]; nofun)).1
  | commitNothing hphase hseg hdel => exact h.commitNothing hphase hseg hdel
  | beginCommit hphase hsome =>
    exact h.setPhase (by rw [hphase]; nofun) nofun fun _ => h.closed (by rw [hphase]; nofun)
  | publish hphase hkey hprimary hcommit => exact h.publish hphase hkey hcommit
  | publishShutdown hphase hkey hprimary hcommit =>
    refine (h.publish hphase hkey hcommit).retain rfl fun r hr => ⟨hr, fun hk => ?_⟩
    have := h.pending_commit r hr hk
    rw [hphase] at this
    cases this
  | failPublish hphase =>
    exact h.setPhase (by rw [hphase]; nofun) nofun fun hne => absurd rfl hne
  | beginRefresh kind hlock hkind hload hperm => exact h.beginRefresh kind hkind hload hperm
  | finishReplacement hr hkind => exact h.finishReplacement hr
  | failReplacement hr hkind => exact h.failReplacement
  | finishCommit hr hkind => exact h.finishCommit hr hkind
  | failCommitRefresh hphase hlock => exact h.failCommitRefresh hphase
  | signalShutdown => exact h.signalShutdown
  | background hstep hcommit hown => exact h.background hstep hcommit hown

theorem inductive_inv : (system cfg).Inductive fun s => Inv cfg s.1 s.2 :=
  ⟨fun _ h => h.inv, fun _ _ _ h hstep => hstep.2 ▸ inv_step h hstep.1⟩

/-! ## What the calls and the commits of a reachable writer do -/

theorem Inv.taken_iff (h : Inv cfg w v) {key : String} : w.Taken key ↔
    w.staging.keys.uncommitted.lookup key ≠ none ∨
      SnapshotLive cfg.field w.committedData key ∧ key ∉ w.staging.keys.deletes := by
  unfold Taken
  rw [any_hasLiveKey_iff fun d hd => (h.view.held d hd).reads, Option.isSome_iff_ne_none]
  refine or_congr_right ⟨fun ⟨hdel, _, hlive⟩ => ⟨hlive, hdel⟩, fun ⟨hlive, hdel⟩ => ?_⟩
  exact ⟨hdel, h.view.bloom key hlive, hlive⟩

theorem Step.staging_of_rejected (hstep : Step cfg w e w') (he : e.Rejected) :
    w.staging.Rejected w'.staging := by
  cases hstep with
  | add lock doc =>
    rcases addDocument_cases w cfg lock doc with ⟨key, hash, -, -, -, heq⟩ | ⟨e, s', hr, heq⟩
    · rw [heq] at he
      exact he.elim
    · rw [heq]
      exact hr
  | upsert lock read doc =>
    rcases upsertDocument_cases w cfg lock read doc with
      ⟨key, hash, unchanged, -, -, -, -, heq⟩ | ⟨e, s', hr, heq⟩
    · rw [heq] at he
      exact he.elim
    · rw [heq]
      exact hr
  | delete lock key =>
    rcases deletePrimaryKey_cases w cfg lock key with ⟨-, -, -, heq⟩ | ⟨e, heq⟩
    · rw [heq] at he
      exact he.elim
    · rw [heq]
      exact Std.Refl.refl _
  | _ => exact he.elim

/-- **Versions.** In every run of a writer, after every step:

* each key has at most one live row, the version that was accepted last before the last commit; a
  commit publishes the current versions;
* an addition is rejected as a duplicate exactly when it passes the checks before and the key is
  staged, or live in the committed snapshot and not staged for deletion;
* a rejected call leaves the key state, with its byte accounts, and the queue as they were. -/
theorem versions_of_reach (hreach : (system cfg).Reach (w, v)) (hstep : Step cfg w e w') :
    (∀ key, w'.rowsOfKey cfg key =
      (((v.apply cfg e).committed key).toList : Multiset Document)) ∧
    (e = .commit → ∀ key, w'.rowsOfKey cfg key = ((v.current key).toList : Multiset Document)) ∧
    (∀ lock doc key,
      (w.call (w.addDocument cfg lock doc)).1 = .error (.duplicatePrimaryKey key) ↔
        w.Admissible cfg lock doc key ∧ (w.staging.keys.uncommitted.lookup key ≠ none ∨
          SnapshotLive cfg.field w.committedData key ∧ key ∉ w.staging.keys.deletes)) ∧
    (e.Rejected → w'.staging.keys = w.staging.keys ∧ w'.staging.queue = w.staging.queue) := by
  have hinv := inductive_inv.reach hreach
  have hrows := (inv_step hinv hstep).rows
  refine ⟨hrows, fun he key => ?_, fun lock doc key => ?_, fun he => ?_⟩
  · subst he
    exact hrows key
  · rw [addDocument_duplicate_iff, hinv.taken_iff]
  · exact ⟨(hstep.staging_of_rejected he).keys, (hstep.staging_of_rejected he).queue⟩

/-! ## Runs over a small index -/

/-- A key, a content hash and a number. -/
def sampleConfig : WriterConfig where
  schema := ⟨[⟨"id", .text, true, true, true, true, false⟩,
    ⟨"hash", .text, false, true, false, false, true⟩, ⟨"n", .u64, true, true, false, false, false⟩]⟩
  field := 0
  primary := rfl
  layout := ⟨1, 1, 8, max⟩

def sampleDoc (hash : String) (n : Nat) : Document :=
  ⟨[(0, .text "a"), (1, .text hash), (2, .u64 n)]⟩

/-- New identities start at `base`. -/
def sampleEnv (base : Nat) : TxEnv Document where
  key doc := doc.key 0
  primaryField := true
  shutdown := false
  newId i := base + i
  protect _ := .ok ()

/-- One worker over an empty index. The filter takes every key for a possible one. -/
def emptyWriter : IndexWriter where
  manager := .opened ⟨0, ∅⟩ (fun _ => none) ∅
  staging := ⟨⟨⟨.new 64, 64, 0, by decide, by decide⟩, ∅, 0, 0, 0, [], 0⟩,
    (StagedHeap.mk (fun _ => ⟨false, none⟩) (fun _ => ⟨[]⟩) 0 0).newSegment.2, []⟩
  committedData := []
  workers := [⟨none, 0, [], none⟩]
  builtSegments := []
  flushedSegments := []
  phase := .idle
  senderClosed := false
  pkReservationsRetained := false
  cycleFailed := false
  shutdown := false
  refresh := none

def noVersions : Versions := ⟨fun _ => none, fun _ => none⟩

theorem init_emptyWriter : (system sampleConfig).init (emptyWriter, noVersions) where
  manager := Manager.init_opened (nofun) (nofun)
    fun _ hi => absurd rfl hi
  rows _ := rfl
  current := rfl
  uncommitted := rfl
  deletes := rfl
  queue := rfl
  loaded := ⟨[], rfl, .refl _⟩
  bloom := nofun
  workers := ⟨[⟨none, 0, [], none⟩], ⟨fun _ => ⟨false, none⟩, fun _ => ⟨[]⟩, 0, 0⟩, rfl, by simp,
    fun _ => rfl⟩
  builtSegments := rfl
  flushedSegments := rfl
  phase := rfl
  pkReservationsRetained := rfl
  cycleFailed := rfl
  refresh := rfl

/-- A run that starts with a step. -/
theorem Step.run {es : List WriterEvent} {P : IndexWriter × Versions → Prop}
    (hstep : Step cfg w e w') (hrun : ∃ s, (system cfg).Run (w', v.apply cfg e) es s ∧ P s) :
    ∃ s, (system cfg).Run (w, v) (e :: es) s ∧ P s := by
  obtain ⟨s, hrun, hs⟩ := hrun
  exact ⟨s, .cons ⟨hstep, rfl⟩ hrun, hs⟩

theorem only_worker (x : Worker) : [x] = [] ++ x :: [] := rfl

theorem sampleEnv_injective (base : Nat) : Function.Injective (sampleEnv base).newId :=
  fun _ _ h => Nat.add_left_cancel h

theorem sampleEnv_not_mem (i : Nat) : (sampleEnv 10).newId i ∉ (∅ ∪ {0} : Finset SegmentId) := by
  simp [sampleEnv]

/-- The document of key `"a"` is replaced after a worker attached it; then the generation is about to
be published. -/
theorem run_replaced : ∃ s : IndexWriter × Versions, (system sampleConfig).Run
    (emptyWriter, noVersions) [.add (sampleDoc "h" 0) (.ok ()), .internal, .internal,
      .upsert (sampleDoc "g" 1) (.ok ()), .internal, .internal, .internal, .internal, .internal,
      .internal, .internal] s ∧ (∃ w', Step sampleConfig s.1 .commit w') ∧
    s.2.current "a" = some (sampleDoc "g" 1) := by
  refine Step.run (.add .held _) ?_
  refine Step.run (.receive rfl (only_worker _) rfl rfl) ?_
  refine Step.run (.attach (only_worker _) rfl rfl) ?_
  refine Step.run (.upsert .held (.ok ()) _) ?_
  refine Step.run (.receive rfl (only_worker _) rfl rfl) ?_
  refine Step.run (.attach (only_worker _) rfl rfl) ?_
  refine Step.run (.claimSegment (only_worker _) rfl nofun rfl (Finset.notMem_empty 0) rfl) ?_
  refine Step.run (.buildSegment (only_worker _) rfl rfl (show 2 < 2 ^ 32 by decide)) ?_
  refine Step.run (.close rfl rfl) ?_
  refine Step.run (.collect rfl rfl rfl ⟨rfl, fun x hx => ?_⟩ rfl) ?_
  · rw [mem_singleton.mp hx]
    exact ⟨rfl, rfl, rfl⟩
  refine Step.run (.beginCommit rfl (.inl nofun)) ⟨_, .nil, ⟨_, .publish rfl
    (show (sampleEnv 10).key = _ from rfl) rfl
    (.commit (fun n hn => ?_) (sampleEnv_injective 10) sampleEnv_not_mem rfl rfl)⟩, rfl⟩
  rw [mem_singleton.mp hn]
  exact ⟨0, _, rfl, rfl⟩

/-- The replaced document was attached already; only the replacement is published. -/
theorem versions_of_replaced : ∃ (w w' : IndexWriter) (v : Versions),
    (system sampleConfig).Reach (w, v) ∧ Step sampleConfig w .commit w' ∧
    w'.rowsOfKey sampleConfig "a" = {sampleDoc "g" 1} := by
  obtain ⟨⟨w, v⟩, hrun, ⟨w', hstep⟩, hcur⟩ := run_replaced
  have hreach := hrun.reach (.init init_emptyWriter)
  refine ⟨w, w', v, hreach, hstep, ?_⟩
  rw [(versions_of_reach hreach hstep).2.1 rfl "a", hcur]
  rfl

/-- An accepted upsert with the content hash of the current version is not published. -/
theorem upsert_keeps_equal_hash : ∃ s : IndexWriter × Versions,
    (system sampleConfig).init (emptyWriter, noVersions) ∧
    (system sampleConfig).Run (emptyWriter, noVersions)
      [.add (sampleDoc "h" 0) (.ok ()), .upsert (sampleDoc "h" 1) (.ok ()), .internal, .internal,
        .internal, .internal, .internal, .internal, .internal, .commit] s ∧
    (sampleDoc "h" 1).key sampleConfig.field = "a" ∧
    s.1.rowsOfKey sampleConfig "a" = {sampleDoc "h" 0} ∧ sampleDoc "h" 0 ≠ sampleDoc "h" 1 := by
  suffices hrun : ∃ s, (system sampleConfig).Run (emptyWriter, noVersions) _ s ∧
      s.2.committed "a" = some (sampleDoc "h" 0) by
    obtain ⟨s, hrun, hcom⟩ := hrun
    refine ⟨s, init_emptyWriter, hrun, rfl, ?_, by decide⟩
    rw [(inductive_inv.reach (hrun.reach (.init init_emptyWriter))).rows "a", hcom]
    rfl
  refine Step.run (.add .held _) ?_
  refine Step.run (.upsert .held (.ok ()) _) ?_
  refine Step.run (.receive rfl (only_worker _) rfl rfl) ?_
  refine Step.run (.attach (only_worker _) rfl rfl) ?_
  refine Step.run (.claimSegment (only_worker _) rfl nofun rfl (Finset.notMem_empty 0) rfl) ?_
  refine Step.run (.buildSegment (only_worker _) rfl rfl (show 1 < 2 ^ 32 by decide)) ?_
  refine Step.run (.close rfl rfl) ?_
  refine Step.run (.collect rfl rfl rfl ⟨rfl, fun x hx => ?_⟩ rfl) ?_
  · rw [mem_singleton.mp hx]
    exact ⟨rfl, rfl, rfl⟩
  refine Step.run (.beginCommit rfl (.inl nofun)) ?_
  refine Step.run (.publish rfl (show (sampleEnv 10).key = _ from rfl) rfl
    (.commit (fun n hn => ?_) (sampleEnv_injective 10) sampleEnv_not_mem rfl rfl))
    ⟨_, .nil, rfl⟩
  rw [mem_singleton.mp hn]
  exact ⟨0, _, rfl, rfl⟩

/-! ## Nothing is visible before its commit -/

/-- Without a commit the committed versions are the same. -/
theorem committed_of_run {s s' : IndexWriter × Versions} {es : List WriterEvent} (hreach : (system cfg).Reach s)
    (hrun : (system cfg).Run s es s') (hes : .commit ∉ es) : s'.2.committed = s.2.committed := by
  refine hrun.keeps hreach rfl ?_
  rintro a e b he - ha ⟨-, hb⟩
  rw [hb, ← ha]
  cases e with
  | commit => exact absurd he hes
  | upsert doc outcome =>
    cases outcome with
    | error => rfl
    | ok =>
      rw [Versions.apply]
      split <;> rfl
  | add doc outcome | delete key outcome => cases outcome <;> rfl
  | discard | internal => rfl

/-- Nothing is visible before its commit: along a run without one the published rows of every key stay, and a
commit right after a discard publishes nothing of what was given up. -/
theorem rowsOfKey_of_run {es : List WriterEvent} {s : IndexWriter × Versions} (hreach : (system cfg).Reach (w, v))
    (hrun : (system cfg).Run (w, v) es s) (hes : .commit ∉ es) (key : String) :
    s.1.rowsOfKey cfg key = w.rowsOfKey cfg key ∧
      ∀ n s', (system cfg).Run s (.discard :: (replicate n .internal ++ [.commit])) s' →
        s'.1.rowsOfKey cfg key = w.rowsOfKey cfg key := by
  have hrows : ∀ s', (system cfg).Reach s' → s'.2.committed = v.committed →
      s'.1.rowsOfKey cfg key = w.rowsOfKey cfg key := fun s' hreach' hsame => by
    rw [(inductive_inv.reach hreach').rows key, (inductive_inv.reach hreach).rows key, hsame]
  have hcommitted := committed_of_run hreach hrun hes
  have hreach' := hrun.reach hreach
  refine ⟨hrows s hreach' hcommitted, fun n s' hrun' => hrows s' (hrun'.reach hreach') ?_⟩
  cases hrun' with
  | @cons _ s₁ _ _ _ hdiscard hrun' =>
    obtain ⟨s₂, hbetween, hrun'⟩ := hrun'.of_append
    have hsame : s₂.2 = s₁.2 := by
      refine hbetween.keeps (.step hreach' hdiscard) rfl ?_
      rintro a e b he - ha ⟨-, hb⟩
      rw [hb, eq_of_mem_replicate he]
      exact ha
    cases hrun' with
    | cons hcommit hnil =>
      cases hnil
      rw [hcommit.2, hsame, hdiscard.2]
      exact hcommitted

/-- A document of key `"a"` is committed. Its replacement is prepared and then aborted; the next commit has nothing to
publish. -/
theorem run_aborted : ∃ s₁, (system sampleConfig).Run (emptyWriter, noVersions)
    (.add (sampleDoc "h" 0) (.ok ()) :: (replicate 7 .internal ++ .commit :: replicate 2 .internal)) s₁ ∧
      s₁.2.committed "a" = some (sampleDoc "h" 0) ∧
      ∃ s₂, (system sampleConfig).Run s₁ (.upsert (sampleDoc "g" 1) (.ok ()) :: replicate 6 .internal) s₂ ∧
        s₂.2.current "a" = some (sampleDoc "g" 1) ∧
        ∃ s₃, (system sampleConfig).Run s₂ (.discard :: (replicate 2 .internal ++ [.commit])) s₃ ∧ True := by
  refine Step.run (.add .held _) ?_
  refine Step.run (.receive rfl (only_worker _) rfl rfl) ?_
  refine Step.run (.attach (only_worker _) rfl rfl) ?_
  refine Step.run (.claimSegment (only_worker _) rfl nofun rfl (Finset.notMem_empty 0) rfl) ?_
  refine Step.run (.buildSegment (only_worker _) rfl rfl (show 1 < 2 ^ 32 by decide)) ?_
  refine Step.run (.close rfl rfl) ?_
  refine Step.run (.collect rfl rfl rfl ⟨rfl, fun x hx => ?_⟩ rfl) ?_
  · rw [mem_singleton.mp hx]
    exact ⟨rfl, rfl, rfl⟩
  refine Step.run (.beginCommit rfl (.inl nofun)) ?_
  refine Step.run (.publish rfl (show (sampleEnv 10).key = _ from rfl) rfl
    (.commit (fun n hn => ?_) (sampleEnv_injective 10) sampleEnv_not_mem rfl rfl)) ?_
  · rw [mem_singleton.mp hn]
    exact ⟨0, _, rfl, rfl⟩
  refine Step.run (.beginRefresh .commit rfl (fun _ => rfl) rfl (.refl _)) ?_
  refine Step.run (.finishCommit rfl rfl) ⟨_, .nil, rfl, ?_⟩
  refine Step.run (.upsert .held (.ok ()) _) ?_
  refine Step.run (.receive rfl (only_worker _) rfl rfl) ?_
  refine Step.run (.attach (only_worker _) rfl rfl) ?_
  refine Step.run (.claimSegment (only_worker _) rfl nofun rfl (show 1 ∉ _ from ?_) rfl) ?_
  · decide +kernel
  refine Step.run (.buildSegment (only_worker _) rfl rfl (show 1 < 2 ^ 32 by decide)) ?_
  refine Step.run (.close rfl rfl) ?_
  refine Step.run (.collect rfl rfl rfl ⟨rfl, fun x hx => ?_⟩ rfl) ⟨_, .nil, rfl, ?_⟩
  · rw [mem_singleton.mp hx]
    exact ⟨rfl, rfl, rfl⟩
  refine Step.run (.abort rfl) ?_
  refine Step.run (.close rfl rfl) ?_
  refine Step.run (.collect rfl rfl rfl ⟨rfl, fun x hx => ?_⟩ rfl) ?_
  · rw [mem_singleton.mp hx]
    exact ⟨rfl, rfl, rfl⟩
  exact Step.run (.commitNothing rfl rfl rfl) ⟨_, .nil, trivial⟩

theorem rowsOfKey_of_aborted : ∃ s₁ s₂ s₃ : IndexWriter × Versions, (system sampleConfig).Reach s₁ ∧
    (system sampleConfig).Run s₁ (.upsert (sampleDoc "g" 1) (.ok ()) :: replicate 6 .internal) s₂ ∧
    (system sampleConfig).Run s₂ (.discard :: (replicate 2 .internal ++ [.commit])) s₃ ∧
    s₂.2.current "a" = some (sampleDoc "g" 1) ∧ s₂.1.rowsOfKey sampleConfig "a" = {sampleDoc "h" 0} ∧
    s₃.1.rowsOfKey sampleConfig "a" = {sampleDoc "h" 0} := by
  obtain ⟨⟨w, v⟩, hrun₁, hcommitted, s₂, hrun₂, hcurrent, s₃, hrun₃, -⟩ := run_aborted
  have hreach := hrun₁.reach (.init init_emptyWriter)
  have hrows : w.rowsOfKey sampleConfig "a" = {sampleDoc "h" 0} := by
    rw [(inductive_inv.reach hreach).rows "a", hcommitted]
    rfl
  obtain ⟨hsame, hdiscard⟩ := rowsOfKey_of_run hreach hrun₂ (by simp) "a"
  exact ⟨(w, v), s₂, s₃, hreach, hrun₂, hrun₃, hcurrent, hsame.trans hrows, (hdiscard 2 s₃ hrun₃).trans hrows⟩

end IndexWriter

end Summa
