import Summa.Index.Writer

/-!
# What the calls of a writer do

One lemma for a call that is accepted and one for a call that is rejected. A rejected call leaves
the key state, its byte accounts and the queue as they were (`Staging.Rejected`); at most a row
handle was created and dropped again.

An addition is rejected as a duplicate exactly when it passes the checks before (`Admissible`) and
the key is staged, or live in the committed readers and not staged for deletion
(`addDocument_duplicate_iff`).
-/

namespace Summa

open EState Fallible PrimaryKeyIndex

/-- What a rejected call leaves behind. -/
structure Staging.Rejected (s s' : Staging) : Prop where
  keys : s'.keys = s.keys
  queue : s'.queue = s.queue
  heap : s'.heap = s.heap ∨ s'.heap = s.heap.newRow.2

instance : Std.Refl Staging.Rejected := ⟨fun _ => ⟨rfl, rfl, .inl rfl⟩⟩

variable {s s' : Staging} {e : Error} {cfg : WriterConfig} {w : IndexWriter} {doc : Document}
  {lock : WriterLock} {read : Result Unit} {key : String} {replace : Bool}

namespace PrimaryKeyIndex

variable {layout : PkLayout}

theorem delete_ok {b : Bool} (h : delete layout key s = .ok b s') :
    s' = { s with keys := (stageDelete s.keys key).2 }.removePending key := by
  unfold delete at h
  obtain ⟨-, -, h⟩ := check_bind_ok h
  obtain ⟨-, -, h⟩ := check_bind_ok h
  obtain ⟨-, -, h⟩ := check_bind_ok h
  cases h
  rfl

theorem delete_error : FailsWith (· = ·) (delete layout key) := by
  unfold delete
  refine .check fun _ => .get fun _ => .check fun _ => .check fun _ => ?_
  intro s e s' h
  cases h

variable {data : List PkSegmentData}

/-- The only duplicates that admission finds. -/
theorem checkAdmission_duplicate {state : PrimaryKeyState} {bytes : Nat} {key' : String} :
    checkAdmission layout data state key replace bytes = .error (.duplicatePrimaryKey key') ↔
      key' = key ∧ replace = false ∧ ((state.uncommitted.lookup key).isSome = true ∨
        key ∉ state.deletes ∧ state.bloom.mayContain key = true ∧
          data.any (·.hasLiveKey key) = true) := by
  have hbudget : ∀ old new cancelled,
      checkPendingBudget layout state old new cancelled ≠ .error (.duplicatePrimaryKey key') := by
    intro old new cancelled h
    unfold checkPendingBudget at h
    split at h <;> cases h
  have hdelete : checkDeleteBudget state key ≠ .error (.duplicatePrimaryKey key') := by
    intro h
    unfold checkDeleteBudget at h
    split at h <;> cases h
  unfold checkAdmission
  cases replace with
  | true =>
    simp only [↓reduceIte, Bool.true_eq_false, false_and, and_false, iff_false]
    cases hd : checkDeleteBudget state key with
    | error e =>
      rw [error_bind, ← hd]
      exact hdelete
    | ok u => exact hbudget _ _ _
  | false =>
    simp only [Bool.false_eq_true, ↓reduceIte, true_and]
    by_cases hs : (state.uncommitted.lookup key).isSome = true
    · rw [if_pos hs, error_bind]
      exact ⟨fun h => by cases h; exact ⟨rfl, .inl hs⟩, fun h => by rw [h.1]⟩
    rw [if_neg hs]
    by_cases hb : key ∉ state.deletes ∧ state.bloom.mayContain key = true
    · rw [if_pos hb]
      by_cases hl : data.any (·.hasLiveKey key) = true
      · rw [if_pos hl, error_bind]
        exact ⟨fun h => by cases h; exact ⟨rfl, .inr ⟨hb.1, hb.2, hl⟩⟩, fun h => by rw [h.1]⟩
      · simp only [hl, hs, and_false, or_false, Bool.false_eq_true, iff_false]
        exact hbudget _ _ _
    · rw [if_neg hb]
      have hno : ¬ (key ∉ state.deletes ∧ state.bloom.mayContain key = true ∧
          data.any (·.hasLiveKey key) = true) := fun h => hb ⟨h.1, h.2.1⟩
      simp only [hno, hs, or_false, and_false, Bool.false_eq_true, iff_false]
      exact hbudget _ _ _

theorem admitDocument_ok {schema : Schema} {field : Field}
    (h : admitDocument layout data schema field doc replace w.trySend s = .ok () s') :
    ∃ key hash, documentKey doc field = .ok key ∧ documentHash doc schema = .ok hash ∧
      checkAdmission layout data s.keys key replace (layout.pendingBytes key hash) = .ok () ∧
      s' = Staging.finishAdmission layout key
        ⟨s.heap.newRow.1, hash, layout.pendingBytes key hash⟩ replace
        { s with heap := s.heap.newRow.2, queue := s.queue ++ [⟨doc, s.heap.newRow.1⟩] } := by
  unfold admitDocument at h
  obtain ⟨key, hkey, h⟩ := check_bind_ok h
  obtain ⟨hash, hhash, h⟩ := check_bind_ok h
  obtain ⟨⟨⟩, hadm, h⟩ := check_bind_ok h
  obtain ⟨row, s₁, hrow, h⟩ := bind_ok h
  cases hrow
  obtain ⟨_, s₂, hsend, h⟩ := bind_ok h
  unfold IndexWriter.trySend at hsend
  split at hsend
  · cases hsend
  split at hsend
  · cases hsend
  cases hsend
  cases h
  exact ⟨key, hash, hkey, hhash, hadm, rfl⟩

theorem admitDocument_error {schema : Schema} {field : Field} :
    FailsWith Staging.Rejected (admitDocument layout data schema field doc replace w.trySend) := by
  unfold admitDocument
  refine .check fun _ => .check fun _ => .get fun _ => .check fun _ => ?_
  intro s e s' h
  rcases bind_error h with hrow | ⟨row, s₁, hrow, h⟩
  · cases hrow
  cases hrow
  rcases bind_error h with hsend | ⟨-, s₂, -, h⟩
  · unfold IndexWriter.trySend at hsend
    split at hsend
    · cases hsend
      exact ⟨rfl, rfl, .inr rfl⟩
    split at hsend
    · cases hsend
      exact ⟨rfl, rfl, .inr rfl⟩
    · cases hsend
  · cases h

end PrimaryKeyIndex

theorem WriterLock.ensure_eq_ok : lock.ensure = .ok () ↔ lock = .held := by
  cases lock <;> simp [WriterLock.ensure]

namespace IndexWriter

/-- The document passes every check before the key state is read. -/
structure Admissible (w : IndexWriter) (cfg : WriterConfig) (lock : WriterLock) (doc : Document)
    (key : String) : Prop where
  lock : lock = .held
  shutdown : w.shutdown = false
  inProgress : w.inProgress = false
  senderClosed : w.senderClosed = false
  vectors : validateVectorValueCounts doc cfg.schema = .ok ()
  hash : ∃ hash, documentHash doc cfg.schema = .ok hash
  key : documentKey doc cfg.field = .ok key

/-- The staging state after an accepted document. -/
def admitted (cfg : WriterConfig) (s : Staging) (doc : Document) (key : String)
    (hash : Option FieldValue) (replace : Bool) : Staging :=
  Staging.finishAdmission cfg.layout key
    ⟨s.heap.newRow.1, hash, cfg.layout.pendingBytes key hash⟩ replace
    { s with heap := s.heap.newRow.2, queue := s.queue ++ [⟨doc, s.heap.newRow.1⟩] }

theorem enqueueDocument_ok (h : w.enqueueDocument cfg lock doc replace s = .ok () s') :
    ∃ key hash, w.Admissible cfg lock doc key ∧ documentHash doc cfg.schema = .ok hash ∧
      checkAdmission cfg.layout w.committedData s.keys key replace
        (cfg.layout.pendingBytes key hash) = .ok () ∧
      s' = admitted cfg s doc key hash replace := by
  unfold enqueueDocument at h
  obtain ⟨⟨⟩, hlock, h⟩ := check_bind_ok h
  obtain ⟨⟨⟩, hshut, h⟩ := check_bind_ok h
  obtain ⟨⟨⟩, hprog, h⟩ := check_bind_ok h
  obtain ⟨⟨⟩, hclosed, h⟩ := check_bind_ok h
  obtain ⟨⟨⟩, hvec, h⟩ := check_bind_ok h
  obtain ⟨_, hhash, h⟩ := check_bind_ok h
  obtain ⟨key, hash, hkey, hhash', hadm, rfl⟩ := admitDocument_ok h
  exact ⟨key, hash, ⟨WriterLock.ensure_eq_ok.mp hlock, failIf_coe_eq_ok.mp hshut, failIf_coe_eq_ok.mp hprog,
    failIf_coe_eq_ok.mp hclosed, hvec, ⟨_, hhash⟩, hkey⟩, hhash', hadm, rfl⟩

theorem enqueueDocument_error :
    FailsWith Staging.Rejected (w.enqueueDocument cfg lock doc replace) := by
  unfold enqueueDocument
  refine .check fun _ => .check fun _ => .check fun _ => ?_
  refine .check fun _ => .check fun _ => .check fun _ => ?_
  exact admitDocument_error

/-! ## The outcomes of the calls -/

theorem call_cases (w : IndexWriter) (c : Call Unit) :
    (∃ s', c w.staging = .ok () s' ∧ w.call c = (.ok (), { w with staging := s' })) ∨
      ∃ e s', c w.staging = .error e s' ∧ w.call c = (.error e, { w with staging := s' }) := by
  unfold call
  cases h : c w.staging with
  | ok u s' => exact .inl ⟨s', rfl, rfl⟩
  | error e s' => exact .inr ⟨e, s', rfl, rfl⟩

/-- An addition is accepted or rejected. -/
theorem addDocument_cases (w : IndexWriter) (cfg : WriterConfig) (lock : WriterLock) (doc : Document) :
    (∃ key hash, w.Admissible cfg lock doc key ∧ documentHash doc cfg.schema = .ok hash ∧
      checkAdmission cfg.layout w.committedData w.staging.keys key false
        (cfg.layout.pendingBytes key hash) = .ok () ∧
      w.call (w.addDocument cfg lock doc) =
        (.ok (), { w with staging := admitted cfg w.staging doc key hash false })) ∨
    ∃ e s', w.staging.Rejected s' ∧
      w.call (w.addDocument cfg lock doc) = (.error e, { w with staging := s' }) := by
  rcases call_cases w (w.addDocument cfg lock doc) with ⟨s', h, heq⟩ | ⟨e, s', h, heq⟩
  · obtain ⟨key, hash, ha, hh, hc, rfl⟩ := enqueueDocument_ok h
    exact .inl ⟨key, hash, ha, hh, hc, heq⟩
  · exact .inr ⟨e, s', enqueueDocument_error h, heq⟩

theorem upsertDocument_error : FailsWith Staging.Rejected (w.upsertDocument cfg lock read doc) := by
  unfold upsertDocument
  refine .check fun _ => .check fun _ => .check fun _ => ?_
  refine .check fun _ => .check fun _ => .check fun _ => .get fun _ => .check fun unchanged => ?_
  cases unchanged with
  | true =>
    intro s e s' h
    cases h
  | false => exact enqueueDocument_error

/-- An upsert is an accepted no-op, accepted or rejected. -/
theorem upsertDocument_cases (w : IndexWriter) (cfg : WriterConfig) (lock : WriterLock)
    (read : Result Unit) (doc : Document) :
    (∃ key hash unchanged, w.Admissible cfg lock doc key ∧ w.pkReservationsRetained = false ∧
      documentHash doc cfg.schema = .ok hash ∧
      w.hashUnchanged cfg w.staging.keys read key hash = .ok unchanged ∧
      w.call (w.upsertDocument cfg lock read doc) = (.ok (), if unchanged then w
        else { w with staging := admitted cfg w.staging doc key hash true })) ∨
    ∃ e s', w.staging.Rejected s' ∧
      w.call (w.upsertDocument cfg lock read doc) = (.error e, { w with staging := s' }) := by
  rcases call_cases w (w.upsertDocument cfg lock read doc) with ⟨s', h, heq⟩ | ⟨e, s', h, heq⟩
  · left
    unfold upsertDocument at h
    obtain ⟨key, hkey, h⟩ := check_bind_ok h
    obtain ⟨⟨⟩, hvec, h⟩ := check_bind_ok h
    obtain ⟨hash, hhash, h⟩ := check_bind_ok h
    obtain ⟨⟨⟩, hlock, h⟩ := check_bind_ok h
    obtain ⟨⟨⟩, hshut, h⟩ := check_bind_ok h
    obtain ⟨⟨⟩, hgate, h⟩ := check_bind_ok h
    rw [failIf_coe_eq_ok, Bool.or_eq_false_iff, Bool.or_eq_false_iff] at hgate
    obtain ⟨unchanged, hun, h⟩ := check_bind_ok h
    refine ⟨key, hash, unchanged, ⟨WriterLock.ensure_eq_ok.mp hlock, failIf_coe_eq_ok.mp hshut,
      hgate.1.1, hgate.1.2, hvec, ⟨hash, hhash⟩, hkey⟩, hgate.2, hhash, hun, ?_⟩
    rw [heq]
    cases unchanged with
    | true =>
      cases h
      rfl
    | false =>
      obtain ⟨key', hash', ha', hh', -, rfl⟩ := enqueueDocument_ok h
      cases hkey.symm.trans ha'.key
      cases hhash.symm.trans hh'
      rfl
  · refine .inr ⟨e, s', upsertDocument_error h, heq⟩

/-- The staging state after an accepted deletion. -/
def deleted (s : Staging) (key : String) : Staging :=
  { s with keys := (stageDelete s.keys key).2 }.removePending key

theorem deletePrimaryKey_cases (w : IndexWriter) (cfg : WriterConfig) (lock : WriterLock) (key : String) :
    (w.inProgress = false ∧ w.senderClosed = false ∧ w.pkReservationsRetained = false ∧
      w.call (w.deletePrimaryKey cfg lock key) =
        (.ok (), { w with staging := deleted w.staging key })) ∨
    ∃ e, w.call (w.deletePrimaryKey cfg lock key) = (.error e, w) := by
  rcases call_cases w (w.deletePrimaryKey cfg lock key) with ⟨s', h, heq⟩ | ⟨e, s', h, heq⟩
  · left
    unfold deletePrimaryKey at h
    obtain ⟨_, -, h⟩ := check_bind_ok h
    obtain ⟨_, -, h⟩ := check_bind_ok h
    obtain ⟨⟨⟩, hgate, h⟩ := check_bind_ok h
    rw [failIf_coe_eq_ok, Bool.or_eq_false_iff] at hgate
    obtain ⟨⟨⟩, hret, h⟩ := check_bind_ok h
    obtain ⟨b, s₁, hdel, h⟩ := bind_ok h
    cases h
    rw [delete_ok hdel] at heq
    exact ⟨hgate.1, hgate.2, failIf_coe_eq_ok.mp hret, heq⟩
  · refine .inr ⟨e, ?_⟩
    have hs : s' = w.staging := by
      have herr : FailsWith (· = ·) (w.deletePrimaryKey cfg lock key) := by
        unfold deletePrimaryKey
        refine .check fun _ => .check fun _ => .check fun _ => .check fun _ => ?_
        intro s e s' h
        rcases bind_error h with h | ⟨_, _, -, h⟩
        · exact delete_error h
        · cases h
      exact (herr h).symm
    rw [heq, hs]

/-! ## Duplicates -/

/-- `r` is not a duplicate error. -/
def NoDuplicate {α : Type} (r : Result α) : Prop := ∀ k, r ≠ .error (.duplicatePrimaryKey k)

theorem noDuplicate_lock (lock : WriterLock) : NoDuplicate lock.ensure := by
  intro k h
  cases lock <;> cases h

theorem noDuplicate_failIf {c : Bool} (he : ∀ k, e ≠ .duplicatePrimaryKey k) :
    NoDuplicate (failIf c e) := by
  intro k h
  unfold failIf at h
  split at h
  · exact he k (Except.error.inj h)
  · cases h

theorem noDuplicate_validateVectorValueCounts (doc : Document) (schema : Schema) :
    NoDuplicate (validateVectorValueCounts doc schema) := by
  intro k h
  unfold validateVectorValueCounts at h
  have hne := foldlM_ne_error (e := Error.duplicatePrimaryKey k)
    (f := countVectorValue schema) (fun counts v h => ?_) (fun _ => 0) doc.fieldValues
  · cases hf : doc.fieldValues.foldlM (countVectorValue schema) fun _ => 0 with
    | error e =>
      rw [hf] at h hne
      cases h
      exact hne rfl
    | ok counts =>
      rw [hf] at h
      cases h
  · unfold countVectorValue at h
    simp only at h
    repeat' split at h
    all_goals cases h

theorem noDuplicate_documentHash (doc : Document) (schema : Schema) :
    NoDuplicate (documentHash doc schema) := by
  intro k h
  unfold documentHash at h
  repeat' split at h
  all_goals cases h

theorem noDuplicate_documentKey (doc : Document) (field : Field) : NoDuplicate (documentKey doc field) := by
  intro k h
  unfold documentKey at h
  repeat' split at h
  all_goals cases h

/-- The key is staged, or live in the committed readers and not staged for deletion. -/
def Taken (w : IndexWriter) (key : String) : Prop :=
  (w.staging.keys.uncommitted.lookup key).isSome = true ∨
    key ∉ w.staging.keys.deletes ∧ w.staging.keys.bloom.mayContain key = true ∧
      w.committedData.any (·.hasLiveKey key) = true

/-- A check that passes, and a check that cannot be the duplicate. -/
theorem check_bind_duplicate {α : Type} {r : Result α} {f : α → Call Unit} {k : String}
    (hr : NoDuplicate r) (h : (EState.check r >>= f) s = .error (.duplicatePrimaryKey k) s') :
    ∃ a, r = .ok a ∧ f a s = .error (.duplicatePrimaryKey k) s' := by
  rcases check_bind_error h with ⟨herr, -⟩ | hok
  · exact absurd herr (hr k)
  · exact hok

theorem admissible_of_duplicate
    (h : w.addDocument cfg lock doc w.staging = .error (.duplicatePrimaryKey key) s') :
    w.Admissible cfg lock doc key ∧ w.Taken key := by
  unfold addDocument enqueueDocument at h
  obtain ⟨⟨⟩, hlock, h⟩ := check_bind_duplicate (noDuplicate_lock _) h
  obtain ⟨⟨⟩, hshut, h⟩ := check_bind_duplicate (noDuplicate_failIf (by simp)) h
  obtain ⟨⟨⟩, hprog, h⟩ := check_bind_duplicate (noDuplicate_failIf (by simp)) h
  obtain ⟨⟨⟩, hclosed, h⟩ := check_bind_duplicate (noDuplicate_failIf (by simp)) h
  obtain ⟨⟨⟩, hvec, h⟩ := check_bind_duplicate (noDuplicate_validateVectorValueCounts _ _) h
  obtain ⟨_, hhash, h⟩ := check_bind_duplicate (noDuplicate_documentHash _ _) h
  unfold admitDocument at h
  obtain ⟨key', hkey, h⟩ := check_bind_duplicate (noDuplicate_documentKey _ _) h
  obtain ⟨hash, hhash', h⟩ := check_bind_duplicate (noDuplicate_documentHash _ _) h
  rcases check_bind_error h with ⟨hdup, -⟩ | ⟨_, -, h⟩
  · obtain ⟨rfl, -, htaken⟩ := checkAdmission_duplicate.mp hdup
    exact ⟨⟨WriterLock.ensure_eq_ok.mp hlock, failIf_coe_eq_ok.mp hshut,
      failIf_coe_eq_ok.mp hprog, failIf_coe_eq_ok.mp hclosed, hvec, ⟨_, hhash⟩, hkey⟩, htaken⟩
  · obtain ⟨_, _, hrow, h⟩ | ⟨row, s₁, hrow, h⟩ := bind_error h
    cases hrow
    rcases bind_error h with hsend | ⟨_, _, -, h⟩
    · unfold trySend at hsend
      repeat' split at hsend
      all_goals cases hsend
    · cases h

theorem duplicate_of_taken (ha : w.Admissible cfg lock doc key) (ht : w.Taken key) :
    w.addDocument cfg lock doc w.staging = .error (.duplicatePrimaryKey key) w.staging := by
  obtain ⟨hash, hhash⟩ := ha.hash
  have hdup : checkAdmission cfg.layout w.committedData w.staging.keys key false
      (cfg.layout.pendingBytes key hash) = .error (.duplicatePrimaryKey key) :=
    checkAdmission_duplicate.mpr ⟨rfl, rfl, ht⟩
  unfold addDocument enqueueDocument admitDocument
  rw [ha.lock, ha.shutdown, ha.inProgress, ha.senderClosed, ha.vectors, hhash, ha.key]
  simp only [WriterLock.ensure, failIf, check_ok_bind, Bool.false_eq_true, ↓reduceIte,
    get_bind, hdup, check_error_bind]

/-- **Duplicates.** An addition is rejected as a duplicate of `key` exactly when it passes all
other checks with that key, and the key is staged, or live in the committed readers and not staged
for deletion. -/
theorem addDocument_duplicate_iff :
    (w.call (w.addDocument cfg lock doc)).1 = .error (.duplicatePrimaryKey key) ↔
      w.Admissible cfg lock doc key ∧ w.Taken key := by
  constructor
  · intro h
    unfold call at h
    split at h
    · cases h
    · rename_i e s' heq
      cases h
      exact admissible_of_duplicate heq
  · rintro ⟨ha, ht⟩
    rw [call, duplicate_of_taken ha ht]

end IndexWriter

end Summa
