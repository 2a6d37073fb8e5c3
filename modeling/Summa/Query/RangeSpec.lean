import Summa.Query.DocSetRun
import Summa.Query.Range

/-!
# Range queries match the values in their bounds

* `asDocBitset_eq`: the bitset has the documents whose raw values the compiled range contains; no block that is left
  out has one.
* `RangeScorer.lawfulCursor`: the scorer is a cursor over the same documents.
* `Answers.of_holds`: over any opened single-value column of numbers the predicate, the bitset and the scorer of a query
  agree, and match the documents whose raw values the compiled range contains.
* `written_reads`: over a written column, they are the documents with an assigned value in the bounds.
-/

namespace Summa.FastField

open List

variable {reader : FastFieldReader} {payloads : List (Payload × Nat)}

/-! ## The bitset -/

/-- A block that is left out has no value in the range. -/
theorem CompiledRange.mayMatch_of_contains {self : CompiledRange} {bounds : Option (Nat × Nat)} {v : Nat}
    (hlt : v < 2 ^ 64) (hin : ∀ lo hi, bounds = some (lo, hi) → lo ≤ v ∧ v ≤ hi) (h : self.contains v = true) :
    self.mayMatch bounds = true := by
  cases bounds with
  | none => rfl
  | some bounds =>
    obtain ⟨low, high⟩ := bounds
    obtain ⟨hlow, hhigh⟩ := hin low high rfl
    unfold mayMatch
    dsimp only
    split
    case isTrue heq =>
      obtain rfl : v = low := by omega
      exact h
    case isFalse =>
      cases self with
      | signed lo hi => rfl
      | raw lo hi =>
        have hmissing : fastFieldMissing = 2 ^ 64 - 1 := rfl
        rw [contains] at h
        split at h
        case isTrue => cases h
        case isFalse hne =>
          have hrange := of_decide_eq_true h
          exact decide_eq_true (by omega)

theorem contains_missing (bound : CompiledRange) : bound.contains fastFieldMissing = false := if_pos rfl

/-- The raw value of a document is in the range. -/
def rangeHit (bound : CompiledRange) (payloads : List (Payload × Nat)) (d : Nat) : Bool :=
  bound.contains (columnValue payloads d)

/-- The bits of the documents before `n` are set. -/
structure FilledTo (hit : Nat → Bool) (numDocs n : Nat) (bits : DocBitset) : Prop where
  room : numDocs ≤ 64 * bits.bits.length
  contains : ∀ d, bits.contains d = (decide (d < n) && hit d)

section Bitset

variable (h : reader.Holds payloads) (bound : RangeBound) {numDocs : Nat}

include h

theorem FilledTo.insert (hnum : reader.numDocs ≤ numDocs) {start len : Nat} {bits : DocBitset}
    (hend : start + len ≤ (payloads.map (·.2)).sum)
    (hbits : FilledTo (rangeHit bound.compile payloads) numDocs start bits) :
    ∃ bits', bits.insertMatchingValues start (columnValues payloads start len) bound.compile.contains = some bits' ∧
      FilledTo (rangeHit bound.compile payloads) numDocs (start + len) bits' := by
  have hroom := hbits.room
  rw [← h.numDocs] at hend
  have hfit : start + (columnValues payloads start len).length ≤ 64 * bits.bits.length := by
    rw [length_columnValues]
    omega
  obtain ⟨bits', hrun, hlength, hcontains⟩ := bits.insertMatchingValues_eq bound.compile.contains hfit
  refine ⟨bits', hrun, by rwa [hlength], fun d => ?_⟩
  rw [hcontains, hbits.contains]
  by_cases hlow : start ≤ d
  · rw [decide_eq_false (show ¬ d < start by omega), decide_eq_true hlow, Bool.false_and, Bool.false_or, Bool.true_and,
      columnValues, getElem?_map]
    by_cases hhigh : d < start + len
    · rw [getElem?_range (by omega), Option.map_some, Option.any_some, decide_eq_true hhigh, Bool.true_and,
        Nat.add_sub_cancel' hlow]
      rfl
    · rw [getElem?_eq_none (by rw [length_range]; omega), Option.map_none, Option.any_none, decide_eq_false hhigh,
        Bool.false_and]
  · rw [decide_eq_false hlow, Bool.false_and, Bool.or_false, decide_eq_true (show d < start by omega),
      decide_eq_true (show d < start + len by omega)]

/-- A block that is left out is as good as scanned. -/
theorem mayScan_eq {k n : Nat} {payload : Payload} (hk : payloads[k]? = some (payload, n)) :
    ∃ b, mayScan bound reader ⟨docsBefore payloads k, n, payload.encode n, [], [], none, []⟩ = some b ∧
      (b = false → ∀ bits, FilledTo (rangeHit bound.compile payloads) numDocs (docsBefore payloads k) bits →
        FilledTo (rangeHit bound.compile payloads) numDocs (docsBefore payloads k + n) bits) := by
  have hok := h.ok.ok _ (mem_of_getElem? hk)
  obtain ⟨bounds, hbounds, hin⟩ := valueBounds_encode hok
  refine ⟨bound.compile.mayMatch bounds, ?_, fun hfalse bits hbits => ⟨hbits.room, fun d => ?_⟩⟩
  · rw [mayScan, if_neg h.numeric, ColumnBlock.valueBounds, hbounds, Option.map_some]
  · rw [hbits.contains]
    by_cases hblock : docsBefore payloads k ≤ d ∧ d < docsBefore payloads k + n
    · obtain ⟨i, rfl⟩ := Nat.exists_eq_add_of_le hblock.1
      have hi : i < n := by omega
      have hmiss : rangeHit bound.compile payloads (docsBefore payloads k + i) = false := by
        rw [rangeHit, columnValue_eq hk hi]
        cases hc : bound.compile.contains (payload.value n i) with
        | false => rfl
        | true =>
          have hmay := CompiledRange.mayMatch_of_contains (Payload.value_lt hok i) (fun lo hi' hb => hin lo hi' hb i hi) hc
          exact (Bool.false_ne_true (hfalse.symm.trans hmay)).elim
      rw [hmiss, Bool.and_false, Bool.and_false]
    · congr 1
      rw [decide_eq_decide]
      omega

theorem asDocBitset_eq (hnum : reader.numDocs ≤ numDocs) :
    ∃ bits, asDocBitset bound reader numDocs = some bits ∧ ∀ d, bits.contains d = rangeHit bound.compile payloads d := by
  have hnew : FilledTo (rangeHit bound.compile payloads) numDocs 0 (.new numDocs) := by
    refine ⟨?_, fun d => ?_⟩
    · rw [DocBitset.new, length_replicate, divCeil64]
      omega
    · rw [DocBitset.contains_new, decide_eq_false (Nat.not_lt_zero d), Bool.false_and]
  obtain ⟨bits, hrun, hbits⟩ := h.scan (P := FilledTo (rangeHit bound.compile payloads) numDocs)
    (f := fun start values bits => bits.insertMatchingValues start values bound.compile.contains)
    (fun _ _ _ hend hbits => FilledTo.insert h bound hnum hend hbits) (fun _ _ _ hk => mayScan_eq h bound hk) hnew
  refine ⟨bits, by rwa [asDocBitset, h.single, if_neg Bool.false_ne_true], fun d => ?_⟩
  rw [hbits.contains]
  by_cases hd : d < reader.numDocs
  · rw [decide_eq_true hd, Bool.true_and]
  · rw [decide_eq_false hd, Bool.false_and, rangeHit, columnValue_missing (h.numDocs ▸ Nat.le_of_not_lt hd), contains_missing]

end Bitset

/-! ## The scorer -/

namespace RangeScorer

/-- What the fields of a scorer say of the column. -/
structure Ok (s : RangeScorer) (payloads : List (Payload × Nat)) : Prop where
  holds : s.fastField.Holds payloads
  numDocs : s.fastField.numDocs ≤ s.numDocs
  below : s.numDocs ≤ terminated
  cursor : ∃ cursor, s.cursor = some cursor ∧ cursor.At payloads
  start : s.batchStart ≤ s.numDocs
  batch : s.batchEnd ≤ s.numDocs
  width : s.batchEnd ≤ s.batchStart + 64
  found : ∀ i, s.found.getLsbD i =
    (decide (s.batchStart + i < s.batchEnd) && rangeHit s.bound payloads (s.batchStart + i))

/-- `current` is the first hit from `next` on among `numDocs` documents. -/
structure FirstFrom (hit : Nat → Bool) (numDocs next current : Nat) : Prop where
  le : current ≤ numDocs
  before : ∀ d, next ≤ d → d < current → hit d = false
  here : current < numDocs → next ≤ current ∧ hit current = true

variable {s : RangeScorer} {next : Nat}

theorem FirstFrom.skip {hit : Nat → Bool} {numDocs later current : Nat} (hle : next ≤ later)
    (hskip : ∀ d, next ≤ d → d < later → hit d = false) (h : FirstFrom hit numDocs later current) :
    FirstFrom hit numDocs next current := by
  refine ⟨h.le, fun d hd hlt => ?_, fun hlt => ⟨hle.trans (h.here hlt).1, (h.here hlt).2⟩⟩
  by_cases hlater : d < later
  · exact hskip d hd hlater
  · exact h.before d (Nat.le_of_not_lt hlater) hlt

/-- The rest of a batch has its first hit, or none. -/
theorem Ok.remaining (h : s.Ok payloads) (hstart : s.batchStart ≤ next) (i : Nat) :
    (s.found &&& BitVec.allOnes 64 <<< (next - s.batchStart)).getLsbD i =
      (decide (i < 64 ∧ next ≤ s.batchStart + i ∧ s.batchStart + i < s.batchEnd) &&
        rangeHit s.bound payloads (s.batchStart + i)) := by
  rw [BitVec.getLsbD_and, h.found, BitVec.getLsbD_shiftLeft, BitVec.getLsbD_allOnes]
  by_cases hlow : next ≤ s.batchStart + i
  · by_cases hi : i < 64
    · simp [hi, hlow, show ¬ i < next - s.batchStart by omega, show i - (next - s.batchStart) < 64 by omega]
    · simp [hi]
  · simp [hlow, show i < next - s.batchStart by omega]

theorem refillBatch_eq (h : s.Ok payloads) (hnext : next < s.fastField.numDocs) :
    ∃ s', s.refillBatch next = some (true, s') ∧ s'.Ok payloads ∧ s'.bound = s.bound ∧ s'.numDocs = s.numDocs ∧
      s'.batchStart = next ∧ next < s'.batchEnd := by
  obtain ⟨cursor, hcursor, hat⟩ := h.cursor
  obtain ⟨len, cursor', hread, hat', hpos, hlen, hend⟩ :=
    h.holds.readBatch_eq hat hnext (show replicate 64 0 ≠ [] by simp)
  rw [length_replicate] at hlen
  have hnum := h.numDocs
  rw [refillBatch, hcursor]
  dsimp only [Option.bind_eq_bind, Option.bind_some]
  rw [hread, Option.bind_some]
  dsimp only
  rw [length_columnValues, if_neg (by omega)]
  refine ⟨_, rfl, ⟨h.holds, hnum, h.below, ⟨cursor', rfl, hat'⟩, ?_, ?_, ?_, fun i => ?_⟩, rfl, rfl, rfl, ?_⟩
  · exact hnext.le.trans hnum
  · exact hend.trans hnum
  · exact Nat.add_le_add_left hlen next
  · rw [DocBitset.getLsbD_maskOf (by rw [length_map, length_columnValues]; exact hlen), columnValues, map_map, getElem?_map]
    by_cases hi : i < len
    · rw [getElem?_range hi, decide_eq_true (show next + i < next + len by omega)]
      rfl
    · rw [getElem?_eq_none (by rw [length_range]; omega), decide_eq_false (show ¬ next + i < next + len by omega)]
      rfl
  · exact Nat.lt_add_of_pos_right hpos

/-- No document behind the column is a hit. -/
theorem Ok.not_hit (h : s.Ok payloads) {d : Nat} (hd : s.fastField.numDocs ≤ d) : rangeHit s.bound payloads d = false := by
  rw [rangeHit, columnValue_missing (h.holds.numDocs ▸ hd), contains_missing]

/-- What a scan from `next` on leaves behind. -/
structure Scanned (bound : CompiledRange) (payloads : List (Payload × Nat)) (numDocs next : Nat) (s : RangeScorer) :
    Prop where
  ok : s.Ok payloads
  sameBound : s.bound = bound
  sameDocs : s.numDocs = numDocs
  start : s.batchStart ≤ s.current
  first : FirstFrom (rangeHit bound payloads) numDocs next s.current

theorem Ok.setCurrent (h : s.Ok payloads) (current : Nat) : ({ s with current := current } : RangeScorer).Ok payloads :=
  ⟨h.holds, h.numDocs, h.below, h.cursor, h.start, h.batch, h.width, h.found⟩

theorem Ok.setProbes (h : s.Ok payloads) (probes : Nat) :
    ({ s with scalarProbes := probes } : RangeScorer).Ok payloads :=
  ⟨h.holds, h.numDocs, h.below, h.cursor, h.start, h.batch, h.width, h.found⟩

theorem Ok.setCursor (h : s.Ok payloads) {cursor : SingleValueCursor} (hat : cursor.At payloads) :
    ({ s with cursor := some cursor } : RangeScorer).Ok payloads :=
  ⟨h.holds, h.numDocs, h.below, ⟨cursor, rfl, hat⟩, h.start, h.batch, h.width, h.found⟩

/-- Nothing is left to find. -/
theorem Ok.scanned_end (h : s.Ok payloads) (hnone : ∀ d, next ≤ d → d < s.numDocs → rangeHit s.bound payloads d = false) :
    Scanned s.bound payloads s.numDocs next { s with current := s.numDocs } :=
  ⟨h.setCurrent _, rfl, rfl, h.start, le_rfl, hnone, fun hlt => absurd hlt (lt_irrefl _)⟩

theorem Ok.scanned_here (h : s.Ok payloads) {current : Nat} (hstart : s.batchStart ≤ current) (hlt : current < s.numDocs)
    (hle : next ≤ current) (hhit : rangeHit s.bound payloads current = true)
    (hbefore : ∀ d, next ≤ d → d < current → rangeHit s.bound payloads d = false) :
    Scanned s.bound payloads s.numDocs next { s with current := current } :=
  ⟨h.setCurrent _, rfl, rfl, hstart, hlt.le, hbefore, fun _ => ⟨hle, hhit⟩⟩

/-- A scan that starts behind documents without a hit. -/
theorem Scanned.skip {bound : CompiledRange} {numDocs later : Nat} (hle : next ≤ later)
    (hskip : ∀ d, next ≤ d → d < later → rangeHit bound payloads d = false)
    (h : Scanned bound payloads numDocs later s) : Scanned bound payloads numDocs next s :=
  ⟨h.ok, h.sameBound, h.sameDocs, h.start, h.first.skip hle hskip⟩

/-- The lowest bit that is left of a batch is the first hit. -/
theorem Ok.scanned_batch (h : s.Ok payloads) (hstart : s.batchStart ≤ next)
    (hne : s.found &&& BitVec.allOnes 64 <<< (next - s.batchStart) ≠ 0#64) :
    Scanned s.bound payloads s.numDocs next { s with
      current := s.batchStart + (s.found &&& BitVec.allOnes 64 <<< (next - s.batchStart)).ctz.toNat } := by
  have hbatch := h.batch
  have hwidth := h.width
  have hbit := h.remaining hstart
  generalize s.found &&& BitVec.allOnes 64 <<< (next - s.batchStart) = remaining at hbit hne ⊢
  have hset := hbit remaining.ctz.toNat
  rw [BitVec.getLsbD_true_ctz_of_ne_zero hne, eq_comm, Bool.and_eq_true, decide_eq_true_iff] at hset
  refine h.scanned_here (Nat.le_add_right ..) (by omega) hset.1.2.1 hset.2 fun d hd hlt => ?_
  have hlow : remaining.getLsbD (d - s.batchStart) = false := BitVec.getLsbD_false_of_lt_ctz (by omega)
  rw [hbit, Nat.add_sub_cancel' (hstart.trans hd), decide_eq_true (by omega), Bool.true_and] at hlow
  exact hlow

/-- A batch of which no bit is left has no further hit. -/
theorem Ok.no_hit_in_batch (h : s.Ok payloads) (hstart : s.batchStart ≤ next)
    (hzero : s.found &&& BitVec.allOnes 64 <<< (next - s.batchStart) = 0#64) :
    ∀ d, next ≤ d → d < s.batchEnd → rangeHit s.bound payloads d = false := by
  intro d hd hlt
  have hwidth := h.width
  have hlow := h.remaining hstart (d - s.batchStart)
  rw [hzero, BitVec.getLsbD_zero, Nat.add_sub_cancel' (hstart.trans hd), decide_eq_true (by omega),
    Bool.true_and] at hlow
  exact hlow.symm

/-- The loop finds the first hit. A turn that goes on moves to a later document, or from the end of a batch into one. -/
theorem scanLoop_eq {turns : Nat} (h : s.Ok payloads) (hstart : s.batchStart ≤ next)
    (hturns : 2 * (s.numDocs - next) + (if next < s.batchEnd then 0 else 1) < turns) :
    ∃ s', s.scanLoop turns next = some s' ∧ Scanned s.bound payloads s.numDocs next s' := by
  induction turns generalizing s next with
  | zero => exact absurd hturns (Nat.not_lt_zero _)
  | succ turns ih =>
    rw [scanLoop]
    split
    case isFalse hend => exact ⟨_, rfl, h.scanned_end fun d hd hlt => absurd hlt (by omega)⟩
    case isTrue hlt =>
      split
      case isTrue hin =>
        rw [if_pos hin] at hturns
        have hbatch := h.batch
        dsimp only
        split
        case isTrue hne => exact ⟨_, rfl, h.scanned_batch hstart hne⟩
        case isFalse hzero =>
          have hnone := h.no_hit_in_batch hstart (Decidable.not_not.mp hzero)
          obtain ⟨s', hrun, hscan⟩ := ih h (hstart.trans hin.le) (by rw [if_neg (lt_irrefl _)]; omega)
          exact ⟨s', hrun, hscan.skip hin.le hnone⟩
      case isFalse hout =>
        rw [if_neg hout] at hturns
        split
        case isTrue =>
          rw [h.holds.getU64]
          dsimp only [Option.bind_eq_bind, Option.bind_some]
          split
          case isTrue hhit =>
            exact ⟨_, rfl, (h.setProbes (min (s.scalarProbes + 1) 255)).scanned_here hstart hlt le_rfl hhit fun d hd hlt' => absurd hlt' (by omega)⟩
          case isFalse hmiss =>
            have hnone : ∀ d, next ≤ d → d < next + 1 → rangeHit s.bound payloads d = false := by
              intro d hd hlt'
              obtain rfl : d = next := by omega
              exact eq_false_of_ne_true hmiss
            obtain ⟨s', hrun, hscan⟩ := ih (h.setProbes (min (s.scalarProbes + 1) 255)) (Nat.le_succ_of_le hstart) (by
              dsimp only
              split <;> omega)
            exact ⟨s', hrun, hscan.skip (Nat.le_succ _) hnone⟩
        case isFalse =>
          by_cases hcolumn : next < s.fastField.numDocs
          · obtain ⟨s₁, hrefill, hok, hbound, hnum, hfrom, hin⟩ := refillBatch_eq h hcolumn
            rw [hrefill]
            obtain ⟨s', hrun, hscan⟩ := ih hok hfrom.le (by rw [if_pos hin, hnum]; omega)
            rw [hbound, hnum] at hscan
            exact ⟨s', hrun, hscan⟩
          · obtain ⟨cursor, hcursor, hat⟩ := h.cursor
            rw [refillBatch, hcursor]
            dsimp only [Option.bind_eq_bind, Option.bind_some]
            rw [SingleValueCursor.readBatch_end (Nat.le_of_not_lt hcolumn)]
            exact ⟨_, rfl, (h.setCursor hat).scanned_end fun d hd _ => h.not_hit ((Nat.le_of_not_lt hcolumn).trans hd)⟩

theorem scanFrom_eq (h : s.Ok payloads) (hstart : s.batchStart ≤ next) :
    ∃ s', s.scanFrom next = some s' ∧ Scanned s.bound payloads s.numDocs next s' :=
  scanLoop_eq h hstart (by split <;> omega)

variable {bound : CompiledRange} {numDocs : Nat} {left : List Nat}

/-- `left` are the hits from `next` on. -/
structure HitsFrom (bound : CompiledRange) (payloads : List (Payload × Nat)) (numDocs next : Nat) (left : List Nat) :
    Prop where
  rising : RisingDocs left
  mem : ∀ d, d ∈ left ↔ d < numDocs ∧ next ≤ d ∧ rangeHit bound payloads d = true

/-- The scorer stands on the first of the hits that are left. -/
def Views (bound : CompiledRange) (payloads : List (Payload × Nat)) (numDocs : Nat) (s : Option RangeScorer)
    (left : List Nat) : Prop :=
  ∃ scorer next, s = some scorer ∧ Scanned bound payloads numDocs next scorer ∧
    HitsFrom bound payloads numDocs next left

namespace Scanned

variable (h : Scanned bound payloads numDocs next s) (hleft : HitsFrom bound payloads numDocs next left)

include h hleft

theorem current_le {d : Nat} (hd : d ∈ left) : s.current ≤ d := by
  obtain ⟨-, hle, hhit⟩ := (hleft.mem d).mp hd
  by_contra hlt
  rw [h.first.before d hle (Nat.lt_of_not_le hlt)] at hhit
  cases hhit

theorem left_eq_nil (hend : numDocs ≤ s.current) : left = [] := by
  rw [eq_nil_iff_forall_not_mem]
  intro d hd
  have hcurrent := h.current_le hleft hd
  have hdocs := ((hleft.mem d).mp hd).1
  omega

theorem current_eq (hlt : s.current < numDocs) : s.current = front left := by
  obtain ⟨hnext, hhit⟩ := h.first.here hlt
  have hmem : s.current ∈ left := (hleft.mem _).mpr ⟨hlt, hnext, hhit⟩
  have hfront := hleft.rising.front_le hmem
  have hbelow : numDocs ≤ terminated := h.sameDocs ▸ h.ok.below
  exact Nat.le_antisymm (h.current_le hleft (RisingDocs.front_mem (by omega))) hfront

theorem doc_eq : s.doc = front left := by
  rw [doc, h.sameDocs]
  split
  case isTrue hend => rw [h.left_eq_nil hleft hend, front_nil]
  case isFalse hlt => exact h.current_eq hleft (Nat.lt_of_not_le hlt)

/-- The hits from a later document on. -/
theorem hits_fromDoc (hlt : s.current < numDocs) {target : Nat} (hle : s.current ≤ target) :
    HitsFrom bound payloads numDocs target (fromDoc left target) := by
  have hnext := (h.first.here hlt).1
  refine ⟨hleft.rising.fromDoc target, fun d => ?_⟩
  rw [hleft.rising.mem_fromDoc, hleft.mem]
  constructor
  · exact fun hd => ⟨hd.1.1, hd.2, hd.1.2.2⟩
  · exact fun hd => ⟨⟨hd.1, hnext.trans (hle.trans hd.2.1), hd.2.2⟩, hd.2.1⟩

/-- What is left behind the current document is what is left from the next one on. -/
theorem tail_eq (hlt : s.current < numDocs) : left.tail = fromDoc left (s.current + 1) := by
  refine hleft.rising.tail.eq (hleft.rising.fromDoc _) fun d => ?_
  rw [h.current_eq hleft hlt, hleft.rising.mem_fromDoc]
  cases left with
  | nil => simp
  | cons first rest =>
    have hlater := (pairwise_cons.mp hleft.rising.sorted).1 d
    rw [tail_cons, front_cons, mem_cons]
    constructor
    · exact fun hd => ⟨.inr hd, hlater hd⟩
    · rintro ⟨rfl | hd, hgt⟩
      · omega
      · exact hd

end Scanned

/-- A scan reaches the first of the hits from `next` on. -/
theorem scanFrom_views (h : s.Ok payloads) (hbound : s.bound = bound) (hnum : s.numDocs = numDocs)
    (hstart : s.batchStart ≤ next) (hleft : HitsFrom bound payloads numDocs next left) :
    ∃ s', s.scanFrom next = some s' ∧ s'.doc = front left ∧ Views bound payloads numDocs (some s') left := by
  obtain ⟨s', hrun, hscan⟩ := scanFrom_eq h hstart
  rw [hbound, hnum] at hscan
  exact ⟨s', hrun, hscan.doc_eq hleft, s', next, rfl, hscan, hleft⟩

theorem advance_eq (h : Views bound payloads numDocs (some s) left) :
    ∃ s', s.advance = some (front left.tail, s') ∧ Views bound payloads numDocs (some s') left.tail := by
  obtain ⟨scorer, next, heq, hscan, hleft⟩ := h
  cases heq
  rw [advance, hscan.sameDocs]
  split
  case isTrue hlt =>
    have hrest := hscan.hits_fromDoc hleft hlt (Nat.le_succ _)
    rw [← hscan.tail_eq hleft hlt] at hrest
    obtain ⟨s', hrun, hdoc, hviews⟩ :=
      scanFrom_views hscan.ok hscan.sameBound hscan.sameDocs (Nat.le_succ_of_le hscan.start) hrest
    refine ⟨s', ?_, hviews⟩
    rw [← hdoc, hrun]
    rfl
  case isFalse hend =>
    obtain rfl := hscan.left_eq_nil hleft (Nat.le_of_not_lt hend)
    refine ⟨s, ?_, s, next, rfl, hscan, hleft⟩
    rw [tail_nil, ← hscan.doc_eq hleft]
    rfl

theorem seek_eq (h : Views bound payloads numDocs (some s) left) (target : Nat) :
    ∃ s', s.seek target = some (front (fromDoc left target), s') ∧
      Views bound payloads numDocs (some s') (fromDoc left target) := by
  obtain ⟨scorer, next, heq, hscan, hleft⟩ := h
  cases heq
  rw [seek]
  split
  case isTrue hend =>
    obtain rfl := hscan.left_eq_nil hleft (hscan.sameDocs ▸ hend)
    exact ⟨s, rfl, s, next, rfl, hscan, hleft⟩
  case isFalse hlt =>
    have hlt : s.current < numDocs := hscan.sameDocs ▸ Nat.lt_of_not_le hlt
    split
    case isTrue hle =>
      rw [hleft.rising.fromDoc_of_le fun d hd => hle.trans (hscan.current_le hleft hd), ← hscan.current_eq hleft hlt]
      exact ⟨s, rfl, s, next, rfl, hscan, hleft⟩
    case isFalse hgt =>
      have hrest := hscan.hits_fromDoc hleft hlt (Nat.le_of_not_le hgt)
      have hstart : s.batchStart ≤ target := hscan.start.trans (Nat.le_of_not_le hgt)
      -- the scan finds the same whether the probes are counted anew or not
      dsimp only
      split
      case isTrue =>
        obtain ⟨s', hrun, hdoc, hviews⟩ :=
          scanFrom_views (hscan.ok.setProbes 0) hscan.sameBound hscan.sameDocs hstart hrest
        refine ⟨s', ?_, hviews⟩
        rw [← hdoc, hrun]
        rfl
      case isFalse =>
        obtain ⟨s', hrun, hdoc, hviews⟩ := scanFrom_views hscan.ok hscan.sameBound hscan.sameDocs hstart hrest
        refine ⟨s', ?_, hviews⟩
        rw [← hdoc, hrun]
        rfl

/-- The scorer is a cursor over the hits. -/
theorem lawfulCursor (bound : CompiledRange) (payloads : List (Payload × Nat)) (numDocs : Nat) :
    LawfulCursor docSet.toCursor (Views bound payloads numDocs) where
  rising := by
    rintro s left ⟨scorer, next, rfl, hscan, hleft⟩
    exact hleft.rising
  doc := by
    rintro s left ⟨scorer, next, rfl, hscan, hleft⟩
    exact hscan.doc_eq hleft
  advance := by
    rintro s left ⟨scorer, next, rfl, hscan, hleft⟩
    obtain ⟨s', hrun, hviews⟩ := advance_eq ⟨scorer, next, rfl, hscan, hleft⟩
    dsimp only [docSet, Option.bind_some]
    rw [hrun]
    exact ⟨rfl, hviews⟩
  seek := by
    rintro s left ⟨scorer, next, rfl, hscan, hleft⟩ target
    obtain ⟨s', hrun, hviews⟩ := seek_eq ⟨scorer, next, rfl, hscan, hleft⟩ target
    dsimp only [docSet, Option.bind_some]
    rw [hrun]
    exact ⟨rfl, hviews⟩

theorem views_new (h : reader.Holds payloads) (bound : RangeBound) (hnum : reader.numDocs ≤ numDocs)
    (hbelow : numDocs ≤ terminated) : Views bound.compile payloads numDocs (new bound reader numDocs)
      ((range numDocs).filter (rangeHit bound.compile payloads)) := by
  have hok : Ok ⟨reader, bound.compile, 0, numDocs, some .new, 0, 0, 0#64, 0⟩ payloads :=
    ⟨h, hnum, hbelow, ⟨.new, rfl, SingleValueCursor.new_at payloads⟩, Nat.zero_le _, Nat.zero_le _, Nat.zero_le _,
      fun i => by simp⟩
  have hleft : HitsFrom bound.compile payloads numDocs 0 ((range numDocs).filter (rangeHit bound.compile payloads)) := by
    refine ⟨⟨pairwise_lt_range.filter _, fun d hd => (mem_range.mp (mem_filter.mp hd).1).trans_le hbelow⟩, fun d => ?_⟩
    rw [mem_filter, mem_range, and_iff_right (Nat.zero_le d)]
  obtain ⟨s', hrun, -, hviews⟩ := scanFrom_views hok rfl rfl (Nat.zero_le 0) hleft
  rw [new, h.single]
  exact hrun ▸ hviews

/-- The scorer as a leaf of a tree of cursors. -/
def inner (h : reader.Holds payloads) (bound : RangeBound) (hnum : reader.numDocs ≤ numDocs)
    (hbelow : numDocs ≤ terminated) : InnerCursor (Option RangeScorer) where
  docSet := docSet
  Views := Views bound.compile payloads numDocs
  lawful := (lawfulCursor bound.compile payloads numDocs).docSet
  start := new bound reader numDocs
  members := (range numDocs).filter (rangeHit bound.compile payloads)
  view := views_new h bound hnum hbelow

end RangeScorer

/-! ## The answers of a query -/

theorem safeRun_inner {σ : Type} (cursor : InnerCursor σ) (s : σ) (calls : List DocSetCall) :
    (DocSetTree.inner cursor).safeRun s calls = true := by
  induction calls generalizing s with
  | nil => rfl
  | cons call calls ih =>
    rw [DocSetTree.safeRun, ih, Bool.and_true]
    cases call <;> simp [DocSetTree.safeCall, DocSetTree.stuck]

/-- A query over the column of a segment matches the documents `hit` in each of its ways to answer. The scorer answers
every sequence of calls as the list of these documents does. -/
structure Answers (bound : RangeBound) (fastField : FastFieldReader) (numDocs : Nat) (hit : Nat → Bool) : Prop where
  predicate : ∀ d, asDocPredicate bound fastField d = some (hit d)
  bitset : ∃ bits, asDocBitset bound fastField numDocs = some bits ∧ ∀ d, bits.contains d = hit d
  scorer : ∀ calls : List DocSetCall, (∀ call ∈ calls, call.Ok) →
    RangeScorer.docSet.replies (RangeScorer.new bound fastField numDocs) calls =
      ScalarDocs.replies ((range numDocs).filter hit) calls

namespace Answers

theorem of_holds (h : reader.Holds payloads) (bound : RangeBound) {numDocs : Nat} (hnum : reader.numDocs ≤ numDocs)
    (hbelow : numDocs ≤ terminated) :
    Answers bound reader numDocs fun d => (reader.getU64 d).any bound.compile.contains := by
  have hhit : (fun d => (reader.getU64 d).any bound.compile.contains) = rangeHit bound.compile payloads := by
    funext d
    rw [h.getU64, Option.any_some, rangeHit]
  refine ⟨fun d => ?_, ?_, fun calls hcalls => ?_⟩
  · rw [asDocPredicate, h.getU64, Option.map_some, Option.any_some]
  · obtain ⟨bits, hbits, hcontains⟩ := asDocBitset_eq h bound hnum
    exact ⟨bits, hbits, fun d => (hcontains d).trans (congrFun hhit d).symm⟩
  · have hviews := (DocSetTree.inner (RangeScorer.inner h bound hnum hbelow)).views_new
    rw [hhit]
    exact (DocSetTree.replies_iff hviews hcalls).mpr (safeRun_inner _ _ calls)

/-- Over a column that reads as what is stored, the absent documents do not match. -/
theorem of_stored {writes : List (Nat × Nat)} {numDocs : Nat} (h : ∃ payloads, reader.Holds payloads)
    (hnum : reader.numDocs = numDocs) (hbelow : numDocs ≤ terminated)
    (hget : ∀ d, reader.getU64 d = some (stored writes d)) (bound : RangeBound) :
    Answers bound reader numDocs fun d => (assigned writes d).any bound.compile.contains := by
  obtain ⟨payloads, h⟩ := h
  have hhit : (fun d => (reader.getU64 d).any bound.compile.contains) =
      fun d => (assigned writes d).any bound.compile.contains := by
    funext d
    rw [hget, Option.any_some, stored]
    cases assigned writes d with
    | none => exact contains_missing _
    | some v => rfl
  exact hhit ▸ of_holds h bound hnum.le hbelow

end Answers

/-- The value is in the bounds that are given. -/
def inBounds {α : Type} [LE α] [DecidableLE α] (min max : Option α) (v : α) : Bool :=
  min.all (fun lo => decide (lo ≤ v)) && max.all (fun hi => decide (v ≤ hi))

theorem contains_u64 (min max : Option Nat) {v : Nat} (hv : v < u64Max) :
    (RangeBound.u64 min max).compile.contains v = inBounds min max v := by
  have hmissing : v ≠ fastFieldMissing := hv.ne
  rw [RangeBound.compile, CompiledRange.contains, if_neg hmissing, Bool.decide_and, inBounds]
  congr 1
  · cases min <;> simp
  · cases max with
    | none => exact decide_eq_true (Nat.le_sub_one_of_lt hv)
    | some hi => rfl

theorem contains_i64 (min max : Option Int) {v : BitVec 64} (hv : v ≠ BitVec.intMin 64) :
    (RangeBound.i64 min max).compile.contains (zigzagEncode v) = inBounds min max v.toInt := by
  rw [RangeBound.compile, CompiledRange.contains, if_neg (mt zigzagEncode_eq_missing.mp hv), zigzagDecode_encode,
    Bool.decide_and, inBounds]
  congr 1
  · cases min with
    | none => exact decide_eq_true v.le_toInt
    | some lo => rfl
  · cases max with
    | none => exact decide_eq_true (Int.le_sub_one_of_lt v.toInt_lt)
    | some hi => rfl

open FastFieldWriter in
/-- A single-value column of `u64`s other than `u64::MAX`, or of `i64`s other than `i64::MIN`, holds after writing and
opening exactly the assigned values, and a range query matches the documents with a value in its bounds. -/
theorem written_reads {numDocs : Nat} (hnum : numDocs ≤ u32Max) (pre post : List Byte) :
    (∀ writes : List (Nat × Nat), (∀ w ∈ writes, w.1 < numDocs ∧ w.2 < u64Max) →
      OpensAs ((newNumeric .u64 false).assign writes) numDocs pre post fun reader =>
        (∀ d, reader.hasValue d = some (assigned writes d).isSome ∧
          ∀ v, assigned writes d = some v → reader.getU64 d = some v) ∧
        ∀ min max, Answers (.u64 min max) reader numDocs fun d => (assigned writes d).any (inBounds min max)) ∧
    ∀ writes : List (Nat × BitVec 64), (∀ w ∈ writes, w.1 < numDocs ∧ w.2 ≠ BitVec.intMin 64) →
      OpensAs (writes.foldl (fun self w => self.addI64 w.1 w.2) (.newNumeric .i64 false)) numDocs pre post fun reader =>
        (∀ d, reader.hasValue d = some (assigned writes d).isSome ∧
          ∀ v, assigned writes d = some v → reader.getI64 d = some v.toInt) ∧
        ∀ min max, Answers (.i64 min max) reader numDocs fun d =>
          (assigned writes d).any fun v => inBounds min max v.toInt := by
  constructor
  · intro writes hwrites
    have hok : WritesOk writes numDocs := ⟨fun w hw => (hwrites w hw).1,
      fun w hw => (hwrites w hw).2.trans (by decide), fun w hw => (hwrites w hw).2.ne, hnum⟩
    refine (written_raw .u64 hok (by decide) pre post).imp ?_
    rintro reader ⟨hholds, hdocs, hread⟩
    refine ⟨fun d => ⟨(hread d).2, fun v ha => by rw [(hread d).1, stored, ha]; rfl⟩, fun min max => ?_⟩
    have hany : (fun d => (assigned writes d).any (RangeBound.u64 min max).compile.contains) =
        fun d => (assigned writes d).any (inBounds min max) := by
      funext d
      cases ha : assigned writes d with
      | none => rfl
      | some v => exact contains_u64 min max (hwrites _ (mem_of_assigned ha)).2
    exact hany ▸ Answers.of_stored hholds hdocs hnum (fun d => (hread d).1) _
  · intro writes hwrites
    have hok : WritesOk (writes.map fun w => (w.1, zigzagEncode w.2)) numDocs := by
      refine ⟨?_, ?_, ?_, hnum⟩ <;> rw [forall_mem_map] <;> intro w hw
      · exact (hwrites w hw).1
      · exact zigzagEncode_lt _
      · exact mt zigzagEncode_eq_missing.mp (hwrites w hw).2
    have hraw := written_raw .i64 hok (by decide) pre post
    rw [assign, foldl_map] at hraw
    refine hraw.imp ?_
    rintro reader ⟨hholds, hdocs, hread⟩
    refine ⟨fun d => ⟨?_, fun v ha => ?_⟩, fun min max => ?_⟩
    · rw [(hread d).2, assigned_map, Option.isSome_map]
    · rw [FastFieldReader.getI64, (hread d).1, stored, assigned_map, ha]
      exact congrArg (fun v => some (BitVec.toInt v)) (zigzagDecode_encode v)
    · have hany : (fun d => (assigned (writes.map fun w => (w.1, zigzagEncode w.2)) d).any
          (RangeBound.i64 min max).compile.contains) =
          fun d => (assigned writes d).any fun v => inBounds min max v.toInt := by
        funext d
        rw [assigned_map]
        cases ha : assigned writes d with
        | none => rfl
        | some v => exact contains_i64 min max (hwrites _ (mem_of_assigned ha)).2
      exact hany ▸ Answers.of_stored hholds hdocs hnum (fun d => (hread d).1) _

open FastFieldWriter in
/-- Three documents, of which the second has no value. -/
theorem written_reads_three : 3 ≤ u32Max ∧ ∃ bytes toc reader,
    (([(0, -5#64), (2, 7#64)].foldl (fun self w => self.addI64 w.1 w.2) (newNumeric .i64 false)).padTo 3).serialize 0 =
        .ok (bytes, toc) ∧ FastFieldReader.openColumn bytes toc = .ok reader ∧
      (reader.hasValue 0 = some true ∧ reader.hasValue 1 = some false ∧ reader.hasValue 2 = some true) ∧
      (reader.getI64 0 = some (-5) ∧ reader.getI64 2 = some 7) ∧
      Answers (.i64 (some (-6)) (some 0)) reader 3 (fun d => d == 0) ∧
      Answers (.i64 none none) reader 3 (fun d => d == 0 || d == 2) := by
  obtain ⟨bytes, toc, hwrite, hopens⟩ :=
    (written_reads (by decide : 3 ≤ u32Max) [] []).2 [(0, -5#64), (2, 7#64)] (by decide)
  have hlen : true = decide (bytes.length ≤ 100) := Eq.trans (by decide +kernel)
    (congrArg (fun r => r.toOption.all fun written => decide (written.1.length ≤ 100)) hwrite)
  have hlen := of_decide_eq_true hlen.symm
  obtain ⟨reader, hopen, hread, hanswers⟩ := hopens (by omega) (by rw [length_nil, u64Max]; omega)
  rw [nil_append, append_nil] at hopen
  refine ⟨by decide, bytes, toc, reader, hwrite, hopen, ⟨(hread 0).1, (hread 1).1, (hread 2).1⟩,
    ⟨(hread 0).2 _ rfl, (hread 2).2 _ rfl⟩, ?_, ?_⟩
  · convert hanswers (some (-6)) (some 0) using 1
    funext d
    rcases d with _ | _ | _ | d <;> rfl
  · convert hanswers none none using 1
    funext d
    rcases d with _ | _ | _ | d <;> rfl

end Summa.FastField
