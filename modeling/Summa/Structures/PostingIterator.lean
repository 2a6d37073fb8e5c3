import Mathlib.Data.List.Infix
import Mathlib.Data.List.TakeWhile
import Summa.Lib.BinarySearch
import Summa.Lib.LittleEndian
import Summa.Lib.SortedList
import Summa.Structures.BlockPosting

/-!
# Posting iterators (`structures/postings/posting.rs`)

A `BlockPostingIterator` stands on a posting of the current block and moves forward only. `rest` is
what it has still to yield, the current posting first; every operation is described by its effect
on `rest`.

* `Ok.advance`, `Ok.seek`: an advance drops the first posting, a seek those below the target.
* `Forward`: no operation goes back, and a block number stands for one block.

The blocks are decoded ones, and the two levels of the skip directory are read off them: the last document of
each block, and of each group of `l1Interval` blocks. An exhausted iterator has the number of blocks for its
current block, where the source sets a flag.
-/

namespace Summa

open List

/-- `TERMINATED`. -/
def terminated : Nat := u32Max

/-- The number of blocks in a group (`L1_INTERVAL`). -/
def l1Interval : Nat := 8

/-- An iterator over the decoded blocks of a posting list. -/
structure BlockPostingIterator where
  currentBlock : Nat
  /-- The current block and the later ones; empty when the iterator is exhausted. -/
  remaining : List (List PostingEntry)
  positionInBlock : Nat
  deriving DecidableEq, Repr

namespace BlockPostingIterator

variable {self : BlockPostingIterator} {target : Nat}

/-- The iterator on the first posting of a list. -/
def new (blocks : List (List PostingEntry)) : BlockPostingIterator := ⟨0, blocks, 0⟩

section

variable (self : BlockPostingIterator)

def exhausted : Bool := self.remaining.isEmpty

/-- The decoded current block. -/
def block : List PostingEntry := self.remaining.headD []

def entry : Option PostingEntry := self.block[self.positionInBlock]?

def doc : Nat := (self.entry.map (·.docId)).getD terminated

def termFreq : Nat := (self.entry.map (·.termFreq)).getD 0

/-- `load_block(self.current_block + 1)`. -/
def loadNext : BlockPostingIterator :=
  ⟨self.currentBlock + 1, self.remaining.tail, 0⟩

def advance : BlockPostingIterator :=
  if self.exhausted then self
  else if self.block.length ≤ self.positionInBlock + 1 then self.loadNext
  else { self with positionInBlock := self.positionInBlock + 1 }

/-- Whether a block ends before `target`. -/
def endsBefore (target : Nat) (b : List PostingEntry) : Bool := b.getLast?.all (·.docId < target)

/-- `partition_point(|&doc| doc < target)` in a decoded block. -/
def lowerBound (target : Nat) (b : List PostingEntry) : Nat := (b.takeWhile (·.docId < target)).length

/-- The number of blocks of the list. -/
def l0Count : Nat := self.currentBlock + self.remaining.length

/-- `block_last_doc`, from the current block on. -/
def blockLastDoc (block : Nat) : Nat :=
  (((self.remaining[block - self.currentBlock]?).bind (·.getLast?)).map (·.docId)).getD 0

/-- The number of groups of blocks. -/
def l1Len : Nat := (self.l0Count + (l1Interval - 1)) / l1Interval

/-- The last document of a group of blocks. -/
def l1Doc (group : Nat) : Nat := self.blockLastDoc (min ((group + 1) * l1Interval) self.l0Count - 1)

/-- The first block from `fromBlock` on whose last document is not below the target: the block itself, or a search over
the groups and then in one of them. -/
def seekBlock (target fromBlock : Nat) : Option Nat :=
  if self.l0Count ≤ fromBlock then none
  else if target ≤ self.blockLastDoc fromBlock then some fromBlock
  else
    let fromL1 := fromBlock / l1Interval
    let offset :=
      if target ≤ self.l1Doc fromL1 then 0
      else doublingSearch (fun i => self.l1Doc (fromL1 + i) < target) (self.l1Len - fromL1)
    let l1Idx := fromL1 + offset
    if self.l1Len ≤ l1Idx then none
    else
      let start := max (l1Idx * l1Interval) (fromBlock + 1)
      let finish := min ((l1Idx + 1) * l1Interval) self.l0Count
      let block := partitionPoint (self.blockLastDoc · < target) start finish
      if block < self.l0Count then some block else none

def seekLaterBlock (target : Nat) : BlockPostingIterator :=
  match self.seekBlock target (self.currentBlock + 1) with
  | none => ⟨self.l0Count, [], 0⟩
  | some block =>
    let found := self.remaining.drop (block - self.currentBlock)
    ⟨block, found, lowerBound target (found.headD [])⟩

/-- The place of the target in the current block, which does not end before it. Nearby probes often need just one step;
distant ones double their steps. -/
def seekInBlock (target : Nat) : Nat :=
  let next := self.positionInBlock + 1
  if (self.block[next]?).all (target ≤ ·.docId) then next
  else
    let left := self.block.drop (next + 1)
    next + 1 + doublingSearch (fun i => (left[i]?).any (·.docId < target)) left.length

def seek (target : Nat) : BlockPostingIterator :=
  if self.exhausted then self
  else if target ≤ self.doc then self
  else if endsBefore target self.block then self.seekLaterBlock target
  else { self with positionInBlock := self.seekInBlock target }

/-- The postings still to yield, the current one first. -/
def rest : List PostingEntry :=
  self.block.drop self.positionInBlock ++ self.remaining.tail.flatten

/-- The documents still to yield. -/
def docs : List Nat := self.rest.map (·.docId)

end

/-- What a decoded list guarantees: blocks are not empty and not too long, documents increase, and the
iterator stands on a posting unless it is exhausted. -/
structure Ok (it : BlockPostingIterator) : Prop where
  nonempty : ∀ b ∈ it.remaining, b ≠ []
  short : ∀ b ∈ it.remaining, b.length ≤ postingBlockSize
  inBlock : it.remaining ≠ [] → it.positionInBlock < it.block.length
  sorted : (it.remaining.flatten.map (·.docId)).Pairwise (· < ·)
  bounded : ∀ e ∈ it.remaining.flatten, e.docId < terminated

theorem exhausted_iff : self.exhausted = true ↔ self.remaining = [] := isEmpty_iff

theorem remaining_eq (h : self.remaining ≠ []) : self.remaining = self.block :: self.remaining.tail := by
  obtain ⟨b, bs, hb⟩ := exists_cons_of_ne_nil h
  simp [block, hb]

theorem rest_of_exhausted (h : self.remaining = []) : self.rest = [] := by simp [rest, block, h]

theorem rest_suffix : self.rest <:+ self.remaining.flatten := by
  cases h : self.remaining with
  | nil => simp [rest_of_exhausted h]
  | cons b bs =>
    rw [flatten_cons]
    simp only [rest, block, h, headD_cons, tail_cons]
    obtain ⟨pre, hpre⟩ := drop_suffix self.positionInBlock b
    exact ⟨pre, by rw [← append_assoc, hpre]⟩

namespace Ok

variable (h : self.Ok)

include h

theorem docs_sorted : self.docs.Pairwise (· < ·) :=
  h.sorted.sublist ((rest_suffix.sublist).map _)

theorem docs_lt : ∀ d ∈ self.docs, d < terminated := by
  intro d hd
  obtain ⟨e, he, rfl⟩ := mem_map.mp hd
  exact h.bounded e (rest_suffix.subset he)

theorem block_sorted : (self.block.map (·.docId)).Pairwise (· < ·) := by
  by_cases hne : self.remaining = []
  · simp [block, hne]
  · have hs := h.sorted
    rw [remaining_eq hne, flatten_cons, map_append] at hs
    exact (pairwise_append.mp hs).1

theorem block_short : self.block.length ≤ postingBlockSize := by
  by_cases hne : self.remaining = []
  · simp [block, hne]
  · exact h.short _ (by rw [remaining_eq hne]; exact mem_cons_self)

/-- A later block lies behind the current one. -/
theorem lt_later {e f : PostingEntry} (he : e ∈ self.block) (hf : f ∈ self.remaining.tail.flatten) :
    e.docId < f.docId := by
  have hne : self.remaining ≠ [] := by
    intro hnil
    simp [block, hnil] at he
  have hs := h.sorted
  rw [remaining_eq hne, flatten_cons, map_append] at hs
  exact (pairwise_append.mp hs).2.2 _ (mem_map_of_mem he) _ (mem_map_of_mem hf)

/-- The current posting is the first one still to yield. -/
theorem entry_eq : self.entry = self.rest.head? := by
  by_cases hne : self.remaining = []
  · simp [entry, rest, block, hne]
  · have hlt := h.inBlock hne
    rw [entry, rest, drop_eq_getElem_cons hlt]
    simp [hlt]

theorem doc_eq : self.doc = (self.docs.head?).getD terminated := by
  rw [doc, h.entry_eq, docs, head?_map]

theorem rest_ne_nil (hne : self.remaining ≠ []) : self.rest ≠ [] := by
  intro hnil
  have hlt := h.inBlock hne
  rw [rest, append_eq_nil_iff, drop_eq_nil_iff] at hnil
  omega

theorem doc_eq_terminated_iff : self.doc = terminated ↔ self.rest = [] := by
  rw [h.doc_eq]
  cases hd : self.docs with
  | nil => simpa [docs] using hd
  | cons d ds =>
    have hlt := h.docs_lt d (by simp [hd])
    have hne : self.rest ≠ [] := by
      intro hnil
      simp [docs, hnil] at hd
    simp only [head?_cons, Option.getD_some, hne, iff_false]
    omega

/-- Standing at any later place of the current block keeps the guarantees. -/
theorem setPosition {n : Nat} (hn : self.remaining ≠ [] → n < self.block.length) :
    ({ self with positionInBlock := n } : BlockPostingIterator).Ok :=
  ⟨h.nonempty, h.short, hn, h.sorted, h.bounded⟩

theorem loadNext : self.loadNext.Ok where
  nonempty := fun b hb => h.nonempty b (mem_of_mem_tail hb)
  short := fun b hb => h.short b (mem_of_mem_tail hb)
  inBlock := by
    intro hne
    have hmem : self.loadNext.block ∈ self.remaining := by
      have := remaining_eq hne
      exact mem_of_mem_tail (show _ ∈ self.remaining.tail by
        have h2 : self.loadNext.remaining = self.remaining.tail := rfl
        rw [← h2, this]
        exact mem_cons_self)
    exact length_pos_iff.mpr (h.nonempty _ hmem)
  sorted := by
    cases hr : self.remaining with
    | nil => simp [BlockPostingIterator.loadNext, hr]
    | cons b bs =>
      have hs := h.sorted
      rw [hr, flatten_cons, map_append] at hs
      simpa [BlockPostingIterator.loadNext, hr] using (pairwise_append.mp hs).2.1
  bounded := by
    intro e he
    cases hr : self.remaining with
    | nil => simp [BlockPostingIterator.loadNext, hr] at he
    | cons b bs =>
      refine h.bounded e ?_
      rw [hr, flatten_cons]
      exact mem_append_right _ (by simpa [BlockPostingIterator.loadNext, hr] using he)

end Ok

theorem rest_loadNext : self.loadNext.rest = self.remaining.tail.flatten := by
  simp only [rest, loadNext, block, drop_zero]
  cases self.remaining.tail with
  | nil => rfl
  | cons b bs => rfl

theorem rest_setPosition (n : Nat) : ({ self with positionInBlock := n } : BlockPostingIterator).rest =
    self.block.drop n ++ self.remaining.tail.flatten := rfl

/-- An advance drops the current posting. -/
theorem Ok.advance (h : self.Ok) : self.advance.Ok ∧ self.advance.rest = self.rest.tail := by
  unfold BlockPostingIterator.advance
  split
  case isTrue hex =>
    rw [exhausted_iff] at hex
    exact ⟨h, by simp [rest_of_exhausted hex]⟩
  case isFalse hex =>
    rw [exhausted_iff] at hex
    have hlt := h.inBlock hex
    have hrest : self.rest.tail = self.block.drop (self.positionInBlock + 1) ++
        self.remaining.tail.flatten := by
      rw [rest, drop_eq_getElem_cons hlt, cons_append, tail_cons]
    rw [hrest]
    split
    case isTrue hend =>
      refine ⟨h.loadNext, ?_⟩
      rw [rest_loadNext, drop_eq_nil_of_le hend, nil_append]
    case isFalse hend =>
      exact ⟨h.setPosition fun _ => by omega, rest_setPosition _⟩

theorem drop_lowerBound (b : List PostingEntry) :
    b.drop (lowerBound target b) = b.dropWhile (·.docId < target) := drop_length_takeWhile _ b

/-- A sorted block ends before the target exactly when all its documents do. -/
theorem endsBefore_iff {b : List PostingEntry} (hs : (b.map (·.docId)).Pairwise (· < ·)) :
    endsBefore target b = true ↔ ∀ e ∈ b, e.docId < target := by
  rcases eq_nil_or_concat b with rfl | ⟨init, last, rfl⟩
  · simp [endsBefore]
  · rw [concat_eq_append] at hs ⊢
    rw [map_append, pairwise_append] at hs
    simp only [endsBefore, getLast?_append, getLast?_singleton, Option.some_or,
      Option.all_some, decide_eq_true_eq, mem_append, mem_singleton]
    constructor
    · rintro hl e (he | rfl)
      · exact (hs.2.2 _ (mem_map_of_mem he) last.docId (by simp)).trans hl
      · exact hl
    · exact fun h => h last (.inr rfl)

theorem dropWhile_ne_nil {b : List PostingEntry}
    (hs : (b.map (·.docId)).Pairwise (· < ·)) (h : endsBefore target b = false) :
    b.dropWhile (·.docId < target) ≠ [] := by
  intro hnil
  rw [(endsBefore_iff hs).mpr (by simpa using hnil)] at h
  cases h

/-- Skipping whole blocks and then postings is skipping postings. -/
theorem dropWhile_flatten {bs : List (List PostingEntry)} (hs : (bs.flatten.map (·.docId)).Pairwise (· < ·)) :
    bs.flatten.dropWhile (·.docId < target) =
      ((bs.dropWhile (endsBefore target)).headD []).dropWhile (·.docId < target) ++
        (bs.dropWhile (endsBefore target)).tail.flatten := by
  induction bs with
  | nil => rfl
  | cons b bs ih =>
    rw [flatten_cons, map_append] at hs
    obtain ⟨hb, hbs, -⟩ := pairwise_append.mp hs
    rw [flatten_cons, dropWhile_append]
    cases hend : endsBefore target b with
    | true =>
      have hnil : b.dropWhile (·.docId < target) = [] := by simpa using (endsBefore_iff hb).mp hend
      rw [hnil, dropWhile_cons_of_pos hend]
      exact ih hbs
    | false =>
      have hne := dropWhile_ne_nil hb hend
      rw [dropWhile_cons_of_neg (by simp [hend])]
      simp [hne]

/-! ## The searches -/

/-- The last document of a group is below the target exactly when its last block ends before it. -/
theorem l1Doc_lt_iff {at_ : Nat} (h : SplitsAt (self.blockLastDoc · < target) self.l0Count at_) (hpos : 0 < self.l0Count)
    (group : Nat) : self.l1Doc group < target ↔ min ((group + 1) * l1Interval) self.l0Count - 1 < at_ := by
  refine ⟨fun hlt => ?_, fun hlt => of_decide_eq_true (h.below _ hlt)⟩
  by_contra hge
  have habove := of_decide_eq_false (h.above _ (Nat.le_of_not_lt hge) (by omega))
  exact habove hlt

/-- The groups behind that of `fromBlock` split at the group that holds the split of the blocks. -/
theorem splitsAt_l1Doc {fromBlock at_ : Nat} (h : SplitsAt (self.blockLastDoc · < target) self.l0Count at_)
    (hfrom : fromBlock < at_) :
    SplitsAt (fun i => self.l1Doc (fromBlock / l1Interval + i) < target) (self.l1Len - fromBlock / l1Interval)
      ((if at_ < self.l0Count then at_ / l1Interval else self.l1Len) - fromBlock / l1Interval) := by
  have hle := h.le
  have hlast := l1Doc_lt_iff h (by omega)
  simp only [l1Interval, l1Len] at hlast ⊢
  refine ⟨?_, fun i hi => decide_eq_true ((hlast _).mpr ?_), fun i hi hlen => decide_eq_false (mt (hlast _).mp ?_)⟩
  · split <;> omega
  · split at hi <;> omega
  · split at hi <;> omega

/-- The directory leads to the first block that does not end before the target. -/
theorem seekBlock_eq {fromBlock at_ : Nat} (h : SplitsAt (self.blockLastDoc · < target) self.l0Count at_)
    (hfrom : fromBlock ≤ at_) : self.seekBlock target fromBlock = if at_ < self.l0Count then some at_ else none := by
  have hle := h.le
  unfold seekBlock
  split
  case isTrue hend => rw [if_neg (by omega)]
  case isFalse hlt =>
    split
    case isTrue hreach =>
      have hat : at_ = fromBlock := by
        by_contra hne
        have hbelow := of_decide_eq_true (h.below fromBlock (by omega))
        omega
      rw [hat, if_pos (by omega)]
    case isFalse hbefore =>
      have hnext : fromBlock < at_ := by
        by_contra hge
        have habove := of_decide_eq_false (h.above fromBlock (by omega) (by omega))
        omega
      have hgroups := splitsAt_l1Doc h hnext
      have hoffset : (if target ≤ self.l1Doc (fromBlock / l1Interval) then 0
          else doublingSearch (fun i => self.l1Doc (fromBlock / l1Interval + i) < target)
            (self.l1Len - fromBlock / l1Interval)) =
          (if at_ < self.l0Count then at_ / l1Interval else self.l1Len) - fromBlock / l1Interval := by
        split
        case isTrue hreach =>
          by_contra hne
          have hbelow := of_decide_eq_true (hgroups.below 0 (by omega))
          rw [Nat.add_zero] at hbelow
          omega
        case isFalse => exact doublingSearch_eq hgroups
      dsimp only
      rw [hoffset]
      split
      case isTrue hat =>
        have hstart : max ((fromBlock / l1Interval + (at_ / l1Interval - fromBlock / l1Interval)) * l1Interval)
            (fromBlock + 1) ≤ at_ := by
          simp only [l1Interval]
          omega
        have hfinish : at_ ≤ min ((fromBlock / l1Interval + (at_ / l1Interval - fromBlock / l1Interval) + 1) *
            l1Interval) self.l0Count := by
          simp only [l1Interval]
          omega
        rw [if_neg (by simp only [l1Interval, l1Len]; omega), partitionPoint_eq h hstart hfinish (Nat.min_le_right ..),
          if_pos hat]
      case isFalse hat => rw [if_pos (by simp only [l1Interval, l1Len]; omega)]

theorem le_of_seekBlock {fromBlock block : Nat} (h : self.seekBlock target fromBlock = some block) :
    fromBlock ≤ block := by
  unfold seekBlock at h
  split at h
  case isTrue => cases h
  case isFalse =>
    split at h
    case isTrue =>
      cases h
      exact le_rfl
    case isFalse =>
      dsimp only at h
      generalize fromBlock / l1Interval + _ = l1Idx at h
      split at h
      case isTrue => cases h
      case isFalse =>
        split at h
        case isTrue =>
          cases h
          exact (Nat.le_succ _).trans ((Nat.le_max_right ..).trans (le_partitionPoint _))
        case isFalse => cases h

/-- A seek inside the block stops at the first document that is not below the target. -/
theorem seekInBlock_eq (hsorted : (self.block.map (·.docId)).Pairwise (· < ·))
    (hin : self.positionInBlock < self.block.length) (hlt : self.doc < target) :
    self.seekInBlock target =
      self.positionInBlock + lowerBound target (self.block.drop self.positionInBlock) := by
  have hdoc : (self.block[self.positionInBlock]).docId < target := by simpa [doc, entry, hin] using hlt
  rw [seekInBlock, lowerBound, drop_eq_getElem_cons hin, takeWhile_cons_of_pos (by simpa using hdoc), length_cons]
  dsimp only
  by_cases hnext : self.positionInBlock + 1 < self.block.length
  · rw [getElem?_eq_getElem hnext, Option.all_some, drop_eq_getElem_cons hnext]
    split
    case isTrue hreach =>
      rw [takeWhile_cons_of_neg (by simpa using hreach)]
      rfl
    case isFalse hbefore =>
      rw [takeWhile_cons_of_pos (by simpa using hbefore), length_cons]
      have hpair : (self.block.drop (self.positionInBlock + 1 + 1)).Pairwise fun a b =>
          decide (b.docId < target) = true → decide (a.docId < target) = true := by
        refine ((pairwise_map.mp hsorted).sublist (drop_sublist ..)).imp fun {a b} hab hb => ?_
        exact decide_eq_true (hab.trans (of_decide_eq_true hb))
      rw [doublingSearch_eq (splitsAt_takeWhile hpair)]
      omega
  · rw [getElem?_eq_none (by omega), drop_eq_nil_of_le (Nat.le_of_not_lt hnext)]
    rfl

namespace Ok

variable (h : self.Ok) (hne : self.remaining ≠ []) (hend : endsBefore target self.block = true)

include h hne hend

/-- The last documents of the blocks, as the directory has them, split where the blocks stop ending early. -/
theorem splitsAt_blockLastDoc : SplitsAt (self.blockLastDoc · < target) self.l0Count
    (self.currentBlock + 1 + (self.remaining.tail.takeWhile (endsBefore target)).length) := by
  have hpair : self.remaining.Pairwise fun a b => endsBefore target b = true → endsBefore target a = true := by
    obtain ⟨hblocks, hflat⟩ := pairwise_flatten.mp (pairwise_map.mp h.sorted)
    refine hflat.imp_of_mem fun {a b} ha hb hab hends => ?_
    obtain ⟨e, he⟩ := exists_mem_of_ne_nil b (h.nonempty b hb)
    have hlt := (endsBefore_iff (pairwise_map.mpr (hblocks b hb))).mp hends e he
    exact (endsBefore_iff (pairwise_map.mpr (hblocks a ha))).mpr fun x hx => (hab x hx e he).trans hlt
  have hlen : (self.remaining.takeWhile (endsBefore target)).length =
      (self.remaining.tail.takeWhile (endsBefore target)).length + 1 := by
    conv_lhs => rw [remaining_eq hne]
    rw [takeWhile_cons_of_pos hend, length_cons]
  have hsplit := splitsAt_takeWhile hpair
  rw [hlen] at hsplit
  have hread : ∀ block, block - self.currentBlock < self.remaining.length →
      decide (self.blockLastDoc block < target) =
        (self.remaining[block - self.currentBlock]?).any (endsBefore target) := by
    intro block hlt
    have hb := h.nonempty _ (getElem_mem hlt)
    rw [blockLastDoc, getElem?_eq_getElem hlt, Option.bind_some, Option.any_some, endsBefore,
      getLast?_eq_some_getLast hb]
    rfl
  have hle := hsplit.le
  have hpos : 0 < self.remaining.length := length_pos_iff.mpr hne
  refine ⟨by rw [l0Count]; omega, fun block hlt => ?_, fun block hge hlt => ?_⟩
  · rw [hread block (by omega)]
    exact hsplit.below _ (by omega)
  · rw [l0Count] at hlt
    rw [hread block (by omega)]
    exact hsplit.above _ (by omega) (by omega)

theorem seekLaterBlock_eq : self.seekLaterBlock target =
    ⟨self.currentBlock + 1 + (self.remaining.tail.takeWhile (endsBefore target)).length,
      self.remaining.tail.dropWhile (endsBefore target),
      lowerBound target ((self.remaining.tail.dropWhile (endsBefore target)).headD [])⟩ := by
  have hsplit := h.splitsAt_blockLastDoc hne hend
  have hle := hsplit.le
  rw [BlockPostingIterator.seekLaterBlock, seekBlock_eq hsplit (Nat.le_add_right ..),
    ← drop_length_takeWhile (endsBefore target) self.remaining.tail]
  generalize (self.remaining.tail.takeWhile (endsBefore target)).length = skipped at hle ⊢
  split
  case h_1 hnone =>
    have hat : self.currentBlock + 1 + skipped = self.l0Count := by
      by_contra hlt
      rw [if_pos (by omega)] at hnone
      cases hnone
    have hnil : self.remaining.tail.drop skipped = [] := by
      rw [l0Count] at hat
      rw [drop_eq_nil_iff, length_tail]
      omega
    rw [hat, hnil]
    rfl
  case h_2 block hsome =>
    obtain rfl : self.currentBlock + 1 + skipped = block := by
      split at hsome
      case isTrue => exact Option.some.inj hsome
      case isFalse => cases hsome
    have hfound : self.remaining.drop (self.currentBlock + 1 + skipped - self.currentBlock) =
        self.remaining.tail.drop skipped := by
      rw [drop_tail]
      congr 1
      omega
    rw [hfound]

end Ok

theorem Ok.seekLaterBlock (h : self.Ok) (hne : self.remaining ≠ []) (hend : endsBefore target self.block = true) :
    (self.seekLaterBlock target).Ok ∧
      (self.seekLaterBlock target).rest = self.remaining.tail.flatten.dropWhile (·.docId < target) := by
  rw [h.seekLaterBlock_eq hne hend]
  have hdrop : self.remaining.tail.flatten.dropWhile (·.docId < target) = _ := dropWhile_flatten h.loadNext.sorted
  have hfirst := head?_dropWhile_not (endsBefore target) self.remaining.tail
  have hsub : self.remaining.tail.dropWhile (endsBefore target) <:+ self.remaining :=
    (dropWhile_suffix _).trans (tail_suffix _)
  generalize self.remaining.tail.dropWhile (endsBefore target) = found at hdrop hfirst hsub ⊢
  have hflat : found.flatten.Sublist self.remaining.flatten := by
    obtain ⟨pre, hpre⟩ := hsub
    rw [← hpre, flatten_append]
    exact sublist_append_right ..
  refine ⟨⟨fun b hb => h.nonempty b (hsub.subset hb), fun b hb => h.short b (hsub.subset hb), fun hfound => ?_,
    h.sorted.sublist (hflat.map _), fun e he => h.bounded e (hflat.subset he)⟩, ?_⟩
  · -- the block that was found has a document at or beyond the target
    obtain ⟨b, later, rfl⟩ := exists_cons_of_ne_nil hfound
    have hsorted : (b.map (·.docId)).Pairwise (· < ·) :=
      h.sorted.sublist ((sublist_flatten_of_mem (hsub.subset mem_cons_self)).map _)
    have hreach := dropWhile_ne_nil hsorted (by simpa using hfirst)
    rwa [← drop_lowerBound, ne_eq, drop_eq_nil_iff, not_le] at hreach
  · exact (congrArg (· ++ _) (drop_lowerBound _)).trans hdrop.symm

/-- A seek drops the postings below the target. -/
theorem Ok.seek (h : self.Ok) (target : Nat) :
    (self.seek target).Ok ∧ (self.seek target).rest = self.rest.dropWhile (·.docId < target) := by
  unfold BlockPostingIterator.seek
  split
  case isTrue hex =>
    rw [exhausted_iff] at hex
    exact ⟨h, by simp [rest_of_exhausted hex]⟩
  case isFalse hex =>
    rw [exhausted_iff] at hex
    split
    case isTrue hle =>
      refine ⟨h, ?_⟩
      -- already at or beyond the target
      cases hr : self.rest with
      | nil => rfl
      | cons e es =>
        have hd : self.doc = e.docId := by rw [h.doc_eq, docs, hr]; rfl
        rw [dropWhile_cons_of_neg (by simpa [hd] using hle)]
    case isFalse hle =>
      have hbs := h.block_sorted
      have hdrop : ((self.block.drop self.positionInBlock).map (·.docId)).Pairwise (· < ·) :=
        hbs.sublist ((drop_sublist ..).map _)
      split
      case isTrue hend =>
        obtain ⟨hok, hrest⟩ := h.seekLaterBlock hex hend
        refine ⟨hok, ?_⟩
        have hnil : (self.block.drop self.positionInBlock).dropWhile (·.docId < target) = [] := by
          rw [dropWhile_eq_nil_iff]
          intro e he
          simpa using (endsBefore_iff hbs).mp hend e (mem_of_mem_drop he)
        rw [hrest, rest, dropWhile_append, hnil]
        rfl
      case isFalse hend =>
        have hlast : ∃ e ∈ self.block.drop self.positionInBlock, ¬ e.docId < target := by
          by_contra hall
          push Not at hall
          have hlt := h.inBlock hex
          have hend' : endsBefore target (self.block.drop self.positionInBlock) = true :=
            (endsBefore_iff hdrop).mpr hall
          rw [endsBefore, getLast?_drop, if_neg (by omega)] at hend'
          exact hend hend'
        obtain ⟨e, he, hge⟩ := hlast
        have hne : (self.block.drop self.positionInBlock).dropWhile (·.docId < target) ≠ [] := by
          intro hnil
          rw [dropWhile_eq_nil_iff] at hnil
          exact hge (by simpa using hnil e he)
        have hpos := hne
        rw [← drop_lowerBound, drop_drop, ne_eq, drop_eq_nil_iff, not_le] at hpos
        rw [seekInBlock_eq hbs (h.inBlock hex) (Nat.lt_of_not_le hle)]
        refine ⟨h.setPosition fun _ => hpos, ?_⟩
        rw [rest_setPosition, rest, dropWhile_append, ← drop_drop, drop_lowerBound]
        simp [hne]

theorem Ok.new {blocks : List (List PostingEntry)} (hne : ∀ b ∈ blocks, b ≠ [])
    (hlen : ∀ b ∈ blocks, b.length ≤ postingBlockSize) (hs : (blocks.flatten.map (·.docId)).Pairwise (· < ·))
    (hb : ∀ e ∈ blocks.flatten, e.docId < terminated) : (new blocks).Ok := by
  refine ⟨hne, hlen, ?_, hs, hb⟩
  intro h
  have : (BlockPostingIterator.new blocks).block ∈ blocks := by
    have := remaining_eq h
    exact (show (BlockPostingIterator.new blocks).remaining = blocks from rfl) ▸
      (by rw [this]; exact mem_cons_self)
  exact length_pos_iff.mpr (hne _ this)

theorem rest_new (blocks : List (List PostingEntry)) : (new blocks).rest = blocks.flatten := by
  cases blocks <;> rfl

theorem Ok.mem_docs_seek (h : self.Ok) {d : Nat} :
    d ∈ (self.seek target).docs ↔ d ∈ self.docs ∧ target ≤ d := by
  rw [← mem_dropWhile_lt h.docs_sorted, docs, (h.seek target).2, docs, dropWhile_map]
  rfl

theorem Ok.mem_docs_advance (h : self.Ok) (hne : self.rest ≠ []) {d : Nat} :
    d ∈ self.advance.docs ↔ d ∈ self.docs ∧ d ≠ self.doc := by
  have hs := h.docs_sorted
  rw [h.doc_eq, docs, h.advance.2, map_tail, ← docs]
  obtain ⟨a, as, has⟩ := exists_cons_of_ne_nil (show self.docs ≠ [] by simpa [docs] using hne)
  rw [has] at hs ⊢
  rw [pairwise_cons] at hs
  simp only [tail_cons, mem_cons, head?_cons, Option.getD_some]
  constructor
  · intro hd
    exact ⟨.inr hd, (hs.1 d hd).ne'⟩
  · rintro ⟨rfl | hd, hne⟩
    · exact absurd rfl hne
    · exact hd

theorem Ok.rest_seek_suffix (h : self.Ok) (target : Nat) : (self.seek target).rest <:+ self.rest := by
  rw [(h.seek target).2]
  exact dropWhile_suffix _

/-- The posting of a document in a list. -/
theorem find?_docId {l : List PostingEntry} (hs : (l.map (·.docId)).Pairwise (· < ·)) {e : PostingEntry}
    (he : e ∈ l) : l.find? (·.docId = e.docId) = some e := by
  rw [find?_eq_some_iff_append]
  obtain ⟨pre, post, hsplit⟩ := append_of_mem he
  refine ⟨by simp, pre, post, hsplit, fun a ha => ?_⟩
  rw [hsplit, map_append] at hs
  have := (pairwise_append.mp hs).2.2 _ (mem_map_of_mem ha) e.docId (by simp)
  simp
  omega

/-- `it'` is `it` or was reached from it: a later place in the same block, or a later block. -/
def Forward (it it' : BlockPostingIterator) : Prop :=
  (it'.currentBlock = it.currentBlock ∧ it'.remaining = it.remaining ∧
    it.positionInBlock ≤ it'.positionInBlock) ∨ it.currentBlock < it'.currentBlock

theorem Forward.refl : Forward self self := .inl ⟨rfl, rfl, le_rfl⟩

theorem Forward.trans {it it' it'' : BlockPostingIterator} (h : Forward it it') (h' : Forward it' it'') :
    Forward it it'' := by
  rcases h with ⟨h1, h2, h3⟩ | h
  · rcases h' with ⟨h1', h2', h3'⟩ | h'
    · exact .inl ⟨h1'.trans h1, h2'.trans h2, h3.trans h3'⟩
    · exact .inr (h1 ▸ h')
  · rcases h' with ⟨h1', -, -⟩ | h'
    · exact .inr (h1' ▸ h)
    · exact .inr (h.trans h')

theorem forward_loadNext : Forward self self.loadNext := .inr (Nat.lt_succ_self _)

theorem forward_advance : Forward self self.advance := by
  unfold advance
  split
  · exact .refl
  · split
    · exact forward_loadNext
    · exact .inl ⟨rfl, rfl, Nat.le_succ _⟩

theorem le_seekInBlock : self.positionInBlock ≤ self.seekInBlock target := by
  rw [seekInBlock]
  dsimp only
  split <;> omega

theorem forward_seekLaterBlock (hne : self.remaining ≠ []) : Forward self (self.seekLaterBlock target) := by
  rw [BlockPostingIterator.seekLaterBlock]
  split
  case h_1 => exact .inr (Nat.lt_add_of_pos_right (length_pos_iff.mpr hne))
  case h_2 block hsome => exact .inr (le_of_seekBlock hsome)

theorem forward_seek : Forward self (self.seek target) := by
  unfold seek
  split
  case isTrue => exact .refl
  case isFalse hex =>
    split
    case isTrue => exact .refl
    case isFalse =>
      split
      case isTrue => exact forward_seekLaterBlock (mt exhausted_iff.mpr hex)
      case isFalse => exact .inl ⟨rfl, rfl, le_seekInBlock⟩

end BlockPostingIterator

end Summa
