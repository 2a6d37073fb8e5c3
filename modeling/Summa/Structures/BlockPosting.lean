import Summa.Structures.Positions

/-!
# Block posting lists (`structures/postings/posting.rs`)

The postings of one term, cut into blocks of at most 128. A block stores its first document, the
differences of the following ones and the term frequencies; in a list with positions it also
stores the number of values of the term's position stream before it. Iteration yields a document,
its frequency and its position cursor.

* `entries_build`: iterating a list built from sorted postings gives the postings back, each with
  the sum of the frequencies before it as its cursor.

Block bounds, skip entries and the packing of the arrays into bytes are left out.
-/

namespace Summa

open List

/-- `BLOCK_SIZE`. -/
def postingBlockSize : Nat := 128

structure Posting where
  docId : Nat
  termFreq : Nat
  deriving DecidableEq, Repr

/-- What a posting iterator reads at one posting: document, frequency and position cursor. -/
structure PostingEntry where
  docId : Nat
  termFreq : Nat
  cursor : Nat
  deriving DecidableEq, Repr

structure PostingBlock where
  firstDoc : Nat
  docDeltas : List Nat
  tfs : List Nat
  /-- Values in the term's position stream before the block; 0 in a list without positions. -/
  posCursor : Nat
  deriving DecidableEq, Repr

/-- Postings with the running sum of their frequencies, from `cursor` on. -/
def entriesFrom (cursor : Nat) : List Posting → List PostingEntry
  | [] => []
  | p :: ps => ⟨p.docId, p.termFreq, cursor⟩ :: entriesFrom (cursor + p.termFreq) ps

theorem entriesFrom_append (cursor : Nat) (ps qs : List Posting) :
    entriesFrom cursor (ps ++ qs) =
      entriesFrom cursor ps ++ entriesFrom (cursor + (ps.map (·.termFreq)).sum) qs := by
  induction ps generalizing cursor with
  | nil => simp [entriesFrom]
  | cons p ps ih => simp [entriesFrom, ih, Nat.add_assoc]

@[simp] theorem length_entriesFrom (cursor : Nat) (ps : List Posting) :
    (entriesFrom cursor ps).length = ps.length := by
  induction ps generalizing cursor with
  | nil => rfl
  | cons p ps ih => simp [entriesFrom, ih]

theorem map_docId_entriesFrom (cursor : Nat) (ps : List Posting) :
    (entriesFrom cursor ps).map (·.docId) = ps.map (·.docId) := by
  induction ps generalizing cursor with
  | nil => rfl
  | cons p ps ih => simp [entriesFrom, ih]

theorem getElem?_entriesFrom (cursor : Nat) (ps : List Posting) (i : Nat) :
    (entriesFrom cursor ps)[i]? =
      (ps[i]?).map fun p => ⟨p.docId, p.termFreq, cursor + ((ps.take i).map (·.termFreq)).sum⟩ := by
  induction ps generalizing cursor i with
  | nil => simp [entriesFrom]
  | cons p ps ih =>
    cases i with
    | zero => simp [entriesFrom]
    | succ i =>
      simp only [entriesFrom, getElem?_cons_succ, ih, take_succ_cons, map_cons,
        sum_cons, Nat.add_assoc]

namespace PostingBlock

/-- The decoded document ids. -/
def docs (self : PostingBlock) : List Nat := self.firstDoc :: absolute self.firstDoc self.docDeltas

/-- The decoded postings. -/
def postings (self : PostingBlock) : List Posting := zipWith Posting.mk self.docs self.tfs

/-- The postings of a loaded block with `position_cursor`: the block's cursor plus the frequencies
of the postings before it in the block. -/
def entries (self : PostingBlock) : List PostingEntry := entriesFrom self.posCursor self.postings

/-- One iteration of the loop of `build`, over the postings of a block. -/
def ofPostings (posCursor : Nat) : List Posting → PostingBlock
  | [] => ⟨0, [], [], posCursor⟩
  | p :: ps => ⟨p.docId, deltas p.docId (ps.map (·.docId)), p.termFreq :: ps.map (·.termFreq), posCursor⟩

@[simp] theorem posCursor_ofPostings (posCursor : Nat) (ps : List Posting) :
    (ofPostings posCursor ps).posCursor = posCursor := by
  cases ps <;> rfl

theorem postings_ofPostings {posCursor : Nat} {ps : List Posting}
    (hs : (ps.map (·.docId)).Pairwise (· < ·)) : (ofPostings posCursor ps).postings = ps := by
  cases ps with
  | nil => rfl
  | cons p ps =>
    have hle : (p.docId :: ps.map (·.docId)).Pairwise (· ≤ ·) := hs.imp fun h => Nat.le_of_lt h
    simp only [postings, docs, ofPostings, absolute_deltas hle, zipWith_cons_cons, cons.injEq,
      true_and]
    rw [zipWith_map, zipWith_self, map_id']

end PostingBlock

structure BlockPostingList where
  blocks : List PostingBlock
  /-- Whether the blocks carry position cursors. -/
  hasCursors : Bool
  totalPositions : Nat
  docCount : Nat
  deriving DecidableEq, Repr

namespace BlockPostingList

/-- The loop of `build` from the posting at which `positions_so_far` values precede. -/
def buildBlocks (withPositions : Bool) (positionsSoFar : Nat) (ps : List Posting) :
    List PostingBlock :=
  if ps = [] then []
  else
    let block := ps.take postingBlockSize
    let next := if withPositions then positionsSoFar + (block.map (·.termFreq)).sum
      else positionsSoFar
    PostingBlock.ofPostings positionsSoFar block ::
      buildBlocks withPositions next (ps.drop postingBlockSize)
  termination_by ps.length
  decreasing_by
    have : 0 < ps.length := List.length_pos_iff.mpr ‹_›
    simp only [length_drop, postingBlockSize]
    omega

/-- `BlockPostingList::build`. -/
def build (ps : List Posting) (withPositions : Bool) : BlockPostingList where
  blocks := buildBlocks withPositions 0 ps
  hasCursors := withPositions
  totalPositions := if withPositions then (ps.map (·.termFreq)).sum else 0
  docCount := ps.length

/-- What iteration yields, in order. -/
def entries (self : BlockPostingList) : List PostingEntry := self.blocks.flatMap (·.entries)

variable {ps : List Posting}

/-- The first block of postings and the rest are sorted, and the rest is shorter. -/
theorem split_block (hne : ps ≠ []) (hs : (ps.map (·.docId)).Pairwise (· < ·)) :
    (ps.drop postingBlockSize).length < ps.length ∧
      ((ps.take postingBlockSize).map (·.docId)).Pairwise (· < ·) ∧
      ((ps.drop postingBlockSize).map (·.docId)).Pairwise (· < ·) := by
  have hpos : 0 < ps.length := length_pos_iff.mpr hne
  refine ⟨?_, hs.sublist ((take_sublist ..).map _), hs.sublist ((drop_sublist ..).map _)⟩
  simp only [length_drop, postingBlockSize]
  omega

section

variable (hs : (ps.map (·.docId)).Pairwise (· < ·))

include hs

theorem flatMap_buildBlocks {cursor : Nat} :
    (buildBlocks true cursor ps).flatMap (·.entries) = entriesFrom cursor ps := by
  induction h : ps.length using Nat.strong_induction_on generalizing ps cursor with
  | _ n ih =>
    unfold buildBlocks
    split
    case isTrue hnil => simp [hnil, entriesFrom]
    case isFalse hne =>
      obtain ⟨hlt, htake, hdrop⟩ := split_block hne hs
      rw [h] at hlt
      rw [flatMap_cons, if_pos rfl, ih _ hlt hdrop rfl, PostingBlock.entries,
        PostingBlock.posCursor_ofPostings, PostingBlock.postings_ofPostings htake,
        ← entriesFrom_append, take_append_drop]

/-- A built list iterates as its postings, each with the frequencies before it as its cursor. -/
theorem entries_build :
    (build ps true).entries = entriesFrom 0 ps := flatMap_buildBlocks hs

/-- The blocks of a built list are full up to the last one. -/
theorem length_entries_buildBlocks {withPositions : Bool} {cursor : Nat} :
    ∀ b ∈ buildBlocks withPositions cursor ps, b.entries ≠ [] ∧ b.entries.length ≤ postingBlockSize := by
  induction h : ps.length using Nat.strong_induction_on generalizing ps cursor with
  | _ n ih =>
    unfold buildBlocks
    split
    case isTrue => simp
    case isFalse hne =>
      obtain ⟨hlt, htake, hdrop⟩ := split_block hne hs
      rw [h] at hlt
      rw [forall_mem_cons]
      refine ⟨?_, ih _ hlt hdrop rfl⟩
      have hlen : (PostingBlock.ofPostings cursor (ps.take postingBlockSize)).entries.length =
          min postingBlockSize ps.length := by
        rw [PostingBlock.entries, PostingBlock.postings_ofPostings htake, length_entriesFrom,
          length_take]
      refine ⟨?_, by omega⟩
      rw [← length_pos_iff, hlen]
      simp only [postingBlockSize]
      omega

end

end BlockPostingList

end Summa
