import Summa.Structures.Positions

/-!
# Query cursors of position streams (`structures/postings/positions_v2.rs`)

A `TermPositionCursor` reads the positions of one document after another and keeps the block that it
decoded last. Reads that stay in this block do not decode it again, and a single position or a
membership test does not build the list.

* `Ok.readInto`, `Ok.readOne`, `Ok.contains`: whatever block is kept, a read inside the stream returns
  what the stream holds there.
-/

namespace Summa

open List

namespace PositionStream

/-- The positions that `tf` values from `cursor` on stand for. -/
def positionsAt (self : PositionStream) (cursor tf : Nat) : List Nat :=
  absolute 0 ((self.values.drop cursor).take tf)

end PositionStream

theorem length_absolute (prev : Nat) (ds : List Nat) : (absolute prev ds).length = ds.length := by
  induction ds generalizing prev with
  | nil => rfl
  | cons d ds ih => simp [absolute, ih]

theorem le_absolute {prev p : Nat} {ds : List Nat} (h : p ∈ absolute prev ds) : prev ≤ p := by
  induction ds generalizing prev with
  | nil => simp [absolute] at h
  | cons d ds ih =>
    rcases mem_cons.mp h with rfl | h
    · exact Nat.le_add_right ..
    · exact (Nat.le_add_right ..).trans (ih h)

theorem absolute_sorted (prev : Nat) (ds : List Nat) : (absolute prev ds).Pairwise (· ≤ ·) := by
  induction ds generalizing prev with
  | nil => exact .nil
  | cons d ds ih => exact pairwise_cons.mpr ⟨fun p hp => le_absolute hp, ih _⟩

/-- The block that was decoded last. -/
structure PositionBlockCache where
  index : Nat
  valueStart : Nat
  values : List Nat
  deriving DecidableEq, Repr

namespace PositionBlockCache

/-- The values from `cursor` on, if they lie in the block. -/
def deltas (self : PositionBlockCache) (cursor tf : Nat) : Option (List Nat) :=
  if self.valueStart ≤ cursor ∧ cursor - self.valueStart + tf ≤ self.values.length then
    some ((self.values.drop (cursor - self.valueStart)).take tf)
  else none

end PositionBlockCache

structure TermPositionCursor where
  positions : PositionStream
  cache : Option PositionBlockCache
  deriving DecidableEq, Repr

namespace TermPositionCursor

variable {self : TermPositionCursor} {cursor tf target : Nat}

/-- `TermPositions::into_cursor`. -/
def new (positions : PositionStream) : TermPositionCursor := ⟨positions, none⟩

section

variable (self : TermPositionCursor)

/-- The block of `cursor`: the kept one if it holds the value, else the located one. The search for it
starts at the kept block in the source. -/
def locate (cursor : Nat) : Option (Nat × Nat) :=
  if self.positions.canonicalBlocks then self.positions.locateValue cursor
  else
    match self.cache with
    | none => self.positions.locateValue cursor
    | some c =>
      if c.valueStart ≤ cursor ∧ cursor - c.valueStart < c.values.length then
        some (c.index, cursor - c.valueStart)
      else self.positions.locateValue cursor

/-- Block `idx`, kept or decoded; a block that does not start at the expected value is refused. -/
def loadBlock (idx inBlock nextCursor : Nat) : Option PositionBlockCache :=
  match self.cache with
  | some c => if c.index = idx then some c else decoded
  | none => decoded
where
  decoded : Option PositionBlockCache :=
    match self.positions.blocks[idx]? with
    | none => none
    | some (start, vs) => if start + inBlock = nextCursor then some ⟨idx, start, vs⟩ else none

/-- The loop of `read_uncached`. -/
def readLoop (self : TermPositionCursor) (idx inBlock remaining nextCursor prev : Nat) :
    Option (List Nat) × TermPositionCursor :=
  if 0 < remaining then
    match self.loadBlock idx inBlock nextCursor with
    | none => (none, { self with cache := none })
    | some c =>
      if c.values.length ≤ inBlock then (none, { self with cache := some c })
      else
        let taken := (c.values.drop inBlock).take remaining
        let r := readLoop { self with cache := some c } (idx + 1) 0 (remaining - taken.length)
          (nextCursor + taken.length) (prev + taken.sum)
        (r.1.map (absolute prev taken ++ ·), r.2)
  else (some [], self)
termination_by remaining
decreasing_by
  simp only [length_take, length_drop]
  omega

/-- `read_cached`. -/
def readInto (cursor tf : Nat) : Option (List Nat) × TermPositionCursor :=
  if tf = 0 then (some [], self)
  else if self.positions.total < cursor + tf then (none, self)
  else
    match self.cache.bind (·.deltas cursor tf) with
    | some ds => (some (absolute 0 ds), self)
    | none =>
      match self.locate cursor with
      | none => (none, self)
      | some (idx, inBlock) => self.readLoop idx inBlock tf cursor 0

/-- The position of a document with one occurrence. -/
def readOne (cursor : Nat) : Option Nat × TermPositionCursor :=
  match (self.cache.bind (·.deltas cursor 1)).bind (·.head?) with
  | some position => (some position, self)
  | none => ((self.readInto cursor 1).1.bind (·.head?), (self.readInto cursor 1).2)

/-- The loop of `contains` over kept differences: it stops at the target. -/
def containsFrom (target prev : Nat) : List Nat → Bool
  | [] => false
  | d :: ds => if target ≤ prev + d then prev + d == target else containsFrom target (prev + d) ds

/-- Membership in one document's sorted positions. -/
def contains (cursor tf target : Nat) : Bool × TermPositionCursor :=
  if tf = 1 then ((self.readOne cursor).1 == some target, (self.readOne cursor).2)
  else
    match self.cache.bind (·.deltas cursor tf) with
    | some ds => (containsFrom target 0 ds, self)
    | none =>
      -- `binary_search` in a sorted list
      ((self.readInto cursor tf).1.any (target ∈ ·), (self.readInto cursor tf).2)

end

/-- An admitted stream, and a kept block that is one of its blocks. -/
structure Ok (c : TermPositionCursor) : Prop where
  admitted : c.positions.validateBlocks = true
  cached : ∀ k ∈ c.cache, c.positions.blocks[k.index]? = some (k.valueStart, k.values)

theorem ok_new {positions : PositionStream} (h : positions.validateBlocks = true) : (new positions).Ok :=
  ⟨h, by simp [new]⟩

open PositionStream

/-- A block of an admitted stream holds the values from its start on. -/
theorem drop_values {s : PositionStream} (h : s.validateBlocks = true) {i start : Nat} {vs : List Nat}
    (hi : s.blocks[i]? = some (start, vs)) :
    s.values.drop start = vs ++ (s.blocks.drop (i + 1)).flatMap (·.2) := by
  obtain ⟨hstart, -, -, -⟩ := validateFrom_block (of_decide_eq_true h) hi
  obtain ⟨hlt, heq⟩ := List.getElem?_eq_some_iff.mp hi
  have hsplit : s.blocks = s.blocks.take i ++ (start, vs) :: s.blocks.drop (i + 1) := by
    rw [← heq, getElem_cons_drop, take_append_drop]
  rw [values]
  conv_lhs => rw [hsplit]
  rw [flatMap_append, flatMap_cons, hstart, Nat.zero_add, drop_left]

theorem drop_take_values {s : PositionStream} (h : s.validateBlocks = true) {i start : Nat}
    {vs : List Nat} (hi : s.blocks[i]? = some (start, vs)) (hs : start ≤ cursor)
    (hfit : cursor - start + tf ≤ vs.length) :
    (s.values.drop cursor).take tf = (vs.drop (cursor - start)).take tf := by
  have hc : s.values.drop cursor = (s.values.drop start).drop (cursor - start) := by
    rw [drop_drop]
    congr 1
    omega
  rw [hc, drop_values h hi, drop_append_of_le_length (by omega), take_append_of_le_length]
  rw [length_drop]
  omega

namespace Ok

theorem deltas (h : self.Ok) {ds : List Nat} (hd : self.cache.bind (·.deltas cursor tf) = some ds) :
    ds = (self.positions.values.drop cursor).take tf := by
  obtain ⟨k, hk, hds⟩ := Option.bind_eq_some_iff.mp hd
  unfold PositionBlockCache.deltas at hds
  obtain ⟨hin, hds⟩ := Option.ite_none_right_eq_some.mp hds
  rw [drop_take_values h.admitted (h.cached k hk) hin.1 hin.2]
  exact (Option.some.inj hds).symm

theorem locate (h : self.Ok) (hc : cursor < self.positions.total) :
    ∃ i inBlock start vs, self.locate cursor = some (i, inBlock) ∧
      self.positions.blocks[i]? = some (start, vs) ∧ start + inBlock = cursor ∧ inBlock < vs.length := by
  have hloc := locateValue_spec h.admitted hc
  unfold TermPositionCursor.locate
  split
  case isTrue => exact hloc
  case isFalse =>
    split
    case h_1 => exact hloc
    case h_2 k hk =>
      split
      case isTrue hin => exact ⟨_, _, _, _, rfl, h.cached k hk, by omega, hin.2⟩
      case isFalse => exact hloc

variable {idx start : Nat} {vs : List Nat}

variable (hi : self.positions.blocks[idx]? = some (start, vs))

include hi in
theorem loadBlock (h : self.Ok) {inBlock : Nat} :
    self.loadBlock idx inBlock (start + inBlock) = some ⟨idx, start, vs⟩ := by
  have hdec : loadBlock.decoded self idx inBlock (start + inBlock) = some ⟨idx, start, vs⟩ := by
    simp [loadBlock.decoded, hi]
  unfold TermPositionCursor.loadBlock
  split
  case h_1 c hc =>
    split
    case isTrue heq =>
      have := h.cached c hc
      rw [heq, hi] at this
      obtain ⟨rfl, rfl⟩ := Prod.mk.inj (Option.some.inj this)
      rw [← heq]
    case isFalse => exact hdec
  case h_2 => exact hdec

include hi in
theorem setCache (h : self.Ok) :
    ({ self with cache := some ⟨idx, start, vs⟩ } : TermPositionCursor).Ok :=
  ⟨h.admitted, by rintro k ⟨⟩; exact hi⟩

include hi in
/-- While values are left, the next block starts where this one ends. -/
theorem next_block (h : self.Ok)
    (hlt : start + vs.length < self.positions.values.length) :
    ∃ vs', self.positions.blocks[idx + 1]? = some (start + vs.length, vs') ∧ 0 < vs'.length := by
  have hv := of_decide_eq_true h.admitted
  have hdrop := drop_values h.admitted hi
  have hne : self.positions.blocks.drop (idx + 1) ≠ [] := by
    intro hnil
    have := congrArg length hdrop
    rw [hnil, flatMap_nil, append_nil, length_drop] at this
    omega
  have hlen : idx + 1 < self.positions.blocks.length := by
    rw [ne_eq, drop_eq_nil_iff, not_le] at hne
    exact hne
  obtain ⟨next, hnext⟩ : ∃ b, self.positions.blocks[idx + 1]? = some b :=
    ⟨_, getElem?_eq_getElem hlen⟩
  obtain ⟨hstart, hpos, -, -⟩ := validateFrom_block hv hnext
  obtain ⟨hstart', -, -, -⟩ := validateFrom_block hv hi
  obtain ⟨hlt', heq⟩ := List.getElem?_eq_some_iff.mp hi
  have hstart : next.1 = start + vs.length := by
    rw [hstart, take_succ_eq_append_getElem hlt', flatMap_append, length_append, heq,
      hstart']
    simp
  exact ⟨next.2, by rw [← hstart]; exact hnext, hpos⟩

/-- The loop returns the running sums of the addressed values. -/
theorem readLoop (h : self.Ok) {inBlock remaining nextCursor : Nat} (prev : Nat)
    (hblock : 0 < remaining → ∃ start vs, self.positions.blocks[idx]? = some (start, vs) ∧
      start + inBlock = nextCursor ∧ inBlock < vs.length)
    (hfit : nextCursor + remaining ≤ self.positions.values.length) :
    (self.readLoop idx inBlock remaining nextCursor prev).1 =
        some (absolute prev ((self.positions.values.drop nextCursor).take remaining)) ∧
      (self.readLoop idx inBlock remaining nextCursor prev).2.Ok ∧
      (self.readLoop idx inBlock remaining nextCursor prev).2.positions = self.positions := by
  induction remaining using Nat.strong_induction_on generalizing self idx inBlock nextCursor prev with
  | _ remaining ih =>
    unfold TermPositionCursor.readLoop
    split
    case isFalse h0 =>
      obtain rfl : remaining = 0 := by omega
      exact ⟨by simp [absolute], h, rfl⟩
    case isTrue hpos =>
      obtain ⟨start, vs, hi, rfl, hin⟩ := hblock hpos
      rw [h.loadBlock hi]
      simp only []
      rw [if_neg (by omega)]
      set taken := (vs.drop inBlock).take remaining with htaken
      have hlen : taken.length = min remaining (vs.length - inBlock) := by
        rw [htaken, length_take, length_drop]
      have hnext : 0 < remaining - taken.length → ∃ start' vs',
          self.positions.blocks[idx + 1]? = some (start', vs') ∧
            start' + 0 = start + inBlock + taken.length ∧ 0 < vs'.length := by
        intro hmore
        obtain ⟨vs', hi', hpos'⟩ := h.next_block hi (by omega)
        exact ⟨_, vs', hi', by omega, hpos'⟩
      have hfit' : start + inBlock + taken.length + (remaining - taken.length) ≤
          self.positions.values.length := by omega
      obtain ⟨hres, hok, hsame⟩ := ih (remaining - taken.length) (by omega) (h.setCache hi)
        (prev + taken.sum) hnext hfit'
      refine ⟨?_, hok, hsame⟩
      rw [hres, Option.map_some, ← absolute_append]
      refine congrArg (fun vs => some (absolute prev vs)) ?_
      -- the values of this block, then the rest of the stream
      have hrest : self.positions.values.drop (start + inBlock) =
          vs.drop inBlock ++ (self.positions.blocks.drop (idx + 1)).flatMap (·.2) := by
        rw [← drop_drop, drop_values h.admitted hi, drop_append_of_le_length hin.le]
      show taken ++ ((self.positions.values.drop (start + inBlock + taken.length)).take
        (remaining - taken.length)) = _
      rw [← drop_drop]
      conv_rhs => rw [show remaining = taken.length + (remaining - taken.length) by omega, take_add]
      congr 1
      have hle : taken.length ≤ (vs.drop inBlock).length := ( take_prefix ..).length_le
      rw [hrest, take_append_of_le_length hle]
      exact prefix_iff_eq_take.mp ( take_prefix ..)

theorem readInto (h : self.Ok) (hfit : cursor + tf ≤ self.positions.values.length) :
    (self.readInto cursor tf).1 = some (self.positions.positionsAt cursor tf) ∧
      (self.readInto cursor tf).2.Ok ∧ (self.readInto cursor tf).2.positions = self.positions := by
  unfold TermPositionCursor.readInto
  split
  case isTrue h0 => exact ⟨by simp [positionsAt, h0, absolute], h, rfl⟩
  case isFalse h0 =>
    have htotal := total_eq h.admitted
    rw [if_neg (by omega)]
    split
    case h_1 ds hds => exact ⟨by rw [h.deltas hds]; rfl, h, rfl⟩
    case h_2 =>
      obtain ⟨i, inBlock, start, vs, hloc, hi, hcur, hin⟩ :=
        h.locate (show cursor < self.positions.total by omega)
      rw [hloc]
      exact h.readLoop 0 (fun _ => ⟨start, vs, hi, hcur, hin⟩) hfit

theorem readOne (h : self.Ok) (hfit : cursor + 1 ≤ self.positions.values.length) :
    (self.readOne cursor).1 = (self.positions.positionsAt cursor 1).head? ∧
      (self.readOne cursor).2.Ok ∧ (self.readOne cursor).2.positions = self.positions := by
  unfold TermPositionCursor.readOne
  split
  case h_1 position hp =>
    obtain ⟨ds, hds, hhead⟩ := Option.bind_eq_some_iff.mp hp
    refine ⟨?_, h, rfl⟩
    rw [positionsAt, ← h.deltas hds]
    obtain ⟨rest, rfl⟩ := head?_eq_some_iff.mp hhead
    simp [absolute]
  case h_2 =>
    obtain ⟨hres, hok, hsame⟩ := h.readInto hfit
    exact ⟨by rw [hres]; rfl, hok, hsame⟩

end Ok

theorem containsFrom_iff {target prev : Nat} {ds : List Nat} :
    containsFrom target prev ds = true ↔ target ∈ absolute prev ds := by
  induction ds generalizing prev with
  | nil => simp [containsFrom, absolute]
  | cons d ds ih =>
    rw [containsFrom, absolute, mem_cons]
    split
    case isTrue hle =>
      rw [beq_iff_eq]
      refine ⟨fun h => .inl h.symm, ?_⟩
      rintro (h | h)
      · exact h.symm
      · have := le_absolute h
        omega
    case isFalse hgt =>
      rw [ih]
      refine ⟨.inr, ?_⟩
      rintro (h | h)
      · omega
      · exact h

theorem Ok.contains (h : self.Ok) (hfit : cursor + tf ≤ self.positions.values.length) (target : Nat) :
    ((self.contains cursor tf target).1 = true ↔ target ∈ self.positions.positionsAt cursor tf) ∧
      (self.contains cursor tf target).2.Ok ∧
      (self.contains cursor tf target).2.positions = self.positions := by
  unfold TermPositionCursor.contains
  split
  case isTrue h1 =>
    subst h1
    obtain ⟨hres, hok, hsame⟩ := h.readOne hfit
    refine ⟨?_, hok, hsame⟩
    have hlen : (self.positions.positionsAt cursor 1).length = 1 := by
      rw [positionsAt, length_absolute, length_take, length_drop]
      omega
    obtain ⟨p, hp⟩ := length_eq_one_iff.mp hlen
    rw [hres, hp, head?_cons, beq_iff_eq, Option.some.injEq, mem_singleton]
    exact eq_comm
  case isFalse =>
    split
    case h_1 ds hds => exact ⟨by rw [containsFrom_iff, h.deltas hds]; rfl, h, rfl⟩
    case h_2 =>
      obtain ⟨hres, hok, hsame⟩ := h.readInto hfit
      exact ⟨by rw [hres]; simp, hok, hsame⟩

end TermPositionCursor

end Summa
