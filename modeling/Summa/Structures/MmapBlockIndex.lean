import Summa.Structures.BlockAddrStore

/-!
# Raw block index (`MmapBlockIndex` of `structures/sstable_index.rs`)

The first keys of the data blocks as a prefix-coded stream with restarts, kept as bytes and decoded on demand:
`num_blocks | block addresses | keys | restart offsets | restart_count | restart_interval`.

* `load_encode`: what was built is accepted and holds the keys and the addresses that the bit writer kept (`Holds`).
* `Holds.locate`: `locate` finds the last block whose first key is not above the target.
* `locate?_eq`: `locate` reads nothing outside the bytes of an index that was accepted.
-/

namespace Summa

open List Fallible

structure MmapBlockIndex where
  data : List Byte
  numBlocks : Nat
  blockAddrs : BlockAddrStore
  keysOffset : Nat
  keysEnd : Nat
  restartArrayOffset : Nat
  restartCount : Nat
  interval : Nat
  deriving DecidableEq, Repr

namespace MmapBlockIndex

/-- The loop of `build` over the keys: the key stream and the offsets of its restarts. -/
def writeKeys (keysBuf : List Byte) (restartOffsets : List Nat) (prevKey : Key) (i : Nat) :
    List Key → List Byte × List Nat
  | [] => (keysBuf, restartOffsets)
  | key :: keys =>
    if i % restartInterval = 0 then
      writeKeys (keysBuf ++ (writeVint 0 ++ (writeVint key.length ++ key)))
        (restartOffsets ++ [keysBuf.length]) key (i + 1) keys
    else
      let prefixLen := commonPrefixLen prevKey key
      let suffix := key.drop prefixLen
      writeKeys (keysBuf ++ (writeVint prefixLen ++ (writeVint suffix.length ++ suffix))) restartOffsets key
        (i + 1) keys

/-- The bytes behind the block addresses. -/
def footer (restartCount : Nat) : List Byte := leBytes 4 restartCount ++ leBytes 2 restartInterval

def build (entries : List (Key × BlockAddr)) : IoResult (List Byte) :=
  if entries = [] then do
    let addrBytes ← BlockAddrStore.build []
    .ok (leBytes 4 0 ++ (addrBytes ++ footer 0))
  else do
    let addrBytes ← BlockAddrStore.build (entries.map (·.2))
    let (keysBuf, restartOffsets) := writeKeys [] [] [] 0 (entries.map (·.1))
    .ok (leBytes 4 entries.length ++ (addrBytes ++ (keysBuf ++
      (encodeColumn 4 restartOffsets ++ footer restartOffsets.length))))

/-- The loop of `load` that checks the key stream: the order of the keys, their restarts and that nothing is
left. -/
def checkKeys (data : List Byte) (restartArrayOffset interval keysLen : Nat) :
    (numBlocks ordinal : Nat) → (reader : List Byte) → (currentKey : Key) → (previousKey : Option Key) →
      IoResult Unit
  | 0, _, reader, _, _ =>
    if reader = [] then .ok () else .error (.invalidData "block index contains trailing key data")
  | n + 1, ordinal, reader, currentKey, previousKey => do
    failIf (ordinal % interval = 0 ∧
        readLe 4 data (restartArrayOffset + ordinal / interval * 4) ≠ keysLen - reader.length)
      (.invalidData "block index restart offset is inconsistent")
    let (prefixLen, reader) ← readVintIo reader
    let (suffixLen, reader) ← readVintIo reader
    failIf (ordinal % interval = 0 ∧ prefixLen ≠ 0)
      (.invalidData "block index restart key uses a prefix")
    failIf (currentKey.length < prefixLen ∨ reader.length < suffixLen)
      (.unexpectedEof "block index key is truncated")
    let key := currentKey.take prefixLen ++ reader.take suffixLen
    failIf (∃ previous ∈ previousKey, key ≤ previous)
      (.invalidData "block index keys are not strictly increasing")
    checkKeys data restartArrayOffset interval keysLen n (ordinal + 1) (reader.drop suffixLen) key (some key)

def load (data : List Byte) : IoResult MmapBlockIndex := do
  failIf (data.length < 16) (.invalidData "MmapBlockIndex data too short")
  let numBlocks := readLe 4 data 0
  let blockAddrs ← BlockAddrStore.load (data.drop 4)
  failIf (blockAddrs.numBlocks ≠ numBlocks)
    (.invalidData "block address count does not match key count")
  let keysOffset := 4 + BlockAddrStore.headerSize +
    BlockAddrStore.packedLen numBlocks blockAddrs.offsetBits blockAddrs.lengthBits
  failIf (data.length < keysOffset + 6) (.invalidData "MmapBlockIndex missing restart footer")
  let footerStart := data.length - 6
  let restartCount := readLe 4 data footerStart
  let interval := readLe 2 data (footerStart + 4)
  failIf (interval = 0) (.invalidData "block index restart interval is zero")
  failIf (restartCount ≠ (numBlocks + (interval - 1)) / interval)
    (.invalidData "block index restart count is inconsistent")
  failIf (footerStart < restartCount * 4) (.invalidData "restart table out of bounds")
  let restartArrayOffset := footerStart - restartCount * 4
  failIf (restartArrayOffset < keysOffset) (.invalidData "restart table overlaps block keys")
  let keysData := sliceBytes data keysOffset (restartArrayOffset - keysOffset)
  checkKeys data restartArrayOffset interval keysData.length numBlocks 0 keysData [] none
  .ok ⟨data, numBlocks, blockAddrs, keysOffset, restartArrayOffset, restartArrayOffset, restartCount, interval⟩

variable (self : MmapBlockIndex)

def keysData : List Byte := sliceBytes self.data self.keysOffset (self.keysEnd - self.keysOffset)

/-- Read restart offset at given index. -/
def restartOffset (idx : Nat) : Nat := readLe 4 self.data (self.restartArrayOffset + idx * 4)

/-- Decode the full key at a restart point; `load` has checked that it can be read. -/
def decodeRestartKey (restartIdx : Nat) : Key :=
  let reader := self.keysData.drop (self.restartOffset restartIdx)
  match readVintIo reader with
  | .error _ => []
  | .ok (_, reader) =>
    match readVintIo reader with
    | .error _ => []
    | .ok (suffixLen, reader) => reader.take suffixLen

/-- The binary search over the restarts: the place of an equal key, or the first restart above the target. -/
def searchRestarts (restartKey : Nat → Key) (target : Key) (lo hi : Nat) : Nat ⊕ Nat :=
  if lo < hi then
    let mid := lo + (hi - lo) / 2
    let key := restartKey mid
    if key = target then .inl mid
    else if key < target then searchRestarts restartKey target (mid + 1) hi
    else searchRestarts restartKey target lo mid
  else .inr lo
  termination_by hi - lo

/-- The linear scan of `count` keys from ordinal `i` on. -/
def scanKeys (target : Key) : (count i : Nat) → (reader : List Byte) → (currentKey : Key) →
    (lastLeBlock : Option Nat) → Option Nat
  | 0, _, _, _, lastLeBlock => lastLeBlock
  | count + 1, i, reader, currentKey, lastLeBlock =>
    match decodeBlockKey reader currentKey with
    | .error _ => lastLeBlock
    | .ok (_, key, reader) =>
      if key = target then some i
      else if key < target then scanKeys target count (i + 1) reader key (some i)
      else lastLeBlock

def locate (target : Key) : Option Nat :=
  if self.numBlocks = 0 then none
  else
    match searchRestarts self.decodeRestartKey target 0 self.restartCount with
    | .inl mid => some (mid * self.interval)
    | .inr lo =>
      let restartIdx := if 0 < lo then lo - 1 else 0
      let startOrdinal := restartIdx * self.interval
      let endOrdinal :=
        if restartIdx + 1 < self.restartCount then (restartIdx + 1) * self.interval else self.numBlocks
      scanKeys target (endOrdinal - startOrdinal) startOrdinal
        (self.keysData.drop (self.restartOffset restartIdx)) [] none

def getAddr (ordinal : Nat) : Option BlockAddr := self.blockAddrs.addrs[ordinal]?

/-! The reads of `locate` with their bounds: `none` for a read out of range, a failed debug assertion and a number
that cannot be read (the source has a default for it). -/

def restartOffset? (idx : Nat) : Option Nat := readLe? 4 self.data (self.restartArrayOffset + idx * 4)

def decodeRestartKey? (restartIdx : Nat) : Option Key := do
  let reader ← dropBytes? self.keysData (← self.restartOffset? restartIdx)
  let (prefixLen, reader) ← (readVintIo reader).toOption
  let (suffixLen, reader) ← (readVintIo reader).toOption
  if prefixLen = 0 then sliceBytes? reader 0 suffixLen else none

def searchRestarts? (restartKey : Nat → Option Key) (target : Key) (lo hi : Nat) : Option (Nat ⊕ Nat) :=
  if lo < hi then do
    let mid := lo + (hi - lo) / 2
    let key ← restartKey mid
    if key = target then some (.inl mid)
    else if key < target then searchRestarts? restartKey target (mid + 1) hi
    else searchRestarts? restartKey target lo mid
  else some (.inr lo)
  termination_by hi - lo

def locate? (target : Key) : Option (Option Nat) :=
  if self.numBlocks = 0 then some none
  else if self.keysEnd < self.keysOffset ∨ self.data.length < self.keysEnd then none
  else do
    match ← searchRestarts? self.decodeRestartKey? target 0 self.restartCount with
    | .inl mid => some (some (mid * self.interval))
    | .inr lo =>
      let restartIdx := if 0 < lo then lo - 1 else 0
      let startOrdinal := restartIdx * self.interval
      let endOrdinal :=
        if restartIdx + 1 < self.restartCount then (restartIdx + 1) * self.interval else self.numBlocks
      let reader ← dropBytes? self.keysData (← self.restartOffset? restartIdx)
      some (scanKeys target (endOrdinal - startOrdinal) startOrdinal reader [] none)

end MmapBlockIndex

/-- The keys of the index as items without anything behind them. -/
def keyItems (keys : List Key) : List Item := keys.map fun key => (key, [])

@[simp] theorem length_keyItems (keys : List Key) : (keyItems keys).length = keys.length := length_map ..

namespace MmapBlockIndex

/-- The loop writes the stream of the keys and its restarts. -/
theorem writeKeys_eq (done keys : List Key) :
    writeKeys (encodeItems 0 [] (keyItems done)) (restartOffsets (keyItems done)) (lastKey [] (keyItems done))
        done.length keys =
      (encodeItems 0 [] (keyItems (done ++ keys)), restartOffsets (keyItems (done ++ keys))) := by
  induction keys generalizing done with
  | nil => rw [writeKeys, append_nil]
  | cons key keys ih =>
    have hitems : keyItems (done ++ [key]) = keyItems done ++ [(key, [])] := by simp [keyItems]
    have hstream : encodeItems 0 [] (keyItems (done ++ [key])) = encodeItems 0 [] (keyItems done) ++
        encodeKey (prefixLenAt done.length (lastKey [] (keyItems done)) key) key := by
      rw [hitems, encodeItems_append, Nat.zero_add, length_keyItems]
      simp [encodeItems]
    have hrestarts := restartOffsets_append_singleton (keyItems done) (key, [])
    have hlast : lastKey [] (keyItems (done ++ [key])) = key := by rw [hitems, lastKey_append_singleton]
    rw [← hitems, length_keyItems] at hrestarts
    have hnext := ih (done ++ [key])
    rw [hstream, hrestarts, hlast, length_append, length_singleton, append_assoc,
      singleton_append] at hnext
    rw [writeKeys]
    split
    case isTrue h =>
      rw [prefixLenAt, if_pos h, if_pos h] at hnext
      simpa [encodeKey] using hnext
    case isFalse h =>
      rw [prefixLenAt, if_neg h, if_neg h, append_nil] at hnext
      simpa [encodeKey] using hnext

/-- The index holds the keys, with their restarts, and the addresses. -/
structure Holds (index : MmapBlockIndex) (keys : List Key) (addrs : List BlockAddr) : Prop where
  numBlocks : index.numBlocks = keys.length
  addrs : index.blockAddrs.addrs = addrs
  interval : index.interval = restartInterval
  restartCount : index.restartCount = Summa.restartCount keys.length
  keysData : index.keysData = encodeItems 0 [] (keyItems keys)
  restarts : ∀ r < Summa.restartCount keys.length, index.restartOffset r = Summa.restartOffset (keyItems keys) r

variable {self : MmapBlockIndex} {keys : List Key} {addrs : List BlockAddr} {target : Key}

variable (h : self.Holds keys addrs) (hs : keys.Pairwise (· < ·)) (hlen : ∀ key ∈ keys, key.length < 2 ^ 64)

include h in
/-- What stands at a restart. -/
theorem Holds.drop_restart {r : Nat} (hr : r < Summa.restartCount keys.length) :
    self.keysData.drop (self.restartOffset r) =
      encodeItems (r * restartInterval) [] (keyItems (keys.drop (r * restartInterval))) := by
  have hle : r * restartInterval ≤ (keyItems keys).length := by
    rw [length_keyItems]
    exact (lt_restartCount_iff.mp hr).le
  rw [h.keysData, h.restarts r hr, Summa.drop_restart hle, keyItems, keyItems, map_drop]

include h hlen in
theorem Holds.decodeRestartKey {r : Nat}
    (hr : r * restartInterval < keys.length) : self.decodeRestartKey r = keys[r * restartInterval] := by
  have hkey := hlen _ (getElem_mem hr)
  rw [MmapBlockIndex.decodeRestartKey, h.drop_restart (lt_restartCount_iff.mpr hr),
    drop_eq_getElem_cons hr, keyItems, map_cons, encodeItems, prefixLenAt,
    if_pos (Nat.mul_mod_left ..), readVintIo_encodeKey (by decide)]
  dsimp only
  rw [readVintIo_writeVint (by omega)]
  dsimp only
  rw [Nat.sub_zero, drop_zero, take_left]

theorem searchRestarts_spec {restartKey : Nat → Key} {bound at_ lo hi : Nat}
    (h : SplitsAt (fun i => restartKey i ≤ target) bound at_) (hlo : lo ≤ at_) (hhi : at_ ≤ hi)
    (hbound : hi ≤ bound) :
    (∃ mid < bound, restartKey mid = target ∧ searchRestarts restartKey target lo hi = .inl mid) ∨
      searchRestarts restartKey target lo hi = .inr at_ := by
  fun_induction searchRestarts restartKey target lo hi with
  | case1 lo hi hlt mid key hkey => exact .inl ⟨mid, by omega, hkey, rfl⟩
  | case2 lo hi hlt mid key hne hkey ih =>
    refine ih ?_ hhi hbound
    by_contra hgt
    have habove := h.above mid (by omega) (by omega)
    exact of_decide_eq_false habove hkey.le
  | case3 lo hi hlt mid key hne hkey ih =>
    refine ih hlo ?_ (by omega)
    by_contra hgt
    have hle := of_decide_eq_true (h.below mid (by omega))
    exact hkey (lt_of_le_of_ne hle hne)
  | case4 lo hi hge => exact .inr (congrArg Sum.inr (by omega))

/-- The scan of `xs` finds the last key that is not above the target. -/
theorem scanKeys_eq {xs : List Key} (hs : xs.Pairwise (· < ·)) (hlen : ∀ key ∈ xs, key.length < 2 ^ 64)
    (ys : List Key) (i : Nat) (prev : Key) (lastLe : Option Nat) :
    scanKeys target xs.length i (encodeItems i prev (keyItems (xs ++ ys))) prev lastLe =
      ((lastAtMost xs target).map (i + ·)).or lastLe := by
  induction xs generalizing i prev lastLe with
  | nil => rfl
  | cons x xs ih =>
    obtain ⟨hx, hxs⟩ := pairwise_cons.mp hs
    obtain ⟨hxlen, hlen⟩ := forall_mem_cons.mp hlen
    rw [cons_append, keyItems, map_cons, encodeItems, length_cons, scanKeys,
      decodeBlockKey_prefixLenAt hxlen]
    dsimp only
    rcases lt_trichotomy x target with hlt | heq | hgt
    · rw [if_neg hlt.ne, if_pos hlt, lastAtMost_cons_of_le hlt.le]
      refine (ih hxs hlen (i + 1) x (some i)).trans ?_
      cases lastAtMost xs target with
      | none => rfl
      | some j =>
        simp only [Option.map_some, Option.elim_some, Option.some_or]
        congr 1
        omega
    · rw [if_pos heq, lastAtMost_eq_some hs (Nat.zero_lt_succ _) heq.le]
      · rfl
      · intro h
        rw [← heq]
        exact hx _ (getElem_mem (Nat.lt_of_succ_lt_succ h))
    · rw [if_neg hgt.ne', if_neg hgt.asymm, lastAtMost_cons_of_lt hgt]
      rfl

include h hs hlen in
/-- The scan from a restart to the next one. The target lies below all keys, or from the key of the restart on;
it lies below the next restart, if there is one. -/
theorem Holds.scanKeys {r stop : Nat} (hr : r < Summa.restartCount keys.length)
    (hstop : r * restartInterval < stop ∧ stop ≤ keys.length)
    (hlow : ∀ hlt : r * restartInterval < keys.length, keys[r * restartInterval] ≤ target ∨ r = 0)
    (hhigh : ∀ hlt : stop < keys.length, target < keys[stop]) :
    scanKeys target (stop - r * restartInterval) (r * restartInterval)
      (self.keysData.drop (self.restartOffset r)) [] none = lastAtMost keys target := by
  have hstart := lt_restartCount_iff.mp hr
  set start := r * restartInterval
  set xs := (keys.drop start).take (stop - start) with hxs
  have hsplit : keys.drop start = xs ++ keys.drop stop := by
    rw [hxs, ← Nat.add_sub_cancel' hstop.1.le, ← drop_drop, Nat.add_sub_cancel_left, take_append_drop]
  have hlength : xs.length = stop - start := by
    rw [hxs, length_take, length_drop]
    omega
  have hsub : ∀ key ∈ xs, key ∈ keys := fun key hkey => mem_of_mem_drop (mem_of_mem_take hkey)
  have hget : ∀ (j : Nat) (hj : j < xs.length) (hk : start + j < keys.length), xs[j] = keys[start + j] := by
    intro j hj hk
    simp [hxs]
  have hsorted : xs.Pairwise (· < ·) := hs.drop.take
  have hscan : MmapBlockIndex.scanKeys target xs.length start _ [] none = _ :=
    scanKeys_eq hsorted (fun key hkey => hlen key (hsub key hkey)) (keys.drop stop) start [] none
  rw [hlength, ← hsplit] at hscan
  rw [h.drop_restart hr, hscan, Option.or_none]
  cases hlast : lastAtMost xs target with
  | none =>
    have habove := of_lastAtMost_eq_none hsorted hlast
    have hfirst : target < keys[start] := by
      have := habove xs[0] (getElem_mem (by omega))
      rwa [hget 0 (by omega) (by omega)] at this
    refine (lastAtMost_eq_none fun hpos => ?_).symm
    rcases hlow hstart with hle | rfl
    · exact absurd hle hfirst.not_ge
    · simpa [start] using hfirst
  | some j =>
    obtain ⟨hj, hle, hafter⟩ := of_lastAtMost_eq_some hsorted hlast
    rw [hget j hj (by omega)] at hle
    refine (lastAtMost_eq_some hs (by omega) hle fun hnext => ?_).symm
    rcases Nat.lt_or_ge (start + j + 1) stop with hlt | hge
    · have := hafter (j + 1) (Nat.lt_succ_self j) (by omega)
      rwa [hget (j + 1) (by omega) (by omega)] at this
    · have hend : start + j + 1 = stop := by omega
      simp only [hend] at hnext ⊢
      exact hhigh hnext

include h hs hlen in
/-- The last block whose first key is not above the target. -/
theorem Holds.locate : self.locate target = lastAtMost keys target := by
  rw [MmapBlockIndex.locate]
  split
  case isTrue h0 =>
    rw [h.numBlocks] at h0
    rw [length_eq_zero_iff.mp h0]
    rfl
  case isFalse h0 =>
    rw [h.numBlocks] at h0
    have hpos : 0 * restartInterval < keys.length := by omega
    have hrestart := fun {r} (hr : r * restartInterval < keys.length) => h.decodeRestartKey hlen hr
    obtain ⟨at_, hsplit⟩ := exists_splitsAt_restart hs hrestart target
    rw [h.restartCount, h.interval]
    rcases searchRestarts_spec hsplit (Nat.zero_le _) hsplit.le (Nat.le_refl _) with ⟨mid, hmid, hkey, heq⟩ | heq
    · have hlt := lt_restartCount_iff.mp hmid
      rw [hrestart hlt] at hkey
      rw [heq]
      refine (lastAtMost_eq_some hs hlt hkey.le fun hnext => ?_).symm
      rw [← hkey]
      exact pairwise_iff_getElem.mp hs _ _ hlt hnext (Nat.lt_succ_self _)
    · have hidx : (if 0 < at_ then at_ - 1 else 0) = at_ - 1 := by split <;> omega
      have hle := hsplit.le
      have hfirst := lt_restartCount_iff.mpr hpos
      have hr : at_ - 1 < Summa.restartCount keys.length := by omega
      have hstart := lt_restartCount_iff.mp hr
      rw [heq, h.numBlocks]
      dsimp only
      rw [hidx]
      have hlow : ∀ hlt : (at_ - 1) * restartInterval < keys.length,
          keys[(at_ - 1) * restartInterval] ≤ target ∨ at_ - 1 = 0 := by
        intro hlt
        rcases Nat.eq_zero_or_pos at_ with h0 | hpos
        · exact .inr (by omega)
        · have := of_decide_eq_true (hsplit.below (at_ - 1) (by omega))
          rw [hrestart hlt] at this
          exact .inl this
      split
      case isTrue hmore =>
        have hnext := lt_restartCount_iff.mp hmore
        have hstep : (at_ - 1) * restartInterval < (at_ - 1 + 1) * restartInterval := by
          rw [Nat.succ_mul]
          exact Nat.lt_add_of_pos_right (by decide)
        refine h.scanKeys hs hlen hr ⟨hstep, hnext.le⟩ hlow fun hlt => ?_
        have := of_decide_eq_false (hsplit.above (at_ - 1 + 1) (by omega) hmore)
        rwa [hrestart hnext, not_le] at this
      case isFalse =>
        exact h.scanKeys hs hlen hr ⟨hstart, Nat.le_refl _⟩ hlow fun hlt => absurd hlt (Nat.lt_irrefl _)

include hs hlen in
/-- The key stream of an index passes the checks of `load`, from any place in it on. -/
theorem checkKeys_eq {data : List Byte} {restartArrayOffset : Nat}
    (hrestarts : ∀ r < Summa.restartCount keys.length,
      readLe 4 data (restartArrayOffset + r * 4) = Summa.restartOffset (keyItems keys) r) {done rest : List Key}
    (hkeys : keys = done ++ rest) :
    checkKeys data restartArrayOffset restartInterval (encodeItems 0 [] (keyItems keys)).length rest.length
      done.length (encodeItems done.length (lastKey [] (keyItems done)) (keyItems rest))
      (lastKey [] (keyItems done)) done.getLast? = .ok () := by
  induction rest generalizing done with
  | nil => rfl
  | cons key rest ih =>
    have hdone : keys = (done ++ [key]) ++ rest := by simp [hkeys]
    have hnext := ih hdone
    have hitems : keyItems (done ++ [key]) = keyItems done ++ [(key, [])] := by simp [keyItems]
    rw [hitems, lastKey_append_singleton, getLast?_concat, length_append, length_singleton] at hnext
    have hmem : key ∈ keys := by simp [hkeys]
    have hkey := hlen key hmem
    have hstream : (encodeItems 0 [] (keyItems keys)).length =
        (encodeItems 0 [] (keyItems done)).length +
          (encodeItems done.length (lastKey [] (keyItems done)) (keyItems (key :: rest))).length := by
      have happend : keyItems keys = keyItems done ++ keyItems (key :: rest) := by simp [hkeys, keyItems]
      rw [happend, encodeItems_append, length_append, length_keyItems, Nat.zero_add]
    have hoffset : done.length % restartInterval = 0 →
        readLe 4 data (restartArrayOffset + done.length / restartInterval * 4) =
          (encodeItems 0 [] (keyItems done)).length := by
      intro h0
      have hmul : done.length / restartInterval * restartInterval = done.length :=
        Nat.div_mul_cancel (Nat.dvd_of_mod_eq_zero h0)
      have hlt : done.length / restartInterval < Summa.restartCount keys.length := by
        rw [lt_restartCount_iff, hmul, hkeys, length_append, length_cons]
        omega
      have htake : (keyItems keys).take done.length = keyItems done := by
        rw [hkeys, keyItems, keyItems, map_append, take_left' (length_map ..)]
      rw [hrestarts _ hlt, Summa.restartOffset, hmul, htake]
    set prev := lastKey [] (keyItems done)
    have hbefore : ∀ previous ∈ done.getLast?, previous < key := by
      intro previous hlast
      rw [hkeys, pairwise_append] at hs
      exact hs.2.2 previous (mem_of_getLast? hlast) key mem_cons_self
    have hreader : encodeItems done.length prev (keyItems (key :: rest)) =
        encodeKey (prefixLenAt done.length prev key) key ++ encodeItems (done.length + 1) key (keyItems rest) := rfl
    have hle := prefixLenAt_le done.length prev key
    have htake := take_prefixLenAt done.length prev key
    have hzero : done.length % restartInterval = 0 → prefixLenAt done.length prev key = 0 := fun h0 => if_pos h0
    generalize prefixLenAt done.length prev key = shared at *
    have hdrop : (key.drop shared).length = key.length - shared := length_drop ..
    have hrestored : prev.take shared ++ (key.drop shared ++
        encodeItems (done.length + 1) key (keyItems rest)).take (key.length - shared) = key := by
      rw [← hdrop, take_left, htake, take_append_drop]
    rw [length_cons, checkKeys, failIf_bind, hreader, readVintIo_encodeKey (by omega), ok_bind]
    · dsimp only
      rw [readVintIo_writeVint (by omega), ok_bind]
      rw [failIf_bind, failIf_bind, hrestored, failIf_bind]
      · rw [← hdrop, drop_left]
        exact hnext
      · rintro ⟨previous, hlast, hge⟩
        exact absurd (hbefore previous hlast) hge.not_gt
      · rw [length_append, hdrop]
        omega
      · exact fun h => h.2 (hzero h.1)
    · rintro ⟨h0, hne⟩
      exact hne (by rw [hoffset h0, hstream]; omega)

/-- The parts of an index one after the other. -/
def layout (count : Nat) (store stream : List Byte) (offsets : List Nat) : List Byte :=
  leBytes 4 count ++ (store ++ (stream ++ (encodeColumn 4 offsets ++ footer offsets.length)))

/-- The bytes of an index. -/
def encode (keys : List Key) (addrs : List BlockAddr) : List Byte :=
  layout keys.length (BlockAddrStore.encode addrs) (encodeItems 0 [] (keyItems keys))
    (restartOffsets (keyItems keys))

section Layout

variable {count : Nat} {store stream : List Byte} {offsets : List Nat}

theorem length_layout : (layout count store stream offsets).length =
    4 + (store.length + (stream.length + (offsets.length * 4 + 6))) := by
  simp [layout, footer]

/-- Everything before the footer. -/
theorem layout_eq_footer : layout count store stream offsets =
    (leBytes 4 count ++ (store ++ (stream ++ encodeColumn 4 offsets))) ++ footer offsets.length := by
  simp only [layout, append_assoc]

theorem layout_footer : (leBytes 4 count ++ (store ++ (stream ++ encodeColumn 4 offsets))).length =
    (layout count store stream offsets).length - 6 := by
  simp only [length_layout, length_append, length_leBytes, length_encodeColumn]
  omega

theorem layout_restartCount (h : offsets.length ≤ u32Max) :
    readLe 4 (layout count store stream offsets) ((layout count store stream offsets).length - 6) =
      offsets.length := by
  rw [← layout_footer, layout_eq_footer, footer]
  exact readLe_append _ _ (h.trans_lt (by decide))

theorem layout_interval :
    readLe 2 (layout count store stream offsets) ((layout count store stream offsets).length - 6 + 4) =
      restartInterval := by
  have hat := readLe_append ((leBytes 4 count ++ (store ++ (stream ++ encodeColumn 4 offsets))) ++
    leBytes 4 offsets.length) [] (show restartInterval < 256 ^ 2 by decide)
  rw [length_append, length_leBytes, layout_footer, append_nil, append_assoc] at hat
  rw [layout_eq_footer, footer]
  rwa [layout_eq_footer, footer] at hat

theorem layout_stream :
    sliceBytes (layout count store stream offsets) (4 + store.length) stream.length = stream := by
  have hat := sliceBytes_append (leBytes 4 count ++ store) stream (encodeColumn 4 offsets ++ footer offsets.length)
  rwa [length_append, length_leBytes, append_assoc] at hat

theorem layout_offset (hfit : ∀ n ∈ offsets, n < 256 ^ 4) {r : Nat} (hr : r < offsets.length) :
    readLe 4 (layout count store stream offsets) (4 + (store.length + stream.length) + r * 4) = offsets[r] := by
  have hat := readLe_encodeColumn (leBytes 4 count ++ (store ++ stream)) (footer offsets.length) hfit hr
  rwa [length_append, length_leBytes, length_append, append_assoc, append_assoc] at hat

end Layout

theorem build_eq {entries : List (Key × BlockAddr)} (h : BlockAddrStore.Fits 0 (entries.map (·.2)))
    (hcount : entries.length ≤ u32Max) :
    build entries = .ok (encode (entries.map (·.1)) (entries.map (·.2))) := by
  rw [build]
  split
  case isTrue hnil => rw [hnil]; rfl
  case isFalse hne =>
    have hkeys := writeKeys_eq [] (entries.map (·.1))
    rw [nil_append] at hkeys
    have hcount' : (entries.map (·.2)).length ≤ u32Max := by rwa [length_map]
    rw [BlockAddrStore.build_eq h hcount', ok_bind]
    simp only [show writeKeys [] [] [] 0 (entries.map (·.1)) = _ from hkeys]
    rw [encode, layout, length_map]

include hs hlen in
/-- An index whose restarts lie in the first four GiB of its keys is accepted. -/
theorem load_encode
    (hfits : BlockAddrStore.Fits 0 addrs) (haddrs : addrs.length = keys.length) (hcount : keys.length ≤ u32Max)
    (hstarts : ∀ offset ∈ restartOffsets (keyItems keys), offset ≤ u32Max) :
    ∃ index, load (encode keys addrs) = .ok index ∧
      index.Holds keys (BlockAddrStore.ofAddrs addrs).addrs := by
  have hrc : (restartOffsets (keyItems keys)).length = Summa.restartCount keys.length := by
    rw [length_restartOffsets, length_keyItems]
  have hrcMax : (restartOffsets (keyItems keys)).length ≤ u32Max := by
    simp only [hrc, Summa.restartCount, restartInterval]
    omega
  have hstoreLen := BlockAddrStore.length_encode addrs
  rw [BlockAddrStore.ofAddrs_numBlocks, haddrs] at hstoreLen
  set data := encode keys addrs
  have hload : BlockAddrStore.load (data.drop 4) = .ok (BlockAddrStore.ofAddrs addrs) := by
    exact BlockAddrStore.load_encode hfits (haddrs ▸ hcount) _
  have hnum : readLe 4 data 0 = keys.length :=
    readLe_leBytes (hcount.trans_lt (by decide)) _
  have hfit : ∀ n ∈ restartOffsets (keyItems keys), n < 256 ^ 4 :=
    fun n hn => (hstarts n hn).trans_lt (by decide)
  have hlength : data.length = _ := length_layout
  have hcountRead : readLe 4 data (data.length - 6) = _ := layout_restartCount hrcMax
  have hinterval : readLe 2 data (data.length - 6 + 4) = _ := layout_interval
  have hkeysData : sliceBytes data _ _ = _ := layout_stream
  have hrestarts : ∀ r < Summa.restartCount keys.length, readLe 4 data
      (4 + ((BlockAddrStore.encode addrs).length + (encodeItems 0 [] (keyItems keys)).length) + r * 4) =
        Summa.restartOffset (keyItems keys) r := by
    intro r hr
    refine (layout_offset hfit (hrc.symm ▸ hr)).trans ?_
    simp only [restartOffsets, getElem_map, getElem_range]
  rw [hrc] at hlength hcountRead
  have hcheck := checkKeys_eq hs hlen hrestarts (nil_append keys).symm
  clear_value data
  generalize BlockAddrStore.encode addrs = store at *
  generalize hitems : encodeItems 0 [] (keyItems keys) = stream at *
  refine ⟨⟨data, keys.length, BlockAddrStore.ofAddrs addrs, 4 + store.length, 4 + (store.length + stream.length),
    4 + (store.length + stream.length), Summa.restartCount keys.length, restartInterval⟩, ?_, ?_⟩
  · have hkeysOffset : 4 + BlockAddrStore.headerSize + BlockAddrStore.packedLen keys.length
        (BlockAddrStore.ofAddrs addrs).offsetBits (BlockAddrStore.ofAddrs addrs).lengthBits = 4 + store.length := by
      omega
    have hoffsets : data.length - 6 - Summa.restartCount keys.length * 4 =
        4 + (store.length + stream.length) := by
      omega
    have hspan : 4 + (store.length + stream.length) - (4 + store.length) = stream.length := by omega
    have hsize : 6 ≤ store.length := by rw [hstoreLen, BlockAddrStore.headerSize]; omega
    rw [load, failIf_bind (by omega), hload, ok_bind, hnum]
    dsimp only
    rw [failIf_bind (by rw [BlockAddrStore.ofAddrs_numBlocks, haddrs]; exact fun h => h rfl), hkeysOffset,
      failIf_bind (by omega), hcountRead, hinterval, failIf_bind (by decide),
      failIf_bind (fun h => h rfl), failIf_bind (by omega), hoffsets, failIf_bind (by omega),
      hspan, hkeysData]
    have hstart : checkKeys data (4 + (store.length + stream.length)) restartInterval stream.length keys.length 0
        stream [] none = .ok () := by
      rw [← hitems] at hcheck ⊢
      exact hcheck
    rw [hstart, ok_bind]
  · refine ⟨rfl, rfl, rfl, rfl, ?_, hrestarts⟩
    rw [keysData, hitems]
    rw [Nat.add_sub_add_left, Nat.add_sub_cancel_left, hkeysData]

/-! ## Reads in range -/

section

variable {data : List Byte} {index : MmapBlockIndex}

/-- What `load` has checked. -/
theorem load_eq_ok (h : load data = .ok index) :
    index.keysOffset ≤ index.keysEnd ∧ index.keysEnd = index.restartArrayOffset ∧
      index.restartArrayOffset + index.restartCount * 4 ≤ index.data.length ∧ 0 < index.interval ∧
      index.restartCount = (index.numBlocks + (index.interval - 1)) / index.interval ∧
      checkKeys index.data index.restartArrayOffset index.interval index.keysData.length index.numBlocks 0
        index.keysData [] none = .ok () := by
  obtain ⟨_, -, h⟩ := bind_eq_ok h
  obtain ⟨_, -, h⟩ := bind_eq_ok h
  obtain ⟨_, -, h⟩ := bind_eq_ok h
  obtain ⟨_, -, h⟩ := bind_eq_ok h
  obtain ⟨_, hinterval, h⟩ := bind_eq_ok h
  obtain ⟨_, hcount, h⟩ := bind_eq_ok h
  obtain ⟨_, htable, h⟩ := bind_eq_ok h
  obtain ⟨_, hkeys, h⟩ := bind_eq_ok h
  obtain ⟨_, hcheck, h⟩ := bind_eq_ok h
  cases h
  rw [failIf_eq_ok] at hinterval hcount htable hkeys
  exact ⟨Nat.le_of_not_lt hkeys, rfl, by dsimp only; omega, Nat.pos_of_ne_zero hinterval, not_not.mp hcount,
    hcheck⟩

/-- A stream that passes the checks has a key in full at each recorded restart. -/
theorem checkKeys_restart {bytes reader : List Byte} {restartArrayOffset interval n ordinal r : Nat}
    {currentKey : Key} {previousKey : Option Key} (hinterval : 0 < interval) (hreader : reader <:+ bytes)
    (hlow : ordinal ≤ r * interval) (hhigh : r * interval < ordinal + n)
    (h : checkKeys data restartArrayOffset interval bytes.length n ordinal reader currentKey previousKey = .ok ()) :
    readLe 4 data (restartArrayOffset + r * 4) ≤ bytes.length ∧ ∃ rest suffixLen tail,
      readVintIo (bytes.drop (readLe 4 data (restartArrayOffset + r * 4))) = .ok (0, rest) ∧
        readVintIo rest = .ok (suffixLen, tail) ∧ suffixLen ≤ tail.length := by
  induction n generalizing ordinal reader currentKey previousKey with
  | zero => omega
  | succ n ih =>
    obtain ⟨_, hrecorded, h⟩ := bind_eq_ok h
    obtain ⟨⟨prefixLen, rest⟩, hprefix, h⟩ := bind_eq_ok h
    obtain ⟨⟨suffixLen, tail⟩, hsuffix, h⟩ := bind_eq_ok h
    obtain ⟨_, hzero, h⟩ := bind_eq_ok h
    obtain ⟨_, hshort, h⟩ := bind_eq_ok h
    obtain ⟨_, -, h⟩ := bind_eq_ok h
    rw [failIf_eq_ok] at hrecorded hzero hshort
    rcases hlow.eq_or_lt with rfl | hlt
    · have hmod : r * interval % interval = 0 := Nat.mul_mod_left ..
      rw [Nat.mul_div_cancel _ hinterval] at hrecorded
      obtain rfl : prefixLen = 0 := not_not.mp fun hne => hzero ⟨hmod, hne⟩
      rw [not_not.mp fun hne => hrecorded ⟨hmod, hne⟩, ← suffix_iff_eq_drop.mp hreader]
      exact ⟨Nat.sub_le .., rest, suffixLen, tail, hprefix, hsuffix, by omega⟩
    · have htail := (readVintIo_suffix hsuffix).trans ((readVintIo_suffix hprefix).trans hreader)
      exact ih ((drop_suffix ..).trans htail) hlt (by omega) h

/-- What `locate` reads at a restart lies in the bytes. -/
theorem load_restart (h : load data = .ok index) {r : Nat} (hr : r < index.restartCount) :
    index.restartOffset? r = some (index.restartOffset r) ∧
      dropBytes? index.keysData (index.restartOffset r) = some (index.keysData.drop (index.restartOffset r)) ∧
      index.decodeRestartKey? r = some (index.decodeRestartKey r) := by
  obtain ⟨-, -, htable, hinterval, hcount, hcheck⟩ := load_eq_ok h
  have hlt : r * index.interval < index.numBlocks := by
    rw [hcount, Nat.lt_iff_add_one_le, Nat.le_div_iff_mul_le hinterval, Nat.succ_mul] at hr
    omega
  obtain ⟨hle, rest, suffixLen, tail, hprefix, hsuffix, hlen⟩ :=
    checkKeys_restart hinterval suffix_rfl (Nat.zero_le _) (show r * _ < 0 + _ by omega) hcheck
  have hoffset : index.restartOffset? r = some (index.restartOffset r) :=
    readLe?_eq_some_iff.mpr ⟨by omega, rfl⟩
  have hdrop : dropBytes? index.keysData (index.restartOffset r) = some _ := if_pos hle
  refine ⟨hoffset, hdrop, ?_⟩
  rw [← restartOffset] at hprefix
  simp [decodeRestartKey?, decodeRestartKey, hoffset, hdrop, hprefix, hsuffix, Except.toOption, sliceBytes?,
    sliceBytes, hlen]

theorem searchRestarts?_eq {restartKey? : Nat → Option Key} {restartKey : Nat → Key} {lo hi bound : Nat}
    (h : ∀ r < bound, restartKey? r = some (restartKey r)) (hlo : lo ≤ bound) (hhi : hi ≤ bound) :
    searchRestarts? restartKey? target lo hi = some (searchRestarts restartKey target lo hi) ∧
      ∀ at_, searchRestarts restartKey target lo hi = .inr at_ → at_ ≤ bound := by
  fun_induction searchRestarts restartKey target lo hi with
  | case1 lo hi hlt mid key hkey =>
    rw [searchRestarts?, if_pos hlt]
    dsimp only
    rw [show restartKey? _ = some key from h mid (by omega)]
    exact ⟨if_pos hkey, nofun⟩
  | case2 lo hi hlt mid key hne hkey ih =>
    rw [searchRestarts?, if_pos hlt]
    dsimp only
    rw [show restartKey? _ = some key from h mid (by omega)]
    exact ⟨((if_neg hne).trans (if_pos hkey)).trans (ih (by omega) hhi).1, (ih (by omega) hhi).2⟩
  | case3 lo hi hlt mid key hne hkey ih =>
    rw [searchRestarts?, if_pos hlt]
    dsimp only
    rw [show restartKey? _ = some key from h mid (by omega)]
    exact ⟨((if_neg hne).trans (if_neg hkey)).trans (ih hlo (by omega)).1, (ih hlo (by omega)).2⟩
  | case4 lo hi hge =>
    rw [searchRestarts?, if_neg hge]
    exact ⟨rfl, fun at_ hat => Sum.inr.inj hat ▸ hlo⟩

/-- `locate` reads nothing outside the bytes of an index that was accepted. -/
theorem locate?_eq (h : load data = .ok index) (target : Key) :
    index.locate? target = some (index.locate target) := by
  obtain ⟨hkeys, hend, htable, hinterval, hcount, -⟩ := load_eq_ok h
  rw [locate?, locate]
  split
  case isTrue => rfl
  case isFalse h0 =>
    have hpos : 0 < index.restartCount := by
      rw [hcount]
      exact Nat.div_pos (by omega) hinterval
    obtain ⟨hsearch, hle⟩ : searchRestarts? _ target .. = _ ∧ _ :=
      searchRestarts?_eq (fun r hr => (load_restart h hr).2.2) (Nat.zero_le _) le_rfl
    rw [if_neg (by omega), hsearch]
    cases heq : searchRestarts index.decodeRestartKey target 0 index.restartCount with
    | inl mid => rfl
    | inr lo =>
      have hlo := hle lo heq
      have hidx : (if 0 < lo then lo - 1 else 0) < index.restartCount := by split <;> omega
      obtain ⟨hoffset, hdrop, -⟩ := load_restart h hidx
      simp [hoffset, hdrop]

end

end MmapBlockIndex

/-- What the sizes of an index have to be for its length fields. -/
structure BlockIndex.Fits (entries : List (Key × BlockAddr)) : Prop where
  sorted : (entries.map (·.1)).Pairwise (· < ·)
  keyLength : ∀ key ∈ entries.map (·.1), key.length < 2 ^ 64
  addrs : BlockAddrStore.Fits 0 (entries.map (·.2))
  count : entries.length ≤ u32Max

namespace MmapBlockIndex

/-- The index of blocks that fit is accepted and finds them; it has their addresses exactly when no gap is too
wide for the bit writer. `locate` stays in the bytes of any index that is accepted. -/
theorem load_build_locate (entries : List (Key × BlockAddr)) :
    (BlockIndex.Fits entries →
      (∀ offset ∈ restartOffsets (keyItems (entries.map (·.1))), offset ≤ u32Max) →
      ∃ index, build entries >>= load = .ok index ∧
        ((∀ i, index.getAddr i = (entries.map (·.2))[i]?) ↔ BlockAddrStore.GapsFit (entries.map (·.2))) ∧
        ∀ target, index.locate target = lastAtMost (entries.map (·.1)) target) ∧
      ∀ data index, load data = .ok index → ∀ target, index.locate? target = some (index.locate target) := by
  refine ⟨fun hfits hstarts => ?_, fun _ _ => locate?_eq⟩
  obtain ⟨hs, hlen, haddrs, hcount⟩ := hfits
  obtain ⟨index, hload, hholds⟩ := load_encode hs hlen haddrs (by rw [length_map, length_map])
    (by rwa [length_map]) hstarts
  refine ⟨index, ?_, ?_, fun target => hholds.locate hs hlen⟩
  · rw [build_eq haddrs hcount, ok_bind, hload]
  · simp only [getAddr, hholds.addrs]
    rw [← List.ext_getElem?_iff, BlockAddrStore.ofAddrs_addrs_eq_iff haddrs]

/-- A gap of 58 bits that is written behind three bits of a byte. -/
theorem load_build_locate_sample : ∃ index,
    build [([0], ⟨0, 1⟩), ([1], ⟨2 ^ 57 + 1, 1⟩)] >>= load = .ok index ∧
      index.getAddr 1 = some ⟨2 ^ 57 + 1, 1⟩ ∧ index.locate? [7] = some (some 1) := by
  have hfits : BlockIndex.Fits [([0], ⟨0, 1⟩), ([1], ⟨2 ^ 57 + 1, 1⟩)] :=
    ⟨by decide, by decide, by simp [BlockAddrStore.Fits, u64Max, u32Max], by decide⟩
  have hgaps : BlockAddrStore.GapsFit [⟨0, 1⟩, ⟨2 ^ 57 + 1, 1⟩] := by
    intro i gap hgap
    rcases i with _ | _ | i <;> cases hgap <;> decide
  obtain ⟨index, hfound, haddr, hlocate⟩ := (load_build_locate _).1 hfits (by decide)
  obtain ⟨bytes, -, hload⟩ := bind_eq_ok hfound
  refine ⟨index, hfound, haddr.mpr hgaps 1, ?_⟩
  rw [(load_build_locate []).2 bytes index hload, hlocate]
  decide

/-- The gap before the second block has 64 bits and starts at bit 65, where the buffer of the bit writer has room
for 63: the block is found at another place. -/
theorem getAddr_wide_gap :
    let entries : List (Key × BlockAddr) := [([0], ⟨0, 1⟩), ([1], ⟨2 ^ 63 + 1, 1⟩)]
    (entries.map (·.1)).Pairwise (· < ·) ∧
      (entries.map (·.2)).Pairwise (fun a b => a.offset + a.length ≤ b.offset) ∧
      (∀ addr ∈ entries.map (·.2), addr.offset ≤ u64Max ∧ addr.length ≤ u32Max) ∧
      (build entries >>= load).toOption.map (·.getAddr 1) = some (some ⟨1, 1⟩) := by
  decide +kernel

end MmapBlockIndex

end Summa
