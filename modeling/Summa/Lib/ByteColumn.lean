import Summa.Lib.LittleEndian

/-!
# Columns of fixed-width numbers

`encodeColumn w` writes numbers one after the other, `w` bytes each; `columnAt w` reads the number at an
index and `decodeColumn w` all of them. A column of numbers that fit is read back exactly
(`columnAt_encodeColumn`, `decodeColumn_encodeColumn`).
-/

namespace Summa

open List

/-- The bytes `start..start + len`. -/
def sliceBytes (bytes : List Byte) (start len : Nat) : List Byte := (bytes.drop start).take len

variable (w : Nat)

/-- The `w`-byte number at byte `start`. -/
def readLe (bytes : List Byte) (start : Nat) : Nat := leNat (sliceBytes bytes start w)

/-- The bytes from `start` on; none where the slice would be out of range. -/
def dropBytes? (bytes : List Byte) (start : Nat) : Option (List Byte) :=
  if start ≤ bytes.length then some (bytes.drop start) else none

/-- The bytes `start..start + len`; none where the slice would be out of range. -/
def sliceBytes? (bytes : List Byte) (start len : Nat) : Option (List Byte) :=
  if start + len ≤ bytes.length then some (sliceBytes bytes start len) else none

/-- The `w`-byte number at byte `start`; none where the slice would be out of range. -/
def readLe? (bytes : List Byte) (start : Nat) : Option Nat :=
  (sliceBytes? bytes start w).map leNat

/-- The numbers as `w` bytes each. -/
def encodeColumn (values : List Nat) : List Byte := values.flatMap (leBytes w)

/-- The number at index `i` of a column. -/
def columnAt (bytes : List Byte) (i : Nat) : Nat := readLe w bytes (i * w)

/-- All numbers of a column. -/
def decodeColumn (bytes : List Byte) : List Nat :=
  (range (bytes.length / w)).map (columnAt w bytes)

variable {w : Nat} {values : List Nat}

theorem sliceBytes_append (pre mid post : List Byte) :
    sliceBytes (pre ++ (mid ++ post)) pre.length mid.length = mid := by
  rw [sliceBytes, drop_left, take_left]

theorem sliceBytes_at (pre : List Byte) {mid post : List Byte} {start len : Nat} (hstart : pre.length = start)
    (hlen : mid.length = len) : sliceBytes (pre ++ (mid ++ post)) start len = mid := by
  rw [← hstart, ← hlen, sliceBytes_append]

theorem readLe_append (pre post : List Byte) {n : Nat} (h : n < 256 ^ w) :
    readLe w (pre ++ (leBytes w n ++ post)) pre.length = n := by
  have := sliceBytes_append pre (leBytes w n) post
  rw [length_leBytes] at this
  rw [readLe, this, leNat_leBytes_of_lt h]

/-- A field of a record is read. -/
theorem readLe_leBytes {n : Nat} (h : n < 256 ^ w) (post : List Byte) : readLe w (leBytes w n ++ post) 0 = n :=
  readLe_append [] post h

/-- A read behind a field of a record. -/
theorem readLe_skip (j m k : Nat) (post : List Byte) : readLe w (leBytes j m ++ post) (j + k) = readLe w post k := by
  rw [readLe, readLe, sliceBytes, sliceBytes, ← drop_drop, drop_left' (length_leBytes j m)]

theorem drop_length_add (pre post : List Byte) (k : Nat) : (pre ++ post).drop (pre.length + k) = post.drop k := by
  rw [← drop_drop, drop_left]

theorem sliceBytes?_append (pre post : List Byte) (k len : Nat) :
    sliceBytes? (pre ++ post) (pre.length + k) len = sliceBytes? post k len := by
  have hiff : pre.length + k + len ≤ (pre ++ post).length ↔ k + len ≤ post.length := by
    rw [length_append]
    omega
  rw [sliceBytes?, sliceBytes?, sliceBytes, sliceBytes, drop_length_add]
  exact if_congr hiff rfl rfl

theorem dropBytes?_append (pre post : List Byte) (k : Nat) :
    dropBytes? (pre ++ post) (pre.length + k) = dropBytes? post k := by
  have hiff : pre.length + k ≤ (pre ++ post).length ↔ k ≤ post.length := by
    rw [length_append]
    omega
  rw [dropBytes?, dropBytes?, drop_length_add]
  exact if_congr hiff rfl rfl

@[simp] theorem dropBytes?_zero (bytes : List Byte) : dropBytes? bytes 0 = some bytes := rfl

theorem readLe?_append (pre post : List Byte) (k : Nat) :
    readLe? w (pre ++ post) (pre.length + k) = readLe? w post k := by
  rw [readLe?, sliceBytes?_append, readLe?]

theorem sliceBytes?_of_dropBytes? {bytes mid post : List Byte} {start : Nat}
    (h : dropBytes? bytes start = some (mid ++ post)) : sliceBytes? bytes start mid.length = some mid := by
  obtain ⟨hle, h⟩ := Option.ite_none_right_eq_some.mp h
  have h := Option.some.inj h
  have hlen := congrArg length h
  rw [length_drop, length_append] at hlen
  rw [sliceBytes?, if_pos (by omega), sliceBytes, h, take_left]

/-- A field of a record is read, and a read behind it does not see it. -/
theorem readLe?_leBytes {n : Nat} (h : n < 256 ^ w) (post : List Byte) :
    readLe? w (leBytes w n ++ post) 0 = some n := by
  have := sliceBytes?_of_dropBytes? (dropBytes?_zero (leBytes w n ++ post))
  rw [length_leBytes] at this
  rw [readLe?, this, Option.map_some, leNat_leBytes_of_lt h]

theorem readLe?_skip {j k : Nat} (h : j ≤ k) (m : Nat) (post : List Byte) :
    readLe? w (leBytes j m ++ post) k = readLe? w post (k - j) := by
  have := readLe?_append (leBytes j m) post (k - j) (w := w)
  rwa [length_leBytes, Nat.add_sub_cancel' h] at this

theorem dropBytes?_skip {j k : Nat} (h : j ≤ k) (m : Nat) (post : List Byte) :
    dropBytes? (leBytes j m ++ post) k = dropBytes? post (k - j) := by
  have := dropBytes?_append (leBytes j m) post (k - j)
  rwa [length_leBytes, Nat.add_sub_cancel' h] at this

theorem readLe?_eq_some_iff {bytes : List Byte} {start v : Nat} :
    readLe? w bytes start = some v ↔ start + w ≤ bytes.length ∧ readLe w bytes start = v := by
  rw [readLe?, sliceBytes?, readLe]
  split
  case isTrue h => simp [h]
  case isFalse h => simp [h]

theorem readLe_lt (bytes : List Byte) (start : Nat) : readLe w bytes start < 256 ^ w := by
  have hlen : (sliceBytes bytes start w).length ≤ w := length_take_le ..
  calc readLe w bytes start < 2 ^ (8 * (sliceBytes bytes start w).length) := leNat_lt _
    _ ≤ 2 ^ (8 * w) := Nat.pow_le_pow_right (by decide) (by omega)
    _ = 256 ^ w := by rw [Nat.pow_mul]

theorem leBytes_leNat (bs : List Byte) : leBytes bs.length (leNat bs) = bs := by
  induction bs with
  | nil => rfl
  | cons b bs ih =>
    have hdiv : (b.toNat + 256 * leNat bs) / 256 = leNat bs := by omega
    have hbyte : BitVec.ofNat 8 (b.toNat + 256 * leNat bs) = b := by
      apply BitVec.eq_of_toNat_eq
      rw [BitVec.toNat_ofNat]
      omega
    rw [length_cons, leNat, leBytes, hdiv, ih, hbyte]

/-- Bytes that are there are the field that is read from them. -/
theorem leBytes_readLe_append {bytes : List Byte} {start : Nat} (h : start + w ≤ bytes.length) :
    leBytes w (readLe w bytes start) ++ bytes.drop (start + w) = bytes.drop start := by
  have hlen : (sliceBytes bytes start w).length = w := by
    rw [sliceBytes, length_take, length_drop]
    omega
  have hbytes : leBytes w (readLe w bytes start) = sliceBytes bytes start w := by
    have := leBytes_leNat (sliceBytes bytes start w)
    rwa [hlen] at this
  rw [hbytes, sliceBytes, ← drop_drop, take_append_drop]

@[simp] theorem encodeColumn_nil : encodeColumn w [] = [] := rfl

@[simp] theorem encodeColumn_cons (n : Nat) (values : List Nat) :
    encodeColumn w (n :: values) = leBytes w n ++ encodeColumn w values := rfl

theorem encodeColumn_append (as bs : List Nat) :
    encodeColumn w (as ++ bs) = encodeColumn w as ++ encodeColumn w bs := flatMap_append

theorem encodeColumn_flatten (columns : List (List Nat)) :
    encodeColumn w columns.flatten = (columns.map (encodeColumn w)).flatten := by
  induction columns with
  | nil => rfl
  | cons c columns ih => rw [flatten_cons, encodeColumn_append, ih, map_cons, flatten_cons]

@[simp] theorem length_encodeColumn (values : List Nat) :
    (encodeColumn w values).length = values.length * w := by
  induction values with
  | nil => simp
  | cons n values ih => simp [ih, Nat.succ_mul, Nat.add_comm]

theorem encodeColumn_replicate_zero (n : Nat) :
    encodeColumn w (replicate n 0) = replicate (n * w) 0 := by
  induction n with
  | zero => simp
  | succ n ih =>
    rw [replicate_succ, encodeColumn_cons, ih, leBytes_zero, replicate_append_replicate,
      Nat.succ_mul, Nat.add_comm]

/-- A number of a column that stands inside other bytes. -/
theorem readLe_encodeColumn (pre post : List Byte) (hfit : ∀ n ∈ values, n < 256 ^ w) {i : Nat}
    (hi : i < values.length) :
    readLe w (pre ++ (encodeColumn w values ++ post)) (pre.length + i * w) = values[i] := by
  have hsplit : values = values.take i ++ values[i] :: values.drop (i + 1) := by
    rw [← drop_eq_getElem_cons hi, take_append_drop]
  have hlen : (pre ++ encodeColumn w (values.take i)).length = pre.length + i * w := by
    rw [length_append, length_encodeColumn, length_take_of_le hi.le]
  have hbytes : pre ++ (encodeColumn w values ++ post) =
      (pre ++ encodeColumn w (values.take i)) ++
        (leBytes w values[i] ++ (encodeColumn w (values.drop (i + 1)) ++ post)) := by
    conv_lhs => rw [hsplit, encodeColumn_append, encodeColumn_cons]
    simp only [append_assoc]
  rw [hbytes, ← hlen]
  exact readLe_append _ _ (hfit _ (getElem_mem hi))

theorem columnAt_encodeColumn (hfit : ∀ n ∈ values, n < 256 ^ w) {i : Nat} (hi : i < values.length) :
    columnAt w (encodeColumn w values) i = values[i] := by
  have := readLe_encodeColumn [] [] hfit hi
  rwa [nil_append, append_nil, length_nil, Nat.zero_add] at this

/-- A list is read back item by item. -/
theorem map_range_eq {α : Type} {f : Nat → α} {l : List α} (h : ∀ i (hi : i < l.length), f i = l[i]) :
    (range l.length).map f = l := by
  apply ext_getElem
  · simp
  · intro i h₁ h₂
    rw [getElem_map, getElem_range]
    exact h i h₂

theorem decodeColumn_encodeColumn (hw : 0 < w) (hfit : ∀ n ∈ values, n < 256 ^ w) :
    decodeColumn w (encodeColumn w values) = values := by
  rw [decodeColumn, length_encodeColumn, Nat.mul_div_cancel _ hw]
  exact map_range_eq fun i hi => columnAt_encodeColumn hfit hi

end Summa
