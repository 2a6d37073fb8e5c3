import Summa.Directories.Directory
import Summa.Structures.Vint

/-!
# The readers of a variable-length integer (`structures/vint.rs`)

`read_vint` takes one byte after the other, `read_vint_slice` has a path for one byte, and `skip_vint`
looks at most at ten bytes without decoding them. Here each of them also says where it leaves the slice,
after an error as well.

* `vintReaders_agree`: they accept the same bytes, fail with the same kind of error and stop at the same
  place; what `write_vint` wrote is read back in front of anything.
-/

namespace Summa

/-- The loop of `read_vint` over a slice, with its error and what it leaves of the slice. -/
def readVintLoop (result shift : Nat) : List Byte → IoResult Nat × List Byte
  | [] => (.error (.unexpectedEof "failed to fill whole buffer"), [])
  | byte :: rest =>
    if shift = 63 ∧ 1 < byte.toNat then (.error (.invalidData "varint exceeds u64"), rest)
    else if byte.toNat < 128 then (.ok (result + byte.toNat % 128 * 2 ^ shift), rest)
    else if 64 ≤ shift + 7 then (.error (.invalidData "varint too long"), rest)
    else readVintLoop (result + byte.toNat % 128 * 2 ^ shift) (shift + 7) rest

def readVintReader (reader : List Byte) : IoResult Nat × List Byte := readVintLoop 0 0 reader

def readVintSlice : List Byte → IoResult Nat × List Byte
  | byte :: rest => if byte.toNat < 128 then (.ok byte.toNat, rest) else readVintReader (byte :: rest)
  | [] => readVintReader []

/-- The loop of `skip_vint` at `index`, over what is left of `reader[..limit]`. -/
def skipVintLoop (reader : List Byte) (index : Nat) : List Byte → IoResult Unit × List Byte
  | [] => (.error (.unexpectedEof "varint truncated"), reader.drop index)
  | byte :: rest =>
    if index = 9 ∧ 1 < byte.toNat then (.error (.invalidData "varint exceeds u64"), reader.drop 10)
    else if byte.toNat < 128 then (.ok (), reader.drop (index + 1))
    else skipVintLoop reader (index + 1) rest

def skipVint (reader : List Byte) : IoResult Unit × List Byte := skipVintLoop reader 0 (reader.take 10)

/-- What a reader shows to its caller apart from the value: whether it failed, with which kind of error,
and where it stopped. -/
def outcome {α : Type} (r : IoResult α × List Byte) : Option IoErrorKind × List Byte :=
  (match r.1 with
    | .ok _ => none
    | .error e => some e.kind, r.2)

/-- Both loops after the bytes `pre`, all of them with their high bit set. -/
theorem outcome_skipVintLoop (bytes : List Byte) : ∀ (pre : List Byte) (result : Nat), pre.length ≤ 9 →
    outcome (skipVintLoop (pre ++ bytes) pre.length (bytes.take (10 - pre.length))) =
      outcome (readVintLoop result (7 * pre.length) bytes) := by
  induction bytes with
  | nil =>
    intro pre result _
    simp [skipVintLoop, readVintLoop, outcome, IoError.unexpectedEof]
  | cons byte rest ih =>
    intro pre result hpre
    rw [show 10 - pre.length = (9 - pre.length) + 1 by omega, List.take_succ_cons, skipVintLoop, readVintLoop]
    have hnext : (pre ++ byte :: rest).drop (pre.length + 1) = rest := by simp [List.drop_append]
    -- the tenth byte is the one at shift 63
    by_cases hover : pre.length = 9 ∧ 1 < byte.toNat
    · have hten : 10 = pre.length + 1 := by omega
      rw [if_pos hover, if_pos ⟨by omega, hover.2⟩, hten, hnext]
      rfl
    · have hfits : ¬(7 * pre.length = 63 ∧ 1 < byte.toNat) := by omega
      rw [if_neg hover, if_neg hfits, hnext]
      split
      case isTrue => rfl
      case isFalse hmore =>
        have hstep := ih (pre ++ [byte]) (result + byte.toNat % 128 * 2 ^ (7 * pre.length)) (by simp; omega)
        rw [List.append_assoc, List.singleton_append, List.length_append, List.length_singleton] at hstep
        rw [if_neg (by omega), show 7 * pre.length + 7 = 7 * (pre.length + 1) by omega, ← hstep,
          show 10 - (pre.length + 1) = 9 - pre.length by omega]

theorem outcome_skipVint (reader : List Byte) : outcome (skipVint reader) = outcome (readVintReader reader) :=
  outcome_skipVintLoop reader [] 0 (by simp)

theorem readVintSlice_eq (reader : List Byte) : readVintSlice reader = readVintReader reader := by
  cases reader with
  | nil => rfl
  | cons byte rest =>
    rw [readVintSlice]
    split
    case isTrue hshort => simp [readVintReader, readVintLoop, hshort, Nat.mod_eq_of_lt]
    case isFalse => rfl

/-- The loop with its errors reads what the loop of `readVint` reads. -/
theorem readVintLoop_of_readGroups (bytes : List Byte) : ∀ {result shift value : Nat} {rest : List Byte},
    readGroups result shift bytes = some (value, rest) → readVintLoop result shift bytes = (.ok value, rest) := by
  induction bytes with
  | nil =>
    intro _ _ _ _ h
    simp [readGroups] at h
  | cons byte bytes ih =>
    intro result shift value rest h
    rw [readGroups] at h
    rw [readVintLoop]
    split at h
    case isTrue => simp at h
    case isFalse hfits =>
      rw [if_neg hfits]
      split at h
      case isTrue hlast =>
        simp only [Option.some.injEq, Prod.mk.injEq] at h
        rw [if_pos hlast, h.1, h.2]
      case isFalse hmore =>
        rw [if_neg hmore]
        split at h
        case isTrue => simp at h
        case isFalse hshort => rw [if_neg hshort, ih h]

/-- The three readers agree on every input, and a written value is read back. -/
theorem vintReaders_agree (reader suffix : List Byte) (value : BitVec 64) :
    readVintSlice reader = readVintReader reader ∧
      outcome (skipVint reader) = outcome (readVintReader reader) ∧
      readVintReader (writeVint value.toNat ++ suffix) = (.ok value.toNat, suffix) :=
  ⟨readVintSlice_eq reader, outcome_skipVint reader,
    readVintLoop_of_readGroups _ (readVint_writeVint value.isLt suffix)⟩

end Summa
