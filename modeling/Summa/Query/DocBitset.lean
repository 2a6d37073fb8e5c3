import Mathlib.Tactic.Linarith

/-!
# Document bitsets (`query/traits.rs`)

`DocBitset` is the `Vec<u64>` of the source: document `d` is bit `d % 64` of word `d / 64`. The
operations are the source's word operations; each has one lemma in terms of `contains`, and later
proofs use only those:

* `contains_all`, `contains_clear`, `contains_set`: what the constructors and the updates do to
  membership;
* `nextSetBit_eq_none`, `nextSetBit_eq_some`: the scan finds the first document at or after `from`;
* `count_eq_countP`: the population count is the number of documents in the set;
* `insertMatchingValues_eq`: a batch of values adds the documents whose values match.
-/

namespace Summa

open List Nat

/-- `usize::div_ceil` by the word size. -/
def divCeil64 (n : Nat) : Nat := (n + 63) / 64

theorem lt_divCeil64 {d n : Nat} (h : d < n) : d / 64 < divCeil64 n := by
  unfold divCeil64; omega

/-- A compact bitset indexed by document id. -/
structure DocBitset where
  bits : List (BitVec 64)
  deriving DecidableEq, Repr

namespace DocBitset

/-- The word with only bit `i` set: `1u64 << i`. -/
def bit (i : Nat) : BitVec 64 := 1#64 <<< i

/-- An empty bitset for `numDocs` documents. -/
def new (numDocs : Nat) : DocBitset := ⟨replicate (divCeil64 numDocs) 0#64⟩

/-- The segment's document universe, with padding bits left clear. -/
def all (numDocs : Nat) : DocBitset :=
  let filled := replicate (divCeil64 numDocs) (BitVec.allOnes 64)
  if numDocs % 64 = 0 then ⟨filled⟩
  else ⟨filled.set (filled.length - 1) (bit (numDocs % 64) - 1#64)⟩

variable (b : DocBitset)

def clear (docId : Nat) : DocBitset :=
  ⟨b.bits.modify (docId / 64) (· &&& ~~~ bit (docId % 64))⟩

def set (docId : Nat) : DocBitset :=
  ⟨b.bits.modify (docId / 64) (· ||| bit (docId % 64))⟩

def contains (docId : Nat) : Bool :=
  match b.bits[docId / 64]? with
  | some word => word &&& bit (docId % 64) != 0#64
  | none => false

/-- Number of set bits. -/
def count : Nat := (b.bits.map fun w => w.cpop.toNat).sum

/-- The scan of `next_set_bit`: `bits` is what is left of word number `word`. -/
def nextSetBitLoop (word : Nat) (bits : BitVec 64) : List (BitVec 64) → Option Nat
  | [] => if bits != 0#64 then some (word * 64 + bits.ctz.toNat) else none
  | next :: rest =>
    if bits != 0#64 then some (word * 64 + bits.ctz.toNat)
    else nextSetBitLoop (word + 1) next rest

/-- First set bit at or after `docId`, if any. -/
def nextSetBit (docId : Nat) : Option Nat :=
  match b.bits.drop (docId / 64) with
  | [] => none
  | word :: rest =>
    nextSetBitLoop (docId / 64) (word &&& (BitVec.allOnes 64 <<< (docId % 64))) rest

/-! ## Batches of values -/

/-- The word of up to 64 results. -/
def maskOf (found : List Bool) : BitVec 64 :=
  found.zipIdx.foldl (fun mask (matched, i) => mask ||| (if matched then 1#64 else 0#64) <<< i) 0#64

/-- `self.bits[word] |= mask`. -/
def orWord (word : Nat) (mask : BitVec 64) : Option DocBitset :=
  if word < b.bits.length then some ⟨b.bits.modify word (· ||| mask)⟩ else none

/-- One chunk of up to 64 values; they may lie in two words. -/
def insertChunk (predicate : Nat → Bool) (doc : Nat) (chunk : List Nat) : Option DocBitset := do
  let mask := maskOf ((range 64).map fun i => chunk[i]?.any predicate)
  let b ← b.orWord (doc / 64) (mask <<< (doc % 64))
  if 64 < doc % 64 + chunk.length then b.orWord (doc / 64 + 1) (mask >>> (64 - doc % 64)) else some b

/-- Insert the documents from `start` on whose values satisfy the predicate. -/
def insertMatchingValues (start : Nat) (values : List Nat) (predicate : Nat → Bool) : Option DocBitset :=
  (range (divCeil64 values.length)).foldlM
    (fun b k => b.insertChunk predicate (start + k * 64) ((values.drop (k * 64)).take 64)) b

/-- `from_predicate`. -/
def fromPredicate (numDocs : Nat) (pred : Nat → Option Bool) : Option DocBitset :=
  (range numDocs).foldlM (fun b docId => (pred docId).map fun found => if found then b.set docId else b) (new numDocs)

/-! ## Membership -/

@[simp] theorem getLsbD_bit (i j : Nat) (hi : i < 64) : (bit i).getLsbD j = decide (j = i) := by
  simp only [bit, BitVec.getLsbD_shiftLeft, BitVec.getLsbD_one]
  by_cases h : j = i
  · subst h; simp [hi]
  · simp [h]; omega

theorem and_bit_ne_zero (w : BitVec 64) (i : Nat) (hi : i < 64) : (w &&& bit i != 0#64) = w.getLsbD i := by
  cases hw : w.getLsbD i with
  | true =>
    have : w &&& bit i ≠ 0#64 := fun h => by
      have := congrArg (·.getLsbD i) h
      simp only [BitVec.getLsbD_and, hw, getLsbD_bit i i hi, decide_true, Bool.and_true,
        BitVec.getLsbD_zero] at this
      cases this
    simpa using this
  | false =>
    have : w &&& bit i = 0#64 := by
      apply BitVec.eq_of_getLsbD_eq
      intro j _
      simp only [BitVec.getLsbD_and, getLsbD_bit i j hi, BitVec.getLsbD_zero]
      by_cases h : j = i
      · subst h; simp only [hw, Bool.false_and]
      · simp only [h, decide_false, Bool.and_false]
    simp [this]

/-- Membership as a bit of a word. -/
theorem contains_eq (b : DocBitset) (d : Nat) :
    b.contains d = ((b.bits[d / 64]?).map (·.getLsbD (d % 64))).getD false := by
  unfold contains
  cases b.bits[d / 64]? with
  | none => rfl
  | some w => simpa using and_bit_ne_zero w _ (mod_lt d (by omega))

variable {b : DocBitset} {d : Nat} {w : BitVec 64}

theorem contains_of_length_le (h : 64 * b.bits.length ≤ d) : b.contains d = false := by
  rw [contains_eq, getElem?_eq_none (by omega)]
  rfl

@[simp] theorem contains_new (n d : Nat) : (new n).contains d = false := by
  rw [contains_eq, new]
  simp only [getElem?_replicate]
  split <;> simp

theorem getLsbD_bit_sub_one (k j : Nat) (hk : k < 64) : (bit k - 1#64).getLsbD j = decide (j < k) := by
  have h2 : 2 ^ k < 2 ^ 64 := Nat.pow_lt_pow_right (by decide) hk
  have hpos : 0 < 2 ^ k := Nat.two_pow_pos k
  have hn : (bit k - 1#64).toNat = 2 ^ k - 1 := by
    have h1 : (bit k).toNat = 2 ^ k := by
      simp only [bit, BitVec.toNat_shiftLeft, BitVec.toNat_ofNat, shiftLeft_eq]
      norm_num
      exact h2
    rw [BitVec.toNat_sub_of_le (by rw [BitVec.le_def, h1]; exact hpos), h1]
    rfl
  rw [BitVec.getLsbD, hn, testBit_two_pow_sub_one]

theorem length_all (n : Nat) : (all n).bits.length = divCeil64 n := by
  unfold all; split <;> simp

theorem length_clear (b : DocBitset) (d : Nat) : (b.clear d).bits.length = b.bits.length := by
  simp [clear]

@[simp] theorem contains_all (n d : Nat) : (all n).contains d = decide (d < n) := by
  rw [contains_eq]
  by_cases hlt : d / 64 < divCeil64 n
  · have hl : d / 64 < (all n).bits.length := by rw [length_all]; exact hlt
    rw [getElem?_eq_getElem hl]
    simp only [Option.map_some, Option.getD_some]
    have hmod := mod_lt d (show 64 > 0 by omega)
    unfold divCeil64 at hlt
    by_cases h0 : n % 64 = 0
    · simp only [all, h0, ↓reduceIte, getElem_replicate, BitVec.getLsbD_allOnes, hmod,
        decide_true]
      simp only [true_eq_decide_iff]; omega
    · simp only [all, h0, ↓reduceIte, length_replicate]
      rw [getElem_set]
      unfold divCeil64
      split
      · rw [getLsbD_bit_sub_one _ _ (mod_lt n (by omega))]
        rw [decide_eq_decide]; omega
      · simp only [getElem_replicate, BitVec.getLsbD_allOnes, hmod, decide_true]
        simp only [true_eq_decide_iff]; omega
  · rw [getElem?_eq_none (by rw [length_all]; omega)]
    unfold divCeil64 at hlt
    simp only [Option.map_none, Option.getD_none, false_eq_decide_iff]; omega

/-- Clearing the bits `m` of word `q`. -/
theorem contains_modify_and_not (bits : List (BitVec 64)) (q : Nat) (m : BitVec 64) (d : Nat) :
    contains ⟨bits.modify q (· &&& ~~~m)⟩ d =
      (contains ⟨bits⟩ d && !(decide (d / 64 = q) && m.getLsbD (d % 64))) := by
  have hr := mod_lt d (show 64 > 0 by omega)
  rw [contains_eq, contains_eq]
  simp only [getElem?_modify]
  cases bits[d / 64]? with
  | none => rfl
  | some word =>
    by_cases h : d / 64 = q
    · simp [h, hr]
    · simp [h, Ne.symm h]

@[simp] theorem contains_clear (b : DocBitset) (d e : Nat) :
    (b.clear d).contains e = (b.contains e && decide (e ≠ d)) := by
  have hiff : e / 64 = d / 64 ∧ e % 64 = d % 64 ↔ e = d := by omega
  rw [clear, contains_modify_and_not, getLsbD_bit _ _ (mod_lt d (by omega)), ← Bool.decide_and,
    decide_eq_decide.mpr hiff, decide_not]

@[simp] theorem contains_set (b : DocBitset) (d e : Nat) (hd : d / 64 < b.bits.length) :
    (b.set d).contains e = (b.contains e || decide (e = d)) := by
  rw [contains_eq, contains_eq, set]
  simp only [getElem?_modify]
  have hd' := mod_lt d (show 64 > 0 by omega)
  cases hb : b.bits[e / 64]? with
  | none =>
    have : e ≠ d := fun h => by
      rw [h, getElem?_eq_getElem hd] at hb; cases hb
    simp [this]
  | some w =>
    by_cases hw : d / 64 = e / 64
    · have hiff : e % 64 = d % 64 ↔ e = d := by omega
      simp [hw, hd', hiff]
    · have hne : e ≠ d := fun h => hw (by rw [h])
      simp [hw, hne]

/-! ## The lowest set bit -/

theorem toNat_ctz_lt (h : w ≠ 0#64) : w.ctz.toNat < 64 :=
  BitVec.lt_def.mp (BitVec.ctz_lt_iff_ne_zero.mpr h)

/-- A number whose lowest set bit is `c` has that bit and zeros below it. -/
theorem mod_two_pow_of_lowest {n c : Nat} (hc : n.testBit c = true) (hlow : ∀ i < c, n.testBit i = false) :
    n % 2 ^ (c + 1) = 2 ^ c := by
  apply eq_of_testBit_eq
  intro i
  rw [testBit_mod_two_pow, testBit_two_pow]
  rcases lt_trichotomy i c with hlt | rfl | hgt
  · rw [hlow i hlt, Bool.and_false, decide_eq_false (by omega)]
  · rw [hc, decide_eq_true (by omega), decide_eq_true rfl, Bool.and_true]
  · rw [decide_eq_false (by omega), decide_eq_false (by omega), Bool.false_and]

/-- `remaining &= remaining - 1` clears the lowest set bit. -/
theorem getLsbD_and_sub_one (h : w ≠ 0#64) (i : Nat) :
    (w &&& (w - 1#64)).getLsbD i = (w.getLsbD i && decide (w.ctz.toNat < i)) := by
  generalize hc : w.ctz.toNat = c
  have hset : w.toNat.testBit c = true := hc ▸ BitVec.getLsbD_true_ctz_of_ne_zero h
  have hlow : ∀ i < c, w.toNat.testBit i = false := fun i hi =>
    BitVec.getLsbD_false_of_lt_ctz (hc ▸ hi)
  have hpos : 0 < 2 ^ c := Nat.two_pow_pos c
  have hsplit : w.toNat = 2 ^ (c + 1) * (w.toNat / 2 ^ (c + 1)) + 2 ^ c := by
    rw [← mod_two_pow_of_lowest hset hlow]
    exact (div_add_mod _ _).symm
  have hsub : (w - 1#64).toNat = 2 ^ (c + 1) * (w.toNat / 2 ^ (c + 1)) + (2 ^ c - 1) := by
    rw [BitVec.toNat_sub_of_le (by rw [BitVec.le_def]; simp only [BitVec.toNat_ofNat]; omega)]
    simp only [BitVec.toNat_ofNat]
    omega
  rw [BitVec.getLsbD_and]
  rcases lt_trichotomy i c with hlt | rfl | hgt
  · rw [show w.getLsbD i = false from hlow i hlt, Bool.false_and, Bool.false_and]
  · have hclear : (w - 1#64).getLsbD i = false := by
      rw [BitVec.getLsbD, hsub, testBit_two_pow_mul_add _ (by omega), if_pos (by omega),
        testBit_two_pow_sub_one]
      simp
    rw [hclear, Bool.and_false, decide_eq_false (by omega), Bool.and_false]
  · have hsame : (w - 1#64).getLsbD i = w.getLsbD i := by
      rw [BitVec.getLsbD, BitVec.getLsbD, hsub, testBit_two_pow_mul_add _ (by omega),
        if_neg (by omega)]
      conv_rhs => rw [hsplit, testBit_two_pow_mul_add _ (by omega), if_neg (by omega)]
    rw [hsame, decide_eq_true hgt, Bool.and_self, Bool.and_true]

/-! ## The scan -/

theorem contains_cons_lt (w : BitVec 64) (ws : List (BitVec 64)) (h : d < 64) :
    contains ⟨w :: ws⟩ d = w.getLsbD d := by
  rw [contains_eq, show d / 64 = 0 by omega, mod_eq_of_lt h]
  rfl

theorem contains_cons_add (w : BitVec 64) (ws : List (BitVec 64)) (d : Nat) :
    contains ⟨w :: ws⟩ (64 + d) = contains ⟨ws⟩ d := by
  rw [contains_eq, contains_eq, show (64 + d) / 64 = d / 64 + 1 by omega,
    show (64 + d) % 64 = d % 64 by omega]
  rfl

theorem contains_cons_zero (ws : List (BitVec 64)) (f : Nat) :
    contains ⟨0#64 :: ws⟩ f = (decide (64 ≤ f) && contains ⟨ws⟩ (f - 64)) := by
  by_cases hf : f < 64
  · rw [contains_cons_lt _ _ hf, BitVec.getLsbD_zero, decide_eq_false (by omega), Bool.false_and]
  · obtain ⟨g, rfl⟩ : ∃ g, f = 64 + g := ⟨f - 64, by omega⟩
    rw [contains_cons_add, decide_eq_true (by omega), Bool.true_and, Nat.add_sub_cancel_left]

theorem contains_drop (b : DocBitset) (k d : Nat) : contains ⟨b.bits.drop k⟩ d = b.contains (64 * k + d) := by
  rw [contains_eq, contains_eq, show (64 * k + d) / 64 = k + d / 64 by omega,
    show (64 * k + d) % 64 = d % 64 by omega, getElem?_drop]

/-- A nonzero word starts with its lowest set bit. -/
theorem contains_cons_ctz (ws : List (BitVec 64)) (h : w ≠ 0#64) :
    contains ⟨w :: ws⟩ w.ctz.toNat = true ∧ ∀ f < w.ctz.toNat, contains ⟨w :: ws⟩ f = false := by
  have hlt := toNat_ctz_lt h
  refine ⟨?_, fun f hf => ?_⟩
  · rw [contains_cons_lt _ _ hlt]
    exact BitVec.getLsbD_true_ctz_of_ne_zero h
  · rw [contains_cons_lt _ _ (by omega)]
    exact BitVec.getLsbD_false_of_lt_ctz hf

theorem nextSetBitLoop_eq_some {word e : Nat} {bits : BitVec 64} {rest : List (BitVec 64)}
    (h : nextSetBitLoop word bits rest = some e) :
    ∃ k, e = 64 * word + k ∧ contains ⟨bits :: rest⟩ k = true ∧
      ∀ f < k, contains ⟨bits :: rest⟩ f = false := by
  fun_induction nextSetBitLoop word bits rest with
  | case1 word bits h0 | case3 word bits next rest h0 =>
    obtain ⟨hset, hlow⟩ := contains_cons_ctz _ (bne_iff_ne.mp h0)
    cases h
    exact ⟨bits.ctz.toNat, by omega, hset, hlow⟩
  | case2 => cases h
  | case4 word bits next rest h0 ih =>
    obtain rfl : bits = 0#64 := by simpa using h0
    obtain ⟨k, rfl, hset, hlow⟩ := ih h
    refine ⟨64 + k, by omega, by rw [contains_cons_add]; exact hset, fun f hf => ?_⟩
    rw [contains_cons_zero]
    by_cases hf64 : 64 ≤ f
    · rw [hlow _ (by omega), Bool.and_false]
    · rw [decide_eq_false hf64, Bool.false_and]

theorem nextSetBitLoop_eq_none {word : Nat} {bits : BitVec 64} {rest : List (BitVec 64)} :
    nextSetBitLoop word bits rest = none ↔ ∀ f, contains ⟨bits :: rest⟩ f = false := by
  constructor
  · intro h
    induction rest generalizing word bits with
    | nil =>
      obtain rfl : bits = 0#64 := by simpa [nextSetBitLoop] using h
      intro f
      rw [contains_cons_zero, contains_of_length_le (zero_le _), Bool.and_false]
    | cons next rest ih =>
      by_cases h0 : bits = 0#64
      · intro f
        rw [h0, contains_cons_zero, ih (by simpa [nextSetBitLoop, h0] using h), Bool.and_false]
      · simp [nextSetBitLoop, h0] at h
  · intro h
    cases hfound : nextSetBitLoop word bits rest with
    | none => rfl
    | some e =>
      obtain ⟨k, -, hset, -⟩ := nextSetBitLoop_eq_some hfound
      rw [h k] at hset
      cases hset

/-- The masked first word has the bits of the set from `d` on. -/
theorem contains_masked {word : BitVec 64} {rest : List (BitVec 64)} (hdrop : b.bits.drop (d / 64) = word :: rest)
    (f : Nat) : contains ⟨(word &&& (BitVec.allOnes 64 <<< (d % 64))) :: rest⟩ f =
      (b.contains (64 * (d / 64) + f) && decide (d % 64 ≤ f)) := by
  rw [← contains_drop, hdrop]
  by_cases hf : f < 64
  · rw [contains_cons_lt _ _ hf, contains_cons_lt _ _ hf]
    simp only [BitVec.getLsbD_and, BitVec.getLsbD_shiftLeft, BitVec.getLsbD_allOnes, hf,
      decide_true, Bool.true_and, show f - d % 64 < 64 by omega, Bool.and_true]
    rw [← decide_not, decide_eq_decide.mpr not_lt]
  · obtain ⟨g, rfl⟩ : ∃ g, f = 64 + g := ⟨f - 64, by omega⟩
    rw [contains_cons_add, contains_cons_add, decide_eq_true (by omega), Bool.and_true]

/-- The scan from `d` finds nothing exactly when no document from `d` on is in the set. -/
theorem nextSetBit_eq_none (b : DocBitset) (d : Nat) :
    b.nextSetBit d = none ↔ ∀ e, d ≤ e → b.contains e = false := by
  unfold nextSetBit
  cases hdrop : b.bits.drop (d / 64) with
  | nil =>
    have hlen := drop_eq_nil_iff.mp hdrop
    exact iff_of_true rfl fun e he => contains_of_length_le (by omega)
  | cons word rest =>
    simp only [nextSetBitLoop_eq_none, contains_masked hdrop]
    constructor
    · intro h e he
      have hbit := h (e - 64 * (d / 64))
      rwa [show 64 * (d / 64) + (e - 64 * (d / 64)) = e by omega, decide_eq_true (by omega), Bool.and_true] at hbit
    · intro h f
      by_cases hf : d % 64 ≤ f
      · rw [h _ (by omega), Bool.false_and]
      · rw [decide_eq_false hf, Bool.and_false]

/-- The scan from `d` finds the first document from `d` on. -/
theorem nextSetBit_eq_some {e : Nat} (h : b.nextSetBit d = some e) :
    d ≤ e ∧ b.contains e = true ∧ ∀ f, d ≤ f → f < e → b.contains f = false := by
  unfold nextSetBit at h
  cases hdrop : b.bits.drop (d / 64) with
  | nil => rw [hdrop] at h; cases h
  | cons word rest =>
    rw [hdrop] at h
    obtain ⟨k, rfl, hset, hlow⟩ := nextSetBitLoop_eq_some h
    rw [contains_masked hdrop, Bool.and_eq_true, decide_eq_true_iff] at hset
    refine ⟨by omega, hset.1, fun f hdf hfe => ?_⟩
    have hf := hlow (f - 64 * (d / 64)) (by omega)
    rw [contains_masked hdrop, decide_eq_true (by omega), Bool.and_true] at hf
    rwa [show 64 * (d / 64) + (f - 64 * (d / 64)) = f by omega] at hf

/-! ## The population count -/

theorem cpopNatRec_eq_countP (w : BitVec 64) (n : Nat) :
    w.cpopNatRec n 0 = (range n).countP (w.getLsbD ·) := by
  induction n with
  | zero => rfl
  | succ n ih =>
    rw [BitVec.cpopNatRec_succ, BitVec.cpopNatRec_eq, ih, range_succ, countP_append]
    cases h : w.getLsbD n <;> simp [h]

theorem toNat_cpop_eq_countP (w : BitVec 64) : w.cpop.toNat = (range 64).countP (w.getLsbD ·) := by
  have hle : w.cpopNatRec 64 0 ≤ 0 + 64 := BitVec.cpopNatRec_le 64
  rw [BitVec.cpop, BitVec.toNat_ofNat, mod_eq_of_lt (by omega), cpopNatRec_eq_countP]

/-- The population count is the number of documents in the set. -/
theorem count_eq_countP (b : DocBitset) : b.count = (range (64 * b.bits.length)).countP b.contains := by
  obtain ⟨ws⟩ := b
  induction ws with
  | nil => rfl
  | cons w ws ih =>
    have hr : 64 * (w :: ws).length = 64 + 64 * ws.length := by simp; omega
    have hlo : (range 64).countP (contains ⟨w :: ws⟩) = w.cpop.toNat := by
      rw [toNat_cpop_eq_countP]
      apply countP_congr
      intro d hd
      rw [contains_cons_lt _ _ (mem_range.mp hd)]
    have hhi : (range (64 * ws.length)).countP (contains ⟨w :: ws⟩ ∘ (64 + ·)) =
        count ⟨ws⟩ := by
      rw [ih]
      apply countP_congr
      intro d _
      rw [Function.comp, contains_cons_add]
    show _ = (range (64 * (w :: ws).length)).countP _
    rw [hr, range_add, countP_append, countP_map, hlo, hhi]
    simp [count]

/-- The count of a set of documents below `n`. -/
theorem count_eq_of_lt {n : Nat} (hlen : n ≤ 64 * b.bits.length)
    (h : ∀ d, n ≤ d → b.contains d = false) : b.count = (range n).countP b.contains := by
  obtain ⟨k, hk⟩ := Nat.exists_eq_add_of_le hlen
  rw [count_eq_countP, hk, range_add, countP_append, countP_map]
  have : (range k).countP (b.contains ∘ (n + ·)) = 0 := by
    rw [countP_eq_zero]
    intro d _
    simp [h (n + d) (by omega)]
  omega

/-! ## Batches -/

theorem getLsbD_maskOf {found : List Bool} (hlen : found.length ≤ 64) (i : Nat) :
    (maskOf found).getLsbD i = found[i]?.getD false := by
  suffices hgen : ∀ (k : Nat) (mask : BitVec 64), k + found.length ≤ 64 →
      ((found.zipIdx k).foldl (fun mask (matched, i) => mask ||| (if matched then 1#64 else 0#64) <<< i) mask).getLsbD i =
        (mask.getLsbD i || (decide (k ≤ i) && found[i - k]?.getD false)) by
    have h := hgen 0 0#64 (by omega)
    rwa [BitVec.getLsbD_zero, Bool.false_or, decide_eq_true (zero_le i), Bool.true_and] at h
  clear hlen
  induction found with
  | nil => simp
  | cons matched found ih =>
    intro k mask hk
    rw [length_cons] at hk
    have hbit : ((if matched then 1#64 else 0#64) <<< k).getLsbD i = (matched && decide (i = k)) := by
      cases matched with
      | true => exact getLsbD_bit k i (by omega)
      | false => simp
    rw [zipIdx_cons, foldl_cons, ih (k + 1) _ (by omega), BitVec.getLsbD_or, hbit, Bool.or_assoc]
    congr 1
    rcases lt_trichotomy i k with hlt | rfl | hgt
    · rw [decide_eq_false (show ¬ k + 1 ≤ i by omega), decide_eq_false (show ¬ k ≤ i by omega), decide_eq_false (by omega)]
      simp
    · rw [decide_eq_false (show ¬ i + 1 ≤ i by omega), Nat.sub_self]
      simp
    · rw [decide_eq_false (show ¬ i = k by omega), decide_eq_true (show k + 1 ≤ i by omega), decide_eq_true (show k ≤ i by omega),
        show i - k = i - (k + 1) + 1 by omega, getElem?_cons_succ, Bool.and_false, Bool.false_or]

theorem orWord_eq (b : DocBitset) (word : Nat) (mask : BitVec 64) (h : word < b.bits.length) :
    ∃ b', b.orWord word mask = some b' ∧ b'.bits.length = b.bits.length ∧
      ∀ d, b'.contains d = (b.contains d || (decide (d / 64 = word) && mask.getLsbD (d % 64))) := by
  refine ⟨_, if_pos h, length_modify .., fun d => ?_⟩
  rw [contains_eq, contains_eq]
  simp only [getElem?_modify]
  by_cases hd : d / 64 = word
  · rw [hd, getElem?_eq_getElem h]
    simp
  · simp [hd, Ne.symm hd]

/-- The mask of a chunk has the bits of the values that match. -/
theorem getLsbD_maskOf_chunk (predicate : Nat → Bool) {chunk : List Nat} (hlen : chunk.length ≤ 64) (i : Nat) :
    (maskOf ((range 64).map fun i => chunk[i]?.any predicate)).getLsbD i = chunk[i]?.any predicate := by
  rw [getLsbD_maskOf (by simp), getElem?_map]
  by_cases hi : i < 64
  · rw [getElem?_range hi]
    rfl
  · rw [getElem?_eq_none (by simpa using hi), getElem?_eq_none (by omega)]
    rfl

theorem insertChunk_eq (b : DocBitset) (predicate : Nat → Bool) (doc : Nat) {chunk : List Nat} (hne : chunk ≠ [])
    (hlen : chunk.length ≤ 64) (hfit : doc + chunk.length ≤ 64 * b.bits.length) :
    ∃ b', b.insertChunk predicate doc chunk = some b' ∧ b'.bits.length = b.bits.length ∧
      ∀ d, b'.contains d = (b.contains d || (decide (doc ≤ d) && chunk[d - doc]?.any predicate)) := by
  have hpos : 0 < chunk.length := length_pos_iff.mpr hne
  have hmask := getLsbD_maskOf_chunk predicate hlen
  have hnone : ∀ i, chunk.length ≤ i → chunk[i]?.any predicate = false := fun i hi => by
    rw [getElem?_eq_none hi, Option.any_none]
  obtain ⟨b₁, hb₁, hlen₁, hc₁⟩ := b.orWord_eq (doc / 64)
    (maskOf ((range 64).map fun i => chunk[i]?.any predicate) <<< (doc % 64)) (by omega)
  have hlow : ∀ d, b₁.contains d = (b.contains d || (decide (d / 64 = doc / 64 ∧ doc ≤ d) && chunk[d - doc]?.any predicate)) := by
    intro d
    rw [hc₁, BitVec.getLsbD_shiftLeft, hmask, decide_eq_true (mod_lt d (by decide)), Bool.true_and]
    by_cases hd : d / 64 = doc / 64
    · by_cases hle : doc ≤ d
      · rw [decide_eq_false (show ¬ d % 64 < doc % 64 by omega), decide_eq_true hd, decide_eq_true ⟨hd, hle⟩,
          show d % 64 - doc % 64 = d - doc by omega]
        simp
      · simp [hle, show d % 64 < doc % 64 by omega]
    · simp [hd]
  rw [insertChunk]
  dsimp only [Option.bind_eq_bind]
  rw [hb₁, Option.bind_some]
  split
  case isTrue htwo =>
    obtain ⟨b₂, hb₂, hlen₂, hc₂⟩ := b₁.orWord_eq (doc / 64 + 1)
      (maskOf ((range 64).map fun i => chunk[i]?.any predicate) >>> (64 - doc % 64)) (by omega)
    refine ⟨b₂, hb₂, hlen₂.trans hlen₁, fun d => ?_⟩
    rw [hc₂, hlow, BitVec.getLsbD_ushiftRight, hmask, Bool.or_assoc]
    congr 1
    by_cases hle : doc ≤ d
    · rcases lt_trichotomy (d / 64) (doc / 64 + 1) with hlt | heq | hgt
      · rw [decide_eq_true (show d / 64 = doc / 64 ∧ doc ≤ d by omega), decide_eq_false hlt.ne, decide_eq_true hle]
        simp
      · rw [decide_eq_false (show ¬ (d / 64 = doc / 64 ∧ doc ≤ d) by omega), decide_eq_true heq, decide_eq_true hle,
          show 64 - doc % 64 + d % 64 = d - doc by omega]
        simp
      · rw [hnone (d - doc) (by omega), decide_eq_false hgt.ne']
        simp
    · simp [hle, show ¬ d / 64 = doc / 64 + 1 by omega]
  case isFalse hone =>
    refine ⟨b₁, rfl, hlen₁, fun d => ?_⟩
    rw [hlow]
    congr 1
    by_cases hd : d / 64 = doc / 64
    · simp [hd]
    · by_cases hle : doc ≤ d
      · simp [hd, hnone (d - doc) (by omega)]
      · simp [hd, hle]

/-- After `k` chunks the documents of the values before the `k`-th chunk are added. -/
theorem foldlM_insertChunk (b : DocBitset) (predicate : Nat → Bool) {start : Nat} {values : List Nat}
    (hfit : start + values.length ≤ 64 * b.bits.length) {k : Nat} (hk : k ≤ divCeil64 values.length) :
    ∃ b', (range k).foldlM
      (fun b k => b.insertChunk predicate (start + k * 64) ((values.drop (k * 64)).take 64)) b = some b' ∧
      b'.bits.length = b.bits.length ∧ ∀ d, b'.contains d =
        (b.contains d || (decide (start ≤ d ∧ d < start + k * 64) && values[d - start]?.any predicate)) := by
  induction k with
  | zero => exact ⟨b, rfl, rfl, fun d => by simp [show ¬ (start ≤ d ∧ d < start) by omega]⟩
  | succ k ih =>
    rw [divCeil64] at hk
    obtain ⟨b₁, hb₁, hlen₁, hc₁⟩ := ih (by rw [divCeil64]; omega)
    have hlength : ((values.drop (k * 64)).take 64).length = min 64 (values.length - k * 64) := by
      rw [length_take, length_drop]
    have hne : (values.drop (k * 64)).take 64 ≠ [] := length_pos_iff.mp (by omega)
    obtain ⟨b₂, hb₂, hlen₂, hc₂⟩ := b₁.insertChunk_eq predicate (start + k * 64) hne (by omega) (by omega)
    refine ⟨b₂, ?_, hlen₂.trans hlen₁, fun d => ?_⟩
    · rw [range_succ, foldlM_append, hb₁]
      show (b₁.insertChunk _ _ _).bind _ = _
      rw [hb₂]
      rfl
    · rw [hc₂, hc₁, Bool.or_assoc, getElem?_take, getElem?_drop]
      congr 1
      by_cases hlow : start + k * 64 ≤ d
      · by_cases hhigh : d < start + (k + 1) * 64
        · rw [decide_eq_false (show ¬ (start ≤ d ∧ d < start + k * 64) by omega), decide_eq_true hlow,
            decide_eq_true (show start ≤ d ∧ d < start + (k + 1) * 64 by omega), if_pos (by omega),
            show k * 64 + (d - (start + k * 64)) = d - start by omega]
          simp
        · rw [decide_eq_false (show ¬ (start ≤ d ∧ d < start + k * 64) by omega),
            decide_eq_false (show ¬ (start ≤ d ∧ d < start + (k + 1) * 64) by omega), if_neg (by omega)]
          simp
      · rw [decide_eq_false hlow, Bool.false_and, Bool.or_false, decide_eq_decide.mpr]
        omega

/-- A batch adds the documents whose values match. -/
theorem insertMatchingValues_eq (b : DocBitset) (predicate : Nat → Bool) {start : Nat} {values : List Nat}
    (hfit : start + values.length ≤ 64 * b.bits.length) :
    ∃ b', b.insertMatchingValues start values predicate = some b' ∧ b'.bits.length = b.bits.length ∧
      ∀ d, b'.contains d = (b.contains d || (decide (start ≤ d) && values[d - start]?.any predicate)) := by
  obtain ⟨b', hb', hlen', hc'⟩ := b.foldlM_insertChunk predicate hfit (le_refl _)
  refine ⟨b', hb', hlen', fun d => ?_⟩
  rw [hc']
  congr 1
  by_cases hd : d - start < values.length
  · congr 1
    rw [decide_eq_decide, divCeil64]
    omega
  · rw [getElem?_eq_none (by omega), Option.any_none, Bool.and_false, Bool.and_false]

end DocBitset

end Summa
