import Mathlib.Algebra.Group.Nat.Defs
import Mathlib.Data.List.Basic
import Mathlib.Tactic.Common

/-!
`include/common/bitops.h`: bitmaps of 32-bit words. A bitmap is the list of its
words; an access to a word behind its end has no defined result and is `none`.
`BITS_PER_LONG` is 32 on the target. `testBit` is the abstract reading of a bitmap that the specifications use.
-/
namespace Tenok

/-- `unsigned long` and `uint32_t` of the target. -/
abbrev Word := BitVec 32

instance : LawfulBEq Word := inferInstance

abbrev Bitmap := List Word

def clearBit (bit : Nat) (word : Word) : Word := word &&& ~~~(1#32 <<< bit)

def setBit (bit : Nat) (word : Word) : Word := word ||| (1#32 <<< bit)

def bitmapClearBit (map : Bitmap) (bit : Nat) : Option Bitmap := do
  let word ← map[bit / 32]?
  pure (map.set (bit / 32) (clearBit (bit % 32) word))

def bitmapSetBit (map : Bitmap) (bit : Nat) : Option Bitmap := do
  let word ← map[bit / 32]?
  pure (map.set (bit / 32) (setBit (bit % 32) word))

def bitmapGetBit (map : Bitmap) (bit : Nat) : Option Word := do
  let word ← map[bit / 32]?
  pure ((word >>> (bit % 32)) &&& 1#32)

/-- `__builtin_ffsl`: one plus the index of the least significant set bit, or zero. -/
def ffsl (word : Word) : Nat := if word = 0#32 then 0 else word.ctz.toNat + 1

/-- The loop of `find_first_bit`, entered at word `i` with the words from there on. -/
def findFirstBitFrom (size : Nat) : Bitmap → Nat → Option Nat
  | words, i =>
      if i * 32 < size then
        match words with
        | [] => none
        | word :: rest =>
            if word ≠ 0#32 then some (min (i * 32 + ffsl word - 1) size)
            else findFirstBitFrom size rest (i + 1)
      else some size

def findFirstBit (addr : Bitmap) (size : Nat) : Option Nat := findFirstBitFrom size addr 0

def findFirstZeroBitFrom (size : Nat) : Bitmap → Nat → Option Nat
  | words, i =>
      if i * 32 < size then
        match words with
        | [] => none
        | word :: rest =>
            if word ≠ ~~~0#32 then some (min (i * 32 + ffsl (~~~word) - 1) size)
            else findFirstZeroBitFrom size rest (i + 1)
      else some size

def findFirstZeroBit (addr : Bitmap) (size : Nat) : Option Nat := findFirstZeroBitFrom size addr 0

/-- Bit `i` of a bitmap; bits behind its end read as clear. -/
def testBit (map : Bitmap) (i : Nat) : Bool :=
  match map[i / 32]? with
  | some word => word.getLsbD (i % 32)
  | none => false

theorem testBit_zeros (n i : Nat) : testBit (List.replicate n 0#32) i = false := by
  by_cases h : i / 32 < n <;> simp [testBit, h]

theorem getLsbD_one_shiftLeft (bit i : Nat) (hi : i < 32) :
    (1#32 <<< bit).getLsbD i = decide (i = bit) := by
  rw [BitVec.getLsbD_shiftLeft, BitVec.getLsbD_one, Bool.eq_iff_iff]
  simp only [Bool.and_eq_true, Bool.not_eq_true', decide_eq_true_eq, decide_eq_false_iff_not]
  omega

theorem getLsbD_setBit (word : Word) (bit i : Nat) (hi : i < 32) :
    (setBit bit word).getLsbD i = (decide (i = bit) || word.getLsbD i) := by
  rw [setBit, BitVec.getLsbD_or, getLsbD_one_shiftLeft bit i hi, Bool.or_comm]

theorem getLsbD_clearBit (word : Word) (bit i : Nat) (hi : i < 32) :
    (clearBit bit word).getLsbD i = (!decide (i = bit) && word.getLsbD i) := by
  rw [clearBit, BitVec.getLsbD_and, BitVec.getLsbD_not, getLsbD_one_shiftLeft bit i hi,
    decide_eq_true hi, Bool.true_and, Bool.and_comm]

private theorem testBit_set (map : Bitmap) (bit i : Nat) (f : Nat → Word → Word) (word : Word)
    (hword : map[bit / 32]? = some word) :
    testBit (map.set (bit / 32) (f (bit % 32) word)) i =
      if i / 32 = bit / 32
      then (f (bit % 32) word).getLsbD (i % 32) else testBit map i := by
  obtain ⟨hlt, _⟩ := List.getElem?_eq_some_iff.mp hword
  unfold testBit
  by_cases h : i / 32 = bit / 32
  · rw [h, List.getElem?_set_self hlt]
    simp
  · rw [List.getElem?_set_ne (Ne.symm h)]
    simp [h]

private theorem index_eq_iff (i bit : Nat) :
    i = bit ↔ i / 32 = bit / 32 ∧ i % 32 = bit % 32 := by
  omega

theorem bitmapSetBit_isSome (map : Bitmap) (bit : Nat) (h : bit < 32 * map.length) :
    ∃ map', bitmapSetBit map bit = some map' := by
  have hlt : bit / 32 < map.length := by
    omega
  exact ⟨_, by simp [bitmapSetBit, List.getElem?_eq_getElem hlt]; rfl⟩

theorem bitmapClearBit_isSome (map : Bitmap) (bit : Nat) (h : bit < 32 * map.length) :
    ∃ map', bitmapClearBit map bit = some map' := by
  have hlt : bit / 32 < map.length := by
    omega
  exact ⟨_, by simp [bitmapClearBit, List.getElem?_eq_getElem hlt]; rfl⟩

theorem bitmapSetBit_spec {map map' : Bitmap} {bit : Nat} (h : bitmapSetBit map bit = some map') :
    map'.length = map.length ∧ ∀ i, testBit map' i = (decide (i = bit) || testBit map i) := by
  simp only [bitmapSetBit, Option.bind_eq_bind, Option.bind_eq_some_iff] at h
  obtain ⟨word, hword, heq⟩ := h
  obtain rfl := Option.some.inj heq
  refine ⟨List.length_set, fun i => ?_⟩
  rw [testBit_set map bit i setBit word hword]
  split
  · rename_i hi
    rw [getLsbD_setBit _ _ (i % 32) (Nat.mod_lt _ (by decide))]
    simp [index_eq_iff i bit, hi, testBit, hword]
  · rename_i hi
    simp [index_eq_iff i bit, hi]

theorem bitmapClearBit_spec {map map' : Bitmap} {bit : Nat}
    (h : bitmapClearBit map bit = some map') :
    map'.length = map.length ∧ ∀ i, testBit map' i = (!decide (i = bit) && testBit map i) := by
  simp only [bitmapClearBit, Option.bind_eq_bind, Option.bind_eq_some_iff] at h
  obtain ⟨word, hword, heq⟩ := h
  obtain rfl := Option.some.inj heq
  refine ⟨List.length_set, fun i => ?_⟩
  rw [testBit_set map bit i clearBit word hword]
  split
  · rename_i hi
    rw [getLsbD_clearBit _ _ (i % 32) (Nat.mod_lt _ (by decide))]
    simp [index_eq_iff i bit, hi, testBit, hword]
  · rename_i hi
    simp [index_eq_iff i bit, hi]

theorem bitmapGetBit_spec (map : Bitmap) (bit : Nat) (h : bit < 32 * map.length) :
    bitmapGetBit map bit = some (if testBit map bit then 1#32 else 0#32) := by
  have hlt : bit / 32 < map.length := by
    omega
  simp only [bitmapGetBit, testBit, List.getElem?_eq_getElem hlt, Option.bind_eq_bind,
    Option.bind_some, Option.pure_def, Option.some.injEq]
  ext i hi
  simp only [BitVec.getElem_and, BitVec.getElem_ushiftRight, BitVec.getElem_one]
  by_cases h0 : i = 0
  · subst h0
    cases (map[bit / 32]).getLsbD (bit % 32) <;> simp
  · cases (map[bit / 32]).getLsbD (bit % 32) <;> simp [h0]

theorem bitmapGetBit_eq_none (map : Bitmap) (bit : Nat) (h : 32 * map.length ≤ bit) :
    bitmapGetBit map bit = none := by
  have hge : map.length ≤ bit / 32 := by
    omega
  simp [bitmapGetBit, List.getElem?_eq_none hge]

private theorem ffsl_spec (word : Word) (h : word ≠ 0#32) :
    ∃ k < 32, ffsl word = k + 1 ∧ word.getLsbD k = true ∧ ∀ j < k, word.getLsbD j = false := by
  have hset := BitVec.getLsbD_true_ctz_of_ne_zero h
  refine ⟨word.ctz.toNat, ?_, by simp [ffsl, h], hset,
    fun j hj => BitVec.getLsbD_false_of_lt_ctz hj⟩
  by_contra hge
  rw [BitVec.getLsbD_of_ge _ _ (by omega)] at hset
  exact Bool.noConfusion hset

/-- `n` is the least index below `size` that satisfies `p`, and `size` if there is none. -/
def IsFirst (p : Nat → Bool) (size n : Nat) : Prop :=
  n ≤ size ∧ (n < size → p n = true) ∧ ∀ j < n, p j = false

theorem IsFirst.unique {p : Nat → Bool} {size n m : Nat} (hn : IsFirst p size n)
    (hm : IsFirst p size m) : n = m := by
  obtain ⟨hn1, hn2, hn3⟩ := hn
  obtain ⟨hm1, hm2, hm3⟩ := hm
  rcases Nat.lt_trichotomy n m with h | h | h
  · have := hn2 (by omega)
    rw [hm3 n h] at this
    exact Bool.noConfusion this
  · exact h
  · have := hm2 (by omega)
    rw [hn3 m h] at this
    exact Bool.noConfusion this

private theorem testBit_cons (word : Word) (rest : Bitmap) (k : Nat) :
    testBit (word :: rest) k =
      if k < 32 then word.getLsbD k else testBit rest (k - 32) := by
  by_cases h : k < 32
  · simp [testBit, h, Nat.div_eq_of_lt h, Nat.mod_eq_of_lt h]
  · have hdiv : k / 32 = (k - 32) / 32 + 1 := by
        omega
    have hmod : k % 32 = (k - 32) % 32 := by
        omega
    simp only [testBit, hdiv, hmod, List.getElem?_cons_succ, if_neg h]

/-- The word in which either search ends; the bits of `word` are the predicate's there. -/
private theorem scan_word (word : Word) (size i : Nat) (p : Nat → Bool) (hne : word ≠ 0#32)
    (hp : ∀ k < 32, p (k + i * 32) = word.getLsbD k)
    (hlow : ∀ j < i * 32, p j = false) :
    IsFirst p size (min (i * 32 + ffsl word - 1) size) := by
  obtain ⟨k, hk, hffs, hset, hclear⟩ := ffsl_spec word hne
  rw [hffs]
  refine ⟨by omega, fun hlt => ?_, fun j hj => ?_⟩
  · have hmin : min (i * 32 + (k + 1) - 1) size = k + i * 32 := by omega
    rw [hmin, hp k hk, hset]
  · by_cases hjl : j < i * 32
    · exact hlow j hjl
    · have := hp (j - i * 32) (by omega)
      rw [Nat.sub_add_cancel (by omega)] at this
      rw [this]
      exact hclear _ (by omega)

private theorem findFirstBitFrom_spec (size : Nat) (words : Bitmap) (i : Nat) (p : Nat → Bool)
    (hlen : size ≤ 32 * (i + words.length))
    (hp : ∀ k, p (k + i * 32) = testBit words k)
    (hlow : ∀ j < i * 32, p j = false) :
    ∃ n, findFirstBitFrom size words i = some n ∧ IsFirst p size n := by
  induction words generalizing i with
  | nil =>
      simp only [List.length_nil, Nat.add_zero] at hlen
      refine ⟨size, ?_, Nat.le_refl _, fun h => absurd h (Nat.lt_irrefl _), fun j hj => ?_⟩
      · rw [findFirstBitFrom, if_neg (by omega)]
      · exact hlow j (by omega)
  | cons word rest ih =>
      by_cases hi : i * 32 < size
      · rw [findFirstBitFrom, if_pos hi]
        by_cases hw : word = 0#32
        · simp only [hw, ne_eq, not_true_eq_false, if_false]
          apply ih (i + 1)
          · simp only [List.length_cons] at hlen
            omega
          · intro k
            have := hp (k + 32)
            rw [testBit_cons, if_neg (by omega), Nat.add_sub_cancel] at this
            rw [← this]
            congr 1
            omega
          · intro j hj
            by_cases hjl : j < i * 32
            · exact hlow j hjl
            · have := hp (j - i * 32)
              rw [Nat.sub_add_cancel (by omega), testBit_cons, if_pos (by omega), hw] at this
              simpa using this
        · simp only [ne_eq, hw, not_false_eq_true, if_true]
          refine ⟨_, rfl, scan_word word size i p hw (fun k hk => ?_) hlow⟩
          rw [hp k, testBit_cons, if_pos hk]
      · refine ⟨size, ?_, Nat.le_refl _, fun h => absurd h (Nat.lt_irrefl _), fun j hj => ?_⟩
        · rw [findFirstBitFrom, if_neg hi]
        · exact hlow j (by omega)

theorem findFirstBit_spec (map : Bitmap) (size : Nat) (h : size ≤ 32 * map.length) :
    ∃ n, findFirstBit map size = some n ∧ IsFirst (testBit map) size n := by
  apply findFirstBitFrom_spec size map 0 (testBit map)
  · simpa using h
  · intro k
    simp
  · intro j hj
    omega

private theorem findFirstZeroBitFrom_of_clear {size : Nat} {words : Bitmap} {i k : Nat}
    (hk : k < 32 * words.length) (hsize : i * 32 + k < size) (hclear : testBit words k = false) :
    ∃ n ≤ k, findFirstZeroBitFrom size words i = some (i * 32 + n) ∧ testBit words n = false := by
  induction words generalizing i k with
  | nil => simp at hk
  | cons word rest ih =>
      rw [findFirstZeroBitFrom, if_pos (by omega)]
      by_cases hword : word = ~~~0#32
      · have hk32 : 32 ≤ k := by
          by_contra hlt
          rw [testBit_cons, if_pos (by omega), hword] at hclear
          simp only [BitVec.not_zero, BitVec.getLsbD_allOnes, decide_eq_false_iff_not] at hclear
          omega
        rw [testBit_cons, if_neg (by omega)] at hclear
        simp only [List.length_cons] at hk
        obtain ⟨n, hn, hfind, hbit⟩ := ih (i := i + 1) (k := k - 32) (by omega) (by omega) hclear
        refine ⟨n + 32, by omega, ?_, ?_⟩
        · simp only [hword, ne_eq, not_true_eq_false, if_false, hfind, Option.some.injEq]
          omega
        · rw [testBit_cons, if_neg (by omega), Nat.add_sub_cancel, hbit]
      · have hne : ~~~word ≠ 0#32 := by
          intro hzero
          exact hword (by rw [← hzero, BitVec.not_not])
        obtain ⟨n, hn, hffs, hset, hlow⟩ := ffsl_spec (~~~word) hne
        have hle : n ≤ k := by
          by_contra hlt
          have hone := hlow k (by omega)
          rw [testBit_cons, if_pos (by omega)] at hclear
          rw [BitVec.getLsbD_not, hclear, decide_eq_true (by omega)] at hone
          cases hone
        refine ⟨n, hle, ?_, ?_⟩
        · simp only [ne_eq, hword, not_false_eq_true, if_true, hffs, Option.some.injEq]
          omega
        · rw [testBit_cons, if_pos hn]
          simpa [hn] using hset

theorem findFirstZeroBit_of_clear {map : Bitmap} {size k : Nat} (hsize : k < size)
    (hk : k < 32 * map.length) (hclear : testBit map k = false) :
    ∃ n ≤ k, findFirstZeroBit map size = some n ∧ testBit map n = false := by
  obtain ⟨n, hn, hfind, hbit⟩ :=
    findFirstZeroBitFrom_of_clear (i := 0) hk (by simpa using hsize) hclear
  exact ⟨n, hn, by simpa [findFirstZeroBit] using hfind, hbit⟩

theorem findFirstZeroBit_singleton {word : Word} {size k : Nat} (hk : k < 32) (hsize : k < size)
    (hword : ∀ j < 32, word.getLsbD j = decide (j < k)) :
    findFirstZeroBit [word] size = some k := by
  have hbit : ∀ j < 32, testBit [word] j = decide (j < k) := fun j hj => by
    rw [testBit_cons, if_pos hj, hword j hj]
  obtain ⟨n, hn, hfind, hclear⟩ :=
    findFirstZeroBit_of_clear hsize (by simpa using hk) ((hbit k hk).trans (by simp))
  rw [hbit n (by omega), decide_eq_false_iff_not] at hclear
  obtain rfl : n = k := by omega
  exact hfind

theorem findFirstZeroBit_full {size : Nat} (hsize : 32 < size) :
    findFirstZeroBit [~~~0#32] size = none := by
  have hpos : 0 * 32 < size := by omega
  have hnext : (0 + 1) * 32 < size := by omega
  rw [findFirstZeroBit, findFirstZeroBitFrom, if_pos hpos]
  simp only [ne_eq, not_true_eq_false, if_false]
  rw [findFirstZeroBitFrom, if_pos hnext]

theorem bitmap_ext {map map' : Bitmap} (hlen : map.length = map'.length)
    (h : ∀ i, testBit map i = testBit map' i) : map = map' := by
  apply List.ext_getElem hlen
  intro k hk hk'
  apply BitVec.eq_of_getLsbD_eq
  intro j hj
  have := h (k * 32 + j)
  have hdiv : (k * 32 + j) / 32 = k := by
    omega
  have hmod : (k * 32 + j) % 32 = j := by
    omega
  simpa [testBit, hdiv, hmod, List.getElem?_eq_getElem hk, List.getElem?_eq_getElem hk'] using this

end Tenok
