import Tenok.Common.Bitops

/-!
The searches of `include/common/bitops.h` with their indices in an `unsigned long`: the index of the
first bit of a word wraps, and from a size of more than `2 ^ 32 - 32` bits on the loop does not end
at the last word.
-/
namespace Tenok.Ulong

def range : Nat := 4294967296

/-- The loop of `find_first_bit`, entered at word `i` with the words from there on. -/
def findFirstBitFrom (size : Nat) : Bitmap → Nat → Option Nat
  | words, i =>
      if i * 32 % range < size then
        match words with
        | [] => none
        | word :: rest =>
            if word ≠ 0#32 then some (min ((i * 32 + ffsl word - 1) % range) size)
            else findFirstBitFrom size rest (i + 1)
      else some size

def findFirstBit (addr : Bitmap) (size : Nat) : Option Nat := findFirstBitFrom size addr 0

def findFirstZeroBitFrom (size : Nat) : Bitmap → Nat → Option Nat
  | words, i =>
      if i * 32 % range < size then
        match words with
        | [] => none
        | word :: rest =>
            if word ≠ ~~~0#32 then some (min ((i * 32 + ffsl (~~~word) - 1) % range) size)
            else findFirstZeroBitFrom size rest (i + 1)
      else some size

def findFirstZeroBit (addr : Bitmap) (size : Nat) : Option Nat := findFirstZeroBitFrom size addr 0

section Search
variable {map words : Bitmap} {size i bit : Nat}

theorem findFirstZeroBitFrom_eq :
    findFirstZeroBitFrom size words i = findFirstBitFrom size (words.map (~~~·)) i := by
  induction words generalizing i with
  | nil => rfl
  | cons word rest ih =>
      have hiff : word ≠ ~~~0#32 ↔ ~~~word ≠ 0#32 := by
        refine not_congr ⟨fun h => ?_, fun h => ?_⟩
        · rw [h, BitVec.not_not]
        · rw [← h, BitVec.not_not]
      rw [findFirstZeroBitFrom, List.map_cons, findFirstBitFrom]
      split
      · by_cases hword : word ≠ ~~~0#32
        · simp only [if_pos hword, if_pos (hiff.mp hword)]
        · simp only [if_neg hword, if_neg (hiff.not.mp hword)]
          exact ih
      · rfl

theorem findFirstZeroBit_eq : findFirstZeroBit map size = findFirstBit (map.map (~~~·)) size :=
  findFirstZeroBitFrom_eq

theorem testBit_map_not (h : bit < 32 * map.length) :
    testBit (map.map (~~~·)) bit = !testBit map bit := by
  have hlt : bit / 32 < map.length := by omega
  rw [testBit, testBit, List.getElem?_map, List.getElem?_eq_getElem hlt]
  simp only [Option.map_some, BitVec.getLsbD_not, decide_eq_true (Nat.mod_lt bit (by decide : 0 < 32)),
    Bool.true_and]

theorem ffsl_le (word : Word) : ffsl word ≤ 32 := by
  rw [ffsl]
  split
  · exact Nat.zero_le _
  next hword =>
    have hset := BitVec.getLsbD_true_ctz_of_ne_zero hword
    exact BitVec.lt_of_getLsbD hset

theorem findFirstBitFrom_word {word : Word} (hi : i * 32 < range) (hword : word ≠ 0#32)
    (hlt : i * 32 < size) :
    findFirstBitFrom size (word :: words) i = Tenok.findFirstBitFrom size (word :: words) i := by
  have hffs := ffsl_le word
  have hwrap : (i * 32 + ffsl word - 1) % range = i * 32 + ffsl word - 1 := by
    rw [range] at hi ⊢
    omega
  rw [findFirstBitFrom, Tenok.findFirstBitFrom, Nat.mod_eq_of_lt hi, if_pos hlt, if_pos hlt]
  simp only [if_pos hword, hwrap]

theorem findFirstBitFrom_eq_nat (hsize : size + 32 ≤ range) (hi : i * 32 < range) :
    findFirstBitFrom size words i = Tenok.findFirstBitFrom size words i := by
  induction words generalizing i with
  | nil => rw [findFirstBitFrom, Tenok.findFirstBitFrom, Nat.mod_eq_of_lt hi]
  | cons word rest ih =>
      by_cases hlt : i * 32 < size
      · by_cases hword : word = 0#32
        · have hrest := @ih (i + 1) (by omega)
          rw [findFirstBitFrom, Tenok.findFirstBitFrom, Nat.mod_eq_of_lt hi, if_pos hlt, if_pos hlt]
          simp only [hword, ne_eq, not_true_eq_false, if_false, hrest]
        · exact findFirstBitFrom_word hi hword hlt
      · rw [findFirstBitFrom, Tenok.findFirstBitFrom, Nat.mod_eq_of_lt hi, if_neg hlt, if_neg hlt]

theorem findFirstBitFrom_eq_of_ne (hlen : 32 * (i + words.length) ≤ range)
    (hsize : range < size + 32) (hne : ∃ word ∈ words, word ≠ 0#32) :
    findFirstBitFrom size words i = Tenok.findFirstBitFrom size words i := by
  induction words generalizing i with
  | nil =>
      obtain ⟨word, hmem, -⟩ := hne
      cases hmem
  | cons word rest ih =>
      rw [List.length_cons] at hlen
      have hi : i * 32 < range := by omega
      have hlt : i * 32 < size := by omega
      by_cases hword : word = 0#32
      · obtain ⟨w, hmem, hw⟩ := hne
        have hrest : ∃ word ∈ rest, word ≠ 0#32 := by
          obtain rfl | hmem := List.mem_cons.mp hmem
          · exact absurd hword hw
          · exact ⟨w, hmem, hw⟩
        have heq := @ih (i + 1) (by omega) hrest
        rw [findFirstBitFrom, Tenok.findFirstBitFrom, Nat.mod_eq_of_lt hi, if_pos hlt, if_pos hlt]
        simp only [hword, ne_eq, not_true_eq_false, if_false, heq]
      · exact findFirstBitFrom_word hi hword hlt

theorem findFirstBitFrom_zeros (hsize : range < size + 32) (hzero : ∀ word ∈ words, word = 0#32) :
    findFirstBitFrom size words i = none := by
  have hlt : i * 32 % range < size := by
    rw [range] at hsize ⊢
    omega
  induction words generalizing i with
  | nil => rw [findFirstBitFrom, if_pos hlt]
  | cons word rest ih =>
      obtain ⟨hword, hrest⟩ := List.forall_mem_cons.mp hzero
      have hnext : (i + 1) * 32 % range < size := by
        rw [range] at hsize ⊢
        omega
      rw [findFirstBitFrom, if_pos hlt]
      simp only [hword, ne_eq, not_true_eq_false, if_false]
      exact ih hrest hnext

theorem exists_testBit_iff : (∃ i, testBit map i = true) ↔ ∃ word ∈ map, word ≠ 0#32 := by
  constructor
  · rintro ⟨i, hi⟩
    rw [testBit] at hi
    cases hword : map[i / 32]? with
    | none =>
        rw [hword] at hi
        cases hi
    | some word =>
        rw [hword] at hi
        refine ⟨word, List.mem_of_getElem? hword, ?_⟩
        rintro rfl
        have hzero : (0#32).getLsbD (i % 32) = true := hi
        rw [BitVec.getLsbD_zero] at hzero
        cases hzero
  · rintro ⟨word, hmem, hword⟩
    obtain ⟨k, hk⟩ := List.mem_iff_getElem?.mp hmem
    have hset := BitVec.getLsbD_true_ctz_of_ne_zero hword
    have hlt := BitVec.lt_of_getLsbD hset
    have hdiv : (k * 32 + word.ctz.toNat) / 32 = k := by omega
    have hmod : (k * 32 + word.ctz.toNat) % 32 = word.ctz.toNat := by omega
    exact ⟨k * 32 + word.ctz.toNat, by rw [testBit, hdiv, hmod, hk]; exact hset⟩

/-- The search for a set bit is right if and only if it is not for the last bits of a bitmap that has
none. -/
theorem findFirstBit_iff (hmap : 32 * map.length ≤ range) (hsize : size ≤ 32 * map.length) :
    (∃ n, findFirstBit map size = some n ∧ IsFirst (testBit map) size n) ↔
      size + 32 ≤ range ∨ ∃ i, testBit map i = true := by
  have hnat : findFirstBit map size = Tenok.findFirstBit map size →
      ∃ n, findFirstBit map size = some n ∧ IsFirst (testBit map) size n := by
    intro heq
    rw [heq]
    exact findFirstBit_spec map size hsize
  by_cases hsmall : size + 32 ≤ range
  · exact ⟨fun _ => .inl hsmall, fun _ => hnat (findFirstBitFrom_eq_nat hsmall (by decide))⟩
  · have hbig : range < size + 32 := Nat.lt_of_not_le hsmall
    rw [exists_testBit_iff]
    by_cases hne : ∃ word ∈ map, word ≠ 0#32
    · refine ⟨fun _ => .inr hne, fun _ => hnat (findFirstBitFrom_eq_of_ne ?_ hbig hne)⟩
      rwa [Nat.zero_add]
    · have hzero : ∀ word ∈ map, word = 0#32 := fun word hmem =>
        not_not.mp fun hword => hne ⟨word, hmem, hword⟩
      constructor
      · rintro ⟨n, hn, -⟩
        rw [findFirstBit, findFirstBitFrom_zeros hbig hzero] at hn
        cases hn
      · rintro (h | h)
        · exact absurd h hsmall
        · exact absurd h hne

theorem isFirst_congr {p q : Nat → Bool} {n : Nat} (h : ∀ i < size, p i = q i) :
    IsFirst p size n ↔ IsFirst q size n := by
  have hforward : ∀ {p q : Nat → Bool}, (∀ i < size, p i = q i) → IsFirst p size n →
      IsFirst q size n := by
    rintro p q h ⟨hn, hset, hlow⟩
    exact ⟨hn, fun hlt => (h n hlt).symm.trans (hset hlt),
      fun j hj => (h j (Nat.lt_of_lt_of_le hj hn)).symm.trans (hlow j hj)⟩
  exact ⟨hforward h, hforward fun i hi => (h i hi).symm⟩

theorem findFirstZeroBit_iff (hmap : 32 * map.length ≤ range) (hsize : size ≤ 32 * map.length) :
    (∃ n, findFirstZeroBit map size = some n ∧ IsFirst (fun i => !testBit map i) size n) ↔
      size + 32 ≤ range ∨ ∃ i < 32 * map.length, testBit map i = false := by
  have hlen : (map.map (~~~·)).length = map.length := List.length_map _
  have hfirst : ∀ n, IsFirst (fun i => !testBit map i) size n ↔
      IsFirst (testBit (map.map (~~~·))) size n := fun n =>
    isFirst_congr fun i hi => (testBit_map_not (Nat.lt_of_lt_of_le hi hsize)).symm
  have hclear : (∃ i < 32 * map.length, testBit map i = false) ↔
      ∃ i, testBit (map.map (~~~·)) i = true := by
    constructor
    · rintro ⟨i, hi, hbit⟩
      exact ⟨i, by rw [testBit_map_not hi, hbit]; rfl⟩
    · rintro ⟨i, hbit⟩
      have hi : i < 32 * map.length := by
        by_contra hge
        rw [testBit, List.getElem?_eq_none (by rw [hlen]; omega)] at hbit
        cases hbit
      rw [testBit_map_not hi, Bool.not_eq_true'] at hbit
      exact ⟨i, hi, hbit⟩
  rw [hclear, ← findFirstBit_iff (by rwa [hlen]) (by rwa [hlen]), findFirstZeroBit_eq]
  exact exists_congr fun n => and_congr_right fun _ => hfirst n

/-- The operations on a bitmap do what their names say. -/
structure BitmapOps (map : Bitmap) (size : Nat) : Prop where
  first : ∃ n, findFirstBit map size = some n ∧ IsFirst (testBit map) size n
  firstZero : ∃ n, findFirstZeroBit map size = some n ∧ IsFirst (fun i => !testBit map i) size n
  set : ∀ bit < 32 * map.length, ∃ map', bitmapSetBit map bit = some map' ∧
    map'.length = map.length ∧ ∀ i, testBit map' i = (decide (i = bit) || testBit map i)
  clear : ∀ bit < 32 * map.length, ∃ map', bitmapClearBit map bit = some map' ∧
    map'.length = map.length ∧ ∀ i, testBit map' i = (!decide (i = bit) && testBit map i)
  get : ∀ bit < 32 * map.length,
    bitmapGetBit map bit = some (if testBit map bit then 1#32 else 0#32)

/-- A bitmap has at most as many bits as an index can name. -/
theorem bitmapOps_iff (hmap : 32 * map.length ≤ range) (hsize : size ≤ 32 * map.length) :
    BitmapOps map size ↔ size + 32 ≤ range ∨
      (∃ i, testBit map i = true) ∧ ∃ i < 32 * map.length, testBit map i = false := by
  have hfirst := findFirstBit_iff hmap hsize
  have hzero := findFirstZeroBit_iff hmap hsize
  constructor
  · intro h
    obtain hsmall | hset := hfirst.mp h.first
    · exact .inl hsmall
    · exact (hzero.mp h.firstZero).imp_right fun hclear => ⟨hset, hclear⟩
  · intro h
    refine ⟨hfirst.mpr (h.imp_right And.left), hzero.mpr (h.imp_right And.right), ?_, ?_,
      fun bit hbit => bitmapGetBit_spec map bit hbit⟩
    · intro bit hbit
      obtain ⟨map', hmap'⟩ := bitmapSetBit_isSome map bit hbit
      exact ⟨map', hmap', bitmapSetBit_spec hmap'⟩
    · intro bit hbit
      obtain ⟨map', hmap'⟩ := bitmapClearBit_isSome map bit hbit
      exact ⟨map', hmap', bitmapClearBit_spec hmap'⟩

/-- A size that is not a multiple of 32. -/
theorem bitmapOps_partial : BitmapOps [0#32, 256#32] 41 :=
  (bitmapOps_iff (by decide) (by decide)).mpr (.inl (by decide))

/-- 512 MiB of zeros. -/
theorem bitmapOps_not_full : ¬ BitmapOps (List.replicate 134217728 0#32) 4294967295 := by
  intro h
  obtain ⟨n, hn, -⟩ := h.first
  have hzero : ∀ word ∈ List.replicate 134217728 0#32, word = 0#32 :=
    fun _ hword => List.eq_of_mem_replicate hword
  rw [findFirstBit, findFirstBitFrom_zeros (by decide) hzero] at hn
  cases hn

end Search

end Tenok.Ulong
