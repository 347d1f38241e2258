import Tenok.Common.CString
import Tenok.Kernel.PollDeadlines
import Tenok.Kernel.PrintkText
import Tenok.Lib.Numeral

/-!
`XTOA` of `printf.c`. The digits go into `reverse_BUF` from its end on, behind the minus sign, which
is the first to go in.
-/
namespace Tenok.Printf

def itoaBufLen : Nat := 32

def utoaBufLen : Nat := 32

def ultoaBufLen : Nat := 32

def minus : Byte := 45#8

def hexLetters : List Byte := [97#8, 98#8, 99#8, 100#8, 101#8, 102#8]

/-- `mem[i] = c`. -/
def put (mem : List Byte) (i : Int) (c : Byte) : Option (List Byte) :=
  if 0 ≤ i ∧ i < mem.length then some (mem.set i.toNat c) else none

/-- The variables of `XTOA`, with `last_digit` as an index of `reverse_BUF`. -/
structure Xtoa where
  reverseBuf : List Byte
  lastDigit : Int
  value : Int

def Xtoa.pass (radix : Int) (st : Xtoa) : Option Xtoa := do
  let remainder := st.value.tmod radix
  let reverseBuf ←
    if remainder < 10 then put st.reverseBuf st.lastDigit (BitVec.ofInt 8 (remainder + 48))
    else if radix = 16 then do
      let letter ← hexLetters[(remainder - 10).toNat]?
      put st.reverseBuf st.lastDigit letter
    else some st.reverseBuf
  some ⟨reverseBuf, st.lastDigit - 1, st.value.tdiv radix⟩

def Xtoa.loop (radix : Int) : Nat → Xtoa → Option Xtoa
  | 0, st => some st
  | n + 1, st => if st.value = 0 then some st else (st.pass radix).bind (loop radix n)

/-- The `strncpy` at the end, of what is behind `last_digit`. -/
def Xtoa.copy (bufSize : Nat) (buffer : List Byte) (st : Xtoa) : Option (List Byte) :=
  let str := st.lastDigit + 1
  let size := (bufSize - st.lastDigit).toNat
  if 0 ≤ str ∧ size ≤ buffer.length then
    some (strncpy (st.reverseBuf.drop str.toNat) size ++ buffer.drop size)
  else none

/-- `XTOA` for a type whose values `wrap` gives. -/
def xtoa (wrap : Int → Int) (bufSize : Nat) (value : Int) (buffer : List Byte) (radix : Int) :
    Option (List Byte) :=
  let reverseBuf := List.replicate (bufSize + 1) 0#8
  let lastDigit : Int := bufSize - 1
  if value < 0 then do
    let reverseBuf ← put reverseBuf lastDigit minus
    let st ← Xtoa.loop radix bufSize ⟨reverseBuf, lastDigit - 1, wrap (value * -1)⟩
    st.copy bufSize buffer
  else if value = 0 then do
    let buffer ← put buffer 0 48#8
    put buffer 1 0#8
  else do
    let st ← Xtoa.loop radix bufSize ⟨reverseBuf, lastDigit, value⟩
    st.copy bufSize buffer

def toUlong (n : Int) : Int := n % 2 ^ 32

def itoa (value : Word) (buffer : List Byte) (radix : Int) : Option (List Byte) :=
  xtoa toLong itoaBufLen value.toInt buffer radix

def utoa (value : Word) (buffer : List Byte) (radix : Int) : Option (List Byte) :=
  xtoa toUlong utoaBufLen value.toNat buffer radix

def ltoa (value : Word) (buffer : List Byte) (radix : Int) : Option (List Byte) :=
  xtoa toLong ltoaBufLen value.toInt buffer radix

def ultoa (value : Word) (buffer : List Byte) (radix : Int) : Option (List Byte) :=
  xtoa toUlong ultoaBufLen value.toNat buffer radix

/-- The radices that the macro has digits for. -/
def LegalRadix (radix : Nat) : Prop := 2 ≤ radix ∧ radix ≤ 10 ∨ radix = 16

instance decidableLegalRadix (radix : Nat) : Decidable (LegalRadix radix) :=
  inferInstanceAs (Decidable (_ ∨ _))

section Text

def remainderChar (r : Int) : Byte :=
  if r < 10 then BitVec.ofInt 8 (r + 48) else BitVec.ofInt 8 (r + 87)

def digitText (radix : Int) : Nat → Int → List Byte
  | 0, _ => []
  | n + 1, value =>
      if value = 0 then []
      else digitText radix n (value.tdiv radix) ++ [remainderChar (value.tmod radix)]

def xtoaText (wrap : Int → Int) (radix value : Int) : List Byte :=
  if value < 0 then digitText radix 32 (wrap (value * -1)) ++ [minus]
  else if value = 0 then [48#8]
  else digitText radix 32 value

/-- The variables with `m` bytes of `reverse_BUF` before the ones that are written. -/
def Xtoa.filled (m : Nat) (tail : List Byte) (value : Int) : Xtoa :=
  ⟨List.replicate m 0#8 ++ tail, m - 1, value⟩

variable {radix m n : Nat} {value r : Int} {tail t buffer : List Byte} {wrap : Int → Int}

theorem put_append (pre rest : List Byte) (b c : Byte) :
    put (pre ++ b :: rest) pre.length c = some (pre ++ c :: rest) := by
  have hlt : (pre.length : Int) < (pre ++ b :: rest).length := by
    rw [List.length_append, List.length_cons]
    omega
  rw [put, if_pos ⟨Int.natCast_nonneg _, hlt⟩, Int.toNat_natCast, List.set_append_right _ _ le_rfl,
    Nat.sub_self, List.set_cons_zero]

theorem put_length (mem : List Byte) (c : Byte) : put mem mem.length c = none :=
  if_neg fun h => absurd h.2 (Int.lt_irrefl _)

theorem put_replicate (m : Nat) (tail : List Byte) (c : Byte) :
    put (List.replicate (m + 1) 0#8 ++ tail) m c = some (List.replicate m 0#8 ++ c :: tail) := by
  have h := put_append (List.replicate m 0#8) tail 0#8 c
  rw [List.length_replicate] at h
  rw [List.replicate_succ', List.append_assoc, List.singleton_append, h]

theorem LegalRadix.two_le (h : LegalRadix radix) : 2 ≤ radix := by
  rcases h with h | h <;> omega

theorem LegalRadix.le (h : LegalRadix radix) : radix ≤ 16 := by
  rcases h with h | h <;> omega

theorem hexLetters_eq (hlow : 10 ≤ r) (hhigh : r < 16) :
    hexLetters[(r - 10).toNat]? = some (remainderChar r) := by
  obtain rfl | rfl | rfl | rfl | rfl | rfl :
    r = 10 ∨ r = 11 ∨ r = 12 ∨ r = 13 ∨ r = 14 ∨ r = 15 := by omega
  all_goals rfl

theorem Xtoa.pass_filled (hradix : LegalRadix radix) :
    (filled (m + 1) tail value).pass radix =
      some (filled m (remainderChar (value.tmod radix) :: tail) (value.tdiv radix)) := by
  have hpos : (0 : Int) < radix := by
    have := hradix.two_le
    omega
  have hlt := Int.tmod_lt_of_pos value hpos
  have hlast : ((m + 1 : Nat) : Int) - 1 = m := by omega
  simp only [pass, filled, hlast]
  by_cases hr : value.tmod radix < 10
  · simp [hr, remainderChar, put_replicate]
  · have hsixteen : (radix : Int) = 16 := by
      rcases hradix with h | h <;> omega
    have hletter := hexLetters_eq (Int.not_lt.mp hr) (by omega)
    rw [if_neg hr, if_pos hsixteen, hletter]
    simp [put_replicate]

theorem Xtoa.loop_filled (hradix : LegalRadix radix) (tail : List Byte)
    (hroom : (digitText radix n value).length ≤ m) :
    ∃ rest, loop radix n (filled m tail value) =
      some (filled (m - (digitText radix n value).length) (digitText radix n value ++ tail) rest) := by
  induction n generalizing m tail value with
  | zero => exact ⟨value, rfl⟩
  | succ n ih =>
      rw [digitText] at hroom ⊢
      by_cases hvalue : value = 0
      · exact ⟨value, by simp [loop, hvalue, filled]⟩
      · rw [if_neg hvalue, List.length_append, List.length_singleton] at hroom
        cases m with
        | zero => omega
        | succ m =>
            have hstep : loop radix (n + 1) (filled (m + 1) tail value) =
                loop radix n (filled m (remainderChar (value.tmod radix) :: tail)
                  (value.tdiv radix)) := by
              rw [loop, pass_filled hradix, Option.bind_some]
              exact if_neg hvalue
            obtain ⟨rest, hrest⟩ := ih (remainderChar (value.tmod radix) :: tail)
              (Nat.le_of_succ_le_succ hroom)
            refine ⟨rest, ?_⟩
            rw [hstep, hrest, if_neg hvalue, List.length_append, List.length_singleton,
              Nat.add_sub_add_right, List.append_assoc, List.singleton_append]

theorem strncpy_terminated (ht : 0#8 ∉ t) : strncpy (t ++ [0#8]) (t.length + 1) = t ++ [0#8] := by
  have htake : (t ++ [0#8]).takeWhile (· ≠ 0#8) = t := by
    rw [List.takeWhile_append_of_pos]
    · simp
    · intro b hb
      exact decide_eq_true fun h => ht (h ▸ hb)
  rw [strncpy, htake, List.take_of_length_le (Nat.le_succ _), Nat.add_sub_cancel_left]
  rfl

theorem Xtoa.copy_filled {bufSize : Nat} (hfull : m + t.length = bufSize) (ht : 0#8 ∉ t)
    (hbuffer : t.length < buffer.length) :
    (filled m (t ++ [0#8]) value).copy bufSize buffer =
      some (t ++ 0#8 :: buffer.drop (t.length + 1)) := by
  have hstr : ((m : Int) - 1 + 1).toNat = m := by omega
  have hsize : ((bufSize : Int) - (m - 1)).toNat = t.length + 1 := by omega
  simp only [copy, filled, hstr, hsize]
  rw [if_pos ⟨by omega, hbuffer⟩, List.drop_left' (List.length_replicate ..),
    strncpy_terminated ht, List.append_assoc, List.singleton_append]

theorem remainderChar_ne_zero (hlow : -16 < r) (hhigh : r < 16) : remainderChar r ≠ 0#8 := by
  rw [remainderChar]
  intro h
  split at h
  all_goals
    have hint := congrArg BitVec.toInt h
    rw [BitVec.toInt_ofInt, Int.bmod_eq_of_le (by omega) (by omega)] at hint
    change _ = (0 : Int) at hint
    omega

theorem zero_notMem_digitText (hradix : LegalRadix radix) : 0#8 ∉ digitText radix n value := by
  induction n generalizing value with
  | zero => exact List.not_mem_nil
  | succ n ih =>
      have htwo := hradix.two_le
      have hle := hradix.le
      have hlow := Int.lt_tmod_of_pos value (b := radix) (by omega)
      have hhigh := Int.tmod_lt_of_pos value (b := radix) (by omega)
      rw [digitText]
      split
      · exact List.not_mem_nil
      · rw [List.mem_append, List.mem_singleton]
        exact not_or.mpr ⟨ih, (remainderChar_ne_zero (by omega) (by omega)).symm⟩

theorem zero_notMem_xtoaText (hradix : LegalRadix radix) : 0#8 ∉ xtoaText wrap radix value := by
  rw [xtoaText]
  split
  · rw [List.mem_append, List.mem_singleton]
    exact not_or.mpr ⟨zero_notMem_digitText hradix, by decide⟩
  · split
    · decide
    · exact zero_notMem_digitText hradix

theorem Xtoa.copy_loop {bufSize : Nat} (hradix : LegalRadix radix) (hfull : m + t.length = bufSize)
    (hroom : (digitText radix n value).length ≤ m) (ht : 0#8 ∉ t)
    (hbuffer : (digitText radix n value ++ t).length < buffer.length) :
    ((loop radix n (filled m (t ++ [0#8]) value)).bind fun st => st.copy bufSize buffer) =
      some ((digitText radix n value ++ t) ++
        0#8 :: buffer.drop ((digitText radix n value ++ t).length + 1)) := by
  obtain ⟨rest, hrest⟩ := loop_filled hradix (t ++ [0#8]) hroom
  have hnul : 0#8 ∉ digitText radix n value ++ t := by
    rw [List.mem_append]
    exact not_or.mpr ⟨zero_notMem_digitText hradix, ht⟩
  rw [hrest, Option.bind_some, ← List.append_assoc]
  apply copy_filled _ hnul hbuffer
  rw [List.length_append]
  omega

theorem xtoa_eq (hradix : LegalRadix radix) (htext : (xtoaText wrap radix value).length ≤ 32)
    (hbuffer : (xtoaText wrap radix value).length < buffer.length) :
    xtoa wrap 32 value buffer radix = some (xtoaText wrap radix value ++
      0#8 :: buffer.drop ((xtoaText wrap radix value).length + 1)) := by
  rw [xtoaText] at htext hbuffer ⊢
  rw [xtoa]
  by_cases hneg : value < 0
  · simp only [if_pos hneg] at htext hbuffer ⊢
    rw [List.length_append, List.length_singleton] at htext
    have hput : put (List.replicate (32 + 1) 0#8) ((32 : Nat) - 1) minus =
        some (List.replicate 31 0#8 ++ [minus, 0#8]) := put_replicate 31 [0#8] minus
    rw [hput]
    exact Xtoa.copy_loop (m := 31) (t := [minus]) hradix rfl (Nat.le_of_succ_le_succ htext)
      (by decide) hbuffer
  · simp only [if_neg hneg] at htext hbuffer ⊢
    by_cases hzero : value = 0
    · simp only [if_pos hzero] at hbuffer ⊢
      rcases buffer with _ | ⟨b, _ | ⟨c, rest⟩⟩
      · cases hbuffer
      · simp at hbuffer
      · have hpos : (0 : Int) < rest.length + 1 + 1 := by omega
        simp [put, hpos]
    · simp only [if_neg hzero] at htext hbuffer ⊢
      rw [← List.append_nil (digitText radix 32 value)] at hbuffer ⊢
      exact Xtoa.copy_loop (m := 32) (t := []) hradix rfl htext List.not_mem_nil hbuffer

end Text

section Canonical

def digitChar (d : Nat) : Byte := BitVec.ofNat 8 (if d < 10 then 48 + d else 87 + d)

/-- A minus sign for the negative values, then the digits without leading zeros. -/
def IsCanonical (radix : Nat) (value : Int) (t : List Byte) : Prop :=
  ∃ l, Numeral.IsNumeral radix value.natAbs l ∧
    t = (if value < 0 then [minus] else []) ++ l.map digitChar

def digitOf (radix : Nat) (c : Byte) : Option Nat :=
  let d :=
    if 48 ≤ c.toNat ∧ c.toNat < 58 then c.toNat - 48
    else if 97 ≤ c.toNat then c.toNat - 87
    else radix
  if d < radix then some d else none

def readDigits (radix : Nat) (t : List Byte) : Option Nat :=
  (t.mapM (digitOf radix)).map (Numeral.value radix)

def readText (radix : Nat) : List Byte → Option Int
  | [] => none
  | c :: t =>
      if c = minus then (readDigits radix t).map fun n : Nat => -(n : Int)
      else (readDigits radix (c :: t)).map fun n : Nat => (n : Int)

/-- The buffer has the canonical numeral with its end, in `sizeof(type) * 8 + 1` bytes where the
value is not negative, and what is behind it is as before. -/
def Writes (radix : Nat) (value : Int) (buffer : List Byte) (written : Option (List Byte)) : Prop :=
  ∃ t, IsCanonical radix value t ∧ readText radix t = some value ∧
    (0 ≤ value → t.length + 1 ≤ 33) ∧ written = some (t ++ 0#8 :: buffer.drop (t.length + 1))

variable {radix d k n : Nat} {value : Int} {l : List Nat} {t buffer : List Byte}

theorem digitOf_digitChar (hradix : LegalRadix radix) (hd : d < radix) :
    digitOf radix (digitChar d) = some d := by
  have hle := hradix.le
  have hvalue : (digitChar d).toNat = if d < 10 then 48 + d else 87 + d := by
    rw [digitChar, BitVec.toNat_ofNat, Nat.mod_eq_of_lt]
    split <;> omega
  have hdigit : (if 48 ≤ (digitChar d).toNat ∧ (digitChar d).toNat < 58 then
      (digitChar d).toNat - 48 else if 97 ≤ (digitChar d).toNat then (digitChar d).toNat - 87
      else radix) = d := by
    rw [hvalue]
    split_ifs <;> omega
  rw [digitOf]
  simp only [hdigit, if_pos hd]

theorem readDigits_map (hradix : LegalRadix radix) (hl : ∀ d ∈ l, d < radix) :
    readDigits radix (l.map digitChar) = some (Numeral.value radix l) := by
  have hmap : (l.map digitChar).mapM (digitOf radix) = some l := by
    induction l with
    | nil => rfl
    | cons d l ih =>
        obtain ⟨hd, hl⟩ := List.forall_mem_cons.mp hl
        rw [List.map_cons, List.mapM_cons, digitOf_digitChar hradix hd, ih hl]
        rfl
  rw [readDigits, hmap, Option.map_some]

theorem digitChar_ne_minus (hd : d < 16) : digitChar d ≠ minus := by
  intro h
  have hnat := congrArg BitVec.toNat h
  rw [digitChar, BitVec.toNat_ofNat] at hnat
  change _ = 45 at hnat
  split at hnat <;> omega

theorem digitChar_ne_zero (hd : d < 16) : digitChar d ≠ 0#8 := by
  intro h
  have hnat := congrArg BitVec.toNat h
  rw [digitChar, BitVec.toNat_ofNat] at hnat
  change _ = 0 at hnat
  split at hnat <;> omega

theorem IsCanonical.readText (hradix : LegalRadix radix) (h : IsCanonical radix value t) :
    readText radix t = some value := by
  obtain ⟨l, hl, rfl⟩ := h
  have hdigits := readDigits_map hradix hl.lt_base
  rw [hl.value] at hdigits
  by_cases hneg : value < 0
  · rw [if_pos hneg, List.singleton_append, Printf.readText, if_pos rfl, hdigits, Option.map_some]
    congr 1
    omega
  · rw [if_neg hneg, List.nil_append]
    cases l with
    | nil => exact absurd rfl hl.ne_nil
    | cons d l =>
        have hd := hl.lt_base d List.mem_cons_self
        have hle := hradix.le
        rw [List.map_cons, Printf.readText, if_neg (digitChar_ne_minus (by omega)),
          ← List.map_cons, hdigits, Option.map_some]
        congr 1
        omega

theorem remainderChar_natCast (d : Nat) : remainderChar d = digitChar d := by
  have hcast (k : Nat) : BitVec.ofInt 8 k = BitVec.ofNat 8 k := BitVec.ofInt_natCast 8 k
  rw [remainderChar, digitChar]
  split_ifs with h h' h'
  · rw [← hcast, Int.natCast_add, Int.add_comm]
    rfl
  · omega
  · omega
  · rw [← hcast, Int.natCast_add, Int.add_comm]
    rfl

theorem digitText_natCast (hradix : LegalRadix radix) (hn : n < radix ^ k) :
    digitText radix k n = (Nat.digits radix n).reverse.map digitChar := by
  have htwo := hradix.two_le
  induction k generalizing n with
  | zero =>
      have hzero : n = 0 := by simpa using hn
      rw [hzero, Nat.digits_zero]
      rfl
  | succ k ih =>
      rw [digitText]
      split
      next hzero =>
        rw [Int.natCast_eq_zero.mp hzero, Nat.digits_zero]
        rfl
      next hne =>
        have hpos : 0 < n := by omega
        have hdiv : n / radix < radix ^ k := by
          rw [Nat.pow_succ'] at hn
          exact Nat.div_lt_of_lt_mul hn
        rw [Nat.digits_def' htwo hpos, List.reverse_cons, List.map_append, ← ih hdiv,
          ← Int.ofNat_tdiv, ← Int.ofNat_tmod, remainderChar_natCast]
        rfl

def natText (radix n : Nat) : List Byte := (Numeral.numeral radix n).map digitChar

theorem length_digitText (hvalue : value.natAbs < radix ^ k) :
    (digitText radix n value).length ≤ k := by
  induction n generalizing value k with
  | zero => exact Nat.zero_le _
  | succ n ih =>
      rw [digitText]
      split
      · exact Nat.zero_le _
      next hne =>
        cases k with
        | zero =>
            rw [Nat.pow_zero] at hvalue
            omega
        | succ k =>
            have hdiv : (value.tdiv radix).natAbs < radix ^ k := by
              rw [Nat.pow_succ'] at hvalue
              rw [Int.natAbs_tdiv, Int.natAbs_natCast]
              exact Nat.div_lt_of_lt_mul hvalue
            have hlen := ih hdiv
            rw [List.length_append, List.length_singleton]
            omega

theorem terminated_inj {w w' rest rest' : List Byte} (hw : 0#8 ∉ w) (hw' : 0#8 ∉ w')
    (h : w ++ 0#8 :: rest = w' ++ 0#8 :: rest') : w = w' := by
  have hstring : stringAt ([] ++ (w ++ 0#8 :: rest)) 0 = some w := stringAt_append hw rfl
  have hstring' : stringAt ([] ++ (w' ++ 0#8 :: rest')) 0 = some w' := stringAt_append hw' rfl
  rw [h, hstring', Option.some.injEq] at hstring
  exact hstring.symm

theorem lt_pow (hradix : LegalRadix radix) (hn : n < 2 ^ k) : n < radix ^ k :=
  Nat.lt_of_lt_of_le hn (Nat.pow_le_pow_left hradix.two_le k)

theorem digitText_of_pos (hradix : LegalRadix radix) (hpos : 0 < n) (hn : n < 2 ^ 32) :
    digitText radix 32 n = natText radix n := by
  rw [digitText_natCast hradix (lt_pow hradix hn), natText, Numeral.numeral_of_pos hpos]

theorem xtoaText_natCast (wrap : Int → Int) (hradix : LegalRadix radix) (hn : n < 2 ^ 32) :
    xtoaText wrap radix n = natText radix n := by
  rw [xtoaText, if_neg (by omega)]
  split
  next hzero =>
    rw [Int.natCast_eq_zero.mp hzero]
    rfl
  next hne => exact digitText_of_pos hradix (by omega) hn

theorem toLong_neg (hlow : -2147483648 < value) (hneg : value < 0) :
    toLong (value * -1) = value.natAbs := by
  rw [toLong_eq (by omega) (by omega)]
  omega

theorem xtoaText_neg (hradix : LegalRadix radix) (hlow : -2147483648 < value) (hneg : value < 0) :
    xtoaText toLong radix value = natText radix value.natAbs ++ [minus] := by
  rw [xtoaText, if_pos hneg, toLong_neg hlow hneg, digitText_of_pos hradix (by omega) (by omega)]

theorem length_natText (hradix : LegalRadix radix) (hn : n < 2 ^ 32) :
    (natText radix n).length ≤ 32 := by
  rw [natText, List.length_map]
  exact Numeral.length_numeral_le hradix.two_le (by decide) (lt_pow hradix hn)

theorem isCanonical_natText (hradix : LegalRadix radix) : IsCanonical radix n (natText radix n) :=
  ⟨_, Numeral.isNumeral_numeral hradix.two_le n, by rw [if_neg (by omega)]; rfl⟩

theorem writes_natCast (wrap : Int → Int) (hradix : LegalRadix radix)
    (hbuffer : 33 ≤ buffer.length) (hn : n < 2 ^ 32) :
    Writes radix n buffer (xtoa wrap 32 n buffer radix) := by
  have hlen := length_natText hradix hn
  have htext := xtoaText_natCast wrap hradix hn
  have hcanonical := isCanonical_natText (n := n) hradix
  refine ⟨natText radix n, hcanonical, hcanonical.readText hradix, ?_, ?_⟩
  · intro _
    omega
  · rw [← htext] at hlen ⊢
    exact xtoa_eq hradix hlen (by omega)

theorem IsCanonical.getLast?_ne (hradix : LegalRadix radix) (h : IsCanonical radix value t) :
    t.getLast? ≠ some minus := by
  obtain ⟨l, hl, rfl⟩ := h
  have hle := hradix.le
  rw [List.getLast?_append_of_ne_nil _ (by simpa using hl.ne_nil), List.getLast?_map]
  intro hlast
  obtain ⟨d, hd, hchar⟩ := Option.map_eq_some_iff.mp hlast
  have hlt := hl.lt_base d (List.mem_of_getLast? hd)
  exact digitChar_ne_minus (by omega) hchar

theorem IsCanonical.zero_notMem (hradix : LegalRadix radix) (h : IsCanonical radix value t) :
    0#8 ∉ t := by
  obtain ⟨l, hl, rfl⟩ := h
  have hle := hradix.le
  rw [List.mem_append, not_or]
  refine ⟨by split <;> decide, ?_⟩
  intro hmem
  obtain ⟨d, hd, hchar⟩ := List.mem_map.mp hmem
  have hlt := hl.lt_base d hd
  exact digitChar_ne_zero (by omega) hchar

theorem length_xtoaText (hradix : LegalRadix radix) (hlow : -2147483648 ≤ value)
    (hhigh : value < 2147483648) (hmin : ¬ (radix = 2 ∧ value = -2147483648)) :
    (xtoaText toLong radix value).length ≤ 32 := by
  by_cases hneg : value < 0
  · rw [xtoaText, if_pos hneg, List.length_append, List.length_singleton]
    apply Nat.succ_le_succ
    apply length_digitText
    by_cases hvalue : value = -2147483648
    · have hthree : 3 ≤ radix := by
        have := hradix.two_le
        omega
      have hpow : 2147483648 < 3 ^ 31 := by decide
      rw [hvalue]
      exact Nat.lt_of_lt_of_le hpow (Nat.pow_le_pow_left hthree 31)
    · rw [toLong_neg (by omega) hneg]
      exact lt_pow hradix (by omega)
  · obtain ⟨n, rfl⟩ := Int.eq_ofNat_of_zero_le (Int.not_lt.mp hneg)
    rw [xtoaText_natCast toLong hradix (by omega)]
    exact length_natText hradix (by omega)

theorem digitText_ten (n : Nat) (value : Int) : digitText 10 n value = xtoaDigits n value := by
  induction n generalizing value with
  | zero => rfl
  | succ n ih =>
      have hlt : value.tmod 10 < 10 := Int.tmod_lt_of_pos value (by decide)
      rw [digitText, xtoaDigits, ih, remainderChar, if_pos hlt]

/-- The buffer holds the text that `printk` puts into its time stamp. -/
theorem ltoa_eq (hbuffer : 33 ≤ buffer.length) (value : Word) :
    ltoa value buffer 10 = some (Tenok.ltoa value.toInt ++
      0#8 :: buffer.drop ((Tenok.ltoa value.toInt).length + 1)) := by
  have htext : xtoaText toLong 10 value.toInt = Tenok.ltoa value.toInt := by
    rw [xtoaText, Tenok.ltoa, digitText_ten, digitText_ten, Int.mul_neg_one]
    rfl
  have hlow := value.le_toInt
  have hhigh := value.toInt_lt
  have hlen : (xtoaText toLong 10 value.toInt).length ≤ 32 :=
    length_xtoaText (by decide) (by omega) (by omega) (fun h => absurd h.1 (by decide))
  rw [← htext]
  exact xtoa_eq (by decide) hlen (Nat.lt_of_le_of_lt hlen hbuffer)

theorem not_writes_of_neg (hradix : LegalRadix radix) (hbuffer : 33 ≤ buffer.length)
    (hlow : -2147483648 ≤ value) (hneg : value < 0) :
    ¬ Writes radix value buffer (xtoa toLong 32 value buffer radix) := by
  rintro ⟨t, hcanonical, -, -, hwritten⟩
  by_cases hmin : radix = 2 ∧ value = -2147483648
  · obtain ⟨rfl, rfl⟩ := hmin
    -- `VALUE *= -1` overflows, and the sign and 32 digits are more than `reverse_BUF` holds.
    have hnone : xtoa toLong 32 (-2147483648) buffer (2 : Nat) = none := rfl
    rw [hnone] at hwritten
    cases hwritten
  · have hlen := length_xtoaText hradix hlow (by omega) hmin
    have htext : (xtoaText toLong radix value).getLast? = some minus := by
      rw [xtoaText, if_pos hneg, List.getLast?_concat]
    rw [xtoa_eq hradix hlen (by omega), Option.some.injEq] at hwritten
    have heq := terminated_inj (zero_notMem_xtoaText hradix) (hcanonical.zero_notMem hradix) hwritten
    rw [heq] at htext
    exact hcanonical.getLast?_ne hradix htext

end Canonical

/-- `itoa` and `ltoa` write the numeral of a value exactly when it is not negative, `utoa` and
`ultoa` write it always. -/
theorem writes_iff {radix : Nat} {buffer : List Byte} (hradix : LegalRadix radix)
    (hbuffer : 33 ≤ buffer.length) (value : Word) :
    (Writes radix value.toInt buffer (itoa value buffer radix) ↔ 0 ≤ value.toInt) ∧
      (Writes radix value.toInt buffer (ltoa value buffer radix) ↔ 0 ≤ value.toInt) ∧
      Writes radix value.toNat buffer (utoa value buffer radix) ∧
      Writes radix value.toNat buffer (ultoa value buffer radix) := by
  have hsigned : Writes radix value.toInt buffer (xtoa toLong 32 value.toInt buffer radix) ↔
      0 ≤ value.toInt := by
    refine ⟨fun h => ?_, fun h => ?_⟩
    · by_contra hneg
      exact not_writes_of_neg hradix hbuffer value.le_toInt (by omega) h
    · obtain ⟨n, hn⟩ := Int.eq_ofNat_of_zero_le h
      have hlt := value.toInt_lt
      rw [hn] at hlt ⊢
      exact writes_natCast toLong hradix hbuffer (by omega)
  have hunsigned := writes_natCast toUlong hradix hbuffer value.isLt
  exact ⟨hsigned, hsigned, hunsigned, hunsigned⟩

theorem writes_minusFive :
    ¬ Writes 10 (-5#32).toInt (List.replicate 33 0#8) (itoa (-5#32) (List.replicate 33 0#8) 10) ∧
      Writes 16 (-5#32).toNat (List.replicate 33 0#8) (utoa (-5#32) (List.replicate 33 0#8) 16) :=
  ⟨fun h => absurd ((writes_iff (by decide) (by decide) _).1.mp h) (by decide),
    (writes_iff (by decide) (by decide) _).2.2.1⟩

/-- `itoa(-5, buffer, 10)` writes `5-`. -/
theorem itoa_minusFive :
    itoa (-5#32) (List.replicate 33 0#8) 10 = some ([53#8, 45#8] ++ List.replicate 31 0#8) ∧
      ¬ Writes 10 (-5#32).toInt (List.replicate 33 0#8)
        (itoa (-5#32) (List.replicate 33 0#8) 10) :=
  ⟨by decide, not_writes_of_neg (by decide) (by decide) (by decide) (by decide)⟩

end Tenok.Printf
