import Tenok.Kernel.Itoa

/-!
The formatter of `printf.c`. Its size check counts the characters of the format, and the digits of a
width go into the same array as the padding.
-/
namespace Tenok.Printf

def percent : Byte := 37#8

def zero : Byte := 48#8

def hexLead : List Byte := [48#8, 120#8]

/-- The cases of `switch (format[pos])` that take an argument, `"scoxpdu"`. -/
def specifiers : List Byte := [115#8, 99#8, 111#8, 120#8, 112#8, 100#8, 117#8]

def isDigit (c : Byte) : Bool := decide (48 ≤ c.toNat ∧ c.toNat ≤ 57)

def bufSize : Nat := 100

/-- An argument: a string, or what is passed as a word. -/
inductive Arg
  | str (s : List Byte)
  | word (w : Word)

/-- The variables of `__vsnprintf`. -/
structure Formatter where
  str : List Byte
  padWithZeros : Bool
  buf : List Byte
  bufPos : Nat
  ap : List Arg
  /-- Whether the inner loop is running. -/
  inside : Bool

/-- `atoi` of digits. It is undefined for what is not an `int`. -/
def atoi (s : List Byte) : Option Nat :=
  let n := Numeral.value 10 ((s.takeWhile isDigit).map fun c => c.toNat - 48)
  if n < 2147483648 then some n else none

/-- `for (int i = 0; i < n; i++) mem[i] = c`. -/
def fill (c : Byte) : Nat → List Byte → Option (List Byte)
  | 0, mem => some mem
  | n + 1, mem => (fill c n mem).bind fun mem => put mem n c

def formatWrite (formatStr : List Byte) (f : Formatter) : Option Formatter := do
  let paddingStr ← put f.buf f.bufPos 0#8
  let digits ← stringAt paddingStr 0
  let desiredLen ← atoi digits
  let symbol := if f.padWithZeros then zero else space
  if desiredLen ≤ formatStr.length then
    some { f with str := f.str ++ formatStr, padWithZeros := false, buf := paddingStr, bufPos := 0 }
  else do
    let paddingSize := desiredLen - formatStr.length
    let paddingStr ← fill symbol paddingSize paddingStr
    let paddingStr ← put paddingStr paddingSize 0#8
    let padding ← stringAt paddingStr 0
    some { f with
      str := f.str ++ padding ++ formatStr, padWithZeros := false, buf := paddingStr, bufPos := 0 }

def cStr (c : Byte) : List Byte := if c = 0#8 then [] else [c]

/-- The string that a function of `XTOA` leaves in an array of `sizeof(type) * 8 + 1` bytes. -/
def numberStr (write : List Byte → Option (List Byte)) : Option (List Byte) :=
  (write (List.replicate 33 0#8)).bind fun buffer => stringAt buffer 0

def formatStr (c : Byte) : Arg → Option (List Byte)
  | .str s => if c = 115#8 then some s else none
  | .word w =>
      if c = 99#8 then some (cStr (w.setWidth 8))
      else if c = 111#8 then numberStr fun buffer => itoa w buffer 8
      else if c = 120#8 then numberStr fun buffer => itoa w buffer 16
      else if c = 112#8 then numberStr fun buffer => ultoa w buffer 16
      else if c = 100#8 then numberStr fun buffer => itoa w buffer 10
      else if c = 117#8 then numberStr fun buffer => utoa w buffer 10
      else none

namespace Formatter

def convert (c : Byte) (f : Formatter) : Option Formatter :=
  match f.ap with
  | [] => none
  | arg :: ap => do
      let s ← formatStr c arg
      let str := if c = 112#8 then f.str ++ hexLead else f.str
      formatWrite s { f with str, ap, inside := false }

/-- What the loops do with a character of the format. -/
def read (f : Formatter) (c : Byte) : Option Formatter :=
  if f.inside = false then
    if c = percent then some { f with inside := true }
    else some { f with str := f.str ++ [c], padWithZeros := false, bufPos := 0 }
  else if c = zero ∧ f.bufPos = 0 then some { f with padWithZeros := true }
  else if isDigit c then do
    let buf ← put f.buf f.bufPos c
    some { f with buf, bufPos := f.bufPos + 1 }
  else if c ∈ specifiers then f.convert c
  else some f

end Formatter

/-- The loops of `__vsnprintf` from `pos` on. What they return is the string. -/
def vsnprintfFrom (size : Nat) (checkSize : Bool) :
    List Byte → Nat → Formatter → Option (List Byte)
  | [], _, f => some f.str
  | c :: format, pos, f =>
      if checkSize = true ∧ size ≤ pos then some f.str
      else (f.read c).bind (vsnprintfFrom size checkSize format (pos + 1))

/-- `__vsnprintf`: `buf` is what the array has on the stack, and `format` the string without its end. -/
def innerVsnprintf (buf : List Byte) (size : Nat) (checkSize : Bool) (format : List Byte)
    (ap : List Arg) : Option (List Byte) :=
  vsnprintfFrom size checkSize format 0 ⟨[], false, buf, 0, ap, false⟩

def vsnprintf (buf : List Byte) (size : Nat) (format : List Byte) (ap : List Arg) :
    Option (List Byte) :=
  innerVsnprintf buf size true format ap

def widthText (width : Nat) : List Byte := if width = 0 then [] else natText 10 width

/-- The character in front of what is shorter than its width. -/
def padSymbol (zeros : Bool) : Byte := if zeros then zero else space

section FormatWrite
variable {c : Byte} {d n width : Nat} {mem rest s digits str : List Byte} {zeros inside : Bool}
  {ap : List Arg}

theorem stringAt_zero (hs : 0#8 ∉ s) : stringAt (s ++ 0#8 :: rest) 0 = some s := by
  have h : stringAt ([] ++ (s ++ 0#8 :: rest)) 0 = some s := stringAt_append hs rfl
  exact h

theorem fill_of_le (h : n ≤ mem.length) :
    fill c n mem = some (List.replicate n c ++ mem.drop n) := by
  induction n with
  | zero => rfl
  | succ n ih =>
      have hput := put_append (List.replicate n c) (mem.drop (n + 1)) mem[n] c
      rw [List.length_replicate, List.getElem_cons_drop] at hput
      rw [fill, ih (by omega), Option.bind_some, hput, List.replicate_succ', List.append_assoc]
      rfl

theorem fill_of_lt (h : mem.length < n) : fill c n mem = none := by
  induction n with
  | zero => cases h
  | succ n ih =>
      rw [fill]
      by_cases hlt : mem.length < n
      · rw [ih hlt, Option.bind_none]
      · have hn : n = mem.length := by omega
        have hput := put_length (List.replicate n c) c
        rw [List.length_replicate] at hput
        rw [fill_of_le (Nat.le_of_not_lt hlt), Option.bind_some, hn, List.drop_length,
          List.append_nil, ← hn, hput]

theorem toNat_digitChar (hd : d < 10) : (digitChar d).toNat = 48 + d := by
  rw [digitChar, if_pos hd, BitVec.toNat_ofNat, Nat.mod_eq_of_lt (by omega)]

theorem isDigit_digitChar (hd : d < 10) : isDigit (digitChar d) = true := by
  rw [isDigit, toNat_digitChar hd]
  exact decide_eq_true (by omega)

theorem isDigit_widthText (hc : c ∈ widthText width) : isDigit c = true := by
  rw [widthText] at hc
  split at hc
  · cases hc
  · obtain ⟨d, hd, rfl⟩ := List.mem_map.mp hc
    exact isDigit_digitChar ((Numeral.isNumeral_numeral (by decide) width).lt_base d hd)

theorem zero_notMem_widthText : 0#8 ∉ widthText width := fun h => by
  cases isDigit_widthText h

theorem atoi_widthText : atoi (widthText width) = if width < 2147483648 then some width else none := by
  have hvalue : Numeral.value 10 (((widthText width).takeWhile isDigit).map fun c => c.toNat - 48) =
      width := by
    rw [List.takeWhile_eq_self_iff.mpr fun c hc => isDigit_widthText hc, widthText]
    split
    next h => exact h.symm
    next h =>
      have hnumeral := Numeral.isNumeral_numeral (b := 10) (by decide) width
      have hmap : (natText 10 width).map (fun c => c.toNat - 48) = Numeral.numeral 10 width := by
        have hdigit : ∀ d ∈ Numeral.numeral 10 width,
            ((fun c : Byte => c.toNat - 48) ∘ digitChar) d = id d := by
          intro d hd
          rw [Function.comp_apply, toNat_digitChar (hnumeral.lt_base d hd), Nat.add_sub_cancel_left,
            id_eq]
        rw [natText, List.map_map, List.map_congr_left hdigit, List.map_id]
      rw [hmap, hnumeral.value]
  rw [atoi, hvalue]

theorem zero_notMem_padding : 0#8 ∉ List.replicate n (padSymbol zeros) := by
  intro h
  have heq := (List.mem_replicate.mp h).2
  cases zeros <;> cases heq

/-- The width is read from the digits, which are no longer needed when the padding comes. -/
theorem formatWrite_width {b : Byte} (hwidth : width < 2147483648) :
    formatWrite s
        ⟨str, zeros, widthText width ++ b :: rest, (widthText width).length, ap, inside⟩ =
      if width ≤ s.length then
        some ⟨str ++ s, false, widthText width ++ 0#8 :: rest, 0, ap, inside⟩
      else
        (fill (padSymbol zeros) (width - s.length) (widthText width ++ 0#8 :: rest)).bind
          fun paddingStr => (put paddingStr (width - s.length : Nat) 0#8).bind
            fun paddingStr => (stringAt paddingStr 0).bind
              fun padding => some ⟨str ++ padding ++ s, false, paddingStr, 0, ap, inside⟩ := by
  rw [formatWrite]
  simp only [put_append, Option.bind_eq_bind, Option.bind_some, stringAt_zero zero_notMem_widthText,
    atoi_widthText, if_pos hwidth]
  rfl

/-- `format_write` pads a string whose width is below the range of an `int` and not more than 99
longer. -/
theorem formatWrite_some (str : List Byte) (zeros inside : Bool) (ap : List Arg)
    (hlen : (widthText width ++ rest).length = bufSize)
    (hrest : rest ≠ []) (hwidth : width < 2147483648) (hpad : width ≤ s.length + 99) :
    ∃ buf, buf.length = bufSize ∧
      formatWrite s ⟨str, zeros, widthText width ++ rest, (widthText width).length, ap, inside⟩ =
        some ⟨str ++ List.replicate (width - s.length) (padSymbol zeros) ++ s, false, buf, 0, ap,
          inside⟩ := by
  obtain ⟨b, rest, rfl⟩ := List.exists_cons_of_ne_nil hrest
  have hbuf : (widthText width ++ 0#8 :: rest).length = bufSize := by simpa using hlen
  rw [formatWrite_width hwidth]
  generalize widthText width ++ 0#8 :: rest = mem at hbuf
  split
  next h => exact ⟨mem, hbuf, by rw [Nat.sub_eq_zero_of_le h, List.replicate_zero, List.append_nil]⟩
  next h =>
    generalize hn : width - s.length = n
    have hlt : n < mem.length := by
      rw [hbuf, bufSize]
      omega
    have hput := put_append (List.replicate n (padSymbol zeros)) (mem.drop (n + 1)) mem[n] 0#8
    rw [List.length_replicate, List.getElem_cons_drop] at hput
    refine ⟨List.replicate n (padSymbol zeros) ++ 0#8 :: mem.drop (n + 1), ?_, ?_⟩
    · rw [← hbuf, List.length_append, List.length_replicate, List.length_cons, List.length_drop]
      omega
    · simp only [fill_of_le (Nat.le_of_lt hlt), Option.bind_some, hput,
        stringAt_zero zero_notMem_padding]

theorem formatWrite_none (str : List Byte) (zeros inside : Bool) (ap : List Arg)
    (hlen : (widthText width ++ rest).length = bufSize)
    (h : 2147483648 ≤ width ∨ s.length + 99 < width) :
    formatWrite s ⟨str, zeros, widthText width ++ rest, (widthText width).length, ap, inside⟩ =
      none := by
  cases rest with
  | nil =>
      rw [formatWrite, List.append_nil]
      simp only [put_length, Option.bind_eq_bind, Option.bind_none]
  | cons b rest =>
      by_cases hwidth : width < 2147483648
      · have hbuf : (widthText width ++ 0#8 :: rest).length = bufSize := by simpa using hlen
        rw [formatWrite_width hwidth, if_neg (by omega)]
        generalize widthText width ++ 0#8 :: rest = mem at hbuf
        by_cases hfill : width - s.length ≤ mem.length
        · have hfull : width - s.length = mem.length := by
            rw [hbuf, bufSize] at hfill ⊢
            omega
          have hput := put_length (List.replicate mem.length (padSymbol zeros)) 0#8
          rw [List.length_replicate] at hput
          simp only [hfull, fill_of_le le_rfl, List.drop_length, List.append_nil,
            Option.bind_some, hput, Option.bind_none]
        · simp only [fill_of_lt (Nat.lt_of_not_le hfill), Option.bind_none]
      · rw [formatWrite]
        simp only [put_append, Option.bind_eq_bind, Option.bind_some,
          stringAt_zero zero_notMem_widthText, atoi_widthText, if_neg hwidth, Option.bind_none]

end FormatWrite

/-- What a `char *` argument points to. -/
structure Text where
  bytes : List Byte
  nul : 0#8 ∉ bytes

/-- A specifier with its argument. -/
inductive Conversion
  | s (text : Text)
  | c (w : Word)
  | o (w : Word)
  | x (w : Word)
  | p (w : Word)
  | d (w : Word)
  | u (w : Word)

namespace Conversion

def char : Conversion → Byte
  | s _ => 115#8
  | c _ => 99#8
  | o _ => 111#8
  | x _ => 120#8
  | p _ => 112#8
  | d _ => 100#8
  | u _ => 117#8

def arg : Conversion → Arg
  | s text => .str text.bytes
  | c w | o w | x w | p w | d w | u w => .word w

/-- What comes in front of the argument and its padding. -/
def lead : Conversion → List Byte
  | p _ => hexLead
  | _ => []

/-- The string that the specifier passes to `format_write`. -/
def written : Conversion → List Byte
  | s text => text.bytes
  | c w => cStr (w.setWidth 8)
  | o w => xtoaText toLong 8 w.toInt
  | x w => xtoaText toLong 16 w.toInt
  | p w => natText 16 w.toNat
  | d w => xtoaText toLong 10 w.toInt
  | u w => natText 10 w.toNat

end Conversion

/-- A character of the format, or a specifier with an optional zero flag and width. -/
inductive Directive
  | plain (c : Byte) (h : c ≠ 0#8 ∧ c ≠ percent)
  | conv (zeros : Bool) (width : Nat) (k : Conversion)

def zeroFlag (zeros : Bool) : List Byte := if zeros then [zero] else []

namespace Directive

def format : Directive → List Byte
  | plain c _ => [c]
  | conv zeros width k => percent :: (zeroFlag zeros ++ widthText width ++ [k.char])

def args : Directive → List Arg
  | plain _ _ => []
  | conv _ _ k => [k.arg]

def piece : Directive → List Byte
  | plain c _ => [c]
  | conv zeros width k =>
      k.lead ++ List.replicate (width - k.written.length) (padSymbol zeros) ++ k.written

/-- The width is an `int`, and `buf` holds the padding. -/
def Holds : Directive → Prop
  | plain _ _ => True
  | conv _ width k => width < 2147483648 ∧ width ≤ k.written.length + 99

/-- `buf` holds the digits among the first `n` characters. -/
def HoldsCut (n : Nat) : Directive → Prop
  | plain _ _ => True
  | conv zeros _ _ => n ≤ (zeroFlag zeros).length + 101

instance decidableHolds (d : Directive) : Decidable d.Holds :=
  match d with
  | plain _ _ => .isTrue trivial
  | conv _ width k =>
      inferInstanceAs (Decidable (width < 2147483648 ∧ width ≤ k.written.length + 99))

instance decidableHoldsCut (n : Nat) (d : Directive) : Decidable (d.HoldsCut n) :=
  match d with
  | plain _ _ => .isTrue trivial
  | conv zeros _ _ => inferInstanceAs (Decidable (n ≤ (zeroFlag zeros).length + 101))

end Directive

def Formatter.outside (str buf : List Byte) (ap : List Arg) : Formatter :=
  ⟨str, false, buf, 0, ap, false⟩

section Read
variable {c : Byte} {k : Conversion} {d size pos n width radix : Nat} {value : Int}
  {str buf pre rest l format : List Byte} {zeros : Bool} {ap : List Arg} {f : Formatter}
  {wrap : Int → Int}

theorem vsnprintfFrom_checked :
    vsnprintfFrom size true format pos f =
      ((format.take (size - pos)).foldlM Formatter.read f).map Formatter.str := by
  induction format generalizing pos f with
  | nil => simp [vsnprintfFrom]
  | cons c format ih =>
      rw [vsnprintfFrom]
      by_cases hpos : size ≤ pos
      · rw [if_pos ⟨rfl, hpos⟩, Nat.sub_eq_zero_of_le hpos]
        rfl
      · obtain ⟨m, hm⟩ : ∃ m, size - pos = m + 1 := ⟨size - pos - 1, by omega⟩
        have hnext : size - (pos + 1) = m := by omega
        rw [if_neg (fun h => hpos h.2), hm, List.take_succ_cons, List.foldlM_cons]
        cases f.read c with
        | none => rfl
        | some f' => exact ih.trans (by rw [hnext]; rfl)

theorem numberStr_xtoa (hradix : LegalRadix radix)
    (hlen : (xtoaText wrap radix value).length ≤ 32) :
    numberStr (fun buffer => xtoa wrap 32 value buffer radix) =
      some (xtoaText wrap radix value) := by
  have hbuffer : (xtoaText wrap radix value).length < (List.replicate 33 0#8).length := by
    rw [List.length_replicate]
    omega
  rw [numberStr, xtoa_eq hradix hlen hbuffer, Option.bind_some,
    stringAt_zero (zero_notMem_xtoaText hradix)]

theorem numberStr_signed (radix : Nat) (hradix : LegalRadix radix) (hne : radix ≠ 2) (w : Word) :
    numberStr (fun buffer => itoa w buffer radix) = some (xtoaText toLong radix w.toInt) :=
  numberStr_xtoa hradix (length_xtoaText hradix w.le_toInt w.toInt_lt fun h => hne h.1)

theorem numberStr_unsigned (radix : Nat) (hradix : LegalRadix radix) (w : Word) :
    numberStr (fun buffer => utoa w buffer radix) = some (natText radix w.toNat) := by
  have htext := xtoaText_natCast toUlong hradix w.isLt
  have hlen := length_natText hradix w.isLt
  rw [← htext] at hlen ⊢
  exact numberStr_xtoa hradix hlen

theorem formatStr_eq (k : Conversion) : formatStr k.char k.arg = some k.written := by
  cases k with
  | s text => rfl
  | c w => rfl
  | o w => exact numberStr_signed 8 (by decide) (by decide) w
  | x w => exact numberStr_signed 16 (by decide) (by decide) w
  | p w => exact numberStr_unsigned 16 (by decide) w
  | d w => exact numberStr_signed 10 (by decide) (by decide) w
  | u w => exact numberStr_unsigned 10 (by decide) w

theorem char_mem_specifiers (k : Conversion) : k.char ∈ specifiers := by
  cases k <;> simp [Conversion.char, specifiers]

theorem specifier_ne : ∀ c ∈ specifiers, c ≠ zero ∧ isDigit c = false := by decide

theorem eq_zero_of_digitChar (hd : d < 16) (h : digitChar d = zero) : d = 0 := by
  have hnat := congrArg BitVec.toNat h
  rw [digitChar, BitVec.toNat_ofNat, zero, BitVec.toNat_ofNat] at hnat
  split at hnat <;> omega

theorem head?_natText (hradix : LegalRadix radix) (hn : n ≠ 0) :
    (natText radix n).head? ≠ some zero := by
  have hnumeral := Numeral.isNumeral_numeral hradix.two_le n
  intro h
  rw [natText, List.head?_map] at h
  obtain ⟨d, hd, hchar⟩ := Option.map_eq_some_iff.mp h
  have hlt := hnumeral.lt_base d (List.mem_of_head? hd)
  have hzero := eq_zero_of_digitChar (Nat.lt_of_lt_of_le hlt hradix.le) hchar
  have hsingle := hnumeral.leading (hzero ▸ hd)
  have hvalue := hnumeral.value
  rw [hsingle] at hvalue
  exact hn hvalue.symm

theorem head?_widthText (width : Nat) : (widthText width).head? ≠ some zero := by
  rw [widthText]
  split
  · intro h
    cases h
  next hne => exact head?_natText (by decide) hne

theorem read_digit (hc : isDigit c = true) (hflag : ¬ (c = zero ∧ pre = [])) :
    Formatter.read ⟨str, zeros, buf, pre.length, ap, true⟩ c =
      (put buf pre.length c).map fun buf => ⟨str, zeros, buf, pre.length + 1, ap, true⟩ := by
  have hflag : ¬ (c = zero ∧ pre.length = 0) := fun h =>
    hflag ⟨h.1, List.length_eq_zero_iff.mp h.2⟩
  rw [Formatter.read, if_neg (by simp), if_neg hflag, if_pos hc]
  cases put buf pre.length c <;> rfl

theorem length_widthText (hwidth : width < 2147483648) : (widthText width).length ≤ 10 := by
  rw [widthText]
  split
  · exact Nat.zero_le _
  · rw [natText, List.length_map]
    exact Numeral.length_numeral_le (by decide) (by decide) (by omega)

theorem foldlM_read_digits (str : List Byte) (zeros : Bool) (pre rest : List Byte) (ap : List Arg)
    (hdigits : ∀ c ∈ l, isDigit c = true) (hfirst : pre ≠ [] ∨ l.head? ≠ some zero) :
    l.foldlM Formatter.read ⟨str, zeros, pre ++ rest, pre.length, ap, true⟩ =
      if l.length ≤ rest.length then
        some ⟨str, zeros, pre ++ l ++ rest.drop l.length, (pre ++ l).length, ap, true⟩
      else none := by
  induction l generalizing pre rest with
  | nil => simp
  | cons c l ih =>
      obtain ⟨hc, hl⟩ := List.forall_mem_cons.mp hdigits
      have hflag : ¬ (c = zero ∧ pre = []) := by
        rintro ⟨rfl, hpre⟩
        rcases hfirst with h | h
        · exact h hpre
        · exact h rfl
      rw [List.foldlM_cons, read_digit hc hflag]
      cases rest with
      | nil =>
          rw [List.append_nil, put_length]
          rfl
      | cons b rest =>
          have hih := ih (pre ++ [c]) rest hl (.inl (by simp))
          rw [put_append]
          simp only [List.append_assoc, List.singleton_append, List.length_append,
            List.length_cons, List.drop_succ_cons, Nat.add_le_add_iff_right] at hih ⊢
          exact hih

theorem foldlM_read_flag (zeros : Bool) (str buf : List Byte) (ap : List Arg) :
    (percent :: zeroFlag zeros).foldlM Formatter.read (Formatter.outside str buf ap) =
      some ⟨str, zeros, buf, 0, ap, true⟩ := by
  cases zeros <;> rfl

theorem foldlM_read_width (hbuf : buf.length = bufSize) (hl : l <+: widthText width) :
    (percent :: (zeroFlag zeros ++ l)).foldlM Formatter.read (Formatter.outside str buf ap) =
      if l.length ≤ bufSize then
        some ⟨str, zeros, l ++ buf.drop l.length, l.length, ap, true⟩
      else none := by
  have hfirst : l.head? ≠ some zero := by
    intro h
    obtain ⟨rest, hrest⟩ := hl
    apply head?_widthText width
    rw [← hrest, List.head?_append, h]
    rfl
  have hdigits := foldlM_read_digits str zeros [] buf ap
    (fun c hc => isDigit_widthText (hl.subset hc)) (.inr hfirst)
  rw [← List.cons_append, List.foldlM_append, foldlM_read_flag, ← hbuf]
  exact hdigits

theorem read_specifier (k : Conversion) :
    Formatter.read ⟨str, zeros, buf, n, k.arg :: ap, true⟩ k.char =
      formatWrite k.written ⟨str ++ k.lead, zeros, buf, n, ap, false⟩ := by
  obtain ⟨hzero, hdigit⟩ := specifier_ne k.char (char_mem_specifiers k)
  have hlead : (if k.char = 112#8 then str ++ hexLead else str) = str ++ k.lead := by
    cases k with
    | p w => rfl
    | s _ | c _ | o _ | x _ | d _ | u _ => exact (List.append_nil str).symm
  rw [Formatter.read, if_neg (by simp), if_neg (fun h => hzero h.1), hdigit,
    if_neg Bool.false_ne_true, if_pos (char_mem_specifiers k), Formatter.convert]
  simp only [formatStr_eq, hlead]
  rfl

namespace Directive

theorem format_conv (zeros : Bool) (width : Nat) (k : Conversion) :
    (conv zeros width k).format = (percent :: (zeroFlag zeros ++ widthText width)) ++ [k.char] :=
  rfl

theorem read_some {d : Directive} (str : List Byte) (ap : List Arg) (hbuf : buf.length = bufSize)
    (h : d.Holds) :
    ∃ buf', buf'.length = bufSize ∧
      d.format.foldlM Formatter.read (Formatter.outside str buf (d.args ++ ap)) =
        some (Formatter.outside (str ++ d.piece) buf' ap) := by
  cases d with
  | plain c hc =>
      refine ⟨buf, hbuf, ?_⟩
      simp [format, args, piece, Formatter.outside, Formatter.read, hc.2]
  | conv zeros width k =>
      obtain ⟨hwidth, hpad⟩ := h
      have hlen := length_widthText hwidth
      have hle : (widthText width).length ≤ bufSize := Nat.le_trans hlen (by decide)
      have hrest : buf.drop (widthText width).length ≠ [] := by
        intro hnil
        have hzero := congrArg List.length hnil
        rw [List.length_drop, hbuf, bufSize, List.length_nil] at hzero
        omega
      obtain ⟨buf', hbuf', hwrite⟩ := formatWrite_some (str ++ k.lead) zeros false ap
        (by simp [hbuf, hle]) hrest hwidth hpad
      refine ⟨buf', hbuf', ?_⟩
      rw [format_conv, List.foldlM_append, foldlM_read_width hbuf List.prefix_rfl, if_pos hle]
      simp only [args, List.singleton_append, Option.bind_eq_bind, Option.bind_some,
        List.foldlM_cons, List.foldlM_nil, read_specifier, hwrite, Formatter.outside, piece,
        List.append_assoc]
      rfl

theorem read_none {d : Directive} (str : List Byte) (ap : List Arg) (hbuf : buf.length = bufSize)
    (h : ¬ d.Holds) :
    d.format.foldlM Formatter.read (Formatter.outside str buf (d.args ++ ap)) = none := by
  cases d with
  | plain c hc => exact absurd trivial h
  | conv zeros width k =>
      have hfails : 2147483648 ≤ width ∨ k.written.length + 99 < width := by
        rw [Holds] at h
        omega
      rw [format_conv, List.foldlM_append, foldlM_read_width hbuf List.prefix_rfl]
      split
      next hle =>
        have hlen : (widthText width ++ buf.drop (widthText width).length).length = bufSize := by
          simp [hbuf, hle]
        have hwrite := formatWrite_none (str ++ k.lead) zeros false ap hlen hfails
        simp only [args, List.singleton_append, Option.bind_eq_bind, Option.bind_some,
          List.foldlM_cons, read_specifier, hwrite, Option.bind_none]
      · rfl

theorem read_cut {d : Directive} (hbuf : buf.length = bufSize) (hn : n < d.format.length) :
    ((d.format.take n).foldlM Formatter.read (Formatter.outside str buf ap)).map Formatter.str =
      if d.HoldsCut n then some str else none := by
  cases d with
  | plain c hc =>
      have hzero : n = 0 := by
        rw [format, List.length_singleton] at hn
        omega
      have hholds : (plain c hc).HoldsCut n := trivial
      rw [if_pos hholds, hzero]
      rfl
  | conv zeros width k =>
      rw [format_conv] at hn ⊢
      simp only [List.length_append, List.length_cons, List.length_nil] at hn
      rw [List.take_append_of_le_length (by simp; omega)]
      by_cases hflag : n ≤ (zeroFlag zeros).length + 1
      · have hholds : (conv zeros width k).HoldsCut n := by
          rw [HoldsCut]
          omega
        rw [if_pos hholds, ← List.cons_append, List.take_append_of_le_length hflag]
        cases zeros with
        | false =>
            have hn : n = 0 ∨ n = 1 := Nat.le_one_iff_eq_zero_or_eq_one.mp hflag
            rcases hn with rfl | rfl <;> rfl
        | true =>
            have hn : n = 0 ∨ n = 1 ∨ n = 2 := by
              have hflag : n ≤ 2 := hflag
              omega
            rcases hn with rfl | rfl | rfl <;> rfl
      · obtain ⟨m, hm⟩ : ∃ m, n = (zeroFlag zeros).length + 1 + m :=
          ⟨n - ((zeroFlag zeros).length + 1), by omega⟩
        have htake : (percent :: (zeroFlag zeros ++ widthText width)).take n =
            percent :: (zeroFlag zeros ++ (widthText width).take m) := by
          rw [hm, Nat.add_right_comm, List.take_succ_cons, List.take_length_add_append]
        have hlen : ((widthText width).take m).length = m := by
          rw [List.length_take]
          omega
        rw [htake, foldlM_read_width hbuf (List.take_prefix _ _), hlen]
        have hiff : (conv zeros width k).HoldsCut n ↔ m ≤ bufSize := by
          rw [HoldsCut, bufSize]
          omega
        simp only [hiff]
        split <;> rfl

end Directive

end Read

end Tenok.Printf
