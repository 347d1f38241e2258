import Tenok.Kernel.Printf

/-!
The expansion of a format, and when `vsnprintf` gives its first characters. The formatter stops after
`size` characters of the format, so what it writes is the expansion of the directives among these.
-/
namespace Tenok.Printf

namespace Conversion

/-- What comes in front of the argument: its sign, or the `0x` of a pointer. -/
def front : Conversion → List Byte
  | d w => if w.toInt < 0 then [minus] else []
  | p _ => hexLead
  | _ => []

/-- The argument without what comes in front of it. -/
def body : Conversion → List Byte
  | s text => text.bytes
  | c w => [w.setWidth 8]
  | o w => natText 8 w.toNat
  | x w => natText 16 w.toNat
  | p w => natText 16 w.toNat
  | d w => natText 10 w.toInt.natAbs
  | u w => natText 10 w.toNat

/-- The argument padded to its width. The zeros of the padding come behind the sign or the `0x`. -/
def expand (zeros : Bool) (width : Nat) (k : Conversion) : List Byte :=
  let padding := List.replicate (width - (k.front ++ k.body).length) (padSymbol zeros)
  if zeros then k.front ++ padding ++ k.body else padding ++ (k.front ++ k.body)

/-- What goes through `itoa` is not negative as an `int`, a character is not the end of a string, and
the digits of a pointer fill its width. -/
def Exact (width : Nat) : Conversion → Prop
  | o w | x w | d w => 0 ≤ w.toInt
  | c w => w.setWidth 8 ≠ 0#8
  | p w => width ≤ (natText 16 w.toNat).length
  | s _ | u _ => True

instance decidableExact (width : Nat) (k : Conversion) : Decidable (k.Exact width) :=
  match k with
  | o w | x w | d w => inferInstanceAs (Decidable (0 ≤ w.toInt))
  | c w => inferInstanceAs (Decidable (w.setWidth 8 ≠ 0#8))
  | p w => inferInstanceAs (Decidable (width ≤ (natText 16 w.toNat).length))
  | s _ | u _ => .isTrue trivial

/-- The empty string, or the character 0. -/
def Empty : Conversion → Prop
  | s text => text.bytes = []
  | c w => w.setWidth 8 = 0#8
  | _ => False

end Conversion

namespace Directive

def expand : Directive → List Byte
  | plain c _ => [c]
  | conv zeros width k => k.expand zeros width

/-- The argument is written as it is, and the width is an `int` and no more than 99 characters longer
than the argument. -/
def Kept : Directive → Prop
  | plain _ _ => True
  | conv _ width k => k.Exact width ∧ width < 2147483648 ∧ width ≤ (k.front ++ k.body).length + 99

instance decidableKept (d : Directive) : Decidable d.Kept :=
  match d with
  | plain _ _ => .isTrue trivial
  | conv _ _ _ => inferInstanceAs (Decidable (_ ∧ _ ∧ _))

def Silent : Directive → Prop
  | plain _ _ => False
  | conv _ width k => width = 0 ∧ k.Empty

end Directive

section Formats

def formatOf (ds : List Directive) : List Byte := ds.flatMap Directive.format

def argsOf (ds : List Directive) : List Arg := ds.flatMap Directive.args

def expansionOf (ds : List Directive) : List Byte := ds.flatMap Directive.expand

def piecesOf (ds : List Directive) : List Byte := ds.flatMap Directive.piece

/-- The directives that end within the first `n` characters of the format. -/
def processed : Nat → List Directive → List Directive
  | _, [] => []
  | n, d :: ds =>
      if d.format.length ≤ n then d :: processed (n - d.format.length) ds else []

def unread : Nat → List Directive → List Directive
  | _, [] => []
  | n, d :: ds => if d.format.length ≤ n then unread (n - d.format.length) ds else d :: ds

/-- The directive that the end of the first `n` characters cuts has no more than 100 digits of its
width before it. -/
def CutHolds : Nat → List Directive → Prop
  | _, [] => True
  | n, d :: ds =>
      if d.format.length ≤ n then CutHolds (n - d.format.length) ds else d.HoldsCut n

instance decidableCutHolds : (n : Nat) → (ds : List Directive) → Decidable (CutHolds n ds)
  | _, [] => .isTrue trivial
  | n, d :: ds =>
      if h : d.format.length ≤ n then
        @decidable_of_iff _ (CutHolds (n - d.format.length) ds) (by rw [CutHolds, if_pos h])
          (decidableCutHolds _ ds)
      else decidable_of_iff (d.HoldsCut n) (by rw [CutHolds, if_neg h])

/-- The result is the first `size - 1` characters of the expansion, and `size` bytes are enough for
it with its end. -/
def Meets (buf : List Byte) (size : Nat) (ds : List Directive) : Prop :=
  ∃ str, vsnprintf buf size (formatOf ds) (argsOf ds) = some str ∧ str.length + 1 ≤ size ∧
    str = (expansionOf ds).take (size - 1)

/-- What the formatter writes for `ds` is the first `n` characters of their expansion with `rest`
behind it. -/
inductive Agrees (rest : List Byte) : Nat → List Directive → Prop
  | done {n : Nat} (h : n = 0 ∨ rest = []) : Agrees rest n []
  | kept {n : Nat} {d : Directive} {ds : List Directive} (hd : d.Kept) (hle : d.expand.length ≤ n)
      (h : Agrees rest (n - d.expand.length) ds) : Agrees rest n (d :: ds)
  /-- The character 0 is the first that has no room. -/
  | nul {zeros : Bool} {w : Word} {ds : List Directive} (hw : w.setWidth 8 = 0#8)
      (hds : ∀ d ∈ ds, d.Silent) : Agrees rest 0 (.conv zeros 0 (.c w) :: ds)
  /-- The surplus zeros of a null pointer are those that come after it. -/
  | null {n width : Nat} {more : List Byte} {ds : List Directive}
      (hwidth : 2 ≤ width ∧ width ≤ 100) (hds : ∀ d ∈ ds, d.Kept ∧ ∀ b ∈ d.expand, b = zero)
      (hrest : rest = List.replicate (min (width - 1) 2) zero ++ more)
      (hle : width + 2 + (expansionOf ds).length ≤ n)
      (hfull : width + 2 + (expansionOf ds).length = n ∨ more = []) :
      Agrees rest n (.conv true width (.p 0#32) :: ds)

/-- The directives that end within the first `size` characters of the format write the first
`size - 1` characters of the expansion. -/
structure Fits (size : Nat) (ds : List Directive) : Prop where
  cut : CutHolds size ds
  agrees : Agrees (expansionOf (unread size ds)) (size - 1) (processed size ds)

end Formats

section Read
variable {n size : Nat} {str buf out : List Byte} {ds : List Directive}

theorem processed_append_unread (n : Nat) (ds : List Directive) :
    processed n ds ++ unread n ds = ds := by
  induction ds generalizing n with
  | nil => rfl
  | cons d ds ih =>
      rw [processed, unread]
      split
      · rw [List.cons_append, ih]
      · rfl

theorem foldlM_read_take (hbuf : buf.length = bufSize) :
    (((formatOf ds).take n).foldlM Formatter.read
        (Formatter.outside str buf (argsOf ds))).map Formatter.str = some out ↔
      (∀ d ∈ processed n ds, d.Holds) ∧ CutHolds n ds ∧
        out = str ++ piecesOf (processed n ds) := by
  induction ds generalizing n str buf with
  | nil => simp [formatOf, processed, CutHolds, piecesOf, Formatter.outside, eq_comm]
  | cons d ds ih =>
      rw [formatOf, argsOf, List.flatMap_cons, List.flatMap_cons, processed, CutHolds]
      by_cases hle : d.format.length ≤ n
      · rw [if_pos hle, if_pos hle, List.forall_mem_cons]
        obtain ⟨m, hm⟩ : ∃ m, n = d.format.length + m := ⟨n - d.format.length, by omega⟩
        rw [hm, List.take_length_add_append, List.foldlM_append, Nat.add_sub_cancel_left]
        by_cases hholds : d.Holds
        · obtain ⟨buf', hbuf', hread⟩ := Directive.read_some str (argsOf ds) hbuf hholds
          rw [argsOf] at hread
          rw [hread]
          refine (ih hbuf').trans ?_
          simp only [hholds, true_and, piecesOf, List.flatMap_cons, List.append_assoc]
        · have hread := Directive.read_none str (argsOf ds) hbuf hholds
          rw [argsOf] at hread
          rw [hread]
          simp [hholds]
      · have hlt := Nat.lt_of_not_le hle
        rw [if_neg hle, if_neg hle, List.take_append_of_le_length (Nat.le_of_lt hlt),
          Directive.read_cut hbuf hlt]
        by_cases hcut : d.HoldsCut n
        · simp [hcut, piecesOf, eq_comm]
        · simp [hcut]

end Read

section Pieces
variable {b : Byte} {d : Directive} {k : Conversion} {m n radix width : Nat} {value : Int}
  {rest : List Byte} {zeros : Bool} {w : Word}

theorem toNat_of_nonneg (h : 0 ≤ w.toInt) : w.toInt = w.toNat := by
  rw [BitVec.toInt_eq_toNat_cond] at h ⊢
  split
  · rfl
  next hle =>
    have hlt := w.isLt
    rw [if_neg hle] at h
    omega

theorem xtoaText_of_nonneg (radix : Nat) (hradix : LegalRadix radix) (h : 0 ≤ w.toInt) :
    xtoaText toLong radix w.toInt = natText radix w.toNat := by
  rw [toNat_of_nonneg h]
  exact xtoaText_natCast toLong hradix w.isLt

theorem piece_eq_expand (hlead : k.lead = []) (hfront : k.front = []) (hwritten : k.written = k.body) :
    (Directive.conv zeros width k).piece = (Directive.conv zeros width k).expand := by
  rw [Directive.piece, Directive.expand, Conversion.expand, hlead, hfront, hwritten]
  cases zeros <;> rfl

theorem Conversion.Exact.written_d (h : 0 ≤ w.toInt) :
    (Conversion.d w).front = [] ∧ (Conversion.d w).written = (Conversion.d w).body := by
  have hnat : w.toInt.natAbs = w.toNat := by
    rw [toNat_of_nonneg h, Int.natAbs_natCast]
  refine ⟨if_neg (Int.not_lt.mpr h), ?_⟩
  rw [Conversion.body, hnat]
  exact xtoaText_of_nonneg 10 (by decide) h

theorem Conversion.Exact.piece (h : k.Exact width) :
    (Directive.conv zeros width k).piece = (Directive.conv zeros width k).expand := by
  cases k with
  | s _ | u _ => exact piece_eq_expand rfl rfl rfl
  | c w => exact piece_eq_expand rfl rfl (if_neg h)
  | o w => exact piece_eq_expand rfl rfl (xtoaText_of_nonneg 8 (by decide) h)
  | x w => exact piece_eq_expand rfl rfl (xtoaText_of_nonneg 16 (by decide) h)
  | d w => exact piece_eq_expand rfl (written_d h).1 (written_d h).2
  | p w =>
      have hpiece : width - (Conversion.p w).written.length = 0 := Nat.sub_eq_zero_of_le h
      have hexpand : width - ((Conversion.p w).front ++ (Conversion.p w).body).length = 0 := by
        rw [List.length_append]
        exact Nat.sub_eq_zero_of_le (Nat.le_trans h (Nat.le_add_left _ _))
      rw [Directive.piece, Directive.expand, Conversion.expand, hpiece, hexpand]
      cases zeros <;> rfl

/-- The padding is measured from the argument's text. -/
theorem Conversion.Exact.room_iff (h : k.Exact width) :
    width ≤ k.written.length + 99 ↔ width ≤ (k.front ++ k.body).length + 99 := by
  cases k with
  | s _ | u _ => exact Iff.rfl
  | c w => rw [show (Conversion.c w).written = [w.setWidth 8] from if_neg h]; rfl
  | o w => rw [show (Conversion.o w).written = _ from xtoaText_of_nonneg 8 (by decide) h]; rfl
  | x w => rw [show (Conversion.x w).written = _ from xtoaText_of_nonneg 16 (by decide) h]; rfl
  | d w => rw [(written_d h).1, (written_d h).2, List.nil_append]
  | p w =>
      have hle : width ≤ (Conversion.p w).written.length := h
      have hbody : (Conversion.p w).written = (Conversion.p w).body := rfl
      rw [List.length_append, ← hbody]
      omega

theorem getLast?_xtoaText (radix : Nat) (hneg : value < 0) :
    (xtoaText toLong radix value).getLast? = some minus := by
  rw [xtoaText, if_pos hneg, List.getLast?_concat]

theorem natText_ne_nil (n : Nat) (hradix : LegalRadix radix) : natText radix n ≠ [] := fun h =>
  (Numeral.isNumeral_numeral hradix.two_le n).ne_nil (List.map_eq_nil_iff.mp h)

theorem xtoaText_ne_nil (w : Word) (hradix : LegalRadix radix) :
    xtoaText toLong radix w.toInt ≠ [] := by
  intro h
  by_cases hneg : w.toInt < 0
  · have hlast := getLast?_xtoaText radix hneg
    rw [h] at hlast
    cases hlast
  · rw [xtoaText_of_nonneg radix hradix (Int.not_lt.mp hneg)] at h
    exact natText_ne_nil _ hradix h

theorem toNat_natText (hradix : LegalRadix radix) (hb : b ∈ natText radix n) : 48 ≤ b.toNat := by
  obtain ⟨d, hd, rfl⟩ := List.mem_map.mp hb
  have hlt := (Numeral.isNumeral_numeral hradix.two_le n).lt_base d hd
  have hle := hradix.le
  rw [digitChar, BitVec.toNat_ofNat]
  split <;> omega

theorem natText_injective (hradix : LegalRadix radix) (h : natText radix m = natText radix n) :
    m = n := by
  have hread (k : Nat) : readDigits radix (natText radix k) = some k := by
    have hnumeral := Numeral.isNumeral_numeral hradix.two_le k
    have hdigits := readDigits_map hradix hnumeral.lt_base
    rw [hnumeral.value] at hdigits
    exact hdigits
  have hm := hread m
  rw [h, hread n, Option.some.injEq] at hm
  exact hm.symm

/-- A negative value with its sign at the wrong end is as long as with it at the right one. -/
theorem length_xtoaText_neg (hlow : -2147483648 ≤ value) (hneg : value < 0) :
    (xtoaText toLong 10 value).length = ([minus] ++ natText 10 value.natAbs).length := by
  by_cases hmin : value = -2147483648
  · have hnumeral : Numeral.IsNumeral 10 2147483648 [2, 1, 4, 7, 4, 8, 3, 6, 4, 8] :=
      ⟨by decide, by decide, by decide, by decide⟩
    rw [hmin, natText]
    change _ = ([minus] ++ (Numeral.numeral 10 2147483648).map digitChar).length
    rw [← hnumeral.eq_numeral (by decide)]
    decide
  · have htext : xtoaText toLong (10 : Nat) value = natText 10 value.natAbs ++ [minus] :=
      xtoaText_neg (by decide) (by omega) hneg
    rw [Nat.cast_ofNat] at htext
    rw [htext, List.length_append, List.length_append, Nat.add_comm]

theorem getLast?_natText (n : Nat) (hradix : LegalRadix radix) : (natText radix n).getLast? ≠ some minus :=
  fun h => absurd (toNat_natText hradix (List.mem_of_getLast? h)) (by decide)

theorem not_start_d (hneg : w.toInt < 0) :
    ¬ (Directive.conv zeros width (.d w)).piece <+:
      (Directive.conv zeros width (.d w)).expand ++ rest := by
  have hlen : (Conversion.d w).written.length =
      ((Conversion.d w).front ++ (Conversion.d w).body).length := by
    rw [Conversion.front, if_pos hneg]
    exact length_xtoaText_neg w.le_toInt hneg
  have hlast : (Conversion.d w).written.getLast? = some minus := getLast?_xtoaText 10 hneg
  have hpiece : (Directive.conv zeros width (.d w)).piece.getLast? = some minus := by
    rw [Directive.piece, List.getLast?_append, hlast]
    rfl
  have hexpand : (Directive.conv zeros width (.d w)).expand.getLast? ≠ some minus := by
    have hbody : (Conversion.d w).body ≠ [] := natText_ne_nil w.toInt.natAbs (by decide)
    have hdigits : (Conversion.d w).body.getLast? ≠ some minus :=
      getLast?_natText w.toInt.natAbs (by decide)
    cases zeros <;>
      simpa [Directive.expand, Conversion.expand, List.getLast?_append_of_ne_nil, hbody] using hdigits
  have hlength : (Directive.conv zeros width (.d w)).piece.length =
      (Directive.conv zeros width (.d w)).expand.length := by
    rw [Directive.piece, Directive.expand, Conversion.expand, hlen]
    cases zeros with
    | false => simp [Conversion.lead, hlen]
    | true =>
        simp [Conversion.lead, hlen]
        omega
  intro hstart
  have heq := (List.prefix_of_prefix_length_le hstart (List.prefix_append _ _)
    (Nat.le_of_eq hlength)).eq_of_length hlength
  rw [heq] at hpiece
  exact hexpand hpiece

def NumeralChar (b : Byte) : Prop := b = space ∨ 48 ≤ b.toNat

instance decidableNumeralChar (b : Byte) : Decidable (NumeralChar b) :=
  inferInstanceAs (Decidable (_ ∨ _))

theorem numeralChar_of_mem (hradix : LegalRadix radix)
    (hb : b ∈ List.replicate m (padSymbol zeros) ++ natText radix n) : NumeralChar b := by
  rcases List.mem_append.mp hb with hb | hb
  · rw [(List.mem_replicate.mp hb).2]
    cases zeros
    · exact .inl rfl
    · exact .inr (by decide)
  · exact .inr (toNat_natText hradix hb)

theorem length_natText_natAbs (hradix : LegalRadix radix) (hneg : w.toInt < 0) :
    (natText radix w.toInt.natAbs).length ≤ (natText radix w.toNat).length := by
  rw [natText, natText, List.length_map, List.length_map]
  apply Numeral.length_numeral_mono hradix.two_le
  have hvalue := BitVec.toInt_eq_toNat_cond w
  have hlt := w.isLt
  split at hvalue <;> omega

/-- A negative argument of an unsigned specifier is not written as the start of its expansion. -/
theorem not_start_unsigned (zeros : Bool) (width : Nat) (rest : List Byte) (hradix : LegalRadix radix) (hneg : w.toInt < 0)
    (hmin : w.toInt = -2147483648 →
      ∃ b, (xtoaText toLong radix w.toInt).head? = some b ∧ ¬ NumeralChar b) :
    ¬ List.replicate (width - (xtoaText toLong radix w.toInt).length) (padSymbol zeros) ++
        xtoaText toLong radix w.toInt <+:
      (List.replicate (width - (natText radix w.toNat).length) (padSymbol zeros) ++
        natText radix w.toNat) ++ rest := by
  have hlast := getLast?_xtoaText radix hneg
  have hlow := w.le_toInt
  generalize ht : xtoaText toLong radix w.toInt = t at hmin hlast ⊢
  generalize hs : natText radix w.toNat = s
  have hchars : ∀ b ∈ List.replicate (width - s.length) (padSymbol zeros) ++ s, NumeralChar b := by
    rw [← hs]
    exact fun b => numeralChar_of_mem hradix
  intro hstart
  by_cases hle : (List.replicate (width - t.length) (padSymbol zeros) ++ t).length ≤
      (List.replicate (width - s.length) (padSymbol zeros) ++ s).length
  · -- The sign is within the expansion.
    have hpre := List.prefix_of_prefix_length_le hstart (List.prefix_append _ _) hle
    have hminus := hchars minus (hpre.subset (List.mem_append_right _ (List.mem_of_getLast? hlast)))
    rcases hminus with h | h
    · cases h
    · exact absurd h (by decide)
  · -- The digits alone fill the width.
    have hpre := List.prefix_of_prefix_length_le (List.prefix_append _ _) hstart (by omega)
    rw [List.length_append, List.length_append, List.length_replicate, List.length_replicate] at hle
    have hpad : width - t.length = 0 := by omega
    rw [hpad, List.replicate_zero, List.nil_append] at hpre
    by_cases hvalue : w.toInt = -2147483648
    · obtain ⟨b, hb, hnot⟩ := hmin hvalue
      have hne : List.replicate (width - s.length) (padSymbol zeros) ++ s ≠ [] := by
        rw [← hs]
        exact List.append_ne_nil_of_right_ne_nil _ (natText_ne_nil _ hradix)
      obtain ⟨c, cs, hcs⟩ := List.exists_cons_of_ne_nil hne
      rw [hcs] at hpre hchars
      obtain ⟨more, rfl⟩ := hpre
      have hcb : c = b := Option.some.inj hb
      exact hnot (hchars b (hcb ▸ List.mem_cons_self))
    · have htext := xtoaText_neg hradix (by omega) hneg
      have hdigits := length_natText_natAbs hradix hneg
      rw [ht] at htext
      rw [hs] at hdigits
      have hlen : t.length = (natText radix w.toInt.natAbs).length + 1 := by
        rw [htext, List.length_append, List.length_singleton]
      have hwidth : width - s.length = 0 := by omega
      rw [hwidth, List.replicate_zero, List.nil_append, htext] at hpre
      have heq := (List.prefix_of_prefix_length_le hpre (List.prefix_append _ _)
        (by omega)).eq_of_length (by omega)
      rw [← hs] at heq
      have hnat := natText_injective hradix heq
      have hcond := BitVec.toInt_eq_toNat_cond w
      have hlt := w.isLt
      split at hcond <;> omega

theorem prefix_of_replicate {z c e : Byte} {i j : Nat} {t s : List Byte} (hc : c ≠ z) (he : e ≠ z)
    (h : List.replicate i z ++ c :: t <+: List.replicate j z ++ e :: s) : c :: t <+: e :: s := by
  induction i generalizing j with
  | zero =>
      cases j with
      | zero => exact h
      | succ j => exact absurd (List.cons_prefix_cons.mp h).1 hc
  | succ i ih =>
      cases j with
      | zero => exact absurd (List.cons_prefix_cons.mp h).1.symm he
      | succ j => exact ih (List.cons_prefix_cons.mp h).2

theorem head?_xtoaText (hradix : LegalRadix radix) (hneg : w.toInt < 0)
    (hmin : w.toInt = -2147483648 →
      ∃ b, (xtoaText toLong radix w.toInt).head? = some b ∧ ¬ NumeralChar b) :
    (xtoaText toLong radix w.toInt).head? ≠ some zero := by
  by_cases hvalue : w.toInt = -2147483648
  · obtain ⟨b, hb, hnot⟩ := hmin hvalue
    rw [hb]
    rintro ⟨rfl⟩
    exact hnot (by decide)
  · have hlow := w.le_toInt
    rw [xtoaText_neg hradix (by omega) hneg, List.head?_append_of_ne_nil _ (natText_ne_nil _ hradix)]
    exact head?_natText hradix (by omega)

/-- Nor is it with zeros before it. -/
theorem not_shifted_unsigned (zeros : Bool) (width : Nat) (rest : List Byte)
    (hradix : LegalRadix radix) (hneg : w.toInt < 0)
    (hmin : w.toInt = -2147483648 →
      ∃ b, (xtoaText toLong radix w.toInt).head? = some b ∧ ¬ NumeralChar b) (m : Nat) :
    ¬ List.replicate (m + 1) zero ++
        (List.replicate (width - (xtoaText toLong radix w.toInt).length) (padSymbol zeros) ++
          xtoaText toLong radix w.toInt) <+:
      (List.replicate (width - (natText radix w.toNat).length) (padSymbol zeros) ++
        natText radix w.toNat) ++ rest := by
  have hstart := not_start_unsigned zeros 0 rest hradix hneg hmin
  have ht := head?_xtoaText hradix hneg hmin
  have hs : (natText radix w.toNat).head? ≠ some zero := by
    apply head?_natText hradix
    intro hzero
    have hcond := BitVec.toInt_eq_toNat_cond w
    rw [hzero] at hcond
    split at hcond <;> omega
  have htne : xtoaText toLong radix w.toInt ≠ [] := fun h => by
    have hlast := getLast?_xtoaText radix hneg
    rw [h] at hlast
    cases hlast
  obtain ⟨c, t, hct⟩ := List.exists_cons_of_ne_nil htne
  obtain ⟨e, s, hes⟩ := List.exists_cons_of_ne_nil (natText_ne_nil w.toNat hradix)
  simp only [Nat.zero_sub, List.replicate_zero, List.nil_append] at hstart
  rw [hct, hes] at hstart ⊢
  have hc : c ≠ zero := fun h => ht (by rw [hct, h]; rfl)
  have he : e ≠ zero := fun h => hs (by rw [hes, h]; rfl)
  generalize width - (c :: t).length = i
  generalize width - (e :: s).length = j
  intro h
  rw [List.append_assoc] at h
  cases zeros with
  | true =>
      rw [← List.append_assoc (List.replicate (m + 1) zero), padSymbol, if_pos rfl,
        List.replicate_append_replicate] at h
      exact hstart (prefix_of_replicate hc he h)
  | false =>
      -- The expansion starts with a blank or a digit that is not zero.
      cases j with
      | zero => exact he (List.cons_prefix_cons.mp h).1.symm
      | succ j => exact absurd (List.cons_prefix_cons.mp h).1 (by decide)

/-- The character 0 is not among what is written. -/
theorem not_start_nul {out : List Byte} (rest : List Byte) (hw : w.setWidth 8 = 0#8) (hout : 0#8 ∉ out)
    (hpos : 1 ≤ out.length) (hlen : width ≤ out.length) :
    ¬ out <+: (Conversion.c w).expand zeros width ++ rest := by
  intro h
  have hmem : 0#8 ∈ (Conversion.c w).expand zeros width := by
    cases zeros <;> simp [Conversion.expand, Conversion.body, hw]
  have hexpand : ((Conversion.c w).expand zeros width).length ≤ out.length := by
    cases zeros <;> simp [Conversion.expand, Conversion.front, Conversion.body] <;> omega
  exact hout ((List.prefix_of_prefix_length_le (List.prefix_append _ _) h hexpand).subset hmem)

theorem expand_p (zeros : Bool) (width : Nat) (w : Word) :
    (Directive.conv zeros width (.p w)).expand =
      if zeros then
        hexLead ++ (List.replicate (width - ((natText 16 w.toNat).length + 2)) zero ++
          natText 16 w.toNat)
      else
        List.replicate (width - ((natText 16 w.toNat).length + 2)) space ++
          (hexLead ++ natText 16 w.toNat) := by
  rw [Directive.expand, Conversion.expand, List.length_append, Nat.add_comm]
  cases zeros
  · rfl
  · exact List.append_assoc _ _ _

theorem piece_p (zeros : Bool) (width : Nat) (w : Word) :
    (Directive.conv zeros width (.p w)).piece =
      hexLead ++ (List.replicate (width - (natText 16 w.toNat).length) (padSymbol zeros) ++
        natText 16 w.toNat) := by
  rw [Directive.piece]
  exact List.append_assoc _ _ _

/-- The surplus zeros of a pointer are the start of its digits only for a null pointer. -/
theorem not_start_p (hwidth : (natText 16 w.toNat).length < width) (hw : zeros = true → w ≠ 0#32) :
    ¬ (Directive.conv zeros width (.p w)).piece <+:
      (Directive.conv zeros width (.p w)).expand ++ rest := by
  obtain ⟨c, s, hcs⟩ := List.exists_cons_of_ne_nil (natText_ne_nil w.toNat (by decide : LegalRadix 16))
  intro hstart
  rw [piece_p, expand_p] at hstart
  obtain ⟨i, hi⟩ : ∃ i, width - (natText 16 w.toNat).length =
      width - ((natText 16 w.toNat).length + 2) + (i + 1) :=
    ⟨width - (natText 16 w.toNat).length - (width - ((natText 16 w.toNat).length + 2)) - 1, by omega⟩
  rw [hi] at hstart
  generalize width - ((natText 16 w.toNat).length + 2) = j at hstart
  cases zeros with
  | false =>
      cases j with
      | zero =>
          have hpre := (List.prefix_append_right_inj hexLead).mp hstart
          rw [hcs] at hpre
          have hspace := toNat_natText (by decide : LegalRadix 16) (hcs ▸ List.mem_cons_self)
          rw [← (List.cons_prefix_cons.mp hpre).1] at hspace
          exact absurd hspace (by decide)
      | succ j => exact absurd (List.cons_prefix_cons.mp hstart).1 (by decide)
  | true =>
      rw [if_pos rfl, List.append_assoc, List.prefix_append_right_inj, padSymbol, if_pos rfl,
        ← List.replicate_append_replicate, List.append_assoc, List.append_assoc,
        List.prefix_append_right_inj, hcs] at hstart
      have hhead := head?_natText (by decide : LegalRadix 16)
        (fun h => hw rfl (BitVec.eq_of_toNat_eq h))
      rw [hcs] at hhead
      exact hhead (congrArg some (List.cons_prefix_cons.mp hstart).1.symm)

theorem not_shifted_p :
    ¬ List.replicate (m + 1) zero ++ (Directive.conv zeros width (.p w)).piece <+:
      (Directive.conv zeros width (.p w)).expand ++ rest := by
  intro hstart
  rw [piece_p, expand_p] at hstart
  have hlead (out more : List Byte) :
      ¬ List.replicate (m + 1) zero ++ (hexLead ++ out) <+: hexLead ++ more := by
    intro h
    cases m with
    | zero => exact absurd (List.cons_prefix_cons.mp (List.cons_prefix_cons.mp h).2).1 (by decide)
    | succ m => exact absurd (List.cons_prefix_cons.mp (List.cons_prefix_cons.mp h).2).1 (by decide)
  cases zeros with
  | true =>
      rw [if_pos rfl, List.append_assoc] at hstart
      exact hlead _ _ hstart
  | false =>
      rw [if_neg Bool.false_ne_true, List.append_assoc, List.append_assoc] at hstart
      generalize width - ((natText 16 w.toNat).length + 2) = j at hstart
      cases j with
      | zero => exact hlead _ _ hstart
      | succ j => exact absurd (List.cons_prefix_cons.mp hstart).1 (by decide)

theorem not_shifted_d (hneg : w.toInt < 0) (out : List Byte) :
    ¬ zero :: out <+: (Directive.conv zeros width (.d w)).expand ++ rest := by
  have hfront : (Conversion.d w).front = [minus] := if_pos hneg
  intro h
  rw [Directive.expand, Conversion.expand, hfront] at h
  cases zeros with
  | true => exact absurd (List.cons_prefix_cons.mp h).1 (by decide)
  | false =>
      generalize width - ([minus] ++ (Conversion.d w).body).length = j at h
      cases j with
      | zero => exact absurd (List.cons_prefix_cons.mp h).1 (by decide)
      | succ j => exact absurd (List.cons_prefix_cons.mp h).1 (by decide)

theorem Directive.zero_notMem_piece (d : Directive) : 0#8 ∉ d.piece := by
  cases d with
  | plain c hc => exact fun h => hc.1 (List.mem_singleton.mp h).symm
  | conv zeros width k =>
      have hlead : 0#8 ∉ k.lead := by
        cases k with
        | p w => exact (by decide : 0#8 ∉ hexLead)
        | s _ | c _ | o _ | x _ | d _ | u _ => exact List.not_mem_nil
      have hwritten : 0#8 ∉ k.written := by
        cases k with
        | s text => exact text.nul
        | c w =>
            rw [Conversion.written, cStr]
            split
            · exact List.not_mem_nil
            next h => exact fun hmem => h (List.mem_singleton.mp hmem).symm
        | o w => exact zero_notMem_xtoaText (by decide : LegalRadix 8)
        | x w => exact zero_notMem_xtoaText (by decide : LegalRadix 16)
        | d w => exact zero_notMem_xtoaText (by decide : LegalRadix 10)
        | p w | u w => exact fun h => absurd (toNat_natText (by decide) h) (by decide)
      rw [Directive.piece, List.mem_append, List.mem_append]
      rintro ((h | h) | h)
      · exact hlead h
      · exact zero_notMem_padding h
      · exact hwritten h

theorem Directive.Silent.piece (h : d.Silent) : d.piece = [] := by
  cases d with
  | plain c hc => cases h
  | conv zeros width k =>
      obtain ⟨rfl, hempty⟩ := h
      have hwritten : k.written = [] := by
        cases k with
        | s text => exact hempty
        | c w => exact if_pos hempty
        | o _ | x _ | p _ | d _ | u _ => cases hempty
      have hlead : k.lead = [] := by
        cases k with
        | p _ => cases hempty
        | s _ | c _ | o _ | x _ | d _ | u _ => rfl
      rw [Directive.piece, hlead, hwritten]
      rfl

theorem Directive.silent_of_piece (h : d.piece = []) : d.Silent := by
  cases d with
  | plain c hc => cases h
  | conv zeros width k =>
      rw [Directive.piece, List.append_eq_nil_iff, List.append_eq_nil_iff] at h
      obtain ⟨⟨hlead, hpad⟩, hwritten⟩ := h
      rw [hwritten, List.replicate_eq_nil_iff, List.length_nil, Nat.sub_zero] at hpad
      refine ⟨hpad, ?_⟩
      cases k with
      | s text => exact hwritten
      | c w =>
          by_contra hc
          have hsingle : (Conversion.c w).written = [w.setWidth 8] := if_neg hc
          rw [hsingle] at hwritten
          cases hwritten
      | o w => exact absurd hwritten (xtoaText_ne_nil w (by decide : LegalRadix 8))
      | x w => exact absurd hwritten (xtoaText_ne_nil w (by decide : LegalRadix 16))
      | d w => exact absurd hwritten (xtoaText_ne_nil w (by decide : LegalRadix 10))
      | p w => cases hlead
      | u w => exact absurd hwritten (natText_ne_nil _ (by decide))

theorem Directive.Silent.holds (h : d.Silent) : d.Holds := by
  cases d with
  | plain c hc => cases h
  | conv zeros width k =>
      rw [Directive.Holds, h.1]
      exact ⟨by decide, Nat.zero_le _⟩

theorem Directive.Kept.holds (h : d.Kept) : d.Holds := by
  cases d with
  | plain c hc => trivial
  | conv zeros width k =>
      obtain ⟨hexact, hwidth, hpad⟩ := h
      exact ⟨hwidth, hexact.room_iff.mpr hpad⟩

theorem Directive.Kept.piece (h : d.Kept) : d.piece = d.expand := by
  cases d with
  | plain c hc => rfl
  | conv zeros width k => exact h.1.piece

/-- What is not kept starts another text, but for a character 0 without a width and for a null
pointer with zeros. -/
theorem Directive.Holds.kept_or (h : d.Holds) :
    d.Kept ∨ (∃ zeros w, w.setWidth 8 = 0#8 ∧ d = .conv zeros 0 (.c w)) ∨
      (∃ width, (2 ≤ width ∧ width ≤ 100) ∧ d = .conv true width (.p 0#32)) ∨
        ∀ rest, ¬ d.piece <+: d.expand ++ rest := by
  cases d with
  | plain c hc => exact .inl trivial
  | conv zeros width k =>
      by_cases hexact : k.Exact width
      · obtain ⟨hwidth, hpad⟩ := h
        exact .inl ⟨hexact, hwidth, hexact.room_iff.mp hpad⟩
      · refine .inr ?_
        cases k with
        | s _ | u _ => exact absurd trivial hexact
        | d w => exact .inr (.inr fun rest => not_start_d (Int.not_le.mp hexact))
        | o w =>
            refine .inr (.inr fun rest => ?_)
            have hstart := not_start_unsigned zeros width rest (by decide : LegalRadix 8)
              (Int.not_le.mp hexact) (fun hmin => ⟨46#8, by rw [hmin]; rfl, by decide⟩)
            cases zeros <;> exact hstart
        | x w =>
            refine .inr (.inr fun rest => ?_)
            have hstart := not_start_unsigned zeros width rest (by decide : LegalRadix 16)
              (Int.not_le.mp hexact) (fun hmin => ⟨40#8, by rw [hmin]; rfl, by decide⟩)
            cases zeros <;> exact hstart
        | c w =>
            have hw : w.setWidth 8 = 0#8 := not_not.mp hexact
            rcases Nat.eq_zero_or_pos width with rfl | hpos
            · exact .inl ⟨zeros, w, hw, rfl⟩
            · have hlen : (Directive.conv zeros width (.c w)).piece.length = width := by
                simp [Directive.piece, Conversion.lead, Conversion.written, cStr, hw]
              exact .inr (.inr fun rest => not_start_nul rest hw (zero_notMem_piece _)
                (hlen.symm ▸ hpos) (Nat.le_of_eq hlen.symm))
        | p w =>
            have hlt : (natText 16 w.toNat).length < width := Nat.lt_of_not_le hexact
            by_cases hnull : zeros = true ∧ w = 0#32
            · obtain ⟨rfl, rfl⟩ := hnull
              exact .inr (.inl ⟨width, ⟨hlt, h.2⟩, rfl⟩)
            · exact .inr (.inr fun rest => not_start_p hlt fun hzeros hw => hnull ⟨hzeros, hw⟩)

theorem zeros_of_shifted {s : List Byte} (h : List.replicate (m + 1) zero ++ s <+: s ++ rest) :
    ∀ b ∈ s, b = zero := by
  induction s with
  | nil => exact List.forall_mem_nil _
  | cons b s ih =>
      obtain ⟨hb, hs⟩ := List.cons_prefix_cons.mp (h : zero :: (List.replicate m zero ++ b :: s) <+: _)
      have hcomm : List.replicate m zero ++ zero :: s = List.replicate (m + 1) zero ++ s := by
        rw [List.replicate_succ', List.append_assoc]
        rfl
      have hs : List.replicate m zero ++ b :: s <+: s ++ rest := hs
      rw [← hb, hcomm] at hs
      exact List.forall_mem_cons.mpr ⟨hb.symm, ih hs⟩

/-- What agrees behind surplus zeros is zeros. -/
theorem Directive.Holds.shifted (h : d.Holds)
    (hstart : List.replicate (m + 1) zero ++ d.piece <+: d.expand ++ rest) :
    d.Kept ∧ ∀ b ∈ d.expand, b = zero := by
  have hkept : d.Kept := by
    cases d with
    | plain c hc => trivial
    | conv zeros width k =>
        by_cases hexact : k.Exact width
        · obtain ⟨hwidth, hpad⟩ := h
          exact ⟨hexact, hwidth, hexact.room_iff.mp hpad⟩
        · exfalso
          cases k with
          | s _ | u _ => exact hexact trivial
          | d w => exact not_shifted_d (Int.not_le.mp hexact) _ hstart
          | p w => exact not_shifted_p hstart
          | o w =>
              have hnot := not_shifted_unsigned zeros width rest (by decide : LegalRadix 8)
                (Int.not_le.mp hexact) (fun hmin => ⟨46#8, by rw [hmin]; rfl, by decide⟩) m
              cases zeros <;> exact hnot hstart
          | x w =>
              have hnot := not_shifted_unsigned zeros width rest (by decide : LegalRadix 16)
                (Int.not_le.mp hexact) (fun hmin => ⟨40#8, by rw [hmin]; rfl, by decide⟩) m
              cases zeros <;> exact hnot hstart
          | c w =>
              have hw : w.setWidth 8 = 0#8 := not_not.mp hexact
              have hlen : (Directive.conv zeros width (.c w)).piece.length = width := by
                simp [Directive.piece, Conversion.lead, Conversion.written, cStr, hw]
              refine not_start_nul rest hw ?_ ?_ ?_ hstart
              · rw [List.mem_append]
                rintro (hmem | hmem)
                · exact absurd (List.mem_replicate.mp hmem).2 (by decide)
                · exact zero_notMem_piece _ hmem
              · rw [List.length_append, List.length_replicate]
                omega
              · rw [List.length_append, hlen]
                omega
  rw [hkept.piece] at hstart
  exact ⟨hkept, zeros_of_shifted hstart⟩

end Pieces

section Formats
variable {m n size : Nat} {buf rest : List Byte} {ds : List Directive}

theorem zero_notMem_piecesOf : 0#8 ∉ piecesOf ds := by
  intro h
  obtain ⟨d, -, hd⟩ := List.mem_flatMap.mp h
  exact d.zero_notMem_piece hd

theorem piecesOf_eq (h : ∀ d ∈ ds, d.Kept) : piecesOf ds = expansionOf ds :=
  List.flatMap_congr fun d hd => (h d hd).piece

/-- The surplus zeros are passed on to what comes next. -/
theorem shifted_zeros (hholds : ∀ d ∈ ds, d.Holds)
    (h : List.replicate (m + 1) zero ++ piecesOf ds <+: expansionOf ds ++ rest) :
    (∀ d ∈ ds, d.Kept ∧ ∀ b ∈ d.expand, b = zero) ∧ List.replicate (m + 1) zero <+: rest := by
  induction ds with
  | nil => exact ⟨List.forall_mem_nil _, List.append_nil (List.replicate (m + 1) zero) ▸ h⟩
  | cons d ds ih =>
      obtain ⟨hd, hds⟩ := List.forall_mem_cons.mp hholds
      rw [piecesOf, expansionOf, List.flatMap_cons, List.flatMap_cons, ← List.append_assoc,
        List.append_assoc d.expand] at h
      obtain ⟨hkept, hzeros⟩ := hd.shifted ((List.prefix_append _ _).trans h)
      have hexpand : d.expand = List.replicate d.expand.length zero :=
        List.eq_replicate_of_mem hzeros
      have hcomm : List.replicate (m + 1) zero ++ d.expand = d.expand ++ List.replicate (m + 1) zero := by
        rw [hexpand, List.replicate_append_replicate, List.replicate_append_replicate, Nat.add_comm]
      rw [hkept.piece, hcomm, List.append_assoc, List.prefix_append_right_inj] at h
      obtain ⟨hrest, hpre⟩ := ih hds h
      exact ⟨List.forall_mem_cons.mpr ⟨⟨hkept, hzeros⟩, hrest⟩, hpre⟩

theorem append_eq_take_iff {α : Type} {a b c : List α} :
    a ++ b = (a ++ c).take n ↔ a.length ≤ n ∧ b = c.take (n - a.length) := by
  rw [List.take_append]
  by_cases hle : a.length ≤ n
  · rw [List.take_of_length_le hle, List.append_cancel_left_eq]
    exact ⟨fun h => ⟨hle, h⟩, And.right⟩
  · refine ⟨fun h => ?_, fun h => absurd h.1 hle⟩
    have hlen := congrArg List.length h
    rw [List.length_append, List.length_append, List.length_take, List.length_take] at hlen
    omega

theorem piece_null (width : Nat) (hwidth : 1 ≤ width) :
    (Directive.conv true width (.p 0#32)).piece = hexLead ++ List.replicate width zero := by
  obtain ⟨i, rfl⟩ := Nat.exists_eq_add_of_le' hwidth
  rw [piece_p, List.replicate_succ']
  rfl

theorem expand_null (width : Nat) (hwidth : 2 ≤ width) :
    (Directive.conv true width (.p 0#32)).expand =
      hexLead ++ List.replicate (width - min (width - 1) 2) zero := by
  have hlen : width - min (width - 1) 2 = width - 3 + 1 := by omega
  rw [expand_p, hlen, List.replicate_succ']
  rfl

theorem Agrees.holds (h : Agrees rest n ds) : ∀ d ∈ ds, d.Holds := by
  induction h with
  | done _ => exact List.forall_mem_nil _
  | kept hd _ _ ih => exact List.forall_mem_cons.mpr ⟨hd.holds, ih⟩
  | nul hw hds =>
      exact List.forall_mem_cons.mpr ⟨⟨by decide, Nat.zero_le _⟩, fun d hd => (hds d hd).holds⟩
  | null hwidth hds _ _ _ =>
      refine List.forall_mem_cons.mpr ⟨⟨by omega, hwidth.2⟩, fun d hd => (hds d hd).1.holds⟩

theorem Agrees.pieces (h : Agrees rest n ds) :
    piecesOf ds = (expansionOf ds ++ rest).take n := by
  induction h with
  | done h =>
      rcases h with rfl | rfl
      · rw [List.take_zero]
        rfl
      · rw [expansionOf, List.flatMap_nil, List.nil_append, List.take_nil]
        rfl
  | kept hd hle _ ih =>
      rw [piecesOf, expansionOf, List.flatMap_cons, List.flatMap_cons, hd.piece, List.append_assoc]
      exact append_eq_take_iff.mpr ⟨hle, ih⟩
  | nul hw hds =>
      rw [List.take_zero, piecesOf, List.flatMap_eq_nil_iff]
      intro d hd
      rcases List.mem_cons.mp hd with rfl | hd
      · exact Directive.Silent.piece ⟨rfl, hw⟩
      · exact (hds d hd).piece
  | @null n width more ds hwidth hds hrest hle hfull =>
      have hpieces : piecesOf ds = expansionOf ds := piecesOf_eq fun d hd => (hds d hd).1
      have hzeros : expansionOf ds = List.replicate (expansionOf ds).length zero := by
        apply List.eq_replicate_of_mem
        intro b hb
        obtain ⟨d, hd, hmem⟩ := List.mem_flatMap.mp hb
        exact (hds d hd).2 b hmem
      -- The surplus zeros come before or behind the others alike.
      have htext : (Directive.conv true width (.p 0#32)).expand ++ (expansionOf ds ++ rest) =
          (Directive.conv true width (.p 0#32)).piece ++ expansionOf ds ++ more := by
        have hwidths : width - min (width - 1) 2 + ((expansionOf ds).length + min (width - 1) 2) =
            width + (expansionOf ds).length := by omega
        rw [expand_null width hwidth.1, piece_null width (by omega), hrest, hzeros]
        simp only [List.append_assoc, ← List.append_assoc (List.replicate _ zero),
          List.replicate_append_replicate, hwidths]
      have hlen : ((Directive.conv true width (.p 0#32)).piece ++ expansionOf ds).length =
          width + 2 + (expansionOf ds).length := by
        rw [List.length_append, piece_null width (by omega), List.length_append,
          List.length_replicate, Nat.add_comm width]
        rfl
      rw [piecesOf, List.flatMap_cons]
      change _ ++ piecesOf ds = ((_ ++ expansionOf ds) ++ rest).take n
      rw [hpieces, List.append_assoc, htext]
      rcases hfull with hfull | rfl
      · exact (List.take_left' (hlen.trans hfull)).symm
      · rw [List.append_nil, List.take_of_length_le (hlen ▸ hle)]

/-- What the formatter writes is the start of the expansion exactly when it agrees. -/
theorem agrees_iff :
    (∀ d ∈ ds, d.Holds) ∧ piecesOf ds = (expansionOf ds ++ rest).take n ↔ Agrees rest n ds := by
  refine ⟨?_, fun h => ⟨h.holds, h.pieces⟩⟩
  rintro ⟨hholds, heq⟩
  induction ds generalizing n with
  | nil => exact .done (List.take_eq_nil_iff.mp heq.symm)
  | cons d ds ih =>
      obtain ⟨hd, hds⟩ := List.forall_mem_cons.mp hholds
      have heq : d.piece ++ piecesOf ds = (d.expand ++ (expansionOf ds ++ rest)).take n := by
        rw [← List.append_assoc]
        exact heq
      rcases hd.kept_or with hkept | ⟨zeros, w, hw, rfl⟩ | ⟨width, hwidth, rfl⟩ | hnot
      · rw [hkept.piece, append_eq_take_iff] at heq
        exact .kept hkept heq.1 (ih hds heq.2)
      · have hexpand : (Directive.conv zeros 0 (.c w)).expand = [0#8] := by
          have hbody : (Conversion.c w).body = [0#8] := congrArg (fun b => [b]) hw
          rw [Directive.expand, Conversion.expand, hbody]
          cases zeros <;> rfl
        have hsilent : (Directive.conv zeros 0 (.c w)).Silent := ⟨rfl, hw⟩
        rw [hsilent.piece, hexpand, List.nil_append] at heq
        cases n with
        | zero =>
            rw [List.take_zero, piecesOf, List.flatMap_eq_nil_iff] at heq
            exact .nul hw fun d hd => Directive.silent_of_piece (heq d hd)
        | succ n =>
            have hmem : 0#8 ∈ piecesOf ds := by
              rw [heq]
              exact List.mem_cons_self
            exact absurd hmem zero_notMem_piecesOf
      · obtain ⟨m, hm⟩ : ∃ m, min (width - 1) 2 = m + 1 := ⟨min (width - 1) 2 - 1, by omega⟩
        have hsplit : width = width - min (width - 1) 2 + min (width - 1) 2 := by omega
        have hpiece : (Directive.conv true width (.p 0#32)).piece =
            (Directive.conv true width (.p 0#32)).expand ++ List.replicate (min (width - 1) 2) zero := by
          rw [piece_null width (by omega), expand_null width hwidth.1, List.append_assoc,
            List.replicate_append_replicate, ← hsplit]
        have hpre := heq ▸ List.take_prefix n _
        rw [hpiece, List.append_assoc, List.prefix_append_right_inj, hm] at hpre
        obtain ⟨hzeros, more, hmore⟩ := shifted_zeros hds hpre
        have hlen := congrArg List.length heq
        rw [piecesOf_eq fun d hd => (hzeros d hd).1, List.length_append, List.length_take,
          List.length_append, List.length_append, ← hmore, List.length_append, List.length_replicate,
          piece_null width (by omega), expand_null width hwidth.1, List.length_append,
          List.length_append, List.length_replicate, List.length_replicate] at hlen
        refine .null hwidth hzeros (hm ▸ hmore.symm) ?_ ?_
        · change 2 + width + _ = _ at hlen
          omega
        · rw [← List.length_eq_zero_iff]
          change 2 + width + _ = min n (2 + _ + _) at hlen
          omega
      · exact absurd ((List.prefix_append _ _).trans (heq ▸ List.take_prefix n _)) (hnot _)

theorem vsnprintf_eq_some_iff {out : List Byte} (hbuf : buf.length = bufSize) :
    vsnprintf buf size (formatOf ds) (argsOf ds) = some out ↔
      (∀ d ∈ processed size ds, d.Holds) ∧ CutHolds size ds ∧ out = piecesOf (processed size ds) := by
  rw [vsnprintf, innerVsnprintf, vsnprintfFrom_checked]
  exact foldlM_read_take hbuf

/-- `vsnprintf` gives the first `size - 1` characters of the expansion exactly when the directives
within the first `size` characters of the format fit. -/
theorem vsnprintf_meets_iff (hsize : 1 ≤ size) (hbuf : buf.length = bufSize) :
    Meets buf size ds ↔ Fits size ds := by
  have hsplit : expansionOf ds =
      expansionOf (processed size ds) ++ expansionOf (unread size ds) := by
    rw [expansionOf, expansionOf, expansionOf, ← List.flatMap_append, processed_append_unread]
  constructor
  · rintro ⟨str, hstr, -, htake⟩
    obtain ⟨hholds, hcut, hpieces⟩ := (vsnprintf_eq_some_iff hbuf).mp hstr
    rw [hpieces, hsplit] at htake
    exact ⟨hcut, agrees_iff.mp ⟨hholds, htake⟩⟩
  · intro h
    obtain ⟨hholds, htake⟩ := agrees_iff.mpr h.agrees
    rw [← hsplit] at htake
    refine ⟨piecesOf (processed size ds), ?_, ?_, htake⟩
    · exact (vsnprintf_eq_some_iff hbuf).mpr ⟨hholds, h.cut, rfl⟩
    · have hlen : (piecesOf (processed size ds)).length ≤ size - 1 := by
        rw [htake]
        exact List.length_take_le _ _
      omega

/-- `snprintf(str, 13, "%05d %4p", 42, 0x1f0a)`. -/
theorem vsnprintf_meets_padded :
    Meets (List.replicate 100 0#8) 13
      [.conv true 5 (.d 42#32), .plain 32#8 (by decide), .conv false 4 (.p 0x1f0a#32)] :=
  (vsnprintf_meets_iff (by decide) (by decide)).mpr
    ⟨by decide, .kept (by decide) (by decide) (.kept (by decide) (by decide)
      (.kept (by decide) (by decide) (.done (by decide))))⟩

-- `"%8p"` of `0x1f` is padded behind its `0x`.
example : Directive.piece (.conv false 8 (.p 31#32)) ≠ Directive.expand (.conv false 8 (.p 31#32)) := by
  decide

def hello : Text := ⟨[104#8, 101#8, 108#8, 108#8, 111#8], by decide⟩

/-- `snprintf(str, 4, "%s", "hello")` writes six bytes. -/
theorem vsnprintf_not_meets :
    vsnprintf (List.replicate 100 0#8) 4 (formatOf [.conv false 0 (.s hello)])
        (argsOf [.conv false 0 (.s hello)]) = some hello.bytes ∧
      ¬ Meets (List.replicate 100 0#8) 4 [.conv false 0 (.s hello)] := by
  have hwritten : vsnprintf (List.replicate 100 0#8) 4 (formatOf [.conv false 0 (.s hello)])
      (argsOf [.conv false 0 (.s hello)]) = some hello.bytes := by decide
  refine ⟨hwritten, ?_⟩
  rintro ⟨str, hstr, hlen, -⟩
  rw [hwritten, Option.some.injEq] at hstr
  rw [← hstr] at hlen
  exact absurd hlen (by decide)

end Formats

end Tenok.Printf
