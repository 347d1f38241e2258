import Mathlib.Data.Nat.Digits.Lemmas

/-!
Numerals in a base of two or more: the digits from the highest to the lowest, without leading zeros.
-/
namespace Numeral
variable {b m n d : Nat} {l : List Nat}

/-- The number that a list of digits stands for, by Horner's rule. -/
def value (b : Nat) (l : List Nat) : Nat := l.foldl (fun n d => b * n + d) 0

structure IsNumeral (b n : Nat) (l : List Nat) : Prop where
  ne_nil : l ≠ []
  lt_base : ∀ d ∈ l, d < b
  leading : l.head? = some 0 → l = [0]
  value : value b l = n

def numeral (b n : Nat) : List Nat := if n = 0 then [0] else (Nat.digits b n).reverse

theorem value_snoc : value b (l ++ [d]) = b * value b l + d := by
  rw [value, List.foldl_append]
  rfl

theorem value_eq_ofDigits : value b l = Nat.ofDigits b l.reverse := by
  induction l using List.reverseRecOn with
  | nil => rfl
  | append_singleton l d ih =>
      rw [value_snoc, ih, List.reverse_append, List.reverse_singleton, List.singleton_append,
        Nat.ofDigits_cons, Nat.add_comm]

theorem numeral_zero : numeral b 0 = [0] := if_pos rfl

theorem numeral_of_pos (hn : 0 < n) : numeral b n = (Nat.digits b n).reverse :=
  if_neg (Nat.ne_of_gt hn)

theorem isNumeral_zero (hb : 1 < b) : IsNumeral b 0 [0] where
  ne_nil := List.cons_ne_nil _ _
  lt_base := by
    intro d hd
    rw [List.mem_singleton] at hd
    omega
  leading _ := rfl
  value := rfl

theorem isNumeral_numeral (hb : 1 < b) (n : Nat) : IsNumeral b n (numeral b n) := by
  obtain rfl | hn := Nat.eq_zero_or_pos n
  · rw [numeral_zero]
    exact isNumeral_zero hb
  · have hne : Nat.digits b n ≠ [] := Nat.digits_ne_nil_iff_ne_zero.mpr (Nat.ne_of_gt hn)
    rw [numeral_of_pos hn]
    refine ⟨by simpa using hne, ?_, ?_, ?_⟩
    · intro d hd
      exact Nat.digits_lt_base hb (List.mem_reverse.mp hd)
    · intro hzero
      rw [List.head?_reverse, List.getLast?_eq_getLast_of_ne_nil hne, Option.some.injEq] at hzero
      exact absurd hzero (Nat.getLast_digit_ne_zero b (Nat.ne_of_gt hn))
    · rw [value_eq_ofDigits, List.reverse_reverse, Nat.ofDigits_digits]

theorem IsNumeral.eq_numeral (hb : 1 < b) (h : IsNumeral b n l) : l = numeral b n := by
  have hvalue : Nat.ofDigits b l.reverse = n := value_eq_ofDigits.symm.trans h.value
  by_cases hzero : l.head? = some 0
  · have hl := h.leading hzero
    rw [hl] at hvalue
    rw [hl, ← hvalue]
    rfl
  · have hdigits : Nat.digits b n = l.reverse := by
      rw [← hvalue]
      refine Nat.digits_ofDigits b hb _ (fun d hd => h.lt_base d (List.mem_reverse.mp hd)) ?_
      intro hne hlast
      refine hzero ?_
      rw [← List.getLast?_reverse, List.getLast?_eq_getLast_of_ne_nil hne, hlast]
    have hn : 0 < n := by
      refine Nat.pos_of_ne_zero fun hn => h.ne_nil ?_
      rw [hn, Nat.digits_zero] at hdigits
      exact List.reverse_eq_nil_iff.mp hdigits.symm
    rw [numeral_of_pos hn, hdigits, List.reverse_reverse]

theorem length_numeral_le {k : Nat} (hb : 1 < b) (hk : 0 < k) (hn : n < b ^ k) :
    (numeral b n).length ≤ k := by
  obtain rfl | hpos := Nat.eq_zero_or_pos n
  · rw [numeral_zero]
    exact hk
  · rw [numeral_of_pos hpos, List.length_reverse]
    exact (Nat.digits_length_le_iff hb n).mpr hn

theorem length_numeral_mono (hb : 1 < b) (h : m ≤ n) :
    (numeral b m).length ≤ (numeral b n).length := by
  obtain rfl | hpos := Nat.eq_zero_or_pos m
  · rw [numeral_zero]
    exact List.length_pos_of_ne_nil (isNumeral_numeral hb n).ne_nil
  · rw [numeral_of_pos hpos, numeral_of_pos (Nat.lt_of_lt_of_le hpos h), List.length_reverse,
      List.length_reverse]
    exact Nat.le_length_digits_le b m n h

end Numeral
