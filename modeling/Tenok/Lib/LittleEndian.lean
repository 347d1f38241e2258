import Mathlib.Data.Nat.Digits.Defs

/-!
Numbers as bytes, the lowest byte first.
-/
namespace LittleEndian
variable {w : Nat}

def bytes (n : Nat) (x : BitVec w) : List (BitVec 8) :=
  (List.range n).map fun i => x.extractLsb' (8 * i) 8

def value (w : Nat) (l : List (BitVec 8)) : BitVec w :=
  BitVec.ofNat w (Nat.ofDigits 256 (l.map BitVec.toNat))

@[simp] theorem length_bytes (n : Nat) (x : BitVec w) : (bytes n x).length = n := by
  simp [bytes]

theorem ofDigits_bytes (n : Nat) (x : BitVec w) :
    Nat.ofDigits 256 ((bytes n x).map BitVec.toNat) = x.toNat % 256 ^ n := by
  induction n with
  | zero => simp [bytes, Nat.mod_one]
  | succ n ih =>
      have hlen : ((bytes n x).map BitVec.toNat).length = n := by simp
      have hbyte : (x.extractLsb' (8 * n) 8).toNat = x.toNat / 256 ^ n % 256 := by
        have hpow : 256 ^ n = 2 ^ (8 * n) := by rw [Nat.pow_mul]
        rw [BitVec.extractLsb'_toNat, Nat.shiftRight_eq_div_pow, hpow]
      rw [bytes, List.range_succ, List.map_append, List.map_append, Nat.ofDigits_append]
      change Nat.ofDigits 256 ((bytes n x).map BitVec.toNat) +
        256 ^ ((bytes n x).map BitVec.toNat).length * _ = _
      rw [ih, hlen, List.map_singleton, List.map_singleton, Nat.ofDigits_singleton, hbyte,
        Nat.pow_succ, Nat.mod_mul]

theorem value_bytes {n : Nat} (hw : w = 8 * n) (x : BitVec w) : value w (bytes n x) = x := by
  have hpow : 256 ^ n = 2 ^ w := by rw [hw, Nat.pow_mul]
  rw [value, ofDigits_bytes, hpow, Nat.mod_eq_of_lt x.isLt, BitVec.ofNat_toNat, BitVec.setWidth_eq]

theorem testBit_ofDigits {l : List Nat} (h : ∀ d ∈ l, d < 2 ^ w) (hw : 0 < w) (i : Nat) :
    (Nat.ofDigits (2 ^ w) l).testBit i = (l.getD (i / w) 0).testBit (i % w) := by
  induction l generalizing i with
  | nil => rw [Nat.ofDigits_nil, List.getD_nil]; simp only [Nat.zero_testBit]
  | cons d l ih =>
      obtain ⟨hd, hl⟩ := List.forall_mem_cons.mp h
      rw [Nat.ofDigits_cons, Nat.add_comm, Nat.testBit_two_pow_mul_add _ hd]
      split
      next hi => rw [Nat.div_eq_of_lt hi, Nat.mod_eq_of_lt hi, List.getD_cons_zero]
      next hi =>
        have hle : w ≤ i := Nat.le_of_not_lt hi
        rw [ih hl, Nat.div_eq_sub_div hw hle, List.getD_cons_succ, Nat.mod_eq_sub_mod hle]

theorem getLsbD_value {l : List (BitVec 8)} {i : Nat} (hi : i < w) :
    (value w l).getLsbD i = (l.getD (i / 8) 0#8).getLsbD (i % 8) := by
  have hdigits : ∀ d ∈ l.map BitVec.toNat, d < 2 ^ 8 := by
    intro d hd
    obtain ⟨b, -, rfl⟩ := List.mem_map.mp hd
    exact b.isLt
  have hbit := testBit_ofDigits hdigits (by decide) i
  have hget : (l.map BitVec.toNat).getD (i / 8) 0 = (l.getD (i / 8) 0#8).toNat := by
    rw [List.getD_eq_getElem?_getD, List.getD_eq_getElem?_getD, List.getElem?_map]
    cases l[i / 8]? <;> rfl
  rw [value, BitVec.getLsbD_ofNat, decide_eq_true hi, Bool.true_and, BitVec.getLsbD, ← hget]
  exact hbit

end LittleEndian
