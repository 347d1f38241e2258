import Tenok.Common.Bitops

/-!
`include/common/util.h`, and copies between buffers. `ALIGN` rounds down, whatever its
callers use it for.
-/
namespace Tenok

abbrev Byte := BitVec 8

/-- `memcpy(&dst[off], src, n)`. -/
def memcpy (dst : Nat → Byte) (off : Nat) (src : Nat → Byte) (n : Nat) : Nat → Byte :=
  fun i => if off ≤ i ∧ i < off + n then src (i - off) else dst i

def ptrAdd (src : Nat → Byte) (off : Nat) : Nat → Byte := fun i => src (off + i)

def bytesAt (ptr : Nat → Byte) (n : Nat) : List Byte := (List.range n).map ptr

theorem length_bytesAt (buf : Nat → Byte) (n : Nat) : (bytesAt buf n).length = n := by
  simp [bytesAt]

theorem bytesAt_getD (buf : List Byte) :
    bytesAt (fun i => buf.getD i 0#8) buf.length = buf := by
  refine List.ext_getElem (by simp [length_bytesAt]) fun i hi hi' => ?_
  simp [bytesAt, hi']

theorem bytesAt_succ (buf : Nat → Byte) (n : Nat) :
    bytesAt buf (n + 1) = bytesAt buf n ++ [buf n] := by
  simp [bytesAt, List.range_succ]

theorem bytesAt_update (buf : Nat → Byte) (n : Nat) (b : Byte) :
    bytesAt (Function.update buf n b) (n + 1) = bytesAt buf n ++ [b] := by
  rw [bytesAt_succ, Function.update_self]
  refine congrArg (· ++ [b]) (List.map_congr_left fun i hi => ?_)
  exact Function.update_of_ne (Nat.ne_of_lt (List.mem_range.mp hi)) ..

theorem bytesAt_add (buf : Nat → Byte) (m n : Nat) :
    bytesAt buf (m + n) = bytesAt buf m ++ bytesAt (ptrAdd buf m) n := by
  simp [bytesAt, ptrAdd, List.range_add, Function.comp_def]

theorem bytesAt_memcpy (dst src : Nat → Byte) (n : Nat) :
    bytesAt (memcpy dst 0 src n) n = bytesAt src n := by
  refine List.map_congr_left fun i hi => ?_
  have hlt := List.mem_range.mp hi
  rw [memcpy, if_pos ⟨Nat.zero_le i, by omega⟩, Nat.sub_zero]

theorem memcpy_one (dst : Nat → Byte) (off : Nat) (src : Nat → Byte) :
    memcpy dst off src 1 = Function.update dst off (src 0) := by
  funext i
  by_cases hi : i = off
  · subst hi
    simp [memcpy]
  · rw [Function.update_of_ne hi, memcpy, if_neg (by omega)]

def alignMask (x mask : Word) : Word := x &&& ~~~mask

def align (x a : Word) : Word := alignMask x (a - 1)

private theorem low_mask (k : Nat) (hk : k < 32) : (1#32 <<< k) - 1 = BitVec.ofNat 32 (2 ^ k - 1) := by
  have h : (1#32 <<< k) = BitVec.ofNat 32 (2 ^ k) := by
    apply BitVec.eq_of_toNat_eq
    simp [BitVec.toNat_shiftLeft, Nat.shiftLeft_eq]
  rw [h]
  apply BitVec.eq_of_toNat_eq
  have hp : 2 ^ k < 2 ^ 32 := Nat.pow_lt_pow_right (by decide) hk
  have hpos := Nat.two_pow_pos k
  have hone : (1 : Word).toNat = 1 := rfl
  simp only [BitVec.toNat_sub, BitVec.toNat_ofNat, hone]
  omega

theorem and_mask_toNat (w : Word) (k : Nat) (hk : k < 32) :
    (w &&& ~~~((1#32 <<< k) - 1)).toNat = w.toNat / 2 ^ k * 2 ^ k := by
  rw [low_mask k hk]
  apply Nat.eq_of_testBit_eq
  intro i
  rw [Nat.testBit_mul_two_pow, BitVec.testBit_toNat, BitVec.getLsbD_and, BitVec.getLsbD_not,
    BitVec.getLsbD_ofNat, Nat.testBit_two_pow_sub_one, Nat.testBit_div_two_pow, BitVec.testBit_toNat]
  by_cases hi : i < 32
  · by_cases hik : k ≤ i
    · simp [hi, hik, Nat.not_lt.mpr hik]
    · simp [hi, hik]
      omega
  · simp [hi, BitVec.getLsbD_of_ge w i (by omega)]
    intro h
    rw [BitVec.getLsbD_of_ge]
    omega

theorem align_two_pow_toNat (x : Word) (k : Nat) (hk : k < 32) :
    (align x (1#32 <<< k)).toNat = x.toNat / 2 ^ k * 2 ^ k :=
  and_mask_toNat x k hk

end Tenok
