import Tenok.Drivers.Sbus
import Tenok.Lib.LittleEndian

/-!
The channels of a frame: `decode_sbus` cuts the 22 bytes behind the first one into sixteen numbers of
eleven bits.
-/
namespace Tenok.Sbus

/-- The bytes 1 to 22 of a frame as one number. -/
def payload (frame : Nat → Byte) : BitVec 176 :=
  LittleEndian.value 176 ((List.range 22).map fun i => frame (i + 1))

def pack (channels : List (BitVec 11)) : BitVec 176 :=
  BitVec.ofNat 176 (Nat.ofDigits (2 ^ 11) (channels.map BitVec.toNat))

section Channels
variable {frame : Nat → Byte} {q r j : Nat}

theorem getLsbD_payload {i : Nat} (hi : i < 176) :
    (payload frame).getLsbD i = (frame (i / 8 + 1)).getLsbD (i % 8) := by
  have hbyte : i / 8 < 22 := by omega
  rw [payload, LittleEndian.getLsbD_value hi, List.getD_eq_getElem?_getD, List.getElem?_map,
    List.getElem?_range hbyte]
  rfl

theorem getLsbD_channel {bits : BitVec 32} (hj : j < 16) :
    (channel bits).getLsbD j = (decide (j < 11) && bits.getLsbD j) := by
  have hmask : (0x07ff#32).getLsbD j = decide (j < 11) := by decide +revert
  rw [channel, BitVec.getLsbD_setWidth, decide_eq_true hj, Bool.true_and, BitVec.getLsbD_and, hmask,
    Bool.and_comm]

theorem getLsbD_shiftDown (b : Byte) : (b.setWidth 32 >>> r).getLsbD j = b.getLsbD (r + j) := by
  rw [BitVec.getLsbD_ushiftRight, BitVec.getLsbD_setWidth]
  by_cases hlt : r + j < 32
  · rw [decide_eq_true hlt, Bool.true_and]
  · rw [BitVec.getLsbD_of_ge b _ (by omega), Bool.and_false]

theorem getLsbD_shiftUp (b : Byte) {k : Nat} (hj : j < 32) :
    (b.setWidth 32 <<< k).getLsbD j = (decide (k ≤ j) && b.getLsbD (j - k)) := by
  rw [BitVec.getLsbD_shiftLeft, BitVec.getLsbD_setWidth, decide_eq_true hj, Bool.true_and]
  by_cases hk : j < k
  · rw [decide_eq_true hk, decide_eq_false (Nat.not_le.mpr hk)]
    rfl
  · have hlt : j - k < 32 := by omega
    rw [decide_eq_false hk, decide_eq_true (Nat.le_of_not_lt hk), decide_eq_true hlt]
    rfl

/-- Eleven bits of the payload from bit `r` of byte `q` on. -/
def window (frame : Nat → Byte) (q r : Nat) : BitVec 16 :=
  ((payload frame).extractLsb' (8 * q + r) 11).setWidth 16

theorem getLsbD_window (hj : j < 11) (hq : 8 * q + r + j < 176) :
    (window frame q r).getLsbD j = (frame (q + (r + j) / 8 + 1)).getLsbD ((r + j) % 8) := by
  have hdiv : (8 * q + r + j) / 8 = q + (r + j) / 8 := by omega
  have hmod : (8 * q + r + j) % 8 = (r + j) % 8 := by omega
  have hwidth : j < 16 := by omega
  rw [window, BitVec.getLsbD_setWidth, BitVec.getLsbD_extractLsb', decide_eq_true hwidth,
    decide_eq_true hj, Bool.true_and, Bool.true_and, getLsbD_payload hq, hdiv, hmod]

theorem channel_eq_window {bits : BitVec 32}
    (h : ∀ j < 11, bits.getLsbD j = (window frame q r).getLsbD j) : channel bits = window frame q r := by
  refine BitVec.eq_of_getLsbD_eq fun j hj => ?_
  rw [getLsbD_channel hj]
  by_cases hlt : j < 11
  · rw [decide_eq_true hlt, Bool.true_and, h j hlt]
  · have hout : (window frame q r).getLsbD j = false := by
      rw [window, BitVec.getLsbD_setWidth, BitVec.getLsbD_extractLsb', decide_eq_false hlt,
        Bool.false_and, Bool.and_false]
    rw [decide_eq_false hlt, Bool.false_and, hout]

theorem channel_two (hr : r ≤ 5) (hq : q + 2 ≤ 22) :
    channel ((frame (q + 1)).setWidth 32 >>> r ||| (frame (q + 2)).setWidth 32 <<< (8 - r)) =
      window frame q r := by
  refine channel_eq_window fun j hj => ?_
  rw [BitVec.getLsbD_or, getLsbD_shiftDown, getLsbD_shiftUp _ (by omega),
    getLsbD_window hj (by omega)]
  by_cases hlow : r + j < 8
  · rw [Nat.div_eq_of_lt hlow, Nat.mod_eq_of_lt hlow, decide_eq_false (by omega : ¬ 8 - r ≤ j),
      Bool.false_and, Bool.or_false, Nat.add_zero]
  · have hdiv : (r + j) / 8 = 1 := by omega
    have hmod : (r + j) % 8 = j - (8 - r) := by omega
    rw [hdiv, hmod, decide_eq_true (by omega : 8 - r ≤ j), BitVec.getLsbD_of_ge _ _ (by omega),
      Bool.false_or, Bool.true_and]

theorem channel_three (hr : r ≤ 7) (hq : q + 3 ≤ 22) :
    channel ((frame (q + 1)).setWidth 32 >>> r ||| (frame (q + 2)).setWidth 32 <<< (8 - r) |||
      (frame (q + 3)).setWidth 32 <<< (16 - r)) = window frame q r := by
  refine channel_eq_window fun j hj => ?_
  rw [BitVec.getLsbD_or, BitVec.getLsbD_or, getLsbD_shiftDown, getLsbD_shiftUp _ (by omega),
    getLsbD_shiftUp _ (by omega), getLsbD_window hj (by omega)]
  by_cases hlow : r + j < 8
  · rw [Nat.div_eq_of_lt hlow, Nat.mod_eq_of_lt hlow, decide_eq_false (by omega : ¬ 8 - r ≤ j),
      decide_eq_false (by omega : ¬ 16 - r ≤ j), Bool.false_and, Bool.false_and, Bool.or_false,
      Bool.or_false, Nat.add_zero]
  · rw [BitVec.getLsbD_of_ge _ _ (by omega : 8 ≤ r + j), decide_eq_true (by omega : 8 - r ≤ j),
      Bool.false_or, Bool.true_and]
    by_cases hmid : r + j < 16
    · have hdiv : (r + j) / 8 = 1 := by omega
      have hmod : (r + j) % 8 = j - (8 - r) := by omega
      rw [hdiv, hmod, decide_eq_false (by omega : ¬ 16 - r ≤ j), Bool.false_and, Bool.or_false]
    · have hdiv : (r + j) / 8 = 2 := by omega
      have hmod : (r + j) % 8 = j - (16 - r) := by omega
      rw [hdiv, hmod, decide_eq_true (by omega : 16 - r ≤ j), Bool.true_and,
        BitVec.getLsbD_of_ge _ _ (by omega : 8 ≤ j - (8 - r)), Bool.false_or]

theorem channel_aligned (hq : q + 2 ≤ 22) :
    channel ((frame (q + 1)).setWidth 32 ||| (frame (q + 2)).setWidth 32 <<< 8) =
      window frame q 0 := by
  have h : channel ((frame (q + 1)).setWidth 32 >>> 0 ||| (frame (q + 2)).setWidth 32 <<< (8 - 0)) =
      window frame q 0 := channel_two (Nat.zero_le _) hq
  rwa [BitVec.ushiftRight_zero] at h

theorem decodeSbus_windows (s : Sbus) : (decodeSbus s).rcVal =
    (List.range 16).map fun k => window s.buf (11 * k / 8) (11 * k % 8) := by
  simp only [decodeSbus, List.range, List.range.loop, List.map_cons, List.map_nil, List.cons.injEq,
    and_true]
  refine ⟨channel_aligned ?_, channel_two ?_ ?_, channel_three ?_ ?_, channel_two ?_ ?_,
    channel_two ?_ ?_, channel_three ?_ ?_, channel_two ?_ ?_, channel_two ?_ ?_, channel_aligned ?_,
    channel_two ?_ ?_, channel_three ?_ ?_, channel_two ?_ ?_, channel_two ?_ ?_,
    channel_three ?_ ?_, channel_two ?_ ?_, channel_two ?_ ?_⟩
  all_goals decide

theorem extract_pack {channels : List (BitVec 11)} {k : Nat} (hk : k < 16) :
    (pack channels).extractLsb' (11 * k) 11 = channels.getD k 0#11 := by
  have hdigits : ∀ d ∈ channels.map BitVec.toNat, d < 2 ^ 11 := by
    intro d hd
    obtain ⟨c, -, rfl⟩ := List.mem_map.mp hd
    exact c.isLt
  refine BitVec.eq_of_getLsbD_eq fun j hj => ?_
  have hdiv : (11 * k + j) / 11 = k := by omega
  have hmod : (11 * k + j) % 11 = j := by omega
  have hlt : 11 * k + j < 176 := by omega
  have hbit := LittleEndian.testBit_ofDigits hdigits (by decide) (11 * k + j)
  have hget : (channels.map BitVec.toNat).getD k 0 = (channels.getD k 0#11).toNat := by
    rw [List.getD_eq_getElem?_getD, List.getD_eq_getElem?_getD, List.getElem?_map]
    cases channels[k]? <;> rfl
  rw [hdiv, hmod, hget] at hbit
  rw [BitVec.getLsbD_extractLsb', decide_eq_true hj, Bool.true_and, pack, BitVec.getLsbD_ofNat,
    decide_eq_true hlt, Bool.true_and, hbit, BitVec.getLsbD]

/-- Every channel is its eleven bits of the payload, so that packed channels are recovered. -/
theorem decodeSbus_channels (s : Sbus) :
    (decodeSbus s).rcVal.length = 16 ∧
    (∀ k < 16, (decodeSbus s).rcVal[k]? =
      some (((payload s.buf).extractLsb' (11 * k) 11).setWidth 16)) ∧
    ∀ channels : List (BitVec 11), channels.length = 16 →
      ((List.range 22).map fun i => s.buf (i + 1)) = LittleEndian.bytes 22 (pack channels) →
      (decodeSbus s).rcVal = channels.map (BitVec.setWidth 16) := by
  have hchannel : ∀ k < 16, (decodeSbus s).rcVal[k]? =
      some (((payload s.buf).extractLsb' (11 * k) 11).setWidth 16) := by
    intro k hk
    have hbit : 8 * (11 * k / 8) + 11 * k % 8 = 11 * k := Nat.div_add_mod _ _
    rw [decodeSbus_windows, List.getElem?_map, List.getElem?_range hk, Option.map_some, window, hbit]
  have hlength : (decodeSbus s).rcVal.length = 16 := rfl
  refine ⟨hlength, hchannel, fun channels hlen hframe => ?_⟩
  have hpayload : payload s.buf = pack channels := by
    rw [payload, hframe]
    exact LittleEndian.value_bytes rfl _
  refine List.ext_getElem? fun k => ?_
  rw [List.getElem?_map]
  by_cases hk : k < 16
  · have hget : channels[k]? = some (channels.getD k 0#11) := by
      rw [List.getD_eq_getElem?_getD, List.getElem?_eq_getElem (by omega)]
      rfl
    rw [hchannel k hk, hpayload, extract_pack hk, hget]
    rfl
  · rw [List.getElem?_eq_none (by omega), List.getElem?_eq_none (by omega)]
    rfl

/-- A frame in which every channel is its number. -/
theorem decodeSbus_numbers :
    (decodeSbus { init with
      buf := fun i => (LittleEndian.bytes 22 (pack ((List.range 16).map (BitVec.ofNat 11)))).getD
        (i - 1) 0#8 }).rcVal = (List.range 16).map (BitVec.ofNat 16) :=
  (decodeSbus_channels _).2.2 ((List.range 16).map (BitVec.ofNat 11)) (by decide) (by decide)

end Channels

end Tenok.Sbus
