import Tenok.Kernel.PollClock
import Tenok.Kernel.PrintkRuns

/-!
How `printk` puts a message together: the time stamp, the message and the line break go into one
buffer of `PRINT_SIZE_MAX` bytes, but the stamp and the message may each fill `PRINT_SIZE_MAX`
bytes from where they begin.
-/
namespace Tenok

/-- The digits of `XTOA` with radix 10, in at most `n` passes of its loop. -/
def xtoaDigits : Nat → Int → List Byte
  | 0, _ => []
  | n + 1, value =>
      if value = 0 then []
      else xtoaDigits n (value.tdiv 10) ++ [BitVec.ofInt 8 (value.tmod 10 + 48)]

def ltoaBufLen : Nat := 32

def ltoa (value : Int) : List Byte :=
  -- the buffer is filled from its end, and the sign is the first to go in
  if value < 0 then xtoaDigits ltoaBufLen (toLong (-value)) ++ [45#8]
  else if value = 0 then [48#8]
  else xtoaDigits ltoaBufLen value

def cString (str : List Byte) : Nat → Byte := fun i => str.getD i 0#8

/-- `strlen` of a string that ends within `bound` bytes. -/
def strlen (s : Nat → Byte) (bound : Nat) : Nat :=
  ((List.range bound).find? fun i => s i == 0#8).getD bound

/-- `snprintf(&dst[off], size, ...)` with the expansion `str`, of which it keeps what fits into
`size` bytes with the terminator. -/
def snprintf (dst : Nat → Byte) (off size : Nat) (str : List Byte) : Nat → Byte :=
  memcpy dst off (cString (str.take (size - 1))) ((str.take (size - 1)).length + 1)

inductive PrintkArray
  | sec
  | rem
  | zeros
  | buf
  deriving DecidableEq

def PrintkArray.size : PrintkArray → Nat
  | .sec | .rem => ltoaBufLen + 1
  | .zeros => 15
  | .buf => printSizeMax

structure PrintkWrite where
  array : PrintkArray
  off : Nat
  len : Nat
  deriving DecidableEq

/-- What `printk` writes, and the string that it passes to `console_write`. -/
structure PrintkCall where
  writes : List PrintkWrite
  buf : Nat → Byte
  size : Nat

/-- The number of zeros in front of the nanoseconds. `9 - strlen(rem)` is a `size_t`. -/
def stampZeros (rem : List Byte) : Nat := (9 + 2 ^ 32 - rem.length) % 2 ^ 32

/-- The expansion of `"[%5s.%s%s] "`. -/
def timeStamp (sec rem : List Byte) : List Byte :=
  91#8 :: List.replicate (5 - sec.length) 32#8 ++ sec ++ [46#8] ++
    List.replicate (stampZeros rem) 48#8 ++ rem ++ [93#8, 32#8]

def lineBreak : List Byte := [10#8, 13#8]

/-- `printk` at the system time `tp` with the expansion `msg` of its arguments. -/
def printk (tp : Timespec) (msg : List Byte) : PrintkCall :=
  let sec := ltoa (toLong tp.tvSec)
  let rem := ltoa (toLong tp.tvNsec)
  let stamp := timeStamp sec rem
  let pos := stamp.length
  let buf := snprintf (cString [13#8]) 1 printSizeMax stamp
  let buf := snprintf buf (pos + 1) printSizeMax msg
  let len := strlen buf (pos + 1 + printSizeMax)
  let buf := memcpy buf len (cString lineBreak) (lineBreak.length + 1)
  { writes := [⟨.sec, 0, sec.length + 1⟩, ⟨.rem, 0, rem.length + 1⟩, ⟨.zeros, 0, stampZeros rem⟩,
      ⟨.buf, 1, (stamp.take (printSizeMax - 1)).length + 1⟩,
      ⟨.buf, pos + 1, (msg.take (printSizeMax - 1)).length + 1⟩,
      ⟨.buf, len, lineBreak.length + 1⟩]
    buf
    size := strlen buf (len + lineBreak.length + 1) }

/-- The arrays are big enough, and `console_write` gets a line that fits into a buffer. -/
structure PrintkSafe (c : PrintkCall) : Prop where
  writes : ∀ w ∈ c.writes, w.off + w.len ≤ w.array.size
  terminated : c.size < printSizeMax ∧ c.buf c.size = 0#8
  line : lineBreak <:+ bytesAt c.buf c.size
  copied : c.size ≤ printSizeMax

/-- The nanoseconds have no more than nine characters, and there is room for time stamp, message and
line break together. -/
def PrintkFits (tp : Timespec) (msg : List Byte) : Prop :=
  let stamp := 13 + max 5 (ltoa (toLong tp.tvSec)).length
  let kept := msg.take (printSizeMax - 1)
  (ltoa (toLong tp.tvNsec)).length ≤ 9 ∧ stamp + kept.length + 2 ≤ printSizeMax ∧
    stamp + strlen (cString kept) printSizeMax + 4 ≤ printSizeMax

instance decidablePrintkFits (tp : Timespec) (msg : List Byte) : Decidable (PrintkFits tp msg) :=
  inferInstanceAs (Decidable (_ ∧ _))

theorem strlen_eq {s : Nat → Byte} {n bound : Nat} (hn : n < bound) (hbytes : ∀ i < n, s i ≠ 0#8)
    (hend : s n = 0#8) : strlen s bound = n := by
  have hfind : (List.range bound).find? (fun i => s i == 0#8) = some n := by
    rw [List.find?_range_eq_some]
    refine ⟨by simpa using hend, List.mem_range.mpr hn, fun i hi => ?_⟩
    simpa using hbytes i hi
  rw [strlen, hfind, Option.getD_some]

theorem strlen_spec {s : Nat → Byte} {n bound : Nat} (hn : n < bound) (hend : s n = 0#8) :
    strlen s bound ≤ n ∧ (∀ i < strlen s bound, s i ≠ 0#8) ∧ s (strlen s bound) = 0#8 := by
  cases hfind : (List.range bound).find? (fun i => s i == 0#8) with
  | none =>
      rw [List.find?_range_eq_none] at hfind
      simpa [hend] using hfind n hn
  | some k =>
      obtain ⟨hk, _, hbytes⟩ := List.find?_range_eq_some.mp hfind
      have hlen : strlen s bound = k := by rw [strlen, hfind, Option.getD_some]
      rw [hlen]
      refine ⟨?_, fun i hi => by simpa using hbytes i hi, by simpa using hk⟩
      by_contra hlt
      simpa [hend] using hbytes n (by omega)

theorem length_xtoaDigits {k : Nat} (n : Nat) {value : Int} (hvalue : value.natAbs < 10 ^ k) :
    (xtoaDigits n value).length ≤ k := by
  induction n generalizing value k with
  | zero => exact Nat.zero_le _
  | succ n ih =>
      rw [xtoaDigits]
      split
      · exact Nat.zero_le _
      · next hne =>
          cases k with
          | zero =>
              rw [Nat.pow_zero] at hvalue
              omega
          | succ k =>
              have hdiv : (value.tdiv 10).natAbs < 10 ^ k := by
                rw [Int.natAbs_tdiv]
                rw [Nat.pow_succ] at hvalue
                exact Nat.div_lt_of_lt_mul (by simpa [Nat.mul_comm] using hvalue)
              have hlen := ih hdiv
              rw [List.length_append, List.length_singleton]
              omega

theorem natAbs_toLong (value : Int) : (toLong value).natAbs < 10 ^ 10 := by
  rw [toLong, Int.bmod]
  split
  · omega
  · omega

theorem length_ltoa (value : Int) : (ltoa (toLong value)).length ≤ 11 := by
  rw [ltoa]
  split
  · have hlen := length_xtoaDigits ltoaBufLen (natAbs_toLong (-toLong value))
    rw [List.length_append, List.length_singleton]
    omega
  · split
    · decide
    · have hlen := length_xtoaDigits ltoaBufLen (natAbs_toLong value)
      omega

theorem xtoaDigits_ne_zero (n : Nat) (value : Int) : ∀ b ∈ xtoaDigits n value, b ≠ 0#8 := by
  induction n generalizing value with
  | zero => exact List.forall_mem_nil _
  | succ n ih =>
      rw [xtoaDigits]
      split
      · exact List.forall_mem_nil _
      · intro b hb
        obtain hb | hb := List.mem_append.mp hb
        · exact ih _ b hb
        · rw [List.mem_singleton] at hb
          intro hzero
          have hnat := congrArg BitVec.toNat (hb.symm.trans hzero)
          have hlow := Int.lt_tmod_of_pos value (b := 10) (by decide)
          have hhigh := Int.tmod_lt_of_pos value (b := 10) (by decide)
          rw [BitVec.toNat_ofInt, BitVec.toNat_zero] at hnat
          generalize value.tmod 10 = digit at hnat hlow hhigh
          omega

theorem ltoa_ne_zero (value : Int) : ∀ b ∈ ltoa value, b ≠ 0#8 := by
  rw [ltoa]
  split
  · intro b hb
    obtain hb | hb := List.mem_append.mp hb
    · exact xtoaDigits_ne_zero _ _ b hb
    · rw [List.mem_singleton.mp hb]
      decide
  · split
    · decide
    · exact xtoaDigits_ne_zero _ _

theorem timeStamp_ne_zero (sec rem : List Byte) (hsec : ∀ b ∈ sec, b ≠ 0#8)
    (hrem : ∀ b ∈ rem, b ≠ 0#8) : ∀ b ∈ timeStamp sec rem, b ≠ 0#8 := by
  intro b hb
  simp only [timeStamp, List.mem_append, List.mem_cons, List.mem_replicate, List.not_mem_nil,
    or_false] at hb
  rcases hb with (((((rfl | ⟨_, rfl⟩) | hb) | rfl) | ⟨_, rfl⟩) | hb) | rfl | rfl
  · decide
  · decide
  · exact hsec b hb
  · decide
  · decide
  · exact hrem b hb
  · decide
  · decide

/-- With nanoseconds of at most nine characters the stamp is as long as it is meant to be. -/
theorem length_timeStamp {sec rem : List Byte} (hrem : rem.length ≤ 9) :
    (timeStamp sec rem).length = 13 + max 5 sec.length := by
  have hzeros : stampZeros rem = 9 - rem.length := by
    rw [stampZeros]
    omega
  simp only [timeStamp, hzeros, List.length_append, List.length_cons, List.length_replicate,
    List.length_nil]
  omega

/-- The string in `buf` before the line break: the stamp follows the first character, and the
message follows the stamp. -/
theorem strlen_message {stamp : List Byte} (msg : List Byte) (hstamp : ∀ b ∈ stamp, b ≠ 0#8)
    (hlen : stamp.length < printSizeMax) :
    let buf := snprintf (snprintf (cString [13#8]) 1 printSizeMax stamp) (stamp.length + 1)
      printSizeMax msg
    let kept := msg.take (printSizeMax - 1)
    let len := stamp.length + 1 + strlen (cString kept) printSizeMax
    len < stamp.length + 1 + printSizeMax ∧ (∀ i < len, buf i ≠ 0#8) ∧ buf len = 0#8 := by
  intro buf kept len
  have hkept : kept.length < printSizeMax := by
    rw [List.length_take, printSizeMax]
    omega
  have hend : cString kept kept.length = 0#8 := by simp [cString]
  obtain ⟨hle, hbytes, hzero⟩ := strlen_spec hkept hend
  have hmsg : ∀ i ≤ kept.length, buf (stamp.length + 1 + i) = cString kept i := by
    intro i hi
    change memcpy _ (stamp.length + 1) (cString kept) (kept.length + 1) _ = _
    rw [memcpy, if_pos (by omega), Nat.add_sub_cancel_left]
  have hfront : ∀ i < stamp.length + 1, buf i ≠ 0#8 := by
    intro i hi
    change memcpy _ _ _ _ _ ≠ _
    rw [memcpy, if_neg (by omega), snprintf, List.take_of_length_le (by omega)]
    cases i with
    | zero =>
        rw [memcpy, if_neg (by omega)]
        decide
    | succ i =>
        have hlt : i < stamp.length := by omega
        have hget : cString stamp i = stamp[i] := by simp [cString, hlt]
        rw [memcpy, if_pos (by omega), Nat.add_sub_cancel, hget]
        exact hstamp _ (List.getElem_mem hlt)
  refine ⟨by omega, fun i hi => ?_, ?_⟩
  · by_cases hlt : i < stamp.length + 1
    · exact hfront i hlt
    · obtain ⟨j, rfl⟩ : ∃ j, i = stamp.length + 1 + j := ⟨i - (stamp.length + 1), by omega⟩
      rw [hmsg j (by omega)]
      exact hbytes j (by omega)
  · rw [hmsg _ hle]
    exact hzero

theorem strlen_lineBreak {buf : Nat → Byte} {len : Nat} (hbytes : ∀ i < len, buf i ≠ 0#8) :
    let line := memcpy buf len (cString lineBreak) (lineBreak.length + 1)
    strlen line (len + lineBreak.length + 1) = len + 2 ∧ line (len + 2) = 0#8 ∧
      lineBreak <:+ bytesAt line (len + 2) := by
  intro line
  have hold : ∀ i < len, line i = buf i := fun i hi => if_neg (by omega)
  have hnew : ∀ i < 3, line (len + i) = cString lineBreak i := by
    intro i hi
    change memcpy _ len _ (lineBreak.length + 1) _ = _
    rw [memcpy, if_pos (by simp only [lineBreak, List.length_cons, List.length_nil]; omega),
      Nat.add_sub_cancel_left]
  have hfirst : line len = 10#8 := hnew 0 (by decide)
  have hsecond : line (len + 1) = 13#8 := hnew 1 (by decide)
  have hend : line (len + 2) = 0#8 := hnew 2 (by decide)
  refine ⟨strlen_eq (by simp [lineBreak]) (fun i hi => ?_) hend, hend, ?_⟩
  · by_cases hlt : i < len
    · rw [hold i hlt]
      exact hbytes i hlt
    · obtain rfl | rfl : i = len ∨ i = len + 1 := by omega
      · rw [hfirst]
        decide
      · rw [hsecond]
        decide
  · rw [bytesAt_succ, bytesAt_succ, hfirst, hsecond, List.append_assoc]
    exact List.suffix_append ..

/-- At every system time and for every expansion `printk` stays in its buffers and passes a whole line
on if and only if the nanoseconds, the message and the line break fit. -/
theorem printkSafe_iff (tp : Timespec) (msg : List Byte) :
    PrintkSafe (printk tp msg) ↔ PrintkFits tp msg := by
  have hsec := length_ltoa tp.tvSec
  have hnsec := length_ltoa tp.tvNsec
  have hstamp := timeStamp_ne_zero (ltoa (toLong tp.tvSec)) (ltoa (toLong tp.tvNsec))
    (ltoa_ne_zero _) (ltoa_ne_zero _)
  have hpos : (ltoa (toLong tp.tvNsec)).length ≤ 9 →
      (timeStamp (ltoa (toLong tp.tvSec)) (ltoa (toLong tp.tvNsec))).length =
        13 + max 5 (ltoa (toLong tp.tvSec)).length := length_timeStamp
  have hbreak : lineBreak.length = 2 := rfl
  have hmax : printSizeMax = 100 := rfl
  generalize hsecEq : ltoa (toLong tp.tvSec) = sec at hsec hpos hstamp
  generalize hremEq : ltoa (toLong tp.tvNsec) = rem at hnsec hpos hstamp
  constructor
  · intro hsafe
    have hwrites := hsafe.writes
    simp only [printk, hsecEq, hremEq, List.forall_mem_cons, PrintkArray.size] at hwrites
    obtain ⟨_, _, hzeros, _, hmsg, hline, _⟩ := hwrites
    have hrem : rem.length ≤ 9 := by
      rw [stampZeros] at hzeros
      omega
    have hlength := hpos hrem
    obtain ⟨hlt, hbytes, hend⟩ := strlen_message msg hstamp (by omega)
    rw [strlen_eq hlt hbytes hend] at hline
    rw [PrintkFits, hsecEq, hremEq, ← hlength]
    exact ⟨hrem, by omega, by omega⟩
  · intro hfits
    rw [PrintkFits, hsecEq, hremEq] at hfits
    obtain ⟨hrem, hmsg, hline⟩ := hfits
    have hlength := hpos hrem
    have hzeros : stampZeros rem ≤ 9 := by
      rw [stampZeros]
      omega
    have htake : (List.take (printSizeMax - 1) (timeStamp sec rem)).length ≤
        (timeStamp sec rem).length := List.length_take_le' ..
    obtain ⟨hlt, hbytes, hend⟩ := strlen_message msg hstamp (by omega)
    have hlen := strlen_eq hlt hbytes hend
    obtain ⟨hsize, hterminated, hsuffix⟩ := strlen_lineBreak hbytes
    have hroom : (timeStamp sec rem).length + 1 +
        strlen (cString (msg.take (printSizeMax - 1))) printSizeMax + 2 < printSizeMax := by omega
    refine ⟨?_, ?_, ?_, ?_⟩
    · simp only [printk, hsecEq, hremEq, hlen, List.forall_mem_cons, PrintkArray.size, ltoaBufLen]
      refine ⟨by omega, by omega, by omega, by omega, by omega, by omega, List.forall_mem_nil _⟩
    · simp only [printk, hsecEq, hremEq, hlen, hsize]
      exact ⟨hroom, hterminated⟩
    · simp only [printk, hsecEq, hremEq, hlen, hsize]
      exact hsuffix
    · simp only [printk, hsecEq, hremEq, hlen, hsize]
      omega

/-- With a time stamp of 18 characters a message of 79 puts the end of the line behind the buffer. -/
theorem printk_overflow :
    (printk ⟨1, 0⟩ (List.replicate 79 97#8)).writes.getLast? = some ⟨.buf, 98, 3⟩ ∧
      ¬ PrintkSafe (printk ⟨1, 0⟩ (List.replicate 79 97#8)) := by
  have hlast : (printk ⟨1, 0⟩ (List.replicate 79 97#8)).writes.getLast? = some ⟨.buf, 98, 3⟩ := by
    decide +kernel
  refine ⟨hlast, fun hsafe => ?_⟩
  have hwrite := hsafe.writes _ (List.mem_of_getLast? hlast)
  revert hwrite
  decide

end Tenok
