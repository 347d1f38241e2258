import Mathlib.Algebra.BigOperators.Group.List.Basic
import Mathlib.Algebra.Order.Ring.Nat
import Mathlib.Data.List.Basic
import Mathlib.Tactic.Tauto

/-!
The streams of `wrapper.c`. A request is cut into chunks, each of which is one system call; what
the calls answer is given by the environment.
-/
namespace Tenok

def maxReadSize : Nat := 100
def maxWriteSize : Nat := 100

/-- A call of `read` or `write`: which of the caller's bytes, how many, and the answer. -/
structure StreamCall where
  offset : Nat
  size : Nat
  retval : Int
  deriving DecidableEq, Repr

def StreamCall.transferred (c : StreamCall) : Nat := c.retval.toNat

/-- The loop of `_fread` and `_fwrite` with the total and the calls; `answer` has the result of
each call. -/
def streamLoop (maxSize : Nat) (answer : Nat → Int) :
    (times i nbytes total : Nat) → Nat × List StreamCall
  | 0, _, _, total => (total, [])
  | times + 1, i, nbytes, total =>
      let size := if maxSize ≤ nbytes then maxSize else nbytes
      let call := ⟨total, size, answer i⟩
      if answer i ≠ size then (total + size, [call])
      else
        let rest := streamLoop maxSize answer times (i + 1) (nbytes - size) (total + size)
        (rest.1, call :: rest.2)

/-- For an empty request `nbytes - 1` is the largest number there is. -/
def streamTransfer (maxSize size nmemb : Nat) (answer : Nat → Int) : Nat × List StreamCall :=
  let nbytes := size * nmemb % 2 ^ 32
  let times := (nbytes + (2 ^ 32 - 1)) % 2 ^ 32 / maxSize + 1
  streamLoop maxSize answer times 0 nbytes 0

def fread : (size nmemb : Nat) → (answer : Nat → Int) → Nat × List StreamCall :=
  streamTransfer maxReadSize

def fwrite : (size nmemb : Nat) → (answer : Nat → Int) → Nat × List StreamCall :=
  streamTransfer maxWriteSize

/-- The `k`th chunk of a request. -/
def chunkSize (maxSize nbytes k : Nat) : Nat := min maxSize (nbytes - maxSize * k)

/-- The caller's bytes go out in order and in small chunks, never more than were asked for, and
the total is what was transferred. -/
structure Transfers (maxSize nbytes : Nat) (r : Nat × List StreamCall) : Prop where
  inOrder : ∀ k c, r.2[k]? = some c → c.offset = ((r.2.take k).map StreamCall.size).sum
  chunks : ∀ c ∈ r.2, c.size ≤ maxSize
  bounded : (r.2.map StreamCall.size).sum ≤ nbytes
  counts : r.1 = (r.2.map StreamCall.transferred).sum

def NoneShort (maxSize nbytes : Nat) (answer : Nat → Int) : Prop :=
  ∀ k, maxSize * k < nbytes → answer k = chunkSize maxSize nbytes k

variable {maxSize size nmemb times i nbytes total : Nat} {answer : Nat → Int}

theorem chunkSize_zero : chunkSize maxSize nbytes 0 = min maxSize nbytes := by
  rw [chunkSize, Nat.mul_zero, Nat.sub_zero]

theorem chunkSize_succ (k : Nat) :
    chunkSize maxSize nbytes (k + 1) = chunkSize maxSize (nbytes - min maxSize nbytes) k := by
  simp only [chunkSize, Nat.mul_succ]
  omega

theorem streamLoop_short (hshort : answer i ≠ (min maxSize nbytes : Nat)) :
    streamLoop maxSize answer (times + 1) i nbytes total =
      (total + min maxSize nbytes, [⟨total, min maxSize nbytes, answer i⟩]) := by
  rw [streamLoop, ← Nat.min_def]
  exact if_pos hshort

theorem streamLoop_full (hfull : answer i = (min maxSize nbytes : Nat)) :
    streamLoop maxSize answer (times + 1) i nbytes total =
      let rest := streamLoop maxSize answer times (i + 1) (nbytes - min maxSize nbytes)
        (total + min maxSize nbytes)
      (rest.1, ⟨total, min maxSize nbytes, answer i⟩ :: rest.2) := by
  rw [streamLoop, ← Nat.min_def]
  exact if_neg (not_not.mpr hfull)

/-- Whatever the calls answer, the total is the number of bytes that they were asked for. -/
theorem streamLoop_sizes (maxSize times i nbytes total : Nat) (answer : Nat → Int) :
    let r := streamLoop maxSize answer times i nbytes total
    r.1 = total + (r.2.map StreamCall.size).sum ∧ (r.2.map StreamCall.size).sum ≤ nbytes ∧
      ∀ c ∈ r.2, c.size ≤ maxSize := by
  induction times generalizing i nbytes total with
  | zero => simp [streamLoop]
  | succ times ih =>
      have hle := Nat.min_le_right maxSize nbytes
      have hmax := Nat.min_le_left maxSize nbytes
      by_cases hfull : answer i = (min maxSize nbytes : Nat)
      · rw [streamLoop_full hfull]
        obtain ⟨htotal, hbound, hchunks⟩ := ih (i + 1) (nbytes - min maxSize nbytes)
          (total + min maxSize nbytes)
        simp only [List.map_cons, List.sum_cons, List.forall_mem_cons]
        refine ⟨?_, by omega, hmax, hchunks⟩
        rw [htotal, Nat.add_assoc]
      · rw [streamLoop_short hfull]
        simp

theorem streamLoop_inOrder (maxSize times i nbytes total : Nat) (answer : Nat → Int) :
    let r := streamLoop maxSize answer times i nbytes total
    ∀ k c, r.2[k]? = some c → c.offset = total + ((r.2.take k).map StreamCall.size).sum := by
  induction times generalizing i nbytes total with
  | zero => simp [streamLoop]
  | succ times ih =>
      by_cases hfull : answer i = (min maxSize nbytes : Nat)
      · rw [streamLoop_full hfull]
        intro r k c hc
        cases k with
        | zero =>
            obtain rfl := Option.some.inj hc
            rfl
        | succ k =>
            have hoffset := ih (i + 1) (nbytes - min maxSize nbytes)
              (total + min maxSize nbytes) k c hc
            rw [hoffset, List.take_succ_cons, List.map_cons, List.sum_cons, Nat.add_assoc]
      · rw [streamLoop_short hfull]
        intro r k c hc
        cases k with
        | zero =>
            obtain rfl := Option.some.inj hc
            rfl
        | succ k => cases hc

theorem noneShort_succ : NoneShort maxSize nbytes answer ↔
    (0 < nbytes → answer 0 = (min maxSize nbytes : Nat)) ∧
      NoneShort maxSize (nbytes - min maxSize nbytes) fun k => answer (k + 1) := by
  constructor
  · intro h
    refine ⟨fun hpos => ?_, fun k hk => ?_⟩
    · rw [← chunkSize_zero]
      exact h 0 hpos
    · rw [← chunkSize_succ]
      refine h (k + 1) ?_
      rw [Nat.mul_succ]
      omega
  · rintro ⟨hfirst, hrest⟩ k hk
    cases k with
    | zero =>
        rw [chunkSize_zero]
        exact hfirst hk
    | succ k =>
        rw [chunkSize_succ]
        refine hrest k ?_
        rw [Nat.mul_succ] at hk
        omega

theorem streamLoop_transferred (hmax : 0 < maxSize) (times i nbytes total : Nat)
    (htimes : nbytes ≤ maxSize * times) (hanswer : ∀ k, answer (i + k) ≤ chunkSize maxSize nbytes k) :
    let r := streamLoop maxSize answer times i nbytes total
    (r.2.map StreamCall.size).sum = (r.2.map StreamCall.transferred).sum ↔
      NoneShort maxSize nbytes fun k => answer (i + k) := by
  induction times generalizing i nbytes total with
  | zero =>
      obtain rfl : nbytes = 0 := by simpa using htimes
      exact iff_of_true rfl fun k hk => absurd hk (Nat.not_lt_zero _)
  | succ times ih =>
      have hfirst := hanswer 0
      rw [Nat.add_zero, chunkSize_zero] at hfirst
      have hnone : NoneShort maxSize nbytes (fun k => answer (i + k)) ↔
          (0 < nbytes → answer i = (min maxSize nbytes : Nat)) ∧
            NoneShort maxSize (nbytes - min maxSize nbytes) fun k => answer (i + 1 + k) := by
        rw [noneShort_succ]
        simp only [Nat.add_zero, Nat.add_assoc, Nat.add_comm 1]
      rw [hnone]
      by_cases hfull : answer i = (min maxSize nbytes : Nat)
      · rw [streamLoop_full hfull]
        have hrest := ih (i + 1) (nbytes - min maxSize nbytes) (total + min maxSize nbytes)
          (by rw [Nat.mul_succ] at htimes; omega) fun k => by
            rw [← chunkSize_succ, Nat.add_right_comm]
            exact hanswer (k + 1)
        simp only [List.map_cons, List.sum_cons, StreamCall.transferred, hfull, Int.toNat_natCast,
          Nat.add_left_cancel_iff, implies_true, true_and]
        exact hrest
      · rw [streamLoop_short hfull]
        -- nothing is lost at the end of an empty request only
        simp only [List.map_singleton, List.sum_singleton, StreamCall.transferred, hfull, imp_false,
          Nat.not_lt, Nat.le_zero]
        constructor
        · intro heq
          obtain rfl : nbytes = 0 := by omega
          exact ⟨rfl, fun k hk => absurd hk (by simp)⟩
        · intro h
          obtain rfl := h.1
          omega

theorem streamTransfer_iff (hmax : 0 < maxSize) (hprod : size * nmemb < 2 ^ 31)
    (hanswer : ∀ k, answer k ≤ chunkSize maxSize (size * nmemb) k) :
    Transfers maxSize (size * nmemb) (streamTransfer maxSize size nmemb answer) ↔
      NoneShort maxSize (size * nmemb) answer := by
  have hmod : size * nmemb % 2 ^ 32 = size * nmemb := Nat.mod_eq_of_lt (by omega)
  have htimes : size * nmemb ≤
      maxSize * ((size * nmemb + (2 ^ 32 - 1)) % 2 ^ 32 / maxSize + 1) := by
    obtain hzero | hpos := Nat.eq_zero_or_pos (size * nmemb)
    · rw [hzero]
      exact Nat.zero_le _
    · have hsub : (size * nmemb + (2 ^ 32 - 1)) % 2 ^ 32 = size * nmemb - 1 := by omega
      rw [hsub]
      have hlt := Nat.lt_mul_div_succ (size * nmemb - 1) hmax
      omega
  rw [streamTransfer, hmod]
  obtain ⟨htotal, hbound, hchunks⟩ := streamLoop_sizes maxSize
    ((size * nmemb + (2 ^ 32 - 1)) % 2 ^ 32 / maxSize + 1) 0 (size * nmemb) 0 answer
  have horder := streamLoop_inOrder maxSize
    ((size * nmemb + (2 ^ 32 - 1)) % 2 ^ 32 / maxSize + 1) 0 (size * nmemb) 0 answer
  have hanswer₀ : ∀ k, answer (0 + k) ≤ chunkSize maxSize (size * nmemb) k := by
    intro k
    rw [Nat.zero_add]
    exact hanswer k
  have hiff := streamLoop_transferred hmax _ 0 _ 0 htimes hanswer₀
  simp only [Nat.zero_add] at htotal horder hiff
  rw [← hiff, ← htotal]
  exact ⟨fun h => h.counts, fun h => ⟨horder, hchunks, hbound, h⟩⟩

/-- A stream request transfers as it should exactly if every chunk is transferred as a whole. A
call transfers at most what it is asked for. -/
theorem fread_fwrite_iff (hprod : size * nmemb < 2 ^ 31) :
    ((∀ k, answer k ≤ chunkSize maxReadSize (size * nmemb) k) →
      (Transfers maxReadSize (size * nmemb) (fread size nmemb answer) ↔
        NoneShort maxReadSize (size * nmemb) answer)) ∧
    ((∀ k, answer k ≤ chunkSize maxWriteSize (size * nmemb) k) →
      (Transfers maxWriteSize (size * nmemb) (fwrite size nmemb answer) ↔
        NoneShort maxWriteSize (size * nmemb) answer)) :=
  ⟨streamTransfer_iff (by decide) hprod, streamTransfer_iff (by decide) hprod⟩

/-- A file with more than 150 bytes, of which 150 are asked for. -/
theorem fread_fwrite_long :
    Transfers maxReadSize (3 * 50) (fread 3 50 fun k => chunkSize maxReadSize (3 * 50) k) ∧
      Transfers maxWriteSize (3 * 50) (fwrite 3 50 fun k => chunkSize maxWriteSize (3 * 50) k) :=
  ⟨((fread_fwrite_iff (by decide)).1 fun _ => Int.le_refl _).mpr fun _ _ => rfl,
    ((fread_fwrite_iff (by decide)).2 fun _ => Int.le_refl _).mpr fun _ _ => rfl⟩

/-- A file with 30 bytes, or one that cannot be read at all: the whole chunk is counted. -/
theorem fread_short : (fread 1 50 fun _ => 30).1 = 50 ∧ (fread 1 50 fun _ => -1).1 = 50 ∧
    ¬ Transfers maxReadSize 50 (fread 1 50 fun _ => 30) ∧
    ¬ Transfers maxReadSize 50 (fread 1 50 fun _ => -1) := by
  refine ⟨by decide, by decide, fun h => ?_, fun h => ?_⟩
  · exact absurd h.counts (by decide)
  · exact absurd h.counts (by decide)

end Tenok
