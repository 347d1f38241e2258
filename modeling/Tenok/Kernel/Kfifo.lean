import Tenok.Common.Util
import Tenok.Lib.RingBuffer

/-!
`kernel/kfifo.c`: a ring of records over a byte array. With an element size of 1 there is
no header and the fifo is a byte stream; a fifo that is full gives up its oldest record for
a new one. A pointer into a buffer is the buffer with an offset.
-/
namespace Tenok
open RingBuffer

structure Kfifo where
  start : Nat
  endPos : Nat
  count : Nat
  data : Nat → Byte
  size : Nat
  esize : Nat
  headerSize : Nat
  payloadSize : Nat

def kfifoHdrSize : Nat := 2

def recsizeBytes (n : Nat) : Nat → Byte := fun i => BitVec.ofNat 8 (n / 256 ^ i)

namespace Kfifo

def kfifoInit (data : Nat → Byte) (esize size : Nat) : Kfifo where
  start := 0
  endPos := 0
  count := 0
  data := data
  size := size
  esize := esize
  headerSize := if 1 < esize then kfifoHdrSize else 0
  payloadSize := if 1 < esize then kfifoHdrSize + esize else 1

def kfifoIncrease (fifo : Kfifo) (ptr : Nat) : Nat := bump fifo.size ptr

def kfifoAvail (fifo : Kfifo) : Nat := fifo.size - fifo.count

def kfifoLen (fifo : Kfifo) : Nat := fifo.count

def kfifoIsFull (fifo : Kfifo) : Bool := decide (fifo.count = fifo.size)

/-- The record at position `pos` becomes the `n` bytes of `buf`. -/
def putRecord (fifo : Kfifo) (pos : Nat) (buf : Nat → Byte) (n : Nat) : Kfifo :=
  let dataStart := pos * fifo.payloadSize
  let data := memcpy fifo.data (dataStart + fifo.headerSize) buf n
  { fifo with
    data := if 1 < fifo.esize then memcpy data dataStart (recsizeBytes n) kfifoHdrSize else data }

def kfifoIn (fifo : Kfifo) (buf : Nat → Byte) (n : Nat) : Kfifo :=
  if fifo.kfifoIsFull then
    -- the oldest record is overwritten
    let fifo := fifo.putRecord fifo.start buf n
    { fifo with
      start := fifo.kfifoIncrease fifo.start, endPos := fifo.kfifoIncrease fifo.endPos }
  else
    let fifo := fifo.putRecord fifo.endPos buf n
    { fifo with count := fifo.count + 1, endPos := fifo.kfifoIncrease fifo.endPos }

/-- `kfifo_out(fifo, &buf[off], n)`. -/
def kfifoOut (fifo : Kfifo) (buf : Nat → Byte) (off n : Nat) : Kfifo × (Nat → Byte) :=
  if fifo.count ≤ 0 then (fifo, buf)
  else
    let src := ptrAdd fifo.data (fifo.headerSize + fifo.start * fifo.payloadSize)
    ({ fifo with start := fifo.kfifoIncrease fifo.start, count := fifo.count - 1 },
      memcpy buf off src n)

def bytes (fifo : Kfifo) : List Byte := contents fifo.data fifo.size fifo.start fifo.count

/-- A byte stream whose positions agree with its count. -/
structure Stream (fifo : Kfifo) : Prop where
  esize : fifo.esize = 1
  headerSize : fifo.headerSize = 0
  payloadSize : fifo.payloadSize = 1
  count_le : fifo.count ≤ fifo.size
  start_lt : 0 < fifo.size → fifo.start < fifo.size
  endPos : 0 < fifo.size → fifo.endPos = place fifo.size fifo.start fifo.count

theorem stream_init (data : Nat → Byte) (size : Nat) : Stream (kfifoInit data 1 size) :=
  ⟨rfl, rfl, rfl, Nat.zero_le _, id, fun _ => (Nat.zero_mod _).symm⟩

namespace Stream
variable {fifo : Kfifo} {buf : Nat → Byte} {off n : Nat}

theorem kfifoIn (h : Stream fifo) (hroom : fifo.count < fifo.size) (buf : Nat → Byte) :
    Stream (fifo.kfifoIn buf 1) ∧ (fifo.kfifoIn buf 1).size = fifo.size ∧
      (fifo.kfifoIn buf 1).bytes = fifo.bytes ++ [buf 0] := by
  have hpos : 0 < fifo.size := by omega
  have hfull : fifo.kfifoIsFull = false := decide_eq_false (Nat.ne_of_lt hroom)
  have hend := h.endPos hpos
  have heq : fifo.kfifoIn buf 1 = { fifo with
      data := Function.update fifo.data (place fifo.size fifo.start fifo.count) (buf 0)
      count := fifo.count + 1
      endPos := bump fifo.size fifo.endPos } := by
    simp [Kfifo.kfifoIn, hfull, putRecord, h.esize, h.headerSize, h.payloadSize, memcpy_one,
      h.endPos hpos, kfifoIncrease]
  rw [heq]
  refine ⟨⟨h.esize, h.headerSize, h.payloadSize, hroom, h.start_lt, fun _ => ?_⟩, rfl,
    contents_push _ _ hroom _⟩
  have hlt : fifo.endPos < fifo.size := by
    rw [h.endPos hpos]
    exact Nat.mod_lt _ hpos
  change bump fifo.size fifo.endPos = place fifo.size fifo.start (fifo.count + 1)
  rw [bump_eq hlt, h.endPos hpos, place, place, Nat.mod_add_mod, Nat.add_assoc]

theorem kfifoOut (h : Stream fifo) (hcount : 0 < fifo.count) (buf : Nat → Byte) (off : Nat) :
    Stream (fifo.kfifoOut buf off 1).1 ∧ (fifo.kfifoOut buf off 1).1.size = fifo.size ∧
      ∃ b, fifo.bytes = b :: (fifo.kfifoOut buf off 1).1.bytes ∧
        (fifo.kfifoOut buf off 1).2 = Function.update buf off b := by
  have hpos : 0 < fifo.size := hcount.trans_le h.count_le
  have hstart := h.start_lt hpos
  obtain ⟨count, hsucc⟩ : ∃ count, fifo.count = count + 1 := ⟨fifo.count - 1, by omega⟩
  have heq : fifo.kfifoOut buf off 1 = ({ fifo with
      start := bump fifo.size fifo.start
      count := count }, Function.update buf off (fifo.data fifo.start)) := by
    rw [Kfifo.kfifoOut, if_neg (by omega)]
    simp [h.headerSize, h.payloadSize, hsucc, kfifoIncrease, memcpy_one, ptrAdd]
  have hle := h.count_le
  rw [heq]
  refine ⟨⟨h.esize, h.headerSize, h.payloadSize, by simp only; omega, fun _ => bump_lt hstart,
    fun _ => ?_⟩, rfl, fifo.data fifo.start, ?_, rfl⟩
  · rw [h.endPos hpos, hsucc]
    exact (place_bump hstart).symm
  · rw [bytes, hsucc, contents_pop hstart]
    rfl

end Stream

def record (fifo : Kfifo) (n pos : Nat) : List Byte :=
  bytesAt (ptrAdd fifo.data (fifo.headerSize + pos * fifo.payloadSize)) n

/-- The records in a fifo that has headers, when all of them have `n` bytes. -/
def records (fifo : Kfifo) (n : Nat) : List (List Byte) :=
  contents (fifo.record n) fifo.size fifo.start fifo.count

/-- A fifo of records with positions that agree with its count. -/
structure Structured (fifo : Kfifo) (n : Nat) : Prop where
  esize : 1 < fifo.esize
  fits : n ≤ fifo.esize
  headerSize : fifo.headerSize = kfifoHdrSize
  payloadSize : fifo.payloadSize = kfifoHdrSize + fifo.esize
  count_le : fifo.count ≤ fifo.size
  start_lt : fifo.start < fifo.size
  endPos : fifo.endPos = place fifo.size fifo.start fifo.count

theorem structured_init (data : Nat → Byte) {esize size n : Nat} (hesize : 1 < esize)
    (hn : n ≤ esize) (hsize : 0 < size) : Structured (kfifoInit data esize size) n := by
  refine ⟨hesize, hn, if_pos hesize, if_pos hesize, Nat.zero_le _, hsize, ?_⟩
  exact (Nat.zero_mod _).symm

namespace Structured
variable {fifo : Kfifo} {n : Nat}

/-- The bytes of a record are not those of another one, and no header is among them. -/
theorem record_putRecord (h : Structured fifo n) (pos : Nat) (buf : Nat → Byte) :
    (fifo.putRecord pos buf n).record n =
      Function.update (fifo.record n) pos (bytesAt buf n) := by
  have hfits := h.fits
  funext p
  simp only [putRecord, record, h.headerSize, h.payloadSize, if_pos h.esize, kfifoHdrSize]
  by_cases hp : p = pos
  · subst hp
    rw [Function.update_self]
    refine List.map_congr_left fun i hi => ?_
    have hlt := List.mem_range.mp hi
    rw [ptrAdd, memcpy, if_neg (by omega), memcpy, if_pos (by omega)]
    exact congrArg buf (by omega)
  · rw [Function.update_of_ne hp]
    refine List.map_congr_left fun i hi => ?_
    have hlt := List.mem_range.mp hi
    have hmul : p * (2 + fifo.esize) + (2 + fifo.esize) ≤ pos * (2 + fifo.esize) ∨
        pos * (2 + fifo.esize) + (2 + fifo.esize) ≤ p * (2 + fifo.esize) := by
      rw [← Nat.succ_mul, ← Nat.succ_mul]
      exact (Nat.lt_or_gt_of_ne hp).imp (Nat.mul_le_mul_right _) (Nat.mul_le_mul_right _)
    rw [ptrAdd, memcpy, if_neg (by omega), memcpy, if_neg (by omega), ptrAdd, h.headerSize,
      h.payloadSize, kfifoHdrSize]

theorem kfifoIn (h : Structured fifo n) (buf : Nat → Byte) :
    Structured (fifo.kfifoIn buf n) n ∧ (fifo.kfifoIn buf n).size = fifo.size ∧
      (fifo.kfifoIn buf n).records n =
        (if fifo.count < fifo.size then fifo.records n else (fifo.records n).tail) ++
          [bytesAt buf n] := by
  have hpos : 0 < fifo.size := Nat.lt_of_le_of_lt (Nat.zero_le _) h.start_lt
  have hend : fifo.endPos < fifo.size := by
    rw [h.endPos]
    exact Nat.mod_lt _ hpos
  have hbump : bump fifo.size fifo.endPos = place fifo.size fifo.start (fifo.count + 1) := by
    rw [bump_eq hend, h.endPos, place, place, Nat.mod_add_mod, Nat.add_assoc]
  by_cases hfull : fifo.count = fifo.size
  · have hstart : fifo.endPos = fifo.start := by
      rw [h.endPos, hfull, place, Nat.add_mod_right, Nat.mod_eq_of_lt h.start_lt]
    have hrecords := congrArg (fun cells => contents cells fifo.size (bump fifo.size fifo.start)
      fifo.count) (h.record_putRecord fifo.start buf)
    have hover := contents_overwrite (fifo.record n) h.start_lt (bytesAt buf n)
    have hisFull : fifo.kfifoIsFull = true := decide_eq_true hfull
    rw [Kfifo.kfifoIn, if_pos hisFull, if_neg (by omega)]
    refine ⟨⟨h.esize, h.fits, h.headerSize, h.payloadSize, h.count_le, bump_lt h.start_lt, ?_⟩,
      rfl, ?_⟩
    · change bump fifo.size fifo.endPos = place fifo.size (bump fifo.size fifo.start) fifo.count
      rw [hbump, place_bump h.start_lt]
    · refine hrecords.trans ?_
      rw [records, hfull, hover]
  · have hroom : fifo.count < fifo.size := lt_of_le_of_ne h.count_le hfull
    have hrecords := congrArg (fun cells => contents cells fifo.size fifo.start (fifo.count + 1))
      (h.record_putRecord fifo.endPos buf)
    have hpush := contents_push (fifo.record n) fifo.start hroom (bytesAt buf n)
    rw [Kfifo.kfifoIn, if_neg (by simpa [kfifoIsFull] using hfull), if_pos hroom]
    refine ⟨⟨h.esize, h.fits, h.headerSize, h.payloadSize, hroom, h.start_lt, hbump⟩, rfl, ?_⟩
    refine hrecords.trans ?_
    rw [h.endPos]
    exact hpush

theorem kfifoOut (h : Structured fifo n) (hcount : 0 < fifo.count) (buf : Nat → Byte) :
    Structured (fifo.kfifoOut buf 0 n).1 n ∧ (fifo.kfifoOut buf 0 n).1.size = fifo.size ∧
      fifo.records n =
        bytesAt (fifo.kfifoOut buf 0 n).2 n :: (fifo.kfifoOut buf 0 n).1.records n := by
  obtain ⟨count, hsucc⟩ : ∃ count, fifo.count = count + 1 := ⟨fifo.count - 1, by omega⟩
  have hle := h.count_le
  rw [Kfifo.kfifoOut, if_neg (by omega)]
  refine ⟨⟨h.esize, h.fits, h.headerSize, h.payloadSize, by simp only; omega,
    bump_lt h.start_lt, ?_⟩, rfl, ?_⟩
  · change fifo.endPos = place fifo.size (bump fifo.size fifo.start) (fifo.count - 1)
    rw [place_bump h.start_lt, h.endPos, hsucc, Nat.add_sub_cancel]
  · rw [records, hsucc, contents_pop h.start_lt, bytesAt_memcpy]
    rfl

theorem length_records (fifo : Kfifo) (n : Nat) : (fifo.records n).length = fifo.kfifoLen :=
  length_contents ..

end Structured

end Kfifo

end Tenok
