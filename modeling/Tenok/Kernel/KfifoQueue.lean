import Tenok.Kernel.Kfifo

/-!
A fifo is a bounded queue of records. The records may have different lengths, which the headers
keep; a byte stream is a queue of single bytes.
-/
namespace Tenok
open RingBuffer

namespace Kfifo

/-- The `uint16_t` at an offset of the buffer. -/
def recsizeAt (fifo : Kfifo) (off : Nat) : Nat :=
  (fifo.data off).toNat + 256 * (fifo.data (off + 1)).toNat

def kfifoOutPeek (fifo : Kfifo) (data : Nat → Byte) (n : Nat) : Nat → Byte :=
  if fifo.count ≤ 0 then data
  else
    let dataStart := fifo.start * fifo.payloadSize
    if 1 < fifo.esize then memcpy data 0 (ptrAdd fifo.data (dataStart + kfifoHdrSize)) n
    else memcpy data 0 (ptrAdd fifo.data dataStart) 1

def kfifoPeekLen (fifo : Kfifo) : Nat :=
  if fifo.esize ≤ 1 then 0 else fifo.recsizeAt (fifo.start * fifo.payloadSize)

def kfifoPut (fifo : Kfifo) (data : Nat → Byte) : Kfifo := fifo.kfifoIn data fifo.esize

def kfifoGet (fifo : Kfifo) (data : Nat → Byte) : Kfifo × (Nat → Byte) :=
  fifo.kfifoOut data 0 fifo.esize

def kfifoPeek (fifo : Kfifo) (data : Nat → Byte) : Nat → Byte := fifo.kfifoOutPeek data fifo.esize

def kfifoSkip (fifo : Kfifo) : Kfifo :=
  if fifo.count ≤ 0 then fifo
  else { fifo with start := fifo.kfifoIncrease fifo.start, count := fifo.count - 1 }

end Kfifo

/-- The calls, with the memory that their pointers lead to. -/
inductive KfifoOp
  | kfifoIn (buf : Nat → Byte) (n : Nat)
  | kfifoOut (buf : Nat → Byte) (n : Nat)
  | kfifoOutPeek (data : Nat → Byte) (n : Nat)
  | kfifoSkip
  | kfifoPut (data : Nat → Byte)
  | kfifoGet (data : Nat → Byte)
  | kfifoPeek (data : Nat → Byte)
  | kfifoPeekLen
  | kfifoLen
  | kfifoAvail

inductive KfifoResult
  | none
  | buffer (buf : Nat → Byte)
  | number (n : Nat)

namespace KfifoOp

def Valid (esize : Nat) : KfifoOp → Prop
  | .kfifoIn _ n | .kfifoOut _ n | .kfifoOutPeek _ n => 1 ≤ n ∧ n ≤ esize
  | _ => True

end KfifoOp

namespace Kfifo

def call (fifo : Kfifo) : KfifoOp → Kfifo × KfifoResult
  | .kfifoIn buf n => (fifo.kfifoIn buf n, .none)
  | .kfifoOut buf n => ((fifo.kfifoOut buf 0 n).1, .buffer (fifo.kfifoOut buf 0 n).2)
  | .kfifoOutPeek data n => (fifo, .buffer (fifo.kfifoOutPeek data n))
  | .kfifoSkip => (fifo.kfifoSkip, .none)
  | .kfifoPut data => (fifo.kfifoPut data, .none)
  | .kfifoGet data => ((fifo.kfifoGet data).1, .buffer (fifo.kfifoGet data).2)
  | .kfifoPeek data => (fifo, .buffer (fifo.kfifoPeek data))
  | .kfifoPeekLen => (fifo, .number fifo.kfifoPeekLen)
  | .kfifoLen => (fifo, .number fifo.kfifoLen)
  | .kfifoAvail => (fifo, .number fifo.kfifoAvail)

/-- The offsets and lengths with which `kfifo_in` accesses the buffer. -/
def inAccesses (fifo : Kfifo) (n : Nat) : List (Nat × Nat) :=
  let dataStart := (if fifo.kfifoIsFull then fifo.start else fifo.endPos) * fifo.payloadSize
  (dataStart + fifo.headerSize, n) :: if 1 < fifo.esize then [(dataStart, kfifoHdrSize)] else []

def outAccesses (fifo : Kfifo) (n : Nat) : List (Nat × Nat) :=
  if fifo.count ≤ 0 then [] else [(fifo.headerSize + fifo.start * fifo.payloadSize, n)]

def peekAccesses (fifo : Kfifo) (n : Nat) : List (Nat × Nat) :=
  let dataStart := fifo.start * fifo.payloadSize
  if fifo.count ≤ 0 then []
  else if 1 < fifo.esize then [(dataStart + kfifoHdrSize, n)] else [(dataStart, 1)]

def accesses (fifo : Kfifo) : KfifoOp → List (Nat × Nat)
  | .kfifoIn _ n => fifo.inAccesses n
  | .kfifoPut _ => fifo.inAccesses fifo.esize
  | .kfifoOut _ n => fifo.outAccesses n
  | .kfifoGet _ => fifo.outAccesses fifo.esize
  | .kfifoOutPeek _ n => fifo.peekAccesses n
  | .kfifoPeek _ => fifo.peekAccesses fifo.esize
  | .kfifoPeekLen =>
      if fifo.esize ≤ 1 then [] else [(fifo.start * fifo.payloadSize, kfifoHdrSize)]
  | .kfifoSkip | .kfifoLen | .kfifoAvail => []

end Kfifo

namespace RecordQueue

/-- The queue that a fifo is to be: at most `size` records, the oldest first. -/
def next (size esize : Nat) (q : List (List Byte)) : KfifoOp → List (List Byte)
  | .kfifoIn buf n => append buf n
  | .kfifoPut data => append data esize
  | .kfifoOut _ _ | .kfifoGet _ | .kfifoSkip => q.tail
  | .kfifoOutPeek _ _ | .kfifoPeek _ | .kfifoPeekLen | .kfifoLen | .kfifoAvail => q
where
  append (buf : Nat → Byte) (n : Nat) : List (List Byte) :=
    (if q.length < size then q else q.tail) ++ [bytesAt buf n]

/-- A buffer for `n` bytes gets the first bytes of the oldest record. -/
def Copies (q : List (List Byte)) (buf : Nat → Byte) (n : Nat) (r : KfifoResult) : Prop :=
  ∃ buf', r = .buffer buf' ∧ (q = [] → buf' = buf) ∧
    (∀ record ∈ q.head?, bytesAt buf' (min n record.length) = record.take n) ∧
      ∀ i, n ≤ i → buf' i = buf i

def Returns (size esize : Nat) (q : List (List Byte)) (op : KfifoOp) (r : KfifoResult) : Prop :=
  match op with
  | .kfifoIn _ _ | .kfifoPut _ | .kfifoSkip => r = .none
  | .kfifoOut buf n | .kfifoOutPeek buf n => Copies q buf n r
  | .kfifoGet buf | .kfifoPeek buf => Copies q buf esize r
  | .kfifoPeekLen => 1 < esize → ∀ record ∈ q.head?, r = .number record.length
  | .kfifoLen => r = .number q.length
  | .kfifoAvail => r = .number (size - q.length)

end RecordQueue

structure KfifoRecord where
  len : Nat
  bytes : List Byte
deriving DecidableEq

def KfifoRecord.of (l : List Byte) : KfifoRecord := ⟨l.length, l⟩

namespace Kfifo

def lenAt (fifo : Kfifo) (pos : Nat) : Nat :=
  if 1 < fifo.esize then fifo.recsizeAt (pos * fifo.payloadSize) else 1

def slot (fifo : Kfifo) (pos : Nat) : KfifoRecord where
  len := fifo.lenAt pos
  bytes := bytesAt (ptrAdd fifo.data (fifo.headerSize + pos * fifo.payloadSize))
    (min (fifo.lenAt pos) fifo.esize)

def queue (fifo : Kfifo) : List KfifoRecord := contents fifo.slot fifo.size fifo.start fifo.count

/-- A fifo whose fields fit together. -/
structure Shaped (fifo : Kfifo) : Prop where
  esize : 1 ≤ fifo.esize
  esize_lt : fifo.esize < 65536
  headerSize : fifo.headerSize = if 1 < fifo.esize then kfifoHdrSize else 0
  payloadSize : fifo.payloadSize = fifo.headerSize + fifo.esize
  count_le : fifo.count ≤ fifo.size
  start_lt : fifo.start < fifo.size
  endPos : fifo.endPos = place fifo.size fifo.start fifo.count

theorem shaped_init (data : Nat → Byte) {esize size : Nat} (hesize : 1 ≤ esize)
    (hlt : esize < 65536) (hsize : 1 ≤ size) : Shaped (kfifoInit data esize size) := by
  refine ⟨hesize, hlt, rfl, ?_, Nat.zero_le _, hsize, (Nat.zero_mod _).symm⟩
  simp only [kfifoInit]
  split <;> omega

theorem recsizeBytes_value {n : Nat} (hn : n < 65536) :
    (recsizeBytes n 0).toNat + 256 * (recsizeBytes n 1).toNat = n := by
  simp only [recsizeBytes, BitVec.toNat_ofNat, Nat.pow_zero, Nat.div_one, Nat.pow_one]
  omega

namespace Shaped
variable {fifo : Kfifo} {n pos : Nat} {buf : Nat → Byte}

theorem endPos_lt (h : Shaped fifo) : fifo.endPos < fifo.size := by
  rw [h.endPos]
  exact Nat.mod_lt _ (Nat.zero_lt_of_lt h.start_lt)

theorem bump_endPos (h : Shaped fifo) :
    bump fifo.size fifo.endPos = place fifo.size fifo.start (fifo.count + 1) := by
  rw [bump_eq h.endPos_lt, h.endPos, place, place, Nat.mod_add_mod, Nat.add_assoc]

theorem endPos_of_full (h : Shaped fifo) (hfull : fifo.count = fifo.size) :
    fifo.endPos = fifo.start := by
  rw [h.endPos, hfull, place, Nat.add_mod_right, Nat.mod_eq_of_lt h.start_lt]

theorem slot_le (hpos : pos < fifo.size) :
    pos * fifo.payloadSize + fifo.payloadSize ≤ fifo.payloadSize * fifo.size := by
  rw [← Nat.succ_mul, Nat.mul_comm fifo.payloadSize]
  exact Nat.mul_le_mul_right _ hpos

theorem slots_apart (fifo : Kfifo) {p : Nat} (hp : p ≠ pos) :
    p * fifo.payloadSize + fifo.payloadSize ≤ pos * fifo.payloadSize ∨
      pos * fifo.payloadSize + fifo.payloadSize ≤ p * fifo.payloadSize := by
  rw [← Nat.succ_mul, ← Nat.succ_mul]
  exact (Nat.lt_or_gt_of_ne hp).imp (Nat.mul_le_mul_right _) (Nat.mul_le_mul_right _)

theorem slot_congr {fifo' : Kfifo} (h : Shaped fifo) (hesize : fifo'.esize = fifo.esize)
    (hheader : fifo'.headerSize = fifo.headerSize) (hpayload : fifo'.payloadSize = fifo.payloadSize)
    (hdata : ∀ i, pos * fifo.payloadSize ≤ i → i < pos * fifo.payloadSize + fifo.payloadSize →
      fifo'.data i = fifo.data i) : fifo'.slot pos = fifo.slot pos := by
  have hone := h.esize
  have hsize := h.payloadSize
  have hlen : fifo'.lenAt pos = fifo.lenAt pos := by
    simp only [lenAt, hesize, hpayload]
    split
    · next hmode =>
        have htwo := h.headerSize
        rw [if_pos hmode, kfifoHdrSize] at htwo
        simp only [recsizeAt, hdata (pos * fifo.payloadSize) (by omega) (by omega),
          hdata (pos * fifo.payloadSize + 1) (by omega) (by omega)]
    · rfl
  simp only [slot, hlen, hesize, hheader, hpayload, KfifoRecord.mk.injEq, true_and]
  refine List.map_congr_left fun i hi => hdata _ (by omega) ?_
  have hlt := List.mem_range.mp hi
  omega

theorem data_putRecord (h : Shaped fifo) (hn : n ≤ fifo.esize) {i : Nat}
    (hi : i < pos * fifo.payloadSize ∨ pos * fifo.payloadSize + fifo.payloadSize ≤ i) :
    (fifo.putRecord pos buf n).data i = fifo.data i := by
  have hpayload := h.payloadSize
  have hbytes : memcpy fifo.data (pos * fifo.payloadSize + fifo.headerSize) buf n i = fifo.data i :=
    if_neg (by omega)
  simp only [putRecord]
  split
  · next hmode =>
      have hheader := h.headerSize
      rw [if_pos hmode] at hheader
      rw [memcpy, if_neg (by omega), hbytes]
  · exact hbytes

theorem slot_putRecord (h : Shaped fifo) (hn : 1 ≤ n ∧ n ≤ fifo.esize) (pos : Nat)
    (buf : Nat → Byte) : (fifo.putRecord pos buf n).slot =
      Function.update fifo.slot pos (.of (bytesAt buf n)) := by
  funext p
  have hpayload := h.payloadSize
  have hesize := h.esize_lt
  by_cases hp : p = pos
  · subst hp
    rw [Function.update_self]
    have hbytes : ∀ i < n, (fifo.putRecord p buf n).data
        (fifo.headerSize + p * fifo.payloadSize + i) = buf i := by
      intro i hi
      have hcopied : memcpy fifo.data (p * fifo.payloadSize + fifo.headerSize) buf n
          (fifo.headerSize + p * fifo.payloadSize + i) = buf i := by
        rw [memcpy, if_pos (by omega)]
        exact congrArg buf (by omega)
      simp only [putRecord]
      split
      · next hmode =>
          have hheader := h.headerSize
          rw [if_pos hmode] at hheader
          rw [memcpy, if_neg (by omega), hcopied]
      · exact hcopied
    have hlen : (fifo.putRecord p buf n).lenAt p = n := by
      simp only [lenAt, putRecord]
      split
      · have hvalue := recsizeBytes_value (n := n) (by omega)
        simpa [recsizeAt, memcpy, kfifoHdrSize] using hvalue
      · omega
    simp only [slot, hlen, KfifoRecord.of, length_bytesAt, KfifoRecord.mk.injEq, true_and]
    have hmin : min n (fifo.putRecord p buf n).esize = n := Nat.min_eq_left hn.2
    rw [hmin]
    exact List.map_congr_left fun i hi => hbytes i (List.mem_range.mp hi)
  · rw [Function.update_of_ne hp]
    refine slot_congr h rfl rfl rfl fun i hle hlt => h.data_putRecord hn.2 ?_
    have happart := slots_apart fifo hp
    omega

theorem kfifoIn (h : Shaped fifo) (hn : 1 ≤ n ∧ n ≤ fifo.esize) (buf : Nat → Byte) :
    Shaped (fifo.kfifoIn buf n) ∧ (fifo.kfifoIn buf n).size = fifo.size ∧
      (fifo.kfifoIn buf n).esize = fifo.esize ∧
      (fifo.kfifoIn buf n).queue =
        (if fifo.count < fifo.size then fifo.queue else fifo.queue.tail) ++
          [.of (bytesAt buf n)] := by
  have hslot := h.slot_putRecord hn fifo.endPos buf
  by_cases hfull : fifo.count = fifo.size
  · have hend := h.endPos_of_full hfull
    have hover := contents_overwrite fifo.slot h.start_lt (.of (bytesAt buf n))
    have hisFull : fifo.kfifoIsFull = true := decide_eq_true hfull
    rw [hend] at hslot
    rw [Kfifo.kfifoIn, if_pos hisFull, if_neg (by omega)]
    refine ⟨⟨h.esize, h.esize_lt, h.headerSize, h.payloadSize, h.count_le, bump_lt h.start_lt, ?_⟩,
      rfl, rfl, ?_⟩
    · change bump fifo.size fifo.endPos = place fifo.size (bump fifo.size fifo.start) fifo.count
      rw [h.bump_endPos, place_bump h.start_lt]
    · have hqueue := congrArg (fun cells => contents cells fifo.size (bump fifo.size fifo.start)
        fifo.count) hslot
      refine hqueue.trans ?_
      rw [queue, hfull, hover]
  · have hroom : fifo.count < fifo.size := lt_of_le_of_ne h.count_le hfull
    have hpush := contents_push fifo.slot fifo.start hroom (.of (bytesAt buf n))
    rw [Kfifo.kfifoIn, if_neg (by simpa [kfifoIsFull] using hfull), if_pos hroom]
    refine ⟨⟨h.esize, h.esize_lt, h.headerSize, h.payloadSize, hroom, h.start_lt, h.bump_endPos⟩,
      rfl, rfl, ?_⟩
    have hqueue := congrArg (fun cells => contents cells fifo.size fifo.start (fifo.count + 1)) hslot
    refine hqueue.trans ?_
    rw [h.endPos]
    exact hpush

theorem remove (h : Shaped fifo) (hcount : 0 < fifo.count) :
    Shaped { fifo with start := fifo.kfifoIncrease fifo.start, count := fifo.count - 1 } ∧
      fifo.queue = fifo.slot fifo.start ::
        { fifo with start := fifo.kfifoIncrease fifo.start, count := fifo.count - 1 }.queue := by
  obtain ⟨count, hsucc⟩ : ∃ count, fifo.count = count + 1 := ⟨fifo.count - 1, by omega⟩
  have hle := h.count_le
  refine ⟨⟨h.esize, h.esize_lt, h.headerSize, h.payloadSize, by simp only; omega,
    bump_lt h.start_lt, ?_⟩, ?_⟩
  · change fifo.endPos = place fifo.size (bump fifo.size fifo.start) (fifo.count - 1)
    rw [place_bump h.start_lt, h.endPos, hsucc, Nat.add_sub_cancel]
  · rw [queue, hsucc, contents_pop h.start_lt]
    rfl

theorem access_le {off len : Nat} (hpos : pos < fifo.size)
    (hle : off + len ≤ pos * fifo.payloadSize + fifo.payloadSize) :
    off + len ≤ fifo.payloadSize * fifo.size := hle.trans (slot_le hpos)

theorem inAccesses_le (h : Shaped fifo) (hn : n ≤ fifo.esize) :
    ∀ a ∈ fifo.inAccesses n, a.1 + a.2 ≤ fifo.payloadSize * fifo.size := by
  have hpayload := h.payloadSize
  obtain ⟨pos, hpos, hplace⟩ : ∃ pos < fifo.size,
      (if fifo.kfifoIsFull then fifo.start else fifo.endPos) = pos := by
    refine ⟨_, ?_, rfl⟩
    split
    · exact h.start_lt
    · exact h.endPos_lt
  simp only [inAccesses, hplace, List.forall_mem_cons]
  refine ⟨access_le hpos (by omega), ?_⟩
  split
  · next hmode =>
      have hheader := h.headerSize
      rw [if_pos hmode] at hheader
      simp only [List.forall_mem_singleton]
      exact access_le hpos (by omega)
  · exact List.forall_mem_nil _

theorem outAccesses_le (h : Shaped fifo) (hn : n ≤ fifo.esize) :
    ∀ a ∈ fifo.outAccesses n, a.1 + a.2 ≤ fifo.payloadSize * fifo.size := by
  have hpayload := h.payloadSize
  rw [outAccesses]
  split
  · exact List.forall_mem_nil _
  · simp only [List.forall_mem_singleton]
    exact access_le h.start_lt (by omega)

theorem peekAccesses_le (h : Shaped fifo) (hn : n ≤ fifo.esize) :
    ∀ a ∈ fifo.peekAccesses n, a.1 + a.2 ≤ fifo.payloadSize * fifo.size := by
  have hpayload := h.payloadSize
  have hheader := h.headerSize
  have hone := h.esize
  simp only [peekAccesses]
  split
  · exact List.forall_mem_nil _
  · split
    · next hmode =>
        rw [if_pos hmode] at hheader
        simp only [List.forall_mem_singleton]
        exact access_le h.start_lt (by omega)
    · simp only [List.forall_mem_singleton]
      exact access_le h.start_lt (by omega)

theorem accesses_le {op : KfifoOp} (h : Shaped fifo) (hop : op.Valid fifo.esize) :
    ∀ a ∈ fifo.accesses op, a.1 + a.2 ≤ fifo.payloadSize * fifo.size := by
  cases op with
  | kfifoIn buf n => exact h.inAccesses_le hop.2
  | kfifoPut data => exact h.inAccesses_le (Nat.le_refl _)
  | kfifoOut buf n => exact h.outAccesses_le hop.2
  | kfifoGet data => exact h.outAccesses_le (Nat.le_refl _)
  | kfifoOutPeek data n => exact h.peekAccesses_le hop.2
  | kfifoPeek data => exact h.peekAccesses_le (Nat.le_refl _)
  | kfifoPeekLen =>
      have hpayload := h.payloadSize
      have hheader := h.headerSize
      simp only [accesses]
      split
      · exact List.forall_mem_nil _
      · next hmode =>
          rw [if_pos (by omega)] at hheader
          simp only [List.forall_mem_singleton]
          exact access_le h.start_lt (by omega)
  | kfifoSkip | kfifoLen | kfifoAvail => exact List.forall_mem_nil _

theorem kfifoIn_data (h : Shaped fifo) (hn : n ≤ fifo.esize) (buf : Nat → Byte) {i : Nat}
    (hi : fifo.payloadSize * fifo.size ≤ i) : (fifo.kfifoIn buf n).data i = fifo.data i := by
  rw [Kfifo.kfifoIn]
  split
  · exact h.data_putRecord hn (Or.inr ((slot_le h.start_lt).trans hi))
  · exact h.data_putRecord hn (Or.inr ((slot_le h.endPos_lt).trans hi))

theorem call_data {op : KfifoOp} (h : Shaped fifo) (hop : op.Valid fifo.esize) {i : Nat}
    (hi : fifo.payloadSize * fifo.size ≤ i) : (fifo.call op).1.data i = fifo.data i := by
  cases op with
  | kfifoIn buf n => exact h.kfifoIn_data hop.2 buf hi
  | kfifoPut data => exact h.kfifoIn_data (Nat.le_refl _) data hi
  | kfifoOut _ _ | kfifoGet _ =>
      simp only [call, kfifoGet, Kfifo.kfifoOut]
      split
      · rfl
      · rfl
  | kfifoSkip =>
      simp only [call, kfifoSkip]
      split
      · rfl
      · rfl
  | kfifoOutPeek _ _ | kfifoPeek _ | kfifoPeekLen | kfifoLen | kfifoAvail => rfl

end Shaped

/-- The fifo holds the records of the queue. -/
structure Refines (fifo : Kfifo) (size esize : Nat) (q : List (List Byte)) : Prop where
  shaped : Shaped fifo
  size : fifo.size = size
  esize : fifo.esize = esize
  queue : fifo.queue = q.map .of

namespace Refines
variable {fifo : Kfifo} {size esize n : Nat} {q : List (List Byte)} {buf : Nat → Byte}

theorem length (h : Refines fifo size esize q) : q.length = fifo.count := by
  have hlength := congrArg List.length h.queue
  rw [Kfifo.queue, length_contents, List.length_map] at hlength
  exact hlength.symm

theorem length_le (h : Refines fifo size esize q) : q.length ≤ size := by
  rw [h.length, ← h.size]
  exact h.shaped.count_le

theorem nil_iff (h : Refines fifo size esize q) : fifo.count ≤ 0 ↔ q = [] := by
  rw [← h.length, Nat.le_zero, List.length_eq_zero_iff]

theorem kfifoIn (h : Refines fifo size esize q) (hn : 1 ≤ n ∧ n ≤ esize) (buf : Nat → Byte) :
    Refines (fifo.kfifoIn buf n) size esize (RecordQueue.next.append size q buf n) := by
  obtain ⟨hshaped, hsize, hesize, hqueue⟩ := h.shaped.kfifoIn (n := n) (h.esize ▸ hn) buf
  refine ⟨hshaped, hsize.trans h.size, hesize.trans h.esize, ?_⟩
  rw [hqueue, h.queue, RecordQueue.next.append, h.length, h.size]
  split
  · simp
  · simp [List.map_tail]

theorem remove (h : Refines fifo size esize q) (hcount : ¬ fifo.count ≤ 0) :
    Refines { fifo with start := fifo.kfifoIncrease fifo.start, count := fifo.count - 1 } size esize
      q.tail := by
  obtain ⟨hshaped, hqueue⟩ := h.shaped.remove (by omega)
  refine ⟨hshaped, h.size, h.esize, ?_⟩
  rw [List.map_tail, ← h.queue, hqueue, List.tail_cons]

theorem kfifoOut (h : Refines fifo size esize q) (buf : Nat → Byte) (n : Nat) :
    Refines (fifo.kfifoOut buf 0 n).1 size esize q.tail := by
  rw [Kfifo.kfifoOut]
  split
  · next hcount =>
      obtain rfl := h.nil_iff.mp hcount
      exact h
  · next hcount => exact h.remove hcount

theorem kfifoSkip (h : Refines fifo size esize q) : Refines fifo.kfifoSkip size esize q.tail := by
  rw [Kfifo.kfifoSkip]
  split
  · next hcount =>
      obtain rfl := h.nil_iff.mp hcount
      exact h
  · next hcount => exact h.remove hcount

theorem call {op : KfifoOp} (h : Refines fifo size esize q) (hop : op.Valid esize) :
    Refines (fifo.call op).1 size esize (RecordQueue.next size esize q op) := by
  have hesize : 1 ≤ esize ∧ esize ≤ esize := ⟨h.esize ▸ h.shaped.esize, Nat.le_refl _⟩
  cases op with
  | kfifoIn buf n => exact h.kfifoIn hop buf
  | kfifoPut data =>
      have hin := h.kfifoIn hesize data
      rwa [← h.esize] at hin ⊢
  | kfifoOut buf n => exact h.kfifoOut buf n
  | kfifoGet data => exact h.kfifoOut data fifo.esize
  | kfifoSkip => exact h.kfifoSkip
  | kfifoOutPeek _ _ | kfifoPeek _ | kfifoPeekLen | kfifoLen | kfifoAvail => exact h

theorem first {record : List Byte} (h : Refines fifo size esize q) (hq : record ∈ q.head?) :
    ¬ fifo.count ≤ 0 ∧ fifo.slot fifo.start = .of record := by
  obtain ⟨rest, rfl⟩ := List.head?_eq_some_iff.mp hq
  have hcount : ¬ fifo.count ≤ 0 := fun hle => by simpa using h.nil_iff.mp hle
  obtain ⟨_, hqueue⟩ := h.shaped.remove (by omega)
  refine ⟨hcount, ?_⟩
  rw [h.queue, List.map_cons, List.cons.injEq] at hqueue
  exact hqueue.1.symm

theorem lenAt_first {record : List Byte} (h : Refines fifo size esize q) (hq : record ∈ q.head?) :
    fifo.lenAt fifo.start = record.length :=
  congrArg KfifoRecord.len (h.first hq).2

theorem bytes_first {record : List Byte} (h : Refines fifo size esize q) (hq : record ∈ q.head?) :
    bytesAt (ptrAdd fifo.data (fifo.headerSize + fifo.start * fifo.payloadSize)) record.length =
      record := by
  have hbytes : bytesAt (ptrAdd fifo.data (fifo.headerSize + fifo.start * fifo.payloadSize))
      (min (fifo.lenAt fifo.start) fifo.esize) = record :=
    congrArg KfifoRecord.bytes (h.first hq).2
  have hlength := congrArg List.length hbytes
  rw [length_bytesAt] at hlength
  rwa [hlength] at hbytes

theorem copies (h : Refines fifo size esize q) (hcount : ¬ fifo.count ≤ 0) (buf : Nat → Byte)
    (n : Nat) : RecordQueue.Copies q buf n (.buffer (memcpy buf 0
      (ptrAdd fifo.data (fifo.headerSize + fifo.start * fifo.payloadSize)) n)) := by
  refine ⟨_, rfl, fun hq => absurd (h.nil_iff.mpr hq) hcount, fun record hq => ?_, fun i hi => ?_⟩
  · have hbytes := congrArg (List.take n) (h.bytes_first hq)
    rw [← hbytes, bytesAt, bytesAt, ← List.map_take, List.take_range]
    refine List.map_congr_left fun i hi => ?_
    have hlt := List.mem_range.mp hi
    rw [memcpy, if_pos ⟨Nat.zero_le i, by omega⟩, Nat.sub_zero]
  · exact if_neg (by omega)

theorem copies_nil (h : Refines fifo size esize q) (hcount : fifo.count ≤ 0) (buf : Nat → Byte)
    (n : Nat) : RecordQueue.Copies q buf n (.buffer buf) := by
  obtain rfl := h.nil_iff.mp hcount
  exact ⟨buf, rfl, fun _ => rfl, by simp, fun _ _ => rfl⟩

theorem kfifoOut_copies (h : Refines fifo size esize q) (buf : Nat → Byte) (n : Nat) :
    RecordQueue.Copies q buf n (.buffer (fifo.kfifoOut buf 0 n).2) := by
  rw [Kfifo.kfifoOut]
  split
  · next hcount => exact h.copies_nil hcount buf n
  · next hcount => exact h.copies hcount buf n

theorem kfifoOutPeek_copies (h : Refines fifo size esize q) (hn : 1 ≤ n ∧ n ≤ esize)
    (buf : Nat → Byte) : RecordQueue.Copies q buf n (.buffer (fifo.kfifoOutPeek buf n)) := by
  have hheader := h.shaped.headerSize
  have hesize := h.esize
  rw [Kfifo.kfifoOutPeek]
  split
  · next hcount => exact h.copies_nil hcount buf n
  · next hcount =>
      have hcopies := h.copies hcount buf n
      dsimp only
      split
      · next hmode => rwa [hheader, if_pos hmode, Nat.add_comm] at hcopies
      · next hmode =>
          obtain rfl : n = 1 := by omega
          rwa [hheader, if_neg hmode, Nat.zero_add] at hcopies

theorem returns {op : KfifoOp} (h : Refines fifo size esize q) (hop : op.Valid esize) :
    RecordQueue.Returns size esize q op (fifo.call op).2 := by
  have hesize : 1 ≤ esize ∧ esize ≤ esize := ⟨h.esize ▸ h.shaped.esize, Nat.le_refl _⟩
  cases op with
  | kfifoIn buf n => rfl
  | kfifoPut data => rfl
  | kfifoSkip => rfl
  | kfifoOut buf n => exact h.kfifoOut_copies buf n
  | kfifoGet data =>
      have hout := h.kfifoOut_copies data esize
      rwa [← h.esize] at hout ⊢
  | kfifoOutPeek data n => exact h.kfifoOutPeek_copies hop data
  | kfifoPeek data =>
      have hpeek := h.kfifoOutPeek_copies hesize data
      rwa [← h.esize] at hpeek ⊢
  | kfifoPeekLen =>
      intro hmode record hq
      have hlen := h.lenAt_first hq
      rw [← h.esize] at hmode
      rw [lenAt, if_pos hmode] at hlen
      rw [Kfifo.call, kfifoPeekLen, if_neg (by omega), hlen]
  | kfifoLen => exact congrArg _ h.length.symm
  | kfifoAvail => simp only [RecordQueue.Returns, Kfifo.call, kfifoAvail, h.size, h.length]

theorem buffer (h : Refines fifo size esize q) (data : Nat → Byte) :
    fifo.payloadSize * fifo.size = (kfifoInit data esize size).payloadSize * size := by
  have hesize := h.esize
  have hone := h.shaped.esize
  rw [h.size, h.shaped.payloadSize, h.shaped.headerSize, kfifoInit, hesize]
  split
  · rfl
  · obtain rfl : esize = 1 := by omega
    rfl

end Refines

theorem refines_calls (data : Nat → Byte) {esize size : Nat} (hesize : 1 ≤ esize)
    (hlt : esize < 65536) (hsize : 1 ≤ size) {ops : List KfifoOp}
    (hops : ∀ op ∈ ops, op.Valid esize) :
    Refines (ops.foldl (fun fifo op => (fifo.call op).1) (kfifoInit data esize size)) size esize
      (ops.foldl (RecordQueue.next size esize) []) := by
  have hinit : Refines (kfifoInit data esize size) size esize [] :=
    ⟨shaped_init data hesize hlt hsize, rfl, rfl, rfl⟩
  generalize kfifoInit data esize size = fifo at hinit
  generalize ([] : List (List Byte)) = q at hinit
  induction ops generalizing fifo q with
  | nil => exact hinit
  | cons op ops ih =>
      rw [List.forall_mem_cons] at hops
      exact ih hops.2 _ _ (hinit.call hops.1)

end Kfifo

/-- After any calls on a fifo that has been initialised the next one returns what the queue of
records says, and it neither accesses nor changes memory behind the buffer. -/
theorem kfifo_recordQueue (data : Nat → Byte) (esize size : Nat) (hesize : 1 ≤ esize)
    (hlt : esize < 65536) (hsize : 1 ≤ size) (ops : List KfifoOp)
    (hops : ∀ op ∈ ops, op.Valid esize) (op : KfifoOp) (hop : op.Valid esize) :
    let buffer := (Kfifo.kfifoInit data esize size).payloadSize * size
    let fifo := ops.foldl (fun fifo op => (fifo.call op).1) (Kfifo.kfifoInit data esize size)
    let q := ops.foldl (RecordQueue.next size esize) []
    fifo.queue = q.map .of ∧ q.length ≤ size ∧ RecordQueue.Returns size esize q op (fifo.call op).2 ∧
      (∀ a ∈ fifo.accesses op, a.1 + a.2 ≤ buffer) ∧
        ∀ i, buffer ≤ i → (fifo.call op).1.data i = fifo.data i := by
  have hrun := Kfifo.refines_calls data hesize hlt hsize hops
  have hvalid := hrun.esize.symm ▸ hop
  have hbuffer := hrun.buffer data
  refine ⟨hrun.queue, hrun.length_le, hrun.returns hop, ?_, ?_⟩
  · rw [← hbuffer]
    exact hrun.shaped.accesses_le hvalid
  · rw [← hbuffer]
    exact fun i hi => hrun.shaped.call_data hvalid hi

/-- Two records of different lengths go round a ring of two slots, the second over the place that
the first one has left. -/
theorem kfifo_recordQueue_wrap :
    let ops : List KfifoOp := [.kfifoIn (fun i => BitVec.ofNat 8 i) 1, .kfifoIn (fun _ => 7#8) 3,
      .kfifoOut (fun _ => 0#8) 1, .kfifoIn (fun _ => 9#8) 2]
    let fifo := ops.foldl (fun fifo op => (fifo.call op).1) (Kfifo.kfifoInit (fun _ => 0#8) 3 2)
    fifo.queue = [⟨3, [7#8, 7#8, 7#8]⟩, ⟨2, [9#8, 9#8]⟩] ∧
      RecordQueue.Returns 2 3 [[7#8, 7#8, 7#8], [9#8, 9#8]] .kfifoPeekLen
        (fifo.call .kfifoPeekLen).2 := by
  have hrun := kfifo_recordQueue (fun _ => 0#8) 3 2 (by decide) (by decide) (by decide)
    [.kfifoIn (fun i => BitVec.ofNat 8 i) 1, .kfifoIn (fun _ => 7#8) 3,
      .kfifoOut (fun _ => 0#8) 1, .kfifoIn (fun _ => 9#8) 2] (by simp [KfifoOp.Valid])
    .kfifoPeekLen trivial
  exact ⟨hrun.1, hrun.2.2.1⟩

end Tenok
