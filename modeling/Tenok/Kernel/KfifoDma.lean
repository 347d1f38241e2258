import Tenok.Kernel.KfifoQueue
import Mathlib.Logic.Relation

/-!
Records that a device moves: the driver asks for an address, the device copies the bytes, and the
driver finishes the transfer. The length of a record that comes in is written to the slot that
`start` shows, which is the slot of the record only if the fifo has no other.
-/
namespace Tenok
open RingBuffer

namespace Kfifo

/-- The offset of the address that the device is to write to. -/
def kfifoDmaInPrepare (fifo : Kfifo) : Nat :=
  if fifo.kfifoIsFull then fifo.headerSize + fifo.start * fifo.payloadSize
  else fifo.headerSize + fifo.endPos * fifo.payloadSize

def kfifoDmaInFinish (fifo : Kfifo) (n : Nat) : Kfifo :=
  let fifo := if fifo.kfifoIsFull then { fifo with start := fifo.kfifoIncrease fifo.start }
    else { fifo with count := fifo.count + 1 }
  -- unlike `kfifo_in`, after `start` has moved on, and also in a byte stream
  let recsize := fifo.start * fifo.payloadSize
  { fifo with
    data := memcpy fifo.data recsize (recsizeBytes n) kfifoHdrSize
    endPos := fifo.kfifoIncrease fifo.endPos }

/-- The offset and the number of the bytes that the device is to read. -/
def kfifoDmaOutPrepare (fifo : Kfifo) : Nat × Nat :=
  let dataStart := fifo.start * fifo.payloadSize
  (dataStart + fifo.headerSize, fifo.recsizeAt dataStart)

def kfifoDmaOutFinish (fifo : Kfifo) : Kfifo :=
  { fifo with start := fifo.kfifoIncrease fifo.start, count := fifo.count - 1 }

def dmaWrite (fifo : Kfifo) (off : Nat) (buf : Nat → Byte) (n : Nat) : Kfifo :=
  { fifo with data := memcpy fifo.data off buf n }

def kfifoDmaIn (fifo : Kfifo) (buf : Nat → Byte) (n : Nat) : Kfifo :=
  (fifo.dmaWrite fifo.kfifoDmaInPrepare buf n).kfifoDmaInFinish n

end Kfifo

/-- What can happen to a fifo: a transfer may be finished whenever it was begun, but out of an empty
fifo there is none. -/
inductive KfifoStep (fifo : Kfifo) : Kfifo → Prop
  | call (op : KfifoOp) : KfifoStep fifo (fifo.call op).1
  | dmaWrite (off : Nat) (buf : Nat → Byte) (n : Nat) : KfifoStep fifo (fifo.dmaWrite off buf n)
  | dmaInFinish (n : Nat) : KfifoStep fifo (fifo.kfifoDmaInFinish n)
  | dmaOutFinish (hcount : 0 < fifo.count) : KfifoStep fifo fifo.kfifoDmaOutFinish

namespace Kfifo

/-- A record that comes or goes by a device is the one that comes or goes by copying. -/
structure DmaCopies (fifo : Kfifo) (buf : Nat → Byte) (n : Nat) : Prop where
  dmaIn : (fifo.kfifoDmaIn buf n).queue = (fifo.kfifoIn buf n).queue
  dmaOut : 0 < fifo.count →
    (∀ m, fifo.outAccesses m = [(fifo.kfifoDmaOutPrepare.1, m)]) ∧
      (∀ record ∈ fifo.queue.head?, fifo.kfifoDmaOutPrepare.2 = record.len) ∧
        ∀ m, fifo.kfifoDmaOutFinish = (fifo.kfifoOut buf 0 m).1

/-- Where the oldest record is once another one has come. -/
def oldest (fifo : Kfifo) : Nat :=
  if fifo.kfifoIsFull then fifo.kfifoIncrease fifo.start else fifo.start

/-- The lengths are where they are looked up: the record that comes is the only one, or it has the
length that is already stored for it and for the oldest one. In a byte stream the bytes have to be
those of a header. -/
def DmaFits (fifo : Kfifo) (buf : Nat → Byte) (n : Nat) : Prop :=
  if 1 < fifo.esize then
    fifo.oldest = fifo.endPos ∨ fifo.recsizeAt (fifo.endPos * fifo.payloadSize) = n ∧
      fifo.recsizeAt (fifo.oldest * fifo.payloadSize) = n
  else
    let bytes := memcpy fifo.data fifo.endPos buf n
    bytes fifo.oldest = BitVec.ofNat 8 n ∧
      (0 < fifo.count → fifo.oldest + 1 < fifo.size → bytes (fifo.oldest + 1) = 0) ∧
        (0 < fifo.count → fifo.recsizeAt fifo.start = 1)

/-- The fifo with `n` as the length that is stored for the record at position `pos`. -/
def putRecsize (fifo : Kfifo) (pos n : Nat) : Kfifo :=
  { fifo with data := memcpy fifo.data (pos * fifo.payloadSize) (recsizeBytes n) kfifoHdrSize }

def advance (fifo : Kfifo) (data : Nat → Byte) : Kfifo where
  start := fifo.oldest
  endPos := fifo.kfifoIncrease fifo.endPos
  count := if fifo.kfifoIsFull then fifo.count else fifo.count + 1
  data := data
  size := fifo.size
  esize := fifo.esize
  headerSize := fifo.headerSize
  payloadSize := fifo.payloadSize

theorem dmaInFinish_eq (fifo : Kfifo) (n : Nat) : fifo.kfifoDmaInFinish n = fifo.advance
    (memcpy fifo.data (fifo.oldest * fifo.payloadSize) (recsizeBytes n) kfifoHdrSize) := by
  rw [kfifoDmaInFinish, advance, oldest]
  split
  · rfl
  · rfl

namespace Shaped
variable {fifo : Kfifo} {n pos : Nat} {buf : Nat → Byte}

theorem full_iff (h : Shaped fifo) : fifo.kfifoIsFull = true ↔ ¬ fifo.count < fifo.size := by
  have hle := h.count_le
  rw [kfifoIsFull, decide_eq_true_iff]
  omega

theorem advance (h : Shaped fifo) (data : Nat → Byte) : Shaped (fifo.advance data) := by
  have hbump := h.bump_endPos
  by_cases hfull : fifo.kfifoIsFull = true
  · refine ⟨h.esize, h.esize_lt, h.headerSize, h.payloadSize, ?_, ?_, ?_⟩
    · simpa only [Kfifo.advance, if_pos hfull] using h.count_le
    · simpa only [Kfifo.advance, oldest, if_pos hfull, kfifoIncrease] using bump_lt h.start_lt
    · simp only [Kfifo.advance, oldest, if_pos hfull, kfifoIncrease, hbump, place_bump h.start_lt]
  · have hroom : fifo.count < fifo.size := by
      rw [h.full_iff] at hfull
      omega
    refine ⟨h.esize, h.esize_lt, h.headerSize, h.payloadSize, ?_, ?_, ?_⟩
    · simpa only [Kfifo.advance, if_neg hfull, Nat.succ_le_iff] using hroom
    · simpa only [Kfifo.advance, oldest, if_neg hfull] using h.start_lt
    · simpa only [Kfifo.advance, oldest, if_neg hfull, kfifoIncrease] using hbump

theorem place_endPos (h : Shaped fifo) (data : Nat → Byte) :
    ∃ j < (fifo.advance data).count, place fifo.size fifo.oldest j = fifo.endPos := by
  have hend := h.endPos
  by_cases hfull : fifo.kfifoIsFull = true
  · have hpos := h.start_lt
    have hcount : ¬ fifo.count < fifo.size := h.full_iff.mp hfull
    obtain ⟨count, hsucc⟩ : ∃ count, fifo.count = count + 1 := ⟨fifo.count - 1, by omega⟩
    refine ⟨count, ?_, ?_⟩
    · simp only [Kfifo.advance, if_pos hfull]
      omega
    · rw [oldest, if_pos hfull, kfifoIncrease, place_bump h.start_lt, ← hsucc, hend]
  · refine ⟨fifo.count, ?_, ?_⟩
    · simp only [Kfifo.advance, if_neg hfull]
      omega
    · rw [oldest, if_neg hfull, hend]

theorem advance_count_pos (h : Shaped fifo) (data : Nat → Byte) :
    0 < (fifo.advance data).count := by
  obtain ⟨j, hj, _⟩ := h.place_endPos data
  omega

theorem one_lt_advance (h : Shaped fifo) (data : Nat → Byte) (hsize : 1 < fifo.size) :
    1 < (fifo.advance data).count ↔ 0 < fifo.count := by
  by_cases hfull : fifo.kfifoIsFull = true
  · have hcount : ¬ fifo.count < fifo.size := h.full_iff.mp hfull
    simp only [Kfifo.advance, if_pos hfull]
    omega
  · simp only [Kfifo.advance, if_neg hfull]
    omega

theorem place_oldest (h : Shaped fifo) : place fifo.size fifo.oldest 0 = fifo.oldest :=
  Nat.mod_eq_of_lt (h.advance fifo.data).start_lt

theorem kfifoIn_eq (h : Shaped fifo) (buf : Nat → Byte) (n : Nat) :
    fifo.kfifoIn buf n = fifo.advance (fifo.putRecord fifo.endPos buf n).data := by
  rw [Kfifo.kfifoIn, Kfifo.advance, oldest]
  by_cases hfull : fifo.kfifoIsFull = true
  · have hcount : fifo.count = fifo.size := decide_eq_true_iff.mp hfull
    have hput : fifo.putRecord fifo.endPos buf n = fifo.putRecord fifo.start buf n := by
      rw [h.endPos_of_full hcount]
    rw [if_pos hfull, if_pos hfull, if_pos hfull, hput]
    rfl
  · rw [if_neg hfull, if_neg hfull, if_neg hfull]
    rfl

theorem kfifoDmaInPrepare_eq (h : Shaped fifo) :
    fifo.kfifoDmaInPrepare = fifo.endPos * fifo.payloadSize + fifo.headerSize := by
  rw [kfifoDmaInPrepare, Nat.add_comm (fifo.endPos * _)]
  split
  · next hfull => rw [h.endPos_of_full (decide_eq_true_iff.mp hfull)]
  · rfl

theorem kfifoDmaIn_eq (h : Shaped fifo) (buf : Nat → Byte) (n : Nat) :
    fifo.kfifoDmaIn buf n = fifo.advance
      (memcpy (memcpy fifo.data (fifo.endPos * fifo.payloadSize + fifo.headerSize) buf n)
        (fifo.oldest * fifo.payloadSize) (recsizeBytes n) kfifoHdrSize) := by
  rw [kfifoDmaIn, dmaInFinish_eq, h.kfifoDmaInPrepare_eq]
  rfl

/-- A length that is stored for a record changes how many of its bytes are the record. -/
theorem slot_putRecsize (h : Shaped fifo) (hmode : 1 < fifo.esize) (hn : n ≤ fifo.esize)
    (pos : Nat) : (fifo.putRecsize pos n).slot =
      Function.update fifo.slot pos
        ⟨n, bytesAt (ptrAdd fifo.data (fifo.headerSize + pos * fifo.payloadSize))
          (min n fifo.esize)⟩ := by
  funext p
  have hesize := h.esize_lt
  have hpayload := h.payloadSize
  have hheader := h.headerSize
  rw [if_pos hmode, kfifoHdrSize] at hheader
  by_cases hp : p = pos
  · subst hp
    have hvalue := recsizeBytes_value (n := n) (by omega)
    have hlen : (fifo.putRecsize p n).lenAt p = n := by
      simpa [lenAt, putRecsize, if_pos hmode, recsizeAt, memcpy, kfifoHdrSize] using hvalue
    rw [Function.update_self, slot, hlen, KfifoRecord.mk.injEq]
    refine ⟨rfl, List.map_congr_left fun i _ => ?_⟩
    simp only [ptrAdd, putRecsize, hheader, kfifoHdrSize]
    rw [memcpy, if_neg (by omega)]
  · rw [Function.update_of_ne hp]
    refine slot_congr h rfl rfl rfl fun i hle hlt => ?_
    have happart := slots_apart fifo hp
    simp only [putRecsize, kfifoHdrSize]
    rw [memcpy, if_neg (by omega)]

/-- The length that is stored for a record tells it from the others with the same bytes. -/
theorem slot_eq_iff :
    ⟨n, bytesAt (ptrAdd fifo.data (fifo.headerSize + pos * fifo.payloadSize)) (min n fifo.esize)⟩ =
      fifo.slot pos ↔ fifo.lenAt pos = n := by
  constructor
  · intro heq
    exact (congrArg KfifoRecord.len heq).symm
  · rintro rfl
    rfl

theorem recsizeAt_write (h : Shaped fifo) (hmode : 1 < fifo.esize) (hn : n ≤ fifo.esize)
    (buf : Nat → Byte) (p : Nat) :
    (fifo.dmaWrite (pos * fifo.payloadSize + fifo.headerSize) buf n).recsizeAt
      (p * fifo.payloadSize) = fifo.recsizeAt (p * fifo.payloadSize) := by
  have hpayload := h.payloadSize
  have hheader := h.headerSize
  rw [if_pos hmode, kfifoHdrSize] at hheader
  have hsame : ∀ i < 2, memcpy fifo.data (pos * fifo.payloadSize + fifo.headerSize) buf n
      (p * fifo.payloadSize + i) = fifo.data (p * fifo.payloadSize + i) := by
    intro i hi
    by_cases hp : p = pos
    · subst hp
      exact if_neg (by omega)
    · have happart := slots_apart fifo hp
      exact if_neg (by omega)
  have hfirst := hsame 0 (by decide)
  have hsecond := hsame 1 (by decide)
  rw [Nat.add_zero] at hfirst
  simp only [recsizeAt, dmaWrite, hfirst, hsecond]

theorem dmaIn_records (h : Shaped fifo) (hmode : 1 < fifo.esize) (hn : n ≤ fifo.esize)
    (buf : Nat → Byte) : (fifo.kfifoDmaIn buf n).queue = (fifo.kfifoIn buf n).queue ↔
      fifo.oldest = fifo.endPos ∨ fifo.recsizeAt (fifo.endPos * fifo.payloadSize) = n ∧
        fifo.recsizeAt (fifo.oldest * fifo.payloadSize) = n := by
  -- both store a length in the same fifo, but not for the same record
  let written := fifo.dmaWrite (fifo.endPos * fifo.payloadSize + fifo.headerSize) buf n
  let next := fifo.advance written.data
  have hnext : Shaped next := h.advance written.data
  have hdma : fifo.kfifoDmaIn buf n = next.putRecsize fifo.oldest n := h.kfifoDmaIn_eq buf n
  have hin : fifo.kfifoIn buf n = next.putRecsize fifo.endPos n := by
    rw [h.kfifoIn_eq, putRecord]
    simp only [if_pos hmode]
    rfl
  have hlen : ∀ p, next.lenAt p = fifo.recsizeAt (p * fifo.payloadSize) := fun p =>
    (if_pos hmode).trans (h.recsizeAt_write hmode hn buf p)
  have hslots : ∀ p, (next.putRecsize p n).slot = Function.update next.slot p
      ⟨n, bytesAt (ptrAdd next.data (next.headerSize + p * next.payloadSize))
        (min n next.esize)⟩ := hnext.slot_putRecsize hmode hn
  rw [hdma, hin, ← hlen, ← hlen]
  constructor
  · intro hqueue
    have hplaces := contents_inj.mp hqueue
    rw [hslots, hslots] at hplaces
    rw [or_iff_not_imp_left]
    intro hne
    obtain ⟨j, hj, hplace⟩ := h.place_endPos written.data
    have hfirst := hplaces 0 (h.advance_count_pos written.data)
    have hlast := hplaces j hj
    have holdest : place next.size next.start 0 = fifo.oldest := h.place_oldest
    have hend : place next.size next.start j = fifo.endPos := hplace
    rw [putRecsize, holdest, Function.update_self, Function.update_of_ne hne, slot_eq_iff] at hfirst
    rw [putRecsize, hend, Function.update_self, Function.update_of_ne (Ne.symm hne), eq_comm,
      slot_eq_iff] at hlast
    exact ⟨hlast, hfirst⟩
  · rintro (hplace | ⟨hlast, hfirst⟩)
    · rw [hplace]
    · rw [← slot_eq_iff] at hlast hfirst
      have hslot : (next.putRecsize fifo.oldest n).slot = (next.putRecsize fifo.endPos n).slot := by
        rw [hslots, hslots, hlast, hfirst, Function.update_eq_self, Function.update_eq_self]
      exact congrArg (fun cells => contents cells next.size next.start next.count) hslot

theorem putRecsize (h : Shaped fifo) (pos n : Nat) : Shaped (fifo.putRecsize pos n) :=
  ⟨h.esize, h.esize_lt, h.headerSize, h.payloadSize, h.count_le, h.start_lt, h.endPos⟩

theorem slot_byte (h : Shaped fifo) (hmode : ¬ 1 < fifo.esize) :
    fifo.slot pos = ⟨1, [fifo.data pos]⟩ := by
  have hone := h.esize
  have hheader := h.headerSize
  have hpayload := h.payloadSize
  rw [if_neg hmode] at hheader
  have hesize : fifo.esize = 1 := by omega
  have hsize : fifo.payloadSize = 1 := by omega
  simp [slot, lenAt, hesize, hheader, hsize, bytesAt, ptrAdd]

theorem putRecsize_data (fifo : Kfifo) (hsize : fifo.payloadSize = 1) (pos : Nat) {n : Nat}
    (hn : n < 256) :
    (fifo.putRecsize pos n).data pos = BitVec.ofNat 8 n ∧
      (fifo.putRecsize pos n).data (pos + 1) = 0 ∧
      ∀ i, i ≠ pos → i ≠ pos + 1 → (fifo.putRecsize pos n).data i = fifo.data i := by
  have hhigh : n / 256 = 0 := by omega
  refine ⟨?_, ?_, fun i hi hi' => ?_⟩
  · simp [Kfifo.putRecsize, hsize, memcpy, recsizeBytes, kfifoHdrSize]
  · simp [Kfifo.putRecsize, hsize, memcpy, recsizeBytes, kfifoHdrSize, hhigh]
  · simp only [Kfifo.putRecsize, hsize, kfifoHdrSize]
    exact if_neg (by omega)

/-- Without headers the length that is written at `start` has to be what the bytes there are. -/
theorem dmaIn_bytes (h : Shaped fifo) (hmode : ¬ 1 < fifo.esize) (hn : n ≤ fifo.esize)
    (buf : Nat → Byte) : (fifo.kfifoDmaIn buf n).queue = (fifo.kfifoIn buf n).queue ↔
      memcpy fifo.data fifo.endPos buf n fifo.oldest = BitVec.ofNat 8 n ∧
        (0 < fifo.count → fifo.oldest + 1 < fifo.size →
          memcpy fifo.data fifo.endPos buf n (fifo.oldest + 1) = 0) := by
  have hone := h.esize
  have hheader := h.headerSize
  have hpayload := h.payloadSize
  rw [if_neg hmode] at hheader
  have hsize : fifo.payloadSize = 1 := by omega
  let bytes := memcpy fifo.data fifo.endPos buf n
  let next := fifo.advance bytes
  have hnext : Shaped next := h.advance bytes
  have hwritten : memcpy fifo.data (fifo.endPos * fifo.payloadSize + fifo.headerSize) buf n =
      bytes := by
    rw [hheader, hsize, Nat.mul_one, Nat.add_zero]
  have hin : fifo.kfifoIn buf n = next := by
    rw [h.kfifoIn_eq, putRecord]
    simp only [if_neg hmode, hwritten]
    rfl
  have hdma : fifo.kfifoDmaIn buf n = next.putRecsize fifo.oldest n := by
    rw [h.kfifoDmaIn_eq, hwritten]
    rfl
  obtain ⟨hfirst, hsecond, hothers⟩ :=
    putRecsize_data next hsize fifo.oldest (show n < 256 by omega)
  have hplaces : (next.putRecsize fifo.oldest n).queue = next.queue ↔ ∀ j < next.count,
      (next.putRecsize fifo.oldest n).data (place fifo.size fifo.oldest j) =
        bytes (place fifo.size fifo.oldest j) := by
    refine contents_inj.trans ?_
    simp only [(hnext.putRecsize fifo.oldest n).slot_byte hmode, hnext.slot_byte hmode]
    simp only [KfifoRecord.mk.injEq, List.cons.injEq, true_and, and_true]
    rfl
  have hzeroth := h.place_oldest
  have hcount : 0 < next.count := h.advance_count_pos bytes
  rw [hdma, hin, hplaces]
  constructor
  · intro hsame
    have holdest := hsame 0 hcount
    rw [hzeroth, hfirst] at holdest
    refine ⟨holdest.symm, fun hpos hlt => ?_⟩
    have hone := hsame 1 ((h.one_lt_advance bytes (by omega)).mpr hpos)
    have hplace : place fifo.size fifo.oldest 1 = fifo.oldest + 1 := Nat.mod_eq_of_lt hlt
    rw [hplace, hsecond] at hone
    exact hone.symm
  · rintro ⟨holdest, hnextByte⟩ j hj
    have hlt : place fifo.size fifo.oldest j < fifo.size := Nat.mod_lt _ (Nat.zero_lt_of_lt h.start_lt)
    by_cases hplace : place fifo.size fifo.oldest j = fifo.oldest
    · rw [hplace, hfirst, ← holdest]
    · by_cases hplace' : place fifo.size fifo.oldest j = fifo.oldest + 1
      · have hne : j ≠ 0 := fun hj => hplace (hj ▸ hzeroth)
        have hmany : 1 < next.count := by omega
        have hpos : 0 < fifo.count := (h.one_lt_advance bytes (by omega)).mp hmany
        rw [hplace', hsecond]
        exact (hnextByte hpos (by omega)).symm
      · exact hothers _ hplace hplace'

/-- A device reads the record that `kfifo_out` copies, all of it if its length is at its start. -/
theorem dmaOut_iff (h : Shaped fifo) (hcount : 0 < fifo.count) (buf : Nat → Byte) :
    ((∀ m, fifo.outAccesses m = [(fifo.kfifoDmaOutPrepare.1, m)]) ∧
      (∀ record ∈ fifo.queue.head?, fifo.kfifoDmaOutPrepare.2 = record.len) ∧
        ∀ m, fifo.kfifoDmaOutFinish = (fifo.kfifoOut buf 0 m).1) ↔
      fifo.recsizeAt (fifo.start * fifo.payloadSize) = fifo.lenAt fifo.start := by
  obtain ⟨_, hqueue⟩ := h.remove hcount
  have haccess : ∀ m, fifo.outAccesses m = [(fifo.kfifoDmaOutPrepare.1, m)] := by
    intro m
    rw [outAccesses, if_neg (by omega), kfifoDmaOutPrepare, Nat.add_comm]
  have hfinish : ∀ m, fifo.kfifoDmaOutFinish = (fifo.kfifoOut buf 0 m).1 := by
    intro m
    rw [Kfifo.kfifoOut, if_neg (by omega)]
    rfl
  have hhead : fifo.queue.head? = some (fifo.slot fifo.start) := by
    rw [hqueue]
    rfl
  constructor
  · rintro ⟨_, hlen, _⟩
    exact hlen _ hhead
  · intro hlen
    refine ⟨haccess, fun record hrecord => ?_, hfinish⟩
    rw [hhead, Option.mem_some_iff] at hrecord
    subst hrecord
    exact hlen

theorem dmaCopies_iff (h : Shaped fifo) (hn : n ≤ fifo.esize) (buf : Nat → Byte) :
    DmaCopies fifo buf n ↔ fifo.DmaFits buf n := by
  have hboth : DmaCopies fifo buf n ↔ (fifo.kfifoDmaIn buf n).queue = (fifo.kfifoIn buf n).queue ∧
      (0 < fifo.count →
        fifo.recsizeAt (fifo.start * fifo.payloadSize) = fifo.lenAt fifo.start) := by
    constructor
    · intro hcopies
      exact ⟨hcopies.dmaIn, fun hcount => (h.dmaOut_iff hcount buf).mp (hcopies.dmaOut hcount)⟩
    · intro hfits
      exact ⟨hfits.1, fun hcount => (h.dmaOut_iff hcount buf).mpr (hfits.2 hcount)⟩
  rw [hboth, DmaFits]
  split
  · next hmode =>
      rw [h.dmaIn_records hmode hn]
      refine and_iff_left ?_
      intro _
      exact (if_pos hmode).symm
  · next hmode =>
      have hone := h.esize
      have hheader := h.headerSize
      have hpayload := h.payloadSize
      rw [if_neg hmode] at hheader
      have hsize : fifo.payloadSize = 1 := by omega
      rw [h.dmaIn_bytes hmode hn, lenAt, if_neg hmode, hsize, Nat.mul_one, and_assoc]

theorem step {fifo' : Kfifo} (h : Shaped fifo) (hstep : KfifoStep fifo fifo') : Shaped fifo' := by
  have hin : ∀ buf n, Shaped (fifo.kfifoIn buf n) := by
    intro buf n
    rw [h.kfifoIn_eq]
    exact h.advance _
  have hout : ∀ buf n, Shaped (fifo.kfifoOut buf 0 n).1 := by
    intro buf n
    rw [Kfifo.kfifoOut]
    split
    · exact h
    · exact (h.remove (by omega)).1
  have hskip : Shaped fifo.kfifoSkip := by
    rw [Kfifo.kfifoSkip]
    split
    · exact h
    · exact (h.remove (by omega)).1
  cases hstep with
  | call op =>
      cases op with
      | kfifoIn buf n => exact hin buf n
      | kfifoPut data => exact hin data fifo.esize
      | kfifoOut buf n => exact hout buf n
      | kfifoGet data => exact hout data fifo.esize
      | kfifoSkip => exact hskip
      | kfifoOutPeek _ _ | kfifoPeek _ | kfifoPeekLen | kfifoLen | kfifoAvail => exact h
  | dmaWrite off buf n =>
      exact ⟨h.esize, h.esize_lt, h.headerSize, h.payloadSize, h.count_le, h.start_lt, h.endPos⟩
  | dmaInFinish n =>
      rw [dmaInFinish_eq]
      exact h.advance _
  | dmaOutFinish hcount => exact (h.remove hcount).1

end Shaped

end Kfifo

/-- However a fifo came to its state, a device and the copying calls agree on it if and only if the
lengths are where they are looked up. -/
theorem kfifo_dmaCopies_iff (data : Nat → Byte) (esize size : Nat) (hesize : 1 ≤ esize)
    (hlt : esize < 65536) (hsize : 1 ≤ size) (fifo : Kfifo)
    (hrun : Relation.ReflTransGen KfifoStep (Kfifo.kfifoInit data esize size) fifo)
    (buf : Nat → Byte) (n : Nat) (hn : n ≤ fifo.esize) :
    fifo.DmaCopies buf n ↔ fifo.DmaFits buf n := by
  have hshaped : fifo.Shaped := by
    clear hn
    induction hrun with
    | refl => exact Kfifo.shaped_init data hesize hlt hsize
    | tail _ hstep ih => exact ih.step hstep
  exact hshaped.dmaCopies_iff hn buf

/-- A record that comes to an empty fifo is the only one. -/
theorem kfifo_dmaCopies_single :
    let fifo := (Kfifo.kfifoInit (fun _ => 0#8) 4 2).kfifoIn (fun _ => 7#8) 3 |>.kfifoSkip
    fifo.DmaCopies (fun _ => 9#8) 2 := by
  refine (kfifo_dmaCopies_iff (fun _ => 0#8) 4 2 (by decide) (by decide) (by decide) _
    (((Relation.ReflTransGen.refl).tail (.call (.kfifoIn (fun _ => 7#8) 3))).tail (.call .kfifoSkip))
    (fun _ => 9#8) 2 (by decide)).mpr ?_
  rw [Kfifo.DmaFits, if_pos (by decide)]
  exact Or.inl (by decide)

/-- The second record that a device brings takes the length of the first one along, and its own
slot keeps the length that was there before. -/
theorem kfifo_dmaIn_second :
    let fifo := (Kfifo.kfifoInit (fun _ => 0#8) 4 2).kfifoIn (fun _ => 7#8) 3
    Relation.ReflTransGen KfifoStep (Kfifo.kfifoInit (fun _ => 0#8) 4 2) fifo ∧
      (fifo.kfifoIn (fun _ => 9#8) 2).queue = [⟨3, [7#8, 7#8, 7#8]⟩, ⟨2, [9#8, 9#8]⟩] ∧
      (fifo.kfifoDmaIn (fun _ => 9#8) 2).queue = [⟨2, [7#8, 7#8]⟩, ⟨0, []⟩] ∧
      ¬ fifo.DmaCopies (fun _ => 9#8) 2 := by
  refine ⟨(Relation.ReflTransGen.refl).tail (.call (.kfifoIn (fun _ => 7#8) 3)), by decide,
    by decide, fun hcopies => ?_⟩
  have hqueue := hcopies.dmaIn
  revert hqueue
  decide

end Tenok
