import Tenok.Kernel.KfifoQueue
import Tenok.Kernel.SerialCalls

/-!
A serial device (`drivers/periph/uart.c`): any number of threads read it, and the receive interrupt
puts the bytes that come in into a fifo. `kfifo_out` is not guarded against the interrupt, so its
assignments are steps of their own, and `count--` is a load and a store.
-/
namespace Tenok
open Ring Queues Kernel RingBuffer

inductive UartPlace
  /-- In `mutex_lock(&uart1.rx_mtx)`. -/
  | lock
  /-- `preempt_disable` comes next. -/
  | enter
  /-- In `wait_event`, queued or woken again. -/
  | wait
  /-- `kfifo_out` comes next. -/
  | out
  /-- `kfifo_out` has copied the record. -/
  | copied
  /-- `kfifo_out` has moved `start`. -/
  | moved
  /-- `kfifo_out` has loaded `count` to decrease it. -/
  | loaded (count : Nat)
  /-- `mutex_unlock(&uart1.rx_mtx)` comes next. -/
  | unlock
  deriving DecidableEq, Repr

structure UartRead where
  buf : Nat → Byte
  size : Nat

structure UartSys where
  sys : MutexSys
  rxFifo : Kfifo
  rxWaitSize : Nat
  reads : DriverCalls UartPlace UartRead
  received : List Byte
  /-- What the reads that are over asked for and got, in the order they gave `rx_mtx` back. -/
  returned : List (Nat × List Byte)

inductive UartEvent
  | read (buf : Nat → Byte) (size : Nat)
  /-- The running thread goes on with its read. -/
  | advance
  | receive (c : Byte)
  /-- What else the threads do, the tick and the scheduler. -/
  | beside (e : MutexEvent)

namespace UartSys

def uart1RxBufSize : Nat := 100

def rxMtx : Nat := 0

def rxWaitList : WaitQueue := .driver 2

def running (s : UartSys) : Tid := s.sys.running

def Executing (s : UartSys) : Prop := s.sys.Executing

instance decidableExecuting (s : UartSys) : Decidable s.Executing :=
  inferInstanceAs (Decidable s.sys.Executing)

def goTo (s : UartSys) (x : Option (UartPlace × UartRead)) : UartSys :=
  { s with reads := Function.update s.reads s.running x }

/-- A pass of the loop of `wait_event`, up to `schedule`. -/
def waitEvent (s : UartSys) (r : UartRead) : UartSys :=
  if r.size ≤ s.rxFifo.kfifoLen then s.goTo (some (.out, r))
  else { s.goTo (some (.wait, r)) with
    sys := { s.sys with
      kernel := s.sys.kernel.prepareToWait (.wait rxWaitList) s.running .wait } }

/-- The next step of the running thread inside `uart1_read`. -/
def uart1Read (s : UartSys) : UartPlace → UartRead → Option UartSys
  | .lock, r =>
      let x := if s.sys.pc s.sys.running = .lockReturn rxMtx then .enter else .lock
      s.sys.advance.map fun sys => { s.goTo (some (x, r)) with sys }
  | .enter, r => some ({ s with rxWaitSize := r.size }.waitEvent r)
  | .wait, r => some (s.waitEvent r)
  | .out, r =>
      if s.rxFifo.count ≤ 0 then some (s.goTo (some (.unlock, r)))
      else some (s.goTo (some (.copied, { r with buf := (s.rxFifo.kfifoOut r.buf 0 r.size).2 })))
  | .copied, r =>
      some { s.goTo (some (.moved, r)) with
        rxFifo := { s.rxFifo with start := s.rxFifo.kfifoIncrease s.rxFifo.start } }
  | .moved, r => some (s.goTo (some (.loaded s.rxFifo.count, r)))
  | .loaded count, r =>
      some { s.goTo (some (.unlock, r)) with rxFifo := { s.rxFifo with count := count - 1 } }
  | .unlock, r =>
      (s.sys.step (.unlock rxMtx)).map fun sys =>
        { s.goTo none with sys, returned := s.returned ++ [(r.size, bytesAt r.buf r.size)] }

def serial1RxInterruptHandler (s : UartSys) (c : Byte) : Option UartSys :=
  let rxFifo := s.rxFifo.kfifoPut fun _ => c
  let s := { s with rxFifo, received := s.received ++ [c] }
  if s.rxWaitSize ≠ 0 ∧ s.rxWaitSize ≤ rxFifo.kfifoLen then do
    let kernel ← s.sys.kernel.wakeUp (.wait rxWaitList)
    some { s with rxWaitSize := 0, sys := { s.sys with kernel } }
  else some s

def Beside (s : UartSys) : MutexEvent → Prop :=
  MutexSys.Beside rxMtx (s.reads s.running = none) True

instance decidableBeside (s : UartSys) (e : MutexEvent) : Decidable (s.Beside e) :=
  inferInstanceAs (Decidable (MutexSys.Beside _ _ _ _))

def step (s : UartSys) : UartEvent → Option UartSys
  | .read buf size =>
      if s.reads s.running = none then
        (s.sys.step (.lock rxMtx)).map fun sys => { s.goTo (some (.lock, ⟨buf, size⟩)) with sys }
      else none
  | .advance =>
      match s.reads s.running with
      | none => none
      | some (.lock, r) => s.uart1Read .lock r
      | some (p, r) => if s.Executing then s.uart1Read p r else none
  | .receive c => s.serial1RxInterruptHandler c
  | .beside e => if s.Beside e then (s.sys.step e).map fun sys => { s with sys } else none

/-- A driver that no thread has used yet. -/
structure Started (s : UartSys) : Prop where
  sys : s.sys.Started
  protocol : (s.sys.mutexes rxMtx).protocol = .prioInherit
  queue : listEmpty s.sys.kernel.links (.inl (.wait rxWaitList)) = true
  fifo : ∃ data, s.rxFifo = Kfifo.kfifoInit data 1 uart1RxBufSize
  rxWaitSize : s.rxWaitSize = 0
  reads : ∀ t, s.reads t = none
  received : s.received = []
  returned : s.returned = []

/-- Reads ask for no more than the fifo can hold, and it does not overflow. -/
def InputOk (s : UartSys) : UartEvent → Prop
  | .read _ size => 1 ≤ size ∧ size ≤ uart1RxBufSize
  | .receive _ => s.rxFifo.count < s.rxFifo.size
  | .advance | .beside _ => True

instance decidableInputOk (s : UartSys) : (e : UartEvent) → Decidable (s.InputOk e)
  | .read _ _ => inferInstanceAs (Decidable (_ ∧ _))
  | .receive _ => inferInstanceAs (Decidable (_ < _))
  | .advance | .beside _ => inferInstanceAs (Decidable True)

def bytes (s : UartSys) : List Byte := s.returned.flatMap Prod.snd

structure ByteStream (s : UartSys) : Prop where
  isPrefix : s.bytes <+: s.received
  sizes : ∀ x ∈ s.returned, x.2.length = x.1
  woken : ∀ t r, s.reads t = some (.wait, r) → s.bytes.length + r.size ≤ s.received.length →
    s.sys.Runnable t

def isLoaded : UartPlace → Bool
  | .loaded _ => true
  | _ => false

/-- A read asks for one byte: `kfifo_out` copies as many as it is told but takes out one. And no
byte comes between the load and the store of the count, which would undo its increment. -/
def ByteOk (s : UartSys) : UartEvent → Prop
  | .read _ size => size = 1
  | .receive _ => ∀ t < threadMax, ∀ x ∈ s.reads t, isLoaded x.1 = false
  | .advance | .beside _ => True

instance decidableByteOk (s : UartSys) : (e : UartEvent) → Decidable (s.ByteOk e)
  | .read _ _ => inferInstanceAs (Decidable (_ = _))
  | .receive _ => inferInstanceAs (Decidable (∀ t < threadMax, ∀ x ∈ s.reads t, _))
  | .advance | .beside _ => inferInstanceAs (Decidable True)

def Inside (s : UartSys) (t : Tid) (p : UartPlace) (r : UartRead) : Prop :=
  s.reads t = some (p, r) ∧ p ≠ .lock

def settled (fifo : Kfifo) : UartPlace → Kfifo
  | .moved | .loaded _ => { fifo with count := fifo.count - 1 }
  | _ => fifo

def taken (r : UartRead) : UartPlace → List Byte
  | .moved | .loaded _ | .unlock => [r.buf 0]
  | _ => []

def Ready (fifo : Kfifo) (r : UartRead) : UartPlace → Prop
  | .out | .moved => 0 < fifo.count
  | .copied => ∃ l, fifo.bytes = r.buf 0 :: l
  | .loaded count => 0 < fifo.count ∧ count = fifo.count
  | _ => True

/-- The bytes `rest` that came in and were not returned yet are with the read and in the fifo. -/
structure Fits (fifo : Kfifo) (rest : List Byte) (p : UartPlace) (r : UartRead) : Prop where
  stream : (settled fifo p).Stream
  rest : rest = taken r p ++ (settled fifo p).bytes
  ready : Ready fifo r p

/-- At most one read is past `mutex_lock`; it has the bytes that are not in the fifo. -/
structure Streams (s : UartSys) (rest : List Byte) : Prop where
  received : s.received = s.bytes ++ rest
  busy : ∀ t p r, s.Inside t p r → Fits s.rxFifo rest p r
  idle : (∀ t p r, ¬ s.Inside t p r) → ∀ r, Fits s.rxFifo rest .lock r

/-- Who is on the wait list waits for as many bytes as the interrupt looks for, and who was taken
off has them. -/
structure Sound (s : UartSys) (L : SchedList → List Tid) : Prop where
  mutexes : s.sys.Sound L
  inside : ∀ t p r, s.Inside t p r → s.sys.inside rxMtx t = true
  readers : ∀ t p r, s.reads t = some (p, r) → t < threadMax ∧ r.size = 1
  listed : ∀ t ∈ L (.wait rxWaitList), ∃ r, s.reads t = some (.wait, r) ∧
    s.rxWaitSize = r.size ∧ s.rxFifo.count < r.size
  waits : ∀ t r, s.reads t = some (.wait, r) → t ∈ L (.wait rxWaitList) ∨
    r.size ≤ s.rxFifo.count ∧ RunnableIn s.sys.kernel L t
  sizes : ∀ x ∈ s.returned, x.2.length = x.1
  stream : ∃ rest, s.Streams rest

def advances (n : Nat) : List UartEvent := List.replicate n .advance

variable {s s' : UartSys} {L L' : SchedList → List Tid} {fifo : Kfifo} {rest : List Byte}
  {p p' : UartPlace} {r r' : UartRead} {t u : Tid} {e : UartEvent} {sys : MutexSys}

theorem kfifoPut_eq (hroom : fifo.count < fifo.size) (data : Nat → Byte) :
    fifo.kfifoPut data = { fifo.putRecord fifo.endPos data fifo.esize with
      count := fifo.count + 1, endPos := fifo.kfifoIncrease fifo.endPos } := by
  have hfull : ¬ fifo.kfifoIsFull = true := by
    rw [Kfifo.kfifoIsFull, decide_eq_true_iff]
    omega
  rw [Kfifo.kfifoPut, Kfifo.kfifoIn, if_neg hfull]
  rfl

theorem count_kfifoPut (hroom : fifo.count < fifo.size) (data : Nat → Byte) :
    (fifo.kfifoPut data).count = fifo.count + 1 := by
  rw [kfifoPut_eq hroom]

theorem settled_kfifoPut (hroom : fifo.count < fifo.size) (hready : Ready fifo r p)
    (hp : isLoaded p = false) (data : Nat → Byte) :
    settled (fifo.kfifoPut data) p = (settled fifo p).kfifoPut data := by
  cases p with
  | moved =>
      have hpos : 0 < fifo.count := hready
      have hcount : fifo.count + 1 - 1 = fifo.count - 1 + 1 := by omega
      have hless : fifo.count - 1 < fifo.size := by omega
      rw [settled, settled, kfifoPut_eq hroom, kfifoPut_eq hless]
      exact congrArg (fun count => { fifo.putRecord fifo.endPos data fifo.esize with
        count, endPos := fifo.kfifoIncrease fifo.endPos }) hcount
  | loaded count => cases hp
  | lock | enter | wait | out | copied | unlock => rfl

namespace Fits

theorem receive (h : Fits fifo rest p r) (hroom : fifo.count < fifo.size)
    (hp : isLoaded p = false) (c : Byte) :
    Fits (fifo.kfifoPut fun _ => c) (rest ++ [c]) p r := by
  have hsettled := settled_kfifoPut hroom h.ready hp fun _ => c
  have hroom' : (settled fifo p).count < (settled fifo p).size := by
    cases p with
    | moved | loaded _ => exact Nat.lt_of_le_of_lt (Nat.sub_le ..) hroom
    | lock | enter | wait | out | copied | unlock => exact hroom
  obtain ⟨hstream, -, hbytes⟩ := h.stream.kfifoIn hroom' fun _ => c
  have hput : (settled fifo p).kfifoPut (fun _ => c) =
      (settled fifo p).kfifoIn (fun _ => c) 1 := by rw [Kfifo.kfifoPut, h.stream.esize]
  refine ⟨?_, ?_, ?_⟩
  · rw [hsettled, hput]
    exact hstream
  · rw [hsettled, hput, hbytes, h.rest, List.append_assoc]
  · have hready := h.ready
    cases p with
    | out | moved =>
        rw [Ready, count_kfifoPut hroom]
        exact Nat.succ_pos _
    | copied =>
        obtain ⟨l, hl⟩ := hready
        refine ⟨l ++ [c], ?_⟩
        have hfifo : (fifo.kfifoPut fun _ => c).bytes = fifo.bytes ++ [c] := by
          exact (congrArg Kfifo.bytes hput).trans hbytes
        rw [hfifo, hl, List.cons_append]
    | loaded count => cases hp
    | lock | enter | wait | unlock => trivial

theorem go (h : Fits fifo rest p r) (hp : p = .enter ∨ p = .wait) (hr : r.size = 1)
    (hlen : r.size ≤ fifo.kfifoLen) : Fits fifo rest .out r := by
  have hpos : 0 < fifo.count := by
    rw [hr] at hlen
    exact hlen
  obtain rfl | rfl := hp
  · exact ⟨h.stream, h.rest, hpos⟩
  · exact ⟨h.stream, h.rest, hpos⟩

theorem copy (h : Fits fifo rest .out r) (hr : r.size = 1) :
    Fits fifo rest .copied { r with buf := (fifo.kfifoOut r.buf 0 r.size).2 } := by
  have hstream : fifo.Stream := h.stream
  obtain ⟨-, -, b, hbytes, hbuf⟩ := hstream.kfifoOut h.ready r.buf 0
  refine ⟨h.stream, h.rest, (fifo.kfifoOut r.buf 0 1).1.bytes, ?_⟩
  have hb : (fifo.kfifoOut r.buf 0 1).2 0 = b := by rw [hbuf, Function.update_self]
  rw [hr]
  exact hbytes.trans (congrArg (· :: _) hb.symm)

theorem move (h : Fits fifo rest .copied r) :
    Fits { fifo with start := fifo.kfifoIncrease fifo.start } rest .moved r := by
  have hstream : fifo.Stream := h.stream
  have hrest : rest = fifo.bytes := h.rest
  obtain ⟨l, hl⟩ := h.ready
  have hcount : 0 < fifo.count := by
    have hlen : fifo.bytes.length = fifo.count := length_contents
    rw [← hlen, hl]
    exact Nat.succ_pos _
  obtain ⟨hout, -, b, hbytes, -⟩ := hstream.kfifoOut hcount r.buf 0
  have heq : (fifo.kfifoOut r.buf 0 1).1 =
      settled { fifo with start := fifo.kfifoIncrease fifo.start } .moved := by
    rw [Kfifo.kfifoOut, if_neg (by omega)]
    rfl
  rw [heq] at hout hbytes
  refine ⟨hout, ?_, hcount⟩
  have hb : b = r.buf 0 := (List.cons.inj (hbytes.symm.trans hl)).1
  rw [hrest, hbytes, hb]
  rfl

theorem load (h : Fits fifo rest .moved r) : Fits fifo rest (.loaded fifo.count) r :=
  ⟨h.stream, h.rest, h.ready, rfl⟩

theorem store {count : Nat} (h : Fits fifo rest (.loaded count) r) :
    Fits { fifo with count := count - 1 } rest .unlock r := by
  obtain ⟨-, rfl⟩ := h.ready
  exact ⟨h.stream, h.rest, trivial⟩

theorem release (h : Fits fifo rest .unlock r) :
    ∃ l, rest = r.buf 0 :: l ∧ ∀ r', Fits fifo l .lock r' :=
  ⟨fifo.bytes, h.rest, fun _ => ⟨h.stream, rfl, trivial⟩⟩

end Fits

theorem inside_goTo {x : Option (UartPlace × UartRead)} (hreads : s'.reads =
    Function.update s.reads s.running x) (ht : t ≠ s.running) :
    s'.Inside t p r ↔ s.Inside t p r := by
  rw [Inside, Inside, hreads, Function.update_of_ne ht]

theorem Streams.keep (hst : Streams s rest) (hreceived : s'.received = s.received)
    (hreturned : s'.returned = s.returned) (hfifo : s'.rxFifo = s.rxFifo)
    (hinside : ∀ t p r, s'.Inside t p r ↔ s.Inside t p r) : Streams s' rest := by
  refine ⟨?_, fun t p r h => ?_, fun h r => ?_⟩
  · rw [hreceived, bytes, hreturned]
    exact hst.received
  · rw [hfifo]
    exact hst.busy t p r ((hinside t p r).mp h)
  · rw [hfifo]
    exact hst.idle (fun t p r h' => h t p r ((hinside t p r).mpr h')) r

namespace Sound

theorem guards (hs : Sound s L) :
    s.sys.Guards L rxMtx rxWaitList fun t => ∃ p r, s.Inside t p r := by
  refine ⟨hs.mutexes, fun t ⟨p, r, h⟩ => hs.inside t p r h, fun t ht => ?_⟩
  obtain ⟨r, hr, -⟩ := hs.listed t ht
  exact ⟨.wait, r, hr, by simp⟩

theorem alone (hs : Sound s L) (h : s.Inside t p r) (h' : s.Inside u p' r') : t = u :=
  hs.guards.alone ⟨p, r, h⟩ ⟨p', r', h'⟩

theorem streams_go (hs : Sound s L) (hst : Streams s rest) (h : s.Inside s.running p r)
    (hreads : s'.reads = Function.update s.reads s.running (some (p', r'))) (hp' : p' ≠ .lock)
    (hreceived : s'.received = s.received) (hreturned : s'.returned = s.returned)
    (hfits : Fits s.rxFifo rest p r → Fits s'.rxFifo rest p' r') : Streams s' rest := by
  have hnew : s'.Inside s.running p' r' := by
    rw [Inside, hreads, Function.update_self]
    exact ⟨rfl, hp'⟩
  refine ⟨?_, fun t p₁ r₁ h₁ => ?_, fun hnone => absurd hnew (hnone _ _ _)⟩
  · rw [hreceived, bytes, hreturned]
    exact hst.received
  · obtain ⟨-, heq⟩ | ⟨ht, hold⟩ := DriverCalls.update_cases (hreads ▸ h₁.1)
    · obtain ⟨rfl, rfl⟩ := Prod.mk.inj (Option.some.inj heq)
      exact hfits (hst.busy _ _ _ h)
    · exact absurd (hs.alone ⟨hold, h₁.2⟩ h) ht

theorem go (hs : Sound s L) (h : s.Inside s.running p r) (hex : s.Executing)
    (hp' : p' ≠ .lock ∧ p' ≠ .wait) (hr : r'.size = r.size) (rxWaitSize : Nat)
    (hfits : ∀ rest, Fits s.rxFifo rest p r → Fits fifo rest p' r') :
    Sound { s.goTo (some (p', r')) with rxFifo := fifo, rxWaitSize } L := by
  obtain ⟨rest, hst⟩ := hs.stream
  have hempty := hs.guards.queue_empty ⟨_, _, h⟩ hex
  refine ⟨hs.mutexes, fun t p₁ r₁ h₁ => ?_, fun t p₁ r₁ h₁ => ?_, fun t ht => ?_,
    fun t r₁ h₁ => ?_, hs.sizes, rest, hs.streams_go hst h rfl hp'.1 rfl rfl (hfits rest)⟩
  · obtain ⟨rfl, -⟩ | ⟨-, hold⟩ := DriverCalls.update_cases h₁.1
    · exact hs.inside _ _ _ h
    · exact hs.inside _ _ _ ⟨hold, h₁.2⟩
  · obtain ⟨rfl, heq⟩ | ⟨-, hold⟩ := DriverCalls.update_cases h₁
    · obtain ⟨hlt, hsize⟩ := hs.readers _ _ _ h.1
      obtain rfl := (Prod.mk.inj (Option.some.inj heq)).2
      exact ⟨hlt, hr.trans hsize⟩
    · exact hs.readers _ _ _ hold
  · rw [hempty] at ht
    cases ht
  · obtain ⟨-, heq⟩ | ⟨ht, hold⟩ := DriverCalls.update_cases h₁
    · exact absurd (Prod.mk.inj (Option.some.inj heq)).1 hp'.2
    · exact absurd (hs.alone ⟨hold, by simp⟩ h) ht

/-- There are too few bytes yet, and the interrupt looks for as many as the read asks for. -/
theorem queue (hs : Sound s L) (h : s.Inside s.running .enter r) (hex : s.Executing)
    (hlen : s.rxFifo.count < r.size) : ∃ L', Sound { s.goTo (some (.wait, r)) with
      rxWaitSize := r.size
      sys := { s.sys with
        kernel := s.sys.kernel.prepareToWait (.wait rxWaitList) s.running .wait } } L' := by
  obtain ⟨rest, hst⟩ := hs.stream
  have hempty := hs.guards.queue_empty ⟨_, _, h⟩ hex
  have hK := hs.mutexes.steady.waitOn (q := rxWaitList) hex rfl
  have hfits : Fits s.rxFifo rest .enter r → Fits s.rxFifo rest .wait r := fun h =>
    ⟨h.stream, h.rest, trivial⟩
  refine ⟨_, hs.mutexes.quiet hK (by simp [rxWaitList]), fun t p₁ r₁ h₁ => ?_,
    fun t p₁ r₁ h₁ => ?_, fun t ht => ?_, fun t r₁ h₁ => ?_, hs.sizes, rest,
    hs.streams_go hst h rfl (by simp) rfl rfl hfits⟩
  · obtain ⟨rfl, -⟩ | ⟨-, hold⟩ := DriverCalls.update_cases h₁.1
    · exact hs.inside _ _ _ h
    · exact hs.inside _ _ _ ⟨hold, h₁.2⟩
  · obtain ⟨rfl, heq⟩ | ⟨-, hold⟩ := DriverCalls.update_cases h₁
    · obtain rfl := (Prod.mk.inj (Option.some.inj heq)).2
      exact hs.readers _ _ _ h.1
    · exact hs.readers _ _ _ hold
  · obtain ht | ⟨rfl, -⟩ := mem_enqueue.mp ht
    · rw [hempty] at ht
      cases ht
    · exact ⟨r, Function.update_self .., rfl, hlen⟩
  · obtain ⟨ht, -⟩ | ⟨ht, hold⟩ := DriverCalls.update_cases h₁
    · exact Or.inl (mem_enqueue.mpr (Or.inr ⟨ht, rfl⟩))
    · exact absurd (hs.alone ⟨hold, by simp⟩ h) ht

theorem others {reads : Tid → Option (UartPlace × UartRead)} (hs : Sound s L) (hsys : sys.Sound L')
    (hK : Kept MutexSys.ownQueues s.sys.kernel L sys.kernel L')
    (hinside : ∀ t p r, s.Inside t p r → sys.inside rxMtx t = true)
    (hrun : ∀ t r, s.Inside t .wait r → RunnableIn s.sys.kernel L t → RunnableIn sys.kernel L' t)
    (hreads : ∀ t p r, reads t = some (p, r) →
      s.reads t = some (p, r) ∨ p = .lock ∧ t < threadMax ∧ r.size = 1)
    (hkeep : ∀ t p r, s.Inside t p r → reads t = some (p, r)) :
    Sound { s with sys, reads } L' := by
  obtain ⟨rest, hst⟩ := hs.stream
  have hlist : L' (.wait rxWaitList) = L (.wait rxWaitList) :=
    hK.queues _ (by simp [MutexSys.ownQueues, rxWaitList])
  have hiff : ∀ t p r, Inside { s with sys, reads } t p r ↔ s.Inside t p r := by
    refine fun t p r => ⟨fun h => ?_, fun h => ⟨hkeep t p r h, h.2⟩⟩
    obtain hold | ⟨hlock, -⟩ := hreads t p r h.1
    · exact ⟨hold, h.2⟩
    · exact absurd hlock h.2
  refine ⟨hsys, fun t p r h => hinside t p r ((hiff t p r).mp h), fun t p r h => ?_,
    fun t ht => ?_, fun t r h => ?_, hs.sizes, rest, hst.keep rfl rfl rfl hiff⟩
  · obtain hold | ⟨-, hnew⟩ := hreads t p r h
    · exact hs.readers t p r hold
    · exact hnew
  · rw [hlist] at ht
    obtain ⟨r, hr, hsize, hcount⟩ := hs.listed t ht
    exact ⟨r, hkeep t .wait r ⟨hr, by simp⟩, hsize, hcount⟩
  · have hin := (hiff t .wait r).mp ⟨h, by simp⟩
    rw [hlist]
    exact (hs.waits t r hin.1).imp_right fun h => h.imp_right (hrun t r hin)

theorem enter (hs : Sound s L) (hread : s.reads s.running = some (.lock, r))
    (hpc : s.sys.pc s.sys.running = .lockReturn rxMtx) (hstep : s.sys.advance = some sys) :
    ∃ L', Sound { s.goTo (some (.enter, r)) with sys } L' := by
  obtain ⟨rest, hst⟩ := hs.stream
  obtain ⟨L', hsys, hK⟩ := hs.mutexes.step (e := .advance) trivial hstep
  obtain ⟨hout, hempty⟩ := hs.guards.none_of_lockReturn hpc fun ⟨p, r₁, h⟩ =>
    h.2 (DriverCalls.unique h.1 hread).1
  have hnone : ∀ t p r, ¬ s.Inside t p r := fun t p r h => hout t ⟨p, r, h⟩
  have hlist : L' (.wait rxWaitList) = [] :=
    (hK.queues _ (by simp [MutexSys.ownQueues, rxWaitList])).trans hempty
  refine ⟨L', hsys, fun t p₁ r₁ h₁ => ?_, fun t p₁ r₁ h₁ => ?_, fun t ht => ?_,
    fun t r₁ h₁ => ?_, hs.sizes, rest, hst.received, fun t p₁ r₁ h₁ => ?_, fun h => ?_⟩
  · obtain ⟨rfl, -⟩ | ⟨-, hold⟩ := DriverCalls.update_cases h₁.1
    · exact MutexSys.inside_of_lockReturn hpc hstep
    · exact absurd ⟨hold, h₁.2⟩ (hnone _ _ _)
  · obtain ⟨rfl, heq⟩ | ⟨-, hold⟩ := DriverCalls.update_cases h₁
    · obtain rfl := (Prod.mk.inj (Option.some.inj heq)).2
      exact hs.readers _ _ _ hread
    · exact hs.readers _ _ _ hold
  · rw [hlist] at ht
    cases ht
  · obtain ⟨-, heq⟩ | ⟨-, hold⟩ := DriverCalls.update_cases h₁
    · cases heq
    · exact absurd ⟨hold, by simp⟩ (hnone t .wait r₁)
  · obtain ⟨rfl, heq⟩ | ⟨-, hold⟩ := DriverCalls.update_cases h₁.1
    · obtain ⟨rfl, rfl⟩ := Prod.mk.inj (Option.some.inj heq)
      have hfits := hst.idle hnone r
      exact ⟨hfits.stream, hfits.rest, trivial⟩
    · exact absurd ⟨hold, h₁.2⟩ (hnone _ _ _)
  · exact absurd ⟨Function.update_self .., by simp⟩ (h s.running .enter r)

theorem unlock (hs : Sound s L) (h : s.Inside s.running .unlock r) (hex : s.Executing)
    (hstep : s.sys.step (.unlock rxMtx) = some sys) :
    ∃ L', Sound { s.goTo none with
      sys, returned := s.returned ++ [(r.size, bytesAt r.buf r.size)] } L' := by
  obtain ⟨rest, hst⟩ := hs.stream
  obtain ⟨L', hsys, hK⟩ := hs.mutexes.step (e := .unlock rxMtx) trivial hstep
  obtain ⟨-, hsize⟩ := hs.readers _ _ _ h.1
  obtain ⟨l, hl, hfits⟩ := (hst.busy _ _ _ h).release
  have hlist : L' (.wait rxWaitList) = [] :=
    (hK.queues _ (by simp [MutexSys.ownQueues, rxWaitList])).trans (hs.guards.queue_empty ⟨_, _, h⟩ hex)
  have hold : ∀ t p r', (s.goTo none).reads t = some (p, r') →
      s.reads t = some (p, r') ∧ p = .lock := by
    intro t p r' h'
    obtain ⟨-, heq⟩ | ⟨ht, hold⟩ := DriverCalls.update_cases h'
    · cases heq
    · refine ⟨hold, ?_⟩
      by_contra hp
      exact ht (hs.alone ⟨hold, hp⟩ h)
  refine ⟨L', hsys, fun t p r' h' => absurd (hold t p r' h'.1).2 h'.2,
    fun t p r' h' => hs.readers t p r' (hold t p r' h').1, fun t ht => ?_,
    fun t r' h' => absurd (hold t .wait r' h').2 (by simp), fun x hx => ?_, l, ?_,
    fun t p r' h' => absurd (hold t p r' h'.1).2 h'.2, fun _ => hfits⟩
  · rw [hlist] at ht
    cases ht
  · obtain hx | hx := List.mem_append.mp hx
    · exact hs.sizes x hx
    · obtain rfl := List.mem_singleton.mp hx
      exact length_bytesAt ..
  · have hbytes : bytesAt r.buf 1 = [r.buf 0] := rfl
    refine hst.received.trans ?_
    rw [hl, hsize, hbytes]
    simp [bytes]

theorem streams_receive (hs : Sound s L) (hst : Streams s rest)
    (hroom : s.rxFifo.count < s.rxFifo.size) {c : Byte} (hok : s.ByteOk (.receive c))
    (hreads : s'.reads = s.reads) (hreturned : s'.returned = s.returned)
    (hreceived : s'.received = s.received ++ [c])
    (hfifo : s'.rxFifo = s.rxFifo.kfifoPut fun _ => c) : Streams s' (rest ++ [c]) := by
  have hinside : ∀ t p r, s'.Inside t p r ↔ s.Inside t p r := fun t p r => by
    rw [Inside, Inside, hreads]
  refine ⟨?_, fun t p r h => ?_, fun h r => ?_⟩
  · rw [hreceived, bytes, hreturned, hst.received, List.append_assoc]
    rfl
  · have hin := (hinside t p r).mp h
    have hloaded := hok t (hs.readers t p r hin.1).1 (p, r) hin.1
    rw [hfifo]
    exact (hst.busy t p r hin).receive hroom hloaded c
  · rw [hfifo]
    exact (hst.idle (fun t p r h' => h t p r ((hinside t p r).mpr h')) r).receive hroom rfl c

theorem wake {k' : Kernel} {n : Nat} (hs : Sound s L)
    (hwake : s.sys.kernel.wakeUp (.wait rxWaitList) = some k') (hwant : s.rxWaitSize ≤ n)
    (hcount : s.rxFifo.count ≤ n) : ∃ L', Kept {rxWaitList} s.sys.kernel L k' L' ∧
      L' (.wait rxWaitList) = [] ∧
      ∀ t r, s.Inside t .wait r → r.size ≤ n ∧ RunnableIn k' L' t := by
  obtain ⟨L', hK, hempty, hrun⟩ := hs.guards.wake rfl hwake
  refine ⟨L', hK, hempty, fun t r h => ?_⟩
  have hwaits := hs.waits t r h.1
  refine ⟨?_, hrun t ⟨_, _, h⟩ (hwaits.imp_right And.right)⟩
  obtain ht | ⟨hsize, -⟩ := hwaits
  · obtain ⟨r₁, hr₁, hsize, -⟩ := hs.listed t ht
    obtain rfl := (DriverCalls.unique h.1 hr₁).2
    exact hsize ▸ hwant
  · exact hsize.trans hcount

theorem receive (hs : Sound s L) (hroom : s.rxFifo.count < s.rxFifo.size) {c : Byte}
    (hok : s.ByteOk (.receive c)) (hstep : s.serial1RxInterruptHandler c = some s') :
    ∃ L', Sound s' L' := by
  obtain ⟨rest, hst⟩ := hs.stream
  have hcount := count_kfifoPut hroom fun _ => c
  simp only [serial1RxInterruptHandler] at hstep
  split at hstep
  · next hwant =>
      obtain ⟨k', hwake, rfl⟩ : ∃ k', s.sys.kernel.wakeUp (.wait rxWaitList) = some k' ∧
          _ = s' := by simpa [Option.bind_eq_some_iff] using hstep
      have hlen : s.rxWaitSize ≤ s.rxFifo.count + 1 := hwant.2.trans_eq hcount
      obtain ⟨L', hK, hempty, hwoken⟩ := hs.wake hwake hlen (Nat.le_succ _)
      refine ⟨L', hs.mutexes.quiet hK (by simp [rxWaitList]), hs.inside, hs.readers,
        fun t ht => ?_, fun t r h => Or.inr ?_, hs.sizes, _,
        hs.streams_receive hst hroom hok rfl rfl rfl rfl⟩
      · rw [hempty] at ht
        cases ht
      · obtain ⟨hsize, hrun⟩ := hwoken t r ⟨h, by simp⟩
        exact ⟨hsize.trans_eq hcount.symm, hrun⟩
  · next hwant =>
      obtain rfl := Option.some.inj hstep
      refine ⟨L, hs.mutexes, hs.inside, hs.readers, fun t ht => ?_, fun t r h => ?_, hs.sizes, _,
        hs.streams_receive hst hroom hok rfl rfl rfl rfl⟩
      · obtain ⟨r, hr, hsize, -⟩ := hs.listed t ht
        have hone := (hs.readers t .wait r hr).2
        refine ⟨r, hr, hsize, ?_⟩
        rw [Kfifo.kfifoLen, hsize, hone] at hwant
        simp only [hone]
        omega
      · refine (hs.waits t r h).imp_right fun h => ⟨?_, h.2⟩
        simp only [hcount]
        exact Nat.le_succ_of_le h.1

theorem advance (hs : Sound s L) (hstep : s.step .advance = some s') : ∃ L', Sound s' L' := by
  simp only [UartSys.step] at hstep
  split at hstep
  · cases hstep
  · next r hread =>
      obtain ⟨sys, hsys, rfl⟩ := Option.map_eq_some_iff.mp hstep
      by_cases hpc : s.sys.pc s.sys.running = .lockReturn rxMtx
      · rw [if_pos hpc]
        exact hs.enter hread hpc hsys
      · rw [if_neg hpc]
        obtain ⟨L', hs', hK⟩ := hs.mutexes.step (e := .advance) trivial hsys
        have hne : ∀ t p r₁, s.Inside t p r₁ → t ≠ s.running := by
          rintro t p r₁ h rfl
          exact h.2 (DriverCalls.unique h.1 hread).1
        refine ⟨L', hs.others hs' hK (fun t p r₁ h => ?_) (fun t r₁ h => ?_) (fun t p r₁ h => ?_)
          fun t p r₁ h => ?_⟩
        · exact MutexSys.inside_step (e := .advance) hsys (hs.inside _ _ _ h) (by simp)
        · exact hK.runnable t (hne t .wait r₁ h)
        · obtain ⟨rfl, heq⟩ | ⟨-, hold⟩ := DriverCalls.update_cases h
          · obtain ⟨rfl, rfl⟩ := Prod.mk.inj (Option.some.inj heq)
            exact Or.inr ⟨rfl, hs.readers _ _ _ hread⟩
          · exact Or.inl hold
        · exact ((inside_goTo (s := s) rfl (hne t p r₁ h)).mpr h).1
  · next p r hp hread =>
      obtain ⟨hex, hstep⟩ := (Option.ite_none_right_eq_some ..).mp hstep
      have hin : s.Inside s.running p r := ⟨hread, hp⟩
      have hsize := (hs.readers _ _ _ hread).2
      cases p with
      | lock => exact absurd rfl hin.2
      | enter =>
          obtain rfl := Option.some.inj hstep
          rw [waitEvent]
          split
          · next hlen =>
              exact ⟨L, hs.go hin hex (by simp) rfl r.size fun _ h => h.go (Or.inl rfl) hsize hlen⟩
          · next hlen => exact hs.queue hin hex (Nat.lt_of_not_le hlen)
      | wait =>
          -- the thread was taken off the list, so its bytes are there
          obtain rfl := Option.some.inj hstep
          have hnot := hs.mutexes.steady.threaded.notMem_of_running hex (.wait rxWaitList)
          have hlen : r.size ≤ s.rxFifo.kfifoLen := ((hs.waits _ _ hread).resolve_left hnot).1
          rw [waitEvent, if_pos hlen]
          exact ⟨L, hs.go hin hex (by simp) rfl _ fun _ h => h.go (Or.inr rfl) hsize hlen⟩
      | out =>
          obtain ⟨rest, hst⟩ := hs.stream
          have hpos : ¬ s.rxFifo.count ≤ 0 := Nat.not_le.mpr (hst.busy _ _ _ hin).ready
          rw [uart1Read, if_neg hpos] at hstep
          obtain rfl := Option.some.inj hstep
          refine ⟨L, hs.go hin hex ?_ ?_ _ fun _ h => h.copy hsize⟩
          · simp
          · rfl
      | copied =>
          obtain rfl := Option.some.inj hstep
          exact ⟨L, hs.go hin hex (by simp) rfl _ fun _ h => h.move⟩
      | moved =>
          obtain rfl := Option.some.inj hstep
          exact ⟨L, hs.go hin hex (by simp) rfl _ fun _ h => h.load⟩
      | loaded count =>
          obtain rfl := Option.some.inj hstep
          exact ⟨L, hs.go hin hex (by simp) rfl _ fun _ h => h.store⟩
      | unlock =>
          obtain ⟨sys, hsys, rfl⟩ := Option.map_eq_some_iff.mp hstep
          exact hs.unlock hin hex hsys

theorem read {buf : Nat → Byte} {size : Nat} (hs : Sound s L) (hok : s.ByteOk (.read buf size))
    (hstep : s.step (.read buf size) = some s') : ∃ L', Sound s' L' := by
  obtain ⟨hnone, hstep⟩ := (Option.ite_none_right_eq_some ..).mp hstep
  obtain ⟨sys, hsys, rfl⟩ := Option.map_eq_some_iff.mp hstep
  obtain ⟨L', hs', hK⟩ := hs.mutexes.step (e := .lock rxMtx) trivial hsys
  obtain ⟨⟨hex, -⟩, hcall⟩ := (Option.ite_none_right_eq_some ..).mp hsys
  obtain rfl := Option.some.inj hcall
  have hT := hs.mutexes.steady.threaded
  have hlt : s.running < threadMax := hT.lt_max _ (hT.running _ hex).2
  have hne : ∀ t p r, s.Inside t p r → t ≠ s.running := by
    rintro t p r h rfl
    cases hnone.symm.trans h.1
  refine ⟨L', hs.others hs' hK hs.inside (fun t r h => hK.runnable t (hne t .wait r h))
    (fun t p r h => ?_) fun t p r h => ((inside_goTo (s := s) rfl (hne t p r h)).mpr h).1⟩
  obtain ⟨rfl, heq⟩ | ⟨-, hold⟩ := DriverCalls.update_cases h
  · obtain ⟨rfl, rfl⟩ := Prod.mk.inj (Option.some.inj heq)
    exact Or.inr ⟨rfl, hlt, hok⟩
  · exact Or.inl hold

theorem beside {me : MutexEvent} (hs : Sound s L) (hstep : s.step (.beside me) = some s') :
    ∃ L', Sound s' L' := by
  obtain ⟨hbeside, hstep⟩ := (Option.ite_none_right_eq_some ..).mp hstep
  obtain ⟨sys, hsys, rfl⟩ := Option.map_eq_some_iff.mp hstep
  obtain ⟨L', hs', hK, hpast⟩ := hs.guards.beside hbeside (fun hnone ⟨p, r, h⟩ => by
    cases hnone.symm.trans h.1) hsys
  exact ⟨L', hs.others hs' hK (fun t p r h => (hpast t ⟨p, r, h⟩).1)
    (fun t r h => (hpast t ⟨.wait, r, h⟩).2) (fun _ _ _ h => Or.inl h) fun _ _ _ h => h.1⟩

theorem step (hs : Sound s L) (hin : s.InputOk e) (hok : s.ByteOk e)
    (hstep : s.step e = some s') : ∃ L', Sound s' L' := by
  cases e with
  | read buf size => exact hs.read hok hstep
  | advance => exact hs.advance hstep
  | receive c => exact hs.receive hin hok hstep
  | beside me => exact hs.beside hstep

theorem byteStream (hs : Sound s L) : s.ByteStream := by
  obtain ⟨rest, hst⟩ := hs.stream
  refine ⟨hst.received ▸ List.prefix_append .., hs.sizes, fun t r h hlen => ?_⟩
  have hfits := hst.busy t .wait r ⟨h, by simp⟩
  have hrest : rest.length = s.rxFifo.count :=
    (congrArg List.length hfits.rest).trans (length_contents ..)
  rw [hst.received, List.length_append, hrest] at hlen
  refine (MutexSys.runnable_iff hs.mutexes.steady t).mpr ?_
  obtain ht | ⟨-, hrun⟩ := hs.waits t r h
  · obtain ⟨r', hr', -, hcount⟩ := hs.listed t ht
    obtain rfl := (DriverCalls.unique h hr').2
    omega
  · exact hrun

end Sound

theorem Started.sound (h : Started s) : ∃ L, Sound s L := by
  obtain ⟨L, hsys⟩ := h.sys.sound
  obtain ⟨data, hfifo⟩ := h.fifo
  have hreads : ∀ {t p r}, s.reads t ≠ some (p, r) := by simp [h.reads]
  have hempty := MutexSys.Started.queue_empty hsys.steady.threaded (q := rxWaitList) rfl h.queue
  refine ⟨L, hsys, fun t p r h => absurd h.1 hreads, fun t p r h => absurd h hreads,
    fun t ht => ?_, fun t r h => absurd h hreads, by simp [h.returned], [], ?_,
    fun t p r h => absurd h.1 hreads, fun _ r => ?_⟩
  · rw [hempty] at ht
    cases ht
  · simp [bytes, h.received, h.returned]
  · rw [hfifo]
    exact ⟨Kfifo.stream_init data _, rfl, trivial⟩

/-- Threads 4 and 5 of one task, the latter running, and a new driver. -/
def userSerial : UartSys where
  sys := MutexSys.userSystem
  rxFifo := Kfifo.kfifoInit (fun _ => 0#8) 1 uart1RxBufSize
  rxWaitSize := 0
  reads _ := none
  received := []
  returned := []

theorem userSerial_started : userSerial.Started where
  sys := MutexSys.userSystem_started
  protocol := rfl
  queue := userKernel_queue (q := rxWaitList) rfl (by decide)
  fifo := ⟨_, rfl⟩
  rxWaitSize := rfl
  reads _ := rfl
  received := rfl
  returned := rfl

def readOf (size : Nat) : UartEvent := .read (fun _ => 0#8) size

/-- Thread 5 waits for a byte, and one more comes before the count is loaded. -/
def readerRun : List UartEvent :=
  readOf 1 :: advances 4 ++ [.receive 7#8, .beside .schedule] ++ advances 3 ++ [.receive 8#8] ++
    advances 3

def overlapRun : List UartEvent :=
  [.receive 1#8, .receive 2#8, .receive 3#8, readOf 2] ++ advances 9 ++ [readOf 2] ++ advances 9

/-- A byte comes between the load and the store of the count, and the next read waits for it. -/
def undoneRun : List UartEvent :=
  [.receive 1#8, readOf 1] ++ advances 7 ++ [.receive 2#8] ++ advances 2 ++ [readOf 1] ++ advances 4

theorem undoneRun_not_byteStream : Runs.AllOk InputOk step userSerial undoneRun ∧
    ∃ s, Runs.exec step userSerial undoneRun = some s ∧ ¬ s.ByteStream := by
  have hrun : (Runs.exec step userSerial undoneRun).map (fun s =>
      ((s.reads 5).map fun x => (x.1, x.2.size), s.bytes.length, s.received.length,
        decide (s.sys.Runnable 5))) = some (some (.wait, 1), 1, 2, false) := by decide +kernel
  obtain ⟨s, hs, hfacts⟩ := Option.map_eq_some_iff.mp hrun
  simp only [Prod.mk.injEq, decide_eq_false_iff_not] at hfacts
  obtain ⟨hread, hbytes, hreceived, hnot⟩ := hfacts
  obtain ⟨⟨p, r⟩, hr, heq⟩ := Option.map_eq_some_iff.mp hread
  obtain ⟨rfl, hsize⟩ := Prod.mk.inj heq
  refine ⟨by decide +kernel, s, hs, fun hstream => hnot (hstream.woken 5 r hr ?_)⟩
  simp only at hsize
  omega

end UartSys

/-- In every run whose reads ask for one byte each and whose bytes do not come in the middle of a
`count--`, what the reads return is a prefix of what came in, each returns as many bytes as it asks
for, and one that waits can run once they have come. -/
theorem serial_byteStream {s₀ s : UartSys} {es : List UartEvent} (hstart : s₀.Started)
    (hin : Runs.AllOk UartSys.InputOk UartSys.step s₀ es)
    (hok : Runs.AllOk UartSys.ByteOk UartSys.step s₀ es)
    (hrun : Runs.exec UartSys.step s₀ es = some s) : s.ByteStream := by
  obtain ⟨L, hs⟩ := Runs.exec_invariant (I := fun s => ∃ L, UartSys.Sound s L)
    (fun s e s' hs hok hstep => by
      obtain ⟨L, hs⟩ := hs
      exact hs.step hok.1 hok.2 hstep) hstart.sound (Runs.allOk_and hin hok) hrun
  exact hs.byteStream

theorem serial_byteStream_at_reader : ∃ s,
    Runs.exec UartSys.step UartSys.userSerial UartSys.readerRun = some s ∧
      s.returned = [(1, [7#8])] ∧ s.ByteStream := by
  have hrun : (Runs.exec UartSys.step UartSys.userSerial UartSys.readerRun).map
      (fun s => s.returned) = some [(1, [7#8])] := by decide +kernel
  have hin : Runs.AllOk UartSys.InputOk UartSys.step UartSys.userSerial UartSys.readerRun := by
    decide +kernel
  have hok : Runs.AllOk UartSys.ByteOk UartSys.step UartSys.userSerial UartSys.readerRun := by
    decide +kernel
  obtain ⟨s, hs, hreturned⟩ := Option.map_eq_some_iff.mp hrun
  exact ⟨s, hs, hreturned, serial_byteStream UartSys.userSerial_started hin hok hs⟩

/-- The second byte is returned by both reads. -/
theorem serial_not_byteStream : UartSys.userSerial.Started ∧
    Runs.AllOk UartSys.InputOk UartSys.step UartSys.userSerial UartSys.overlapRun ∧
    ∃ s, Runs.exec UartSys.step UartSys.userSerial UartSys.overlapRun = some s ∧
      ¬ s.ByteStream := by
  have hrun : (Runs.exec UartSys.step UartSys.userSerial UartSys.overlapRun).map (fun s =>
      (s.bytes, s.received)) = some ([1#8, 2#8, 2#8, 3#8], [1#8, 2#8, 3#8]) := by decide +kernel
  obtain ⟨s, hs, hfacts⟩ := Option.map_eq_some_iff.mp hrun
  obtain ⟨hbytes, hreceived⟩ := Prod.mk.inj hfacts
  refine ⟨UartSys.userSerial_started, by decide +kernel, s, hs, fun hstream => ?_⟩
  have hlen := hstream.isPrefix.length_le
  simp [hbytes, hreceived] at hlen

end Tenok
