import Tenok.Common.Util
import Tenok.Kernel.SerialCalls

/-!
Writing to a serial device by DMA (`uart1_dma_puts` of `drivers/periph/uart.c`). The stream moves
bytes while interrupts are off and while other threads run; its interrupt wakes the writer.
-/
namespace Tenok
open Ring Queues Kernel

/-- Stream 7 of DMA2, as `stm32f4xx_dma.c` drives it. -/
structure DmaStream where
  /-- The memory at `M0AR`. -/
  memory0 : Nat → Byte
  taken : Nat
  ndtr : Nat
  en : Bool
  tcie : Bool
  tcif : Bool

namespace DmaStream

/-- `NDTR` has 16 bits, and a stream that is enabled keeps its counter and addresses. -/
def dmaInit (d : DmaStream) (memory0 : Nat → Byte) (bufferSize : Nat) : DmaStream :=
  if d.en then d else { d with memory0, taken := 0, ndtr := bufferSize % 2 ^ 16 }

def dmaClearFlag (d : DmaStream) : DmaStream := { d with tcif := false }

def dmaItConfig (d : DmaStream) (newState : Bool) : DmaStream := { d with tcie := newState }

def dmaCmd (d : DmaStream) (newState : Bool) : DmaStream := { d with en := newState }

def dmaGetItStatus (d : DmaStream) : Bool := d.tcif && d.tcie

def dmaClearItPendingBit (d : DmaStream) : DmaStream := { d with tcif := false }

/-- The stream moves a byte to `USART1->DR`; after the last one it turns itself off. -/
def transfer (d : DmaStream) : Option (Byte × DmaStream) :=
  if d.en = true ∧ 0 < d.ndtr then
    some (d.memory0 d.taken, { d with
      taken := d.taken + 1
      ndtr := d.ndtr - 1
      en := decide (d.ndtr ≠ 1)
      tcif := d.tcif || decide (d.ndtr = 1) })
  else none

end DmaStream

/-- Where a thread is in `uart1_dma_puts`. -/
inductive DmaPlace
  /-- In `mutex_lock(&uart1.tx_mtx)`. -/
  | lock
  /-- `preempt_disable` comes next. -/
  | disable
  /-- `DMA_Init` comes next. -/
  | init
  /-- `DMA_ClearFlag` comes next. -/
  | clear
  /-- `DMA_ITConfig` comes next. -/
  | itConfig
  /-- `DMA_Cmd` comes next. -/
  | cmd
  /-- `uart1.tx_ready = false` comes next. -/
  | notReady
  /-- `wait_event` comes next. -/
  | check
  /-- In `wait_event`, queued or woken again. -/
  | wait
  /-- `preempt_enable` comes next. -/
  | enable
  /-- `mutex_unlock(&uart1.tx_mtx)` comes next. -/
  | unlock
  deriving DecidableEq, Repr

def DmaPlace.masked : DmaPlace → Bool
  | .init | .clear | .itConfig | .cmd | .notReady | .check | .enable => true
  | .lock | .disable | .wait | .unlock => false

structure UartWrite where
  buf : Nat → Byte
  size : Nat

namespace UartWrite

def counter (w : UartWrite) : Nat := w.size % 2 ^ 16

def message (w : UartWrite) : List Byte := bytesAt w.buf w.counter

end UartWrite

structure UartTxSys where
  sys : MutexSys
  txReady : Bool
  dma : DmaStream
  writes : DriverCalls DmaPlace UartWrite
  /-- The bytes that went out. -/
  wire : List Byte
  /-- The writes that are over, in the order they gave `tx_mtx` back. -/
  returned : List UartWrite

inductive UartTxEvent
  | write (buf : Nat → Byte) (size : Nat)
  /-- The running thread goes on with its write. -/
  | advance
  /-- The stream moves a byte. -/
  | transfer
  | interrupt
  /-- What else the threads do, the tick and the scheduler. -/
  | beside (e : MutexEvent)

namespace UartTxSys

def txMtx : Nat := 1

def txWaitList : WaitQueue := .driver 3

def running (s : UartTxSys) : Tid := s.sys.running

def Executing (s : UartTxSys) : Prop := s.sys.Executing

instance decidableExecuting (s : UartTxSys) : Decidable s.Executing :=
  inferInstanceAs (Decidable s.sys.Executing)

/-- Interrupts are off, and the scheduler waits. -/
def masked (s : UartTxSys) : Bool :=
  match s.writes s.running with
  | some (p, _) => p.masked && decide s.Executing
  | none => false

def goTo (s : UartTxSys) (x : Option (DmaPlace × UartWrite)) : UartTxSys :=
  { s with writes := Function.update s.writes s.running x }

/-- A pass of the loop of `wait_event`, up to `schedule`. -/
def waitEvent (s : UartTxSys) (w : UartWrite) : UartTxSys :=
  if s.txReady then s.goTo (some (.enable, w))
  else { s.goTo (some (.wait, w)) with
    sys := { s.sys with
      kernel := s.sys.kernel.prepareToWait (.wait txWaitList) s.running .wait } }

/-- The next step of the running thread inside `uart1_dma_puts`. -/
def uart1DmaPuts (s : UartTxSys) : DmaPlace → UartWrite → Option UartTxSys
  | .lock, w =>
      let x := if s.sys.pc s.sys.running = .lockReturn txMtx then .disable else .lock
      s.sys.advance.map fun sys => { s.goTo (some (x, w)) with sys }
  | .disable, w => some (s.goTo (some (.init, w)))
  | .init, w => some { s.goTo (some (.clear, w)) with dma := s.dma.dmaInit w.buf w.size }
  | .clear, w => some { s.goTo (some (.itConfig, w)) with dma := s.dma.dmaClearFlag }
  | .itConfig, w => some { s.goTo (some (.cmd, w)) with dma := s.dma.dmaItConfig true }
  | .cmd, w => some { s.goTo (some (.notReady, w)) with dma := s.dma.dmaCmd true }
  | .notReady, w => some { s.goTo (some (.check, w)) with txReady := false }
  | .check, w | .wait, w => some (s.waitEvent w)
  | .enable, w => some (s.goTo (some (.unlock, w)))
  | .unlock, w =>
      (s.sys.step (.unlock txMtx)).map fun sys =>
        { s.goTo none with sys, returned := s.returned ++ [w] }

def dma2Stream7IrqHandler (s : UartTxSys) : Option UartTxSys :=
  if s.dma.dmaGetItStatus then
    let dma := s.dma.dmaClearItPendingBit.dmaItConfig false
    (s.sys.kernel.wakeUp (.wait txWaitList)).map fun kernel =>
      { s with dma, txReady := true, sys := { s.sys with kernel } }
  else some s

def Beside (s : UartTxSys) : MutexEvent → Prop :=
  MutexSys.Beside txMtx (s.writes s.running = none) (s.masked = false)

instance decidableBeside (s : UartTxSys) (e : MutexEvent) : Decidable (s.Beside e) :=
  inferInstanceAs (Decidable (MutexSys.Beside _ _ _ _))

def step (s : UartTxSys) : UartTxEvent → Option UartTxSys
  | .write buf size =>
      if s.writes s.running = none then
        (s.sys.step (.lock txMtx)).map fun sys => { s.goTo (some (.lock, ⟨buf, size⟩)) with sys }
      else none
  | .advance =>
      match s.writes s.running with
      | none => none
      | some (.lock, w) => s.uart1DmaPuts .lock w
      | some (p, w) => if s.Executing then s.uart1DmaPuts p w else none
  | .transfer => s.dma.transfer.map fun x => { s with dma := x.2, wire := s.wire ++ [x.1] }
  | .interrupt => if s.masked then none else s.dma2Stream7IrqHandler
  | .beside e => if s.Beside e then (s.sys.step e).map fun sys => { s with sys } else none

/-- A driver that no thread has used yet, after `uart1_init`. -/
structure Started (s : UartTxSys) : Prop where
  sys : s.sys.Started
  queue : listEmpty s.sys.kernel.links (.inl (.wait txWaitList)) = true
  en : s.dma.en = false
  tcie : s.dma.tcie = false
  writes : ∀ t, s.writes t = none
  wire : s.wire = []
  returned : s.returned = []

def messages (s : UartTxSys) : List Byte := s.returned.flatMap UartWrite.message

/-- The rest of the transfer, and its interrupt. -/
def completion (n : Nat) : List UartTxEvent := List.replicate n .transfer ++ [.interrupt]

/-- Whole messages go out, one behind the other, and a write that waits comes to its end. -/
structure Transmits (s : UartTxSys) : Prop where
  wire : ∃ l, s.wire = s.messages ++ l ∧
    (l = [] ∨ ∃ t p w, s.writes t = some (p, w) ∧ l <+: w.message)
  completes : ∀ t w, s.writes t = some (.wait, w) → w.counter ≠ 0 →
    ∃ s', Runs.exec step s (completion s.dma.ndtr) = some s' ∧ s'.writes = s.writes ∧
      s'.sys.Runnable t ∧ s'.txReady = true ∧ s'.wire = s.messages ++ w.message

def Inside (s : UartTxSys) (t : Tid) (p : DmaPlace) (w : UartWrite) : Prop :=
  s.writes t = some (p, w) ∧ p ≠ .lock

def Off (d : DmaStream) : Prop := d.en = false ∧ d.tcie = false

/-- The stream was given the message, and a start of it is behind the other messages. -/
structure Told (d : DmaStream) (rest : List Byte) (w : UartWrite) : Prop where
  memory0 : d.memory0 = w.buf
  counter : d.taken + d.ndtr = w.counter
  rest : rest = bytesAt w.buf d.taken

/-- The interrupt of the stream is still to come, or the message is empty. -/
def Busy (d : DmaStream) (w : UartWrite) : Prop :=
  d.tcie = true ∧ (d.en = true ∧ d.tcif = false ∧ (d.ndtr = 0 → w.counter = 0) ∨
    d.en = false ∧ d.tcif = true ∧ d.ndtr = 0)

/-- How far the stream is with a write at a place. -/
def Fits (d : DmaStream) (txReady : Bool) (rest : List Byte) (w : UartWrite) : DmaPlace → Prop
  | .lock | .disable | .init => Off d ∧ rest = []
  | .clear => Off d ∧ Told d rest w ∧ d.taken = 0
  | .itConfig => (Off d ∧ d.tcif = false) ∧ Told d rest w ∧ d.taken = 0
  | .cmd => (d.en = false ∧ d.tcie = true ∧ d.tcif = false) ∧ Told d rest w ∧ d.taken = 0
  | .notReady => Busy d w ∧ Told d rest w
  | .check | .wait =>
      (txReady = false ∧ Busy d w ∨ txReady = true ∧ Off d ∧ d.ndtr = 0) ∧ Told d rest w
  | .enable | .unlock => (Off d ∧ d.ndtr = 0) ∧ Told d rest w

/-- At most one write is past `mutex_lock`; the stream works for it alone. -/
structure Streams (s : UartTxSys) (rest : List Byte) : Prop where
  wire : s.wire = s.messages ++ rest
  busy : ∀ t p w, s.Inside t p w → Fits s.dma s.txReady rest w p
  idle : (∀ t p w, ¬ s.Inside t p w) → Off s.dma ∧ rest = []

/-- Who has interrupts off runs; who is on the wait list waits for the interrupt, and who was taken
off has had it. -/
structure Sound (s : UartTxSys) (L : SchedList → List Tid) : Prop where
  mutexes : s.sys.Sound L
  inside : ∀ t p w, s.Inside t p w → s.sys.inside txMtx t = true
  masks : ∀ t p w, s.writes t = some (p, w) → p.masked = true → t = s.running ∧ s.Executing
  listed : ∀ t ∈ L (.wait txWaitList), s.txReady = false ∧ ∃ w, s.writes t = some (.wait, w)
  waits : ∀ t w, s.writes t = some (.wait, w) → t ∈ L (.wait txWaitList) ∨
    s.txReady = true ∧ RunnableIn s.sys.kernel L t
  stream : ∃ rest, s.Streams rest

variable {s s' : UartTxSys} {L L' : SchedList → List Tid} {d d' : DmaStream} {rest : List Byte}
  {p p' : DmaPlace} {w w' : UartWrite} {t u : Tid} {e : UartTxEvent} {sys : MutexSys}
  {ready : Bool}

theorem Told.transfer {b : Byte} (h : Told d rest w) (hstep : d.transfer = some (b, d')) :
    Told d' (rest ++ [b]) w := by
  obtain ⟨⟨-, hpos⟩, heq⟩ := (Option.ite_none_right_eq_some ..).mp hstep
  obtain ⟨rfl, rfl⟩ := Prod.mk.inj (Option.some.inj heq)
  refine ⟨h.memory0, ?_, ?_⟩
  · have hcounter := h.counter
    simp only
    omega
  · rw [h.rest, h.memory0, bytesAt_succ]

theorem Told.whole (h : Told d rest w) (hndtr : d.ndtr = 0) : rest = w.message := by
  have hcounter := h.counter
  rw [hndtr, Nat.add_zero] at hcounter
  rw [h.rest, hcounter, UartWrite.message]

theorem Told.start (h : Told d rest w) : rest <+: w.message := by
  rw [h.rest, UartWrite.message, ← h.counter, bytesAt_add]
  exact List.prefix_append ..

theorem Busy.transfer {b : Byte} (h : Busy d w) (hstep : d.transfer = some (b, d')) :
    Busy d' w := by
  obtain ⟨⟨hen, hpos⟩, heq⟩ := (Option.ite_none_right_eq_some ..).mp hstep
  obtain ⟨-, rfl⟩ := Prod.mk.inj (Option.some.inj heq)
  obtain ⟨htcie, ⟨-, htcif, -⟩ | ⟨hoff, -⟩⟩ := h
  · refine ⟨htcie, ?_⟩
    by_cases hlast : d.ndtr = 1
    · exact Or.inr ⟨by simp [hlast], by simp [hlast], by simp [hlast]⟩
    · exact Or.inl ⟨by simp [hlast], by simp [hlast, htcif], fun h => by simp only at h; omega⟩
  · cases hen.symm.trans hoff

theorem transfer_off (h : d.en = false) : d.transfer = none := by
  rw [DmaStream.transfer, if_neg (by simp [h])]

namespace Fits

theorem init (h : Fits d ready rest w .init) : Fits (d.dmaInit w.buf w.size) ready rest w .clear := by
  obtain ⟨⟨hen, htcie⟩, rfl⟩ := h
  rw [DmaStream.dmaInit, if_neg (by simp [hen])]
  exact ⟨⟨hen, htcie⟩, ⟨rfl, Nat.zero_add _, rfl⟩, rfl⟩

theorem clear (h : Fits d ready rest w .clear) : Fits d.dmaClearFlag ready rest w .itConfig :=
  ⟨⟨h.1, rfl⟩, ⟨h.2.1.memory0, h.2.1.counter, h.2.1.rest⟩, h.2.2⟩

theorem itConfig (h : Fits d ready rest w .itConfig) :
    Fits (d.dmaItConfig true) ready rest w .cmd :=
  ⟨⟨h.1.1.1, rfl, h.1.2⟩, ⟨h.2.1.memory0, h.2.1.counter, h.2.1.rest⟩, h.2.2⟩

theorem cmd (h : Fits d ready rest w .cmd) : Fits (d.dmaCmd true) ready rest w .notReady := by
  obtain ⟨⟨-, htcie, htcif⟩, htold, htaken⟩ := h
  refine ⟨⟨htcie, Or.inl ⟨rfl, htcif, fun hndtr => ?_⟩⟩, htold.memory0, htold.counter, htold.rest⟩
  have hcounter := htold.counter
  have hzero : d.ndtr = 0 := hndtr
  omega

theorem notReady (h : Fits d ready rest w .notReady) : Fits d false rest w .check :=
  ⟨Or.inl ⟨rfl, h.1⟩, h.2⟩

theorem finish (h : Fits d true rest w .wait) : Fits d true rest w .enable :=
  ⟨(h.1.resolve_left fun h => Bool.noConfusion h.1).2, h.2⟩

theorem transfer {b : Byte} (h : Fits d ready rest w p) (hstep : d.transfer = some (b, d')) :
    Fits d' ready (rest ++ [b]) w p := by
  have hoff : ¬ d.en = false := fun hen => by cases (transfer_off hen).symm.trans hstep
  cases p with
  | lock | disable | init | clear => exact absurd h.1.1 hoff
  | itConfig => exact absurd h.1.1.1 hoff
  | cmd => exact absurd h.1.1 hoff
  | notReady => exact ⟨h.1.transfer hstep, h.2.transfer hstep⟩
  | check | wait =>
      obtain ⟨⟨hready, hbusy⟩ | ⟨-, hdone, -⟩, htold⟩ := h
      · exact ⟨Or.inl ⟨hready, hbusy.transfer hstep⟩, htold.transfer hstep⟩
      · exact absurd hdone.1 hoff
  | enable | unlock => exact absurd h.1.1.1 hoff

theorem interrupt_cases (h : Fits d ready rest w p) (hirq : d.dmaGetItStatus = true) :
    p = .notReady ∨ p = .check ∨ p = .wait := by
  obtain ⟨htcif, htcie⟩ := Bool.and_eq_true_iff.mp hirq
  have hoff : ¬ Off d := fun h => by cases htcie.symm.trans h.2
  cases p with
  | lock | disable | init | clear => exact absurd h.1 hoff
  | itConfig => exact absurd h.1.1 hoff
  | cmd => cases htcif.symm.trans h.1.2.2
  | notReady => exact Or.inl rfl
  | check => exact Or.inr (Or.inl rfl)
  | wait => exact Or.inr (Or.inr rfl)
  | enable | unlock => exact absurd h.1.1 hoff

theorem interrupt (h : Fits d ready rest w .wait) (hirq : d.dmaGetItStatus = true) :
    Fits (d.dmaClearItPendingBit.dmaItConfig false) true rest w .wait := by
  obtain ⟨htcif, htcie⟩ := Bool.and_eq_true_iff.mp hirq
  obtain ⟨⟨-, -, ⟨-, hclear, -⟩ | ⟨hen, -, hndtr⟩⟩ | ⟨-, hoff, -⟩, htold⟩ := h
  · cases htcif.symm.trans hclear
  · exact ⟨Or.inr ⟨rfl, ⟨hen, rfl⟩, hndtr⟩, htold.memory0, htold.counter, htold.rest⟩
  · cases htcie.symm.trans hoff.2

theorem handled (h : Fits d ready rest w .wait) (hcounter : w.counter ≠ 0) (hndtr : d.ndtr = 0)
    (hirq : d.dmaGetItStatus = false) : ready = true := by
  obtain ⟨⟨-, htcie, ⟨-, -, hempty⟩ | ⟨-, htcif, -⟩⟩ | ⟨hready, -⟩, -⟩ := h
  · exact absurd (hempty hndtr) hcounter
  · rw [DmaStream.dmaGetItStatus, htcif, htcie] at hirq
    cases hirq
  · exact hready

theorem start (h : Fits d ready rest w p) : rest <+: w.message := by
  cases p with
  | lock | disable | init => exact h.2 ▸ List.nil_prefix
  | clear | itConfig | cmd => exact h.2.1.start
  | notReady | check | wait | enable | unlock => exact h.2.start

theorem exists_transfer (h : Fits d ready rest w .wait) (hndtr : d.ndtr ≠ 0) :
    ∃ b d', d.transfer = some (b, d') ∧ d'.ndtr = d.ndtr - 1 := by
  have hen : d.en = true := by
    obtain ⟨⟨-, -, ⟨hen, -⟩ | ⟨-, -, hzero⟩⟩ | ⟨-, -, hzero⟩, -⟩ := h
    · exact hen
    · exact absurd hzero hndtr
    · exact absurd hzero hndtr
  exact ⟨_, _, if_pos ⟨hen, Nat.pos_of_ne_zero hndtr⟩, rfl⟩

end Fits

theorem inside_goTo {x : Option (DmaPlace × UartWrite)} (hwrites : s'.writes =
    Function.update s.writes s.running x) (ht : t ≠ s.running) :
    s'.Inside t p w ↔ s.Inside t p w := by
  rw [Inside, Inside, hwrites, Function.update_of_ne ht]

theorem Streams.keep (hst : Streams s rest) (hwire : s'.wire = s.wire)
    (hreturned : s'.returned = s.returned) (hdma : s'.dma = s.dma) (hready : s'.txReady = s.txReady)
    (hinside : ∀ t p w, s'.Inside t p w ↔ s.Inside t p w) : Streams s' rest := by
  refine ⟨?_, fun t p w h => ?_, fun h => ?_⟩
  · rw [hwire, messages, hreturned]
    exact hst.wire
  · rw [hdma, hready]
    exact hst.busy t p w ((hinside t p w).mp h)
  · rw [hdma]
    exact hst.idle fun t p w h' => h t p w ((hinside t p w).mpr h')

theorem masked_iff : s.masked = true ↔
    ∃ p w, s.writes s.running = some (p, w) ∧ p.masked = true ∧ s.Executing := by
  rw [masked]
  cases s.writes s.running with
  | none => simp
  | some x =>
      obtain ⟨p, w⟩ := x
      simp

namespace Sound

theorem guards (hs : Sound s L) :
    s.sys.Guards L txMtx txWaitList fun t => ∃ p w, s.Inside t p w := by
  refine ⟨hs.mutexes, fun t ⟨p, w, h⟩ => hs.inside t p w h, fun t ht => ?_⟩
  obtain ⟨-, w, hw⟩ := hs.listed t ht
  exact ⟨.wait, w, hw, by simp⟩

theorem alone (hs : Sound s L) (h : s.Inside t p w) (h' : s.Inside u p' w') : t = u :=
  hs.guards.alone ⟨p, w, h⟩ ⟨p', w', h'⟩

theorem place_of_unmasked (hs : Sound s L) (hmask : s.masked = false)
    (h : s.writes t = some (p, w)) : p.masked = false := by
  refine Bool.eq_false_iff.mpr fun hp => ?_
  obtain ⟨rfl, hex⟩ := hs.masks t p w h hp
  exact Bool.eq_false_iff.mp hmask (masked_iff.mpr ⟨p, w, h, hp, hex⟩)

theorem streams_go (hs : Sound s L) (hst : Streams s rest) (h : s.Inside s.running p w)
    (hwrites : s'.writes = Function.update s.writes s.running (some (p', w))) (hp' : p' ≠ .lock)
    (hwire : s'.wire = s.wire) (hreturned : s'.returned = s.returned)
    (hfits : Fits s.dma s.txReady rest w p → Fits s'.dma s'.txReady rest w p') :
    Streams s' rest := by
  have hnew : s'.Inside s.running p' w := by
    rw [Inside, hwrites, Function.update_self]
    exact ⟨rfl, hp'⟩
  refine ⟨?_, fun t p₁ w₁ h₁ => ?_, fun hnone => absurd hnew (hnone _ _ _)⟩
  · rw [hwire, messages, hreturned]
    exact hst.wire
  · obtain ⟨-, heq⟩ | ⟨ht, hold⟩ := DriverCalls.update_cases (hwrites ▸ h₁.1)
    · obtain ⟨rfl, rfl⟩ := Prod.mk.inj (Option.some.inj heq)
      exact hfits (hst.busy _ _ _ h)
    · exact absurd (hs.alone ⟨hold, h₁.2⟩ h) ht

theorem go (hs : Sound s L) (h : s.Inside s.running p w) (hex : s.Executing)
    (hp' : p' ≠ .lock ∧ p' ≠ .wait)
    (hfits : ∀ rest, Fits s.dma s.txReady rest w p → Fits d ready rest w p') :
    Sound { s.goTo (some (p', w)) with dma := d, txReady := ready } L := by
  obtain ⟨rest, hst⟩ := hs.stream
  have hempty := hs.guards.queue_empty ⟨_, _, h⟩ hex
  refine ⟨hs.mutexes, fun t p₁ w₁ h₁ => ?_, fun t p₁ w₁ h₁ hmask => ?_, fun t ht => ?_,
    fun t w₁ h₁ => ?_, rest, hs.streams_go hst h rfl hp'.1 rfl rfl (hfits rest)⟩
  · obtain ⟨rfl, -⟩ | ⟨-, hold⟩ := DriverCalls.update_cases h₁.1
    · exact hs.inside _ _ _ h
    · exact hs.inside _ _ _ ⟨hold, h₁.2⟩
  · obtain ⟨ht, -⟩ | ⟨-, hold⟩ := DriverCalls.update_cases h₁
    · exact ⟨ht, hex⟩
    · exact hs.masks t p₁ w₁ hold hmask
  · rw [hempty] at ht
    cases ht
  · obtain ⟨-, heq⟩ | ⟨ht, hold⟩ := DriverCalls.update_cases h₁
    · exact absurd (Prod.mk.inj (Option.some.inj heq)).1 hp'.2
    · exact absurd (hs.alone ⟨hold, by simp⟩ h) ht

theorem queue (hs : Sound s L) (h : s.Inside s.running .check w) (hex : s.Executing)
    (hready : s.txReady = false) : ∃ L', Sound { s.goTo (some (.wait, w)) with
      sys := { s.sys with
        kernel := s.sys.kernel.prepareToWait (.wait txWaitList) s.running .wait } } L' := by
  obtain ⟨rest, hst⟩ := hs.stream
  have hempty := hs.guards.queue_empty ⟨_, _, h⟩ hex
  have hK := hs.mutexes.steady.waitOn (q := txWaitList) hex rfl
  refine ⟨_, hs.mutexes.quiet hK (by simp [txWaitList]), fun t p₁ w₁ h₁ => ?_,
    fun t p₁ w₁ h₁ hmask => ?_, fun t ht => ?_, fun t w₁ h₁ => ?_, rest,
    hs.streams_go hst h rfl (by simp) rfl rfl fun h => h⟩
  · obtain ⟨rfl, -⟩ | ⟨-, hold⟩ := DriverCalls.update_cases h₁.1
    · exact hs.inside _ _ _ h
    · exact hs.inside _ _ _ ⟨hold, h₁.2⟩
  · obtain ⟨-, heq⟩ | ⟨ht, hold⟩ := DriverCalls.update_cases h₁
    · obtain rfl := (Prod.mk.inj (Option.some.inj heq)).1
      cases hmask
    · exact absurd (hs.masks t p₁ w₁ hold hmask).1 ht
  · obtain ht | ⟨rfl, -⟩ := mem_enqueue.mp ht
    · rw [hempty] at ht
      cases ht
    · exact ⟨hready, w, Function.update_self ..⟩
  · obtain ⟨ht, -⟩ | ⟨ht, hold⟩ := DriverCalls.update_cases h₁
    · exact Or.inl (mem_enqueue.mpr (Or.inr ⟨ht, rfl⟩))
    · exact absurd (hs.alone ⟨hold, by simp⟩ h) ht

theorem others {writes : Tid → Option (DmaPlace × UartWrite)} (hs : Sound s L)
    (hmask : s.masked = false) (hsys : sys.Sound L')
    (hK : Kept MutexSys.ownQueues s.sys.kernel L sys.kernel L')
    (hinside : ∀ t p w, s.Inside t p w → sys.inside txMtx t = true)
    (hrun : ∀ t w, s.Inside t .wait w → RunnableIn s.sys.kernel L t → RunnableIn sys.kernel L' t)
    (hwrites : ∀ t p w, writes t = some (p, w) → s.writes t = some (p, w) ∨ p = .lock)
    (hkeep : ∀ t p w, s.Inside t p w → writes t = some (p, w)) :
    Sound { s with sys, writes } L' := by
  obtain ⟨rest, hst⟩ := hs.stream
  have hlist : L' (.wait txWaitList) = L (.wait txWaitList) :=
    hK.queues _ (by simp [MutexSys.ownQueues, txWaitList])
  have hiff : ∀ t p w, Inside { s with sys, writes } t p w ↔ s.Inside t p w := by
    refine fun t p w => ⟨fun h => ?_, fun h => ⟨hkeep t p w h, h.2⟩⟩
    exact ⟨(hwrites t p w h.1).resolve_right h.2, h.2⟩
  refine ⟨hsys, fun t p w h => hinside t p w ((hiff t p w).mp h), fun t p w h hp => ?_,
    fun t ht => ?_, fun t w h => ?_, rest, hst.keep rfl rfl rfl rfl hiff⟩
  · obtain hold | rfl := hwrites t p w h
    · cases (hs.place_of_unmasked hmask hold).symm.trans hp
    · cases hp
  · rw [hlist] at ht
    obtain ⟨hready, w, hw⟩ := hs.listed t ht
    exact ⟨hready, w, hkeep t .wait w ⟨hw, by simp⟩⟩
  · have hin := (hiff t .wait w).mp ⟨h, by simp⟩
    rw [hlist]
    exact (hs.waits t w hin.1).imp_right fun h => h.imp_right (hrun t w hin)

theorem enter (hs : Sound s L) (hwrite : s.writes s.running = some (.lock, w))
    (hpc : s.sys.pc s.sys.running = .lockReturn txMtx) (hstep : s.sys.advance = some sys) :
    ∃ L', Sound { s.goTo (some (.disable, w)) with sys } L' := by
  obtain ⟨rest, hst⟩ := hs.stream
  obtain ⟨L', hsys, hK⟩ := hs.mutexes.step (e := .advance) trivial hstep
  obtain ⟨hout, hempty⟩ := hs.guards.none_of_lockReturn hpc fun ⟨p, w₁, h⟩ =>
    h.2 (DriverCalls.unique h.1 hwrite).1
  have hnone : ∀ t p w, ¬ s.Inside t p w := fun t p w h => hout t ⟨p, w, h⟩
  have hlist : L' (.wait txWaitList) = [] :=
    (hK.queues _ (by simp [MutexSys.ownQueues, txWaitList])).trans hempty
  have hplace : ∀ t p w₁, (s.goTo (some (.disable, w))).writes t = some (p, w₁) →
      t = s.running ∧ p = .disable ∨ p = .lock := by
    intro t p w₁ h
    obtain ⟨rfl, heq⟩ | ⟨-, hold⟩ := DriverCalls.update_cases h
    · exact Or.inl ⟨rfl, (Prod.mk.inj (Option.some.inj heq)).1.symm⟩
    · exact Or.inr (not_not.mp fun hp => hnone t p w₁ ⟨hold, hp⟩)
  refine ⟨L', hsys, fun t p w₁ h => ?_, fun t p w₁ h hmask => ?_, fun t ht => ?_, fun t w₁ h => ?_,
    rest, hst.wire, fun t p w₁ h => ?_, fun h => ?_⟩
  · obtain ⟨rfl, -⟩ := (hplace t p w₁ h.1).resolve_right h.2
    exact MutexSys.inside_of_lockReturn hpc hstep
  · obtain ⟨-, rfl⟩ | rfl := hplace t p w₁ h
    · cases hmask
    · cases hmask
  · rw [hlist] at ht
    cases ht
  · obtain ⟨-, heq⟩ | heq := hplace t .wait w₁ h
    · cases heq
    · cases heq
  · obtain ⟨-, rfl⟩ := (hplace t p w₁ h.1).resolve_right h.2
    exact hst.idle hnone
  · exact absurd ⟨Function.update_self .., by simp⟩ (h s.running .disable w)

theorem unlock (hs : Sound s L) (h : s.Inside s.running .unlock w) (hex : s.Executing)
    (hstep : s.sys.step (.unlock txMtx) = some sys) :
    ∃ L', Sound { s.goTo none with sys, returned := s.returned ++ [w] } L' := by
  obtain ⟨rest, hst⟩ := hs.stream
  obtain ⟨L', hsys, hK⟩ := hs.mutexes.step (e := .unlock txMtx) trivial hstep
  obtain ⟨⟨hoff, hndtr⟩, htold⟩ := hst.busy _ _ _ h
  have hlist : L' (.wait txWaitList) = [] :=
    (hK.queues _ (by simp [MutexSys.ownQueues, txWaitList])).trans (hs.guards.queue_empty ⟨_, _, h⟩ hex)
  have hold : ∀ t p w', (s.goTo none).writes t = some (p, w') →
      s.writes t = some (p, w') ∧ p = .lock := by
    intro t p w' h'
    obtain ⟨-, heq⟩ | ⟨ht, hold⟩ := DriverCalls.update_cases h'
    · cases heq
    · refine ⟨hold, ?_⟩
      by_contra hp
      exact ht (hs.alone ⟨hold, hp⟩ h)
  refine ⟨L', hsys, fun t p w' h' => absurd (hold t p w' h'.1).2 h'.2, fun t p w' h' hmask => ?_,
    fun t ht => ?_, fun t w' h' => absurd (hold t .wait w' h').2 (by simp), [], ?_,
    fun t p w' h' => absurd (hold t p w' h'.1).2 h'.2, fun _ => ⟨hoff, rfl⟩⟩
  · obtain ⟨-, rfl⟩ := hold t p w' h'
    cases hmask
  · rw [hlist] at ht
    cases ht
  · refine hst.wire.trans ?_
    rw [htold.whole hndtr]
    simp [messages]

theorem transfer (hs : Sound s L) (hstep : s.step .transfer = some s') : Sound s' L := by
  obtain ⟨rest, hst⟩ := hs.stream
  obtain ⟨⟨b, d⟩, htransfer, rfl⟩ := Option.map_eq_some_iff.mp hstep
  refine ⟨hs.mutexes, hs.inside, hs.masks, hs.listed, hs.waits, rest ++ [b], ?_,
    fun t p w h => (hst.busy t p w h).transfer htransfer, fun h => ?_⟩
  · exact (congrArg (· ++ [b]) hst.wire).trans (List.append_assoc ..)
  · cases (transfer_off (hst.idle h).1.1).symm.trans htransfer

theorem waiting_of_interrupt (hs : Sound s L) (hmask : s.masked = false)
    (hirq : s.dma.dmaGetItStatus = true) : ∃ t w, s.Inside t .wait w := by
  obtain ⟨rest, hst⟩ := hs.stream
  have htcie : s.dma.tcie = true := (Bool.and_eq_true_iff.mp hirq).2
  by_contra hnone
  have hidle : ∀ t p w, ¬ s.Inside t p w := by
    intro t p w h
    obtain rfl | rfl | rfl := (hst.busy t p w h).interrupt_cases hirq
    · cases hs.place_of_unmasked hmask h.1
    · cases hs.place_of_unmasked hmask h.1
    · exact hnone ⟨t, w, h⟩
  cases (hst.idle hidle).1.2.symm.trans htcie

theorem wake (hs : Sound s L) (hin : s.Inside t .wait w) : ∃ k' L',
    s.sys.kernel.wakeUp (.wait txWaitList) = some k' ∧ Kept {txWaitList} s.sys.kernel L k' L' ∧
      L' (.wait txWaitList) = [] ∧ RunnableIn k' L' t := by
  have hT := hs.mutexes.steady.threaded
  have hqueue : (SchedList.wait txWaitList).owner = none := rfl
  obtain ⟨k', hwake⟩ : ∃ k', s.sys.kernel.wakeUp (.wait txWaitList) = some k' := by
    obtain ⟨-, heq⟩ | ⟨_, _, _, -, -, -, -, heq⟩ :=
      hT.wakeUp (h := .wait txWaitList) (by simp [inUse, hqueue])
    · exact ⟨_, heq⟩
    · exact ⟨_, heq⟩
  obtain ⟨L', hK, hempty, hrun⟩ := hs.guards.wake hqueue hwake
  exact ⟨k', L', hwake, hK, hempty,
    hrun t ⟨_, _, hin⟩ ((hs.waits t w hin.1).imp_right And.right)⟩

theorem irq (hs : Sound s L) (hmask : s.masked = false)
    (hstep : s.dma2Stream7IrqHandler = some s') : ∃ L', Sound s' L' := by
  rw [dma2Stream7IrqHandler] at hstep
  split at hstep
  · next hirq =>
      obtain ⟨rest, hst⟩ := hs.stream
      obtain ⟨t, w, hin⟩ := hs.waiting_of_interrupt hmask hirq
      obtain ⟨k', L', hwake, hK, hempty, hrun⟩ := hs.wake hin
      rw [hwake] at hstep
      obtain rfl := Option.some.inj hstep
      have hplace : ∀ u p w', s.Inside u p w' → u = t ∧ p = .wait ∧ w' = w := by
        intro u p w' h
        obtain rfl := hs.alone h hin
        exact ⟨rfl, DriverCalls.unique h.1 hin.1⟩
      refine ⟨L', hs.mutexes.quiet hK (by simp [txWaitList]), hs.inside, fun u p w' h hp => ?_,
        fun u hu => ?_, fun u w' h => Or.inr ⟨rfl, ?_⟩, rest, hst.wire, fun u p w' h => ?_,
        fun h => absurd hin (h t .wait w)⟩
      · cases (hs.place_of_unmasked hmask h).symm.trans hp
      · rw [hempty] at hu
        cases hu
      · obtain ⟨rfl, -⟩ := hplace u .wait w' ⟨h, by simp⟩
        exact hrun
      · obtain ⟨rfl, rfl, rfl⟩ := hplace u p w' h
        exact (hst.busy _ _ _ hin).interrupt hirq
  · obtain rfl := Option.some.inj hstep
    exact ⟨L, hs⟩

theorem advance (hs : Sound s L) (hstep : s.step .advance = some s') : ∃ L', Sound s' L' := by
  simp only [UartTxSys.step] at hstep
  split at hstep
  · cases hstep
  · next w hwrite =>
      obtain ⟨sys, hsys, rfl⟩ := Option.map_eq_some_iff.mp hstep
      by_cases hpc : s.sys.pc s.sys.running = .lockReturn txMtx
      · rw [if_pos hpc]
        exact hs.enter hwrite hpc hsys
      · rw [if_neg hpc]
        obtain ⟨L', hs', hK⟩ := hs.mutexes.step (e := .advance) trivial hsys
        have hmask : s.masked = false := by
          rw [masked, hwrite]
          rfl
        have hne : ∀ t p w₁, s.Inside t p w₁ → t ≠ s.running := by
          rintro t p w₁ h rfl
          exact h.2 (DriverCalls.unique h.1 hwrite).1
        refine ⟨L', hs.others hmask hs' hK (fun t p w₁ h => ?_) (fun t w₁ h => ?_)
          (fun t p w₁ h => ?_) fun t p w₁ h => ?_⟩
        · exact MutexSys.inside_step (e := .advance) hsys (hs.inside _ _ _ h) (by simp)
        · exact hK.runnable t (hne t .wait w₁ h)
        · obtain ⟨-, heq⟩ | ⟨-, hold⟩ := DriverCalls.update_cases h
          · exact Or.inr (Prod.mk.inj (Option.some.inj heq)).1.symm
          · exact Or.inl hold
        · exact ((inside_goTo (s := s) rfl (hne t p w₁ h)).mpr h).1
  · next p w hp hwrite =>
      obtain ⟨hex, hstep⟩ := (Option.ite_none_right_eq_some ..).mp hstep
      have hin : s.Inside s.running p w := ⟨hwrite, hp⟩
      cases p with
      | lock => exact absurd rfl hin.2
      | disable =>
          obtain rfl := Option.some.inj hstep
          exact ⟨L, hs.go hin hex (by simp) fun _ h => h⟩
      | init =>
          obtain rfl := Option.some.inj hstep
          exact ⟨L, hs.go hin hex (by simp) fun _ h => h.init⟩
      | clear =>
          obtain rfl := Option.some.inj hstep
          exact ⟨L, hs.go hin hex (by simp) fun _ h => h.clear⟩
      | itConfig =>
          obtain rfl := Option.some.inj hstep
          exact ⟨L, hs.go hin hex (by simp) fun _ h => h.itConfig⟩
      | cmd =>
          obtain rfl := Option.some.inj hstep
          exact ⟨L, hs.go hin hex (by simp) fun _ h => h.cmd⟩
      | notReady =>
          obtain rfl := Option.some.inj hstep
          exact ⟨L, hs.go hin hex (by simp) fun _ h => h.notReady⟩
      | check =>
          obtain rfl := Option.some.inj hstep
          by_cases hready : s.txReady = true
          · rw [waitEvent, if_pos hready]
            exact ⟨L, hs.go hin hex (by simp) fun _ h => (hready ▸ h : Fits _ true _ _ .wait).finish⟩
          · rw [waitEvent, if_neg hready]
            exact hs.queue hin hex (Bool.eq_false_iff.mpr hready)
      | wait =>
          -- the thread was taken off the list, so the interrupt has come
          obtain rfl := Option.some.inj hstep
          have hnot := hs.mutexes.steady.threaded.notMem_of_running hex (.wait txWaitList)
          have hready : s.txReady = true := ((hs.waits _ _ hwrite).resolve_left hnot).1
          rw [waitEvent, if_pos hready]
          exact ⟨L, hs.go hin hex (by simp) fun _ h => (hready ▸ h : Fits _ true _ _ .wait).finish⟩
      | enable =>
          obtain rfl := Option.some.inj hstep
          exact ⟨L, hs.go hin hex (by simp) fun _ h => h⟩
      | unlock =>
          obtain ⟨sys, hsys, rfl⟩ := Option.map_eq_some_iff.mp hstep
          exact hs.unlock hin hex hsys

theorem write {buf : Nat → Byte} {size : Nat} (hs : Sound s L)
    (hstep : s.step (.write buf size) = some s') : ∃ L', Sound s' L' := by
  obtain ⟨hnone, hstep⟩ := (Option.ite_none_right_eq_some ..).mp hstep
  obtain ⟨sys, hsys, rfl⟩ := Option.map_eq_some_iff.mp hstep
  obtain ⟨L', hs', hK⟩ := hs.mutexes.step (e := .lock txMtx) trivial hsys
  obtain ⟨-, hcall⟩ := (Option.ite_none_right_eq_some ..).mp hsys
  obtain rfl := Option.some.inj hcall
  have hmask : s.masked = false := by rw [masked, hnone]
  have hne : ∀ t p w, s.Inside t p w → t ≠ s.running := by
    rintro t p w h rfl
    cases hnone.symm.trans h.1
  refine ⟨L', hs.others hmask hs' hK hs.inside (fun t w h => hK.runnable t (hne t .wait w h))
    (fun t p w h => ?_) fun t p w h => ((inside_goTo (s := s) rfl (hne t p w h)).mpr h).1⟩
  obtain ⟨-, heq⟩ | ⟨-, hold⟩ := DriverCalls.update_cases h
  · exact Or.inr (Prod.mk.inj (Option.some.inj heq)).1.symm
  · exact Or.inl hold

theorem beside {me : MutexEvent} (hs : Sound s L) (hstep : s.step (.beside me) = some s') :
    ∃ L', Sound s' L' := by
  obtain ⟨hbeside, hstep⟩ := (Option.ite_none_right_eq_some ..).mp hstep
  obtain ⟨sys, hsys, rfl⟩ := Option.map_eq_some_iff.mp hstep
  have hmask : s.masked = false := MutexSys.Beside.allows hbeside fun hnone => by
    rw [masked, hnone]
  obtain ⟨L', hs', hK, hpast⟩ := hs.guards.beside hbeside (fun hnone ⟨p, w, h⟩ => by
    cases hnone.symm.trans h.1) hsys
  exact ⟨L', hs.others hmask hs' hK (fun t p w h => (hpast t ⟨p, w, h⟩).1)
    (fun t w h => (hpast t ⟨.wait, w, h⟩).2) (fun _ _ _ h => Or.inl h) fun _ _ _ h => h.1⟩

theorem step (hs : Sound s L) (hstep : s.step e = some s') : ∃ L', Sound s' L' := by
  cases e with
  | write buf size => exact hs.write hstep
  | advance => exact hs.advance hstep
  | transfer => exact ⟨L, hs.transfer hstep⟩
  | interrupt =>
      obtain ⟨hmask, hstep⟩ := (Option.ite_none_left_eq_some ..).mp hstep
      exact hs.irq (Bool.eq_false_iff.mpr hmask) hstep
  | beside me => exact hs.beside hstep

theorem unmasked (hs : Sound s L) (hin : s.Inside t .wait w) : s.masked = false := by
  refine Bool.eq_false_iff.mpr fun hmask => ?_
  obtain ⟨p, w', h, hp, -⟩ := masked_iff.mp hmask
  have hlock : p ≠ .lock := by
    rintro rfl
    cases hp
  obtain rfl := hs.alone hin ⟨h, hlock⟩
  obtain rfl := (DriverCalls.unique h hin.1).1
  cases hp

theorem completes_interrupt (hs : Sound s L) (hin : s.Inside t .wait w) (hcounter : w.counter ≠ 0)
    (hndtr : s.dma.ndtr = 0) : ∃ s', s.step .interrupt = some s' ∧ s'.writes = s.writes ∧
      s'.sys.Runnable t ∧ s'.txReady = true ∧ s'.wire = s.wire := by
  obtain ⟨rest, hst⟩ := hs.stream
  have hmask : ¬ s.masked = true := Bool.eq_false_iff.mp (hs.unmasked hin)
  rw [UartTxSys.step, if_neg hmask, dma2Stream7IrqHandler]
  split
  · obtain ⟨k', L', hwake, hK, -, hrun⟩ := hs.wake hin
    rw [hwake]
    exact ⟨_, rfl, rfl, (MutexSys.runnable_iff hK.steady t).mpr hrun, rfl, rfl⟩
  · next hirq =>
      have hready := (hst.busy t .wait w hin).handled hcounter hndtr (Bool.eq_false_iff.mpr hirq)
      refine ⟨s, rfl, rfl, (MutexSys.runnable_iff hs.mutexes.steady t).mpr ?_, hready, rfl⟩
      obtain ht | ⟨-, hrun⟩ := hs.waits t w hin.1
      · cases (hs.listed t ht).1.symm.trans hready
      · exact hrun

theorem completes (hs : Sound s L) (hin : s.Inside t .wait w) (hcounter : w.counter ≠ 0) {n : Nat}
    (hndtr : s.dma.ndtr = n) : ∃ s', Runs.exec UartTxSys.step s (completion n) = some s' ∧
      s'.writes = s.writes ∧ s'.sys.Runnable t ∧ s'.txReady = true ∧
      s'.wire = s.messages ++ w.message := by
  induction n generalizing s with
  | zero =>
      obtain ⟨rest, hst⟩ := hs.stream
      obtain ⟨s', hstep, hwrites, hrun, hready, hwire⟩ :=
        hs.completes_interrupt hin hcounter hndtr
      have hwhole := (hst.busy t .wait w hin).2.whole hndtr
      refine ⟨s', ?_, hwrites, hrun, hready, hwire.trans (hwhole ▸ hst.wire)⟩
      simp [completion, Runs.exec, hstep]
  | succ n ih =>
      obtain ⟨rest, hst⟩ := hs.stream
      obtain ⟨b, d, htransfer, hd⟩ :=
        (hst.busy t .wait w hin).exists_transfer (hndtr ▸ Nat.succ_ne_zero n)
      have hstep : s.step .transfer = some { s with dma := d, wire := s.wire ++ [b] } := by
        rw [UartTxSys.step, htransfer]
        rfl
      have hd' : d.ndtr = n := by omega
      obtain ⟨s', hexec, hfacts⟩ := ih (hs.transfer hstep) hin hd'
      refine ⟨s', ?_, hfacts⟩
      rw [completion, List.replicate_succ, List.cons_append, Runs.exec, hstep]
      exact hexec

theorem transmits (hs : Sound s L) : s.Transmits := by
  refine ⟨?_, fun t w h hcounter => hs.completes ⟨h, by simp⟩ hcounter rfl⟩
  obtain ⟨rest, hst⟩ := hs.stream
  refine ⟨rest, hst.wire, ?_⟩
  by_cases hin : ∃ t p w, s.Inside t p w
  · obtain ⟨t, p, w, h⟩ := hin
    exact Or.inr ⟨t, p, w, h.1, (hst.busy t p w h).start⟩
  · exact Or.inl (hst.idle fun t p w h => hin ⟨t, p, w, h⟩).2

end Sound

theorem Started.sound (h : Started s) : ∃ L, Sound s L := by
  obtain ⟨L, hsys⟩ := h.sys.sound
  have hwrites : ∀ {t p w}, s.writes t ≠ some (p, w) := by simp [h.writes]
  have hempty := MutexSys.Started.queue_empty hsys.steady.threaded (q := txWaitList) rfl h.queue
  refine ⟨L, hsys, fun t p w h => absurd h.1 hwrites, fun t p w h => absurd h hwrites,
    fun t ht => ?_, fun t w h => absurd h hwrites, [], ?_, fun t p w h => absurd h.1 hwrites,
    fun _ => ⟨⟨h.en, h.tcie⟩, rfl⟩⟩
  · rw [hempty] at ht
    cases ht
  · simp [messages, h.wire, h.returned]

/-- Threads 4 and 5 of one task, the latter running, and a new driver. -/
def userSerial : UartTxSys where
  sys := MutexSys.userSystem
  txReady := false
  dma := ⟨fun _ => 0#8, 0, 0, false, false, false⟩
  writes _ := none
  wire := []
  returned := []

theorem userSerial_started : userSerial.Started where
  sys := MutexSys.userSystem_started
  queue := userKernel_queue (q := txWaitList) rfl (by decide)
  en := rfl
  tcie := rfl
  writes _ := rfl
  wire := rfl
  returned := rfl

def advances (n : Nat) : List UartTxEvent := List.replicate n .advance

/-- Thread 5 writes three bytes; the first goes out before it waits, and thread 4 comes with a
write of its own before the others do. -/
def writerRun : List UartTxEvent :=
  .write (fun i => BitVec.ofNat 8 (i + 1)) 3 :: advances 8 ++ [.transfer] ++ advances 2 ++
    [.beside .schedule, .write (fun _ => 9#8) 1] ++ advances 3 ++ completion 2 ++
    [.beside .schedule] ++ advances 3

end UartTxSys

/-- In every run, the messages of the writes that are over are on the wire one behind the other, in
the order of the mutex, with a start of at most one more behind them; and from wherever a write
waits, the rest of its transfer and the interrupt let it run. The message of a write is what the
counter of the stream takes of it. -/
theorem serial_transmits {s₀ s : UartTxSys} {es : List UartTxEvent} (hstart : s₀.Started)
    (hrun : Runs.exec UartTxSys.step s₀ es = some s) : s.Transmits := by
  obtain ⟨L, hs⟩ := Runs.exec_keeps (I := fun s => ∃ L, UartTxSys.Sound s L)
    (fun _ _ _ ⟨_, hs⟩ hstep => hs.step hstep) hstart.sound hrun
  exact hs.transmits

theorem serial_transmits_at_writer : ∃ s,
    Runs.exec UartTxSys.step UartTxSys.userSerial UartTxSys.writerRun = some s ∧
      s.wire = [1#8, 2#8, 3#8] ∧ s.writes 5 = none ∧ s.writes 4 ≠ none ∧ s.Transmits := by
  have hrun : (Runs.exec UartTxSys.step UartTxSys.userSerial UartTxSys.writerRun).map
      (fun s => (s.wire, (s.writes 5).isNone, (s.writes 4).isNone)) =
        some ([1#8, 2#8, 3#8], true, false) := by decide +kernel
  obtain ⟨s, hs, hfacts⟩ := Option.map_eq_some_iff.mp hrun
  simp only [Prod.mk.injEq, Option.isNone_iff_eq_none, Option.isNone_eq_false_iff,
    Option.isSome_iff_ne_none] at hfacts
  exact ⟨s, hs, hfacts.1, hfacts.2.1, hfacts.2.2,
    serial_transmits UartTxSys.userSerial_started hs⟩

end Tenok
