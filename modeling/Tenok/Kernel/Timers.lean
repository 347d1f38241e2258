import Tenok.Kernel.Books
import Tenok.Kernel.KernelRuns
import Tenok.Lib.RingBuffer

/-!
The timers of the threads and the signals that wait for them. Neither is looked at when a
thread ends; `StaysDead` says what should hold of threads that are gone all the same.
-/
namespace Tenok

def nanosecondTicks : Int := 1000000000 / 4000

def clockMonotonic : Int := 1
def sigevNone : Int := 1
def sigevSignal : Int := 2

structure Timespec where
  tvSec : Int
  tvNsec : Int
  deriving DecidableEq, Repr

structure Itimerspec where
  itValue : Timespec
  itInterval : Timespec
  deriving DecidableEq, Repr

/-- The fields of `struct sigevent` that are read; a function is its address. -/
structure Sigevent where
  sigevNotify : Int
  sigevNotifyFunction : Nat
  deriving DecidableEq, Repr

structure Timer where
  id : Nat
  enabled : Bool
  sev : Sigevent
  setting : Itimerspec
  retTime : Itimerspec
  counter : Timespec
  thread : Tid
  deriving DecidableEq, Repr

/-- A handler with its first argument; the others are zero. -/
structure StagedHandler where
  func : Nat
  arg : Nat
  deriving DecidableEq, Repr

/-- `timer_down_count` for ticks of any length. -/
def timerDownCountBy (tick : Int) (time : Timespec) : Timespec :=
  let nsec := time.tvNsec - tick
  if nsec < 0 ∧ 0 < time.tvSec then ⟨time.tvSec - 1, nsec + 1000000000⟩
  else if nsec ≤ 0 ∧ time.tvSec ≤ 0 then ⟨0, 0⟩
  else ⟨time.tvSec, nsec⟩

def timerDownCount : Timespec → Timespec := timerDownCountBy nanosecondTicks

def Signal.num : Signal → Nat
  | .usr1 => 10
  | .usr2 => 12
  | .poll => 29
  | .stop => 19
  | .cont => 18
  | .kill => 9

def Signal.stages : Signal → Bool
  | .usr1 | .usr2 | .poll | .cont => true
  | .stop | .kill => false

/-- What `thread_info` has for timers and signals. All of it is zero in a new slot, also
the head of the list of timers, which the first timer initialises. -/
structure SignalInfo where
  timerCnt : BitVec 16 := 0#16
  timersList : Option (List Nat) := none
  sigTable : Signal → Option Nat := fun _ => none
  signalQueue : List StagedHandler := []
  /-- The field `end` of the queue. -/
  signalQueueEnd : Nat := 0
  stackTopPreserved : Bool := false

structure TimerSys where
  kernel : Kernel
  info : Tid → SignalInfo
  /-- The memory that holds timers. -/
  timer : Nat → Timer
  timersList : List Nat

inductive TimerEvent
  | kernel (e : KernelEvent)
  /-- `memory` is what `kmalloc` gives, with the contents it still has. -/
  | timerCreate (clockid : Int) (sevp : Sigevent) (memory : Option (Nat × Timer))
  | timerDelete (timerid : Int)
  | timerSettime (timerid : Int) (newValue : Itimerspec)
  | sigaction (signum : Option Signal) (handler : Nat) (memory : Bool)
  /-- `pthread_once` stages its routine. -/
  | once
  | handlerReturn

namespace TimerSys

def running (s : TimerSys) : Tid := s.kernel.runningThread

def setInfo (s : TimerSys) (t : Tid) (f : SignalInfo → SignalInfo) : TimerSys :=
  { s with info := Function.update s.info t (f (s.info t)) }

def setTimer (s : TimerSys) (addr : Nat) (f : Timer → Timer) : TimerSys :=
  { s with timer := Function.update s.timer addr (f (s.timer addr)) }

/-- The queue is a kfifo: when it is full, the oldest handler is overwritten. -/
def enqueuePendingSignal (s : TimerSys) (thread : Tid) (h : StagedHandler) : TimerSys :=
  s.setInfo thread fun i =>
    { i with
      signalQueue :=
        (if i.signalQueue.length = signalQueueSize then i.signalQueue.tail else i.signalQueue) ++
          [h]
      signalQueueEnd := RingBuffer.bump signalQueueSize i.signalQueueEnd }

def checkPendingSignals (s : TimerSys) : TimerSys :=
  if (s.info s.running).signalQueue = [] ∨ (s.info s.running).stackTopPreserved then s
  else s.setInfo s.running fun i =>
    { i with signalQueue := i.signalQueue.tail, stackTopPreserved := true }

def stageHandler (s : TimerSys) (thread : Tid) (signum : Signal) : TimerSys :=
  if signum.stages = false then s
  else match (s.info thread).sigTable signum with
    | none | some 0 => s
    | some func => s.enqueuePendingSignal thread ⟨func, signum.num⟩

/-- `none` if the caller's list of timers is not initialised. -/
def acquireTimer (s : TimerSys) (timerid : Int) : Option (Option Nat) :=
  (s.info s.running).timersList.map fun l => l.find? fun addr => timerid = (s.timer addr).id

def sysTimerCreate (s : TimerSys) (clockid : Int) (sevp : Sigevent)
    (memory : Option (Nat × Timer)) : TimerSys × Except Errno Nat :=
  if clockid ≠ clockMonotonic then (s, .error .einval)
  else if sevp.sigevNotify ≠ sigevNone ∧ sevp.sigevNotify ≠ sigevSignal then (s, .error .einval)
  else match memory with
    | none => (s, .error .enomem)
    | some (addr, old) =>
        let i := s.info s.running
        let l := if i.timerCnt = 0#16 then [] else i.timersList.getD []
        let s := s.setTimer addr fun _ =>
          { old with id := i.timerCnt.toNat, sev := sevp, thread := s.running }
        let s := s.setInfo s.running fun i =>
          { i with timerCnt := i.timerCnt + 1#16, timersList := some (l ++ [addr]) }
        ({ s with timersList := s.timersList ++ [addr] }, .ok i.timerCnt.toNat)

def sysTimerDelete (s : TimerSys) (timerid : Int) : Option (TimerSys × Except Errno Unit) := do
  match ← s.acquireTimer timerid with
  | none => some (s, .error .einval)
  | some addr =>
      let s := s.setInfo s.running fun i =>
        { i with timersList := i.timersList.map fun l => l.erase addr }
      some ({ s with timersList := s.timersList.erase addr }, .ok ())

def sysTimerSettime (s : TimerSys) (timerid : Int) (newValue : Itimerspec) :
    Option (TimerSys × Except Errno Itimerspec) :=
  if newValue.itValue.tvSec < 0 ∨ newValue.itValue.tvNsec < 0 ∨
      999999999 < newValue.itValue.tvNsec then some (s, .error .einval)
  else if (s.info s.running).timerCnt = 0#16 then some (s, .error .einval)
  else do
    match ← s.acquireTimer timerid with
    | none => some (s, .error .einval)
    | some addr =>
        let s' := s.setTimer addr fun timer =>
          { timer with
            setting := newValue, retTime := newValue, counter := newValue.itValue, enabled := true }
        some (s', .ok (s.timer addr).setting)

def sysSigaction (s : TimerSys) (signum : Option Signal) (handler : Nat) (memory : Bool) :
    TimerSys × Except Errno Unit :=
  match signum with
  | none => (s, .error .einval)
  | some signum =>
      if (s.info s.running).sigTable signum = none ∧ memory = false then (s, .error .enomem)
      else
        (s.setInfo s.running fun i =>
          { i with sigTable := Function.update i.sigTable signum (some handler) }, .ok ())

def timerUpdateBy (tick : Int) (s : TimerSys) (addr : Nat) : TimerSys :=
  let timer := s.timer addr
  if timer.enabled = false then s
  else
    let counter := timerDownCountBy tick timer.counter
    let timer := { timer with counter, retTime := { timer.retTime with itValue := counter } }
    if counter.tvSec ≠ 0 ∨ counter.tvNsec ≠ 0 then s.setTimer addr fun _ => timer
    else
      let timer := { timer with
        counter := timer.setting.itInterval
        enabled := decide (timer.setting.itInterval ≠ ⟨0, 0⟩) }
      let s := s.setTimer addr fun _ => timer
      if timer.sev.sigevNotify = sigevSignal then
        s.enqueuePendingSignal timer.thread ⟨timer.sev.sigevNotifyFunction, 0⟩
      else s

def timerUpdate : TimerSys → Nat → TimerSys := timerUpdateBy nanosecondTicks

def timersUpdate (s : TimerSys) : TimerSys := s.timersList.foldl timerUpdate s

/-- The slot that `thread_create` zeroes, whether or not it gets a stack. -/
def zeroedSlot (k : Kernel) : KernelEvent → Option Tid
  | .call (.pthreadCreate attr _) =>
      let running := k.threads k.runningThread
      slot (attr.getD { schedPriority := running.priority.val }) running.kernelThread
  | .call (.taskCreate priority kernelThread _) => slot { schedPriority := priority } kernelThread
  | _ => none
where
  slot (attr : ThreadAttr) (kernelThread : Bool) : Option Tid :=
    if attr.Bad kernelThread then none
    else (List.range threadMax).find? fun t => !k.bitmapThreads t

/-- The threads that `handle_signal` gets with a signal, in order. -/
def signalled (k : Kernel) : KernelEvent → List (Tid × Signal)
  | .call (.pthreadKill tid (some sig)) => if k.Receives tid then [(tid, sig)] else []
  | .call (.kill pid (some sig)) =>
      if pid ∈ k.tasksList then (k.taskThreads pid).map (·, sig) else []
  | .call (.raise (some sig)) => k.currentThreads.map (·, sig)
  | _ => []

/-- What a step of the kernel does to timers and signals. -/
def afterKernel (s : TimerSys) (k : Kernel) : KernelEvent → TimerSys
  | .systemTicks _ => timersUpdate { s with kernel := k }
  | .schedule => checkPendingSignals { s with kernel := k }
  | e =>
      let staged := (signalled s.kernel e).foldl (fun s (t, sig) => stageHandler s t sig)
        { s with kernel := k }
      (zeroedSlot s.kernel e).elim staged fun t => staged.setInfo t fun _ => {}

/-- A call of the running thread. A block that `kmalloc` gives is not one in use. -/
def call (s : TimerSys) : TimerEvent → Option TimerSys
  | .kernel _ => none
  | .timerCreate clockid sevp memory =>
      if ∀ m ∈ memory, m.1 ∉ s.timersList then some (s.sysTimerCreate clockid sevp memory).1
      else none
  | .timerDelete timerid => (s.sysTimerDelete timerid).map Prod.fst
  | .timerSettime timerid newValue => (s.sysTimerSettime timerid newValue).map Prod.fst
  | .sigaction signum handler memory => some (s.sysSigaction signum handler memory).1
  | .once => some (s.setInfo s.running fun i => { i with stackTopPreserved := true })
  | .handlerReturn => none

/-- The return from a handler is an event of its own, as the return from a call is. -/
def step (s : TimerSys) : TimerEvent → Option TimerSys
  | .kernel e => (s.kernel.step e).map fun k => s.afterKernel k e
  | .handlerReturn =>
      if s.kernel.Executing then
        some (s.setInfo s.running fun i => { i with stackTopPreserved := false })
      else none
  | e =>
      if s.kernel.Executing ∧ (s.kernel.threads s.running).privilege = .kernelThread then s.call e
      else none

def start : TimerSys where
  kernel := Kernel.schedStart
  info _ := {}
  timer _ := ⟨0, false, ⟨0, 0⟩, ⟨⟨0, 0⟩, ⟨0, 0⟩⟩, ⟨⟨0, 0⟩, ⟨0, 0⟩⟩, ⟨0, 0⟩, 0⟩
  timersList := []

/-- The events that make threads ready when their time or a file's event has come. -/
inductive Wakeup : KernelEvent → Prop
  | tick (expired : Tid → Bool) : Wakeup (.systemTicks expired)
  | poll (polls : Tid → Bool) : Wakeup (.pollNotify polls)

/-- What holds of a slot without a thread: no list or timer refers to it, and ticks and
file events leave it alone. -/
structure Dead (s : TimerSys) (t : Tid) : Prop where
  ready : ∀ p, t ∉ s.kernel.members (.ready p)
  timeout : t ∉ s.kernel.timeoutList
  timer : ∀ addr ∈ s.timersList, (s.timer addr).thread ≠ t
  untouched : ∀ e s', Wakeup e → s.step (.kernel e) = some s' →
    s'.kernel.threads t = s.kernel.threads t ∧ (s'.info t).signalQueue = (s.info t).signalQueue ∧
      ∀ p, t ∉ s'.kernel.members (.ready p)

def StaysDead (s : TimerSys) : Prop := ∀ t, ¬ s.kernel.Alive t → s.Dead t

/-- The step keeps the scheduling lists well formed, and no thread that it ends has a timer
left. A timer is created by a thread that has not been ended. -/
def TimerOk (s : TimerSys) : TimerEvent → Prop
  | .kernel e => s.kernel.EventOk e ∧
      ∀ addr ∈ s.timersList, (s.timer addr).thread ∉ s.kernel.removes e
  | .timerCreate _ _ _ => s.kernel.Alive s.running
  | _ => True

instance decidableTimerOk (s : TimerSys) : (e : TimerEvent) → Decidable (s.TimerOk e)
  | .kernel e => @instDecidableAnd _ _ (s.kernel.decidableEventOk e)
      (inferInstanceAs (Decidable (∀ addr ∈ s.timersList, _)))
  | .timerCreate _ _ _ => inferInstanceAs (Decidable (s.kernel.Alive _))
  | .timerDelete _ | .timerSettime _ _ | .sigaction _ _ _ | .once | .handlerReturn =>
      inferInstanceAs (Decidable True)

end TimerSys

end Tenok
