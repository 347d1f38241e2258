import Tenok.Kernel.PollRuns
import Tenok.Kernel.TimedPolls
import Tenok.Kernel.Timers

/-!
The deadlines of `sys_poll`: the system time, which every tick moves on, and what each thread
has for its own deadline. The comparison of `syscall_timeout_update` looks at the seconds and at
the nanoseconds separately.
-/
namespace Tenok

/-- A value in an `int` or a `long`, which have 32 bits. -/
def toLong (n : Int) : Int := n.bmod (2 ^ 32)

def timerUpCount (time : Timespec) : Timespec :=
  let nsec := toLong (time.tvNsec + nanosecondTicks)
  if 1000000000 ≤ nsec then ⟨time.tvSec + 1, nsec - 1000000000⟩ else ⟨time.tvSec, nsec⟩

def timeAdd (time : Timespec) (sec nsec : Int) : Timespec :=
  let tvSec := time.tvSec + sec
  let tvNsec := toLong (time.tvNsec + nsec)
  if 1000000000 ≤ tvNsec then ⟨tvSec + 1, tvNsec - 1000000000⟩ else ⟨tvSec, tvNsec⟩

/-- The time is up, as `syscall_timeout_update` decides it. -/
def timeUp (tp timeout : Timespec) : Bool :=
  decide (timeout.tvSec ≤ tp.tvSec) && decide (timeout.tvNsec ≤ tp.tvNsec)

/-- The files and the kernel with the clock. `syscall_timeout` and `syscall_is_timeout` are
fields of a thread, and so is the register that a call returns its value in. -/
structure PollClock where
  sys : PollSys
  sysTime : Timespec
  syscallTimeout : Tid → Timespec
  syscallIsTimeout : Tid → Bool
  retval : Tid → Int

inductive ClockEvent
  | tick
  | clockSettime (tp : Timespec)
  /-- Everything else; a tick is not among it. -/
  | sys (e : PollEvent)

namespace PollClock

def running (c : PollClock) : Tid := c.sys.kernel.runningThread

def timeoutList (c : PollClock) : List Tid := c.sys.kernel.timeoutList

def expires (c : PollClock) (t : Tid) : Bool :=
  timeUp (timerUpCount c.sysTime) (c.syscallTimeout t)

/-- `system_ticks_update`. The threads it finds on `timeout_list` are marked when their time
is up, whatever state they are in. -/
def systemTicksUpdate (c : PollClock) : Option PollClock :=
  (c.sys.step (.kernel (.systemTicks c.expires))).map fun sys =>
    { c with
      sys
      sysTime := timerUpCount c.sysTime
      syscallIsTimeout := fun t =>
        c.syscallIsTimeout t || (decide (t ∈ c.timeoutList) && c.expires t) }

/-- The polling deadline; `timeout * 1000000` is a product of `int`s. -/
def pollDeadline (c : PollClock) (timeout : Int) : Timespec :=
  timeAdd c.sysTime 0 (toLong (timeout * 1000000))

/-- `sys_poll` up to its `schedule`, with the value if it returns at once. -/
def sysPoll (c : PollClock) (fds : List PollFd) (timeout : Int) : Option PollClock :=
  (c.sys.sysPoll fds timeout).map fun (sys, r, _) =>
    { c with
      sys
      syscallTimeout :=
        if 0 < timeout then Function.update c.syscallTimeout c.running (c.pollDeadline timeout)
        else c.syscallTimeout
      retval := r.elim c.retval (Function.update c.retval c.running) }

def sysPollRet (c : PollClock) : Option PollClock :=
  (c.sys.step .pollRet).map fun sys =>
    { c with
      sys
      retval := Function.update c.retval c.running
        (if c.syscallIsTimeout c.running then -1 else 0) }

def runSys (c : PollClock) (sys : PollSys) : PollClock :=
  let new := fun t => !c.sys.kernel.bitmapThreads t && sys.kernel.bitmapThreads t
  { c with
    sys
    syscallTimeout := fun t => if new t then ⟨0, 0⟩ else c.syscallTimeout t
    syscallIsTimeout := fun t => if new t then false else c.syscallIsTimeout t }

def step (c : PollClock) : ClockEvent → Option PollClock
  | .tick => c.systemTicksUpdate
  | .clockSettime tp =>
      if c.sys.kernel.InCall ∧ ¬ c.sys.InPoll then some { c with sysTime := tp } else none
  | .sys (.poll fds timeout) =>
      if c.sys.kernel.InCall ∧ ¬ c.sys.InPoll then c.sysPoll fds timeout else none
  | .sys .pollRet => c.sysPollRet
  | .sys (.kernel (.systemTicks _)) => none
  | .sys e => (c.sys.step e).map c.runSys

/-- The thread is blocked in a `sys_poll` with a timeout. -/
def Blocked (c : PollClock) (t : Tid) : Prop := c.sys.kernel.PollBlocked t

instance decidableBlocked (c : PollClock) (t : Tid) : Decidable (c.Blocked t) :=
  inferInstanceAs (Decidable (c.sys.kernel.PollBlocked t))

/-- The file has an event and some thread polls it. -/
def Notified (c : PollClock) (t : Tid) : PollEvent → Prop
  | .fifoEvents filp _ ready _ => ready = true ∧ c.Blocked t ∧ c.sys.Polls filp t
  | _ => False

instance decidableNotified (c : PollClock) (t : Tid) : (e : PollEvent) → Decidable (c.Notified t e)
  | .fifoEvents _ _ _ _ => inferInstanceAs (Decidable (_ ∧ _ ∧ _))
  | .poll _ _ | .pollRet | .initFile _ | .setFd _ _ | .kernel _ =>
      inferInstanceAs (Decidable False)

/-- A `sys_poll` that blocks has a deadline for which one carry of `time_add` is enough, and
an event of a file finds no thread that is still marked from an earlier poll. -/
def TimingOk (c : PollClock) : PollEvent → Prop
  | .poll fds timeout => (c.sys.blocksOn fds timeout).isSome = true → 0 < timeout →
      c.sysTime.tvNsec + timeout * 1000000 < 2000000000
  | .fifoEvents filp flag ready fuel => ∀ t ∈ c.timeoutList,
      c.Notified t (.fifoEvents filp flag ready fuel) → c.syscallIsTimeout t = false
  | .kernel (.taskletSchedule tid) => tid ∉ c.timeoutList
  | _ => True

instance decidableTimingOk (c : PollClock) : (e : PollEvent) → Decidable (c.TimingOk e)
  | .poll _ _ => inferInstanceAs (Decidable (_ → _ → _))
  | .fifoEvents filp flag ready fuel => inferInstanceAs (Decidable (∀ t ∈ _,
      c.Notified t (.fifoEvents filp flag ready fuel) → _))
  | .kernel (.taskletSchedule _) => inferInstanceAs (Decidable (_ ∉ _))
  | .pollRet | .initFile _ | .setFd _ _ | .kernel (.call _) | .kernel .pollRet
  | .kernel .syscallHandler | .kernel .syscallReturn | .kernel .threadReturn
  | .kernel (.wakeUp _) | .kernel (.wakeUpAll _) | .kernel (.fifoWakeUp _ _)
  | .kernel (.pollNotify _) | .kernel (.inheritPriority _) | .kernel .resetInheritedPriority
  | .kernel (.systemTicks _) | .kernel .schedule => inferInstanceAs (Decidable True)

/-- A tick at which the time of a thread is up finds it blocked, and not on the CPU any more,
or has marked it before. The clock is set to a time in range, and not while a thread is
blocked with a timeout. -/
def EventOk (c : PollClock) : ClockEvent → Prop
  | .tick => ∀ t ∈ c.timeoutList, c.expires t = true →
      if c.Blocked t then t ≠ c.running else c.syscallIsTimeout t = true
  | .clockSettime tp => 0 ≤ tp.tvNsec ∧ tp.tvNsec < 1000000000 ∧ ∀ t ∈ c.timeoutList, ¬ c.Blocked t
  | .sys e => c.sys.EventOk e ∧ c.TimingOk e

instance decidableEventOk (c : PollClock) : (e : ClockEvent) → Decidable (c.EventOk e)
  | .tick => inferInstanceAs (Decidable (∀ t ∈ _, _ → ite _ _ _))
  | .clockSettime _ => inferInstanceAs (Decidable (_ ∧ _ ∧ ∀ t ∈ _, _))
  | .sys _ => inferInstanceAs (Decidable (_ ∧ _))

def start (sys : PollSys) : PollClock where
  sys := sys
  sysTime := ⟨0, 0⟩
  syscallTimeout _ := ⟨0, 0⟩
  syscallIsTimeout _ := false
  retval _ := 0

end PollClock

/-- All the nanoseconds of a time. -/
def Timespec.nanos (time : Timespec) : Int := time.tvSec * 1000000000 + time.tvNsec

/-- The clock with what its polls are to be compared with: when the time of a thread in a poll
with a timeout is over, and whether an event of one of its files came while it was blocked. -/
structure PollHistory where
  clock : PollClock
  due : Tid → Int
  arrived : Tid → Bool

namespace PollHistory

def now (h : PollHistory) : Int := h.clock.sysTime.nanos

def record (h : PollHistory) (clock : PollClock) : ClockEvent → PollHistory
  | .sys (.poll _ timeout) =>
      { clock
        due := Function.update h.due h.clock.running (h.now + timeout * 1000000)
        arrived := Function.update h.arrived h.clock.running false }
  | .sys e => { h with clock, arrived := fun t => h.arrived t || decide (h.clock.Notified t e) }
  | .tick | .clockSettime _ => { h with clock }

def step (h : PollHistory) (e : ClockEvent) : Option PollHistory :=
  (h.clock.step e).map fun clock => h.record clock e

def EventOk (h : PollHistory) (e : ClockEvent) : Prop := h.clock.EventOk e

instance decidableEventOk (h : PollHistory) (e : ClockEvent) : Decidable (h.EventOk e) :=
  inferInstanceAs (Decidable (h.clock.EventOk e))

def start (sys : PollSys) : PollHistory where
  clock := PollClock.start sys
  due _ := 0
  arrived _ := false

/-- What the timeouts of `poll` are for, said of one step. -/
structure DeadlinesKept (h : PollHistory) (e : ClockEvent) (h' : PollHistory) : Prop where
  /-- A call with a timeout that blocks is due this many milliseconds later. -/
  blocks : ∀ fds timeout, e = .sys (.poll fds timeout) →
    (h.clock.sys.blocksOn fds timeout).isSome = true → 0 < timeout →
    h'.clock.Blocked h.clock.running ∧ h'.due h.clock.running = h.now + timeout * 1000000
  /-- Who is blocked is not due yet. -/
  ahead : ∀ t, h'.clock.Blocked t → h'.now < h'.due t
  /-- The tick makes ready who is due. -/
  expires : e = .tick → ∀ t, h.clock.Blocked t → h.due t ≤ h'.now → h'.clock.sys.kernel.Queued t
  notifies : ∀ pe, e = .sys pe → ∀ t, h.clock.Notified t pe → h'.clock.sys.kernel.Queued t
  /-- Nothing else wakes the thread. -/
  stays : ∀ t, h.clock.Blocked t → (e = .tick → h'.now < h.due t) →
    (∀ pe, e = .sys pe → ¬ h.clock.Notified t pe) → h'.clock.Blocked t ∧ h'.due t = h.due t
  returns : e = .sys .pollRet → h.clock.running ∈ h.clock.timeoutList →
    h'.clock.retval h.clock.running = if h.arrived h.clock.running then 0 else -1

end PollHistory

end Tenok
