import Tenok.Kernel.Events

/-!
Mutexes and condition variables (`kernel/mutex.c` and the calls of `kernel.c`) used
by any number of threads. The bodies under `preempt_disable` are single steps; between
two of them a thread can lose the CPU, so a thread's place inside `mutex_lock` is part
of the state. The list `.wait (.mutex m)` is the `wait_list` of a mutex and
`.wait (.cond c)` the `task_wait_list` of a condition variable.
-/
namespace Tenok
open Ring

/-- The places of a thread between the steps of these calls. -/
inductive MutexPc
  | outside
  /-- `mutex_lock` before its first `mutex_trylock`. -/
  | lockEnter (m : Nat)
  /-- `mutex_trylock` has queued the thread; `thread_inherit_priority` comes next. -/
  | lockInherit (m : Nat)
  | lockSchedule (m : Nat)
  /-- `schedule` was called; `mutex_trylock` comes next. -/
  | lockRetry (m : Nat)
  /-- The mutex is taken; `thread_reset_inherited_priority` comes next. -/
  | lockReset (m : Nat)
  /-- `mutex_lock` or `mutex_trylock` is about to return 0. -/
  | lockReturn (m : Nat)
  | condReturn (c m : Nat)
  deriving DecidableEq, Repr

structure MutexSys where
  kernel : Kernel
  mutexes : Nat → Mutex
  pc : Tid → MutexPc
  /-- The thread is in a critical section of the mutex: a call that takes it has
  returned 0 and no call that gives it back was made since. -/
  inside : Nat → Tid → Bool

inductive MutexEvent
  | lock (m : Nat)
  | trylock (m : Nat)
  | unlock (m : Nat)
  | condWait (c m : Nat)
  | condSignal (c : Nat)
  | condBroadcast (c : Nat)
  /-- The running thread goes on inside the call it has made. -/
  | advance
  | delayTicks (ticks : BitVec 32)
  | schedYield
  | systemTicks (expired : Tid → Bool)
  /-- A pass of the scheduler, for a tick or at the return of a call. -/
  | schedule

namespace MutexSys

def running (s : MutexSys) : Tid := s.kernel.runningThread

def owner (s : MutexSys) (m : Nat) : Option Tid := (s.mutexes m).owner

def setOwner (s : MutexSys) (m : Nat) (owner : Option Tid) : MutexSys :=
  { s with mutexes := Function.update s.mutexes m { s.mutexes m with owner } }

def setPc (s : MutexSys) (pc : MutexPc) : MutexSys :=
  { s with pc := Function.update s.pc s.running pc }

def setInside (s : MutexSys) (m : Nat) (b : Bool) : MutexSys :=
  { s with inside := Function.update s.inside m (Function.update (s.inside m) s.running b) }

def mutexTrylock (s : MutexSys) (m : Nat) : MutexSys × Except Errno Unit :=
  if s.owner m ≠ none then
    ({ s with kernel := s.kernel.prepareToWait (.wait (.mutex m)) s.running .wait }, .error .ebusy)
  else (s.setOwner m s.running, .ok ())

def mutexUnlock (s : MutexSys) (m : Nat) : Option (MutexSys × Except Errno Unit) :=
  if s.owner m ≠ some s.running then some (s, .error .eperm)
  else do
    let kernel ← s.kernel.wakeUp (.wait (.mutex m))
    some ({ s.setOwner m none with kernel }, .ok ())

/-- It does not look whether the caller is the owner. -/
def sysPthreadCondWait (s : MutexSys) (c m : Nat) : MutexSys :=
  if s.owner m ≠ none then
    { s.setOwner m none with
      kernel := s.kernel.prepareToWait (.wait (.cond c)) s.running .wait }
  else s

def sysPthreadCondSignal (s : MutexSys) (c : Nat) : Option MutexSys := do
  let kernel ← s.kernel.wakeUp (.wait (.cond c))
  some { s with kernel }

def sysPthreadCondBroadcast (s : MutexSys) (c : Nat) : Option MutexSys := do
  let kernel ← s.kernel.wakeUpAll (.wait (.cond c))
  some { s with kernel }

/-- A pass of the loop of `mutex_lock` up to the result of `mutex_trylock`. -/
def lockPass (s : MutexSys) (m : Nat) : MutexSys :=
  match s.mutexTrylock m with
  | (s, .error _) => s.setPc (.lockInherit m)
  | (s, .ok _) => s.setPc (.lockReset m)

/-- The running thread has the CPU and has not queued itself. -/
def Executing (s : MutexSys) : Prop := s.kernel.Unqueued

instance decidableExecuting (s : MutexSys) : Decidable s.Executing :=
  inferInstanceAs (Decidable s.kernel.Unqueued)

/-- The thread has just queued itself, or got the CPU again since. -/
def InLoop (s : MutexSys) : Prop :=
  s.Executing ∨ (s.kernel.threads s.running).status = .wait

instance decidableInLoop (s : MutexSys) : Decidable s.InLoop :=
  inferInstanceAs (Decidable (_ ∨ _))

/-- The next step of the running thread inside its call. -/
def advance (s : MutexSys) : Option MutexSys :=
  match s.pc s.running with
  | .outside => none
  | .lockEnter m | .lockRetry m => if s.Executing then some (s.lockPass m) else none
  | .lockInherit m =>
      if s.InLoop then do
        let kernel ← s.kernel.threadInheritPriority (s.mutexes m)
        some ({ s with kernel }.setPc (.lockSchedule m))
      else none
  | .lockSchedule m =>
      if s.InLoop then do
        let kernel ← s.kernel.schedule
        some { s.setPc (.lockRetry m) with kernel }
      else none
  | .lockReset m =>
      if s.Executing then
        some ({ s with kernel := s.kernel.threadResetInheritedPriority }.setPc (.lockReturn m))
      else none
  | .lockReturn m | .condReturn _ m =>
      if s.Executing then some ((s.setInside m true).setPc .outside) else none

/-- A call that the running thread makes from outside of the others. -/
def call (s : MutexSys) : MutexEvent → Option MutexSys
  | .lock m => some (s.setPc (.lockEnter m))
  | .trylock m =>
      match s.mutexTrylock m with
      | (s, .error _) => some s
      | (s, .ok _) => some (s.setPc (.lockReturn m))
  | .unlock m => ((s.setInside m false).mutexUnlock m).map Prod.fst
  | .condWait c m => some (((s.setInside m false).sysPthreadCondWait c m).setPc (.condReturn c m))
  | .condSignal c => s.sysPthreadCondSignal c
  | .condBroadcast c => s.sysPthreadCondBroadcast c
  | .delayTicks ticks => some { s with kernel := (s.kernel.sysDelayTicks ticks).1 }
  | .schedYield => some { s with kernel := s.kernel.sysSchedYield.1 }
  | .advance | .systemTicks _ | .schedule => none

def step (s : MutexSys) : MutexEvent → Option MutexSys
  | .advance => s.advance
  | .systemTicks expired => (s.kernel.systemTicksUpdate expired).map fun kernel => { s with kernel }
  | .schedule => s.kernel.schedule.map fun kernel => { s with kernel }
  | e => if s.Executing ∧ s.pc s.running = .outside then s.call e else none

/-- Threads that no mutex or condition variable has seen yet, in any kernel state. -/
structure Started (s : MutexSys) : Prop where
  consistent : ∃ es, Runs.AllOk Kernel.EventOk Kernel.step Kernel.schedStart es ∧
    Runs.exec Kernel.step Kernel.schedStart es = some s.kernel
  timeoutList : s.kernel.timeoutList = []
  awake : ∀ t < threadMax, t ∈ s.kernel.members .sleep ∨ (s.kernel.threads t).sleepTicks = 0#32
  mutexes : ∀ m, s.owner m = none ∧ listEmpty s.kernel.links (.inl (.wait (.mutex m))) = true
  conds : ∀ c, listEmpty s.kernel.links (.inl (.wait (.cond c))) = true
  outside : ∀ t, s.pc t = .outside ∧ ∀ m, s.inside m t = false

/-- Only the owner of a mutex is in a critical section of it. -/
structure Exclusive (s : MutexSys) : Prop where
  atMostOne : ∀ m t u, s.inside m t = true → s.inside m u = true → t = u
  owns : ∀ m t, s.inside m t = true → s.owner m = some t

/-- A step of a thread that does not own the mutex leaves the owner as it is. -/
def OwnerKept (s s' : MutexSys) : Prop :=
  ∀ m u, s.owner m = some u → u ≠ s.running → s'.owner m = some u

/-- The mutex that `pthread_cond_wait` releases is the caller's, and no waiter is woken:
a waiter would return as if it had the mutex. -/
def CondOk (s : MutexSys) : MutexEvent → Prop
  | .condWait _ m => s.owner m = some s.running
  | .condSignal c | .condBroadcast c => s.kernel.members (.wait (.cond c)) = []
  | _ => True

instance decidableCondOk (s : MutexSys) : (e : MutexEvent) → Decidable (s.CondOk e)
  | .condWait _ _ | .condSignal _ | .condBroadcast _ => inferInstanceAs (Decidable (_ = _))
  | .lock _ | .trylock _ | .unlock _ | .advance | .delayTicks _ | .schedYield | .systemTicks _
  | .schedule => inferInstanceAs (Decidable True)

/-- A thread that was queued inside `mutex_lock` and tries again when it runs. One that is
still before `thread_inherit_priority` reads the owner first if the protocol asks for it. -/
def Retries (s : MutexSys) (m : Nat) (t : Tid) : Prop :=
  s.pc t = .lockSchedule m ∨ s.pc t = .lockRetry m ∨
    (s.pc t = .lockInherit m ∧ (s.mutexes m).protocol ≠ .prioInherit)

instance decidableRetries (s : MutexSys) (m : Nat) (t : Tid) : Decidable (s.Retries m t) :=
  inferInstanceAs (Decidable (_ ∨ _ ∨ _))

def Runnable (s : MutexSys) (t : Tid) : Prop :=
  (∃ p, t ∈ s.kernel.members (.ready p)) ∨ (t = s.running ∧ s.Executing)

instance decidableRunnable (s : MutexSys) (t : Tid) : Decidable (s.Runnable t) :=
  inferInstanceAs (Decidable (_ ∨ _))

/-- Some thread was taken off the list of the mutex and is on its way to take it. -/
def Pending (s : MutexSys) (m : Nat) : Prop := ∃ t < threadMax, s.Retries m t ∧ s.Runnable t

instance decidablePending (s : MutexSys) (m : Nat) : Decidable (s.Pending m) :=
  inferInstanceAs (Decidable (∃ t < threadMax, _))

/-- A free mutex that threads wait for has a thread on its way to take it. -/
def NoLostWakeup (s : MutexSys) : Prop :=
  ∀ m, s.owner m = none → s.kernel.members (.wait (.mutex m)) ≠ [] → s.Pending m

def wakeTarget (s : MutexSys) (m : Nat) : Option Tid :=
  match s.kernel.members (.wait (.mutex m)) with
  | [] => none
  | first :: l => some (l.foldl s.kernel.higher first)

/-- When the owner of a mutex goes, threads that stay on its list can rely on another. -/
def HandoffOk (s : MutexSys) : MutexEvent → Prop
  | .unlock m => s.owner m = some s.running →
      (s.kernel.members (.wait (.mutex m))).length ≤ 1 ∨ s.Pending m ∨
        ∀ t ∈ s.wakeTarget m, s.Retries m t
  | .condWait _ m => s.owner m ≠ none →
      s.kernel.members (.wait (.mutex m)) = [] ∨ s.Pending m
  | _ => True

instance decidableHandoffOk (s : MutexSys) : (e : MutexEvent) → Decidable (s.HandoffOk e)
  | .unlock _ => inferInstanceAs (Decidable (_ → _ ∨ _ ∨ ∀ t ∈ _, _))
  | .condWait _ _ => inferInstanceAs (Decidable (_ → _ ∨ _))
  | .lock _ | .trylock _ | .condSignal _ | .condBroadcast _ | .advance | .delayTicks _
  | .schedYield | .systemTicks _ | .schedule => inferInstanceAs (Decidable True)

end MutexSys

end Tenok
