import Tenok.Kernel.Syscalls
import Tenok.Lib.Runs

/-!
The kernel as a state machine: the calls of the running thread, the wake-ups that
other code and interrupts make, the tick and the scheduler, in any order. `EventOk`
is the condition under which a step leaves the scheduling lists well formed.
-/
namespace Tenok
open Ring

/-- What the running thread does in kernel code, each under `preempt_disable`. -/
inductive KernelCall
  | delayTicks (ticks : BitVec 32)
  | schedYield
  /-- A `prepare_to_wait` of the running thread on the queue of some object. -/
  | wait (queue : WaitQueue)
  | fifoWait (queue : WaitQueue) (size : Nat)
  /-- `INIT_LIST_HEAD` on the queue of a new object. -/
  | initQueue (queue : WaitQueue)
  | poll (timeout : Int)
  | sigwait (set : Option (List Signal))
  | pthreadJoin (tid : Tid)
  | pthreadDetach (tid : Tid)
  | pthreadExit
  | exit
  | pthreadCancel (tid : Tid)
  | pthreadKill (tid : Tid) (sig : Option Signal)
  | kill (pid : Pid) (sig : Option Signal)
  | raise (sig : Option Signal)
  | pthreadCreate (attr : Option ThreadAttr) (stack : Bool)
  | taskCreate (priority : Int) (kernelThread stack : Bool)
  | pthreadSetschedparam (tid : Tid) (schedPriority : Int)

inductive KernelEvent
  | call (c : KernelCall)
  /-- `sys_poll` goes on after its `schedule`. -/
  | pollRet
  | syscallHandler
  | syscallReturn
  | threadReturn
  | wakeUp (queue : WaitQueue)
  | wakeUpAll (queue : WaitQueue)
  | fifoWakeUp (queue : WaitQueue) (availSize : Nat)
  | pollNotify (polls : Tid → Bool)
  /-- `tasklet_schedule`, with the thread ID of the daemon. -/
  | taskletSchedule (tid : Tid)
  | inheritPriority (mutex : Mutex)
  | resetInheritedPriority
  | systemTicks (expired : Tid → Bool)
  | schedule

namespace Kernel

def sysPthreadDetach (k : Kernel) (tid : Tid) : SysResult :=
  if k.bitmapThreads tid then (k.setThread tid fun i => { i with detached := true }, .ok ())
  else (k, .error .esrch)

def fifoWait (k : Kernel) (queue : WaitQueue) (size : Nat) : Kernel :=
  (k.setThread k.runningThread fun i => { i with fileRequestSize := size }).prepareToWait
    (.wait queue) k.runningThread .wait

def taskletSchedule (k : Kernel) (tid : Tid) : Option Kernel :=
  (k.acquireThread tid).map k.finishWait

def runCall (k : Kernel) : KernelCall → Option Kernel
  | .delayTicks ticks => some (k.sysDelayTicks ticks).1
  | .schedYield => some k.sysSchedYield.1
  | .wait queue => some (k.prepareToWait (.wait queue) k.runningThread .wait)
  | .fifoWait queue size => some (k.fifoWait queue size)
  | .initQueue queue =>
      some { k with links := initListHead k.links (Sum.inl (SchedList.wait queue)) }
  | .poll timeout => some (k.sysPoll timeout)
  | .sigwait set => some (k.sysSigwait set).1
  | .pthreadJoin tid => (k.sysPthreadJoin tid).map Prod.fst
  | .pthreadDetach tid => some (k.sysPthreadDetach tid).1
  | .pthreadExit => k.threadJoinHandler
  | .exit => k.sysExit
  | .pthreadCancel tid => (k.sysPthreadCancel tid).map Prod.fst
  | .pthreadKill tid sig => (k.sysPthreadKill tid sig).map Prod.fst
  | .kill pid sig => (k.sysKill pid sig).map Prod.fst
  | .raise sig => (k.sysRaise sig).map Prod.fst
  | .pthreadCreate attr stack => (k.sysPthreadCreate attr stack).map Prod.fst
  | .taskCreate priority kernelThread stack => some (k.taskCreate priority kernelThread stack).1
  | .pthreadSetschedparam tid schedPriority => some (k.sysPthreadSetschedparam tid schedPriority).1

/-- The running thread goes on with its code. When it has queued itself and an interrupt
has woken it again, `syscall_return_event_handler` does not ask for a reschedule and the
thread goes on while it is on a ready list. -/
def Executing (k : Kernel) : Prop :=
  ((k.threads k.runningThread).status = .running ∨
    (k.threads k.runningThread).status = .ready) ∧
    (k.threads k.runningThread).pollTimed = false

instance decidableExecuting (k : Kernel) : Decidable k.Executing :=
  inferInstanceAs (Decidable (_ ∧ _))

/-- The caller of a system call has the privilege of the kernel. -/
def InCall (k : Kernel) : Prop :=
  k.Executing ∧ (k.threads k.runningThread).privilege = .kernelThread

instance decidableInCall (k : Kernel) : Decidable k.InCall := inferInstanceAs (Decidable (_ ∧ _))

/-- `none` if the event cannot happen in this state or faults. User code reaches the
calls through `syscall_handler` only. -/
def step (k : Kernel) : KernelEvent → Option Kernel
  | .call c =>
      if k.Executing ∧ (k.threads k.runningThread).privilege = .kernelThread then k.runCall c
      else none
  | .pollRet =>
      if (k.threads k.runningThread).status = .running ∧
        (k.threads k.runningThread).pollTimed = true then some k.sysPollRet else none
  | .syscallHandler => if k.Executing then some k.syscallHandler else none
  | .syscallReturn => some k.syscallReturnEventHandler
  | .threadReturn => if k.Executing then k.threadReturnEventHandler else none
  | .wakeUp queue => k.wakeUp (.wait queue)
  | .wakeUpAll queue => k.wakeUpAll (.wait queue)
  | .fifoWakeUp queue availSize => k.fifoWakeUp (.wait queue) availSize
  | .pollNotify polls => k.pollNotify polls
  | .taskletSchedule tid => k.taskletSchedule tid
  | .inheritPriority mutex => k.threadInheritPriority mutex
  | .resetInheritedPriority => some k.threadResetInheritedPriority
  | .systemTicks expired => k.systemTicksUpdate expired
  | .schedule => k.schedule

def Alive (k : Kernel) (t : Tid) : Prop := k.bitmapThreads t = true

instance decidableAlive (k : Kernel) (t : Tid) : Decidable (k.Alive t) :=
  inferInstanceAs (Decidable (_ = _))

def members (k : Kernel) (h : SchedList) : List Tid :=
  (k.forEachEntry h (fun l t => l ++ [t]) []).getD []

/-- The object that the queue is part of is not a thread that is gone. -/
def QueueAlive (k : Kernel) (queue : WaitQueue) : Prop :=
  ∀ t ∈ (SchedList.wait queue).owner, k.Alive t

instance decidableQueueAlive (k : Kernel) (queue : WaitQueue) : Decidable (k.QueueAlive queue) :=
  inferInstanceAs (Decidable (∀ t ∈ _, _))

/-- The running thread has not queued itself since it got the CPU. -/
def Unqueued (k : Kernel) : Prop := (k.threads k.runningThread).status = .running

instance decidableUnqueued (k : Kernel) : Decidable k.Unqueued :=
  inferInstanceAs (Decidable (_ = _))

def ownLists (t : Tid) : List SchedList :=
  [.join t, .wait (.pipeRead t), .wait (.pipeWrite t)]

/-- `SIGSTOP` is safe for the thread that executes, and for a stopped one. -/
def Stoppable (k : Kernel) (t : Tid) : Prop :=
  (t = k.runningThread ∧ (k.threads t).status = .running) ∨
    ((k.threads t).status = .suspended ∧
      ¬ ((k.threads t).waitForSignal ∧ Signal.stop ∈ (k.threads t).sigWaitSet))

instance decidableStoppable (k : Kernel) (t : Tid) : Decidable (k.Stoppable t) :=
  inferInstanceAs (Decidable (_ ∨ _))

/-- No thread of `T` has a poll with a timeout, and no thread outside `T` is on a list
that is part of one of them. -/
def Deletable (k : Kernel) (T : List Tid) : Prop :=
  ∀ t ∈ T, t ∉ k.timeoutList ∧ ∀ h ∈ ownLists t, ∀ u ∈ k.members h, u ∈ T

/-- `thread_delete` does not take the running thread off a list. -/
def Killable (k : Kernel) (T : List Tid) : Prop :=
  k.Deletable T ∧ (k.runningThread ∈ T → k.Unqueued)

instance decidableDeletable (k : Kernel) (T : List Tid) : Decidable (k.Deletable T) :=
  inferInstanceAs (Decidable (∀ t ∈ T, _ ∧ ∀ h ∈ _, ∀ u ∈ _, _))

instance decidableKillable (k : Kernel) (T : List Tid) : Decidable (k.Killable T) :=
  inferInstanceAs (Decidable (_ ∧ (_ → _)))

def SignalOk (k : Kernel) (T : List Tid) : Option Signal → Prop
  | some .stop => ∀ t ∈ T, k.Stoppable t
  | some .kill => k.Killable T
  | _ => True

instance decidableSignalOk (k : Kernel) (T : List Tid) (sig : Option Signal) :
    Decidable (k.SignalOk T sig) :=
  match sig with
  | some .stop => inferInstanceAs (Decidable (∀ t ∈ T, _))
  | some .kill => inferInstanceAs (Decidable (k.Killable T))
  | some .usr1 | some .usr2 | some .poll | some .cont | none => inferInstanceAs (Decidable True)

/-- The nodes that the caller left when it got the CPU are neighbours once the threads
before it in `sys_exit` are off their lists, so its `list_del` changes nothing. -/
def StaleLinks (k : Kernel) (T : List Tid) : Prop :=
  let links := (T.takeWhile (· ≠ k.runningThread)).foldl (fun s t => listDel s (Sum.inr t)) k.links
  let node : ListNode := .inr k.runningThread
  links.next (links.prev node) = links.next node ∧ links.prev (links.next node) = links.prev node

instance decidableStaleLinks (k : Kernel) (T : List Tid) : Decidable (k.StaleLinks T) :=
  inferInstanceAs (Decidable (_ ∧ _))

def ExitOk (k : Kernel) : Prop :=
  ∀ task ∈ k.currentTaskInfo, k.Deletable (k.taskThreads task) ∧
    (k.Unqueued → k.StaleLinks (k.taskThreads task))

instance decidableExitOk (k : Kernel) : Decidable k.ExitOk :=
  inferInstanceAs (Decidable (∀ task ∈ _, _ ∧ (_ → _)))

/-- Nobody waits on the pipe of a thread that ends; who joins it is woken. -/
def ThreadExitOk (k : Kernel) : Prop :=
  k.Unqueued ∧ k.members (.wait (.pipeRead k.runningThread)) = [] ∧
    k.members (.wait (.pipeWrite k.runningThread)) = []

instance decidableThreadExitOk (k : Kernel) : Decidable k.ThreadExitOk :=
  inferInstanceAs (Decidable (_ ∧ _ ∧ _))

/-- `pthread_cancel` and `pthread_kill` find this thread. -/
def Receives (k : Kernel) (tid : Tid) : Prop :=
  tid ∈ k.threadsList ∧ (k.threads tid).privilege ≠ .kernelThread

instance decidableReceives (k : Kernel) (tid : Tid) : Decidable (k.Receives tid) :=
  inferInstanceAs (Decidable (_ ∧ _))

/-- `pthread_setschedparam` would be carried out. -/
def Settable (k : Kernel) (tid : Tid) (schedPriority : Int) : Prop :=
  tid ∈ k.threadsList ∧ (k.threads tid).privilege ≠ .kernelThread ∧ 0 ≤ schedPriority ∧
    schedPriority ≤ threadPriorityMax

instance decidableSettable (k : Kernel) (tid : Tid) (schedPriority : Int) :
    Decidable (k.Settable tid schedPriority) :=
  inferInstanceAs (Decidable (_ ∧ _ ∧ _ ∧ _))

/-- `pthread_join` queues the caller for this thread. -/
def Joins (k : Kernel) (tid : Tid) : Prop :=
  tid ∈ k.threadsList ∧ (k.threads tid).detached = false ∧ (k.threads tid).joinable = true ∧
    k.joinDeadlock tid = some false

instance decidableJoins (k : Kernel) (tid : Tid) : Decidable (k.Joins tid) :=
  inferInstanceAs (Decidable (_ ∧ _ ∧ _ ∧ _))

def CallOk (k : Kernel) : KernelCall → Prop
  | .delayTicks _ | .schedYield | .poll _ => k.Unqueued
  | .sigwait set => set.isSome → k.Unqueued
  | .wait queue | .fifoWait queue _ => k.Unqueued ∧ k.QueueAlive queue
  | .initQueue queue => k.QueueAlive queue ∧ k.members (.wait queue) = []
  | .pthreadJoin tid => k.Joins tid → k.Unqueued ∧ tid ≠ k.runningThread
  | .pthreadExit => k.ThreadExitOk
  | .exit => k.ExitOk
  | .pthreadCancel tid => k.Receives tid → k.Killable [tid]
  | .pthreadKill tid sig => k.Receives tid → k.SignalOk [tid] sig
  | .kill pid sig => pid ∈ k.tasksList → k.SignalOk (k.taskThreads pid) sig
  | .raise sig => ∀ task ∈ k.currentTaskInfo, k.SignalOk (k.taskThreads task) sig
  | _ => True

instance decidableCallOk (k : Kernel) : (c : KernelCall) → Decidable (k.CallOk c)
  | .delayTicks _ | .schedYield | .poll _ => inferInstanceAs (Decidable k.Unqueued)
  | .wait _ | .fifoWait _ _ | .initQueue _ => inferInstanceAs (Decidable (_ ∧ _))
  | .pthreadExit => inferInstanceAs (Decidable k.ThreadExitOk)
  | .exit => inferInstanceAs (Decidable k.ExitOk)
  | .sigwait _ | .pthreadJoin _ | .pthreadCancel _ | .pthreadKill _ _ | .kill _ _ =>
      inferInstanceAs (Decidable (_ → _))
  | .raise _ => inferInstanceAs (Decidable (∀ task ∈ _, _))
  | .pthreadDetach _ | .pthreadCreate _ _ | .taskCreate _ _ _ | .pthreadSetschedparam _ _ =>
      inferInstanceAs (Decidable True)

def EventOk (k : Kernel) : KernelEvent → Prop
  | .call c => k.CallOk c
  | .threadReturn =>
      if k.currentTaskInfo.map k.mainThread = some k.runningThread then k.ExitOk
      else k.ThreadExitOk
  | .wakeUp queue | .wakeUpAll queue | .fifoWakeUp queue _ => k.QueueAlive queue
  | _ => True

instance decidableEventOk (k : Kernel) : (e : KernelEvent) → Decidable (k.EventOk e)
  | .call c => inferInstanceAs (Decidable (k.CallOk c))
  | .threadReturn => inferInstanceAs (Decidable (ite _ _ _))
  | .wakeUp queue | .wakeUpAll queue | .fifoWakeUp queue _ =>
      inferInstanceAs (Decidable (k.QueueAlive queue))
  | .pollRet | .syscallHandler | .syscallReturn | .pollNotify _ | .taskletSchedule _
  | .inheritPriority _ | .resetInheritedPriority | .systemTicks _ | .schedule =>
      inferInstanceAs (Decidable True)

end Kernel

end Tenok
