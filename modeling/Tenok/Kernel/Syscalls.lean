import Tenok.Kernel.Thread

/-!
The system calls that put threads on scheduling lists, take them off or remove
threads, as their bodies run between `preempt_disable` and `preempt_enable`, and
the boot sequence of `sched_start`. The caller is the running thread.
-/
namespace Tenok
open Ring

/-- A call's effect and its return value. -/
abbrev SysResult := Kernel × Except Errno Unit

inductive MutexProtocol
  | prioNone
  | prioInherit
  deriving DecidableEq, Repr

/-- `struct mutex` without its `wait_list`, which is the list `.wait (.mutex m)`. -/
structure Mutex where
  protocol : MutexProtocol := .prioNone
  owner : Option Tid := none
  deriving DecidableEq, Repr

/-- The fields of `struct thread_attr` that `thread_create` checks. -/
structure ThreadAttr where
  schedPriority : Int
  schedpolicy : Int := 2
  detachstate : Int := 1
  deriving DecidableEq, Repr

def pthreadCreateDetached : Int := 0
def pthreadCreateJoinable : Int := 1
def schedRR : Int := 2

def ThreadAttr.Bad (attr : ThreadAttr) (kernelThread : Bool) : Prop :=
  let badDetachState := attr.detachstate ≠ pthreadCreateDetached ∧
    attr.detachstate ≠ pthreadCreateJoinable
  let priMax := if kernelThread then kthreadPriMax else threadPriorityMax
  let badPriority := attr.schedPriority < 0 ∨ (priMax : Int) < attr.schedPriority
  let badSchedPolicy := attr.schedpolicy ≠ schedRR
  badDetachState ∨ badPriority ∨ badSchedPolicy

instance ThreadAttr.decidableBad (attr : ThreadAttr) (kernelThread : Bool) :
    Decidable (attr.Bad kernelThread) :=
  inferInstanceAs (Decidable (_ ∨ _ ∨ _))

namespace Kernel

def currentTaskInfo (k : Kernel) : Option Pid := (k.threads k.runningThread).task

def acquireThread (k : Kernel) (tid : Tid) : Option Tid :=
  if tid ∈ k.threadsList then some tid else none

def acquireTask (k : Kernel) (pid : Pid) : Option Pid :=
  if pid ∈ k.tasksList then some pid else none

def taskDelete (k : Kernel) (task : Pid) : Kernel :=
  { k with
    tasksList := k.tasksList.erase task
    bitmapTasks := Function.update k.bitmapTasks task false }

def dropEmptyTask (k : Kernel) (task : Pid) : Kernel :=
  if k.taskThreads task = [] then k.taskDelete task else k

/-- The two `list_del` for `thread_list` and `task_list`. The latter faults for a
thread that `_task_create` has left without a task. -/
def leaveTask (k : Kernel) (thread : Tid) : Option Kernel := do
  let task ← (k.threads thread).task
  some { k with
    threadsList := k.threadsList.erase thread
    taskThreads := Function.update k.taskThreads task ((k.taskThreads task).erase thread) }

/-- The thread is marked as terminated and its ID is free again. -/
def terminate (k : Kernel) (thread : Tid) : Kernel :=
  let k := k.setStatus thread .terminated
  { k with bitmapThreads := Function.update k.bitmapThreads thread false }

/-- `thread_delete` takes every thread but the running one off its list. -/
def unlinkOther (k : Kernel) (thread : Tid) : Kernel :=
  if thread ≠ k.runningThread then { k with links := listDel k.links (Sum.inr thread) } else k

def threadDelete (k : Kernel) (thread : Tid) : Option Kernel := do
  let k ← k.leaveTask thread
  let k := (k.unlinkOther thread).terminate thread
  let task ← k.currentTaskInfo
  some (k.dropEmptyTask task)

def threadJoinHandler (k : Kernel) : Option Kernel := do
  let k ← k.forEachSafe (.join k.runningThread) finishWait
  let task ← k.currentTaskInfo
  let k ← (k.dropEmptyTask task).leaveTask k.runningThread
  some (k.terminate k.runningThread)

def sysDelayTicks (k : Kernel) (ticks : BitVec 32) : SysResult :=
  let k := k.setThread k.runningThread fun i => { i with sleepTicks := ticks }
  (k.prepareToWait .sleep k.runningThread .wait, .ok ())

def sysSchedYield (k : Kernel) : SysResult :=
  (k.prepareToWait .sleep k.runningThread .wait, .ok ())

/-- Anonymous pipe and join list of a new thread, made on its own memory. -/
def initThreadLists (k : Kernel) (thread : Tid) : Kernel :=
  let links := initListHead k.links (Sum.inl (SchedList.wait (.pipeRead thread)))
  let links := initListHead links (Sum.inl (SchedList.wait (.pipeWrite thread)))
  let links := initListHead links (Sum.inl (SchedList.join thread))
  { k with links }

/-- `thread_create` from the point where it has a stack for the thread. -/
def setupThread (k : Kernel) (attr : ThreadAttr) (kernelThread : Bool) (tid : Tid) : Kernel :=
  let k := k.initThreadLists tid
  let k := k.setThread tid fun _ =>
    { status := .wait
      priority := Fin.ofNat _ attr.schedPriority.toNat
      kernelThread := kernelThread
      privilege := if kernelThread then .kernelThread else .userThread
      detached := decide (attr.detachstate = pthreadCreateDetached)
      joinable := decide (attr.detachstate = pthreadCreateJoinable) }
  { k with
    bitmapThreads := Function.update k.bitmapThreads tid true
    threadsList := k.threadsList ++ [tid]
    links := listAdd k.links (Sum.inr tid) (Sum.inl SchedList.sleep) }

/-- `thread_create`. `stack` tells whether `alloc_pages` serves the stack; the slot is
zeroed before. -/
def threadCreate (k : Kernel) (attr : ThreadAttr) (kernelThread stack : Bool) :
    Kernel × Except Errno Tid :=
  if attr.Bad kernelThread then (k, .error .einval)
  else match (List.range threadMax).find? fun t => !k.bitmapThreads t with
    | none => (k, .error .eagain)
    | some tid =>
        let k := k.setThread tid fun _ => {}
        if stack then (k.setupThread attr kernelThread tid, .ok tid) else (k, .error .enomem)

/-- The thread is given to a task whose threads are now `l`. -/
def enterTask (k : Kernel) (thread : Tid) (task : Pid) (l : List Tid) : Kernel :=
  { k.setThread thread fun i => { i with task := some task } with
    taskThreads := Function.update k.taskThreads task l }

/-- `_task_create`. When no task ID is left the new thread stays, without a task. -/
def taskCreate (k : Kernel) (priority : Int) (kernelThread stack : Bool) :
    Kernel × Option Pid :=
  match k.threadCreate { schedPriority := priority } kernelThread stack with
  | (k, .error _) => (k, none)
  | (k, .ok thread) =>
      match (List.range taskMax).find? fun p => !k.bitmapTasks p with
      | none => (k, none)
      | some pid =>
          ({ k.enterTask thread pid [thread] with
              bitmapTasks := Function.update k.bitmapTasks pid true
              mainThread := Function.update k.mainThread pid thread
              tasksList := k.tasksList ++ [pid] }, some pid)

def sysPthreadCreate (k : Kernel) (attr : Option ThreadAttr) (stack : Bool) :
    Option (Kernel × Except Errno Tid) :=
  let running := k.threads k.runningThread
  let attr := attr.getD { schedPriority := running.priority.val }
  match k.threadCreate attr running.kernelThread stack with
  | (k, .error e) => some (k, .error e)
  | (k, .ok thread) => do
      let task ← running.task
      some (k.enterTask thread task (k.taskThreads task ++ [thread]), .ok thread)

/-- One pass of the loop of `sys_exit`, which does not spare the running thread. -/
def exitThread (k : Kernel) (thread : Tid) : Option Kernel := do
  let k ← k.leaveTask thread
  some ({ k with links := listDel k.links (Sum.inr thread) }.terminate thread)

/-- `sys_exit`. Its `printk` is a wake-up of its own. -/
def sysExit (k : Kernel) : Option Kernel := do
  let task ← k.currentTaskInfo
  let k ← (k.taskThreads task).foldlM exitThread k
  some (k.taskDelete task)

/-- Does the thread wait to join the caller? Threads should not join on each other. -/
def joinDeadlock (k : Kernel) (thread : Tid) : Option Bool :=
  k.forEachEntry (.join k.runningThread) (fun found check => found || decide (check = thread)) false

def sysPthreadJoin (k : Kernel) (tid : Tid) : Option SysResult :=
  match k.acquireThread tid with
  | none => some (k, .error .esrch)
  | some thread =>
      if (k.threads thread).detached ∨ (k.threads thread).joinable = false then
        some (k, .error .einval)
      else do
        let deadlock ← k.joinDeadlock thread
        if deadlock then some (k, .error .edeadlk)
        else some (k.prepareToWait (.join thread) k.runningThread .wait, .ok ())

def sysPthreadCancel (k : Kernel) (tid : Tid) : Option SysResult :=
  match k.acquireThread tid with
  | none => some (k, .error .esrch)
  | some thread =>
      if (k.threads thread).privilege = .kernelThread then some (k, .error .eperm)
      else do
        let k ← k.threadDelete thread
        some (k, .ok ())

def sysPthreadSetschedparam (k : Kernel) (tid : Tid) (schedPriority : Int) : SysResult :=
  match k.acquireThread tid with
  | none => (k, .error .esrch)
  | some thread =>
      if (k.threads thread).privilege = .kernelThread then (k, .error .eperm)
      else if schedPriority < 0 ∨ (threadPriorityMax : Int) < schedPriority then
        (k, .error .einval)
      else
        let priority : Priority := Fin.ofNat _ schedPriority.toNat
        (k.setThread thread fun i =>
          if i.priorityInherited then { i with originalPriority := priority }
          else { i with priority := priority }, .ok ())

/-- The part of `handle_signal` that ends a `sigwait`. -/
def endSigwait (k : Kernel) (thread : Tid) (signum : Signal) : Kernel :=
  if (k.threads thread).waitForSignal ∧ signum ∈ (k.threads thread).sigWaitSet then
    (k.setThread thread fun i => { i with waitForSignal := false }).finishWait thread
  else k

/-- `handle_signal`. The handler that some signals stage changes no list. -/
def handleSignal (k : Kernel) (thread : Tid) (signum : Signal) : Option Kernel :=
  let k := k.endSigwait thread signum
  match signum with
  | .stop => some (k.threadSuspend thread)
  | .cont => some (k.threadResume thread)
  | .kill => k.threadDelete thread
  | .usr1 | .usr2 | .poll => some k

/-- The loop of `sys_kill` and `sys_raise` over the threads of a task. -/
def signalTask (k : Kernel) (task : Pid) (sig : Signal) : Option Kernel :=
  (k.taskThreads task).foldlM (fun k t => k.handleSignal t sig) k

/-- `sys_pthread_kill`; `none` is a signal number that is not defined. -/
def sysPthreadKill (k : Kernel) (tid : Tid) (sig : Option Signal) : Option SysResult :=
  match k.acquireThread tid with
  | none => some (k, .error .esrch)
  | some thread =>
      if (k.threads thread).privilege = .kernelThread then some (k, .error .eperm)
      else match sig with
        | none => some (k, .error .einval)
        | some sig => do
            let k ← k.handleSignal thread sig
            some (k, .ok ())

def sysKill (k : Kernel) (pid : Pid) (sig : Option Signal) : Option SysResult :=
  match k.acquireTask pid, sig with
  | none, _ => some (k, .error .esrch)
  | some _, none => some (k, .error .einval)
  | some task, some sig => do
      let k ← k.signalTask task sig
      some (k, .ok ())

def sysRaise (k : Kernel) (sig : Option Signal) : Option SysResult :=
  match k.currentTaskInfo, sig with
  | none, _ => some (k, .error .esrch)
  | some _, none => some (k, .error .einval)
  | some task, some sig => do
      let k ← k.signalTask task sig
      some (k, .ok ())

/-- `sys_sigwait`; `none` is a set with a signal that is not defined. -/
def sysSigwait (k : Kernel) (set : Option (List Signal)) : SysResult :=
  match set with
  | none => (k, .error .einval)
  | some set =>
      let k := k.setThread k.runningThread fun i =>
        { i with sigWaitSet := set, waitForSignal := true }
      (k.prepareToWait .suspend k.runningThread .wait, .ok ())

/-- `sys_poll` up to its `schedule`, when no file has an event. -/
def sysPoll (k : Kernel) (timeout : Int) : Kernel :=
  let k := k.prepareToWait .poll k.runningThread .wait
  if 0 < timeout then
    { k.setThread k.runningThread fun i => { i with pollTimed := true } with
      timeoutList := k.timeoutList ++ [k.runningThread] }
  else k

def sysPollRet (k : Kernel) : Kernel :=
  { k.setThread k.runningThread fun i => { i with pollTimed := false } with
    timeoutList := k.timeoutList.erase k.runningThread }

def pollNotify (k : Kernel) (polls : Tid → Bool) : Option Kernel :=
  k.forEachSafe .poll fun k t => if polls t then k.finishWait t else k

/-- `thread_inherit_priority`. It does not look whether the mutex still has an owner. -/
def threadInheritPriority (k : Kernel) (mutex : Mutex) : Option Kernel :=
  if mutex.protocol ≠ .prioInherit then some k
  else do
    let owner ← mutex.owner
    let k := if (k.threads owner).priorityInherited then k else
      (k.setThread k.runningThread fun i => { i with originalPriority := i.priority }).setThread
        owner fun i => { i with priorityInherited := true }
    let oldPriority := (k.threads owner).priority
    let newPriority := (k.threads k.runningThread).priority
    if oldPriority < newPriority then do
      let k ← k.forEachSafe (.ready oldPriority) fun k t =>
        if t = owner then
          { k with links := listMove k.links (Sum.inr t) (Sum.inl (SchedList.ready newPriority)) }
        else k
      some (k.setThread owner fun i => { i with priority := newPriority })
    else some k

def threadResetInheritedPriority (k : Kernel) : Kernel :=
  k.setThread k.runningThread fun i =>
    if i.priorityInherited then
      { i with priority := i.originalPriority, priorityInherited := false }
    else i

/-- The system call event: the body runs with the privilege of the kernel. -/
def syscallHandler (k : Kernel) : Kernel :=
  k.setThread k.runningThread fun i => { i with privilege := .kernelThread }

def syscallReturnEventHandler (k : Kernel) : Kernel :=
  k.setThread k.runningThread fun i =>
    { i with privilege := if i.kernelThread then .kernelThread else .userThread }

def threadReturnEventHandler (k : Kernel) : Option Kernel := do
  let task ← k.currentTaskInfo
  if k.runningThread = k.mainThread task then k.sysExit else k.threadJoinHandler

/-- Memory before `sched_start` creates its threads. The static heads are linked to
themselves; those of the wait queues are initialised with their objects. -/
def reset : Kernel where
  links := { next := id, prev := id }
  threads _ := {}
  runningThread := 0
  bitmapThreads _ := false
  threadsList := []
  bitmapTasks _ := false
  tasksList := []
  taskThreads _ := []
  mainThread _ := 0
  timeoutList := []

def kthreadCreate (k : Kernel) (priority : Int) : Kernel := (k.taskCreate priority true true).1

/-- `sched_start` up to its loop: idle, softirqd, filesysd and printkd are created and
the first one runs. -/
def schedStart : Kernel :=
  let k := reset.kthreadCreate 0
  let k := k.kthreadCreate kthreadPriMax
  let k := k.kthreadCreate (kthreadPriMax - 1)
  let k := k.kthreadCreate (kthreadPriMax - 1)
  let k := { k with runningThread := 0 }.setStatus 0 .running
  { k with links := listDel k.links (Sum.inr 0) }

end Kernel

end Tenok
