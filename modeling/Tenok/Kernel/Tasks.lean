import Mathlib.Data.Set.Basic
import Tenok.Kernel.Books
import Tenok.Kernel.MqueueOpen

/-!
Tasks with the descriptors of files and message queues that they hold. A task is removed
with its last thread, and its descriptors go with it.
-/
namespace Tenok
open Ring

def openMax : Nat := 100

/-- The bitmap of the descriptors in use and those of the tasks. -/
structure DescTable where
  bitmap : Nat → Bool
  held : Pid → Nat → Bool

namespace DescTable

def setBit (t : DescTable) (task : Pid) (d : Nat) (b : Bool) : DescTable where
  bitmap := Function.update t.bitmap d b
  held := Function.update t.held task (Function.update (t.held task) d b)

def firstZero (t : DescTable) (max : Nat) : Option Nat :=
  (List.range max).find? fun d => !t.bitmap d

def valid (t : DescTable) (task : Pid) (d : Nat) : Bool := t.bitmap d && t.held task d

def taskDelete (t : DescTable) (task : Pid) : DescTable :=
  { t with bitmap := fun d => t.bitmap d && !t.held task d }

def taskCreate (t : DescTable) (task : Pid) : DescTable :=
  { t with held := Function.update t.held task fun _ => false }

/-- Every descriptor in use is held by exactly one of the tasks. -/
structure Owned (t : DescTable) (S : Set Pid) : Prop where
  holder : ∀ d, t.bitmap d = true → ∃ p ∈ S, t.held p d = true
  unique : ∀ p ∈ S, ∀ q ∈ S, ∀ d, t.held p d = true → t.held q d = true → p = q
  inUse : ∀ p ∈ S, ∀ d, t.held p d = true → t.bitmap d = true

end DescTable

structure TaskSys where
  kernel : Kernel
  fds : DescTable
  mqds : DescTable

inductive TaskEvent
  | kernel (e : KernelEvent)
  /-- `sys_open` after the reply of the file system daemon. -/
  | openFile (found hasOpen : Bool)
  | close (fd : Nat)
  | dup (oldfd : Nat)
  /-- `sys_mq_open`: the name is known, and there is memory for a new queue. -/
  | mqOpen (found memory : Bool) (oflag : Word)
  | mqClose (mqdes : Nat)

namespace TaskSys

def sysOpen (s : TaskSys) (task : Pid) (found hasOpen : Bool) : TaskSys × Except Errno Nat :=
  if !found then (s, .error .enoent)
  else match s.fds.firstZero openMax with
    | none => (s, .error .enomem)
    | some d =>
        let fds := s.fds.setBit task d true
        if !hasOpen then ({ s with fds := fds.setBit task d false }, .error .enxio)
        else ({ s with fds }, .ok (d + fileReservedNum))

def sysClose (s : TaskSys) (task : Pid) (fd : Nat) : TaskSys × Except Errno Unit :=
  if fd < fileReservedNum then (s, .error .ebadf)
  else if !s.fds.valid task (fd - fileReservedNum) then (s, .error .ebadf)
  else ({ s with fds := s.fds.setBit task (fd - fileReservedNum) false }, .ok ())

def sysDup (s : TaskSys) (task : Pid) (oldfd : Nat) : TaskSys × Except Errno Nat :=
  if oldfd < fileReservedNum then (s, .error .ebadf)
  else if !s.fds.valid task (oldfd - fileReservedNum) then (s, .error .ebadf)
  else match s.fds.firstZero openMax with
    | none => (s, .error .enomem)
    | some d => ({ s with fds := s.fds.setBit task d true }, .ok (d + fileReservedNum))

def sysMqOpen (s : TaskSys) (task : Pid) (found memory : Bool) (oflag : Word) :
    TaskSys × Except Errno Nat :=
  match s.mqds.firstZero mqueueMax with
  | none => (s, .error .enomem)
  | some d =>
      if found then
        if oflag &&& oCreat ≠ 0#32 ∧ oflag &&& oExcl ≠ 0#32 then (s, .error .eexist)
        else ({ s with mqds := s.mqds.setBit task d true }, .ok d)
      else if oflag &&& oCreat = 0#32 then (s, .error .enoent)
      else if !memory then (s, .error .enomem)
      else ({ s with mqds := s.mqds.setBit task d true }, .ok d)

def sysMqClose (s : TaskSys) (task : Pid) (mqdes : Nat) : TaskSys × Except Errno Unit :=
  if !s.mqds.valid task mqdes then (s, .error .ebadf)
  else ({ s with mqds := s.mqds.setBit task mqdes false }, .ok ())

/-- The bitmaps after a step of the kernel: `task_delete` is what takes tasks off
`tasks_list`, and `_task_create` what puts them there. -/
def tables (k k' : Kernel) (t : DescTable) : DescTable :=
  let gone := k.tasksList.filter (· ∉ k'.tasksList)
  let created := k'.tasksList.filter (· ∉ k.tasksList)
  created.foldl DescTable.taskCreate (gone.foldl DescTable.taskDelete t)

/-- A call on descriptors by a thread of this task. -/
def call (s : TaskSys) (task : Pid) : TaskEvent → Option TaskSys
  | .kernel _ => none
  | .openFile found hasOpen => some (s.sysOpen task found hasOpen).1
  | .close fd => some (s.sysClose task fd).1
  | .dup oldfd => some (s.sysDup task oldfd).1
  | .mqOpen found memory oflag => some (s.sysMqOpen task found memory oflag).1
  | .mqClose mqdes => some (s.sysMqClose task mqdes).1

def step (s : TaskSys) : TaskEvent → Option TaskSys
  | .kernel e => (s.kernel.step e).map fun kernel =>
      { kernel, fds := tables s.kernel kernel s.fds, mqds := tables s.kernel kernel s.mqds }
  | e =>
      if s.kernel.Executing ∧ (s.kernel.threads s.kernel.runningThread).privilege = .kernelThread
      then s.kernel.currentTaskInfo.bind fun task => s.call task e
      else none

/-- The kernel threads run, and no descriptor is open. -/
def start : TaskSys where
  kernel := Kernel.schedStart
  fds := { bitmap := fun _ => false, held := fun _ _ => false }
  mqds := { bitmap := fun _ => false, held := fun _ _ => false }

/-- A task is marked while it has a live thread, listed while it is marked, and only
listed tasks hold descriptors. -/
structure Reclaimed (s : TaskSys) : Prop where
  marked : ∀ pid, s.kernel.bitmapTasks pid = true ↔
    ∃ t ∈ s.kernel.taskThreads pid, s.kernel.Alive t
  listed : ∀ pid, pid ∈ s.kernel.tasksList ↔ s.kernel.bitmapTasks pid = true
  fds : s.fds.Owned {pid | pid ∈ s.kernel.tasksList}
  mqds : s.mqds.Owned {pid | pid ∈ s.kernel.tasksList}

/-- The descriptors of the tasks that the step removes are free afterwards. -/
def Cleared (s s' : TaskSys) : Prop :=
  ∀ pid ∈ s.kernel.tasksList, pid ∉ s'.kernel.tasksList → ∀ d,
    (s.fds.held pid d = true → s'.fds.bitmap d = false) ∧
    (s.mqds.held pid d = true → s'.mqds.bitmap d = false)

end TaskSys

namespace Kernel

/-- The thread that makes a call has not been ended. -/
def CallerAlive (k : Kernel) : KernelEvent → Prop
  | .call _ | .threadReturn => k.Alive k.runningThread
  | _ => True

instance decidableCallerAlive (k : Kernel) : (e : KernelEvent) → Decidable (k.CallerAlive e)
  | .call _ | .threadReturn => k.decidableAlive k.runningThread
  | .pollRet | .syscallHandler | .syscallReturn | .wakeUp _ | .wakeUpAll _ | .fifoWakeUp _ _
  | .pollNotify _ | .taskletSchedule _ | .inheritPriority _ | .resetInheritedPriority
  | .systemTicks _ | .schedule => inferInstanceAs (Decidable True)

/-- The thread that is to end is not the last one of another task: `thread_delete` looks
at the threads of the caller's task. -/
def DeleteOk (k : Kernel) (tid : Tid) : Prop :=
  k.Receives tid → ∀ task ∈ (k.threads tid).task, k.taskThreads task = [tid] →
    k.currentTaskInfo = some task

/-- The thread that ends is not the last one of its task: `thread_join_handler` looks for
other threads before it takes the caller off the list. -/
def JoinHandlerOk (k : Kernel) : Prop :=
  ∀ task ∈ k.currentTaskInfo, k.taskThreads task ≠ [k.runningThread]

instance decidableDeleteOk (k : Kernel) (tid : Tid) : Decidable (k.DeleteOk tid) :=
  inferInstanceAs (Decidable (_ → ∀ task ∈ _, _ → _))

instance decidableJoinHandlerOk (k : Kernel) : Decidable k.JoinHandlerOk :=
  inferInstanceAs (Decidable (∀ task ∈ _, _))

def LastCallOk (k : Kernel) : KernelCall → Prop
  | .pthreadExit => k.JoinHandlerOk
  | .pthreadCancel tid | .pthreadKill tid (some .kill) => k.DeleteOk tid
  | .kill pid (some .kill) => pid ∈ k.tasksList → k.currentTaskInfo = some pid
  | _ => True

/-- The thread that makes a call has not been ended, and no last thread is ended in a way
that leaves its task behind. -/
def LastOk (k : Kernel) : KernelEvent → Prop
  | .call c => k.Alive k.runningThread ∧ k.LastCallOk c
  | .threadReturn => k.Alive k.runningThread ∧
      (k.currentTaskInfo.map k.mainThread = some k.runningThread ∨ k.JoinHandlerOk)
  | _ => True

instance decidableLastCallOk (k : Kernel) : (c : KernelCall) → Decidable (k.LastCallOk c)
  | .pthreadExit => k.decidableJoinHandlerOk
  | .pthreadCancel tid | .pthreadKill tid (some .kill) => k.decidableDeleteOk tid
  | .kill _ (some .kill) => inferInstanceAs (Decidable (_ → _))
  | .pthreadKill _ none | .pthreadKill _ (some .usr1) | .pthreadKill _ (some .usr2)
  | .pthreadKill _ (some .poll) | .pthreadKill _ (some .stop) | .pthreadKill _ (some .cont)
  | .kill _ none | .kill _ (some .usr1) | .kill _ (some .usr2) | .kill _ (some .poll)
  | .kill _ (some .stop) | .kill _ (some .cont) | .delayTicks _ | .schedYield | .wait _
  | .fifoWait _ _ | .initQueue _ | .poll _ | .sigwait _ | .pthreadJoin _ | .pthreadDetach _
  | .exit | .raise _ | .pthreadCreate _ _ | .taskCreate _ _ _ | .pthreadSetschedparam _ _ =>
      inferInstanceAs (Decidable True)

instance decidableLastOk (k : Kernel) : (e : KernelEvent) → Decidable (k.LastOk e)
  | .call c => @instDecidableAnd _ _ _ (k.decidableLastCallOk c)
  | .threadReturn => inferInstanceAs (Decidable (_ ∧ (_ ∨ _)))
  | .pollRet | .syscallHandler | .syscallReturn | .wakeUp _ | .wakeUpAll _ | .fifoWakeUp _ _
  | .pollNotify _ | .taskletSchedule _ | .inheritPriority _ | .resetInheritedPriority
  | .systemTicks _ | .schedule => inferInstanceAs (Decidable True)

end Kernel

namespace TaskSys

def TaskOk (s : TaskSys) : TaskEvent → Prop
  | .kernel e => s.kernel.LastOk e
  | _ => s.kernel.Alive s.kernel.runningThread

instance decidableTaskOk (s : TaskSys) : (e : TaskEvent) → Decidable (s.TaskOk e)
  | .kernel e => s.kernel.decidableLastOk e
  | .openFile _ _ | .close _ | .dup _ | .mqOpen _ _ _ | .mqClose _ =>
      inferInstanceAs (Decidable (s.kernel.Alive _))

end TaskSys

end Tenok
