import Tenok.Common.Bitops
import Tenok.Common.List

/-!
Threads and the lists they are scheduled with. The node `thread_info.list` of each
thread and the heads of the lists it can be on share one store of links, on which
the kernel works with the operations of `list.h` only. The lists of all threads, of
a task's threads and of threads with a timeout have nodes of their own and never
touch these links; they are kept as sequences. `none` is a fault: a pointer that is
not one is followed, or a loop does not come back to its head.
-/
namespace Tenok
open Ring

abbrev Tid := Nat
abbrev Pid := Nat

def threadMax : Nat := 64
def taskMax : Nat := 64
def threadPriorityMax : Nat := 8
def signalQueueSize : Nat := 5

abbrev File := Nat

def fileReservedNum : Nat := threadMax + 3

/-- `THREAD_PRIORITY_MAX + PRI_RESERVED`. -/
def kthreadPriMax : Nat := threadPriorityMax + 2

/-- An index of `ready_list`: every assignment to a priority is range checked. -/
abbrev Priority := Fin (kthreadPriMax + 1)

instance (priority := 2000) : @NeZero Nat Zero.ofOfNat0 (kthreadPriMax + 1) := ⟨Nat.succ_ne_zero _⟩

inductive ThreadStatus
  | wait
  | ready
  | running
  | suspended
  | terminated
  deriving DecidableEq, Repr

inductive Privilege
  | kernelThread
  | userThread
  deriving DecidableEq, Repr

inductive Signal
  | usr1
  | usr2
  | poll
  | stop
  | cont
  | kill
  deriving DecidableEq, Repr

inductive Errno
  | eperm
  | esrch
  | eagain
  | enomem
  | ebusy
  | einval
  | edeadlk
  | enoent
  | enametoolong
  | enxio
  | ebadf
  | eexist
  | emsgsize
  | eoverflow
  /-- Not for the caller: the thread was queued and the call is to be made again. -/
  | erestartsys
  deriving DecidableEq, Repr

/-! `fcntl.h`. The last two are the same bit. -/

def oRdonly : Word := 0#32
def oWronly : Word := 1#32
def oRdwr : Word := 2#32
def oCreat : Word := 0x200#32
def oExcl : Word := 0x800#32
def oNonblock : Word := 0x800#32

/-- The heads handed to `prepare_to_wait`, by the object they are part of. The pipes
are the anonymous ones, which live on the stack of their thread. -/
inductive WaitQueue
  | mutex (m : Nat)
  | cond (c : Nat)
  | semaphore (s : Nat)
  | mqueueRead (q : Nat)
  | mqueueWrite (q : Nat)
  | fifoRead (f : Nat)
  | fifoWrite (f : Nat)
  | pipeRead (thread : Tid)
  | pipeWrite (thread : Tid)
  | once (o : Nat)
  | driver (d : Nat)
  deriving DecidableEq, Repr

/-- The heads of the lists that `thread_info.list` can be on. -/
inductive SchedList
  | ready (p : Priority)
  | sleep
  | suspend
  | poll
  | wait (q : WaitQueue)
  | join (thread : Tid)
  deriving DecidableEq, Repr

/-- The thread that a head is part of. -/
def SchedList.owner : SchedList → Option Tid
  | .join t | .wait (.pipeRead t) | .wait (.pipeWrite t) => some t
  | _ => none

/-- A `struct list_head`: the head of a list or the `list` field of a thread. -/
abbrev ListNode := SchedList ⊕ Tid

structure ThreadInfo where
  status : ThreadStatus := .wait
  priority : Priority := 0
  originalPriority : Priority := 0
  priorityInherited : Bool := false
  sleepTicks : BitVec 32 := 0#32
  task : Option Pid := none
  kernelThread : Bool := false
  privilege : Privilege := .kernelThread
  detached : Bool := false
  joinable : Bool := false
  fileRequestSize : Nat := 0
  sigWaitSet : List Signal := []
  waitForSignal : Bool := false
  /-- The thread is inside `sys_poll` with its node on `timeout_list`. -/
  pollTimed : Bool := false

structure Kernel where
  links : Cells ListNode
  threads : Tid → ThreadInfo
  runningThread : Tid
  bitmapThreads : Tid → Bool
  threadsList : List Tid
  bitmapTasks : Pid → Bool
  tasksList : List Pid
  taskThreads : Pid → List Tid
  mainThread : Pid → Tid
  timeoutList : List Tid

namespace Kernel

def setThread (k : Kernel) (t : Tid) (f : ThreadInfo → ThreadInfo) : Kernel :=
  { k with threads := Function.update k.threads t (f (k.threads t)) }

def setStatus (k : Kernel) (t : Tid) (state : ThreadStatus) : Kernel :=
  k.setThread t fun i => { i with status := state }

def listEntry : ListNode → Option Tid
  | .inr t => some t
  | .inl _ => none

/-- Every list visits `threadMax` threads at most before it is back at its head. -/
def loopBound : Nat := threadMax + 1

/-- `list_for_each_safe` over the threads of a scheduling list. -/
def forEachSafe (k : Kernel) (h : SchedList) (body : Kernel → Tid → Kernel) : Option Kernel :=
  let first := next k.links (.inl h)
  listForEachSafe Kernel.links (.inl h) (fun k pos => (listEntry pos).map (body k)) loopBound k
    first (next k.links first)

/-- The same with a body that need not return. -/
def forEachSafeM (k : Kernel) (h : SchedList) (body : Kernel → Tid → Option Kernel) :
    Option Kernel :=
  let first := next k.links (.inl h)
  listForEachSafe Kernel.links (.inl h) (fun k pos => (listEntry pos).bind (body k)) loopBound k
    first (next k.links first)

/-- A loop body on threads as one on nodes, which faults at a head. -/
def onEntry {τ : Type} (body : τ → Tid → τ) (acc : τ) (pos : ListNode) : τ ⊕ Unit :=
  match listEntry pos with
  | some t => .inl (body acc t)
  | none => .inr ()

/-- `list_for_each_entry` over the threads of a scheduling list. -/
def forEachEntry {τ : Type} (k : Kernel) (h : SchedList) (body : τ → Tid → τ) (init : τ) :
    Option τ :=
  (listForEach (fun _ => k.links) (.inl h) (onEntry body) loopBound init
    (next k.links (.inl h))).bind Sum.getLeft?

def prepareToWait (k : Kernel) (waitList : SchedList) (thread : Tid) (state : ThreadStatus) :
    Kernel :=
  { k with links := listAdd k.links (Sum.inr thread) (Sum.inl waitList) }.setStatus thread state

/-- The move to the ready list that all wake-ups end in. -/
def makeReady (k : Kernel) (thread : Tid) : Kernel :=
  let readyList := SchedList.ready (k.threads thread).priority
  { k with links := listMove k.links (Sum.inr thread) (Sum.inl readyList) }.setStatus thread .ready

def finishWait (k : Kernel) (thread : Tid) : Kernel :=
  if thread ≠ k.runningThread then k.makeReady thread else k

/-- The first of the threads with the highest priority. -/
def higher (k : Kernel) (highest thread : Tid) : Tid :=
  if (k.threads highest).priority < (k.threads thread).priority then thread else highest

def wakeUp (k : Kernel) (waitList : SchedList) : Option Kernel :=
  if listEmpty k.links (.inl waitList) then some k
  else do
    let first ← listEntry (next k.links (.inl waitList))
    let highest ← k.forEachEntry waitList k.higher first
    some (k.makeReady highest)

def wakeUpAll (k : Kernel) (waitList : SchedList) : Option Kernel :=
  k.forEachSafe waitList makeReady

/-- In `fifo_wake_up` only threads whose request fits are candidates. -/
def fifoHigher (k : Kernel) (availSize : Nat) (highest : Option Tid) (thread : Tid) : Option Tid :=
  if (k.threads thread).fileRequestSize ≤ availSize then
    some (highest.elim thread fun u => k.higher u thread)
  else highest

def fifoWakeUp (k : Kernel) (waitList : SchedList) (availSize : Nat) : Option Kernel := do
  let highest ← k.forEachEntry waitList (k.fifoHigher availSize) none
  some (highest.elim k k.finishWait)

def threadSuspend (k : Kernel) (thread : Tid) : Kernel :=
  if (k.threads thread).status = .suspended then k
  else k.prepareToWait .suspend thread .suspended

def threadResume (k : Kernel) (thread : Tid) : Kernel :=
  if (k.threads thread).status ≠ .suspended then k else k.makeReady thread

/-- `__schedule` stops the current thread unless it has queued itself. -/
def stopRunning (k : Kernel) : Kernel :=
  if (k.threads k.runningThread).status = .running then
    k.prepareToWait .sleep k.runningThread .wait
  else k

def wakeSleepers (k : Kernel) : Option Kernel :=
  k.forEachSafe .sleep fun k t => if (k.threads t).sleepTicks = 0#32 then k.makeReady t else k

/-- The ready list to serve. With no ready thread the loop of the source ends at -1 and
the index is out of range. -/
def highestReady (k : Kernel) : Option Priority :=
  (List.finRange (kthreadPriMax + 1)).reverse.find? fun p => !listEmpty k.links (.inl (.ready p))

/-- `__schedule`. The signal that `check_pending_signals` may stage changes no list. -/
def schedule (k : Kernel) : Option Kernel := do
  let k ← k.stopRunning.wakeSleepers
  let pri ← k.highestReady
  let thread ← listEntry (next k.links (.inl (.ready pri)))
  let k := { k with runningThread := thread }.setStatus thread .running
  some { k with links := listDel k.links (Sum.inr thread) }

def threadsTicksUpdate (k : Kernel) : Option Kernel := do
  let threads ← k.forEachEntry .sleep (fun threads t =>
    let i : ThreadInfo := threads t
    Function.update threads t
      (if 0#32 < i.sleepTicks then { i with sleepTicks := i.sleepTicks - 1#32 } else i)) k.threads
  some { k with threads }

def syscallTimeoutUpdate (k : Kernel) (expired : Tid → Bool) : Kernel :=
  k.timeoutList.foldl (fun k t => if expired t then k.finishWait t else k) k

def systemTicksUpdate (k : Kernel) (expired : Tid → Bool) : Option Kernel := do
  let k ← k.threadsTicksUpdate
  some (k.syscallTimeoutUpdate expired)

end Kernel

end Tenok
