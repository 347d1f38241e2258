import Tenok.Kernel.Parked

/-!
`poll`. A `struct file` has one list node, which `sys_poll` links into the list of its own
thread whether or not the node is on the list of another one. What `poll_notify` finds
there depends on these links, so they are part of the state beside the kernel.
-/
namespace Tenok
open Ring

/-- `poll_files_list` of a thread, or `list` of a file. -/
abbrev PollNode := Tid ⊕ File

structure PollFd where
  fd : Int
  events : BitVec 16
  revents : BitVec 16 := 0#16

def PollFd.hasEvent (f : PollFd) (events : Word) : Bool :=
  ~~~(f.events.signExtend 32) &&& events != 0#32

structure PollSys where
  kernel : Kernel
  files : Cells PollNode
  fEvents : File → Word
  /-- There is no file behind most numbers. -/
  fdtable : Int → Option File
  /-- The files of a thread that is inside the `schedule` of `sys_poll`. -/
  polled : Tid → Option (List File)

inductive PollEvent
  | poll (fds : List PollFd) (timeout : Int)
  /-- `sys_poll` goes on after its `schedule`. -/
  | pollRet
  /-- The end of `fifo_read` and `fifo_write`, whose `poll_notify` follows this many links
  in a list of files. -/
  | fifoEvents (filp : File) (flag : Word) (ready : Bool) (fuel : Nat)
  /-- A `struct file` is set up. -/
  | initFile (filp : File)
  | setFd (fd : Int) (filp : Option File)
  | kernel (e : KernelEvent)

def KernelEvent.hasFiles : KernelEvent → Bool
  | .call (.poll _) | .pollRet | .pollNotify _ => true
  | _ => false

/-- The events that are steps of the running thread's code. -/
def KernelEvent.byThread : KernelEvent → Bool
  | .call _ | .syscallHandler | .threadReturn => true
  | _ => false

namespace PollSys

def filps (p : PollSys) (fds : List PollFd) : Option (List File) :=
  fds.mapM fun f => p.fdtable (f.fd - fileReservedNum)

def noEvent (p : PollSys) (fds : List PollFd) (filps : List File) : Bool :=
  (fds.zip filps).all fun (f, filp) => !f.hasEvent (p.fEvents filp)

def returnEvents (p : PollSys) (f : PollFd) (filp : File) : PollFd :=
  { f with revents := f.revents ||| (p.fEvents filp).truncate 16 }

def recordFiles (files : Cells PollNode) (thread : Tid) (filps : List File) : Cells PollNode :=
  filps.foldl (fun s filp => listAdd s (.inr filp) (.inl thread)) files

/-- `sys_poll` up to its `schedule`. The result is `none` if it gets there. -/
def sysPoll (p : PollSys) (fds : List PollFd) (timeout : Int) :
    Option (PollSys × Option Int × List PollFd) := do
  let thread := p.kernel.runningThread
  let p := { p with files := initListHead p.files (.inl thread) }
  let filps ← p.filps fds
  let fds' := List.zipWith p.returnEvents fds filps
  if !p.noEvent fds filps then some (p, some 0, fds')
  else if timeout = 0 then some (p, some (-1), fds')
  else
    some ({ p with
      kernel := p.kernel.sysPoll timeout
      files := recordFiles p.files thread filps
      polled := Function.update p.polled thread (some filps) }, none, fds')

def sysPollRet (p : PollSys) : PollSys :=
  let thread := p.kernel.runningThread
  { p with
    kernel := if (p.kernel.threads thread).pollTimed then p.kernel.sysPollRet else p.kernel
    files := initListHead p.files (.inl thread)
    polled := Function.update p.polled thread none }

/-- The loop of `poll_notify` over the files of a thread. -/
def notifyThread (p : PollSys) (fuel : Nat) (notifyFile : File) (k : Kernel) (thread : Tid) :
    Option Kernel :=
  (listForEach (fun _ : Kernel => p.files) (.inl thread)
    (fun k file => (.inl (if file = .inr notifyFile then k.finishWait thread else k) : _ ⊕ Unit))
    fuel k (next p.files (.inl thread))).bind Sum.getLeft?

def pollNotify (p : PollSys) (fuel : Nat) (notifyFile : File) : Option PollSys :=
  (p.kernel.forEachSafeM .poll (p.notifyThread fuel notifyFile)).map fun kernel =>
    { p with kernel }

/-- The end of `fifo_read`, with `POLLOUT`, and of `fifo_write`, with `POLLIN`. -/
def fifoEvents (p : PollSys) (filp : File) (flag : Word) (ready : Bool) (fuel : Nat) :
    Option PollSys :=
  if ready then
    { p with fEvents := Function.update p.fEvents filp (p.fEvents filp ||| flag) }.pollNotify fuel
      filp
  else some { p with fEvents := Function.update p.fEvents filp (p.fEvents filp &&& ~~~flag) }

/-- `INIT_LIST_HEAD` in `thread_create`, for the threads that are new. -/
def initHeads (files : Cells PollNode) (k k' : Kernel) : Cells PollNode :=
  (List.range threadMax).foldl (fun s t =>
    if !k.bitmapThreads t && k'.bitmapThreads t then initListHead s (.inl t) else s) files

def runKernel (p : PollSys) (k : Kernel) : PollSys :=
  { p with
    kernel := k
    files := initHeads p.files p.kernel k
    polled := fun t => if k.bitmapThreads t then p.polled t else none }

def InPoll (p : PollSys) : Prop := (p.polled p.kernel.runningThread).isSome = true

instance decidableInPoll (p : PollSys) : Decidable p.InPoll := inferInstanceAs (Decidable (_ = _))

def step (p : PollSys) : PollEvent → Option PollSys
  | .poll fds timeout =>
      if p.kernel.InCall ∧ ¬ p.InPoll then (p.sysPoll fds timeout).map Prod.fst else none
  | .pollRet =>
      if (p.kernel.threads p.kernel.runningThread).status = .running ∧ p.InPoll then
        some p.sysPollRet
      else none
  | .fifoEvents filp flag ready fuel =>
      if p.InPoll then none else p.fifoEvents filp flag ready fuel
  | .initFile filp => some { p with fEvents := Function.update p.fEvents filp 0#32 }
  | .setFd fd filp => some { p with fdtable := Function.update p.fdtable fd filp }
  | .kernel e =>
      if e.hasFiles ∨ (e.byThread ∧ p.InPoll) then none else (p.kernel.step e).map p.runKernel

/-- The files that the walk over a `poll_files_list` meets when these were added one after
another, and whether it stays at the last one. Adding a file again takes those behind it
off the walk, and a file that is added twice in a row links to itself. -/
def walkOf (filps : List File) : List File × Bool :=
  filps.foldl (fun (walk, _) filp =>
    (walk.takeWhile (· ≠ filp) ++ [filp], decide (walk.getLast? = some filp))) ([], false)

def blocksOn (p : PollSys) (fds : List PollFd) (timeout : Int) : Option (List File) :=
  (p.filps fds).filter fun filps => p.noEvent fds filps && timeout ≠ 0

/-- Every file of the array is on the walk, which ends, and no thread on the poll list
polls one of them. -/
def PollOk (p : PollSys) (filps : List File) : Prop :=
  ((walkOf filps).2 = false ∧ ∀ f ∈ filps, f ∈ (walkOf filps).1) ∧
    ∀ t ∈ p.kernel.members .poll, ∀ f ∈ (p.polled t).getD [], f ∉ filps

instance decidablePollOk (p : PollSys) (filps : List File) : Decidable (p.PollOk filps) :=
  inferInstanceAs (Decidable ((_ ∧ ∀ f ∈ _, _) ∧ ∀ t ∈ _, ∀ f ∈ _, _))

/-- The scheduling lists stay well formed, and a `sys_poll` that blocks meets `PollOk`. -/
def EventOk (p : PollSys) : PollEvent → Prop
  | .poll fds timeout =>
      ∀ filps ∈ p.blocksOn fds timeout, p.kernel.Unqueued ∧ p.PollOk filps
  | .kernel e => p.kernel.EventOk e ∧ p.kernel.TaskletOk e
  | _ => True

instance decidableEventOk (p : PollSys) : (e : PollEvent) → Decidable (p.EventOk e)
  | .poll _ _ => inferInstanceAs (Decidable (∀ filps ∈ _, _ ∧ _))
  | .kernel _ => inferInstanceAs (Decidable (_ ∧ _))
  | .pollRet | .fifoEvents _ _ _ _ | .initFile _ | .setFd _ _ => inferInstanceAs (Decidable True)

/-- The kernel threads that `sched_start` creates, and files with anything in their nodes. -/
def start (files : Cells PollNode) (fEvents : File → Word) (fdtable : Int → Option File) :
    PollSys where
  kernel := Kernel.schedStart
  files := files
  fEvents := fEvents
  fdtable := fdtable
  polled _ := none

end PollSys

end Tenok
