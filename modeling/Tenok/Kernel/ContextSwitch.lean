import Tenok.Kernel.ContextFrames

/-!
Threads on one processor. The kernel loop jumps to a thread, and an exception brings it back
with the registers of the thread on the stack of the thread; system calls and the handlers of
signals run on top of what is saved there. `pthread_once`, the end of a thread inside of its own
system call and the signals that are pending are left out, and so are exceptions that return to
the thread that they interrupt.
-/
namespace Tenok

attribute [local instance] neZero_args

/-- What `jump_to_thread` saves of the kernel, on the main stack. -/
structure KernelRegs where
  r4to11 : Fin 8 → Word
  psr : Word
  lr : Word

/-! The numbers that `gen-syscalls.py` gives. -/

def syscallCnt : Nat := 66
def syscallReturnEvent : Nat := 67
def signalCleanupEvent : Nat := 68

/-- The addresses of functions: the ones in `syscall_table` by their numbers, and the handlers
that functions on top of a saved frame return to. -/
structure KernelCode where
  handlerFunc : Nat → Word
  syscallReturnHandler : Word
  signalCleanupHandler : Word
  threadReturnHandler : Word

/-- What `struct thread_info` has about the stack. -/
structure SwitchThread where
  stack : Nat
  stackSize : Nat
  stackTop : Nat
  stackTopPreserved : Nat := 0
  syscallArgs : Fin 4 → Nat := fun _ => 0
  syscallStackTop : Nat := 0
  syscallMode : Bool := false
  kernelThread : Bool
  privilege : Privilege

/-- The processor executes a thread, with the privilege in `control`, or the kernel loop. -/
inductive Cpu
  | thread (regs : Context) (control : Privilege)
  | kernel (regs : KernelRegs)

structure SwitchSys where
  mem : Nat → Word
  mainStack : Nat
  mainStackEnd : Nat
  msp : Nat
  cpu : Cpu
  syscallFlag : Bool
  runningThread : Tid
  threads : Tid → Option SwitchThread

/-- A stack for `thread_create`, from the top of which the pipe and the signal queue are taken. -/
structure NewThread where
  stack : Nat
  stackSize : Nat
  stackTop : Nat
  func : Word
  arg : Word
  kernelThread : Bool

namespace NewThread

def thread (new : NewThread) : SwitchThread where
  stack := new.stack
  stackSize := new.stackSize
  stackTop := new.stackTop
  kernelThread := new.kernelThread
  privilege := if new.kernelThread then .kernelThread else .userThread

def args (new : NewThread) (i : Fin 4) : Word := if i = 0 then new.arg else 0#32

end NewThread

inductive SwitchEvent
  /-- Instructions of the running thread, with the registers after them. -/
  | execute (regs : Context) (writes : List (Nat × Word))
  /-- `SAVE_SYSCALL_RETVAL` at the end of a system call. -/
  | saveRetval
  | svc
  | pendSv
  /-- `syscall_handler`, if the flag is set. -/
  | serve
  /-- `__schedule` picks the thread, of which this is the oldest pending signal. -/
  | schedule (t : Tid) (signal : Option StagedHandlerInfo)
  /-- `jump_to_thread`, with the registers of the kernel at that time. -/
  | jump (regs : KernelRegs)
  | create (t : Tid) (new : NewThread)
  | delete (t : Tid)

namespace SwitchThread

def syscallReturnEventHandler (t : SwitchThread) : SwitchThread :=
  { t with
    stackTop := t.syscallStackTop
    privilege := if t.kernelThread then .kernelThread else .userThread
    syscallMode := false }

def signalCleanupEventHandler (t : SwitchThread) : SwitchThread :=
  { t with stackTop := t.stackTopPreserved, stackTopPreserved := 0 }

end SwitchThread

namespace SwitchSys

def setThread (s : SwitchSys) (t : Tid) (thread : SwitchThread) : SwitchSys :=
  { s with threads := Function.update s.threads t (some thread) }

/-- `push {r4-r11, ip, lr}`. -/
def kernelWords (regs : KernelRegs) : List Word := List.ofFn regs.r4to11 ++ [regs.psr, regs.lr]

/-- `pop {r4-r11, ip, lr}`. -/
def loadKernelState (mem : Nat → Word) (msp : Nat) : KernelRegs where
  r4to11 i := mem (msp + i)
  psr := mem (msp + 8)
  lr := mem (msp + 9)

/-- `PendSV_Handler`, which returns from `jump_to_thread` with the new top of the stack. -/
def pendSvHandler (s : SwitchSys) : Option SwitchSys :=
  match s.cpu, s.threads s.runningThread with
  | .thread regs _, some t =>
      let (stackTop, mem) := saveUserState regs s.mem
      some { s.setThread s.runningThread { t with stackTop } with
        mem
        msp := s.msp + 10
        cpu := .kernel (loadKernelState mem s.msp) }
  | _, _ => none

def svcHandler (s : SwitchSys) : Option SwitchSys :=
  s.pendSvHandler.map fun s => { s with syscallFlag := true }

def stage (s : SwitchSys) (u : Tid) (t : SwitchThread) (func returnHandler : Word)
    (args : Fin 4 → Word) : SwitchSys :=
  let (stackTop, mem) := stackInit t.stackTop func returnHandler args s.mem
  { s.setThread u { t with stackTop } with mem }

/-- What `syscall_handler` does with a number in the table. -/
def setupSyscall (code : KernelCode) (s : SwitchSys) (t : SwitchThread) (num : Nat) : SwitchSys :=
  if t.syscallMode then s
  else
    let syscallArgs := getSyscallArgs s.mem t.stackTop
    s.stage s.runningThread { t with
      syscallArgs
      syscallStackTop := t.stackTop
      privilege := .kernelThread
      syscallMode := true } (code.handlerFunc num) code.syscallReturnHandler
      fun i => s.mem (syscallArgs 0 + i)

/-- The two return handlers are reached from the end of what returns to them only. -/
def syscallHandler (code : KernelCode) (s : SwitchSys) : Option SwitchSys :=
  match s.threads s.runningThread with
  | none => none
  | some t =>
      let num := (getSyscallNum s.mem t.stackTop).toNat
      if num = 0 then some s
      else if num = syscallReturnEvent then
        if t.syscallMode then some (s.setThread s.runningThread t.syscallReturnEventHandler)
        else none
      else if num = signalCleanupEvent then
        if t.syscallMode = false ∧ t.stackTopPreserved ≠ 0 then
          some (s.setThread s.runningThread t.signalCleanupEventHandler)
        else none
      else if num ≤ syscallCnt then some (s.setupSyscall code t num)
      else none

def checkPendingSignals (code : KernelCode) (s : SwitchSys) (t : SwitchThread) :
    Option StagedHandlerInfo → SwitchSys
  | none => s
  | some info =>
      if t.stackTopPreserved ≠ 0 then s
      else s.stage s.runningThread { t with stackTopPreserved := t.stackTop } info.func
        code.signalCleanupHandler info.args

def schedule (code : KernelCode) (s : SwitchSys) (u : Tid) (signal : Option StagedHandlerInfo) :
    Option SwitchSys :=
  (s.threads u).map fun t =>
    let s := { s with runningThread := u }
    if t.syscallMode then s else s.checkPendingSignals code t signal

/-- `jump_to_thread` behind `check_thread_stack`, which panics. -/
def jumpToThread (s : SwitchSys) (kernel : KernelRegs) : Option SwitchSys :=
  match s.threads s.runningThread with
  | none => none
  | some t =>
      if t.stackTop < t.stack ∨ t.stack + t.stackSize < t.stackTop then none
      else
        let mem := ByteMemory.write s.mem (s.msp - 10) (kernelWords kernel)
        some { s with
          mem
          msp := s.msp - 10
          cpu := .thread (loadUserState mem t.stackTop) t.privilege }

def threadCreate (code : KernelCode) (s : SwitchSys) (u : Tid) (new : NewThread) :
    Option SwitchSys :=
  if (s.threads u).isSome then none
  else some (s.stage u new.thread new.func code.threadReturnHandler new.args)

def executing (s : SwitchSys) : Bool :=
  match s.cpu with
  | .thread _ _ => true
  | .kernel _ => false

def step (code : KernelCode) (s : SwitchSys) : SwitchEvent → Option SwitchSys
  | .execute regs writes =>
      match s.cpu with
      | .thread _ control => some { s with
          mem := writes.foldl (fun mem w => Function.update mem w.1 w.2) s.mem
          cpu := .thread regs control }
      | .kernel _ => none
  | .saveRetval =>
      match s.cpu, s.threads s.runningThread with
      | .thread regs _, some t =>
          if t.syscallMode then
            some { s with mem := Function.update s.mem (t.syscallArgs 0) (regs.r0to3 0) }
          else none
      | _, _ => none
  | .svc => s.svcHandler
  | .pendSv => s.pendSvHandler
  | .serve =>
      if s.executing then none
      else if s.syscallFlag then syscallHandler code { s with syscallFlag := false }
      else some s
  | .schedule u signal => if s.executing then none else s.schedule code u signal
  | .jump kernel => if s.executing then none else s.jumpToThread kernel
  | .create u new => s.threadCreate code u new
  | .delete u =>
      if s.executing ∧ u = s.runningThread then none
      else some { s with threads := Function.update s.threads u none }

end SwitchSys

/-- The registers of a function on a stack, and where they are saved while it is not executed. -/
structure Activation where
  regs : Context
  top : Nat

/-- A thread as it sees itself: what it executes, the caller of the system call that it is in, and
what a signal handler has interrupted. -/
structure VirtualThread where
  current : Activation
  caller : Option Activation
  interrupted : Option Activation
  kernelThread : Bool

inductive VirtualCpu
  | thread (control : Privilege) (kernel : KernelRegs)
  | kernel (regs : KernelRegs)

/-- A machine in which all threads and the kernel have registers of their own. -/
@[ext] structure VirtualSys where
  cpu : VirtualCpu
  syscallFlag : Bool
  runningThread : Tid
  threads : Tid → Option VirtualThread

namespace VirtualThread

def privilege (t : VirtualThread) : Privilege :=
  if t.caller.isSome ∨ t.kernelThread then .kernelThread else .userThread

def staged (top : Nat) (func returnHandler : Word) (args : Fin 4 → Word) : Activation :=
  ⟨Context.initial top func returnHandler args, top - 18⟩

def enter (t : VirtualThread) : VirtualThread :=
  { t with current.top := t.current.regs.frameTop }

/-- A system call inside of a system call is not served. -/
def syscall (code : KernelCode) (t : VirtualThread) (num : Nat) : VirtualThread :=
  if t.caller.isSome then t
  else { t with
    caller := some t.current
    current := staged t.current.top (code.handlerFunc num) code.syscallReturnHandler
      t.current.regs.r0to3 }

def serve (code : KernelCode) (t : VirtualThread) : Option VirtualThread :=
  let num := t.current.regs.r7.toNat
  if num = 0 then some t
  else if num = syscallReturnEvent then
    t.caller.map fun caller => { t with current := caller, caller := none }
  else if num = signalCleanupEvent then
    if t.caller.isSome then none
    else t.interrupted.map fun interrupted => { t with current := interrupted, interrupted := none }
  else if num ≤ syscallCnt then some (t.syscall code num)
  else none

def signal (code : KernelCode) (t : VirtualThread) : Option StagedHandlerInfo → VirtualThread
  | none => t
  | some info =>
      if t.caller.isSome ∨ t.interrupted.isSome then t
      else { t with
        interrupted := some t.current
        current := staged t.current.top info.func code.signalCleanupHandler info.args }

end VirtualThread

namespace VirtualSys

def setThread (s : VirtualSys) (t : Tid) (thread : VirtualThread) : VirtualSys :=
  { s with threads := Function.update s.threads t (some thread) }

def enter (s : VirtualSys) : Option VirtualSys :=
  match s.cpu, s.threads s.runningThread with
  | .thread _ kernel, some t =>
      some { s.setThread s.runningThread t.enter with cpu := .kernel kernel }
  | _, _ => none

def executing (s : VirtualSys) : Bool :=
  match s.cpu with
  | .thread _ _ => true
  | .kernel _ => false

def step (code : KernelCode) (s : VirtualSys) : SwitchEvent → Option VirtualSys
  | .execute regs _ =>
      match s.cpu, s.threads s.runningThread with
      | .thread _ _, some t => some (s.setThread s.runningThread { t with current.regs := regs })
      | _, _ => none
  | .saveRetval =>
      match s.cpu, s.threads s.runningThread with
      | .thread _ _, some t => t.caller.map fun caller => s.setThread s.runningThread
          { t with caller := some { caller with regs := caller.regs.setR0 (t.current.regs.r0to3 0) } }
      | _, _ => none
  | .svc => s.enter.map fun s => { s with syscallFlag := true }
  | .pendSv => s.enter
  | .serve =>
      if s.executing then none
      else if s.syscallFlag then do
        let t ← s.threads s.runningThread
        let t ← t.serve code
        some { s.setThread s.runningThread t with syscallFlag := false }
      else some s
  | .schedule u signal =>
      if s.executing then none
      else (s.threads u).map fun t =>
        { s.setThread u (t.signal code signal) with runningThread := u }
  | .jump kernel =>
      if s.executing then none
      else (s.threads s.runningThread).map fun t => { s with cpu := .thread t.privilege kernel }
  | .create u new =>
      if (s.threads u).isSome then none
      else some (s.setThread u {
        current := VirtualThread.staged new.stackTop new.func code.threadReturnHandler new.args
        caller := none
        interrupted := none
        kernelThread := new.kernelThread })
  | .delete u =>
      if s.executing ∧ u = s.runningThread then none
      else some { s with threads := Function.update s.threads u none }

end VirtualSys

end Tenok
