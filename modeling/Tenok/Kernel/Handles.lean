import Tenok.Kernel.DescriptorRuns
import Tenok.Kernel.MqueueAttrs
import Tenok.Kernel.Poll

/-!
The numbers that stand for an object in a system call. Each call takes the reserved range off
and tests the bitmaps on its own. `sys_poll` tests none, and no call compares its number with
the size of an array.
-/
namespace Tenok

inductive HandleCall
  | read (fd : Int)
  | write (fd : Int)
  | ioctl (fd : Int)
  | lseek (fd : Int)
  | fstat (fd : Int)
  | close (fd : Int)
  | dup (oldfd : Int)
  | dup2 (oldfd newfd : Int)
  | poll (fds : List PollFd) (timeout : Int)
  | mqGetattr (mqdes : Word)
  | mqSetattr (mqdes : Word) (newattr : MqAttr)
  | mqClose (mqdes : Word)
  | mqReceive (mqdes msgLen : Word)
  | mqSend (mqdes msgLen msgPrio : Word)
  | pthreadDetach (tid : Word)

def outcome {α : Type} (r : Except Errno α) : Except Errno Unit := r.map fun _ => ()

namespace DescSys

def fdtableFile (s : DescSys) (d : Int) : Option File :=
  if 0 ≤ d ∧ d < openMax then some (s.fdtable d.toNat).file else none

/-- The table of message queues with the descriptors that there are. -/
def mqTable (s : DescSys) (t : MqTable) : MqTable :=
  { t with bitmapMqds := s.mqds.bitmap, taskMqds := s.mqds.held }

/-- `files[fd]` and the rest of a call that reads it. -/
def filesAnswer (fd : Int) (r : Option (Reply File)) : Option (Except Errno Unit) :=
  if 0 ≤ fd then r.map fun r => outcome r.2 else none

/-- A call that reads the bit of a number in a bitmap. -/
def bitAnswer {α : Type} (max : Nat) (n : Word) (r : Except Errno α) : Option (Except Errno Unit) :=
  if n.toNat < bitmapBits max then some (outcome r) else none

/-- What a call gives, up to its work on the object. It faults where it reads outside an array. -/
def answer (s : DescSys) (p : PollSys) (t : MqTable) (task : Pid) :
    HandleCall → Option (Except Errno Unit)
  | .read fd => filesAnswer fd (s.sysRead task fd)
  | .write fd => filesAnswer fd (s.sysWrite task fd)
  | .ioctl fd => filesAnswer fd (s.sysIoctl task fd)
  | .lseek fd => filesAnswer fd (s.sysLseek task fd)
  | .fstat fd => (s.sysFstat task fd).map fun r => outcome r.2
  | .close fd => (s.sysClose task fd).map fun r => outcome r.2
  | .dup oldfd => (s.sysDup task oldfd).map fun r => outcome r.2
  | .dup2 oldfd newfd => (s.sysDup2 task oldfd newfd).map fun r => outcome r.2
  | .poll fds timeout =>
      let p := { p with kernel := s.kernel, fdtable := s.fdtableFile }
      -- 0, -1 or a wait
      (p.sysPoll fds timeout).map fun _ => .ok ()
  | .mqGetattr mqdes =>
      bitAnswer mqueueMax mqdes ((s.mqTable t).sysMqGetattr task mqdes.toNat)
  | .mqSetattr mqdes newattr =>
      bitAnswer mqueueMax mqdes ((s.mqTable t).sysMqSetattr task mqdes.toNat newattr).2
  | .mqClose mqdes => (s.sysMqClose task mqdes.toNat).map fun r => outcome r.2
  | .mqReceive mqdes msgLen =>
      bitAnswer mqueueMax mqdes ((s.mqTable t).sysMqReceiveEnter task mqdes.toNat msgLen)
  | .mqSend mqdes msgLen msgPrio =>
      let r := (s.mqTable t).sysMqSendEnter task mqdes.toNat msgLen msgPrio
      -- the priority is looked at first
      if BitVec.ofNat 32 mqPrioMax < msgPrio then some (outcome r) else bitAnswer mqueueMax mqdes r
  | .pthreadDetach tid => bitAnswer threadMax tid (s.kernel.sysPthreadDetach tid.toNat).2

/-- The number of a descriptor, without the reserved ones, is one of a bit of the bitmaps. -/
def InFds (fd : Int) : Prop := fd < fileReservedNum + bitmapBits openMax

instance decidableInFds (fd : Int) : Decidable (InFds fd) := inferInstanceAs (Decidable (_ < _))

variable {s : DescSys} {task : Pid} {fd : Int} {mqdes : Word} {a : Option (Except Errno Unit)}

/-- A call that reads the bit of its descriptor first. -/
structure Guarded (s : DescSys) (task : Pid) (fd : Int) (a : Option (Except Errno Unit)) : Prop where
  outside : s.fds.getBit task openMax (fd - fileReservedNum) = none → a = none
  refused : s.fds.getBit task openMax (fd - fileReservedNum) = some false → a = some (.error .ebadf)
  goesOn : s.fds.getBit task openMax (fd - fileReservedNum) = some true → a.isSome = true

end DescSys

end Tenok
