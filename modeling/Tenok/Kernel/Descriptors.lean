import Tenok.Kernel.Tasks

/-!
File descriptors with the table behind them. `sys_open` asks the file system daemon and
waits, with the task of its caller already read; all other calls are one step. A bit beyond
the words of a bitmap is memory of something else, so a call that reads one faults.
-/
namespace Tenok
open Ring

def pathMax : Nat := 128

/-- The bits of `uint32_t map[BITMAP_SIZE(x)]`. -/
def bitmapBits (x : Nat) : Nat := (x + 31) / 32 * 32

structure FileOps where
  open' : Bool := true
  read : Bool := true
  write : Bool := true
  ioctl : Bool := true
  lseek : Bool := true

structure Fdtable where
  file : File
  flags : Word

structure Stat where
  mode : Nat
  ino : Nat
  rdev : Nat
  size : Nat
  blocks : Nat

def DescTable.getBit (t : DescTable) (task : Pid) (max : Nat) (d : Int) : Option Bool :=
  if 0 ≤ d ∧ d < bitmapBits max then some (t.valid task d.toNat) else none

/-- The bit of a descriptor in the bitmap of the system. -/
def DescTable.usedBit (t : DescTable) (max : Nat) (d : Int) : Option Bool :=
  if 0 ≤ d ∧ d < bitmapBits max then some (t.bitmap d.toNat) else none

structure DescSys extends TaskSys where
  fdtable : Nat → Fdtable
  /-- There is no file behind most numbers. -/
  files : Int → Option File
  ops : File → FileOps
  inode : File → Option Stat
  fFlags : File → Word
  /-- The task and the flags of a thread that waits in `sys_open`. -/
  opening : Tid → Option (Pid × Word)

inductive DescEvent
  | openFile (pathname : List Byte) (flags : Word)
  /-- The daemon's reply to `sys_open`, with -1 as `none`. -/
  | openReply (fileIdx : Option Nat)
  | close (fd : Int)
  | dup (oldfd : Int)
  | dup2 (oldfd newfd : Int)
  | read (fd : Int)
  | write (fd : Int)
  | ioctl (fd : Int)
  | lseek (fd : Int)
  | fstat (fd : Int)
  | mqOpen (found memory : Bool) (oflag : Word)
  | mqClose (mqdes : Int)
  | setFile (fd : Nat) (filp : Option File) (ops : FileOps) (inode : Option Stat)
  | kernel (e : KernelEvent)

namespace DescSys

abbrev Reply (α : Type) := DescSys × Except Errno α

def sysOpen (s : DescSys) (task : Pid) (pathname : List Byte) (flags : Word) :
    Option (Reply Unit) :=
  if pathMax ≤ pathname.length then some (s, .error .enametoolong)
  else some ({ s with
    opening := Function.update s.opening s.kernel.runningThread (some (task, flags)) }, .ok ())

def sysOpenReply (s : DescSys) (task : Pid) (flags : Word) (fileIdx : Option Nat) :
    Option (Reply Nat) :=
  match fileIdx with
  | none => some (s, .error .enoent)
  | some fileIdx =>
      match s.fds.firstZero openMax with
      | none => some (s, .error .enomem)
      | some d => do
          let filp ← s.files fileIdx
          let s := { s with
            fds := s.fds.setBit task d true
            fdtable := Function.update s.fdtable d { file := filp, flags := flags } }
          if !(s.ops filp).open' then
            some ({ s with fds := s.fds.setBit task d false }, .error .enxio)
          else some (s, .ok (d + fileReservedNum))

def sysClose (s : DescSys) (task : Pid) (fd : Int) : Option (Reply Unit) :=
  if fd < fileReservedNum then some (s, .error .ebadf)
  else do
    let d := fd - fileReservedNum
    let own ← s.fds.getBit task openMax d
    if !own then some (s, .error .ebadf)
    else some ({ s with fds := s.fds.setBit task d.toNat false }, .ok ())

def sysDup (s : DescSys) (task : Pid) (oldfd : Int) : Option (Reply Nat) :=
  if oldfd < fileReservedNum then some (s, .error .ebadf)
  else do
    let old := oldfd - fileReservedNum
    let own ← s.fds.getBit task openMax old
    if !own then some (s, .error .ebadf)
    else match s.fds.firstZero openMax with
      | none => some (s, .error .enomem)
      | some d => some ({ s with
          fds := s.fds.setBit task d true
          fdtable := Function.update s.fdtable d (s.fdtable old.toNat) }, .ok (d + fileReservedNum))

def sysDup2 (s : DescSys) (task : Pid) (oldfd newfd : Int) : Option (Reply Int) :=
  if oldfd < fileReservedNum ∨ newfd < fileReservedNum then some (s, .error .ebadf)
  else do
    let old := oldfd - fileReservedNum
    let new := newfd - fileReservedNum
    let usedOld ← s.fds.usedBit openMax old
    if !usedOld then some (s, .error .ebadf)
    else do
      let usedNew ← s.fds.usedBit openMax new
      if !usedNew || !s.fds.held task old.toNat || !s.fds.held task new.toNat then
        some (s, .error .ebadf)
      else
        let fdtable := Function.update s.fdtable new.toNat (s.fdtable old.toNat)
        some ({ s with fdtable }, .ok newfd)

/-- The file that `sys_read`, `sys_write`, `sys_ioctl` and `sys_lseek` work on, and whether
its operation is called. The first two set the flags of the file. -/
def fileCall (defined : FileOps → Bool) (setsFlags : Bool) (s : DescSys) (task : Pid) (fd : Int) :
    Option (Reply File) :=
  if fd < fileReservedNum then do
    let filp ← s.files fd
    if !defined (s.ops filp) then some (s, .error .enxio) else some (s, .ok filp)
  else do
    let d := fd - fileReservedNum
    let own ← s.fds.getBit task openMax d
    if !own then some (s, .error .ebadf)
    else
      let filp := (s.fdtable d.toNat).file
      let s := if setsFlags then
          { s with fFlags := Function.update s.fFlags filp (s.fdtable d.toNat).flags }
        else s
      if !defined (s.ops filp) then some (s, .error .enxio) else some (s, .ok filp)

def sysRead : DescSys → Pid → Int → Option (Reply File) := fileCall FileOps.read true

def sysWrite : DescSys → Pid → Int → Option (Reply File) := fileCall FileOps.write true

def sysIoctl : DescSys → Pid → Int → Option (Reply File) := fileCall FileOps.ioctl false

def sysLseek : DescSys → Pid → Int → Option (Reply File) := fileCall FileOps.lseek false

/-- A file without an inode leaves the buffer as it is. -/
def sysFstat (s : DescSys) (task : Pid) (fd : Int) : Option (Reply (Option Stat)) :=
  if fd < fileReservedNum then some (s, .error .ebadf)
  else do
    let d := fd - fileReservedNum
    let own ← s.fds.getBit task openMax d
    if !own then some (s, .error .ebadf)
    else some (s, .ok (s.inode (s.fdtable d.toNat).file))

def sysMqOpen (s : DescSys) (task : Pid) (found memory : Bool) (oflag : Word) :
    Reply Nat :=
  let r := s.toTaskSys.sysMqOpen task found memory oflag
  ({ s with toTaskSys := r.1 }, r.2)

def sysMqClose (s : DescSys) (task : Pid) (mqdes : Int) : Option (Reply Unit) := do
  let own ← s.mqds.getBit task mqueueMax mqdes
  if !own then some (s, .error .ebadf)
  else some ({ s with mqds := s.mqds.setBit task mqdes.toNat false }, .ok ())

def call (s : DescSys) (task : Pid) : DescEvent → Option DescSys
  | .openFile pathname flags => (s.sysOpen task pathname flags).map Prod.fst
  | .close fd => (s.sysClose task fd).map Prod.fst
  | .dup oldfd => (s.sysDup task oldfd).map Prod.fst
  | .dup2 oldfd newfd => (s.sysDup2 task oldfd newfd).map Prod.fst
  | .read fd => (s.sysRead task fd).map Prod.fst
  | .write fd => (s.sysWrite task fd).map Prod.fst
  | .ioctl fd => (s.sysIoctl task fd).map Prod.fst
  | .lseek fd => (s.sysLseek task fd).map Prod.fst
  | .fstat fd => (s.sysFstat task fd).map Prod.fst
  | .mqOpen found memory oflag => some (s.sysMqOpen task found memory oflag).1
  | .mqClose mqdes => (s.sysMqClose task mqdes).map Prod.fst
  | .openReply _ | .setFile _ _ _ _ | .kernel _ => none

/-- A step of the kernel, which can create, delete and end. -/
def runKernel (s : DescSys) (k : Kernel) : DescSys :=
  { s with
    kernel := k
    fds := TaskSys.tables s.kernel k s.fds
    mqds := TaskSys.tables s.kernel k s.mqds
    opening := fun t => if k.bitmapThreads t then s.opening t else none }

/-- The caller is in a system call and has not been ended. -/
def InCall (s : DescSys) : Prop := s.kernel.InCall ∧ s.kernel.Alive s.kernel.runningThread

instance decidableInCall (s : DescSys) : Decidable s.InCall := inferInstanceAs (Decidable (_ ∧ _))

/-- Threads that have been ended make no calls. -/
def step (s : DescSys) : DescEvent → Option DescSys
  | .kernel e =>
      if s.kernel.CallerAlive e then (s.kernel.step e).map s.runKernel else none
  | .setFile fd filp ops inode =>
      some { s with
        files := Function.update s.files fd filp
        ops := fun f => if some f = filp then ops else s.ops f
        inode := fun f => if some f = filp then inode else s.inode f }
  | .openReply fileIdx =>
      if s.InCall then do
        let (task, flags) ← s.opening s.kernel.runningThread
        let (s, _) ← s.sysOpenReply task flags fileIdx
        some { s with opening := Function.update s.opening s.kernel.runningThread none }
      else none
  | e =>
      if s.InCall ∧ s.opening s.kernel.runningThread = none then
        s.kernel.currentTaskInfo.bind fun task => s.call task e
      else none

/-- The kernel threads run, and no descriptor is open. -/
def start (files : Int → Option File) (ops : File → FileOps) (inode : File → Option Stat) :
    DescSys where
  toTaskSys := TaskSys.start
  fdtable _ := { file := 0, flags := 0#32 }
  files := files
  ops := ops
  inode := inode
  fFlags _ := 0#32
  opening _ := none

/-- Every call of the task with this descriptor fails and changes nothing. -/
structure Refused (s : DescSys) (task : Pid) (fd : Int) : Prop where
  read : s.sysRead task fd = some (s, .error .ebadf)
  write : s.sysWrite task fd = some (s, .error .ebadf)
  ioctl : s.sysIoctl task fd = some (s, .error .ebadf)
  lseek : s.sysLseek task fd = some (s, .error .ebadf)
  fstat : s.sysFstat task fd = some (s, .error .ebadf)
  close : s.sysClose task fd = some (s, .error .ebadf)
  dup : s.sysDup task fd = some (s, .error .ebadf)
  dup2_old : ∀ newfd : Int, newfd < fileReservedNum + bitmapBits openMax →
    s.sysDup2 task fd newfd = some (s, .error .ebadf)
  dup2_new : ∀ oldfd : Int, oldfd < fileReservedNum + bitmapBits openMax →
    s.sysDup2 task oldfd fd = some (s, .error .ebadf)

end DescSys

end Tenok
