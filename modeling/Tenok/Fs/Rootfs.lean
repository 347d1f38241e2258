import Tenok.Kernel.MqueueOpen
import Tenok.Lib.ByteMemory
import Tenok.Lib.LittleEndian

/-!
The root file system: inodes, blocks and dentries, and the directories of storages that are
mounted when somebody looks into them. Addresses are numbers. The blocks of directories hold
dentries and are kept apart from the bytes of the other blocks. Nothing is ever deleted.
-/
namespace Tenok

def inodeMax : Nat := 100
def fsBlkCnt : Nat := 100
def fsBlkSize : Nat := 128
def fileMax : Nat := 100
def mountMax : Nat := 5

/-- The sizes of the structures on a machine with 32 bits. -/
def sizeofSuperBlock : Nat := 40
def sizeofInode : Nat := 48
def sizeofDentry : Nat := 56

def sIfifo : Nat := 0
def sIfchr : Nat := 1
def sIfblk : Nat := 2
def sIfreg : Nat := 3
def sIfdir : Nat := 4

def rdevRootfs : Nat := 0

/-- `iDentry` has the addresses of the dentries in the order of the list, and is `none` as long
as the list head is not initialized. -/
structure Inode where
  iMode : Nat := 0
  iRdev : Nat := 0
  iSync : Bool := false
  iIno : Nat := 0
  iParent : Nat := 0
  iFd : Nat := 0
  iSize : Nat := 0
  iBlocks : Nat := 0
  iData : Nat := 0
  iDentry : Option (List Nat) := none
  deriving DecidableEq, Repr

structure Dentry where
  dName : List Byte := []
  dInode : Nat := 0
  dParent : Nat := 0
  deriving DecidableEq, Repr

/-- What `fs_mount_directory` looks at of an inode on a storage. -/
structure StoredInode where
  iMode : Nat
  iSize : Nat
  iBlocks : Nat
  iData : Nat
  deriving DecidableEq, Repr

/-- And of a dentry; `next` is the link of its list. -/
structure StoredDentry where
  dName : List Byte
  dInode : Nat
  next : Nat
  deriving DecidableEq, Repr

/-- The `read` of the driver, which fails with `none`. -/
structure Storage where
  read : (offset size : Nat) → Option (List Byte)

def wordAt (bytes : List Byte) (offset : Nat) : Nat :=
  (LittleEndian.value 32 ((bytes.drop offset).take 4)).toNat

namespace Storage

def dentry (st : Storage) (addr : Nat) : Option StoredDentry :=
  (st.read addr sizeofDentry).map fun b =>
    { dName := (b.take nameMax).takeWhile (· ≠ 0#8), dInode := wordAt b 32, next := wordAt b 40 }

def inode (st : Storage) (n : Nat) : Option StoredInode :=
  (st.read ((sizeofSuperBlock + sizeofInode * n) % 2 ^ 32) sizeofInode).map fun b =>
    { iMode := (b.headD 0#8).toNat, iSize := wordAt b 16, iBlocks := wordAt b 20,
      iData := wordAt b 24 }

end Storage

/-- The objects behind the entries of `files`, with their inodes. -/
inductive FsFile
  | rootfs
  | fifo (inode : Nat)
  | device (inode : Nat)
  | regFile (inode : Nat)
  deriving DecidableEq, Repr

def fsCalculateDentryBlocks (blockSize dentryCnt : Nat) : Nat :=
  let dentryPerBlk := blockSize / sizeofDentry
  dentryCnt / dentryPerBlk + if dentryCnt % dentryPerBlk ≠ 0 then 1 else 0

/-- A directory of `n` dentries has room in its last block exactly if their number is odd. -/
theorem dentry_room_iff {iSize iBlocks n : Nat} (hsize : iSize = sizeofDentry * n)
    (hblocks : iBlocks = (n + 1) / 2) (hn : n ≤ inodeMax) :
    iSize / sizeofDentry + 1 ≤ iBlocks * (fsBlkSize / sizeofDentry) % 2 ^ 32 ∧ iSize ≠ 0 ↔
      n % 2 = 1 := by
  have hper : fsBlkSize / sizeofDentry = 2 := rfl
  have hmax : inodeMax = 100 := rfl
  have hdentry : sizeofDentry = 56 := rfl
  rw [hsize, hblocks, Nat.mul_div_cancel_left _ (by decide), hper, hdentry,
    Nat.mod_eq_of_lt (by omega)]
  omega

structure Rootfs where
  inodes : Nat → Inode
  bitmapInodes : Nat → Bool
  bitmapBlks : Nat → Bool
  sInodeCnt : Nat
  sBlkCnt : Nat
  sInoAddr : Nat
  sBlkAddr : Nat
  dentries : Nat → Dentry
  memory : Nat → Byte
  fileCnt : Nat
  files : Nat → Option FsFile
  /-- The positions of the regular files by their inodes. -/
  pos : Nat → Nat
  /-- The storages of `mount_points`, from 1 on. -/
  storages : Nat → Storage
  mountCnt : Nat

namespace Rootfs

def setInode (s : Rootfs) (ino : Nat) (f : Inode → Inode) : Rootfs :=
  { s with inodes := Function.update s.inodes ino (f (s.inodes ino)) }

def setDentry (s : Rootfs) (addr : Nat) (d : Dentry) : Rootfs :=
  { s with dentries := Function.update s.dentries addr d }

def rootfsInit (sInoAddr sBlkAddr : Nat) : Rootfs where
  inodes i := if i = 0 then { iMode := sIfdir, iSync := true, iDentry := some [] } else {}
  bitmapInodes i := i = 0
  bitmapBlks _ := false
  sInodeCnt := 1
  sBlkCnt := 0
  sInoAddr := sInoAddr
  sBlkAddr := sBlkAddr
  dentries _ := {}
  memory _ := 0#8
  fileCnt := 1
  files fd := if fd = fileReservedNum then some .rootfs else none
  pos _ := 0
  storages _ := ⟨fun _ _ => none⟩
  mountCnt := 1

/-- `fs_alloc_inode`; `none` is NULL. -/
def fsAllocInode (s : Rootfs) : Option (Nat × Rootfs) :=
  ((List.range inodeMax).find? fun i => !s.bitmapInodes i).map fun i =>
    (i, { s.setInode i fun n => { n with iIno := i } with
      sInodeCnt := s.sInodeCnt + 1
      bitmapInodes := Function.update s.bitmapInodes i true })

def blkAddr (s : Rootfs) (i : Nat) : Nat := s.sBlkAddr + fsBlkSize * i

/-- `fs_alloc_block`; `none` is NULL. -/
def fsAllocBlock (s : Rootfs) : Option (Nat × Rootfs) :=
  ((List.range fsBlkCnt).find? fun i => !s.bitmapBlks i).map fun i =>
    (s.blkAddr i, { s with
      sBlkCnt := s.sBlkCnt + 1
      bitmapBlks := Function.update s.bitmapBlks i true })

/-- `fs_allocate_dentry`. Without a last dentry the address would be that of an inode, and
without a free block NULL is written to. -/
def fsAllocateDentry (s : Rootfs) (dir : Nat) : Option (Nat × Rootfs) :=
  let inodeDir := s.inodes dir
  let dentryPerBlk := fsBlkSize / sizeofDentry
  let dentryCnt := inodeDir.iSize / sizeofDentry
  if dentryCnt + 1 ≤ inodeDir.iBlocks * dentryPerBlk % 2 ^ 32 ∧ inodeDir.iSize ≠ 0 then do
    let listEnd ← (inodeDir.iDentry.getD []).getLast?
    some (listEnd + sizeofDentry, s)
  else s.fsAllocBlock

/-- The dentry becomes the last one of the directory. -/
def insertDentry (s : Rootfs) (dir addr : Nat) : Option Rootfs := do
  let list ← (s.inodes dir).iDentry
  let iSize := ((s.inodes dir).iSize + sizeofDentry) % 2 ^ 32
  some (s.setInode dir fun d =>
    { d with
      iDentry := some (list ++ [addr])
      iSize
      iBlocks := fsCalculateDentryBlocks fsBlkSize (iSize / sizeofDentry) })

/-- The file of an inode in `fs_add_file`; `memory` tells whether there is any for it. -/
def instantiate (s : Rootfs) (ino fd fileType : Nat) (memory : Bool) : Option Rootfs :=
  let empty := s.setInode ino fun n =>
    { n with iMode := fileType, iSize := 0, iBlocks := 0, iData := 0 }
  if fileType = sIfifo then
    if memory then some { empty with files := Function.update s.files fd (some (.fifo ino)) }
    else none
  else if fileType = sIfchr ∨ fileType = sIfblk then
    if memory then some { empty with files := Function.update s.files fd (some (.device ino)) }
    else none
  else if fileType = sIfreg then
    if memory then
      some { empty with
        files := Function.update s.files fd (some (.regFile ino))
        pos := Function.update s.pos ino 0 }
    else none
  else if fileType = sIfdir then some (empty.setInode ino fun n => { n with iDentry := some [] })
  else none

/-- `fs_add_file` with the inode that it returns. What it has allocated stays so if it fails.
It also clears the events of the file, which for a directory is not there. -/
def fsAddFile (s : Rootfs) (dir : Nat) (fileName : List Byte) (fileType : Nat) (memory : Bool) :
    Option (Rootfs × Option Nat) :=
  if inodeMax ≤ s.sInodeCnt then some (s, none)
  else if fileMax ≤ s.fileCnt then some (s, none)
  else do
    let fd := s.fileCnt + fileReservedNum
    let iIno := (s.inodes dir).iIno
    let (ino, s) ← s.fsAllocInode
    let s := s.setInode ino fun n =>
      { n with iRdev := rdevRootfs, iParent := iIno, iFd := fd, iSync := true }
    let (addr, s) ← s.fsAllocateDentry dir
    let s := s.setDentry addr
      { dName := fileName.take (nameMax - 1), dInode := ino, dParent := iIno }
    match s.instantiate ino fd fileType memory with
    | none => some (s, none)
    | some s => do
        let s := { s with fileCnt := s.fileCnt + 1 }
        let s := s.setInode dir fun d =>
          { d with iData := if d.iDentry = some [] then addr else d.iData }
        let s ← s.insertDentry dir addr
        some (s, some ino)

def fsMountFile (s : Rootfs) (dir rdev : Nat) (mnt : StoredInode) (name : List Byte) :
    Option Rootfs :=
  if inodeMax ≤ s.sInodeCnt then some s
  else do
    let fd := s.fileCnt + fileReservedNum
    let iIno := (s.inodes dir).iIno
    let (ino, s) ← { s with fileCnt := s.fileCnt + 1 }.fsAllocInode
    let s := s.setInode ino fun n =>
      { n with
        iMode := mnt.iMode
        iRdev := rdev
        iParent := iIno
        iFd := fd
        iSize := mnt.iSize
        iBlocks := mnt.iBlocks
        iData := mnt.iData
        iSync := false
        iDentry := some [] }
    let (addr, s) ← s.fsAllocateDentry dir
    let s := s.setDentry addr { dName := name.take nameMax, dInode := ino, dParent := iIno }
    { s with sInodeCnt := s.sInodeCnt + 1 }.insertDentry dir addr

/-- The loop of `fs_mount_directory`, for as many passes as are given. A dentry that cannot be
read would be that of the pass before, again and again; an inode is then that of the pass before. -/
def mountLoop (rdev target : Nat) : Nat → Rootfs → Nat → Option StoredInode → Option Rootfs
  | 0, _, _, _ => none
  | passes + 1, s, addr, inode => do
      let dentry ← (s.storages rdev).dentry addr
      let inode ← ((s.storages rdev).inode dentry.dInode).or inode
      let s ← s.fsMountFile target rdev inode dentry.dName
      if dentry.next < sizeofSuperBlock + sizeofInode * inodeMax then some s
      else mountLoop rdev target passes s (dentry.next - 40) (some inode)

def fsMountDirectory (passes : Nat) (s : Rootfs) (rdev : Nat) (src : StoredInode) (target : Nat) :
    Option Rootfs :=
  if src.iSize = 0 then some s
  else do
    let s := if (s.inodes target).iSync then s
      else s.setInode target fun n => { n with iSize := 0, iBlocks := 0 }
    let s ← mountLoop rdev target passes s src.iData none
    some (s.setInode target fun n => { n with iSync := true })

def storedInode (i : Inode) : StoredInode := ⟨i.iMode, i.iSize, i.iBlocks, i.iData⟩

/-- A directory is mounted onto itself. -/
def syncDirectory (passes : Nat) (s : Rootfs) (dir : Nat) : Option Rootfs :=
  s.fsMountDirectory passes (s.inodes dir).iRdev (storedInode (s.inodes dir)) dir

def fsSearchFile (passes : Nat) (s : Rootfs) (dir : Nat) (fileName : List Byte) :
    Option (Rootfs × Option Nat) :=
  if (s.inodes dir).iSize = 0 then some (s, none)
  else if fileName = [46#8] then some (s, some dir)
  else if fileName = [46#8, 46#8] then some (s, some (s.inodes dir).iParent)
  else do
    let s ← if (s.inodes dir).iSync then some s else s.syncDirectory passes dir
    let list ← (s.inodes dir).iDentry
    some (s, (list.find? fun a => (s.dentries a).dName = fileName).map fun a =>
      (s.dentries a).dInode)

def bNext (s : Rootfs) (addr : Nat) : Nat := wordAt (ByteMemory.read s.memory addr 4) 0

def setNext (s : Rootfs) (addr next : Nat) : Rootfs :=
  { s with
    memory := ByteMemory.write s.memory addr (LittleEndian.bytes 4 (BitVec.ofNat 32 next)) }

def fsFileAppendBlock (s : Rootfs) (ino : Nat) : Option (Rootfs × Nat) :=
  if (s.inodes ino).iRdev ≠ rdevRootfs then some (s, 0)
  else if fsBlkCnt ≤ s.sBlkCnt then some (s, 0)
  else do
    let (newBlk, s) ← s.fsAllocBlock
    let s := s.setNext newBlk 0
    let inode := s.inodes ino
    if inode.iBlocks = 0 then
      some (s.setInode ino fun n => { n with iData := newBlk, iBlocks := n.iBlocks + 1 }, newBlk)
    else
      let blkHead := s.bNext^[inode.iBlocks - 1] inode.iData
      some ((s.setNext blkHead newBlk).setInode ino fun n => { n with iBlocks := n.iBlocks + 1 },
        newBlk)

end Rootfs

end Tenok
