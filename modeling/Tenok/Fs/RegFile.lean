import Tenok.Fs.Drivers
import Tenok.Fs.FileBlocks

/-!
Regular files: `reg_file_read`, `reg_file_write` and `reg_file_lseek`. The reads of a file are
those of the driver that its storage has, with addresses as offsets.
-/
namespace Tenok

def sizeofBlockHeader : Nat := 8

/-- `blk_free_size`: what a block has room for behind its header. -/
def blkFreeSize : Nat := fsBlkSize - sizeofBlockHeader

def seekSet : Nat := 0
def seekCur : Nat := 1
def seekEnd : Nat := 2

/-- `read` of a driver with an address and a size; `none` is a negative result. -/
abbrev DriverRead := (addr size : Nat) → Option (List Byte)

/-- The `b_next` that `fs_get_block_addr` has after it has read the header at an address. If that
fails, it still has the address. -/
def nextBlk (read : DriverRead) (blkAddr : Nat) : Nat :=
  ((read blkAddr sizeofBlockHeader).map fun bytes => wordAt bytes 0).getD blkAddr

def fsGetBlockAddr (read : DriverRead) (iData blkIndex : Nat) : Nat :=
  (nextBlk read)^[blkIndex] iData

def blocksTo (read : DriverRead) (iData blkIndex : Nat) : List Nat :=
  (List.range (blkIndex + 1)).map (fsGetBlockAddr read iData)

/-- What `reg_file_read` has put into the buffer, its result, where the file is read next, and
which addresses of blocks were followed. -/
structure FileRead where
  data : List Byte
  retval : Nat
  pos : Nat
  followed : List Nat

/-- The loop of `reg_file_read`. Each pass reads something, so there are as many of them as bytes
at most. -/
def readLoop (read : DriverRead) (iData : Nat) : (passes pos remained : Nat) → FileRead
  | 0, pos, _ => ⟨[], 0, pos, []⟩
  | passes + 1, pos, remained =>
      if remained = 0 then ⟨[], 0, pos, []⟩
      else
        let followed := blocksTo read iData (pos / blkFreeSize)
        let blkStartAddr := fsGetBlockAddr read iData (pos / blkFreeSize)
        let blkPos := pos % blkFreeSize
        let readSize := min (blkFreeSize - blkPos) remained
        match read ((blkStartAddr + sizeofBlockHeader + blkPos) % 2 ^ 32) readSize with
        | none => ⟨[], 0, pos, followed⟩
        | some bytes =>
            let rest := readLoop read iData passes (pos + readSize) (remained - readSize)
            ⟨bytes ++ rest.data, readSize + rest.retval, rest.pos, followed ++ rest.followed⟩

namespace Rootfs

def driverRead (s : Rootfs) (rdev : Nat) : DriverRead := fun addr size =>
  if rdev = rdevRootfs then rootfsRead s.sInoAddr s.sBlkAddr s.memory size addr
  else (s.storages rdev).read addr size

def regFileRead (s : Rootfs) (ino size : Nat) : Rootfs × FileRead :=
  let inode := s.inodes ino
  let r := readLoop (s.driverRead inode.iRdev) inode.iData size (s.pos ino) size
  ({ s with pos := Function.update s.pos ino r.pos }, r)

/-- The loop of `reg_file_write`, with the rest of the buffer at the end. -/
def writeLoop (ino : Nat) : (passes : Nat) → Rootfs → (pos : Nat) → List Byte →
    Option (Rootfs × Nat × List Byte)
  | 0, s, pos, buf => some (s, pos, buf)
  | passes + 1, s, pos, buf =>
      if buf = [] then some (s, pos, buf)
      else do
        let blkI := pos / blkFreeSize
        let (s, blkStartAddr) ←
          if (s.inodes ino).iBlocks ≤ blkI then s.fsFileAppendBlock ino
          else some (s, fsGetBlockAddr (s.driverRead rdevRootfs) (s.inodes ino).iData blkI)
        if blkStartAddr = 0 then some (s, pos, buf)
        else
          let blkPos := pos % blkFreeSize
          let writeSize := min (blkFreeSize - blkPos) buf.length
          match rootfsWrite s.sInoAddr s.sBlkAddr s.memory (buf.take writeSize)
              ((blkStartAddr + sizeofBlockHeader + blkPos) % 2 ^ 32) with
          | none => some (s, pos, buf)
          | some memory =>
              writeLoop ino passes { s with memory } (pos + writeSize) (buf.drop writeSize)

/-- `reg_file_write` with the number that it returns. The size of the file grows by that of the
buffer. -/
def regFileWrite (s : Rootfs) (ino : Nat) (buf : List Byte) : Option (Rootfs × Nat) :=
  if (s.inodes ino).iRdev ≠ rdevRootfs then some (s, 0)
  else do
    let (s, pos, rest) ← writeLoop ino buf.length s (s.pos ino) buf
    let s := s.setInode ino fun n => { n with iSize := (n.iSize + buf.length) % 2 ^ 32 }
    some ({ s with pos := Function.update s.pos ino pos }, buf.length - rest.length)

/-- `reg_file_lseek`. The new position is a `char`, which is unsigned on this machine. -/
def regFileLseek (s : Rootfs) (ino : Nat) (offset : Int) (whence : Nat) : Rootfs × Int :=
  let newPos : Option Byte :=
    if whence = seekSet then some (BitVec.ofInt 8 offset)
    else if whence = seekEnd then some (BitVec.ofInt 8 ((s.inodes ino).iSize + offset))
    else if whence = seekCur then some (BitVec.ofInt 8 (s.pos ino + offset))
    else none
  match newPos with
  | none => (s, -1)
  | some newPos =>
      if newPos.toNat < (s.inodes ino).iSize then
        ({ s with pos := Function.update s.pos ino newPos.toNat }, newPos.toNat)
      else (s, -1)

/-- Where the offset counts from. -/
def seekBase (s : Rootfs) (ino whence : Nat) : Int :=
  if whence = seekSet then 0 else if whence = seekEnd then (s.inodes ino).iSize else s.pos ino

/-- The position is set to the target if it is in the file, and stays otherwise. -/
def Seeks (s : Rootfs) (ino : Nat) (offset : Int) (whence : Nat) : Prop :=
  let target := s.seekBase ino whence + offset
  s.regFileLseek ino offset whence =
    if 0 ≤ target ∧ target < (s.inodes ino).iSize then
      ({ s with pos := Function.update s.pos ino target.toNat }, target)
    else (s, -1)

/-- A target in the file fits into a `char`, and the last byte of another one is not a position in
the file. -/
def SeekFits (s : Rootfs) (ino : Nat) (offset : Int) (whence : Nat) : Prop :=
  let target := s.seekBase ino whence + offset
  if 0 ≤ target ∧ target < (s.inodes ino).iSize then target < 2 ^ 8
  else (s.inodes ino).iSize ≤ target % 2 ^ 8

instance decidableSeekFits (s : Rootfs) (ino : Nat) (offset : Int) (whence : Nat) :
    Decidable (s.SeekFits ino offset whence) :=
  inferInstanceAs (Decidable (if _ ∧ _ then _ < _ else _ ≤ _))

variable {s : Rootfs} {ino whence : Nat} {offset : Int}

theorem regFileLseek_eq (hwhence : whence ∈ [seekSet, seekCur, seekEnd]) :
    s.regFileLseek ino offset whence =
      let newPos := ((s.seekBase ino whence + offset) % 2 ^ 8).toNat
      if newPos < (s.inodes ino).iSize then
        ({ s with pos := Function.update s.pos ino newPos }, (newPos : Int))
      else (s, -1) := by
  have hbyte : ∀ n : Int, (BitVec.ofInt 8 n).toNat = (n % 2 ^ 8).toNat := fun n => by
    rw [BitVec.toNat_ofInt]
    norm_cast
  simp only [List.mem_cons, List.not_mem_nil, or_false] at hwhence
  obtain rfl | rfl | rfl := hwhence
  · simp only [regFileLseek, seekBase, if_true, hbyte, zero_add]
  · simp only [regFileLseek, seekBase, show seekCur ≠ seekSet by decide,
      show seekCur ≠ seekEnd by decide, if_true, if_false, hbyte]
  · simp only [regFileLseek, seekBase, show seekEnd ≠ seekSet by decide, if_true, if_false, hbyte]

/-- A call seeks as it should exactly if the target survives in a `char`. -/
theorem seeks_iff (hwhence : whence ∈ [seekSet, seekCur, seekEnd]) :
    s.Seeks ino offset whence ↔ s.SeekFits ino offset whence := by
  rw [Seeks, SeekFits, regFileLseek_eq hwhence]
  generalize s.seekBase ino whence + offset = target
  have hnonneg : 0 ≤ target % 2 ^ 8 := Int.emod_nonneg _ (by decide)
  have hlt : target % 2 ^ 8 < 2 ^ 8 := Int.emod_lt_of_pos _ (by decide)
  by_cases hin : 0 ≤ target ∧ target < (s.inodes ino).iSize
  · simp only [hin, and_self, if_true]
    constructor
    · intro heq
      split at heq
      · have hpos : ((target % 2 ^ 8).toNat : Int) = target := congrArg Prod.snd heq
        omega
      · have hpos : (-1 : Int) = target := congrArg Prod.snd heq
        omega
    · intro hfits
      have hsame : target % 2 ^ 8 = target := Int.emod_eq_of_lt hin.1 hfits
      rw [hsame, if_pos (by omega), Int.toNat_of_nonneg hin.1]
  · simp only [hin, if_false]
    constructor
    · intro heq
      split at heq
      · have hpos : ((target % 2 ^ 8).toNat : Int) = -1 := congrArg Prod.snd heq
        omega
      · omega
    · intro hle
      exact if_neg (by omega)

def longFile : Rootfs := (rootfsInit 0x20010000 0x20020000).setInode 1 fun n => { n with iSize := 300 }

theorem longFile_seeks : longFile.Seeks 1 (-60) seekEnd :=
  (seeks_iff (by decide)).mpr (by decide)

/-- Byte 256 cannot be reached, and a target behind the end sets the position. -/
theorem longFile_not_seeks : (longFile.regFileLseek 1 256 seekSet).2 = 0 ∧
    (longFile.regFileLseek 1 300 seekSet).2 = 44 ∧
    ¬ longFile.Seeks 1 256 seekSet ∧ ¬ longFile.Seeks 1 0 seekEnd := by
  refine ⟨by decide, by decide, fun h => ?_, fun h => ?_⟩
  · have hpos : ((longFile.regFileLseek 1 256 seekSet).2 : Int) = 256 := congrArg Prod.snd h
    exact absurd hpos (by decide)
  · have hpos : ((longFile.regFileLseek 1 0 seekEnd).2 : Int) = -1 := congrArg Prod.snd h
    exact absurd hpos (by decide)

end Rootfs

end Tenok
