import Mathlib.Data.Finset.Card
import Mathlib.Data.List.Chain
import Tenok.Fs.Rootfs
import Tenok.Lib.Allotment
import Tenok.Lib.Runs

/-!
Where the dentries of directories are. A block holds two of them, a directory fills its blocks
one after the other, and every block belongs to one directory or file. Directories of storages
have the size that they have there until they are loaded.
-/
namespace Tenok

inductive RootfsEvent
  | addFile (dir : Nat) (fileName : List Byte) (fileType : Nat) (memory : Bool)
  /-- The loop of `fs_mount`, for a new storage with this root directory. -/
  | mountDirectory (storage : Storage) (src : StoredInode) (target passes : Nat)
  /-- A directory of a storage is loaded when it is searched or opened. -/
  | syncDirectory (dir passes : Nat)
  | appendBlock (ino : Nat)

namespace Storage

/-- The dentries from an address to the end of their list, if they are at most as many as given. -/
def entries (st : Storage) : Nat → Nat → Option (List StoredDentry)
  | 0, _ => none
  | n + 1, addr => do
      let dentry ← st.dentry addr
      if dentry.next < sizeofSuperBlock + sizeofInode * inodeMax then some [dentry]
      else (st.entries n (dentry.next - 40)).map (dentry :: ·)

/-- The size and the blocks of the directory are those of its dentries on the storage. -/
def Counts (st : Storage) (i : StoredInode) : Prop :=
  (i.iSize = 0 ∧ i.iBlocks = 0) ∨ ∃ l ∈ st.entries (i.iSize / sizeofDentry) i.iData,
    i.iSize = sizeofDentry * l.length ∧ i.iBlocks = fsCalculateDentryBlocks fsBlkSize l.length

instance decidableCounts (st : Storage) (i : StoredInode) : Decidable (st.Counts i) :=
  inferInstanceAs (Decidable (_ ∨ ∃ l ∈ st.entries _ _, _))

def visited (st : Storage) : Nat → Nat → Option StoredInode → List StoredInode
  | 0, _, _ => []
  | passes + 1, addr, inode =>
      match st.dentry addr with
      | none => []
      | some dentry =>
          match (st.inode dentry.dInode).or inode with
          | none => []
          | some inode =>
              inode :: if dentry.next < sizeofSuperBlock + sizeofInode * inodeMax then []
                else st.visited passes (dentry.next - 40) (some inode)

/-- The directories among the inodes count their dentries. -/
def CountsAll (st : Storage) (l : List StoredInode) : Prop :=
  ∀ i ∈ l, i.iMode = sIfdir → st.Counts i

instance decidableCountsAll (st : Storage) (l : List StoredInode) : Decidable (st.CountsAll l) :=
  inferInstanceAs (Decidable (∀ i ∈ l, _ → _))

end Storage

namespace Rootfs

def IsDir (s : Rootfs) (i : Nat) : Prop := s.bitmapInodes i = true ∧ (s.inodes i).iMode = sIfdir

/-- A regular file whose blocks are in the root file system. -/
def IsRegFile (s : Rootfs) (i : Nat) : Prop :=
  s.bitmapInodes i = true ∧ (s.inodes i).iMode = sIfreg ∧ (s.inodes i).iRdev = rdevRootfs

instance decidableIsDir (s : Rootfs) (i : Nat) : Decidable (s.IsDir i) :=
  inferInstanceAs (Decidable (_ ∧ _))

instance decidableIsRegFile (s : Rootfs) (i : Nat) : Decidable (s.IsRegFile i) :=
  inferInstanceAs (Decidable (_ ∧ _ ∧ _))

/-- `none` if the call cannot happen or writes outside of the blocks. -/
def step (s : Rootfs) : RootfsEvent → Option Rootfs
  | .addFile dir fileName fileType memory =>
      if s.IsDir dir then (s.fsAddFile dir fileName fileType memory).map Prod.fst else none
  | .mountDirectory storage src target passes =>
      if s.IsDir target ∧ s.mountCnt ≤ mountMax then do
        let s := { s with storages := Function.update s.storages s.mountCnt storage }
        let s ← s.fsMountDirectory passes s.mountCnt src target
        some { s with mountCnt := s.mountCnt + 1 }
      else none
  | .syncDirectory dir passes =>
      if s.IsDir dir ∧ (s.inodes dir).iSync = false then s.syncDirectory passes dir else none
  | .appendBlock ino =>
      if s.IsRegFile ino then (s.fsFileAppendBlock ino).map Prod.fst else none

/-- Files are added to directories that are loaded, and the directories that come from a
storage count their dentries there. -/
def EntryOk (s : Rootfs) : RootfsEvent → Prop
  | .addFile dir _ _ _ => (s.inodes dir).iSync = true
  | .mountDirectory storage src _ passes =>
      storage.CountsAll (storage.visited passes src.iData none)
  | .syncDirectory dir passes =>
      let storage := s.storages (s.inodes dir).iRdev
      storage.CountsAll (storage.visited passes (s.inodes dir).iData none)
  | .appendBlock _ => True

instance decidableEntryOk (s : Rootfs) : (e : RootfsEvent) → Decidable (s.EntryOk e)
  | .addFile _ _ _ _ => inferInstanceAs (Decidable (_ = _))
  | .mountDirectory storage _ _ _ => inferInstanceAs (Decidable (storage.CountsAll _))
  | .syncDirectory dir _ =>
      inferInstanceAs (Decidable ((s.storages (s.inodes dir).iRdev).CountsAll _))
  | .appendBlock _ => inferInstanceAs (Decidable True)

def dentriesOf (s : Rootfs) (dir : Nat) : List Nat := (s.inodes dir).iDentry.getD []

def blkOf (s : Rootfs) (addr : Nat) : Nat := (addr - s.sBlkAddr) / fsBlkSize

def fileBlocks (s : Rootfs) (ino : Nat) : List Nat :=
  (List.range (s.inodes ino).iBlocks).map fun i => s.bNext^[i] (s.inodes ino).iData

/-- The bytes of a dentry and of a block do not meet. -/
def Clear (s : Rootfs) (addr k : Nat) : Prop :=
  addr + sizeofDentry ≤ s.blkAddr k ∨ s.blkAddr (k + 1) ≤ addr

/-- The dentries of directories are apart from each other, each in a block that no other
directory and no file uses, and directories count their dentries and blocks. -/
structure DentriesApart (s : Rootfs) : Prop where
  inside : ∀ d, s.IsDir d → ∀ a ∈ s.dentriesOf d, ∃ k < fsBlkCnt, s.bitmapBlks k = true ∧
    s.blkAddr k ≤ a ∧ a + sizeofDentry ≤ s.blkAddr (k + 1) ∧
    (∀ d', s.IsDir d' → d' ≠ d → ∀ b ∈ s.dentriesOf d', s.Clear b k) ∧
    ∀ f, s.IsRegFile f → s.blkAddr k ∉ s.fileBlocks f
  apart : ∀ (d d' i j a b : Nat), s.IsDir d → s.IsDir d' → (s.dentriesOf d)[i]? = some a →
    (s.dentriesOf d')[j]? = some b → (d, i) ≠ (d', j) →
    a + sizeofDentry ≤ b ∨ b + sizeofDentry ≤ a
  loaded : ∀ d, s.IsDir d → (s.inodes d).iSync = true →
    (s.inodes d).iSize = sizeofDentry * (s.dentriesOf d).length ∧
    (s.inodes d).iBlocks = ((s.dentriesOf d).map s.blkOf).toFinset.card
  /-- The dentries are still on the storage. -/
  stored : ∀ d, s.IsDir d → (s.inodes d).iSync = false →
    s.dentriesOf d = [] ∧ (s.storages (s.inodes d).iRdev).Counts (storedInode (s.inodes d))

end Rootfs

end Tenok
