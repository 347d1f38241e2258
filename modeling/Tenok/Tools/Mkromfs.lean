import Tenok.Fs.FileBlocks
import Tenok.Fs.Paths

/-!
`mkromfs`. It imports the files of the host, one after the other, into an image with as many inodes
and blocks as the root file system, which are taken in their order. The contents of the files are
left out: what is kept of the blocks are the dentries and the ranges of `romfs_blk` that are written.
-/
namespace Tenok

/-- An inode of the image. `iDentry` is `none` where the list head is not initialized. -/
structure RomInode where
  iMode : Nat := 0
  iIno : Nat := 0
  iParent : Nat := 0
  iSize : Nat := 0
  iBlocks : Nat := 0
  iDentry : Option (List Nat) := none

/-- `romfs_sb`, `inodes` and `romfs_blk`. -/
structure Romfs where
  inodes : Nat → RomInode
  /-- The dentries by their places in `romfs_blk`. -/
  dentries : Nat → Dentry
  sInodeCnt : Nat
  sBlkCnt : Nat
  /-- The starts and the sizes of what is written to `romfs_blk`, the last one first. -/
  writes : List (Nat × Nat)
  inodesSet : List Nat
  exited : Bool

namespace Romfs

/-- `sizeof(struct block_header)`, and what it leaves of a block. -/
def blkHeadSize : Nat := 8
def blkFreeSize : Nat := fsBlkSize - blkHeadSize

def setInode (s : Romfs) (ino : Nat) (f : RomInode → RomInode) : Romfs :=
  { s with inodes := Function.update s.inodes ino (f (s.inodes ino)) }

def romfsInit : Romfs where
  inodes i := if i = 0 then { iMode := sIfdir, iDentry := some [] } else {}
  dentries _ := {}
  sInodeCnt := 1
  sBlkCnt := 0
  writes := []
  inodesSet := [0]
  exited := false

/-- `fs_search_file` with the inode that it finds. A list that is not initialized is at NULL. -/
def fsSearchFile (s : Romfs) (dir : Nat) (fileName : List Byte) : Option (Option Nat) :=
  if (s.inodes dir).iSize = 0 then some none
  else do
    let list ← (s.inodes dir).iDentry
    some ((list.find? fun a => (s.dentries a).dName = fileName).map fun a => (s.dentries a).dInode)

/-- The test of `fs_add_file` for room behind the last dentry. -/
def DentryFits (s : Romfs) (dir : Nat) : Prop :=
  (s.inodes dir).iSize / sizeofDentry + 1 ≤
    (s.inodes dir).iBlocks * (fsBlkSize / sizeofDentry) % 2 ^ 32 ∧ (s.inodes dir).iSize ≠ 0

instance decidableDentryFits (s : Romfs) (dir : Nat) : Decidable (s.DentryFits dir) :=
  inferInstanceAs (Decidable (_ ∧ _))

/-- The place of a new dentry in `fs_add_file`. There is no test for a free block. -/
def placeDentry (s : Romfs) (dir : Nat) : Option (Nat × Romfs) :=
  if s.DentryFits dir then
    ((s.inodes dir).iDentry.bind List.getLast?).map fun listEnd => (listEnd + sizeofDentry, s)
  else some (fsBlkSize * s.sBlkCnt, { s with sBlkCnt := s.sBlkCnt + 1 })

/-- The dentry is written for the next inode. -/
def writeDentry (s : Romfs) (addr dir : Nat) (fileName : List Byte) : Romfs :=
  { s with
    dentries := Function.update s.dentries addr
      { dName := fileName, dInode := s.sInodeCnt, dParent := (s.inodes dir).iIno }
    writes := (addr, sizeofDentry) :: s.writes }

def newInode (s : Romfs) (dir fileType : Nat) : Romfs :=
  { s.setInode s.sInodeCnt fun n =>
      { iMode := fileType
        iIno := s.sInodeCnt
        iParent := (s.inodes dir).iIno
        iDentry := if fileType = sIfdir then some [] else n.iDentry } with
    inodesSet := s.sInodeCnt :: s.inodesSet
    sInodeCnt := s.sInodeCnt + 1 }

/-- The dentry becomes the last one of the directory. -/
def insertDentry (s : Romfs) (dir addr : Nat) : Option Romfs := do
  let list ← (s.inodes dir).iDentry
  let iSize := ((s.inodes dir).iSize + sizeofDentry) % 2 ^ 32
  some (s.setInode dir fun d =>
    { d with
      iDentry := some (list ++ [addr])
      iSize
      iBlocks := fsCalculateDentryBlocks fsBlkSize (iSize / sizeofDentry) })

def fsAddFile (s : Romfs) (dir : Nat) (fileName : List Byte) (fileType : Nat) :
    Option (Romfs × Option Nat) :=
  if inodeMax ≤ s.sInodeCnt then some (s, none)
  else do
    let (addr, s) ← s.placeDentry dir
    let s ← ((s.writeDentry addr dir fileName).newInode dir fileType).insertDentry dir addr
    some (s, some (s.sInodeCnt - 1))

/-- The loop of `fs_create_file`. A name without room in its buffer would be written behind it, and a
path at NULL is not there to split. -/
def createLoop (fileType : Nat) : Nat → Romfs → Nat → Option (List Byte) →
    Option (Romfs × Option Nat)
  | 0, _, _, _ => none
  | n + 1, s, inodeCurr, path => do
      let (entry, path) ← fsSplitPath (← path)
      if entry = [] then createLoop fileType n s inodeCurr path
      else if nameMax ≤ entry.length then none
      else do
        let inode ← s.fsSearchFile inodeCurr entry
        if path.isSome then
          match inode with
          | some i => createLoop fileType n s i path
          | none => do
              let (s, inode) ← s.fsAddFile inodeCurr entry sIfdir
              match inode with
              | none => some (s, none)
              | some i => createLoop fileType n s i path
        else if inode.isSome then some (s, none)
        else s.fsAddFile inodeCurr entry fileType

def fsCreateFile (s : Romfs) (pathname : List Byte) (fileType : Nat) :
    Option (Romfs × Option Nat) :=
  if pathname.head? ≠ some slash then some (s, none)
  else do
    let (_, path) ← fsSplitPath pathname
    createLoop fileType pathname.length s 0 path

def leftSpace (s : Romfs) : Int :=
  (BitVec.ofInt 32 (fsBlkSize * ((fsBlkCnt : Int) - s.sBlkCnt))).toInt

def fileBlks (fileSize : Nat) : Nat :=
  fileSize / blkFreeSize + if 0 < fileSize % blkFreeSize then 1 else 0

/-- The loop of `romfs_import_file`, with the last block that was written. -/
def writeBlks : Nat → Romfs → Nat → Option Nat → Romfs
  | 0, s, _, _ => s
  | n + 1, s, remained, lastBlk =>
      let addr := fsBlkSize * s.sBlkCnt
      let size := if blkFreeSize < remained then blkFreeSize else remained
      let remained := if blkFreeSize < remained then remained - blkFreeSize else remained
      let heads := (lastBlk.map fun last => (last, blkHeadSize)).toList
      writeBlks n { s with
        sBlkCnt := s.sBlkCnt + 1
        writes := (addr + blkHeadSize, size) :: (addr, blkHeadSize) :: heads ++ s.writes } remained
        (some addr)

def romfsImportFile (s : Romfs) (romfsPath : List Byte) (fileSize : Option Nat) : Option Romfs := do
  let (s, inode) ← s.fsCreateFile romfsPath sIfreg
  match inode with
  | none => some { s with exited := true }
  | some ino =>
      match fileSize with
      | none => some { s with exited := true }
      | some size =>
          if size = 0 then some s
          else if s.leftSpace < size then some { s with exited := true }
          else some (writeBlks (fileBlks size) (s.setInode ino fun n =>
            { n with iSize := size % 2 ^ 32, iBlocks := fileBlks size }) size none)

/-- A file of the host, with its path in the image. -/
def step (s : Romfs) (file : List Byte × Option Nat) : Option Romfs :=
  if s.exited then none else s.romfsImportFile file.1 file.2

/-- What was written is inside of `romfs_blk` and `inodes`. -/
structure InImage (s : Romfs) : Prop where
  blks : ∀ w ∈ s.writes, w.1 + w.2 ≤ fsBlkSize * fsBlkCnt
  inodes : ∀ i ∈ s.inodesSet, i < inodeMax

def names (es : List (List Byte)) : List (List Byte) := es.filter (· ≠ [])

/-- The directory in which the first name of a path is not found that is missing, and how many names
there are from this one on. -/
def missing (s : Romfs) : List (List Byte) → Nat → Option (Nat × Nat)
  | [], _ => none
  | entry :: es, dir =>
      if entry = [] then missing s es dir
      else
        match s.fsSearchFile dir entry with
        | some (some i) => missing s es i
        | _ => some (dir, (names (entry :: es)).length)

def missingOf (s : Romfs) (pathname : List Byte) : Option (Nat × Nat) :=
  if pathname.head? = some slash then s.missing (entries pathname.tail) 0 else none

/-- The blocks for the dentries of the names, as far as there are inodes for them. A directory that
is new has none. -/
def dentryBlks (s : Romfs) (dir names : Nat) : Nat :=
  let added := min names (inodeMax - s.sInodeCnt)
  if added = 0 then 0 else added - 1 + if s.DentryFits dir then 0 else 1

/-- The blocks that are used once the file is created. -/
def blkCntCreated (s : Romfs) (pathname : List Byte) : Nat :=
  s.sBlkCnt + (s.missingOf pathname).elim 0 fun place => s.dentryBlks place.1 place.2

/-- There are blocks for the dentries. If there are inodes for all of them, and the file is not
larger than the blocks that are left then, there are blocks for the file with their headers. -/
def FitsOk (s : Romfs) (file : List Byte × Option Nat) : Prop :=
  s.blkCntCreated file.1 ≤ fsBlkCnt ∧ ∀ place ∈ s.missingOf file.1,
    place.2 ≤ inodeMax - s.sInodeCnt → ∀ size ∈ file.2,
      size ≤ fsBlkSize * (fsBlkCnt - s.blkCntCreated file.1) →
      s.blkCntCreated file.1 + fileBlks size ≤ fsBlkCnt

instance decidableFitsOk (s : Romfs) (file : List Byte × Option Nat) : Decidable (s.FitsOk file) :=
  inferInstanceAs (Decidable (_ ∧ ∀ _ ∈ s.missingOf file.1, _))

/-- A list of dentries of which the last one has its block for itself if it is an odd one. -/
def Listed (s : Romfs) (inode : RomInode) (list : List Nat) : Prop :=
  (∀ a ∈ list, (s.dentries a).dInode < s.sInodeCnt) ∧
  ∃ n ≤ s.sInodeCnt, inode.iSize = sizeofDentry * n ∧ inode.iBlocks = (n + 1) / 2 ∧
    (n % 2 = 1 → ∃ k < s.sBlkCnt, list.getLast? = some (fsBlkSize * k))

/-- What holds whatever is imported. The blocks in use are those up to the last one written. -/
structure Inv (s : Romfs) : Prop where
  below : ∀ w ∈ s.writes, w.1 + w.2 ≤ fsBlkSize * s.sBlkCnt
  last : s.sBlkCnt ≠ 0 → ∃ w ∈ s.writes, fsBlkSize * s.sBlkCnt < w.1 + w.2 + fsBlkSize
  inodes : ∀ i ∈ s.inodesSet, i < inodeMax
  inodeCnt : 0 < s.sInodeCnt ∧ s.sInodeCnt ≤ inodeMax
  unused : ∀ i, s.sInodeCnt ≤ i → s.inodes i = {}
  listed : ∀ d list, (s.inodes d).iDentry = some list → s.Listed (s.inodes d) list

variable {s s' t : Romfs} {dir d i n m curr fileType : Nat} {r : Option Nat} {name entry : List Byte}
  {es : List (List Byte)} {pathname : List Byte} {last : Option Nat}

theorem Inv.within_iff (h : Inv s) : InImage s ↔ s.sBlkCnt ≤ fsBlkCnt := by
  have hblk : fsBlkSize = 128 := rfl
  have hcnt : fsBlkCnt = 100 := rfl
  constructor
  · intro hin
    by_contra hmany
    obtain ⟨w, hw, hlt⟩ := h.last (by omega)
    have hle := hin.blks w hw
    rw [hblk] at hlt hle
    omega
  · intro hle
    exact ⟨fun w hw => (h.below w hw).trans (Nat.mul_le_mul_left _ hle), h.inodes⟩

theorem romfsInit_inv : Inv romfsInit where
  below _ hw := absurd hw List.not_mem_nil
  last h := absurd rfl h
  inodes i hi := by
    rw [List.mem_singleton.mp hi]
    decide
  inodeCnt := by decide
  unused i hi := if_neg (Nat.ne_of_gt hi)
  listed d list hlist := by
    simp only [romfsInit] at hlist ⊢
    split at hlist
    · next hroot =>
        obtain rfl := Option.some.inj hlist
        rw [if_pos hroot]
        exact ⟨fun a ha => absurd ha List.not_mem_nil, 0, Nat.zero_le 1, rfl, rfl, by simp⟩
    · cases hlist

theorem Inv.setInode {f : RomInode → RomInode} (h : Inv s) (hi : i < s.sInodeCnt)
    (hnone : (f (s.inodes i)).iDentry = none) : Inv (s.setInode i f) := by
  refine ⟨h.below, h.last, h.inodes, h.inodeCnt, fun j hj => ?_, fun d list hlist => ?_⟩
  · have hne : j ≠ i := by
      rintro rfl
      exact Nat.not_le.mpr hi hj
    exact (Function.update_of_ne hne ..).trans (h.unused j hj)
  · have hne : d ≠ i := by
      rintro rfl
      simp only [Romfs.setInode, Function.update_self, hnone] at hlist
      cases hlist
    simp only [Romfs.setInode, Function.update_of_ne hne] at hlist ⊢
    exact h.listed d list hlist

theorem dentryFits_iff (hn : n ≤ inodeMax) (hsize : (s.inodes dir).iSize = sizeofDentry * n)
    (hblocks : (s.inodes dir).iBlocks = (n + 1) / 2) : s.DentryFits dir ↔ n % 2 = 1 :=
  dentry_room_iff hsize hblocks hn

/-- What counts the dentries of a list does not change with what is added elsewhere. -/
theorem Listed.mono {inode : RomInode} {list : List Nat} (h : s.Listed inode list)
    (hinodes : s.sInodeCnt ≤ s'.sInodeCnt) (hblks : s.sBlkCnt ≤ s'.sBlkCnt)
    (hdentries : ∀ a, (s.dentries a).dInode < s.sInodeCnt → (s'.dentries a).dInode < s'.sInodeCnt) :
    s'.Listed inode list := by
  obtain ⟨hlist, n, hn, hsize, hblocks, hodd⟩ := h
  refine ⟨fun a ha => hdentries a (hlist a ha), n, hn.trans hinodes, hsize, hblocks, fun h1 => ?_⟩
  obtain ⟨k, hk, hlast⟩ := hodd h1
  exact ⟨k, hk.trans_le hblks, hlast⟩

theorem fsAddFile_cases (hadd : s.fsAddFile dir name fileType = some (s', r)) :
    (inodeMax ≤ s.sInodeCnt ∧ s' = s ∧ r = none) ∨
      s.sInodeCnt < inodeMax ∧ ∃ addr s₁, s.placeDentry dir = some (addr, s₁) ∧
        ((s₁.writeDentry addr dir name).newInode dir fileType).insertDentry dir addr = some s' ∧
        r = some (s'.sInodeCnt - 1) := by
  rw [Romfs.fsAddFile] at hadd
  split at hadd
  · next hfull =>
      obtain ⟨rfl, rfl⟩ := Prod.mk.inj (Option.some.inj hadd)
      exact Or.inl ⟨hfull, rfl, rfl⟩
  · next hroom =>
      obtain ⟨⟨addr, s₁⟩, hplace, hadd⟩ := Option.bind_eq_some_iff.mp hadd
      obtain ⟨s₂, hinsert, hadd⟩ := Option.bind_eq_some_iff.mp hadd
      obtain ⟨rfl, rfl⟩ := Prod.mk.inj (Option.some.inj hadd)
      exact Or.inr ⟨Nat.lt_of_not_le hroom, addr, s₁, hplace, hinsert, rfl⟩

theorem placeDentry_eq {addr : Nat} {s₁ : Romfs} (hplace : s.placeDentry dir = some (addr, s₁)) :
    s₁ = { s with sBlkCnt := s.sBlkCnt + if s.DentryFits dir then 0 else 1 } := by
  rw [Romfs.placeDentry] at hplace
  split at hplace
  · next hfit =>
      obtain ⟨listEnd, -, hend⟩ := Option.map_eq_some_iff.mp hplace
      obtain ⟨-, rfl⟩ := Prod.mk.inj hend
      rw [if_pos hfit, Nat.add_zero]
  · next hfit =>
      obtain ⟨-, rfl⟩ := Prod.mk.inj (Option.some.inj hplace)
      rw [if_neg hfit]

theorem Listed.placeDentry {list : List Nat} {addr : Nat} {s₁ : Romfs}
    (h : s.Listed (s.inodes dir) list) (hcnt : s.sInodeCnt ≤ inodeMax)
    (hlist : (s.inodes dir).iDentry = some list) (hplace : s.placeDentry dir = some (addr, s₁)) :
    addr + sizeofDentry ≤ fsBlkSize * s₁.sBlkCnt ∧
      (¬ s.DentryFits dir → addr = fsBlkSize * s.sBlkCnt) := by
  obtain ⟨-, n, hn, hsize, hblocks, hodd⟩ := h
  have hfits := dentryFits_iff (hn.trans hcnt) hsize hblocks
  have hblk : fsBlkSize = 128 := rfl
  have hdentry : sizeofDentry = 56 := rfl
  rw [Romfs.placeDentry] at hplace
  split at hplace
  · next hfit =>
      obtain ⟨k, hk, hlast⟩ := hodd (hfits.mp hfit)
      rw [hlist, Option.bind_some, hlast, Option.map_some] at hplace
      obtain ⟨rfl, rfl⟩ := Prod.mk.inj (Option.some.inj hplace)
      refine ⟨?_, fun hno => absurd hfit hno⟩
      rw [hblk, hdentry]
      omega
  · next hfit =>
      obtain ⟨rfl, rfl⟩ := Prod.mk.inj (Option.some.inj hplace)
      refine ⟨?_, fun _ => rfl⟩
      simp only [hblk, hdentry]
      omega

structure Added (s s' : Romfs) (dir fileType : Nat) : Prop where
  inv : Inv s'
  sInodeCnt : s'.sInodeCnt = s.sInodeCnt + 1
  sBlkCnt : s'.sBlkCnt = s.sBlkCnt + if s.DentryFits dir then 0 else 1
  size : (s'.inodes s.sInodeCnt).iSize = 0
  list : fileType = sIfreg → (s'.inodes s.sInodeCnt).iDentry = none

theorem Listed.add {inode : RomInode} {list : List Nat} {addr : Nat} (h : s.Listed inode list)
    (hcnt : s.sInodeCnt ≤ inodeMax) (hinodes : s'.sInodeCnt = s.sInodeCnt + 1)
    (hlist : ∀ a ∈ list, (s'.dentries a).dInode < s'.sInodeCnt)
    (haddr : (s'.dentries addr).dInode < s'.sInodeCnt)
    (hplace : ∀ n, inode.iSize = sizeofDentry * n → n ≤ inodeMax → inode.iBlocks = (n + 1) / 2 →
      n % 2 = 0 → ∃ k < s'.sBlkCnt, addr = fsBlkSize * k) :
    s'.Listed { inode with
      iDentry := some (list ++ [addr])
      iSize := (inode.iSize + sizeofDentry) % 2 ^ 32
      iBlocks := fsCalculateDentryBlocks fsBlkSize
        ((inode.iSize + sizeofDentry) % 2 ^ 32 / sizeofDentry) } (list ++ [addr]) := by
  obtain ⟨-, n, hn, hsize, hblocks, -⟩ := h
  have hdentry : sizeofDentry = 56 := rfl
  have hmax : inodeMax = 100 := rfl
  have hmod : (inode.iSize + sizeofDentry) % 2 ^ 32 = sizeofDentry * (n + 1) := by
    rw [hsize, hdentry]
    omega
  refine ⟨fun a ha => ?_, n + 1, by omega, hmod, ?_, fun hodd => ?_⟩
  · rcases List.mem_append.mp ha with ha | ha
    · exact hlist a ha
    · rw [List.mem_singleton.mp ha]
      exact haddr
  · show fsCalculateDentryBlocks fsBlkSize _ = _
    rw [hmod, Nat.mul_div_cancel_left _ (by decide), Rootfs.fsCalculateDentryBlocks_eq]
  · obtain ⟨k, hk, rfl⟩ := hplace n hsize (by omega) hblocks (by omega)
    exact ⟨k, hk, List.getLast?_concat⟩

theorem Inv.fsAddFile (h : Inv s) (hdir : dir < s.sInodeCnt)
    (hadd : s.fsAddFile dir name fileType = some (s', r)) :
    (inodeMax ≤ s.sInodeCnt ∧ s' = s ∧ r = none) ∨
      (s.sInodeCnt < inodeMax ∧ r = some s.sInodeCnt ∧ Added s s' dir fileType) := by
  rcases fsAddFile_cases hadd with hfull | ⟨hroom, addr, s₁, hplace, hinsert, hr⟩
  · exact Or.inl hfull
  have hnew : dir ≠ s.sInodeCnt := Nat.ne_of_lt hdir
  obtain ⟨list, hlist, hs'⟩ := Option.bind_eq_some_iff.mp hinsert
  have hs₁ := placeDentry_eq hplace
  have hlist₀ : (s.inodes dir).iDentry = some list := by
    simpa only [hs₁, newInode, writeDentry, Romfs.setInode, Function.update_of_ne hnew] using hlist
  have hlisted := h.listed dir list hlist₀
  obtain ⟨hbelow, hstart⟩ := hlisted.placeDentry h.inodeCnt.2 hlist₀ hplace
  subst hs₁
  obtain rfl := Option.some.inj hs'
  have hdentries : ∀ a, (s.dentries a).dInode < s.sInodeCnt →
      (Function.update s.dentries addr ⟨name, s.sInodeCnt, (s.inodes dir).iIno⟩ a).dInode <
        s.sInodeCnt + 1 := by
    intro a ha
    by_cases haddr : a = addr
    · rw [haddr, Function.update_self]
      exact Nat.lt_succ_self _
    · rw [Function.update_of_ne haddr]
      exact Nat.lt_succ_of_lt ha
  have hblk : fsBlkSize = 128 := rfl
  have hdentry : sizeofDentry = 56 := rfl
  refine Or.inr ⟨hroom, hr, ⟨⟨?_, ?_, ?_, ?_, ?_, ?_⟩, rfl, rfl, ?_, ?_⟩⟩
  · intro w hw
    rcases List.mem_cons.mp hw with rfl | hw
    · exact hbelow
    · exact (h.below w hw).trans (Nat.mul_le_mul_left _ (Nat.le_add_right _ _))
  · intro hne
    by_cases hfit : s.DentryFits dir
    · simp only [newInode, writeDentry, Romfs.setInode, if_pos hfit, Nat.add_zero] at hne ⊢
      obtain ⟨w, hw, hlt⟩ := h.last hne
      exact ⟨w, List.mem_cons_of_mem _ hw, hlt⟩
    · refine ⟨(addr, sizeofDentry), List.mem_cons_self, ?_⟩
      simp only [newInode, writeDentry, Romfs.setInode, if_neg hfit, hstart hfit, hblk, hdentry]
      omega
  · intro j hj
    rcases List.mem_cons.mp hj with rfl | hj
    · exact hroom
    · exact h.inodes j hj
  · exact ⟨Nat.succ_pos _, hroom⟩
  · intro j hj
    have hj' : s.sInodeCnt < j := hj
    simp only [newInode, writeDentry, Romfs.setInode]
    rw [Function.update_of_ne (by omega), Function.update_of_ne (by omega)]
    exact h.unused j hj'.le
  · intro d list' hd
    by_cases hdd : d = dir
    · subst hdd
      simp only [newInode, writeDentry, Romfs.setInode, Function.update_self,
        Function.update_of_ne hnew] at hd ⊢
      obtain rfl := Option.some.inj hd
      refine hlisted.add h.inodeCnt.2 rfl (fun a ha => hdentries a (hlisted.1 a ha)) ?_ ?_
      · simp only [Function.update_self]
        exact Nat.lt_succ_self _
      · intro n hsize hn hblocks heven
        have hfit : ¬ s.DentryFits d := by
          rw [dentryFits_iff hn hsize hblocks]
          omega
        rw [if_neg hfit]
        exact ⟨s.sBlkCnt, Nat.lt_succ_self _, hstart hfit⟩
    · by_cases hdn : d = s.sInodeCnt
      · subst hdn
        simp only [newInode, writeDentry, Romfs.setInode, Function.update_self,
          Function.update_of_ne hnew.symm, h.unused _ (Nat.le_refl _)] at hd ⊢
        have hnil : list' = [] := by
          split at hd
          · exact (Option.some.inj hd).symm
          · cases hd
        rw [hnil]
        exact ⟨fun a ha => absurd ha List.not_mem_nil, 0, Nat.zero_le _, rfl, rfl, by simp⟩
      · simp only [newInode, writeDentry, Romfs.setInode, Function.update_of_ne hdd,
          Function.update_of_ne hdn] at hd ⊢
        exact (h.listed d list' hd).mono (Nat.le_succ _) (Nat.le_add_right _ _) hdentries
  · simp only [newInode, writeDentry, Romfs.setInode, Function.update_of_ne hnew.symm,
      Function.update_self]
  · intro hreg
    simp only [newInode, writeDentry, Romfs.setInode, Function.update_of_ne hnew.symm,
      Function.update_self, hreg]
    rw [if_neg (by decide), h.unused _ (Nat.le_refl _)]

theorem Inv.fsSearchFile (h : Inv s) {ino : Nat} (hsearch : s.fsSearchFile dir name = some (some ino)) :
    ino < s.sInodeCnt := by
  rw [Romfs.fsSearchFile] at hsearch
  split at hsearch
  · cases hsearch
  · obtain ⟨list, hlist, hfind⟩ := Option.bind_eq_some_iff.mp hsearch
    obtain ⟨a, ha, rfl⟩ := Option.map_eq_some_iff.mp (Option.some.inj hfind)
    exact (h.listed dir list hlist).1 a (List.mem_of_find?_eq_some ha)

/-- The loop of `fs_create_file` along the entries of a path. -/
def createAlong (fileType : Nat) : List (List Byte) → Romfs → Nat → Option (Romfs × Option Nat)
  | [], _, _ => none
  | entry :: es, s, inodeCurr =>
      if entry = [] then createAlong fileType es s inodeCurr
      else if nameMax ≤ entry.length then none
      else do
        let inode ← s.fsSearchFile inodeCurr entry
        if es ≠ [] then
          match inode with
          | some i => createAlong fileType es s i
          | none => do
              let (s, inode) ← s.fsAddFile inodeCurr entry sIfdir
              match inode with
              | none => some (s, none)
              | some i => createAlong fileType es s i
        else if inode.isSome then some (s, none)
        else s.fsAddFile inodeCurr entry fileType

theorem createLoop_eq {path : List Byte} (hpath : path ≠ []) (hn : path.length ≤ n) :
    createLoop fileType n s curr (some path) = createAlong fileType (entries path) s curr := by
  induction n generalizing path s curr with
  | zero => exact absurd (List.length_eq_zero_iff.mp (Nat.le_zero.mp hn)) hpath
  | succ n ih =>
      obtain ⟨entry, rest, hsplit, hentries, hrest⟩ := fsSplitPath_spec hpath
      have hnext : ∀ s i, createLoop fileType n s i rest =
          createAlong fileType (entries (rest.getD [])) s i := by
        intro s i
        cases hr : rest with
        | none => cases n <;> rfl
        | some r =>
            obtain ⟨hne, hlt⟩ := hrest r hr
            exact ih hne (by omega)
      have hsome : rest.isSome ↔ entries (rest.getD []) ≠ [] := by
        cases hr : rest with
        | none => simp [entries]
        | some r => simp [entries_eq_nil, (hrest r hr).1]
      rw [createLoop, hentries, createAlong]
      simp only [Option.bind_eq_bind, Option.bind_some, hsplit, hnext, hsome]

theorem fsCreateFile_eq : s.fsCreateFile pathname fileType =
    if pathname.head? ≠ some slash then some (s, none)
    else createAlong fileType (entries pathname.tail) s 0 := by
  cases pathname with
  | nil => rfl
  | cons c path =>
      by_cases hc : c = slash
      · subst hc
        rw [Romfs.fsCreateFile, if_neg (by simp), if_neg (by simp), fsSplitPath, if_pos rfl]
        by_cases hpath : path = []
        · subst hpath
          rfl
        · rw [if_neg hpath]
          exact createLoop_eq hpath (Nat.le_succ _)
      · rw [Romfs.fsCreateFile, if_pos (by simpa using hc), if_pos (by simpa using hc)]

theorem createAlong_names (hcreate : createAlong fileType es s curr = some (s', r)) :
    names es ≠ [] := by
  induction es generalizing curr with
  | nil => cases hcreate
  | cons entry es ih =>
      by_cases hentry : entry = []
      · rw [createAlong, if_pos hentry] at hcreate
        rw [names, List.filter_cons_of_neg (by simpa using hentry)]
        exact ih hcreate
      · rw [names, List.filter_cons_of_pos (by simpa using hentry)]
        exact List.cons_ne_nil _ _

theorem missing_empty (hsize : (s.inodes curr).iSize = 0) (hnames : names es ≠ []) :
    s.missing es curr = some (curr, (names es).length) := by
  induction es with
  | nil => exact absurd rfl hnames
  | cons entry es ih =>
      by_cases hentry : entry = []
      · have htail : names (entry :: es) = names es :=
          List.filter_cons_of_neg (by simpa using hentry)
        rw [htail] at hnames ⊢
        rw [missing, if_pos hentry, ih hnames]
      · rw [missing, if_neg hentry, Romfs.fsSearchFile, if_pos hsize]

/-- What is taken for the names that are missing from a directory on. -/
structure Created (s s' : Romfs) (dir names : Nat) (r : Option Nat) : Prop where
  inv : Inv s'
  sBlkCnt : s'.sBlkCnt = s.sBlkCnt + s.dentryBlks dir names
  all : r.isSome ↔ names ≤ inodeMax - s.sInodeCnt
  list : ∀ ino ∈ r, ino < s'.sInodeCnt ∧ (s'.inodes ino).iDentry = none

theorem Inv.created_full (h : Inv s) (hfull : inodeMax ≤ s.sInodeCnt) (hn : 0 < n) :
    Created s s dir n none := by
  have hroom : inodeMax - s.sInodeCnt = 0 := Nat.sub_eq_zero_of_le hfull
  refine ⟨h, ?_, ?_, fun ino hino => by cases hino⟩
  · simp only [dentryBlks, hroom, Nat.min_zero, if_true, Nat.add_zero]
  · refine iff_of_false Bool.false_ne_true ?_
    omega

theorem Added.created (h : Added s s' dir sIfreg) (hroom : s.sInodeCnt < inodeMax) :
    Created s s' dir 1 (some s.sInodeCnt) := by
  refine ⟨h.inv, ?_, iff_of_true rfl (by omega), fun ino hino => ?_⟩
  · have hmin : min 1 (inodeMax - s.sInodeCnt) = 1 := by omega
    rw [h.sBlkCnt, dentryBlks, hmin, if_neg Nat.one_ne_zero, Nat.sub_self, Nat.zero_add]
  · obtain rfl := Option.some.inj hino
    rw [h.sInodeCnt]
    exact ⟨Nat.lt_succ_self _, h.list rfl⟩

theorem Created.cons (hadd : Added s s' dir sIfdir) (hroom : s.sInodeCnt < inodeMax)
    (h : Created s' t s.sInodeCnt n r) (hn : 0 < n) : Created s t dir (n + 1) r := by
  have hcnt := hadd.sInodeCnt
  refine ⟨h.inv, ?_, h.all.trans (by omega), h.list⟩
  have hempty : ¬ s'.DentryFits s.sInodeCnt := fun hfit => hfit.2 hadd.size
  rw [h.sBlkCnt, hadd.sBlkCnt, dentryBlks, dentryBlks, if_neg hempty, hcnt]
  have hadded : min (n + 1) (inodeMax - s.sInodeCnt) = min n (inodeMax - (s.sInodeCnt + 1)) + 1 := by
    omega
  rw [hadded, if_neg (Nat.succ_ne_zero _), Nat.add_sub_cancel]
  by_cases hzero : min n (inodeMax - (s.sInodeCnt + 1)) = 0
  · rw [if_pos hzero, hzero]
    omega
  · rw [if_neg hzero]
    omega

/-- A file is created for all the names that are missing, as far as there are inodes. -/
theorem Inv.createAlong (h : Inv s) (hcurr : curr < s.sInodeCnt)
    (hcreate : createAlong sIfreg es s curr = some (s', r)) :
    match s.missing es curr with
    | none => s' = s ∧ r = none
    | some (dir, n) => Created s s' dir n r := by
  induction es generalizing s curr with
  | nil => cases hcreate
  | cons entry es ih =>
      rw [Romfs.createAlong] at hcreate
      rw [missing]
      by_cases hentry : entry = []
      · rw [if_pos hentry] at hcreate ⊢
        exact ih h hcurr hcreate
      rw [if_neg hentry] at hcreate ⊢
      have hcons : names (entry :: es) = entry :: names es :=
        List.filter_cons_of_pos (by simpa using hentry)
      split at hcreate
      · cases hcreate
      obtain ⟨inode, hsearch, hcreate⟩ := Option.bind_eq_some_iff.mp hcreate
      rw [hsearch]
      cases inode with
      | some i =>
          dsimp only at hcreate ⊢
          by_cases hes : es = []
          · subst hes
            obtain ⟨rfl, rfl⟩ := Prod.mk.inj (Option.some.inj hcreate)
            exact ⟨rfl, rfl⟩
          · rw [if_pos hes] at hcreate
            exact ih h (h.fsSearchFile hsearch) hcreate
      | none =>
          dsimp only at hcreate ⊢
          by_cases hes : es = []
          · subst hes
            rcases h.fsAddFile hcurr hcreate with ⟨hfull, rfl, rfl⟩ | ⟨hroom, rfl, hadd⟩
            · exact h.created_full hfull (by simp [hcons])
            · rw [hcons]
              exact hadd.created hroom
          · rw [if_pos hes] at hcreate
            obtain ⟨⟨s₁, inode⟩, hdir, hcreate⟩ := Option.bind_eq_some_iff.mp hcreate
            rcases h.fsAddFile hcurr hdir with ⟨hfull, rfl, rfl⟩ | ⟨hroom, rfl, hadd⟩
            · obtain ⟨rfl, rfl⟩ := Prod.mk.inj (Option.some.inj hcreate)
              exact h.created_full hfull (by simp [hcons])
            · have hnames := createAlong_names hcreate
              have hlt : s.sInodeCnt < s₁.sInodeCnt := by
                rw [hadd.sInodeCnt]
                exact Nat.lt_succ_self _
              have hrest := ih hadd.inv hlt hcreate
              rw [missing_empty hadd.size hnames] at hrest
              rw [hcons]
              exact Created.cons hadd hroom hrest (List.length_pos_iff.mpr hnames)

theorem Inv.fsCreateFile (h : Inv s) (hcreate : s.fsCreateFile pathname sIfreg = some (s', r)) :
    Inv s' ∧ s'.sBlkCnt = s.blkCntCreated pathname ∧
      (r.isSome ↔ ∃ place ∈ s.missingOf pathname, place.2 ≤ inodeMax - s.sInodeCnt) ∧
      ∀ ino ∈ r, ino < s'.sInodeCnt ∧ (s'.inodes ino).iDentry = none := by
  rw [fsCreateFile_eq] at hcreate
  rw [blkCntCreated, missingOf]
  by_cases hslash : pathname.head? = some slash
  · rw [if_neg (not_not.mpr hslash)] at hcreate
    have hcreated := h.createAlong h.inodeCnt.1 hcreate
    rw [if_pos hslash]
    cases hmissing : s.missing (entries pathname.tail) 0 with
    | none =>
        rw [hmissing] at hcreated
        obtain ⟨rfl, rfl⟩ := hcreated
        exact ⟨h, rfl, by simp, by simp⟩
    | some place =>
        rw [hmissing] at hcreated
        exact ⟨hcreated.inv, hcreated.sBlkCnt, by simpa using hcreated.all, hcreated.list⟩
  · rw [if_pos hslash] at hcreate
    obtain ⟨rfl, rfl⟩ := Prod.mk.inj (Option.some.inj hcreate)
    rw [if_neg hslash]
    exact ⟨h, rfl, by simp, by simp⟩

theorem Inv.nextBlk (h : Inv s) {ws : List (Nat × Nat)}
    (hin : ∀ w ∈ ws, w.1 + w.2 ≤ fsBlkSize * (s.sBlkCnt + 1))
    (hstart : ∃ w ∈ ws, fsBlkSize * s.sBlkCnt < w.1 + w.2) :
    Inv { s with sBlkCnt := s.sBlkCnt + 1, writes := ws ++ s.writes } := by
  refine ⟨fun w hw => ?_, fun _ => ?_, h.inodes, h.inodeCnt, h.unused, fun d list hd => ?_⟩
  · rcases List.mem_append.mp hw with hw | hw
    · exact hin w hw
    · exact (h.below w hw).trans (Nat.mul_le_mul_left _ (Nat.le_succ _))
  · obtain ⟨w, hw, hlt⟩ := hstart
    exact ⟨w, List.mem_append_left _ hw, Nat.add_lt_add_right hlt _⟩
  · exact (h.listed d list hd).mono (Nat.le_refl _) (Nat.le_succ _) fun _ ha => ha

theorem Inv.writeBlks {remained : Nat} (h : Inv s)
    (hlast : ∀ a ∈ last, a + blkHeadSize ≤ fsBlkSize * s.sBlkCnt) :
    Inv (writeBlks n s remained last) ∧ (writeBlks n s remained last).sBlkCnt = s.sBlkCnt + n := by
  induction n generalizing s remained last with
  | zero => exact ⟨h, rfl⟩
  | succ n ih =>
      have hblk : fsBlkSize = 128 := rfl
      have hhead : blkHeadSize = 8 := rfl
      have hfree : blkFreeSize = 120 := rfl
      have hmul : fsBlkSize * (s.sBlkCnt + 1) = fsBlkSize * s.sBlkCnt + 128 := Nat.mul_succ _ _
      have hsize : (if blkFreeSize < remained then blkFreeSize else remained) ≤ 120 := by
        split <;> omega
      rw [Romfs.writeBlks]
      refine And.imp_right (fun hcnt => hcnt.trans (Nat.add_right_comm ..))
        (ih (h.nextBlk (fun w hw => ?_) ⟨_, List.mem_cons_self, ?_⟩) fun a ha => ?_)
      · simp only [List.mem_cons, Option.mem_toList, Option.map_eq_some_iff] at hw
        rcases hw with rfl | rfl | ⟨a, ha, rfl⟩
        · simp only
          omega
        · simp only
          omega
        · have hle := hlast a ha
          simp only
          omega
      · simp only
        omega
      · obtain rfl := Option.some.inj ha
        simp only
        omega

theorem leftSpace_eq (hcnt : s.sBlkCnt ≤ fsBlkCnt) :
    s.leftSpace = (fsBlkSize * (fsBlkCnt - s.sBlkCnt) : Nat) := by
  have hblk : fsBlkSize = 128 := rfl
  have hmax : fsBlkCnt = 100 := rfl
  rw [hmax] at hcnt
  rw [leftSpace, BitVec.toInt_ofInt, hblk, hmax, Int.bmod_eq_of_le] <;> omega

theorem Inv.step {file : List Byte × Option Nat} (h : Inv s) (hstep : s.step file = some s') :
    Inv s' ∧ (s.FitsOk file ↔ s'.sBlkCnt ≤ fsBlkCnt) := by
  rw [Romfs.step] at hstep
  split at hstep
  · cases hstep
  obtain ⟨⟨s₁, inode⟩, hcreate, hstep⟩ := Option.bind_eq_some_iff.mp hstep
  obtain ⟨hinv, hcnt, hall, hino⟩ := h.fsCreateFile hcreate
  have hfits : s.FitsOk file ↔ s₁.sBlkCnt ≤ fsBlkCnt ∧ (inode.isSome → ∀ size ∈ file.2,
      size ≤ fsBlkSize * (fsBlkCnt - s₁.sBlkCnt) → s₁.sBlkCnt + fileBlks size ≤ fsBlkCnt) := by
    rw [hall, FitsOk, ← hcnt]
    simp only [forall_exists_index, and_imp]
  have hexit : Inv { s₁ with exited := true } :=
    ⟨hinv.below, hinv.last, hinv.inodes, hinv.inodeCnt, hinv.unused, hinv.listed⟩
  rw [hfits]
  cases inode with
  | none =>
      obtain rfl := Option.some.inj hstep
      exact ⟨hexit, and_iff_left fun hsome => by cases hsome⟩
  | some ino =>
      obtain ⟨hused, hnone⟩ := hino ino rfl
      dsimp only at hstep
      cases hsize : file.2 with
      | none =>
          rw [hsize] at hstep
          obtain rfl := Option.some.inj hstep
          exact ⟨hexit, and_iff_left fun _ size hmem => by cases hmem⟩
      | some size =>
          rw [hsize] at hstep
          dsimp only at hstep
          have hmem : (∀ n ∈ some size, n ≤ fsBlkSize * (fsBlkCnt - s₁.sBlkCnt) →
              s₁.sBlkCnt + fileBlks n ≤ fsBlkCnt) ↔
                (size ≤ fsBlkSize * (fsBlkCnt - s₁.sBlkCnt) →
                  s₁.sBlkCnt + fileBlks size ≤ fsBlkCnt) := by
            simp only [Option.mem_def, Option.some.injEq, forall_eq']
          simp only [Option.isSome_some, forall_const, hmem]
          split at hstep
          · next hzero =>
              obtain rfl := Option.some.inj hstep
              refine ⟨hinv, and_iff_left_of_imp fun hle _ => ?_⟩
              rw [hzero]
              exact hle
          split at hstep
          · next hleft =>
              obtain rfl := Option.some.inj hstep
              refine ⟨hexit, and_iff_left_of_imp fun hle hfit => ?_⟩
              rw [leftSpace_eq hle] at hleft
              omega
          · next hleft =>
              obtain rfl := Option.some.inj hstep
              refine And.imp_right (fun hblks => ?_)
                ((hinv.setInode hused hnone).writeBlks fun a ha => by cases ha)
              rw [hblks]
              constructor
              · rintro ⟨hle, hfit⟩
                rw [leftSpace_eq hle] at hleft
                exact hfit (by omega)
              · intro hle
                exact ⟨(Nat.le_add_right _ _).trans hle, fun _ => hle⟩

/-- The tool writes to what is outside of the image exactly if a file does not fit. -/
theorem inImage_iff {files : List (List Byte × Option Nat)}
    (hrun : Runs.exec step romfsInit files = some s) :
    Runs.AllOk FitsOk step romfsInit files ↔
      ∀ n u, Runs.exec step romfsInit (files.take n) = some u → InImage u :=
  Runs.allOk_iff_forall_take (I := Inv) (P := InImage) (fun _ _ _ h hstep => (h.step hstep).1)
    (fun _ _ _ h _ hstep => (h.step hstep).2.trans (h.step hstep).1.within_iff.symm)
    romfsInit_inv (romfsInit_inv.within_iff.mpr (Nat.zero_le _)) hrun

def romDataFile : List Byte :=
  [slash, 114#8, 111#8, 109#8, 95#8, 100#8, 97#8, 116#8, 97#8, slash, 97#8]

/-- Two blocks for dentries and 98 for the file are all the blocks there are. -/
theorem fullImage_inImage : ∃ s, Runs.exec step romfsInit [(romDataFile, some 11760)] = some s ∧
    s.sBlkCnt = fsBlkCnt ∧
      ∀ n u, Runs.exec step romfsInit ([(romDataFile, some 11760)].take n) = some u → InImage u := by
  have hread : (Runs.exec step romfsInit [(romDataFile, some 11760)]).any
      (fun s => s.sBlkCnt = fsBlkCnt) = true := by decide +kernel
  obtain ⟨s, hrun, hs⟩ := (Option.any_eq_true ..).mp hread
  exact ⟨s, hrun, of_decide_eq_true hs, (inImage_iff hrun).mp ⟨by decide +kernel, fun _ _ => trivial⟩⟩

/-- A file as large as 98 blocks does not fit into them with its headers. -/
theorem largeFile_not_inImage : ∃ s,
    Runs.exec step romfsInit [(romDataFile, some 12544)] = some s ∧ ¬ InImage s := by
  have hread : (Runs.exec step romfsInit [(romDataFile, some 12544)]).isSome = true := by
    decide +kernel
  obtain ⟨s, hrun⟩ := Option.isSome_iff_exists.mp hread
  refine ⟨s, hrun, fun hin => ?_⟩
  obtain ⟨t, hstep, hs⟩ := Option.bind_eq_some_iff.mp hrun
  obtain rfl := Option.some.inj hs
  obtain ⟨hinv, hfits⟩ := romfsInit_inv.step hstep
  exact absurd (hfits.mpr (hinv.within_iff.mp hin)) (by decide +kernel)

end Romfs

end Tenok
