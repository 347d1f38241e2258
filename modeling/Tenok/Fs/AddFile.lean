import Tenok.Fs.Walks

/-!
`fs_add_file` with the memory that it takes from the kernel heap. The inode, the dentry and the
memory are taken one after the other, and what was taken before a failure stays taken.
-/
namespace Tenok

/-- The answers of `kmalloc` and `kmem_cache_alloc`, for the structures in the order in which they
are asked for. -/
structure FsMemory where
  pipe : Option Word
  fifo : Option Word
  fifoData : Option Word
  file : Option Word
  regFile : Option Word
  deriving DecidableEq, Repr

/-- The root file system and the blocks of the kernel heap that are in use. -/
structure FsHeap where
  rootfs : Rootfs
  heap : List Word

inductive FsResult
  /-- A structure at NULL is written to. -/
  | nullWrite
  | returned (s : FsHeap) (inode : Option Nat)

namespace FsMemory

/-- What `kfifo_alloc` takes. It keeps the first block if there is no second one. -/
def kfifoAlloc (m : FsMemory) : List Word × Bool :=
  match m.fifo, m.fifoData with
  | none, _ => ([], false)
  | some fifo, none => ([fifo], false)
  | some fifo, some data => ([data, fifo], true)

/-- The blocks that the file of an inode takes, and whether they are all that it needs. A pipe is
asked for both of its structures before the answers are looked at. -/
def taken (m : FsMemory) (fileType : Nat) : List Word × Bool :=
  if fileType = sIfifo then
    let (fifo, ok) := m.kfifoAlloc
    (fifo ++ m.pipe.toList, m.pipe.isSome && ok)
  else if fileType = sIfchr ∨ fileType = sIfblk then (m.file.toList, m.file.isSome)
  else if fileType = sIfreg then (m.regFile.toList, m.regFile.isSome)
  else ([], true)

end FsMemory

namespace FsHeap
open Rootfs

/-- `fs_add_file` after the dentry is written. `fs_alloc_file` clears the file before anybody looks
whether there is one; the events of the file are cleared whatever the type is. -/
def addInstance (s : FsHeap) (dir ino fd addr fileType : Nat) (m : FsMemory) : Option FsResult :=
  let (blocks, ok) := m.taken fileType
  let heap := blocks ++ s.heap
  if !ok then
    if fileType = sIfchr ∨ fileType = sIfblk then some .nullWrite
    else some (.returned ⟨s.rootfs, heap⟩ none)
  else
    match s.rootfs.instantiate ino fd fileType true with
    | none =>
        if s.rootfs.files fd = none then some .nullWrite
        else some (.returned ⟨s.rootfs, heap⟩ none)
    | some rootfs =>
        if rootfs.files fd = none then some .nullWrite
        else do
          let rootfs := { rootfs with fileCnt := rootfs.fileCnt + 1 }
          let rootfs := rootfs.setInode dir (firstDentry addr)
          let rootfs ← rootfs.insertDentry dir addr
          some (.returned ⟨rootfs, heap⟩ (some ino))

/-- `fs_add_file`. It is `none` where the dentry would be put into the inode of a directory that
has none. -/
def fsAddFile (s : FsHeap) (dir : Nat) (fileName : List Byte) (fileType : Nat) (m : FsMemory) :
    Option FsResult :=
  let rootfs := s.rootfs
  if inodeMax ≤ rootfs.sInodeCnt then some (.returned s none)
  else if fileMax ≤ rootfs.fileCnt then some (.returned s none)
  else
    let fd := rootfs.fileCnt + fileReservedNum
    match rootfs.fsAllocInode with
    | none => some .nullWrite
    | some (ino, rootfs) =>
        let rootfs := rootfs.setInode ino (addedInode (s.rootfs.inodes dir).iIno fd)
        match rootfs.fsAllocateDentry dir with
        | none => if rootfs.DentryFits dir then none else some .nullWrite
        | some (addr, rootfs) =>
            addInstance ⟨named s.rootfs rootfs dir ino addr fileName, s.heap⟩ dir ino fd addr
              fileType m

/-- A failure leaves everything as it was, and nothing at NULL is written to. -/
def Clean (s : FsHeap) (dir : Nat) : FsResult → Prop
  | .nullWrite => False
  | .returned _ (some _) => True
  | .returned s' none =>
      s'.heap = s.heap ∧ s'.rootfs.bitmapInodes = s.rootfs.bitmapInodes ∧
        s'.rootfs.bitmapBlks = s.rootfs.bitmapBlks ∧
        s'.rootfs.sInodeCnt = s.rootfs.sInodeCnt ∧ s'.rootfs.sBlkCnt = s.rootfs.sBlkCnt ∧
        s'.rootfs.files = s.rootfs.files ∧ s'.rootfs.fileCnt = s.rootfs.fileCnt ∧
        (s'.rootfs.inodes dir).iDentry = (s.rootfs.inodes dir).iDentry ∧
        s'.rootfs.dentries = s.rootfs.dentries

/-- There is an inode, and a place for a dentry: behind the last one of the directory, or in a free
block. -/
def HasRoom (s : FsHeap) (dir : Nat) : Prop :=
  (∃ i < inodeMax, s.rootfs.bitmapInodes i = false) ∧
    if s.rootfs.DentryFits dir then (s.rootfs.inodes dir).iDentry.getD [] ≠ []
    else ∃ k < fsBlkCnt, s.rootfs.bitmapBlks k = false

/-- A file of this type has its entry of the file table set before its events are cleared: not a
directory, and not a type that is not known. -/
def Registered (s : FsHeap) (fileType : Nat) : Prop :=
  fileType = sIfifo ∨ fileType = sIfchr ∨ fileType = sIfblk ∨ fileType = sIfreg ∨
    (fileType = sIfdir ∧ s.rootfs.files (s.rootfs.fileCnt + fileReservedNum) ≠ none)

/-- The call fails before anything is taken, or has everything that it needs. -/
def AddOk (s : FsHeap) (dir fileType : Nat) (m : FsMemory) : Prop :=
  inodeMax ≤ s.rootfs.sInodeCnt ∨ fileMax ≤ s.rootfs.fileCnt ∨
    (s.HasRoom dir ∧ (m.taken fileType).2 = true ∧ s.Registered fileType)

end FsHeap

namespace Rootfs
variable {s s' t : Rootfs} {dir i ino addr fd fileType k : Nat}

theorem fsAllocateDentry_isSome : (s.fsAllocateDentry dir).isSome ↔
    if s.DentryFits dir then (s.inodes dir).iDentry.getD [] ≠ []
    else ∃ k < fsBlkCnt, s.bitmapBlks k = false := by
  by_cases hfits : s.DentryFits dir
  · have hfits' := hfits
    simp only [DentryFits] at hfits'
    simp only [fsAllocateDentry, if_pos hfits', if_pos hfits]
    cases hlast : ((s.inodes dir).iDentry.getD []).getLast? with
    | none => simpa using List.getLast?_eq_none_iff.mp hlast
    | some last =>
        refine iff_of_true rfl fun hnil => ?_
        rw [hnil] at hlast
        cases hlast
  · have hfits' := hfits
    simp only [DentryFits] at hfits'
    simp only [fsAllocateDentry, if_neg hfits', if_neg hfits, fsAllocBlock, Option.isSome_map,
      List.find?_isSome, List.mem_range, Bool.not_eq_true']

theorem fsAllocInode_isSome :
    s.fsAllocInode.isSome ↔ ∃ k < inodeMax, s.bitmapInodes k = false := by
  simp only [fsAllocInode, Option.isSome_map, List.find?_isSome, List.mem_range, Bool.not_eq_true']

/-- The types that `fs_add_file` knows are those of files, which set their entry of the file table,
and directories. -/
theorem instantiate_true (s : Rootfs) (ino fd fileType : Nat) :
    (s.instantiate ino fd fileType true = none ∧ ¬ (fileType = sIfifo ∨ fileType = sIfchr ∨
      fileType = sIfblk ∨ fileType = sIfreg ∨ fileType = sIfdir)) ∨
    ∃ s', s.instantiate ino fd fileType true = some s' ∧ s'.fileCnt = s.fileCnt ∧
      (((fileType = sIfifo ∨ fileType = sIfchr ∨ fileType = sIfblk ∨ fileType = sIfreg) ∧
        s'.files fd ≠ none) ∨ (fileType = sIfdir ∧ s'.files = s.files)) := by
  simp only [instantiate]
  by_cases hfifo : fileType = sIfifo
  · rw [if_pos hfifo]
    exact Or.inr ⟨_, rfl, rfl, Or.inl ⟨Or.inl hfifo, by simp⟩⟩
  rw [if_neg hfifo]
  by_cases hdev : fileType = sIfchr ∨ fileType = sIfblk
  · rw [if_pos hdev]
    exact Or.inr ⟨_, rfl, rfl, Or.inl ⟨by tauto, by simp⟩⟩
  rw [if_neg hdev]
  by_cases hreg : fileType = sIfreg
  · rw [if_pos hreg]
    exact Or.inr ⟨_, rfl, rfl, Or.inl ⟨by tauto, by simp⟩⟩
  rw [if_neg hreg]
  by_cases hdir : fileType = sIfdir
  · rw [if_pos hdir]
    exact Or.inr ⟨_, rfl, rfl, Or.inr ⟨hdir, rfl⟩⟩
  · rw [if_neg hdir]
    exact Or.inl ⟨rfl, by tauto⟩

/-- The list of the dentries of every directory is initialized. -/
def DirsListed (s : Rootfs) : Prop := ∀ i, (s.inodes i).iMode = sIfdir → (s.inodes i).iDentry ≠ none

theorem DirsListed.update {inode : Inode} (h : DirsListed s)
    (hinodes : s'.inodes = Function.update s.inodes i inode)
    (hinode : inode.iMode = sIfdir → inode.iDentry ≠ none) : DirsListed s' := by
  intro j hmode
  rw [hinodes] at hmode ⊢
  by_cases hj : j = i
  · subst hj
    rw [Function.update_self] at hmode ⊢
    exact hinode hmode
  · rw [Function.update_of_ne hj] at hmode ⊢
    exact h j hmode

theorem DirsListed.same (h : DirsListed s) (hinodes : s'.inodes = s.inodes) : DirsListed s' := by
  intro i hmode
  rw [hinodes] at hmode ⊢
  exact h i hmode

theorem DirsListed.takes {inode : Inode} (h : DirsListed s) (htakes : Takes s t dir ino addr inode)
    (hinode : inode.iMode = sIfdir → inode.iDentry ≠ none) : DirsListed t :=
  h.update htakes.inodes hinode

theorem DirsListed.lists (h : DirsListed s) (hlists : Lists s t dir addr) : DirsListed t := by
  obtain ⟨iData, hinodes⟩ := hlists.inodes
  exact h.update hinodes fun _ => Option.some_ne_none _

theorem DirsListed.fsAddFile {fileName : List Byte} {memory : Bool} {r : Option Nat}
    (h : DirsListed s) (hdir : s.bitmapInodes dir = true)
    (hadd : s.fsAddFile dir fileName fileType memory = some (s', r)) : DirsListed s' := by
  obtain ⟨rfl, -⟩ | ⟨ino, addr, t, -, htakes, -, -, hfile⟩ := fsAddFile_spec hdir hadd
  · exact h
  have ht : DirsListed t := h.takes htakes (h ino)
  obtain ⟨rfl, -⟩ | ⟨u, hinst, -, hlists⟩ := hfile
  · exact ht
  obtain ⟨iDentry, hlist, hinodes⟩ := hinst.inodes
  have hu : DirsListed u := by
    refine ht.update hinodes fun hmode => ?_
    obtain rfl | ⟨hne, -⟩ := hlist
    · exact Option.some_ne_none []
    · exact absurd hmode hne
  exact (hu.same rfl : DirsListed { u with fileCnt := u.fileCnt + 1 }).lists hlists

theorem DirsListed.fsMountFile {rdev : Nat} {mnt : StoredInode} {name : List Byte}
    (h : DirsListed s) (hdir : s.bitmapInodes dir = true)
    (hmount : s.fsMountFile dir rdev mnt name = some s') : DirsListed s' := by
  obtain ⟨-, rfl⟩ | ⟨ino, addr, t, htakes, -, -, hlists⟩ := fsMountFile_spec hdir hmount
  · exact h
  · exact (h.takes htakes fun _ => Option.some_ne_none []).lists hlists

theorem DirsListed.fsMountDirectory {rdev passes : Nat} {src : StoredInode} (h : DirsListed s)
    (huse : InUse s) (hdir : s.bitmapInodes dir = true)
    (hmount : s.fsMountDirectory passes rdev src dir = some s') : DirsListed s' := by
  have hfile : ∀ {t u : Rootfs} {mnt name}, DirsListed t ∧ InUse t ∧ t.bitmapInodes dir = true →
      t.fsMountFile dir rdev mnt name = some u →
      DirsListed u ∧ InUse u ∧ u.bitmapInodes dir = true := by
    intro t u mnt name ⟨hlisted, huse, hdir⟩ hu
    obtain ⟨huse', hkeeps⟩ := huse.fsMountFile hdir hu
    exact ⟨hlisted.fsMountFile hdir hu, huse', hkeeps.bits dir hdir⟩
  have hstart : DirsListed (s.setInode dir fun n => { n with iSize := 0, iBlocks := 0 }) ∧
      InUse (s.setInode dir fun n => { n with iSize := 0, iBlocks := 0 }) ∧
        s.bitmapInodes dir = true :=
    ⟨h.update rfl (h dir), huse.emptied hdir, hdir⟩
  obtain ⟨-, rfl⟩ | ⟨-, t, ⟨ht, -⟩, rfl⟩ :=
    fsMountDirectory_invariant hfile (fun _ => hstart) (fun _ => ⟨h, huse, hdir⟩) hmount
  · exact h
  · exact ht.update rfl (ht dir)

theorem DirsListed.act (h : DirsListed s) (huse : InUse s) (hact : Act False s t) :
    DirsListed t := by
  cases hact with
  | load hdir _ _ hload => exact h.fsMountDirectory huse hdir hload
  | add hdir _ _ hadd => exact h.fsAddFile hdir hadd
  | sync hino hsync =>
      obtain ⟨rfl, -⟩ | ⟨-, -, -, -, rfl⟩ := fsSyncFile_cases hsync
      · exact h
      · exact h.update rfl (h _)
  | @mount t _ _ storage _ hdir _ hmount =>
      have h₀ : DirsListed { s with
        storages := Function.update s.storages s.mountCnt storage } := h.same rfl
      have huse₀ := huse.storages (Function.update s.storages s.mountCnt storage)
      exact (h₀.fsMountDirectory huse₀ hdir.1 hmount).same rfl
  | append hfile happ =>
      obtain ⟨rfl, -⟩ | ⟨k, -, -, -, rfl⟩ := fsFileAppendBlock_cases happ
      · exact h
      · exact h.update rfl (h _)

theorem rootfsInit_dirsListed (sInoAddr sBlkAddr : Nat) :
    DirsListed (rootfsInit sInoAddr sBlkAddr) := by
  intro i hmode
  simp only [rootfsInit] at hmode ⊢
  split at hmode
  · next hroot => simp [hroot]
  · cases hmode

theorem dirsListed_of_run {sInoAddr sBlkAddr : Nat} {calls : List RootfsCall}
    (hrun : Runs.exec call (rootfsInit sInoAddr sBlkAddr) calls = some s) : DirsListed s := by
  have hacts := (acts_of_run hrun).2
  clear hrun
  induction hacts with
  | refl => exact rootfsInit_dirsListed sInoAddr sBlkAddr
  | tail hbefore hact ih => exact ih.act ((rootfsInit_inUse ..).acts hbefore).1 hact

end Rootfs

namespace FsHeap
open Rootfs
variable {s s' : FsHeap} {dir ino addr fd fileType : Nat} {fileName : List Byte} {m : FsMemory}
  {r₁ r₂ : Rootfs} {res : FsResult}

theorem Clean.not_of_taken {heap : List Word} {rootfs : Rootfs}
    (hfree : s.rootfs.bitmapInodes ino = false) (htaken : rootfs.bitmapInodes ino = true) :
    ¬ Clean s dir (.returned ⟨rootfs, heap⟩ none) := by
  rintro ⟨-, hbits, -⟩
  rw [hbits, hfree] at htaken
  cases htaken

theorem addInstance_clean_iff (hfree : s.rootfs.bitmapInodes ino = false)
    (htaken : s'.rootfs.bitmapInodes ino = true) (hne : dir ≠ ino)
    (hlist : (s'.rootfs.inodes dir).iDentry ≠ none)
    (hfiles : s'.rootfs.files = s.rootfs.files)
    (hfd : fd = s.rootfs.fileCnt + fileReservedNum) :
    (∃ res, s'.addInstance dir ino fd addr fileType m = some res ∧ Clean s dir res) ↔
      (m.taken fileType).2 = true ∧ s.Registered fileType := by
  cases hok : (m.taken fileType).2 with
  | false =>
      refine iff_of_false ?_ (by simp)
      rintro ⟨res, hres, hclean⟩
      simp only [addInstance, hok, Bool.not_false, if_true] at hres
      split at hres <;> obtain rfl := Option.some.inj hres
      · exact hclean
      · exact hclean.not_of_taken hfree htaken
  | true =>
      rw [and_iff_right rfl]
      obtain ⟨hinst, htype⟩ | ⟨rootfs, hinst, -, hset⟩ := instantiate_true s'.rootfs ino fd fileType
      · refine iff_of_false ?_ fun hregistered => htype ?_
        · rintro ⟨res, hres, hclean⟩
          simp only [addInstance, hok, hinst, Bool.not_true, Bool.false_eq_true, if_false] at hres
          split at hres <;> obtain rfl := Option.some.inj hres
          · exact hclean
          · exact hclean.not_of_taken hfree htaken
        · rcases hregistered with h | h | h | h | ⟨h, -⟩ <;> simp [h]
      · have hdir : (rootfs.inodes dir).iDentry = (s'.rootfs.inodes dir).iDentry := by
          obtain ⟨-, -, -, _, -, hinodes⟩ := instantiate_spec hinst
          rw [hinodes, Function.update_of_ne hne]
        obtain ⟨list, hlist⟩ := Option.ne_none_iff_exists'.mp hlist
        -- with the entry of the file table set, the dentry is inserted
        have hclean : rootfs.files fd ≠ none →
            ∃ res, s'.addInstance dir ino fd addr fileType m = some res ∧ Clean s dir res := by
          intro hentry
          simp only [addInstance, hok, hinst, hentry, Bool.not_true, Bool.false_eq_true, if_false]
          have hlist' : (({ rootfs with fileCnt := rootfs.fileCnt + 1 }.setInode dir
              (firstDentry addr)).inodes dir).iDentry = some list := by
            simp only [setInode, Function.update_self, firstDentry, hdir, hlist]
          simp only [insertDentry, hlist', Option.bind_eq_bind, Option.bind_some]
          exact ⟨_, rfl, trivial⟩
        obtain ⟨htype, hentry⟩ | ⟨htype, hsame⟩ := hset
        · refine iff_of_true (hclean hentry) ?_
          rcases htype with h | h | h | h <;> simp [Registered, h]
        · have hregistered : s.Registered fileType ↔ rootfs.files fd ≠ none := by
            rw [hsame, hfiles, hfd, htype]
            simp [Registered, sIfifo, sIfchr, sIfblk, sIfreg, sIfdir]
          rw [hregistered]
          refine ⟨?_, hclean⟩
          rintro ⟨res, hres, hclean⟩ hentry
          simp only [addInstance, hok, hinst, hentry, Bool.not_true, Bool.false_eq_true, if_false,
            if_true] at hres
          obtain rfl := Option.some.inj hres
          exact hclean

theorem fsAddFile_clean_iff (hdir : s.rootfs.IsDir dir)
    (hlist : (s.rootfs.inodes dir).iDentry ≠ none) :
    (∃ res, s.fsAddFile dir fileName fileType m = some res ∧ Clean s dir res) ↔
      s.AddOk dir fileType m := by
  rw [FsHeap.fsAddFile, AddOk]
  by_cases hinodes : inodeMax ≤ s.rootfs.sInodeCnt
  · simp only [hinodes, if_true, true_or, iff_true]
    exact ⟨_, rfl, rfl, rfl, rfl, rfl, rfl, rfl, rfl, rfl, rfl⟩
  by_cases hfiles : fileMax ≤ s.rootfs.fileCnt
  · simp only [hinodes, hfiles, if_true, if_false, true_or, or_true, iff_true]
    exact ⟨_, rfl, rfl, rfl, rfl, rfl, rfl, rfl, rfl, rfl, rfl⟩
  simp only [hinodes, hfiles, if_false, false_or]
  have hinode := fsAllocInode_isSome (s := s.rootfs)
  cases halloc : s.rootfs.fsAllocInode with
  | none =>
      rw [halloc] at hinode
      refine iff_of_false ?_ fun hok => absurd (hinode.mpr hok.1.1) (by simp)
      rintro ⟨res, hres, hclean⟩
      obtain rfl := Option.some.inj hres
      exact hclean
  | some pair =>
      obtain ⟨ino, r₁⟩ := pair
      rw [halloc] at hinode
      obtain ⟨hfree, hr₁⟩ := fsAllocInode_spec halloc
      obtain ⟨hne, hsame, -, htaken, -, -⟩ := fsAllocInode_others halloc hdir.1
      simp only
      generalize hr : r₁.setInode ino (addedInode (s.rootfs.inodes dir).iIno
        (s.rootfs.fileCnt + fileReservedNum)) = r
      have hkept : r.inodes dir = s.rootfs.inodes dir := by
        rw [← hr]
        exact (Function.update_of_ne hne ..).trans hsame
      have hframe : r.bitmapBlks = s.rootfs.bitmapBlks ∧ r.files = s.rootfs.files := by
        rw [← hr, hr₁]
        exact ⟨rfl, rfl⟩
      have hbit : r.bitmapInodes ino = true := by
        rw [← hr]
        exact htaken
      have hroom : (r.fsAllocateDentry dir).isSome ↔ s.HasRoom dir := by
        have hfits : r.DentryFits dir ↔ s.rootfs.DentryFits dir := by
          simp only [DentryFits, hkept]
        rw [fsAllocateDentry_isSome, HasRoom, and_iff_right (hinode.mp rfl), hkept, hframe.1]
        exact Iff.of_eq (if_congr hfits rfl rfl)
      cases hdentry : r.fsAllocateDentry dir with
      | none =>
          rw [hdentry] at hroom
          refine iff_of_false ?_ fun hok => absurd (hroom.mpr hok.1) (by simp)
          rintro ⟨res, hres, hclean⟩
          simp only at hres
          split at hres
          · cases hres
          · obtain rfl := Option.some.inj hres
            exact hclean
      | some pair =>
          obtain ⟨addr, r₂⟩ := pair
          rw [hdentry] at hroom
          obtain ⟨_, _, rfl, -⟩ := fsAllocateDentry_cases hdentry
          rw [and_iff_right (hroom.mp rfl)]
          refine addInstance_clean_iff hfree hbit hne ?_ hframe.2 rfl
          rw [named, setDentry, hkept]
          exact hlist

theorem addInstance_refines {ino' : Option Nat}
    (h : s.addInstance dir ino fd addr fileType m = some (.returned s' ino')) :
    (s.rootfs.instantiate ino fd fileType (m.taken fileType).2 = none ∧ s'.rootfs = s.rootfs ∧
      ino' = none) ∨
    ∃ r, s.rootfs.instantiate ino fd fileType (m.taken fileType).2 = some r ∧
      ({ r with fileCnt := r.fileCnt + 1 }.setInode dir (firstDentry addr)).insertDentry dir addr =
        some s'.rootfs ∧ ino' = some ino := by
  cases hok : (m.taken fileType).2 with
  | false =>
      have hnone : s.rootfs.instantiate ino fd fileType false = none := by
        simp only [FsMemory.taken] at hok
        by_cases hfifo : fileType = sIfifo
        · simp [instantiate, hfifo]
        · by_cases hdev : fileType = sIfchr ∨ fileType = sIfblk
          · simp [instantiate, hfifo, hdev]
          · by_cases hreg : fileType = sIfreg
            · simp [instantiate, hreg, sIfreg, sIfifo, sIfchr, sIfblk]
            · simp [hfifo, hdev, hreg] at hok
      simp only [addInstance, hok, Bool.not_false, if_true] at h
      split at h
      · cases h
      · obtain ⟨rfl, rfl⟩ := FsResult.returned.inj (Option.some.inj h)
        exact Or.inl ⟨hnone, rfl, rfl⟩
  | true =>
      simp only [addInstance, hok, Bool.not_true, Bool.false_eq_true, if_false] at h
      cases hinst : s.rootfs.instantiate ino fd fileType true with
      | none =>
          simp only [hinst] at h
          split at h
          · cases h
          · obtain ⟨rfl, rfl⟩ := FsResult.returned.inj (Option.some.inj h)
            exact Or.inl ⟨rfl, rfl, rfl⟩
      | some r =>
          simp only [hinst] at h
          split at h
          · cases h
          · obtain ⟨r', hins, hres⟩ := Option.bind_eq_some_iff.mp h
            obtain ⟨rfl, rfl⟩ := FsResult.returned.inj (Option.some.inj hres)
            exact Or.inr ⟨r, rfl, hins, rfl⟩

theorem fsAddFile_refines {ino' : Option Nat}
    (h : s.fsAddFile dir fileName fileType m = some (.returned s' ino')) :
    s.rootfs.fsAddFile dir fileName fileType (m.taken fileType).2 = some (s'.rootfs, ino') := by
  rw [FsHeap.fsAddFile] at h
  rw [Rootfs.fsAddFile]
  by_cases hinodes : inodeMax ≤ s.rootfs.sInodeCnt
  · rw [if_pos hinodes] at h ⊢
    obtain ⟨rfl, rfl⟩ := FsResult.returned.inj (Option.some.inj h)
    rfl
  by_cases hfiles : fileMax ≤ s.rootfs.fileCnt
  · rw [if_neg hinodes, if_pos hfiles] at h ⊢
    obtain ⟨rfl, rfl⟩ := FsResult.returned.inj (Option.some.inj h)
    rfl
  simp only [if_neg hinodes, if_neg hfiles] at h ⊢
  cases halloc : s.rootfs.fsAllocInode with
  | none =>
      rw [halloc] at h
      cases h
  | some pair =>
      obtain ⟨new, r₁⟩ := pair
      simp only [halloc] at h
      cases hdentry : (r₁.setInode new (addedInode (s.rootfs.inodes dir).iIno
          (s.rootfs.fileCnt + fileReservedNum))).fsAllocateDentry dir with
      | none =>
          simp only [hdentry] at h
          split at h <;> cases h
      | some pair =>
          obtain ⟨addr, r₂⟩ := pair
          simp only [hdentry] at h
          have hplace : (r₁.setInode new fun n =>
              { n with iRdev := rdevRootfs, iParent := (s.rootfs.inodes dir).iIno,
                       iFd := s.rootfs.fileCnt + fileReservedNum,
                       iSync := true }).fsAllocateDentry dir = some (addr, r₂) := hdentry
          simp only [Option.bind_eq_bind, Option.bind_some, hplace]
          obtain ⟨hinst, hs', rfl⟩ | ⟨r, hinst, hins, rfl⟩ := addInstance_refines h
          · simp only [named] at hinst
            simp only [hinst, hs', named]
          · simp only [named] at hinst
            simp only [hinst]
            exact Option.bind_eq_some_iff.mpr ⟨_, hins, rfl⟩

theorem clean_iff_addOk {sInoAddr sBlkAddr : Nat} {calls : List RootfsCall}
    (hrun : Runs.exec call (rootfsInit sInoAddr sBlkAddr) calls = some s.rootfs)
    (hdir : s.rootfs.IsDir dir) :
    (∃ res, s.fsAddFile dir fileName fileType m = some res ∧ Clean s dir res) ↔
      s.AddOk dir fileType m :=
  fsAddFile_clean_iff hdir (dirsListed_of_run hrun dir hdir.2)

def atStart : FsHeap := ⟨rootfsInit 0x20010000 0x20020000, []⟩

/-- A file is created, and then the memory for another one is missing until no inode is left. -/
def exhaustingCalls : List RootfsCall :=
  .createFile 10 [slash, 97#8] sIfreg true ::
    List.replicate 98 (.createFile 10 [slash, 98#8] sIfreg false)

/-- A failure for want of an inode changes nothing. -/
theorem exhausted_clean : ∃ s,
    Runs.exec call (rootfsInit 0x20010000 0x20020000) exhaustingCalls = some s ∧
      s.sInodeCnt = inodeMax ∧ s.fileCnt = 2 ∧ ∃ s',
        fsAddFile ⟨s, [0x20050000#32]⟩ 0 [99#8] sIfreg
          ⟨none, none, none, none, some 0x20040000⟩ = some (.returned s' none) ∧
        Clean ⟨s, [0x20050000#32]⟩ 0 (.returned s' none) := by
  have hread : (Runs.exec call (rootfsInit 0x20010000 0x20020000) exhaustingCalls).map
      (fun s => (s.sInodeCnt, s.fileCnt, s.bitmapInodes 0, (s.inodes 0).iMode)) =
        some (inodeMax, 2, true, sIfdir) := by decide +kernel
  obtain ⟨s, hrun, hfacts⟩ := Option.map_eq_some_iff.mp hread
  simp only [Prod.mk.injEq] at hfacts
  obtain ⟨hinodes, hfiles, hbit, hmode⟩ := hfacts
  have hfail : fsAddFile ⟨s, [0x20050000#32]⟩ 0 [99#8] sIfreg
      ⟨none, none, none, none, some 0x20040000⟩ = some (.returned ⟨s, [0x20050000#32]⟩ none) := by
    rw [fsAddFile, if_pos hinodes.ge]
  obtain ⟨res, hres, hclean⟩ := (clean_iff_addOk (s := ⟨s, [0x20050000#32]⟩) hrun ⟨hbit, hmode⟩).mpr
    (Or.inl hinodes.ge)
  obtain rfl := Option.some.inj (hres.symm.trans hfail)
  exact ⟨s, hrun, hinodes, hfiles, _, hfail, hclean⟩

/-- Without memory for a regular file its inode and block stay in use. -/
theorem atStart_not_clean : ∃ s,
    atStart.fsAddFile 0 [97#8] sIfreg ⟨none, none, none, none, none⟩ = some (.returned s none) ∧
      s.rootfs.sInodeCnt = 2 ∧ s.rootfs.bitmapInodes 1 = true ∧ s.rootfs.bitmapBlks 0 = true ∧
      ¬ Clean atStart 0 (.returned s none) := by
  refine ⟨_, rfl, rfl, rfl, rfl, ?_⟩
  rintro ⟨-, -, -, hcnt, -⟩
  exact absurd hcnt (by decide)

/-- A directory has no file whose events could be cleared. -/
example : atStart.fsAddFile 0 [97#8] sIfdir ⟨none, none, none, none, none⟩ = some .nullWrite := rfl

end FsHeap

end Tenok
