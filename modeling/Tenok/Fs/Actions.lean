import Mathlib.Logic.Relation
import Tenok.Fs.Paths

/-!
What the calls do to the root file system, one action after the other: directories are loaded,
files are added, mounted and synchronized. A walk along a path only comes to inodes in use.
-/
namespace Tenok

namespace Rootfs
variable {s s' t : Rootfs} {dir i ino addr fd fileType passes k : Nat} {inode : Inode}
  {strict : Prop} {r : Option Nat} {entry fileName : List Byte} {memory : Bool}

def DentryFits (s : Rootfs) (dir : Nat) : Prop :=
  (s.inodes dir).iSize / sizeofDentry + 1 ≤
    (s.inodes dir).iBlocks * (fsBlkSize / sizeofDentry) % 2 ^ 32 ∧ (s.inodes dir).iSize ≠ 0

instance decidableDentryFits (s : Rootfs) (dir : Nat) : Decidable (s.DentryFits dir) :=
  inferInstanceAs (Decidable (_ ∧ _))

/-- The place of a new dentry, behind the last one or in a block that was free. -/
def Place (s : Rootfs) (dir addr : Nat) (bitmapBlks : Nat → Bool) : Prop :=
  (s.DentryFits dir ∧ bitmapBlks = s.bitmapBlks ∧
    ∃ last, (s.dentriesOf dir).getLast? = some last ∧ addr = last + sizeofDentry) ∨
  (¬ s.DentryFits dir ∧ ∃ k < fsBlkCnt, s.bitmapBlks k = false ∧ addr = s.blkAddr k ∧
    bitmapBlks = Function.update s.bitmapBlks k true)

theorem Place.congr {bitmapBlks : Nat → Bool} (h : s.Place dir addr bitmapBlks)
    (hinode : t.inodes dir = s.inodes dir) (hblks : t.bitmapBlks = s.bitmapBlks)
    (hstart : t.sBlkAddr = s.sBlkAddr) : t.Place dir addr bitmapBlks := by
  rw [Place, DentryFits, dentriesOf] at h ⊢
  simp only [blkAddr] at h ⊢
  rwa [hinode, hblks, hstart]

theorem fsAllocateDentry_cases (h : s.fsAllocateDentry dir = some (addr, s')) :
    ∃ sBlkCnt bitmapBlks, s' = { s with sBlkCnt, bitmapBlks } ∧ s.Place dir addr bitmapBlks := by
  simp only [fsAllocateDentry] at h
  split at h
  · next hfits =>
      obtain ⟨last, hlast, hpair⟩ := Option.bind_eq_some_iff.mp h
      obtain ⟨rfl, rfl⟩ := Prod.mk.inj (Option.some.inj hpair)
      exact ⟨_, _, rfl, Or.inl ⟨hfits, rfl, last, hlast, rfl⟩⟩
  · next hfits =>
      obtain ⟨k, hk, hfree, rfl, rfl⟩ := fsAllocBlock_spec h
      exact ⟨_, _, rfl, Or.inr ⟨hfits, k, hk, hfree, rfl, rfl⟩⟩

/-- An inode is taken and a dentry for it is written. -/
structure Takes (s t : Rootfs) (dir ino addr : Nat) (inode : Inode) : Prop where
  free : s.bitmapInodes ino = false
  bound : ino < inodeMax
  bits : t.bitmapInodes = Function.update s.bitmapInodes ino true
  inodes : t.inodes = Function.update s.inodes ino inode
  dentry : ∃ d, d.dInode = ino ∧ t.dentries = Function.update s.dentries addr d
  place : s.Place dir addr t.bitmapBlks
  same : SameStore s t

/-- The dentry is inserted, and the directory counts it. -/
structure Lists (s t : Rootfs) (dir addr : Nat) : Prop where
  bits : t.bitmapInodes = s.bitmapInodes
  inodes : ∃ iData, t.inodes = Function.update s.inodes dir { s.inodes dir with
    iData
    iDentry := some (s.dentriesOf dir ++ [addr])
    iSize := ((s.inodes dir).iSize + sizeofDentry) % 2 ^ 32
    iBlocks := fsCalculateDentryBlocks fsBlkSize
      (((s.inodes dir).iSize + sizeofDentry) % 2 ^ 32 / sizeofDentry) }
  dentries : t.dentries = s.dentries
  blks : t.bitmapBlks = s.bitmapBlks
  files : t.files = s.files
  fileCnt : t.fileCnt = s.fileCnt
  same : SameStore s t

theorem takes_of_alloc {s₁ s₂ : Rootfs} {f : Inode → Inode} {d : Dentry}
    (halloc : s.fsAllocInode = some (ino, s₁)) (hdir : s.bitmapInodes dir = true)
    (hdentry : (s₁.setInode ino f).fsAllocateDentry dir = some (addr, s₂)) (hd : d.dInode = ino) :
    Takes s (s₂.setDentry addr d) dir ino addr (f { s.inodes ino with iIno := ino }) ∧
      s₂.fileCnt = s.fileCnt ∧ s₂.files = s.files := by
  have hbound : ino < inodeMax := by
    obtain ⟨j, hfind, hpair⟩ := Option.map_eq_some_iff.mp halloc
    obtain rfl := (Prod.mk.inj hpair).1
    exact List.mem_range.mp (List.mem_of_find?_eq_some hfind)
  obtain ⟨hfree, rfl⟩ := fsAllocInode_spec halloc
  obtain ⟨sBlkCnt, bitmapBlks, rfl, hplace⟩ := fsAllocateDentry_cases hdentry
  have hne : dir ≠ ino := by
    rintro rfl
    exact absurd hdir (by simp [hfree])
  refine ⟨⟨hfree, hbound, rfl, ?_, ⟨d, hd, rfl⟩, ?_, ⟨rfl, rfl, rfl, rfl⟩⟩, rfl, rfl⟩
  · simp [setInode, setDentry]
  · exact hplace.congr (by simp [setInode, Function.update_of_ne hne]) rfl rfl

theorem lists_of_insertDentry (h : s.insertDentry dir addr = some s') : Lists s s' dir addr := by
  obtain ⟨list, hlist, hs'⟩ := Option.bind_eq_some_iff.mp h
  obtain rfl := Option.some.inj hs'
  refine ⟨rfl, ⟨(s.inodes dir).iData, ?_⟩, rfl, rfl, rfl, rfl, ⟨rfl, rfl, rfl, rfl⟩⟩
  simp [setInode, dentriesOf, hlist]

theorem lists_of_firstDentry
    (h : (s.setInode dir (firstDentry addr)).insertDentry dir addr = some s') :
    Lists s s' dir addr := by
  have hlists := lists_of_insertDentry h
  obtain ⟨hstart, hmemory, hstorages, hmounts⟩ := hlists.same
  refine ⟨hlists.bits, ?_, hlists.dentries, hlists.blks, hlists.files, hlists.fileCnt,
    ⟨hstart, hmemory, hstorages, hmounts⟩⟩
  obtain ⟨iData, hinodes⟩ := hlists.inodes
  exact ⟨iData, by simpa [setInode, firstDentry, dentriesOf] using hinodes⟩

/-- The file of a new inode. Directories have none. -/
structure Instantiates (s t : Rootfs) (ino fd fileType : Nat) : Prop where
  bits : t.bitmapInodes = s.bitmapInodes
  inodes : ∃ iDentry, (iDentry = some [] ∨ (fileType ≠ sIfdir ∧ iDentry = (s.inodes ino).iDentry)) ∧
    t.inodes = Function.update s.inodes ino
      { s.inodes ino with iMode := fileType, iSize := 0, iBlocks := 0, iData := 0, iDentry }
  dentries : t.dentries = s.dentries
  blks : t.bitmapBlks = s.bitmapBlks
  fileCnt : t.fileCnt = s.fileCnt
  files : (fileType = sIfdir ∧ t.files = s.files) ∨
    ∃ f ∈ [FsFile.fifo ino, .device ino, .regFile ino], t.files = Function.update s.files fd (some f)
  same : SameStore s t

theorem instantiates_of_instantiate (h : s.instantiate ino fd fileType memory = some t) :
    Instantiates s t ino fd fileType := by
  rw [Rootfs.instantiate] at h
  split at h
  · next hfifo =>
      cases memory <;> cases h
      exact ⟨rfl, ⟨_, Or.inr ⟨by rw [hfifo]; decide, rfl⟩, rfl⟩, rfl, rfl, rfl,
        Or.inr ⟨_, by simp, rfl⟩, ⟨rfl, rfl, rfl, rfl⟩⟩
  split at h
  · next hdev =>
      cases memory <;> cases h
      have hne : fileType ≠ sIfdir := by
        rintro rfl
        exact absurd hdev (by decide)
      exact ⟨rfl, ⟨_, Or.inr ⟨hne, rfl⟩, rfl⟩, rfl, rfl, rfl, Or.inr ⟨_, by simp, rfl⟩,
        ⟨rfl, rfl, rfl, rfl⟩⟩
  split at h
  · next hreg =>
      cases memory <;> cases h
      exact ⟨rfl, ⟨_, Or.inr ⟨by rw [hreg]; decide, rfl⟩, rfl⟩, rfl, rfl, rfl,
        Or.inr ⟨_, by simp, rfl⟩, ⟨rfl, rfl, rfl, rfl⟩⟩
  split at h
  · next hdir =>
      cases h
      refine ⟨rfl, ⟨some [], Or.inl rfl, ?_⟩, rfl, rfl, rfl, Or.inl ⟨hdir, rfl⟩,
        ⟨rfl, rfl, rfl, rfl⟩⟩
      simp [setInode]
  · cases h

/-- What `fs_add_file` does to an inode in use: nothing, or it takes what it needs and then either
fails or lists the new file. -/
theorem fsAddFile_spec (hdir : s.bitmapInodes dir = true)
    (h : s.fsAddFile dir fileName fileType memory = some (s', r)) :
    (s' = s ∧ r = none) ∨
    ∃ ino addr t, s.fileCnt < fileMax ∧
      Takes s t dir ino addr (addedInode (s.inodes dir).iIno (s.fileCnt + fileReservedNum)
        { s.inodes ino with iIno := ino }) ∧ t.fileCnt = s.fileCnt ∧ t.files = s.files ∧
      ((s' = t ∧ r = none) ∨ ∃ u, Instantiates t u ino (s.fileCnt + fileReservedNum) fileType ∧
        r = some ino ∧ Lists { u with fileCnt := u.fileCnt + 1 } s' dir addr) := by
  obtain ⟨rfl, rfl, -⟩ | ⟨ino, addr, s₁, s₂, hadds, hfile⟩ := fsAddFile_cases h
  · exact Or.inl ⟨rfl, rfl⟩
  obtain ⟨htakes, hcnt, hfiles⟩ := takes_of_alloc hadds.inode hdir hadds.dentry
    (d := { dName := fileName.take (nameMax - 1), dInode := ino, dParent := (s.inodes dir).iIno }) rfl
  refine Or.inr ⟨ino, addr, _, hadds.files, htakes, hcnt, hfiles, ?_⟩
  obtain ⟨-, rfl, rfl⟩ | ⟨u, hinst, rfl, hins⟩ := hfile
  · exact Or.inl ⟨rfl, rfl⟩
  · exact Or.inr ⟨u, instantiates_of_instantiate hinst, rfl, lists_of_firstDentry hins⟩

theorem fsMountFile_spec {rdev : Nat} {mnt : StoredInode} {name : List Byte}
    (hdir : s.bitmapInodes dir = true) (h : s.fsMountFile dir rdev mnt name = some s') :
    (inodeMax ≤ s.sInodeCnt ∧ s' = s) ∨
    ∃ ino addr t, Takes s t dir ino addr (mountedInode rdev (s.inodes dir).iIno
      (s.fileCnt + fileReservedNum) mnt { s.inodes ino with iIno := ino }) ∧
      t.fileCnt = s.fileCnt + 1 ∧ t.files = s.files ∧ Lists t s' dir addr := by
  obtain hfull | ⟨ino, addr, s₁, s₂, -, halloc, hdentry, hins⟩ := fsMountFile_cases h
  · exact Or.inl hfull
  obtain ⟨htakes, hcnt, hfiles⟩ := takes_of_alloc halloc hdir hdentry
    (d := { dName := name.take nameMax, dInode := ino, dParent := (s.inodes dir).iIno }) rfl
  have hlists := lists_of_insertDentry hins
  obtain ⟨hstart, hmemory, hstorages, hmounts⟩ := htakes.same
  obtain ⟨hstart', hmemory', hstorages', hmounts'⟩ := hlists.same
  exact Or.inr ⟨ino, addr, _, ⟨htakes.free, htakes.bound, htakes.bits, htakes.inodes,
    htakes.dentry, htakes.place, ⟨hstart, hmemory, hstorages, hmounts⟩⟩, hcnt, hfiles,
    ⟨hlists.bits, hlists.inodes, hlists.dentries, hlists.blks, hlists.files, hlists.fileCnt,
    ⟨hstart', hmemory', hstorages', hmounts'⟩⟩⟩

/-- The root directory, and whatever directories and parents refer to, is in use. -/
structure InUse (s : Rootfs) : Prop where
  root : s.IsDir 0
  iIno : ∀ i, s.bitmapInodes i = true → (s.inodes i).iIno = i
  parent : ∀ i, s.bitmapInodes i = true → s.bitmapInodes (s.inodes i).iParent = true
  listed : ∀ i, ∀ a ∈ s.dentriesOf i, s.bitmapInodes (s.dentries a).dInode = true

/-- Inodes in use stay so, and what they are does not change. -/
structure Keeps (s t : Rootfs) : Prop where
  bits : ∀ i, s.bitmapInodes i = true → t.bitmapInodes i = true
  iMode : ∀ i, s.bitmapInodes i = true → (t.inodes i).iMode = (s.inodes i).iMode
  iRdev : ∀ i, s.bitmapInodes i = true → (t.inodes i).iRdev = (s.inodes i).iRdev
  iParent : ∀ i, s.bitmapInodes i = true → (t.inodes i).iParent = (s.inodes i).iParent
  iSync : ∀ i, s.bitmapInodes i = true → (s.inodes i).iSync = true → (t.inodes i).iSync = true

theorem Keeps.refl (s : Rootfs) : Keeps s s :=
  ⟨fun _ h => h, fun _ _ => rfl, fun _ _ => rfl, fun _ _ => rfl, fun _ _ h => h⟩

theorem Keeps.trans (h : Keeps s t) (h' : Keeps t s') : Keeps s s' where
  bits i hi := h'.bits i (h.bits i hi)
  iMode i hi := (h'.iMode i (h.bits i hi)).trans (h.iMode i hi)
  iRdev i hi := (h'.iRdev i (h.bits i hi)).trans (h.iRdev i hi)
  iParent i hi := (h'.iParent i (h.bits i hi)).trans (h.iParent i hi)
  iSync i hi hsync := h'.iSync i (h.bits i hi) (h.iSync i hi hsync)

theorem Keeps.isDir (h : Keeps s t) (hdir : s.IsDir i) : t.IsDir i :=
  ⟨h.bits i hdir.1, (h.iMode i hdir.1).trans hdir.2⟩

theorem inodes_update (h : t.inodes = Function.update s.inodes i inode) (j : Nat) :
    (t.inodes j = inode ∧ j = i) ∨ t.inodes j = s.inodes j := by
  by_cases hj : j = i
  · exact Or.inl ⟨by rw [h, hj, Function.update_self], hj⟩
  · exact Or.inr (by rw [h, Function.update_of_ne hj])

theorem InUse.update (h : InUse s) (hi : s.bitmapInodes i = true)
    (hbits : t.bitmapInodes = s.bitmapInodes) (hinodes : t.inodes = Function.update s.inodes i inode)
    (hdentries : t.dentries = s.dentries) (hroot : i = 0 → inode.iMode = sIfdir)
    (hiIno : inode.iIno = i) (hparent : inode.iParent = (s.inodes i).iParent)
    (hlist : ∀ a ∈ inode.iDentry.getD [], s.bitmapInodes (s.dentries a).dInode = true) :
    InUse t := by
  have hinode := inodes_update hinodes
  refine ⟨⟨?_, ?_⟩, fun j hj => ?_, fun j hj => ?_, fun j a ha => ?_⟩
  · rw [hbits]
    exact h.root.1
  · obtain ⟨h₀, hi₀⟩ | h₀ := hinode 0
    · rw [h₀]
      exact hroot hi₀.symm
    · rw [h₀]
      exact h.root.2
  · obtain ⟨hj', rfl⟩ | hj' := hinode j
    · rw [hj', hiIno]
    · rw [hj']
      exact h.iIno j (hbits ▸ hj)
  · obtain ⟨hj', rfl⟩ | hj' := hinode j
    · rw [hj', hparent, hbits]
      exact h.parent j hi
    · rw [hj', hbits]
      exact h.parent j (hbits ▸ hj)
  · rw [hbits, hdentries]
    rw [dentriesOf] at ha
    obtain ⟨hj', -⟩ | hj' := hinode j
    · rw [hj'] at ha
      exact hlist a ha
    · rw [hj'] at ha
      exact h.listed j a ha

theorem Keeps.update (hbits : t.bitmapInodes = s.bitmapInodes)
    (hinodes : t.inodes = Function.update s.inodes i inode)
    (hmode : inode.iMode = (s.inodes i).iMode) (hrdev : inode.iRdev = (s.inodes i).iRdev)
    (hparent : inode.iParent = (s.inodes i).iParent)
    (hsync : (s.inodes i).iSync = true → inode.iSync = true) : Keeps s t := by
  have hinode := inodes_update hinodes
  refine ⟨fun j hj => hbits ▸ hj, fun j _ => ?_, fun j _ => ?_, fun j _ => ?_, fun j _ => ?_⟩
  all_goals
    obtain ⟨hj', rfl⟩ | hj' := hinode j <;> rw [hj']
    try assumption
  exact id

theorem Takes.others (h : Takes s t dir ino addr inode) (hi : s.bitmapInodes i = true) :
    t.bitmapInodes i = true ∧ t.inodes i = s.inodes i := by
  have hne : i ≠ ino := by
    rintro rfl
    exact absurd hi (by simp [h.free])
  rw [h.bits, h.inodes, Function.update_of_ne hne, Function.update_of_ne hne]
  exact ⟨hi, rfl⟩

theorem Takes.keeps (h : Takes s t dir ino addr inode) : Keeps s t where
  bits _ hi := (h.others hi).1
  iMode _ hi := by rw [(h.others hi).2]
  iRdev _ hi := by rw [(h.others hi).2]
  iParent _ hi := by rw [(h.others hi).2]
  iSync _ hi hsync := by rwa [(h.others hi).2]

theorem Takes.taken (h : Takes s t dir ino addr inode) :
    t.bitmapInodes ino = true ∧ t.inodes ino = inode := by
  rw [h.bits, h.inodes, Function.update_self, Function.update_self]
  exact ⟨rfl, rfl⟩

theorem Takes.dInode (h : Takes s t dir ino addr inode) (a : Nat) :
    (t.dentries a).dInode = ino ∨ t.dentries a = s.dentries a := by
  obtain ⟨d, hd, hdentries⟩ := h.dentry
  rw [hdentries]
  by_cases ha : a = addr
  · rw [ha, Function.update_self]
    exact Or.inl hd
  · exact Or.inr (Function.update_of_ne ha ..)

theorem Takes.inUse (h : Takes s t dir ino addr inode) (huse : InUse s) (hiIno : inode.iIno = ino)
    (hparent : s.bitmapInodes inode.iParent = true)
    (hlist : ∀ a ∈ inode.iDentry.getD [], a ∈ s.dentriesOf ino) : InUse t := by
  have hold : ∀ j, t.bitmapInodes j = true → j = ino ∨ s.bitmapInodes j = true := by
    intro j hj
    rw [h.bits] at hj
    by_cases hne : j = ino
    · exact Or.inl hne
    · exact Or.inr (by rwa [Function.update_of_ne hne] at hj)
  refine ⟨h.keeps.isDir huse.root, fun j hj => ?_, fun j hj => ?_, fun j a ha => ?_⟩
  · obtain rfl | hj := hold j hj
    · rw [h.taken.2, hiIno]
    · rw [(h.others hj).2]
      exact huse.iIno j hj
  · obtain rfl | hj := hold j hj
    · rw [h.taken.2]
      exact (h.others hparent).1
    · rw [(h.others hj).2]
      exact (h.others (huse.parent j hj)).1
  · have hlisted : s.bitmapInodes (s.dentries a).dInode = true := by
      rw [dentriesOf, h.inodes] at ha
      by_cases hj : j = ino
      · subst hj
        rw [Function.update_self] at ha
        exact huse.listed j a (hlist a ha)
      · rw [Function.update_of_ne hj] at ha
        exact huse.listed j a ha
    obtain hd | hd := h.dInode a
    · rw [hd]
      exact h.taken.1
    · rw [hd]
      exact (h.others hlisted).1

theorem Lists.inUse (h : Lists s t dir addr) (huse : InUse s) (hdir : s.bitmapInodes dir = true)
    (hnew : s.bitmapInodes (s.dentries addr).dInode = true) : InUse t := by
  obtain ⟨iData, hinodes⟩ := h.inodes
  refine huse.update hdir h.bits hinodes h.dentries ?_ (huse.iIno dir hdir) rfl ?_
  · rintro rfl
    exact huse.root.2
  · intro a ha
    rw [Option.getD_some] at ha
    obtain ha | ha := List.mem_append.mp ha
    · exact huse.listed dir a ha
    · rwa [List.mem_singleton.mp ha]

theorem Lists.keeps (h : Lists s t dir addr) : Keeps s t := by
  obtain ⟨iData, hinodes⟩ := h.inodes
  exact Keeps.update h.bits hinodes rfl rfl rfl id

theorem Instantiates.inUse (h : Instantiates s t ino fd fileType) (huse : InUse s)
    (hino : s.bitmapInodes ino = true) (hne : ino ≠ 0) : InUse t := by
  obtain ⟨iDentry, hlist, hinodes⟩ := h.inodes
  refine huse.update hino h.bits hinodes h.dentries (fun h₀ => absurd h₀ hne) (huse.iIno ino hino)
    rfl ?_
  intro a ha
  obtain rfl | ⟨-, rfl⟩ := hlist
  · exact absurd ha List.not_mem_nil
  · exact huse.listed ino a ha

theorem Keeps.fresh (h : Keeps s t) (hfree : s.bitmapInodes i = false)
    (hbits : s'.bitmapInodes = t.bitmapInodes)
    (hinodes : s'.inodes = Function.update t.inodes i inode) : Keeps s s' := by
  have hother : ∀ j, s.bitmapInodes j = true → s'.inodes j = t.inodes j := by
    intro j hj
    have hne : j ≠ i := by
      rintro rfl
      exact absurd hj (by simp [hfree])
    rw [hinodes, Function.update_of_ne hne]
  refine ⟨fun j hj => hbits ▸ h.bits j hj, fun j hj => ?_, fun j hj => ?_, fun j hj => ?_,
    fun j hj => ?_⟩
  all_goals rw [hother j hj]
  · exact h.iMode j hj
  · exact h.iRdev j hj
  · exact h.iParent j hj
  · exact h.iSync j hj

theorem InUse.fsAddFile (h : InUse s) (hdir : s.bitmapInodes dir = true)
    (hadd : s.fsAddFile dir fileName fileType memory = some (s', r)) :
    InUse s' ∧ Keeps s s' ∧ ∀ i ∈ r, s.bitmapInodes i = false ∧ s'.bitmapInodes i = true ∧
      (s'.inodes i).iMode = fileType ∧ (s'.inodes i).iSize = 0 := by
  obtain ⟨rfl, rfl⟩ | ⟨ino, addr, t, -, htakes, -, -, hfile⟩ := fsAddFile_spec hdir hadd
  · exact ⟨h, .refl s', by simp⟩
  have ht : InUse t := htakes.inUse h rfl (by
    show s.bitmapInodes (s.inodes dir).iIno = true
    rwa [h.iIno dir hdir]) fun _ ha => ha
  obtain ⟨rfl, rfl⟩ | ⟨u, hinst, rfl, hlists⟩ := hfile
  · exact ⟨ht, htakes.keeps, by simp⟩
  obtain ⟨hino, hinode⟩ := htakes.taken
  have hne : ino ≠ 0 := by
    rintro rfl
    exact absurd h.root.1 (by simp [htakes.free])
  have hu : InUse { u with fileCnt := u.fileCnt + 1 } := by
    obtain ⟨hroot, hiIno, hparent, hlisted⟩ := hinst.inUse ht hino hne
    exact ⟨hroot, hiIno, hparent, hlisted⟩
  have hkeeps : Keeps s { u with fileCnt := u.fileCnt + 1 } := by
    obtain ⟨_, -, hinodes⟩ := hinst.inodes
    exact htakes.keeps.fresh htakes.free hinst.bits hinodes
  have hdir' := hkeeps.bits dir hdir
  have hnew : u.bitmapInodes (u.dentries addr).dInode = true := by
    obtain ⟨d, hd, hdentries⟩ := htakes.dentry
    rw [hinst.bits, hinst.dentries, hdentries, Function.update_self, hd]
    exact hino
  refine ⟨hlists.inUse hu hdir' hnew, hkeeps.trans hlists.keeps, fun i hi => ?_⟩
  obtain rfl := Option.some.inj hi
  have hne' : ino ≠ dir := by
    rintro rfl
    exact absurd hdir (by simp [htakes.free])
  obtain ⟨iData, hlist⟩ := hlists.inodes
  obtain ⟨_, -, hinodes⟩ := hinst.inodes
  have hinode' : s'.inodes ino = u.inodes ino := by
    rw [hlist, Function.update_of_ne hne']
  rw [hinode', hinodes, Function.update_self, hlists.bits]
  exact ⟨htakes.free, (congrFun hinst.bits ino).trans hino, rfl, rfl⟩

theorem InUse.fsMountFile {rdev : Nat} {mnt : StoredInode} {name : List Byte} (h : InUse s)
    (hdir : s.bitmapInodes dir = true) (hmount : s.fsMountFile dir rdev mnt name = some s') :
    InUse s' ∧ Keeps s s' := by
  obtain ⟨-, rfl⟩ | ⟨ino, addr, t, htakes, -, -, hlists⟩ := fsMountFile_spec hdir hmount
  · exact ⟨h, .refl s'⟩
  have ht : InUse t := htakes.inUse h rfl (by
    show s.bitmapInodes (s.inodes dir).iIno = true
    rwa [h.iIno dir hdir]) fun _ ha => absurd ha List.not_mem_nil
  have hnew : t.bitmapInodes (t.dentries addr).dInode = true := by
    obtain ⟨d, hd, hdentries⟩ := htakes.dentry
    rw [hdentries, Function.update_self, hd]
    exact htakes.taken.1
  exact ⟨hlists.inUse ht (htakes.keeps.bits dir hdir) hnew, htakes.keeps.trans hlists.keeps⟩

theorem mountLoop_invariant {P : Rootfs → Prop} {rdev addr : Nat} {inode : Option StoredInode}
    (hfile : ∀ {s t mnt name}, P s → s.fsMountFile dir rdev mnt name = some t → P t) (h : P s)
    (hloop : mountLoop rdev dir passes s addr inode = some s') : P s' := by
  induction passes generalizing s addr inode with
  | zero => cases hloop
  | succ passes ih =>
      rw [mountLoop] at hloop
      obtain ⟨dentry, -, hpass⟩ := Option.bind_eq_some_iff.mp hloop
      obtain ⟨mnt, -, hmount⟩ := Option.bind_eq_some_iff.mp hpass
      obtain ⟨s₁, hs₁, hrest⟩ := Option.bind_eq_some_iff.mp hmount
      have h₁ := hfile h hs₁
      split at hrest
      · obtain rfl := Option.some.inj hrest
        exact h₁
      · exact ih h₁ hrest

theorem fsMountDirectory_invariant {P : Rootfs → Prop} {rdev : Nat} {src : StoredInode}
    (hfile : ∀ {s t mnt name}, P s → s.fsMountFile dir rdev mnt name = some t → P t)
    (hstart : (s.inodes dir).iSync = false →
      P (s.setInode dir fun n => { n with iSize := 0, iBlocks := 0 }))
    (hloaded : (s.inodes dir).iSync = true → P s)
    (hmount : s.fsMountDirectory passes rdev src dir = some s') :
    (src.iSize = 0 ∧ s' = s) ∨ (src.iSize ≠ 0 ∧
      ∃ t, P t ∧ s' = t.setInode dir fun n => { n with iSync := true }) := by
  rw [fsMountDirectory] at hmount
  split at hmount
  · next hempty => exact Or.inl ⟨hempty, (Option.some.inj hmount).symm⟩
  · next hsize =>
      obtain ⟨t, hloop, hs'⟩ := Option.bind_eq_some_iff.mp hmount
      refine Or.inr ⟨hsize, t, mountLoop_invariant hfile ?_ hloop, (Option.some.inj hs').symm⟩
      split
      · next hsync => exact hloaded hsync
      · next hsync => exact hstart (by simpa using hsync)

theorem InUse.emptied (h : InUse s) (hdir : s.bitmapInodes dir = true) :
    InUse (s.setInode dir fun n => { n with iSize := 0, iBlocks := 0 }) := by
  refine h.update hdir rfl rfl rfl ?_ (h.iIno dir hdir) rfl (h.listed dir)
  rintro rfl
  exact h.root.2

theorem InUse.storages (h : InUse s) (storages : Nat → Storage) :
    InUse { s with storages := storages } := by
  obtain ⟨hroot, hiIno, hparent, hlisted⟩ := h
  exact ⟨hroot, hiIno, hparent, hlisted⟩

theorem InUse.fsMountDirectory {rdev : Nat} {src : StoredInode} (h : InUse s)
    (hdir : s.bitmapInodes dir = true)
    (hmount : s.fsMountDirectory passes rdev src dir = some s') :
    InUse s' ∧ Keeps s s' ∧ (src.iSize ≠ 0 → (s'.inodes dir).iSync = true) := by
  have hstart : InUse (s.setInode dir fun n => { n with iSize := 0, iBlocks := 0 }) ∧
      Keeps s (s.setInode dir fun n => { n with iSize := 0, iBlocks := 0 }) :=
    ⟨h.emptied hdir, Keeps.update rfl rfl rfl rfl rfl id⟩
  obtain ⟨hempty, rfl⟩ | ⟨-, t, ⟨ht, hkeeps⟩, rfl⟩ :=
    fsMountDirectory_invariant (P := fun t => InUse t ∧ Keeps s t)
      (fun ⟨hs, hkeeps⟩ hfile => by
        obtain ⟨ht, hkeeps'⟩ := hs.fsMountFile (hkeeps.bits dir hdir) hfile
        exact ⟨ht, hkeeps.trans hkeeps'⟩)
      (fun _ => hstart) (fun _ => ⟨h, .refl s⟩) hmount
  · exact ⟨h, .refl s', fun hsize => absurd hempty hsize⟩
  have hdir' := hkeeps.bits dir hdir
  refine ⟨ht.update hdir' rfl rfl rfl ?_ (ht.iIno dir hdir') rfl (ht.listed dir),
    hkeeps.trans (Keeps.update rfl rfl rfl rfl rfl fun _ => rfl), fun _ => ?_⟩
  · rintro rfl
    exact ht.root.2
  · simp [setInode]

theorem fsSyncFile_cases (h : s.fsSyncFile i memory = some s') :
    (s' = s ∧ ¬ ((s.inodes i).iRdev ≠ rdevRootfs ∧ (s.inodes i).iMode = sIfreg ∧
      (s.inodes i).iSync = false ∧ s.fileCnt < fileMax)) ∨
    ((s.inodes i).iRdev ≠ rdevRootfs ∧ (s.inodes i).iMode = sIfreg ∧
      (s.inodes i).iSync = false ∧ s.fileCnt < fileMax ∧
      s' = { s.setInode i fun n => { n with iFd := s.fileCnt + fileReservedNum, iSync := true } with
        fileCnt := s.fileCnt + 1
        files := Function.update s.files (s.fileCnt + fileReservedNum) (some (.regFile i))
        pos := Function.update s.pos i 0 }) := by
  rw [Rootfs.fsSyncFile] at h
  by_cases hrdev : (s.inodes i).iRdev = rdevRootfs
  · rw [if_pos hrdev] at h
    exact Or.inl ⟨(Option.some.inj h).symm, fun hnot => hnot.1 hrdev⟩
  by_cases hmode : (s.inodes i).iMode = sIfreg
  · cases hsync : (s.inodes i).iSync with
    | true =>
        simp only [hrdev, hmode, hsync, ne_eq, not_true, if_false, if_true] at h
        exact Or.inl ⟨(Option.some.inj h).symm, fun hnot => by cases hnot.2.2.1⟩
    | false =>
        by_cases hfull : fileMax ≤ s.fileCnt
        · simp only [hrdev, hmode, hsync, hfull, ne_eq, not_true, Bool.false_eq_true, if_false,
            if_true] at h
          exact Or.inl ⟨(Option.some.inj h).symm, fun hnot => absurd hfull (Nat.not_le.mpr hnot.2.2.2)⟩
        · cases memory with
          | false => simp [hrdev, hmode, hsync, hfull] at h
          | true =>
              simp only [hrdev, hmode, hsync, hfull, ne_eq, not_true, Bool.false_eq_true, if_false,
                if_true] at h
              exact Or.inr ⟨hrdev, hmode, rfl, Nat.lt_of_not_le hfull, (Option.some.inj h).symm⟩
  · rw [if_neg hrdev, if_pos hmode] at h
    exact Or.inl ⟨(Option.some.inj h).symm, fun hnot => hmode hnot.2.1⟩

theorem InUse.fsSyncFile (h : InUse s) (hi : s.bitmapInodes i = true)
    (hsync : s.fsSyncFile i memory = some s') : InUse s' ∧ Keeps s s' := by
  obtain ⟨rfl, -⟩ | ⟨-, -, -, -, rfl⟩ := fsSyncFile_cases hsync
  · exact ⟨h, .refl s'⟩
  · refine ⟨h.update hi rfl rfl rfl ?_ (h.iIno i hi) rfl (h.listed i),
      Keeps.update rfl rfl rfl rfl rfl fun _ => rfl⟩
    rintro rfl
    exact h.root.2

theorem InUse.fsFileAppendBlock {addr : Nat} (h : InUse s) (hi : s.bitmapInodes i = true)
    (happ : s.fsFileAppendBlock i = some (s', addr)) : InUse s' ∧ Keeps s s' := by
  obtain ⟨rfl, -⟩ | ⟨k, -, -, -, rfl⟩ := fsFileAppendBlock_cases happ
  · exact ⟨h, .refl s'⟩
  · refine ⟨h.update hi rfl rfl rfl ?_ (h.iIno i hi) rfl (h.listed i),
      Keeps.update rfl rfl rfl rfl rfl id⟩
    rintro rfl
    exact h.root.2

/-- One action of a call; with `strict`, on a directory. -/
inductive Act (strict : Prop) : Rootfs → Rootfs → Prop
  | load {s t : Rootfs} {dir passes : Nat} (hdir : s.bitmapInodes dir = true)
      (hmode : strict → (s.inodes dir).iMode = sIfdir) (hsync : (s.inodes dir).iSync = false)
      (h : s.syncDirectory passes dir = some t) : Act strict s t
  | add {s t : Rootfs} {dir fileType : Nat} {fileName : List Byte} {memory : Bool}
      {r : Option Nat} (hdir : s.bitmapInodes dir = true)
      (hmode : strict → (s.inodes dir).iMode = sIfdir)
      (hready : (s.inodes dir).iSync = true ∨ (s.inodes dir).iSize = 0)
      (h : s.fsAddFile dir fileName fileType memory = some (t, r)) : Act strict s t
  | sync {s t : Rootfs} {ino : Nat} {memory : Bool} (hino : s.bitmapInodes ino = true)
      (h : s.fsSyncFile ino memory = some t) : Act strict s t
  | mount {s t : Rootfs} {dir passes : Nat} {storage : Storage} {src : StoredInode}
      (hdir : s.IsDir dir) (hcnt : s.mountCnt ≤ mountMax)
      (h : { s with storages := Function.update s.storages s.mountCnt storage }.fsMountDirectory
        passes s.mountCnt src dir = some t) : Act strict s { t with mountCnt := t.mountCnt + 1 }
  | append {s t : Rootfs} {ino addr : Nat} (hfile : s.IsRegFile ino)
      (h : s.fsFileAppendBlock ino = some (t, addr)) : Act strict s t

theorem InUse.act (h : InUse s) (hact : Act strict s t) : InUse t ∧ Keeps s t := by
  cases hact with
  | load hdir _ _ hload =>
      obtain ⟨ht, hkeeps, -⟩ := h.fsMountDirectory hdir hload
      exact ⟨ht, hkeeps⟩
  | add hdir _ _ hadd =>
      obtain ⟨ht, hkeeps, -⟩ := h.fsAddFile hdir hadd
      exact ⟨ht, hkeeps⟩
  | sync hino hsync => exact h.fsSyncFile hino hsync
  | @mount t _ _ storage _ hdir _ hmount =>
      have h₀ := h.storages (Function.update s.storages s.mountCnt storage)
      obtain ⟨⟨hroot, hiIno, hparent, hlisted⟩, ⟨hbits, hmode, hrdev, hparents, hsync⟩, -⟩ :=
        h₀.fsMountDirectory hdir.1 hmount
      exact ⟨⟨hroot, hiIno, hparent, hlisted⟩, ⟨hbits, hmode, hrdev, hparents, hsync⟩⟩
  | append hfile happ => exact h.fsFileAppendBlock hfile.1 happ

theorem InUse.acts (h : InUse s) (hacts : Relation.ReflTransGen (Act strict) s t) :
    InUse t ∧ Keeps s t := by
  induction hacts with
  | refl => exact ⟨h, .refl s⟩
  | tail _ hact ih =>
      obtain ⟨ht, hkeeps⟩ := ih.1.act hact
      exact ⟨ht, ih.2.trans hkeeps⟩

/-- A search loads the directory if it looks at the dentries and they are not there, and answers
the directory, its parent or what is in it. -/
theorem fsSearchFile_cases (h : s.fsSearchFile passes dir entry = some (s', r)) :
    (((s.inodes dir).iSize = 0 ∧ r = none ∨ r = some dir ∨ r = some (s.inodes dir).iParent) ∧
      s' = s) ∨
    (((s.inodes dir).iSync = true ∧ s' = s ∨
      (s.inodes dir).iSync = false ∧ s.syncDirectory passes dir = some s') ∧
      (s.inodes dir).iSize ≠ 0 ∧ ∀ i ∈ r, ∃ a ∈ s'.dentriesOf dir, (s'.dentries a).dInode = i) := by
  rw [fsSearchFile] at h
  split at h
  · next hempty =>
      obtain ⟨rfl, rfl⟩ := Prod.mk.inj (Option.some.inj h)
      exact Or.inl ⟨Or.inl ⟨hempty, rfl⟩, rfl⟩
  split at h
  · obtain ⟨rfl, rfl⟩ := Prod.mk.inj (Option.some.inj h)
    exact Or.inl ⟨Or.inr (Or.inl rfl), rfl⟩
  split at h
  · obtain ⟨rfl, rfl⟩ := Prod.mk.inj (Option.some.inj h)
    exact Or.inl ⟨Or.inr (Or.inr rfl), rfl⟩
  next hsize _ _ =>
    have hfound : ∀ {t : Rootfs}, ((t.inodes dir).iDentry.bind fun list => some (t,
        (list.find? fun a => (t.dentries a).dName = entry).map fun a => (t.dentries a).dInode)) =
          some (s', r) →
        t = s' ∧ ∀ i ∈ r, ∃ a ∈ s'.dentriesOf dir, (s'.dentries a).dInode = i := by
      intro t hfind
      obtain ⟨list, hlist, hpair⟩ := Option.bind_eq_some_iff.mp hfind
      obtain ⟨rfl, rfl⟩ := Prod.mk.inj (Option.some.inj hpair)
      refine ⟨rfl, fun i hi => ?_⟩
      obtain ⟨a, ha, rfl⟩ := Option.map_eq_some_iff.mp hi
      refine ⟨a, ?_, rfl⟩
      rw [dentriesOf, hlist]
      exact List.mem_of_find?_eq_some ha
    split at h
    · next hsync =>
        obtain ⟨rfl, hlisted⟩ := hfound h
        exact Or.inr ⟨Or.inl ⟨hsync, rfl⟩, hsize, hlisted⟩
    · next hsync =>
        obtain ⟨t, hload, hfind⟩ := Option.bind_eq_some_iff.mp h
        obtain ⟨rfl, hlisted⟩ := hfound hfind
        exact Or.inr ⟨Or.inr ⟨by simpa using hsync, hload⟩, hsize, hlisted⟩

theorem InUse.fsSearchFile (h : InUse s) (hdir : s.bitmapInodes dir = true)
    (hmode : strict → (s.inodes dir).iMode = sIfdir)
    (hsearch : s.fsSearchFile passes dir entry = some (s', r)) :
    Relation.ReflTransGen (Act strict) s s' ∧ (∀ i ∈ r, s'.bitmapInodes i = true) ∧
      (r = none → (s'.inodes dir).iSync = true ∨ (s'.inodes dir).iSize = 0) := by
  obtain ⟨hfound, rfl⟩ | ⟨⟨hsync, rfl⟩ | ⟨hsync, hload⟩, hsize, hlisted⟩ :=
    fsSearchFile_cases hsearch
  · refine ⟨.refl, fun i hi => ?_, fun hnone => ?_⟩
    · obtain ⟨-, rfl⟩ | rfl | rfl := hfound
      · cases hi
      · exact Option.some.inj hi ▸ hdir
      · exact Option.some.inj hi ▸ h.parent dir hdir
    · obtain ⟨hempty, -⟩ | rfl | rfl := hfound
      · exact Or.inr hempty
      · cases hnone
      · cases hnone
  · refine ⟨.refl, fun i hi => ?_, fun _ => Or.inl hsync⟩
    obtain ⟨a, ha, rfl⟩ := hlisted i hi
    exact h.listed dir a ha
  · obtain ⟨hs', -, hsynced⟩ := h.fsMountDirectory hdir hload
    refine ⟨.single (.load hdir hmode hsync hload), fun i hi => ?_, fun _ => Or.inl ?_⟩
    · obtain ⟨a, ha, rfl⟩ := hlisted i hi
      exact hs'.listed dir a ha
    · exact hsynced hsize

end Rootfs

end Tenok
