import Mathlib.Data.List.Find
import Tenok.Fs.DirectoryLoads

/-!
A file is found where it was created. A search answers the first dentry with the name, and later
ones are put behind it. A name that is made must be stored as a whole and not be looked for
elsewhere; a directory that was not loaded would be read again from where its dentries are.
-/
namespace Tenok

namespace Rootfs
variable {s t u : Rootfs} {d dir i j ino addr fd fileType passes n : Nat} {inode : Inode}
  {r : Option Nat} {mounting : Option Nat} {entry fileName : List Byte} {memory : Bool}
  {es : List (List Byte)} {w : Walk}

/-- What directories list stays in front, and one with dentries does not seem to be empty. -/
structure Grows (s t : Rootfs) : Prop where
  keeps : Keeps s t
  size : ∀ d, s.IsDir d → (s.inodes d).iSize ≠ 0 → (t.inodes d).iSize ≠ 0
  list : ∀ d list, s.IsDir d → (s.inodes d).iDentry = some list →
    ∃ l, (t.inodes d).iDentry = some (list ++ l)
  dentries : ∀ d, s.IsDir d → ∀ a ∈ s.dentriesOf d, t.dentries a = s.dentries a

theorem Grows.refl (s : Rootfs) : Grows s s :=
  ⟨.refl s, fun _ _ h => h, fun _ list _ h => ⟨[], by rw [h, List.append_nil]⟩, fun _ _ _ _ => rfl⟩

theorem Grows.mem (h : Grows s t) (hd : s.IsDir d) {a : Nat} (ha : a ∈ s.dentriesOf d) :
    a ∈ t.dentriesOf d := by
  obtain ⟨list, hlist, hmem⟩ := iDentry_of_mem ha
  obtain ⟨l, hl⟩ := h.list d list hd hlist
  rw [dentriesOf, hl]
  exact List.mem_append_left l hmem

theorem Grows.trans (h : Grows s t) (h' : Grows t u) : Grows s u where
  keeps := h.keeps.trans h'.keeps
  size d hd hsize := h'.size d (h.keeps.isDir hd) (h.size d hd hsize)
  list d list hd hlist := by
    obtain ⟨l, hl⟩ := h.list d list hd hlist
    obtain ⟨l', hl'⟩ := h'.list d _ (h.keeps.isDir hd) hl
    exact ⟨l ++ l', by rw [hl', List.append_assoc]⟩
  dentries d hd a ha :=
    (h'.dentries d (h.keeps.isDir hd) a (h.mem hd ha)).trans (h.dentries d hd a ha)

theorem Extends.grows (h : Extends s t dir)
    (hsize : (s.inodes dir).iSize ≠ 0 → (t.inodes dir).iSize ≠ 0) : Grows s t where
  keeps := h.keeps
  size d hd hne := by
    by_cases hdir : d = dir
    · subst hdir
      exact hsize hne
    · rwa [h.others d hd.1 hdir]
  list d list hd hlist := by
    by_cases hdir : d = dir
    · subst hdir
      exact h.list list hlist
    · exact ⟨[], by rw [h.others d hd.1 hdir, hlist, List.append_nil]⟩
  dentries d hd a ha := h.dentries d hd.1 a ha

/-- A search in the directory answers this inode, and nothing is loaded for it. -/
def Finds (s : Rootfs) (i : Nat) (entry : List Byte) (j : Nat) : Prop :=
  (s.inodes i).iSize ≠ 0 ∧
    (entry = [46#8] ∧ j = i ∨ entry = dotdot ∧ j = (s.inodes i).iParent ∨
      (entry ≠ [46#8] ∧ entry ≠ dotdot ∧ (s.inodes i).iSync = true ∧ ∃ list a,
        (s.inodes i).iDentry = some list ∧
        list.find? (fun a => (s.dentries a).dName = entry) = some a ∧ j = (s.dentries a).dInode))

theorem fsSearchFile_spec (h : s.fsSearchFile passes dir entry = some (t, r)) :
    ((s.inodes dir).iSize = 0 ∧ t = s ∧ r = none) ∨
    (s.inodes dir).iSize ≠ 0 ∧
      ((entry = [46#8] ∧ t = s ∧ r = some dir) ∨
      (entry = dotdot ∧ t = s ∧ r = some (s.inodes dir).iParent) ∨
      (entry ≠ [46#8] ∧ entry ≠ dotdot ∧ s.loadDir passes dir = some t ∧
        ∃ list, (t.inodes dir).iDentry = some list ∧
          r = (list.find? fun a => (t.dentries a).dName = entry).map fun a =>
            (t.dentries a).dInode)) := by
  rw [fsSearchFile] at h
  split at h
  · next hempty =>
      obtain ⟨rfl, rfl⟩ := Prod.mk.inj (Option.some.inj h)
      exact Or.inl ⟨hempty, rfl, rfl⟩
  next hsize =>
  refine Or.inr ⟨hsize, ?_⟩
  split at h
  · next hdot =>
      obtain ⟨rfl, rfl⟩ := Prod.mk.inj (Option.some.inj h)
      exact Or.inl ⟨hdot, rfl, rfl⟩
  next hdot =>
  split at h
  · next hdots =>
      obtain ⟨rfl, rfl⟩ := Prod.mk.inj (Option.some.inj h)
      exact Or.inr (Or.inl ⟨hdots, rfl, rfl⟩)
  next hdots =>
  have hload : ∃ u, s.loadDir passes dir = some u ∧ ((u.inodes dir).iDentry.bind fun list =>
      some (u, (list.find? fun a => (u.dentries a).dName = entry).map fun a =>
        (u.dentries a).dInode)) = some (t, r) := by
    rw [loadDir]
    by_cases hsync : (s.inodes dir).iSync = true
    · rw [if_pos hsync] at h ⊢
      exact ⟨s, rfl, h⟩
    · rw [if_neg hsync] at h ⊢
      exact Option.bind_eq_some_iff.mp h
  obtain ⟨u, hu, hfind⟩ := hload
  obtain ⟨list, hlist, hpair⟩ := Option.bind_eq_some_iff.mp hfind
  obtain ⟨rfl, rfl⟩ := Prod.mk.inj (Option.some.inj hpair)
  exact Or.inr (Or.inr ⟨hdot, hdots, hu, list, hlist, rfl⟩)

theorem Finds.search (h : Finds s i entry j) (passes : Nat) :
    s.fsSearchFile passes i entry = some (s, some j) := by
  obtain ⟨hsize, ⟨rfl, rfl⟩ | ⟨rfl, rfl⟩ | ⟨hdot, hdots, hsync, list, a, hlist, hfind, rfl⟩⟩ := h
  · rw [fsSearchFile, if_neg hsize, if_pos rfl]
  · rw [fsSearchFile, if_neg hsize, if_neg (by decide), if_pos (show dotdot = [46#8, 46#8] from rfl)]
  · rw [fsSearchFile, if_neg hsize, if_neg hdot, if_neg (show entry ≠ [46#8, 46#8] from hdots)]
    simp only [hsync, if_true, Option.bind_eq_bind, Option.bind_some, hlist, hfind, Option.map_some]

theorem Finds.grows (h : Finds s i entry j) (hdir : s.IsDir i) (hgrows : Grows s t) :
    Finds t i entry j := by
  obtain ⟨hsize, hfound⟩ := h
  refine ⟨hgrows.size i hdir hsize, ?_⟩
  obtain hself | ⟨hdots, hj⟩ | ⟨hdot, hdots, hsync, list, a, hlist, hfind, hj⟩ := hfound
  · exact Or.inl hself
  · exact Or.inr (Or.inl ⟨hdots, by rw [hgrows.keeps.iParent i hdir.1, hj]⟩)
  · have hmem : ∀ b ∈ list, b ∈ s.dentriesOf i := by
      intro b hb
      rwa [dentriesOf, hlist]
    obtain ⟨l, hl⟩ := hgrows.list i list hdir hlist
    have hsame : ∀ b ∈ list, t.dentries b = s.dentries b :=
      fun b hb => hgrows.dentries i hdir b (hmem b hb)
    have ha := hsame a (List.mem_of_find?_eq_some hfind)
    have hfind' : list.find? (fun b => (t.dentries b).dName = entry) = some a := by
      rw [← hfind]
      exact List.find?_congr fun b hb => by rw [hsame b hb]
    refine Or.inr (Or.inr ⟨hdot, hdots, hgrows.keeps.iSync i hdir.1 hsync, list ++ l, a, hl, ?_, ?_⟩)
    · rw [List.find?_append, hfind', Option.some_or]
    · rw [ha, hj]

theorem fsMountFile_sInodeCnt {rdev : Nat} {mnt : StoredInode} {name : List Byte}
    (h : s.fsMountFile dir rdev mnt name = some t) : s.sInodeCnt ≤ t.sInodeCnt := by
  obtain ⟨-, rfl⟩ | ⟨ino, addr, s₁, s₂, -, halloc, hdentry, hins⟩ := fsMountFile_cases h
  · exact Nat.le_refl _
  · obtain ⟨-, rfl⟩ := fsAllocInode_spec halloc
    obtain ⟨sBlkCnt, bitmapBlks, rfl, -⟩ := fsAllocateDentry_cases hdentry
    have hcnt := (insertDentry_sameCounters hins).sInodeCnt
    simp only [setInode] at hcnt
    omega

theorem fsAddFile_sInodeCnt (h : s.fsAddFile dir fileName fileType memory = some (t, r)) :
    s.sInodeCnt ≤ t.sInodeCnt := by
  obtain ⟨rfl, -, -⟩ | ⟨ino, addr, s₁, s₂, hadds, hfile⟩ := fsAddFile_cases h
  · exact Nat.le_refl _
  obtain ⟨-, rfl⟩ := fsAllocInode_spec hadds.inode
  obtain ⟨sBlkCnt, bitmapBlks, rfl, -⟩ := fsAllocateDentry_cases hadds.dentry
  obtain ⟨-, rfl, -⟩ | ⟨s₃, hinst, -, hins⟩ := hfile
  · exact Nat.le_succ _
  · have hcnt := (instantiate_sameCounters hinst).sInodeCnt
    have hcnt' := (insertDentry_sameCounters hins).sInodeCnt
    simp only [setInode, named, setDentry] at hcnt hcnt'
    omega

theorem NewFile.size_ne_zero (h : NewFile s t dir ino addr inode) (hslots : Slots s mounting)
    (hdir : s.IsDir dir) (hready : ((s.inodes dir).iSync = true ∨ mounting = some dir) ∨
      (s.inodes dir).iSize = 0) : (t.inodes dir).iSize ≠ 0 := by
  have hmax : inodeMax = 100 := rfl
  have hdentry : sizeofDentry = 56 := rfl
  obtain ⟨iData, hcounts⟩ := h.counts
  have hsize : (t.inodes dir).iSize = ((s.inodes dir).iSize + sizeofDentry) % 2 ^ 32 := by
    rw [hcounts]
  obtain hcounted | hempty := hready
  · obtain ⟨n, hn, -, hle, -⟩ := hslots.counted dir hdir hcounted
    have hle' := hle.trans (inUse_le s)
    rw [hsize, hn, hdentry]
    omega
  · rw [hsize, hempty, hdentry]
    omega

theorem Mounting.mountLoop_size {rdev addr : Nat} {inode : Option StoredInode}
    (h : Mounting s t dir mounting) (hrdev : rdev ≠ rdevRootfs) (hroom : t.sInodeCnt < inodeMax)
    (hloop : mountLoop rdev dir passes t addr inode = some u) : (u.inodes dir).iSize ≠ 0 := by
  have hfile : ∀ {v v' : Rootfs} {mnt name}, Mounting s v dir mounting →
      (v.sInodeCnt < inodeMax ∨ (v.inodes dir).iSize ≠ 0) →
      v.fsMountFile dir rdev mnt name = some v' →
      Mounting s v' dir mounting ∧ (v'.inodes dir).iSize ≠ 0 := by
    intro v v' mnt name hv hor hmount
    refine ⟨hv.fsMountFile hrdev hmount, ?_⟩
    obtain ⟨hfull, rfl⟩ | ⟨ino, addr, v₁, htakes, -, -, hlists⟩ := fsMountFile_spec hv.isDir.1 hmount
    · exact hor.resolve_left (Nat.not_lt.mpr hfull)
    · exact (htakes.newFile hv.isDir.1 hlists).size_ne_zero hv.tabled.slots hv.isDir (Or.inl hv.ready)
  cases passes with
  | zero => cases hloop
  | succ passes =>
      rw [mountLoop] at hloop
      obtain ⟨dentry, -, hpass⟩ := Option.bind_eq_some_iff.mp hloop
      obtain ⟨mnt, -, hmount⟩ := Option.bind_eq_some_iff.mp hpass
      obtain ⟨v, hv, hrest⟩ := Option.bind_eq_some_iff.mp hmount
      have hfirst := hfile h (Or.inl hroom) hv
      split at hrest
      · obtain rfl := Option.some.inj hrest
        exact hfirst.2
      · exact (mountLoop_invariant (P := fun v => Mounting s v dir mounting ∧ (v.inodes dir).iSize ≠ 0)
          (fun hboth => hfile hboth.1 (Or.inr hboth.2)) hfirst hrest).2

theorem Tabled.fsMountDirectory_size {rdev : Nat} {src : StoredInode} (h : Tabled s none)
    (hdir : s.IsDir dir) (hrdev : rdev ≠ rdevRootfs) (hsrc : src.iSize ≠ 0)
    (hroom : s.sInodeCnt < inodeMax)
    (hmount : s.fsMountDirectory passes rdev src dir = some t) : (t.inodes dir).iSize ≠ 0 := by
  rw [Rootfs.fsMountDirectory, if_neg hsrc] at hmount
  obtain ⟨u, hloop, hu⟩ := Option.bind_eq_some_iff.mp hmount
  obtain rfl := Option.some.inj hu
  have hsize : (u.inodes dir).iSize ≠ 0 := by
    split at hloop
    · next hsync =>
        have hstart : Mounting s s dir none := ⟨h, .refl s, hdir, Or.inl hsync, by simp⟩
        exact hstart.mountLoop_size hrdev hroom hloop
    · exact (h.emptied hdir).mountLoop_size hrdev hroom hloop
  simpa [setInode] using hsize

/-- A directory that seems to be empty has no dentries, unless the inodes have run out; but for one
that is mounted. -/
def Emptied (s : Rootfs) (mounting : Option Nat) : Prop :=
  ∀ d, mounting ≠ some d → s.IsDir d → (s.inodes d).iSize = 0 →
    s.dentriesOf d = [] ∨ inodeMax ≤ s.sInodeCnt

theorem NewFile.emptied (h : NewFile s t dir ino addr inode) (hs : Emptied s mounting)
    (hlist : inode.iDentry.getD [] = []) (hcnt : s.sInodeCnt ≤ t.sInodeCnt)
    (hdir : mounting = some dir ∨ (t.inodes dir).iSize ≠ 0) : Emptied t mounting := by
  intro d hd hdir' hsize
  have hne : d ≠ dir := by
    rintro rfl
    exact hdir.elim hd fun hsize' => hsize' hsize
  by_cases hino : d = ino
  · rw [dentriesOf, hino, h.inode, hlist]
    exact Or.inl rfl
  · have hbit := hdir'.1
    have hmode := hdir'.2
    rw [h.bits, Function.update_of_ne hino] at hbit
    rw [h.others d hino hne] at hmode hsize
    rw [dentriesOf, h.others d hino hne]
    exact (hs d hd ⟨hbit, hmode⟩ hsize).imp_right fun hfull => hfull.trans hcnt

theorem Emptied.others (hs : Emptied s (some dir)) (hbits : t.bitmapInodes = s.bitmapInodes)
    (hothers : ∀ d, d ≠ dir → t.inodes d = s.inodes d) (hcnt : s.sInodeCnt ≤ t.sInodeCnt) :
    Emptied t (some dir) := by
  intro d hd hdir hsize
  have hsame := hothers d fun heq => hd (congrArg some heq.symm)
  rw [IsDir, hbits, hsame] at hdir
  rw [hsame] at hsize
  rw [dentriesOf, hsame]
  exact (hs d hd hdir hsize).imp_right fun hfull => hfull.trans hcnt

theorem Emptied.fsMountDirectory {rdev : Nat} {src : StoredInode} (hs : Emptied s none)
    (h : Tabled s none) (hdir : s.IsDir dir) (hrdev : rdev ≠ rdevRootfs)
    (hmount : s.fsMountDirectory passes rdev src dir = some t) :
    Emptied t none ∧ s.sInodeCnt ≤ t.sInodeCnt := by
  have hfile : ∀ {v v' : Rootfs} {mnt name}, (∃ mounting, Mounting s v dir mounting) ∧
      Emptied v (some dir) ∧ s.sInodeCnt ≤ v.sInodeCnt →
      v.fsMountFile dir rdev mnt name = some v' → (∃ mounting, Mounting s v' dir mounting) ∧
      Emptied v' (some dir) ∧ s.sInodeCnt ≤ v'.sInodeCnt := by
    intro v v' mnt name hv hmount
    obtain ⟨⟨mounting, hv⟩, hempty, hle⟩ := hv
    have hcnt := fsMountFile_sInodeCnt hmount
    refine ⟨⟨mounting, hv.fsMountFile hrdev hmount⟩, ?_, hle.trans hcnt⟩
    obtain ⟨-, rfl⟩ | ⟨ino, addr, v₁, htakes, -, -, hlists⟩ := fsMountFile_spec hv.isDir.1 hmount
    · exact hempty
    · exact (htakes.newFile hv.isDir.1 hlists).emptied hempty rfl hcnt (Or.inl rfl)
  have hstart : Emptied s (some dir) := fun d _ => hs d (by simp)
  have hemptied : Emptied (s.setInode dir fun n => { n with iSize := 0, iBlocks := 0 }) (some dir) :=
    hstart.others rfl (fun d hd => Function.update_of_ne hd ..) (Nat.le_refl _)
  obtain ⟨-, rfl⟩ | ⟨hsrc, u, ⟨-, hempty, hle⟩, rfl⟩ :=
    fsMountDirectory_invariant (P := fun v => (∃ mounting, Mounting s v dir mounting) ∧
        Emptied v (some dir) ∧ s.sInodeCnt ≤ v.sInodeCnt) hfile
      (fun _ => ⟨⟨some dir, h.emptied hdir⟩, hemptied, Nat.le_refl _⟩)
      (fun hsync => ⟨⟨none, h, .refl s, hdir, Or.inl hsync, by simp⟩, hstart, Nat.le_refl _⟩) hmount
  · exact ⟨hs, Nat.le_refl _⟩
  · refine ⟨fun d _ hd hsize => ?_, hle⟩
    by_cases hne : d = dir
    · subst hne
      have hfull := fun hroom => h.fsMountDirectory_size hdir hrdev hsrc hroom hmount hsize
      exact Or.inr ((Nat.le_of_not_lt hfull).trans hle)
    · refine (hempty.others (t := u.setInode dir fun n => { n with iSync := true }) rfl
        (fun d hd => Function.update_of_ne hd ..) (Nat.le_refl _)) d ?_ hd hsize
      exact fun heq => hne (Option.some.inj heq).symm

theorem Emptied.same (hs : Emptied s none) (hcnt : s.sInodeCnt ≤ t.sInodeCnt)
    (hdirs : ∀ d, t.IsDir d → s.IsDir d ∧ (t.inodes d).iSize = (s.inodes d).iSize ∧
      (t.inodes d).iDentry = (s.inodes d).iDentry) : Emptied t none := by
  intro d hd hdir hsize
  obtain ⟨hdir', hsize', hlist⟩ := hdirs d hdir
  rw [dentriesOf, hlist]
  exact (hs d hd hdir' (hsize' ▸ hsize)).imp_right fun hfull => hfull.trans hcnt

theorem Emptied.update (hs : Emptied s none) (hbits : t.bitmapInodes = s.bitmapInodes)
    (hinodes : t.inodes = Function.update s.inodes i inode)
    (hmode : inode.iMode = (s.inodes i).iMode) (hsize : inode.iSize = (s.inodes i).iSize)
    (hlist : inode.iDentry = (s.inodes i).iDentry) (hcnt : s.sInodeCnt ≤ t.sInodeCnt) :
    Emptied t none := by
  refine hs.same hcnt fun d hd => ?_
  rw [IsDir, hbits] at hd
  obtain ⟨hd', rfl⟩ | hd' := inodes_update hinodes d
  · rw [hd', hmode] at hd
    rw [hd']
    exact ⟨hd, hsize, hlist⟩
  · rw [hd'] at hd ⊢
    exact ⟨hd, rfl, rfl⟩

theorem fsAddFile_new (hdir : s.bitmapInodes dir = true)
    (hadd : s.fsAddFile dir fileName fileType memory = some (t, some ino)) :
    s.sInodeCnt < inodeMax ∧ ∃ addr iDentry,
      (iDentry = some [] ∨ iDentry = (s.inodes ino).iDentry) ∧
      (t.dentries addr).dName = fileName.take (nameMax - 1) ∧
      NewFile s t dir ino addr
        { addedInode (s.inodes dir).iIno (s.fileCnt + fileReservedNum)
            { s.inodes ino with iIno := ino } with
          iMode := fileType, iSize := 0, iBlocks := 0, iData := 0, iDentry } := by
  obtain ⟨-, hnone, -⟩ | ⟨ino, addr, s₁, s₂, hadds, hfile⟩ := fsAddFile_cases hadd
  · cases hnone
  obtain ⟨htakes, -, -⟩ := takes_of_alloc hadds.inode hdir hadds.dentry
    (d := { dName := fileName.take (nameMax - 1), dInode := ino, dParent := (s.inodes dir).iIno }) rfl
  obtain ⟨-, -, hnone⟩ | ⟨u, hinst, hino, hins⟩ := hfile
  · cases hnone
  obtain rfl := Option.some.inj hino
  have hinst' := instantiates_of_instantiate hinst
  obtain ⟨iDentry, hlist, hmade⟩ := htakes.instantiated hinst'
  have hlists := lists_of_firstDentry hins
  have hname : (t.dentries addr).dName = fileName.take (nameMax - 1) := by
    simp only [hlists.dentries, hinst'.dentries, named, setDentry, Function.update_self]
  exact ⟨hadds.inodes, addr, iDentry, hlist, hname, hmade.counted.newFile hdir hlists⟩

theorem Emptied.fsAddFile (hs : Emptied s none) (h : Tabled s none) (hdir : s.IsDir dir)
    (hready : (s.inodes dir).iSync = true ∨ (s.inodes dir).iSize = 0)
    (hadd : s.fsAddFile dir fileName fileType memory = some (t, r)) : Emptied t none := by
  have hcnt := fsAddFile_sInodeCnt hadd
  obtain ⟨rfl, -⟩ | ⟨ino, addr, u, -, htakes, -, -, hfile⟩ := fsAddFile_spec hdir.1 hadd
  · exact hs
  have hempty := h.registry.unused ino htakes.free
  obtain ⟨rfl, -⟩ | ⟨v, -, rfl, -⟩ := hfile
  · refine hs.same hcnt fun d hd => ?_
    have hne : d ≠ ino := by
      rintro rfl
      have hmode := hd.2
      rw [htakes.taken.2, hempty] at hmode
      exact absurd hmode (show (0 : Nat) ≠ sIfdir by decide)
    have hsame : t.inodes d = s.inodes d := by rw [htakes.inodes, Function.update_of_ne hne]
    have hbit := hd.1
    rw [htakes.bits, Function.update_of_ne hne] at hbit
    exact ⟨⟨hbit, hsame ▸ hd.2⟩, by rw [hsame], by rw [hsame]⟩
  · obtain ⟨-, addr, iDentry, hlist, -, hnew⟩ := fsAddFile_new hdir.1 hadd
    have hlist' : iDentry.getD [] = [] := by
      obtain rfl | rfl := hlist
      · rfl
      · rw [hempty]
        rfl
    exact hnew.emptied hs hlist' hcnt
      (Or.inr (hnew.size_ne_zero h.slots hdir (hready.imp_left Or.inl)))

theorem Emptied.act (hs : Emptied s none) (h : Tabled s none) (hact : Act True s t) :
    Emptied t none := by
  cases hact with
  | load hdir hmode hsync hload =>
      have hd := And.intro hdir (hmode trivial)
      exact (hs.fsMountDirectory h hd (h.registry.unloaded _ hd hsync) hload).1
  | add hdir hmode hready hadd => exact hs.fsAddFile h ⟨hdir, hmode trivial⟩ hready hadd
  | @sync _ ino memory hino hsync =>
      obtain ⟨rfl, -⟩ | ⟨-, hreg, -, -, rfl⟩ := fsSyncFile_cases hsync
      · exact hs
      · exact hs.update rfl rfl rfl rfl rfl (Nat.le_refl _)
  | @mount t _ _ storage _ hdir _ hmount =>
      obtain ⟨h₀, -⟩ := h.same
        (t := { s with storages := Function.update s.storages s.mountCnt storage })
        rfl rfl rfl rfl rfl rfl rfl (Nat.le_refl _)
      have hs₀ : Emptied { s with storages := Function.update s.storages s.mountCnt storage } none := hs
      exact (hs₀.fsMountDirectory h₀ hdir (Nat.ne_of_gt h.registry.mounts) hmount).1
  | @append t ino _ hfile happ =>
      obtain ⟨rfl, -⟩ | ⟨k, -, -, -, rfl⟩ := fsFileAppendBlock_cases happ
      · exact hs
      · exact hs.update rfl rfl rfl rfl rfl (Nat.le_refl _)

theorem Emptied.acts (hs : Emptied s none) (h : Tabled s none)
    (hacts : Relation.ReflTransGen (Act True) s t) : Emptied t none := by
  induction hacts with
  | refl => exact hs
  | tail hacts hact ih => exact ih.act (h.acts hacts).1 hact

/-- What the calls keep. -/
structure Kept (s : Rootfs) : Prop where
  tabled : Tabled s none
  emptied : Emptied s none

theorem Kept.acts (h : Kept s) (hacts : Relation.ReflTransGen (Act True) s t) : Kept t :=
  ⟨(h.tabled.acts hacts).1, h.emptied.acts h.tabled hacts⟩

theorem Kept.use (h : Kept s) : InUse s := h.tabled.registry.use

theorem Kept.search (h : Kept s) (hdir : s.IsDir i)
    (hsearch : s.fsSearchFile passes i entry = some (t, r)) :
    Kept t ∧ t.IsDir i ∧ s.sInodeCnt ≤ t.sInodeCnt ∧
      (s.sInodeCnt < inodeMax → Grows s t ∧ ∀ j ∈ r, t.Finds i entry j) := by
  obtain ⟨-, rfl, rfl⟩ | ⟨hsize, ⟨hdot, rfl, rfl⟩ | ⟨hdots, rfl, rfl⟩ |
    ⟨hdot, hdots, hload, list, hlist, rfl⟩⟩ := fsSearchFile_spec hsearch
  · exact ⟨h, hdir, Nat.le_refl _, fun _ => ⟨.refl _, by simp⟩⟩
  · refine ⟨h, hdir, Nat.le_refl _, fun _ => ⟨.refl _, fun j hj => ⟨hsize, Or.inl ⟨hdot, ?_⟩⟩⟩⟩
    exact (Option.some.inj hj).symm
  · refine ⟨h, hdir, Nat.le_refl _, fun _ => ⟨.refl _, fun j hj => ⟨hsize, Or.inr (Or.inl ⟨hdots, ?_⟩)⟩⟩⟩
    exact (Option.some.inj hj).symm
  · have hacts := (h.use.fsSearchFile hdir.1 (fun _ : True => hdir.2) hsearch).1
    obtain ⟨⟨-, -, hdir', hext⟩, hsynced⟩ := h.tabled.slots.loadDir h.use hdir hload
    have hcounts : s.sInodeCnt ≤ t.sInodeCnt ∧
        (s.sInodeCnt < inodeMax → (t.inodes i).iSize ≠ 0) := by
      rw [loadDir] at hload
      split at hload
      · obtain rfl := Option.some.inj hload
        exact ⟨Nat.le_refl _, fun _ => hsize⟩
      · next hsync =>
          have hrdev := h.tabled.registry.unloaded i hdir (by simpa using hsync)
          exact ⟨(h.emptied.fsMountDirectory h.tabled hdir hrdev hload).2,
            fun hroom => h.tabled.fsMountDirectory_size hdir hrdev hsize hroom hload⟩
    refine ⟨h.acts hacts, hdir', hcounts.1, fun hroom => ?_⟩
    refine ⟨hext.grows fun _ => hcounts.2 hroom, fun j hj => ⟨hcounts.2 hroom, ?_⟩⟩
    obtain ⟨a, ha, rfl⟩ := Option.map_eq_some_iff.mp hj
    exact Or.inr (Or.inr ⟨hdot, hdots, hsynced hsize, list, a, hlist, ha, rfl⟩)

theorem Kept.unnamed (h : Kept t) (hdir : t.IsDir i) (hroom : t.sInodeCnt < inodeMax)
    (hsearch : s.fsSearchFile passes i entry = some (t, none)) :
    ∀ a ∈ t.dentriesOf i, (t.dentries a).dName ≠ entry := by
  intro a ha heq
  obtain ⟨hempty, rfl, -⟩ | ⟨-, ⟨-, -, hnone⟩ | ⟨-, -, hnone⟩ | ⟨-, -, -, list, hlist, hnone⟩⟩ :=
    fsSearchFile_spec hsearch
  · obtain hnil | hfull := h.emptied i (by simp) hdir hempty
    · rw [hnil] at ha
      exact absurd ha List.not_mem_nil
    · omega
  · cases hnone
  · cases hnone
  · rw [dentriesOf, hlist] at ha
    have hfind := List.find?_eq_none.mp (Option.map_eq_none_iff.mp hnone.symm) a ha
    exact hfind (decide_eq_true heq)

/-- The name is stored as it is, and a search looks for it. -/
def Plain (name : List Byte) : Prop :=
  name.length < nameMax ∧ name ≠ [46#8] ∧ name ≠ dotdot

theorem NewFile.finds (h : NewFile s t i ino addr inode) (hext : Extends s t i) (hdir : s.IsDir i)
    (hsize : (t.inodes i).iSize ≠ 0) (hsync : (t.inodes i).iSync = true) (hplain : Plain entry)
    (hname : (t.dentries addr).dName = entry)
    (hnot : ∀ a ∈ s.dentriesOf i, (s.dentries a).dName ≠ entry) : t.Finds i entry ino := by
  obtain ⟨iData, hcounts⟩ := h.counts
  obtain ⟨dentry, hdentry, hdentries⟩ := h.dentry
  refine ⟨hsize, Or.inr (Or.inr ⟨hplain.2.1, hplain.2.2, hsync, s.dentriesOf i ++ [addr], addr,
    by rw [hcounts], ?_, ?_⟩)⟩
  · have hold : (s.dentriesOf i).find? (fun a => (t.dentries a).dName = entry) = none := by
      refine List.find?_eq_none.mpr fun a ha heq => hnot a ha ?_
      rw [← hext.dentries i hdir.1 a ha]
      exact of_decide_eq_true heq
    rw [List.find?_append, hold, Option.none_or]
    simp [hname]
  · rw [hdentries, Function.update_self, hdentry]

theorem Kept.added (h : Kept s) (hdir : s.IsDir i) (hsync : (s.inodes i).iSync = true)
    (hplain : Plain entry) (hname : fileName.take (nameMax - 1) = entry)
    (hnot : ∀ a ∈ s.dentriesOf i, (s.dentries a).dName ≠ entry)
    (hadd : s.fsAddFile i fileName fileType memory = some (t, some ino)) :
    Kept t ∧ Grows s t ∧ t.Finds i entry ino ∧ t.bitmapInodes ino = true ∧
      (t.inodes ino).iMode = fileType ∧ (t.inodes ino).iSize = 0 ∧
      (t.inodes ino).iSync = true ∧ (t.inodes ino).iRdev = rdevRootfs := by
  obtain ⟨-, addr, iDentry, -, hdName, hnew⟩ := fsAddFile_new hdir.1 hadd
  obtain ⟨-, hkeeps, -⟩ := h.use.fsAddFile hdir.1 hadd
  have hkept : Kept t := h.acts (.single (.add hdir.1 (fun _ => hdir.2) (Or.inl hsync) hadd))
  have hsize := hnew.size_ne_zero h.tabled.slots hdir (Or.inl (Or.inl hsync))
  have hfresh := h.tabled.slots.fresh hdir (Or.inl (Or.inl hsync)) hnew.place
  have hext := hnew.extends hkeeps hfresh.unlisted
  refine ⟨hkept, hext.grows fun _ => hsize, ?_, ?_, ?_⟩
  · exact hnew.finds hext hdir hsize (hkeeps.iSync i hdir.1 hsync) hplain (hdName.trans hname) hnot
  · rw [hnew.bits, Function.update_self]
  · rw [hnew.inode]
    exact ⟨rfl, rfl, rfl, rfl⟩

/-- The names on the way are those of directories, up to the first one that is not found. The
directory that gets this one is loaded, and the names from there on are plain. -/
def Makes : List (List Byte) → Rootfs → Nat → Prop
  | [], _, _ => True
  | entry :: es, s, curr =>
      if entry = [] then Makes es s curr
      else (∀ t i, s.Searches curr entry t (some i) → es ≠ [] →
          (t.inodes i).iMode = sIfdir ∧ Makes es t i) ∧
        ∀ t, s.Searches curr entry t none → (t.inodes curr).iSync = true ∧
          ∀ name ∈ entry :: es, name ≠ [] → Plain name

theorem makes_of_empty (hempty : (s.inodes i).iSize = 0) (hsync : (s.inodes i).iSync = true)
    (hplain : ∀ name ∈ es, name ≠ [] → Plain name) : Makes es s i := by
  induction es with
  | nil => trivial
  | cons entry es ih =>
      rw [Makes]
      split
      · exact ih fun name hname => hplain name (List.mem_cons_of_mem entry hname)
      · have hsearch : ∀ {t r}, s.Searches i entry t r → t = s ∧ r = none := by
          rintro t r ⟨passes, hsearch⟩
          rw [Rootfs.fsSearchFile, if_pos hempty] at hsearch
          obtain ⟨rfl, rfl⟩ := Prod.mk.inj (Option.some.inj hsearch)
          exact ⟨rfl, rfl⟩
        refine ⟨fun t j hfound => ?_, fun t hnone => ?_⟩
        · cases (hsearch hfound).2
        · obtain ⟨rfl, -⟩ := hsearch hnone
          exact ⟨hsync, hplain⟩

/-- The entries lead to a file with this descriptor, and nothing is loaded on the way. -/
def Reaches : List (List Byte) → Rootfs → Nat → Nat → Prop
  | [], _, _, _ => False
  | entry :: es, s, curr, fd =>
      if entry = [] then Reaches es s curr fd
      else ∃ i, s.Finds curr entry i ∧
        if es = [] then (s.inodes i).iMode ≠ sIfdir ∧ (s.inodes i).iRdev = rdevRootfs ∧
          (s.inodes i).iFd = fd
        else (s.inodes i).iMode = sIfdir ∧ Reaches es s i fd

theorem Reaches.openLoop {pathname : List Byte} (h : Reaches es s i fd)
    (hend : pathname.getLast? ≠ some slash) (passes : Nat) (memory : Bool) :
    ∃ searched, (openLoop passes pathname memory).along es s i = some ⟨s, some fd, searched⟩ := by
  induction es generalizing i with
  | nil => exact h.elim
  | cons entry es ih =>
      rw [Reaches] at h
      rw [PathLoop.along]
      by_cases hentry : entry = []
      · rw [if_pos hentry] at h ⊢
        have hes : es ≠ [] := by
          rintro rfl
          exact h
        rw [if_neg hes]
        exact ih h
      · rw [if_neg hentry] at h ⊢
        obtain ⟨j, hfinds, hrest⟩ := h
        by_cases hes : es = []
        · rw [if_pos hes] at hrest
          obtain ⟨hmode, hrdev, rfl⟩ := hrest
          have hopened : s.syncOpened j memory = some s := if_neg fun hnot => hnot.1 hrdev
          refine ⟨[(s.inodes i).iMode], ?_⟩
          simp only [Rootfs.openLoop, hfinds.search, hes, hend, hopened, hmode, decide_true, if_true,
            if_false, Option.bind_eq_bind, Option.bind_some]
        · rw [if_neg hes] at hrest
          obtain ⟨searched, hwalk⟩ := ih hrest.2
          have hvisit : ∀ next, (Rootfs.openLoop passes pathname memory).visit next s i entry
              (decide (es = [])) = next s j := by
            intro next
            simp only [Rootfs.openLoop, hfinds.search, hes, hrest.1, decide_false,
              Bool.false_eq_true, if_false, ne_eq, not_true, Option.bind_eq_bind, Option.bind_some]
          refine ⟨(s.inodes i).iMode :: searched, ?_⟩
          rw [hvisit, hwalk]
          rfl

theorem Reaches.createLoop (h : Reaches es s i fd) (passes fileType : Nat) (memory : Bool) :
    ∃ searched, (createLoop passes fileType memory).along es s i = some ⟨s, none, searched⟩ := by
  induction es generalizing i with
  | nil => exact h.elim
  | cons entry es ih =>
      rw [Reaches] at h
      rw [PathLoop.along]
      by_cases hentry : entry = []
      · rw [if_pos hentry] at h ⊢
        have hes : es ≠ [] := by
          rintro rfl
          exact h
        rw [if_neg hes]
        exact ih h
      · rw [if_neg hentry] at h ⊢
        obtain ⟨j, hfinds, hrest⟩ := h
        by_cases hes : es = []
        · refine ⟨[(s.inodes i).iMode], ?_⟩
          simp only [Rootfs.createLoop, hfinds.search, hes, decide_true, if_true, Option.isSome_some,
            Option.bind_eq_bind, Option.bind_some]
        · rw [if_neg hes] at hrest
          obtain ⟨searched, hwalk⟩ := ih hrest.2
          have hvisit : ∀ next, (Rootfs.createLoop passes fileType memory).visit next s i entry
              (decide (es = [])) = next s j := by
            intro next
            simp only [Rootfs.createLoop, hfinds.search, hes, decide_false, Bool.false_eq_true,
              if_false, Option.bind_eq_bind, Option.bind_some]
          refine ⟨(s.inodes i).iMode :: searched, ?_⟩
          rw [hvisit, hwalk]
          rfl

theorem Kept.createLoop (h : Kept s) (hdir : s.IsDir i) (hmakes : Makes es s i)
    (htype : fileType ≠ sIfdir) (hw : (createLoop passes fileType memory).along es s i = some w)
    (hfd : w.result = some fd) :
    Reaches es w.rootfs i fd ∧ Grows s w.rootfs ∧ s.sInodeCnt < inodeMax := by
  induction es generalizing s i w with
  | nil => cases hw
  | cons entry es ih =>
      rw [PathLoop.along] at hw
      rw [Makes] at hmakes
      rw [Reaches]
      by_cases hentry : entry = []
      · rw [if_pos hentry] at hw hmakes ⊢
        split at hw
        · obtain rfl := Option.some.inj hw
          cases hfd
        · exact ih h hdir hmakes hw hfd
      rw [if_neg hentry] at hw hmakes ⊢
      obtain ⟨w', hvisit, hw'⟩ := Option.bind_eq_some_iff.mp hw
      obtain rfl := Option.some.inj hw'
      obtain ⟨⟨t, r⟩, hsearch, hvisit⟩ := Option.bind_eq_some_iff.mp hvisit
      obtain ⟨ht, hdir', hcnt, hgrows⟩ := h.search hdir hsearch
      dsimp only at hvisit hfd ⊢
      by_cases hes : es = []
      · simp only [hes, decide_true, if_true] at hvisit ⊢
        split at hvisit
        · obtain rfl := Option.some.inj hvisit
          cases hfd
        next hnone =>
        obtain rfl := Option.not_isSome_iff_eq_none.mp hnone
        obtain ⟨⟨u, ino⟩, hadd, hw'⟩ := Option.bind_eq_some_iff.mp hvisit
        obtain rfl := Option.some.inj hw'
        obtain ⟨ino, rfl, rfl⟩ := Option.map_eq_some_iff.mp hfd
        obtain ⟨hsync, hplain⟩ := hmakes.2 t ⟨passes, hsearch⟩
        have hname := hplain entry List.mem_cons_self hentry
        have htake : entry.take (nameMax - 1) = entry :=
          List.take_of_length_le (Nat.le_pred_of_lt hname.1)
        rw [htake] at hadd
        have hroom := (fsAddFile_new hdir'.1 hadd).1
        have hroom' := Nat.lt_of_le_of_lt hcnt hroom
        obtain ⟨-, hgrows', hfinds, -, hmode, -, -, hrdev⟩ :=
          ht.added hdir' hsync hname htake (ht.unnamed hdir' hroom hsearch) hadd
        exact ⟨⟨ino, hfinds, hmode ▸ htype, hrdev, rfl⟩, (hgrows hroom').1.trans hgrows', hroom'⟩
      · simp only [hes, decide_false, Bool.false_eq_true, if_false] at hvisit ⊢
        cases r with
        | some j =>
            obtain ⟨hmode, hrest⟩ := hmakes.1 t j ⟨passes, hsearch⟩ hes
            obtain ⟨-, hbit, -⟩ :=
              h.use.fsSearchFile hdir.1 (fun _ : True => hdir.2) hsearch
            have hj : t.IsDir j := ⟨hbit j rfl, hmode⟩
            obtain ⟨hreaches, hlast, hroom⟩ := ih ht hj hrest hvisit hfd
            have hroom' := Nat.lt_of_le_of_lt hcnt hroom
            obtain ⟨hgrows', hfinds⟩ := hgrows hroom'
            exact ⟨⟨j, (hfinds j rfl).grows hdir' hlast, (hlast.keeps.isDir hj).2, hreaches⟩,
              hgrows'.trans hlast, hroom'⟩
        | none =>
            obtain ⟨⟨u, r⟩, hadd, hnext⟩ := Option.bind_eq_some_iff.mp hvisit
            cases r with
            | none =>
                obtain rfl := Option.some.inj hnext
                cases hfd
            | some j =>
                obtain ⟨hsync, hplain⟩ := hmakes.2 t ⟨passes, hsearch⟩
                have hname := hplain entry List.mem_cons_self hentry
                have htake : entry.take (nameMax - 1) = entry :=
                  List.take_of_length_le (Nat.le_pred_of_lt hname.1)
                have hroom := (fsAddFile_new hdir'.1 hadd).1
                have hroom' := Nat.lt_of_le_of_lt hcnt hroom
                obtain ⟨hu, hgrows', hfinds, hbit, hmode, hsize, hsync', -⟩ :=
                  ht.added hdir' hsync hname htake (ht.unnamed hdir' hroom hsearch) hadd
                have hrest := makes_of_empty hsize hsync' fun name hmem =>
                  hplain name (List.mem_cons_of_mem entry hmem)
                have hstep := (hgrows hroom').1.trans hgrows'
                obtain ⟨hreaches, hlast, -⟩ := ih hu ⟨hbit, hmode⟩ hrest hnext hfd
                exact ⟨⟨j, hfinds.grows (hgrows'.keeps.isDir hdir') hlast,
                  (hlast.keeps.isDir ⟨hbit, hmode⟩).2, hreaches⟩, hstep.trans hlast, hroom'⟩

theorem rootfsInit_kept (sInoAddr sBlkAddr : Nat) : Kept (rootfsInit sInoAddr sBlkAddr) where
  tabled := rootfsInit_tabled sInoAddr sBlkAddr
  emptied d _ _ _ := by
    left
    rw [dentriesOf, rootfsInit]
    dsimp only
    split <;> rfl

theorem Kept.calls {calls : List RootfsCall} (h : Kept s)
    (hok : Runs.AllOk ThroughDirs call s calls) (hrun : Runs.exec call s calls = some t) : Kept t :=
  Runs.exec_invariant (fun _ _ _ hu hdirs hcall => hu.acts (hu.use.call_acts (fun _ => hdirs) hcall))
    h hok hrun

/-- The path can be followed again after it was used to create a file. -/
def MakesFindable (s : Rootfs) (pathname : List Byte) : Prop :=
  pathname.getLast? ≠ some slash ∧ Makes (entries pathname.tail) s 0

/-- The path opens this file and does not create another one; nothing is changed by it. -/
def Found (s : Rootfs) (pathname : List Byte) (fd : Nat) : Prop :=
  ∀ passes memory,
    (∃ searched, s.fsOpenFile passes pathname memory = some ⟨s, some fd, searched⟩) ∧
      ∀ fileType, ∃ searched, s.fsCreateFile passes pathname fileType memory = some ⟨s, none, searched⟩

/-- After files were only created through directories, a file that is created is found under its
path, unless the path ends in a slash, a name on it cannot be stored or means a directory, or the
directory of a new name is still to be loaded. -/
theorem created_found {sInoAddr sBlkAddr : Nat} {calls : List RootfsCall} {pathname : List Byte}
    (hok : Runs.AllOk ThroughDirs call (rootfsInit sInoAddr sBlkAddr) calls)
    (hrun : Runs.exec call (rootfsInit sInoAddr sBlkAddr) calls = some s)
    (htype : fileType ≠ sIfdir) (hfindable : MakesFindable s pathname)
    (hcreate : s.fsCreateFile passes pathname fileType memory = some w) (hfd : w.result = some fd) :
    Found w.rootfs pathname fd := by
  have h := (rootfsInit_kept sInoAddr sBlkAddr).calls hok hrun
  have hslash : pathname.head? = some slash := by
    by_contra hslash
    rw [fsCreateFile, if_pos hslash] at hcreate
    obtain rfl := Option.some.inj hcreate
    cases hfd
  rw [fsCreateFile_eq hslash] at hcreate
  have hreaches := (h.createLoop h.use.root hfindable.2 htype hcreate hfd).1
  intro passes' memory'
  rw [fsOpenFile_eq hslash]
  refine ⟨hreaches.openLoop hfindable.1 passes' memory', fun fileType' => ?_⟩
  rw [fsCreateFile_eq hslash]
  exact hreaches.createLoop passes' fileType' memory'

def directoryCalls : List RootfsCall :=
  [.createFile 0 [slash, 100#8, slash, 101#8] sIfreg true]

/-- A second file in the directory is found after it was created. -/
theorem directoryCalls_found : ∃ s w fd,
    Runs.exec call (rootfsInit 0x20010000 0x20020000) directoryCalls = some s ∧
      s.fsCreateFile 0 [slash, 100#8, slash, 102#8] sIfifo true = some w ∧ w.result = some fd ∧
      Found w.rootfs [slash, 100#8, slash, 102#8] fd := by
  have hread : (Runs.exec call (rootfsInit 0x20010000 0x20020000) directoryCalls).any (fun s =>
      (s.fsCreateFile 0 [slash, 100#8, slash, 102#8] sIfifo true).any (fun w => w.result.isSome) ∧
      (s.fsSearchFile 0 0 [100#8]).any (fun found => found.2 = some 1 ∧
        (found.1.inodes 1).iMode = sIfdir ∧ (found.1.inodes 1).iSync = true ∧
        (found.1.fsSearchFile 0 1 [102#8]).any (fun found' => found'.2 = none ∧
          (found'.1.inodes 1).iSync = true))) = true := by decide +kernel
  obtain ⟨s, hrun, hs⟩ := (Option.any_eq_true ..).mp hread
  obtain ⟨hcreated, hfound⟩ := of_decide_eq_true hs
  obtain ⟨w, hcreate, hresult⟩ := (Option.any_eq_true ..).mp hcreated
  obtain ⟨fd, hfd⟩ := Option.isSome_iff_exists.mp hresult
  obtain ⟨⟨t, r⟩, hsearch, hfacts⟩ := (Option.any_eq_true ..).mp hfound
  obtain ⟨rfl, hmode, -, hnext⟩ := of_decide_eq_true hfacts
  obtain ⟨⟨u, r'⟩, hsearch', hfacts'⟩ := (Option.any_eq_true ..).mp hnext
  obtain ⟨rfl, hsync⟩ := of_decide_eq_true hfacts'
  have hok : Runs.AllOk ThroughDirs call (rootfsInit 0x20010000 0x20020000) directoryCalls :=
    ⟨fun hmeets => not_meets_of_empty rfl hmeets.2, fun _ _ => trivial⟩
  have hmakes : Makes (entries [100#8, slash, 102#8]) s 0 := by
    refine ⟨fun t' i hfound _ => ?_, fun t' hnone => ?_⟩
    · obtain ⟨rfl, hi⟩ := Searches.unique hfound ⟨0, hsearch⟩
      obtain rfl := Option.some.inj hi
      refine ⟨hmode, fun _ _ _ hes => absurd rfl hes, fun u' hnone => ?_⟩
      obtain ⟨rfl, -⟩ := Searches.unique hnone ⟨0, hsearch'⟩
      refine ⟨hsync, fun name hname _ => ?_⟩
      obtain rfl := List.mem_singleton.mp hname
      exact ⟨by decide, by decide, by decide⟩
    · cases (Searches.unique hnone ⟨0, hsearch⟩).2
  exact ⟨s, w, fd, hrun, hcreate, hfd, created_found hok hrun (by decide) ⟨by decide, hmakes⟩ hcreate hfd⟩

/-- A name that is as long as the field of the dentry is cut when it is stored. It is not found
then, and is created again. -/
theorem longName_not_found : ∃ w fd,
    (rootfsInit 0x20010000 0x20020000).fsCreateFile 0 (slash :: List.replicate nameMax 97#8) sIfreg
        true = some w ∧ w.result = some fd ∧
      (w.rootfs.fsOpenFile 0 (slash :: List.replicate nameMax 97#8) true).any
        (fun o => o.result = none) ∧
      (w.rootfs.fsCreateFile 0 (slash :: List.replicate nameMax 97#8) sIfreg true).any
        (fun o => o.result = some (fd + 1)) ∧
      ¬ Found w.rootfs (slash :: List.replicate nameMax 97#8) fd := by
  have hread : ((rootfsInit 0x20010000 0x20020000).fsCreateFile 0
      (slash :: List.replicate nameMax 97#8) sIfreg true).any (fun w => w.result.any fun fd =>
        (w.rootfs.fsOpenFile 0 (slash :: List.replicate nameMax 97#8) true).any
          (fun o => o.result = none) ∧
        (w.rootfs.fsCreateFile 0 (slash :: List.replicate nameMax 97#8) sIfreg true).any
          (fun o => o.result = some (fd + 1))) = true := by decide +kernel
  obtain ⟨w, hcreate, hresult⟩ := (Option.any_eq_true ..).mp hread
  obtain ⟨fd, hfd, hfacts⟩ := (Option.any_eq_true ..).mp hresult
  obtain ⟨hopen, hagain⟩ := of_decide_eq_true hfacts
  refine ⟨w, fd, hcreate, hfd, hopen, hagain, fun hfound => ?_⟩
  obtain ⟨searched, hsame⟩ := (hfound 0 true).1
  rw [hsame] at hopen
  cases hopen

end Rootfs

end Tenok
