import Tenok.Fs.CreateOpen
import Tenok.Fs.ReadDir

/-!
Files that were created stay where they are. A path of names that are stored as they are goes on to
lead to its file, with the same descriptor, whatever is created, opened and mounted later.
-/
namespace Tenok

namespace Rootfs
variable {s t u : Rootfs} {d dir i j ino addr fd fileType passes : Nat} {inode : Inode}
  {r : Option Nat} {mounting : Option Nat} {entry fileName : List Byte} {memory : Bool}
  {es : List (List Byte)}

/-- What is not from a storage keeps its descriptor, and a directory that is loaded and does not seem
to be empty never does so. -/
structure KeepsFound (s t : Rootfs) : Prop where
  iFd : ∀ i, s.bitmapInodes i = true → (s.inodes i).iRdev = rdevRootfs →
    (t.inodes i).iFd = (s.inodes i).iFd
  iSize : ∀ i, s.bitmapInodes i = true → (s.inodes i).iSync = true → (s.inodes i).iSize ≠ 0 →
    (t.inodes i).iSize ≠ 0

theorem KeepsFound.refl (s : Rootfs) : KeepsFound s s := ⟨fun _ _ _ => rfl, fun _ _ _ h => h⟩

theorem KeepsFound.trans (h : KeepsFound s t) (hkeeps : Keeps s t) (h' : KeepsFound t u) :
    KeepsFound s u where
  iFd i hi hrdev :=
    (h'.iFd i (hkeeps.bits i hi) ((hkeeps.iRdev i hi).trans hrdev)).trans (h.iFd i hi hrdev)
  iSize i hi hsync hsize :=
    h'.iSize i (hkeeps.bits i hi) (hkeeps.iSync i hi hsync) (h.iSize i hi hsync hsize)

theorem KeepsFound.update (hinodes : t.inodes = Function.update s.inodes i inode)
    (hfd : s.bitmapInodes i = true → (s.inodes i).iRdev = rdevRootfs →
      inode.iFd = (s.inodes i).iFd)
    (hsize : s.bitmapInodes i = true → (s.inodes i).iSync = true →
      inode.iSize = (s.inodes i).iSize) : KeepsFound s t := by
  refine ⟨fun j hj hrdev => ?_, fun j hj hsync hne => ?_⟩
  · obtain ⟨hj', rfl⟩ | hj' := inodes_update hinodes j
    · rw [hj']
      exact hfd hj hrdev
    · rw [hj']
  · obtain ⟨hj', rfl⟩ | hj' := inodes_update hinodes j
    · rwa [hj', hsize hj hsync]
    · rwa [hj']

theorem NewFile.keepsFound (h : NewFile s t dir ino addr inode) (hslots : Slots s mounting)
    (hdir : s.IsDir dir) (hready : ((s.inodes dir).iSync = true ∨ mounting = some dir) ∨
      (s.inodes dir).iSize = 0) : KeepsFound s t where
  iFd j hj _ := by
    obtain ⟨-, -, -, -, -, hfd⟩ := h.old hj
    exact hfd
  iSize j hj _ hsize := by
    by_cases hjdir : j = dir
    · rw [hjdir]
      exact h.size_ne_zero hslots hdir hready
    · rwa [h.others j (h.old hj).1 hjdir]

theorem Takes.keepsFound (h : Takes s t dir ino addr inode) : KeepsFound s t :=
  KeepsFound.update h.inodes
    (fun hi => by
      rw [h.free] at hi
      cases hi)
    (fun hi => by
      rw [h.free] at hi
      cases hi)

theorem Mounting.fsMountFile_keepsFound {rdev : Nat} {mnt : StoredInode} {name : List Byte}
    (h : Mounting s t dir mounting) (hfile : t.fsMountFile dir rdev mnt name = some u) :
    Keeps t u ∧ KeepsFound t u := by
  obtain ⟨-, hkeeps⟩ := h.tabled.registry.use.fsMountFile h.isDir.1 hfile
  obtain ⟨-, rfl⟩ | ⟨ino, addr, v, htakes, -, -, hlists⟩ := fsMountFile_spec h.isDir.1 hfile
  · exact ⟨hkeeps, .refl u⟩
  · exact ⟨hkeeps, (htakes.newFile h.isDir.1 hlists).keepsFound h.tabled.slots h.isDir
      (Or.inl h.ready)⟩

theorem Tabled.mountDirectory_keepsFound {rdev : Nat} {src : StoredInode} (h : Tabled s none)
    (hdir : s.IsDir dir) (hrdev : rdev ≠ rdevRootfs)
    (hmount : s.fsMountDirectory passes rdev src dir = some t) : KeepsFound s t := by
  obtain ⟨-, rfl⟩ | ⟨-, u, ⟨-, -, hkeeps, hu⟩, rfl⟩ := fsMountDirectory_invariant
    (P := fun t => ∃ mounting, Mounting s t dir mounting ∧ Keeps s t ∧ KeepsFound s t)
    (fun ⟨mounting, hmounting, hkeeps, hfound⟩ hfile =>
      have hnext := hmounting.fsMountFile_keepsFound hfile
      ⟨mounting, hmounting.fsMountFile hrdev hfile, hkeeps.trans hnext.1,
        hfound.trans hkeeps hnext.2⟩)
    (fun hnot => ⟨some dir, h.emptied hdir, Keeps.update rfl rfl rfl rfl rfl id,
      KeepsFound.update rfl (fun _ _ => rfl) fun _ hsync => by simp [hnot] at hsync⟩)
    (fun hsync => ⟨none, ⟨h, .refl s, hdir, Or.inl hsync, by simp⟩, .refl s, .refl s⟩) hmount
  · exact .refl t
  · exact hu.trans hkeeps (KeepsFound.update rfl (fun _ _ => rfl) fun _ _ => rfl)

theorem Tabled.act_keepsFound (h : Tabled s none) (hact : Act True s t) : KeepsFound s t := by
  cases hact with
  | load hdir hmode hsync hload =>
      have hd := And.intro hdir (hmode trivial)
      exact h.mountDirectory_keepsFound hd (h.registry.unloaded _ hd hsync) hload
  | add hdir hmode hready hadd =>
      obtain ⟨rfl, -⟩ | ⟨ino, addr, u, -, htakes, -, -, hfile⟩ := fsAddFile_spec hdir hadd
      · exact .refl t
      obtain ⟨rfl, -⟩ | ⟨v, hinst, -, hlists⟩ := hfile
      · exact htakes.keepsFound
      · obtain ⟨iDentry, -, hmade⟩ := htakes.instantiated hinst
        exact (hmade.counted.newFile hdir hlists).keepsFound h.slots ⟨hdir, hmode trivial⟩
          (hready.imp_left Or.inl)
  | sync hino hsync =>
      obtain ⟨rfl, -⟩ | ⟨hrdev, -, -, -, rfl⟩ := fsSyncFile_cases hsync
      · exact .refl t
      · exact KeepsFound.update rfl (fun _ heq => absurd heq hrdev) fun _ _ => rfl
  | @mount t _ _ storage _ hdir _ hmount =>
      obtain ⟨h₀, -⟩ := h.same
        (t := { s with storages := Function.update s.storages s.mountCnt storage })
        rfl rfl rfl rfl rfl rfl rfl (Nat.le_refl _)
      obtain ⟨hfd, hsize⟩ :=
        h₀.mountDirectory_keepsFound hdir (Nat.ne_of_gt h.registry.mounts) hmount
      exact ⟨hfd, hsize⟩
  | append hfile happ =>
      obtain ⟨rfl, -⟩ | ⟨k, -, -, -, rfl⟩ := fsFileAppendBlock_cases happ
      · exact .refl t
      · exact KeepsFound.update rfl (fun _ _ => by simp [linkedInode])
          fun _ _ => by simp [linkedInode]

theorem Tabled.acts_keepsFound (h : Tabled s none) (hacts : Relation.ReflTransGen (Act True) s t) :
    KeepsFound s t := by
  induction hacts with
  | refl => exact .refl s
  | tail hacts hact ih =>
      exact ih.trans (h.acts_lengthens hacts).1.keeps ((h.acts hacts).1.act_keepsFound hact)

theorem Finds.stays (h : Finds s i entry j) (hplain : Plain entry) (hi : s.bitmapInodes i = true)
    (hlong : Lengthens s t) (hfound : KeepsFound s t) : Finds t i entry j := by
  obtain ⟨hsize, ⟨hself, -⟩ | ⟨hparent, -⟩ | ⟨hdot, hdots, hsync, list, a, hlist, hfind, rfl⟩⟩ := h
  · exact absurd hself hplain.2.1
  · exact absurd hparent hplain.2.2
  have hmine : s.dentriesOf i = list := by rw [dentriesOf, hlist, Option.getD_some]
  have hprefix := hlong.list i hi
  have hsame := hlong.dentries i hi
  rw [hmine] at hprefix hsame
  obtain ⟨l, hl⟩ := hprefix
  have hmem : a ∈ t.dentriesOf i :=
    hl ▸ List.mem_append_left l (List.mem_of_find?_eq_some hfind)
  obtain ⟨list', hlist', -⟩ := iDentry_of_mem hmem
  have hlist'' : list ++ l = list' := by rw [hl, dentriesOf, hlist', Option.getD_some]
  subst hlist''
  have hfind' : list.find? (fun b => (t.dentries b).dName = entry) = some a := by
    rw [← hfind]
    exact List.find?_congr fun b hb => by rw [hsame b hb]
  refine ⟨hfound.iSize i hi hsync hsize, Or.inr (Or.inr ⟨hdot, hdots,
    hlong.keeps.iSync i hi hsync, list ++ l, a, hlist', ?_, ?_⟩)⟩
  · rw [List.find?_append, hfind', Option.some_or]
  · rw [hsame a (List.mem_of_find?_eq_some hfind)]

theorem Finds.inUse (h : Finds s i entry j) (huse : InUse s) (hi : s.bitmapInodes i = true) :
    s.bitmapInodes j = true := by
  obtain ⟨-, ⟨-, rfl⟩ | ⟨-, rfl⟩ | ⟨-, -, -, list, a, hlist, hfind, rfl⟩⟩ := h
  · exact hi
  · exact huse.parent i hi
  · refine huse.listed i a ?_
    rw [dentriesOf, hlist, Option.getD_some]
    exact List.mem_of_find?_eq_some hfind

theorem Reaches.stays (h : Reaches es s i fd) (hplain : ∀ name ∈ es, name ≠ [] → Plain name)
    (huse : InUse s) (hi : s.bitmapInodes i = true) (hlong : Lengthens s t)
    (hfound : KeepsFound s t) : Reaches es t i fd := by
  induction es generalizing i with
  | nil => exact h.elim
  | cons entry es ih =>
      rw [Reaches] at h ⊢
      by_cases hentry : entry = []
      · rw [if_pos hentry] at h ⊢
        exact ih h (fun name hname => hplain name (List.mem_cons_of_mem entry hname)) hi
      · rw [if_neg hentry] at h ⊢
        obtain ⟨j, hfinds, hrest⟩ := h
        have hj := hfinds.inUse huse hi
        refine ⟨j, hfinds.stays (hplain entry List.mem_cons_self hentry) hi hlong hfound, ?_⟩
        have hmode := hlong.keeps.iMode j hj
        by_cases hes : es = []
        · rw [if_pos hes] at hrest ⊢
          obtain ⟨hfile, hrdev, hfd⟩ := hrest
          exact ⟨hmode ▸ hfile, (hlong.keeps.iRdev j hj).trans hrdev,
            (hfound.iFd j hj hrdev).trans hfd⟩
        · rw [if_neg hes] at hrest ⊢
          exact ⟨hmode.trans hrest.1,
            ih hrest.2 (fun name hname => hplain name (List.mem_cons_of_mem entry hname)) hj⟩

theorem Kept.created {pathname : List Byte} {w : Walk} (h : Kept s) (htype : fileType ≠ sIfdir)
    (hfindable : MakesFindable s pathname)
    (hcreate : s.fsCreateFile passes pathname fileType memory = some w) (hfd : w.result = some fd) :
    pathname.head? = some slash ∧ Reaches (entries pathname.tail) w.rootfs 0 fd := by
  have hslash : pathname.head? = some slash := by
    by_contra hslash
    rw [fsCreateFile, if_pos hslash] at hcreate
    obtain rfl := Option.some.inj hcreate
    cases hfd
  rw [fsCreateFile_eq hslash] at hcreate
  exact ⟨hslash, (h.createLoop h.use.root hfindable.2 htype hcreate hfd).1⟩

theorem Reaches.found {pathname : List Byte} (h : Reaches (entries pathname.tail) s 0 fd)
    (hslash : pathname.head? = some slash) (hend : pathname.getLast? ≠ some slash) :
    Found s pathname fd := by
  intro passes memory
  rw [fsOpenFile_eq hslash]
  refine ⟨h.openLoop hend passes memory, fun fileType => ?_⟩
  rw [fsCreateFile_eq hslash]
  exact h.createLoop passes fileType memory

end Rootfs

end Tenok
