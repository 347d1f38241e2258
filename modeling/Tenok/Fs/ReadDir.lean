import Tenok.Fs.DirectoryLoads

/-!
Reading directories (`opendir` and `readdir`). A stream is a place in the list of its directory,
and between two reads the file-system daemon may serve any requests of any threads.
-/
namespace Tenok

/-- A cursor in a list that grows at its end: so many elements are behind it, and when it is at the
end these are at least those that were there at the beginning. -/
structure CursorAt {α : Type} (list : List α) (least done : Nat) (cursor : Option α) : Prop where
  done_le : done ≤ list.length
  least_le : least ≤ list.length
  next : ∀ a ∈ cursor, list[done]? = some a
  ending : cursor = none → least ≤ done

namespace CursorAt
variable {α : Type} {list list' : List α} {least done : Nat} {cursor : Option α} {a : α}

theorem first (list : List α) : CursorAt list list.length 0 list.head? where
  done_le := Nat.zero_le _
  least_le := Nat.le_refl _
  next a ha := List.head?_eq_getElem?.symm.trans ha
  ending hnone := by
    rw [List.head?_eq_none_iff.mp hnone]
    exact Nat.le_refl 0

theorem grow (h : CursorAt list least done cursor) (hgrow : list <+: list') :
    CursorAt list' least done cursor := by
  obtain ⟨l, rfl⟩ := hgrow
  have hlen : list.length ≤ (list ++ l).length := (List.prefix_append list l).length_le
  refine ⟨h.done_le.trans hlen, h.least_le.trans hlen, fun a ha => ?_, h.ending⟩
  obtain ⟨hlt, -⟩ := List.getElem?_eq_some_iff.mp (h.next a ha)
  rw [List.getElem?_append_left hlt]
  exact h.next a ha

theorem move [DecidableEq α] (h : CursorAt list least done (some a)) (hnodup : list.Nodup) :
    CursorAt list least (done + 1) list[list.idxOf a + 1]? := by
  obtain ⟨hlt, rfl⟩ := List.getElem?_eq_some_iff.mp (h.next a rfl)
  rw [hnodup.idxOf_getElem]
  refine ⟨hlt, h.least_le, fun _ hb => hb, fun hnone => ?_⟩
  exact h.least_le.trans (List.getElem?_eq_none_iff.mp hnone)

end CursorAt

namespace Rootfs
variable {s t u : Rootfs} {d dir i ino addr fd fileType passes : Nat} {inode : Inode}
  {r : Option Nat} {fileName : List Byte} {memory : Bool}

def Unrepeated (s : Rootfs) : Prop := ∀ d, (s.dentriesOf d).Nodup

/-- Directories are extended at the end only, and their dentries stay as they are. -/
structure Lengthens (s t : Rootfs) : Prop where
  keeps : Keeps s t
  list : ∀ d, s.bitmapInodes d = true → s.dentriesOf d <+: t.dentriesOf d
  dentries : ∀ d, s.bitmapInodes d = true → ∀ a ∈ s.dentriesOf d, t.dentries a = s.dentries a

theorem Lengthens.refl (s : Rootfs) : Lengthens s s :=
  ⟨.refl s, fun _ _ => List.prefix_rfl, fun _ _ _ _ => rfl⟩

theorem Lengthens.trans (h : Lengthens s t) (h' : Lengthens t u) : Lengthens s u where
  keeps := h.keeps.trans h'.keeps
  list d hd := (h.list d hd).trans (h'.list d (h.keeps.bits d hd))
  dentries d hd a ha := (h'.dentries d (h.keeps.bits d hd) a ((h.list d hd).subset ha)).trans
    (h.dentries d hd a ha)

theorem Extends.lengthens (h : Extends s t dir) : Lengthens s t where
  keeps := h.keeps
  list d hd := by
    by_cases hdir : d = dir
    · subst hdir
      cases hlist : (s.inodes d).iDentry with
      | none =>
          rw [dentriesOf, hlist]
          exact List.nil_prefix
      | some list =>
          obtain ⟨l, hl⟩ := h.list list hlist
          rw [dentriesOf, dentriesOf, hlist, hl]
          exact List.prefix_append list l
    · rw [dentriesOf, dentriesOf, h.others d hd hdir]
  dentries := h.dentries

theorem Lengthens.same (hkeeps : Keeps s t) (hlists : ∀ d, t.dentriesOf d = s.dentriesOf d)
    (hdentries : t.dentries = s.dentries) : Lengthens s t ∧ (Unrepeated s → Unrepeated t) :=
  ⟨⟨hkeeps, fun d _ => (hlists d).symm ▸ List.prefix_rfl, fun _ _ _ _ => by rw [hdentries]⟩,
    fun h d => (hlists d).symm ▸ h d⟩

theorem dentriesOf_update (hinodes : t.inodes = Function.update s.inodes i inode)
    (hlist : inode.iDentry.getD [] = s.dentriesOf i) (d : Nat) :
    t.dentriesOf d = s.dentriesOf d := by
  by_cases hd : d = i
  · rw [dentriesOf, hinodes, hd, Function.update_self, hlist]
  · rw [dentriesOf, hinodes, Function.update_of_ne hd, dentriesOf]

theorem Lengthens.setInode {f : Inode → Inode} (hkeeps : Keeps s (s.setInode i f))
    (hlist : (f (s.inodes i)).iDentry = (s.inodes i).iDentry) :
    Lengthens s (s.setInode i f) ∧ (Unrepeated s → Unrepeated (s.setInode i f)) :=
  Lengthens.same hkeeps (dentriesOf_update rfl (congrArg (Option.getD · []) hlist)) rfl

theorem NewFile.unrepeated (h : NewFile s t dir ino addr inode) (hlist : inode.iDentry.getD [] = [])
    (hfresh : Unlisted s addr) (hs : Unrepeated s) : Unrepeated t := by
  intro d
  by_cases hdir : d = dir
  · rw [hdir, h.dentriesOf_dir]
    exact List.Nodup.append (hs dir) (List.nodup_singleton addr)
      (List.disjoint_singleton.mpr (hfresh dir))
  · by_cases hino : d = ino
    · rw [dentriesOf, hino, h.inode, hlist]
      exact List.nodup_nil
    · rw [dentriesOf, h.others d hino hdir]
      exact hs d

theorem Takes.lengthens (h : Takes s t dir ino addr inode) (hreg : Registry s)
    (hlist : inode.iDentry.getD [] = []) (hfresh : Unlisted s addr) :
    Lengthens s t ∧ (Unrepeated s → Unrepeated t) := by
  have hunused : inode.iDentry.getD [] = s.dentriesOf ino := by
    rw [hlist, dentriesOf, hreg.unused ino h.free]
    rfl
  have hlists := dentriesOf_update h.inodes hunused
  obtain ⟨dentry, -, hdentries⟩ := h.dentry
  refine ⟨⟨h.keeps, fun d _ => (hlists d).symm ▸ List.prefix_rfl, fun d _ a ha => ?_⟩,
    fun hs d => (hlists d).symm ▸ hs d⟩
  rw [hdentries, Function.update_of_ne]
  rintro rfl
  exact hfresh d ha

theorem Mounting.fsMountFile_lengthens {mounting : Option Nat} {rdev : Nat} {mnt : StoredInode}
    {name : List Byte} (h : Mounting s t dir mounting)
    (hfile : t.fsMountFile dir rdev mnt name = some u) :
    Lengthens t u ∧ (Unrepeated t → Unrepeated u) := by
  obtain ⟨-, hkeeps⟩ := h.tabled.registry.use.fsMountFile h.isDir.1 hfile
  obtain ⟨-, rfl⟩ | ⟨ino, addr, v, htakes, -, -, hlists⟩ := fsMountFile_spec h.isDir.1 hfile
  · exact ⟨.refl u, id⟩
  · have hnew := htakes.newFile h.isDir.1 hlists
    have hfresh := h.tabled.slots.fresh h.isDir (Or.inl h.ready) hnew.place
    exact ⟨(hnew.extends hkeeps hfresh.unlisted).lengthens, hnew.unrepeated rfl hfresh.unlisted⟩

theorem Tabled.mountDirectory_lengthens {rdev : Nat} {src : StoredInode} (h : Tabled s none)
    (hdir : s.IsDir dir) (hrdev : rdev ≠ rdevRootfs)
    (hmount : s.fsMountDirectory passes rdev src dir = some t) :
    Lengthens s t ∧ (Unrepeated s → Unrepeated t) := by
  have hstart : Lengthens s (s.setInode dir fun n => { n with iSize := 0, iBlocks := 0 }) ∧ _ :=
    Lengthens.setInode (Keeps.update rfl rfl rfl rfl rfl id) rfl
  obtain ⟨-, rfl⟩ | ⟨-, u, ⟨-, -, hu, hrepeat⟩, rfl⟩ := fsMountDirectory_invariant
    (P := fun t => ∃ mounting, Mounting s t dir mounting ∧ Lengthens s t ∧
      (Unrepeated s → Unrepeated t))
    (fun ⟨mounting, hmounting, hlong, hrepeat⟩ hfile =>
      have hnext := hmounting.fsMountFile_lengthens hfile
      ⟨mounting, hmounting.fsMountFile hrdev hfile, hlong.trans hnext.1, hnext.2 ∘ hrepeat⟩)
    (fun _ => ⟨some dir, h.emptied hdir, hstart⟩)
    (fun hsync => ⟨none, ⟨h, .refl s, hdir, Or.inl hsync, by simp⟩, .refl s, id⟩) hmount
  · exact ⟨.refl t, id⟩
  · have hlast : Lengthens u (u.setInode dir fun n => { n with iSync := true }) ∧ _ :=
      Lengthens.setInode (Keeps.update rfl rfl rfl rfl rfl fun _ => rfl) rfl
    exact ⟨hu.trans hlast.1, hlast.2 ∘ hrepeat⟩

theorem Tabled.fsAddFile_lengthens (h : Tabled s none) (hdir : s.IsDir dir)
    (hready : (s.inodes dir).iSync = true ∨ (s.inodes dir).iSize = 0)
    (hadd : s.fsAddFile dir fileName fileType memory = some (t, r)) :
    Lengthens s t ∧ (Unrepeated s → Unrepeated t) := by
  obtain ⟨-, hkeeps, -⟩ := h.registry.use.fsAddFile hdir.1 hadd
  obtain ⟨rfl, -⟩ | ⟨ino, addr, u, -, htakes, -, -, hfile⟩ := fsAddFile_spec hdir.1 hadd
  · exact ⟨.refl t, id⟩
  have hready' := hready.imp_left (Or.inl (b := none = some dir))
  have hempty := h.registry.unused ino htakes.free
  obtain ⟨rfl, -⟩ | ⟨v, hinst, -, hlists⟩ := hfile
  · have hfresh := h.slots.fresh hdir hready' htakes.place
    refine htakes.lengthens h.registry ?_ hfresh.unlisted
    rw [hempty]
    rfl
  · obtain ⟨iDentry, hlist, hmade⟩ := htakes.instantiated hinst
    have hnew := hmade.counted.newFile hdir.1 hlists
    have hfresh := h.slots.fresh hdir hready' hnew.place
    refine ⟨(hnew.extends hkeeps hfresh.unlisted).lengthens,
      hnew.unrepeated ?_ hfresh.unlisted⟩
    obtain rfl | rfl := hlist
    · rfl
    · rw [hempty]
      rfl

theorem Tabled.act_lengthens (h : Tabled s none) (hact : Act True s t) :
    Lengthens s t ∧ (Unrepeated s → Unrepeated t) := by
  have hkeeps := (h.registry.use.act hact).2
  cases hact with
  | load hdir hmode hsync hload =>
      have hd := And.intro hdir (hmode trivial)
      exact h.mountDirectory_lengthens hd (h.registry.unloaded _ hd hsync) hload
  | add hdir hmode hready hadd => exact h.fsAddFile_lengthens ⟨hdir, hmode trivial⟩ hready hadd
  | sync hino hsync =>
      obtain ⟨rfl, -⟩ | ⟨-, -, -, -, rfl⟩ := fsSyncFile_cases hsync
      · exact ⟨.refl t, id⟩
      · exact Lengthens.same hkeeps (dentriesOf_update rfl rfl) rfl
  | @mount t _ _ storage _ hdir _ hmount =>
      obtain ⟨h₀, -⟩ := h.same
        (t := { s with storages := Function.update s.storages s.mountCnt storage })
        rfl rfl rfl rfl rfl rfl rfl (Nat.le_refl _)
      obtain ⟨hlong, hrepeat⟩ :=
        h₀.mountDirectory_lengthens hdir (Nat.ne_of_gt h.registry.mounts) hmount
      exact ⟨⟨hkeeps, hlong.list, hlong.dentries⟩, hrepeat⟩
  | append hfile happ =>
      obtain ⟨rfl, -⟩ | ⟨k, -, -, -, rfl⟩ := fsFileAppendBlock_cases happ
      · exact ⟨.refl t, id⟩
      · exact Lengthens.same hkeeps (dentriesOf_update rfl rfl) rfl

theorem Tabled.acts_lengthens (h : Tabled s none) (hacts : Relation.ReflTransGen (Act True) s t) :
    Lengthens s t ∧ (Unrepeated s → Unrepeated t) := by
  induction hacts with
  | refl => exact ⟨.refl s, id⟩
  | tail hacts hact ih =>
      obtain ⟨hlong, hrepeat⟩ := (h.acts hacts).1.act_lengthens hact
      exact ⟨ih.1.trans hlong, fun hs => hrepeat (ih.2 hs)⟩

end Rootfs

structure Dirent where
  dName : List Byte
  dIno : Nat
  dType : Nat
  deriving DecidableEq, Repr

/-- `DIR`; `dentryList` is `none` at the head of the list. -/
structure DirStream where
  inodeDir : Nat
  dentryList : Option Nat

namespace Rootfs

def dirent (s : Rootfs) (addr : Nat) : Dirent :=
  let dentry := s.dentries addr
  { dName := dentry.dName.take nameMax
    dIno := dentry.dInode
    dType := (s.inodes dentry.dInode).iMode }

def direntsOf (s : Rootfs) (dir : Nat) : List Dirent := (s.dentriesOf dir).map s.dirent

def dListNext (s : Rootfs) (dir addr : Nat) : Option Nat :=
  (s.dentriesOf dir)[(s.dentriesOf dir).idxOf addr + 1]?

/-- `none` is -1. -/
def fsReadDir (s : Rootfs) (dirp : DirStream) : Option (Dirent × DirStream) :=
  dirp.dentryList.map fun addr =>
    (s.dirent addr, { dirp with dentryList := s.dListNext dirp.inodeDir addr })

/-- What `sys_opendir` makes of the inode that the daemon answers. -/
def sysOpendir (s : Rootfs) (inodeDir : Nat) : DirStream :=
  { inodeDir, dentryList := (s.dentriesOf inodeDir).head? }

end Rootfs

/-- The file system and the streams of the threads. -/
structure DirSys where
  rootfs : Rootfs
  answers : Nat → Option Nat
  streams : Nat → Option DirStream
  /-- The entries of the directory when the stream was opened. -/
  opened : Nat → List Dirent
  /-- The entries that were read since. -/
  returned : Nat → List Dirent

inductive DirEvent
  | call (c : RootfsCall)
  /-- The daemon answers the request of an `opendir`. -/
  | answer (id passes : Nat) (pathname : List Byte)
  /-- The `opendir` goes on with the answer. -/
  | opendir (id : Nat)
  | readdir (id : Nat)

namespace DirSys

def start (rootfs : Rootfs) : DirSys where
  rootfs := rootfs
  answers _ := none
  streams _ := none
  opened _ := []
  returned _ := []

def step (s : DirSys) : DirEvent → Option DirSys
  | .call c => (s.rootfs.call c).map fun rootfs => { s with rootfs }
  | .answer id passes pathname => (s.rootfs.fsOpenDirectory passes pathname).map fun w =>
      { s with rootfs := w.rootfs, answers := Function.update s.answers id w.result }
  | .opendir id => (s.answers id).map fun inodeDir =>
      { s with
        answers := Function.update s.answers id none
        streams := Function.update s.streams id (some (s.rootfs.sysOpendir inodeDir))
        opened := Function.update s.opened id (s.rootfs.direntsOf inodeDir)
        returned := Function.update s.returned id [] }
  | .readdir id => (s.streams id).map fun dirp =>
      match s.rootfs.fsReadDir dirp with
      | none => s
      | some (dirent, dirp) =>
          { s with
            streams := Function.update s.streams id (some dirp)
            returned := Function.update s.returned id (s.returned id ++ [dirent]) }

/-- Files are not created through a file that is not a directory. -/
def ThroughDirs (s : DirSys) : DirEvent → Prop
  | .call c => s.rootfs.ThroughDirs c
  | _ => True

/-- The stream has returned the first entries of its directory, as they are now, and goes on with
the next one; at its end, those that were there when it was opened are among them. -/
structure Enumerates (s : DirSys) (id : Nat) (dirp : DirStream) : Prop where
  inOrder : s.returned id <+: s.rootfs.direntsOf dirp.inodeDir
  next : ∀ dirent dirp', s.rootfs.fsReadDir dirp = some (dirent, dirp') →
    s.returned id ++ [dirent] <+: s.rootfs.direntsOf dirp.inodeDir
  ending : s.rootfs.fsReadDir dirp = none → s.opened id <+: s.returned id
  once : ((s.returned id).map Dirent.dIno).Nodup

end DirSys

namespace Rootfs
variable {s t : Rootfs} {d : Nat} {dirp dirp' : DirStream} {opened returned : List Dirent}
  {dirent : Dirent}

theorem Lengthens.dirents (h : Lengthens s t) (huse : InUse s) (hd : s.bitmapInodes d = true) :
    s.direntsOf d <+: t.direntsOf d := by
  have hsame : s.direntsOf d = (s.dentriesOf d).map t.dirent := by
    refine List.map_congr_left fun a ha => ?_
    have hmode := h.keeps.iMode _ (huse.listed d a ha)
    simp only [Rootfs.dirent, h.dentries d hd a ha, hmode]
  rw [hsame]
  exact (h.list d hd).map t.dirent

structure Reads (s : Rootfs) (dirp : DirStream) (opened returned : List Dirent) : Prop where
  isDir : s.IsDir dirp.inodeDir
  cursor : CursorAt (s.dentriesOf dirp.inodeDir) opened.length returned.length dirp.dentryList
  opened : opened <+: s.direntsOf dirp.inodeDir
  returned : returned <+: s.direntsOf dirp.inodeDir

theorem Reads.first (hdir : s.IsDir d) : Reads s (s.sysOpendir d) (s.direntsOf d) [] where
  isDir := hdir
  cursor := by
    rw [direntsOf, List.length_map]
    exact CursorAt.first _
  opened := List.prefix_rfl
  returned := List.nil_prefix

theorem Reads.lengthens (h : Reads s dirp opened returned) (huse : InUse s) (hlong : Lengthens s t) :
    Reads t dirp opened returned where
  isDir := hlong.keeps.isDir h.isDir
  cursor := h.cursor.grow (hlong.list _ h.isDir.1)
  opened := h.opened.trans (hlong.dirents huse h.isDir.1)
  returned := h.returned.trans (hlong.dirents huse h.isDir.1)

theorem Reads.next (h : Reads s dirp opened returned)
    (hread : s.fsReadDir dirp = some (dirent, dirp')) :
    returned ++ [dirent] <+: s.direntsOf dirp.inodeDir := by
  obtain ⟨addr, haddr, hpair⟩ := Option.map_eq_some_iff.mp hread
  obtain ⟨rfl, -⟩ := Prod.mk.inj hpair
  obtain ⟨l, hl⟩ := h.returned
  have hget : (s.direntsOf dirp.inodeDir)[returned.length]? = some (s.dirent addr) := by
    rw [direntsOf, List.getElem?_map, h.cursor.next addr haddr, Option.map_some]
  rw [← hl, List.getElem?_append_right (Nat.le_refl _), Nat.sub_self,
    ← List.head?_eq_getElem?] at hget
  obtain ⟨l, rfl⟩ := List.head?_eq_some_iff.mp hget
  exact ⟨l, by rw [← hl, List.append_assoc, List.singleton_append]⟩

theorem Reads.read (h : Reads s dirp opened returned) (hnodup : Unrepeated s)
    (hread : s.fsReadDir dirp = some (dirent, dirp')) :
    Reads s dirp' opened (returned ++ [dirent]) := by
  have hnext := h.next hread
  obtain ⟨addr, haddr, hpair⟩ := Option.map_eq_some_iff.mp hread
  obtain ⟨-, rfl⟩ := Prod.mk.inj hpair
  refine ⟨h.isDir, ?_, h.opened, hnext⟩
  have hcursor := h.cursor
  rw [haddr] at hcursor
  rw [List.length_append]
  exact hcursor.move (hnodup dirp.inodeDir)

theorem Reads.ending (h : Reads s dirp opened returned) (hend : s.fsReadDir dirp = none) :
    opened <+: returned := by
  have hlen := h.cursor.ending (Option.map_eq_none_iff.mp hend)
  exact List.prefix_of_prefix_length_le h.opened h.returned hlen

theorem Reads.once (h : Reads s dirp opened returned) (hreg : Registry s) (hnodup : Unrepeated s) :
    (returned.map Dirent.dIno).Nodup := by
  have hinodes : ((s.direntsOf dirp.inodeDir).map Dirent.dIno).Nodup := by
    rw [direntsOf, List.map_map]
    refine List.Nodup.map_on (fun a ha b hb heq => ?_) (hnodup dirp.inodeDir)
    exact (hreg.child _ b hb).2.2 a ha heq
  exact hinodes.sublist (h.returned.sublist.map Dirent.dIno)

end Rootfs

namespace DirSys
variable {s s' : DirSys} {e : DirEvent} {id : Nat} {dirp : DirStream}

structure Sound (s : DirSys) : Prop where
  tabled : Rootfs.Tabled s.rootfs none
  unrepeated : Rootfs.Unrepeated s.rootfs
  answers : ∀ id, ∀ i ∈ s.answers id, s.rootfs.IsDir i
  streams : ∀ id, ∀ dirp ∈ s.streams id, s.rootfs.Reads dirp (s.opened id) (s.returned id)

namespace Sound

theorem acts {rootfs : Rootfs} (hs : Sound s)
    (hacts : Relation.ReflTransGen (Rootfs.Act True) s.rootfs rootfs) :
    Sound { s with rootfs } := by
  obtain ⟨hlong, hrepeat⟩ := hs.tabled.acts_lengthens hacts
  exact ⟨(hs.tabled.acts hacts).1, hrepeat hs.unrepeated,
    fun id i hi => hlong.keeps.isDir (hs.answers id i hi),
    fun id dirp hdirp => (hs.streams id dirp hdirp).lengthens hs.tabled.registry.use hlong⟩

theorem step (hs : Sound s) (hok : s.ThroughDirs e) (hstep : s.step e = some s') : Sound s' := by
  have huse := hs.tabled.registry.use
  cases e with
  | call c =>
      obtain ⟨rootfs, hcall, rfl⟩ := Option.map_eq_some_iff.mp hstep
      exact hs.acts (huse.call_acts (fun _ => hok) hcall)
  | answer id passes pathname =>
      obtain ⟨w, hw, rfl⟩ := Option.map_eq_some_iff.mp hstep
      obtain ⟨hacts, hdir⟩ := huse.fsOpenDirectory_acts True hw
      obtain ⟨htabled, hrepeat, hanswers, hstreams⟩ := hs.acts hacts
      refine ⟨htabled, hrepeat, ?_, hstreams⟩
      exact (Function.forall_update_iff s.answers (p := fun _ o => ∀ i ∈ o, w.rootfs.IsDir i)).mpr
        ⟨hdir, fun id' _ => hanswers id'⟩
  | opendir id =>
      obtain ⟨inodeDir, hanswer, rfl⟩ := Option.map_eq_some_iff.mp hstep
      refine ⟨hs.tabled, hs.unrepeated, ?_, fun id' => ?_⟩
      · exact (Function.forall_update_iff s.answers
          (p := fun _ o => ∀ i ∈ o, s.rootfs.IsDir i)).mpr ⟨by simp, fun id' _ => hs.answers id'⟩
      · by_cases hid : id' = id
        · subst hid
          simp only [Function.update_self, Option.mem_some_iff, forall_eq']
          exact .first (hs.answers id' inodeDir hanswer)
        · simp only [Function.update_of_ne hid]
          exact hs.streams id'
  | readdir id =>
      obtain ⟨dirp, hdirp, rfl⟩ := Option.map_eq_some_iff.mp hstep
      cases hread : s.rootfs.fsReadDir dirp with
      | none => exact hs
      | some x =>
          obtain ⟨dirent, dirp'⟩ := x
          refine ⟨hs.tabled, hs.unrepeated, hs.answers, fun id' => ?_⟩
          by_cases hid : id' = id
          · subst hid
            simp only [Function.update_self, Option.mem_some_iff, forall_eq']
            exact (hs.streams id' dirp hdirp).read hs.unrepeated hread
          · simp only [Function.update_of_ne hid]
            exact hs.streams id'

theorem enumerates (hs : Sound s) (hdirp : s.streams id = some dirp) : s.Enumerates id dirp := by
  have hreads := hs.streams id dirp hdirp
  exact ⟨hreads.returned, fun _ _ hread => hreads.next hread, hreads.ending,
    hreads.once hs.tabled.registry hs.unrepeated⟩

end Sound

theorem start_sound (sInoAddr sBlkAddr : Nat) :
    Sound (start (Rootfs.rootfsInit sInoAddr sBlkAddr)) := by
  refine ⟨Rootfs.rootfsInit_tabled .., fun d => ?_, by simp [start], by simp [start]⟩
  have hempty : (Rootfs.rootfsInit sInoAddr sBlkAddr).dentriesOf d = [] := by
    rw [Rootfs.dentriesOf, Rootfs.rootfsInit]
    dsimp only
    split <;> rfl
  exact hempty ▸ List.nodup_nil

end DirSys

/-- In every run of requests, `opendir` and `readdir` from a new file system, by any threads and
with any directories mounted, each stream has returned the entries of its directory in their order
and each inode once; nothing that it returned has changed since; and when it returns -1, all that
was there when it was opened has been returned. -/
theorem readdir_enumerates {sInoAddr sBlkAddr : Nat} {es : List DirEvent} {s : DirSys}
    (hok : Runs.AllOk DirSys.ThroughDirs DirSys.step
      (DirSys.start (Rootfs.rootfsInit sInoAddr sBlkAddr)) es)
    (hrun : Runs.exec DirSys.step (DirSys.start (Rootfs.rootfsInit sInoAddr sBlkAddr)) es = some s) :
    ∀ id dirp, s.streams id = some dirp → s.Enumerates id dirp := by
  have hs := Runs.exec_invariant (fun _ _ _ hs hok hstep => DirSys.Sound.step hs hok hstep)
    (DirSys.start_sound sInoAddr sBlkAddr) hok hrun
  exact fun id dirp hdirp => hs.enumerates hdirp

namespace DirSys

def create (c : Byte) : DirEvent := .call (.createFile 0 [slash, c] sIfreg true)

/-- A file `b` is made while the root directory with `a` is read, and `c` after the end. -/
def listing : List DirEvent :=
  [create 97#8, .answer 7 0 [slash], .opendir 7, create 98#8, .readdir 7, .readdir 7, create 99#8,
    .readdir 7]

theorem create_throughDirs (s : DirSys) (c : Byte) : s.ThroughDirs (create c) := by
  rintro ⟨-, hmeets⟩
  rw [List.tail_cons, entries] at hmeets
  split at hmeets
  · exact hmeets
  · obtain ⟨t, i, -, hrest⟩ := hmeets
    split at hrest
    · exact hrest
    · obtain ⟨entry, hmem, -⟩ := hrest
      cases hmem

theorem listing_throughDirs (s : DirSys) : Runs.AllOk ThroughDirs step s listing := by
  refine Runs.allOk_of_forall fun e he t => ?_
  simp only [listing, List.mem_cons, List.not_mem_nil, or_false] at he
  obtain rfl | rfl | rfl | rfl | rfl | rfl | rfl | rfl := he
  · exact create_throughDirs t _
  · trivial
  · trivial
  · exact create_throughDirs t _
  · trivial
  · trivial
  · exact create_throughDirs t _
  · trivial

end DirSys

theorem readdir_enumerates_listing : ∃ s dirp,
    Runs.exec DirSys.step (DirSys.start (Rootfs.rootfsInit 0x20010000 0x20020000)) DirSys.listing =
      some s ∧ s.returned 7 = [⟨[97#8], 1, sIfreg⟩, ⟨[98#8], 2, sIfreg⟩] ∧
      (s.rootfs.direntsOf 0).length = 3 ∧ s.Enumerates 7 dirp := by
  have hrun : ((Runs.exec DirSys.step (DirSys.start (Rootfs.rootfsInit 0x20010000 0x20020000))
      DirSys.listing).bind fun s => (s.streams 7).map fun dirp => (s, dirp)).map (fun x =>
        (x.1.returned 7, (x.1.rootfs.direntsOf 0).length)) =
          some ([⟨[97#8], 1, sIfreg⟩, ⟨[98#8], 2, sIfreg⟩], 3) := by decide +kernel
  obtain ⟨⟨s, dirp⟩, hsome, hfacts⟩ := Option.map_eq_some_iff.mp hrun
  obtain ⟨s', hs', hstream⟩ := Option.bind_eq_some_iff.mp hsome
  obtain ⟨dirp', hdirp, hpair⟩ := Option.map_eq_some_iff.mp hstream
  obtain ⟨rfl, rfl⟩ := Prod.mk.inj hpair
  obtain ⟨hreturned, hlen⟩ := Prod.mk.inj hfacts
  exact ⟨s', dirp', hs', hreturned, hlen,
    readdir_enumerates (DirSys.listing_throughDirs _) hs' 7 dirp' hdirp⟩

end Tenok
