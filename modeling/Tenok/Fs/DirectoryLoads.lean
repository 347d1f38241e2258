import Tenok.Fs.WorkingDirectory

/-!
Loading directories. The dentries that are read are put behind those that are there, and no other
directory changes, so that a way down the tree stays one while directories on it are loaded.
-/
namespace Tenok

namespace Rootfs
variable {s t u : Rootfs} {p d dir ino addr i passes : Nat} {inode : Inode} {mounting : Option Nat}
  {way way' : List (Nat × List Byte)} {entry : List Byte} {es : List (List Byte)}

/-- Dentries are only added, and only to this directory. -/
structure Extends (s t : Rootfs) (p : Nat) : Prop where
  keeps : Keeps s t
  others : ∀ j, s.bitmapInodes j = true → j ≠ p → t.inodes j = s.inodes j
  dentries : ∀ d, s.bitmapInodes d = true → ∀ a ∈ s.dentriesOf d, t.dentries a = s.dentries a
  list : ∀ list, (s.inodes p).iDentry = some list → ∃ l, (t.inodes p).iDentry = some (list ++ l)

theorem Extends.refl (s : Rootfs) (p : Nat) : Extends s s p :=
  ⟨.refl s, fun _ _ _ => rfl, fun _ _ _ _ => rfl, fun list hlist => ⟨[], by rw [hlist, List.append_nil]⟩⟩

theorem Extends.mem (h : Extends s t p) (hd : s.bitmapInodes d = true) {a : Nat}
    (ha : a ∈ s.dentriesOf d) : a ∈ t.dentriesOf d := by
  by_cases hdp : d = p
  · subst hdp
    obtain ⟨list, hlist, hmem⟩ := iDentry_of_mem ha
    obtain ⟨l, hl⟩ := h.list list hlist
    rw [dentriesOf, hl]
    exact List.mem_append_left l hmem
  · rwa [dentriesOf, h.others d hd hdp]

theorem Extends.trans (h : Extends s t p) (h' : Extends t u p) : Extends s u p where
  keeps := h.keeps.trans h'.keeps
  others j hj hne := (h'.others j (h.keeps.bits j hj) hne).trans (h.others j hj hne)
  dentries d hd a ha :=
    (h'.dentries d (h.keeps.bits d hd) a (h.mem hd ha)).trans (h.dentries d hd a ha)
  list list hlist := by
    obtain ⟨l, hl⟩ := h.list list hlist
    obtain ⟨l', hl'⟩ := h'.list _ hl
    exact ⟨l ++ l', by rw [hl', List.append_assoc]⟩

theorem Extends.update (hkeeps : Keeps s t) (hinodes : t.inodes = Function.update s.inodes p inode)
    (hdentries : t.dentries = s.dentries) (hlist : inode.iDentry = (s.inodes p).iDentry) :
    Extends s t p where
  keeps := hkeeps
  others j _ hne := by rw [hinodes, Function.update_of_ne hne]
  dentries d _ a _ := by rw [hdentries]
  list list hl := ⟨[], by rw [hinodes, Function.update_self, hlist, hl, List.append_nil]⟩

theorem NewFile.extends (h : NewFile s t dir ino addr inode) (hkeeps : Keeps s t)
    (hfresh : Unlisted s addr) : Extends s t dir where
  keeps := hkeeps
  others j hj hne := h.others j (h.old hj).1 hne
  dentries d _ a ha := h.old_dentry hfresh ha
  list list hlist := by
    obtain ⟨iData, hdir⟩ := h.counts
    exact ⟨[addr], by rw [hdir, dentriesOf, hlist, Option.getD_some]⟩

/-- What holds while a directory is loaded. -/
structure Loading (s t : Rootfs) (p : Nat) (mounting : Option Nat) : Prop where
  use : InUse t
  slots : Slots t mounting
  isDir : t.IsDir p
  keeps : Extends s t p

theorem Loading.fsMountFile {rdev : Nat} {mnt : StoredInode} {name : List Byte}
    (h : Loading s t p (some p)) (hmount : t.fsMountFile p rdev mnt name = some u) :
    Loading s u p (some p) := by
  obtain ⟨huse, hkeeps⟩ := h.use.fsMountFile h.isDir.1 hmount
  obtain ⟨-, rfl⟩ | ⟨ino, addr, v, htakes, -, -, hlists⟩ := fsMountFile_spec h.isDir.1 hmount
  · exact h
  have hnew := htakes.newFile h.isDir.1 hlists
  have hfresh := h.slots.fresh h.isDir (Or.inl (Or.inr rfl)) hnew.place
  exact ⟨huse, hnew.slots h.slots hfresh rfl (fun hsync => by cases hsync)
      (fun heq => hnew.ne (Option.some.inj heq)), hkeeps.isDir h.isDir,
    h.keeps.trans (hnew.extends hkeeps hfresh.unlisted)⟩

def loadDir (passes : Nat) (s : Rootfs) (p : Nat) : Option Rootfs :=
  if (s.inodes p).iSync then some s else s.syncDirectory passes p

theorem Slots.loadDir (hslots : Slots s none) (huse : InUse s) (hdir : s.IsDir p)
    (hload : s.loadDir passes p = some t) : Loading s t p none ∧
      ((s.inodes p).iSize ≠ 0 → (t.inodes p).iSync = true) := by
  rw [Rootfs.loadDir] at hload
  split at hload
  · next hsync =>
      obtain rfl := Option.some.inj hload
      exact ⟨⟨huse, hslots, hdir, .refl s p⟩, fun _ => hsync⟩
  next hsync =>
  have hloaded := (huse.fsMountDirectory hdir.1 hload).2.2
  refine ⟨?_, hloaded⟩
  have hstart : Loading s (s.setInode p fun n => { n with iSize := 0, iBlocks := 0 }) p (some p) := by
    refine ⟨huse.emptied hdir.1, hslots.startMounting p, ⟨hdir.1, by simpa [setInode] using hdir.2⟩,
      .update (Keeps.update rfl rfl rfl rfl rfl id) rfl rfl rfl⟩
  obtain ⟨-, rfl⟩ | ⟨-, u, hu, rfl⟩ := fsMountDirectory_invariant Loading.fsMountFile
    (fun _ => hstart) (fun htrue => absurd htrue hsync) hload
  · exact ⟨huse, hslots, hdir, .refl _ p⟩
  · have hkeeps : Keeps u (u.setInode p fun n => { n with iSync := true }) :=
      Keeps.update rfl rfl rfl rfl rfl fun _ => rfl
    refine ⟨hu.use.update hu.isDir.1 rfl rfl rfl ?_ (hu.use.iIno p hu.isDir.1) rfl (hu.use.listed p),
      hu.slots.endMounting (Or.inr rfl), hkeeps.isDir hu.isDir, hu.keeps.trans (.update hkeeps rfl rfl rfl)⟩
    rintro rfl
    exact hu.isDir.2

def loadDirs (passes : Nat) : List Nat → Rootfs → Option Rootfs
  | [], s => some s
  | p :: ps, s => (s.loadDir passes p).bind (loadDirs passes ps)

theorem loadDirs_append {ps qs : List Nat} :
    loadDirs passes (ps ++ qs) s = (loadDirs passes ps s).bind (loadDirs passes qs) := by
  induction ps generalizing s with
  | nil => rfl
  | cons p ps ih =>
      rw [List.cons_append, loadDirs, loadDirs, Option.bind_assoc]
      exact Option.bind_congr fun t _ => ih

theorem Slots.loadDirs {ps : List Nat} (hslots : Slots s none) (huse : InUse s)
    (hdirs : ∀ p ∈ ps, s.IsDir p) (hnodup : ps.Nodup) (hload : loadDirs passes ps s = some t) :
    InUse t ∧ Slots t none ∧ Keeps s t ∧
      (∀ j, s.bitmapInodes j = true → j ∉ ps → t.inodes j = s.inodes j) ∧
      ∀ p ∈ ps, (s.inodes p).iSize ≠ 0 → (t.inodes p).iSync = true := by
  induction ps generalizing s with
  | nil =>
      obtain rfl := Option.some.inj hload
      exact ⟨huse, hslots, .refl _, fun _ _ _ => rfl, nofun⟩
  | cons p ps ih =>
      obtain ⟨u, hu, hrest⟩ := Option.bind_eq_some_iff.mp hload
      obtain ⟨hp, hps⟩ := List.nodup_cons.mp hnodup
      have hdir := hdirs p List.mem_cons_self
      obtain ⟨hloading, hsynced⟩ := hslots.loadDir huse hdir hu
      have hkeeps := hloading.keeps.keeps
      obtain ⟨ht, hslots', hkeeps', hothers, hsynced'⟩ := ih hloading.slots hloading.use
        (fun q hq => hkeeps.isDir (hdirs q (List.mem_cons_of_mem p hq))) hps hrest
      refine ⟨ht, hslots', hkeeps.trans hkeeps', fun j hj hnot => ?_, fun q hq hsize => ?_⟩
      · have hj' := hloading.keeps.others j hj (List.ne_of_not_mem_cons hnot)
        rw [hothers j (hkeeps.bits j hj) (List.not_mem_of_not_mem_cons hnot), hj']
      · obtain rfl | hrest := List.mem_cons.mp hq
        · exact hkeeps'.iSync q (hkeeps.bits q hdir.1) (hsynced hsize)
        · have hne : q ≠ p := by
            rintro rfl
            exact hp hrest
          have hq' := hloading.keeps.others q (hdirs q hq).1 hne
          exact hsynced' q hrest (by rwa [hq'])

theorem PathTo.extends {c : Nat} (hway : PathTo s c way d) (h : Extends s t p) :
    PathTo t c way d := by
  induction hway with
  | here => exact .here
  | @into c a d way hdir ha _ ih =>
      have hsame := h.dentries c hdir.1 a ha
      rw [← hsame] at ih ⊢
      exact .into (h.keeps.isDir hdir) (h.mem hdir.1 ha) ih

theorem PathTo.isDir {c : Nat} (h : PathTo s c way d) (hd : s.IsDir d) :
    s.IsDir c ∧ ∀ e ∈ way, s.IsDir e.1 := by
  induction h with
  | here => exact ⟨hd, nofun⟩
  | into hdir _ _ ih => exact ⟨hdir, List.forall_mem_cons.mpr ⟨hdir, (ih hd).2⟩⟩

theorem WellNamed.extends (h : WellNamed s d) (hd : s.bitmapInodes d = true) (hne : d ≠ p)
    (hext : Extends s t p) : WellNamed t d := by
  have hlist : t.dentriesOf d = s.dentriesOf d := by
    rw [dentriesOf, dentriesOf, hext.others d hd hne]
  intro a ha
  rw [hlist] at ha ⊢
  rw [hext.dentries d hd a ha]
  refine ⟨(h a ha).1, fun b hb heq => ?_⟩
  rw [hext.dentries d hd b hb] at heq
  exact (h a ha).2 b hb heq

theorem fsSearchFile_eq (hsize : (s.inodes dir).iSize ≠ 0) (hdot : entry ≠ [46#8])
    (hdots : entry ≠ [46#8, 46#8]) :
    s.fsSearchFile passes dir entry = (s.loadDir passes dir).bind fun t =>
      (t.inodes dir).iDentry.bind fun list =>
        some (t, (list.find? fun a => (t.dentries a).dName = entry).map fun a =>
          (t.dentries a).dInode) := by
  rw [Rootfs.fsSearchFile, if_neg hsize, if_neg hdot, if_neg hdots, Rootfs.loadDir]
  split <;> rfl

/-- Searching a name in a directory that has it: a directory that seems to be empty is not looked
into, and any other one is loaded. -/
theorem Slots.fsSearchFile (hslots : Slots s none) (huse : InUse s) (hdir : s.IsDir p)
    (hnames : WellNamed s p) {a : Nat} (ha : a ∈ s.dentriesOf p) :
    s.fsSearchFile passes p (s.dentries a).dName =
      if (s.inodes p).iSize = 0 then some (s, none)
      else (s.loadDir passes p).map fun t => (t, some (s.dentries a).dInode) := by
  obtain ⟨⟨-, -, hdot, hdots⟩, honly⟩ := hnames a ha
  obtain ⟨list, hlist, hmem⟩ := iDentry_of_mem ha
  by_cases hsize : (s.inodes p).iSize = 0
  · rw [Rootfs.fsSearchFile, if_pos hsize, if_pos hsize]
  rw [if_neg hsize, fsSearchFile_eq hsize hdot hdots]
  cases hload : s.loadDir passes p with
  | none => rfl
  | some t =>
      obtain ⟨⟨-, -, -, hext⟩, -⟩ := hslots.loadDir huse hdir hload
      obtain ⟨l, hl⟩ := hext.list list hlist
      have hold : ∀ b ∈ list, t.dentries b = s.dentries b ∧ b ∈ s.dentriesOf p := by
        intro b hb
        have hb' : b ∈ s.dentriesOf p := by rwa [dentriesOf, hlist]
        exact ⟨hext.dentries p hdir.1 b hb', hb'⟩
      have hfind : list.find? (fun b => (t.dentries b).dName = (s.dentries a).dName) = some a := by
        refine find?_of_unique hmem (by rw [(hold a hmem).1]; exact decide_eq_true rfl)
          fun b hb heq => ?_
        obtain ⟨hsame, hb'⟩ := hold b hb
        rw [hsame] at heq
        exact honly b hb' (of_decide_eq_true heq)
      simp only [Option.bind_some, hl, List.find?_append, hfind,
        Option.some_or, Option.map_some, (hold a hmem).1]

end Rootfs

end Tenok
