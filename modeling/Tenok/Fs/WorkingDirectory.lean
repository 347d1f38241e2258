import Tenok.Fs.OpenFiles

/-!
The current directory. `fs_getcwd` follows the parents up to the root directory and puts the names
in front of each other; `fs_chdir` puts a path behind that and opens the directory that it leads to.
-/
namespace Tenok

def enoent : Int := 2
def enotdir : Int := 20

/-- What `fs_chdir` ends with: the file system, `shell_dir_curr` and the answer, unless it has
written behind the end of `path_tmp`. -/
inductive Chdir
  | overflow
  | returned (rootfs : Rootfs) (shellDirCurr : Nat) (retval : Int)

/-- `snprintf(&path_tmp[pos], PATH_MAX, "%s", path)` behind a path, where `none` is an access behind
the end of `path_tmp`. It writes the zero as well. -/
def appendPath (cwd path : List Byte) : Option (List Byte) :=
  let written := path.take (pathMax - 1)
  if cwd.length + written.length + 1 ≤ pathMax then some (cwd ++ written) else none

def dotdot : List Byte := [46#8, 46#8]

namespace Rootfs

/-- The loop of `fs_getcwd`, for as many passes as are given. -/
def getcwdLoop (s : Rootfs) : Nat → Nat → List Byte → Option (List Byte)
  | 0, _, _ => none
  | n + 1, inode, newPath =>
      if (s.inodes inode).iIno = 0 then some newPath
      else do
        let inodePrev := (s.inodes inode).iIno
        let inode := (s.inodes inode).iParent
        let list ← (s.inodes inode).iDentry
        if list = [] then some newPath
        else
          let dentry := list.find? fun a => (s.dentries a).dInode = inodePrev
          getcwdLoop s n inode ((dentry.map fun a =>
            ((s.dentries a).dName ++ slash :: newPath).take (pathMax - 1)).getD newPath)

/-- `fs_getcwd` for a buffer of `len` bytes, at least one. -/
def fsGetcwd (depth : Nat) (s : Rootfs) (shellDirCurr len : Nat) : Option (List Byte) :=
  (s.getcwdLoop depth shellDirCurr []).map fun newPath => (slash :: newPath).take (len - 1)

def pathTmp (depth : Nat) (s : Rootfs) (shellDirCurr : Nat) (path : List Byte) :
    Option (Option (List Byte)) :=
  if path = dotdot then
    (s.fsGetcwd depth shellDirCurr pathMax).map fun cwd => appendPath cwd dotdot
  else if path.head? = some slash then some (some (path.take (pathMax - 1)))
  else (s.fsGetcwd depth shellDirCurr pathMax).map fun cwd => appendPath cwd path

/-- `fs_chdir`; `none` if it does not end or accesses what is not there. -/
def fsChdir (depth passes : Nat) (s : Rootfs) (shellDirCurr : Nat) (path : List Byte) :
    Option Chdir := do
  let pathTmp ← s.pathTmp depth shellDirCurr path
  match pathTmp with
  | none => some .overflow
  | some pathTmp => do
      let walk ← s.fsOpenDirectory passes pathTmp
      match walk.result with
      | none => some (.returned walk.rootfs shellDirCurr (-enoent))
      | some inodeDir =>
          if (walk.rootfs.inodes inodeDir).iMode ≠ sIfdir then
            some (.returned walk.rootfs shellDirCurr (-enotdir))
          else some (.returned walk.rootfs inodeDir 0)

variable {s t : Rootfs} {p d passes depth : Nat} {way way' : List (Nat × List Byte)}
  {path : List Byte}

/-- From a directory a way leads down to an inode, with the directories on it and the names in
them. -/
inductive PathTo (s : Rootfs) : Nat → List (Nat × List Byte) → Nat → Prop
  | here {d : Nat} : PathTo s d [] d
  | into {p a d : Nat} {way : List (Nat × List Byte)} (hdir : s.IsDir p)
      (ha : a ∈ s.dentriesOf p) (hway : PathTo s (s.dentries a).dInode way d) :
      PathTo s p ((p, (s.dentries a).dName) :: way) d

theorem PathTo.trans {c : Nat} (h : PathTo s p way c) (h' : PathTo s c way' d) :
    PathTo s p (way ++ way') d := by
  induction h with
  | here => exact h'
  | into hdir ha _ ih => exact .into hdir ha (ih h')

theorem PathTo.child {a : Nat} (h : PathTo s p way d) (hdir : s.IsDir d) (ha : a ∈ s.dentriesOf d) :
    PathTo s p (way ++ [(d, (s.dentries a).dName)]) (s.dentries a).dInode :=
  h.trans (.into hdir ha .here)

/-- The dentries of a directory have proper names, each a different one. -/
def WellNamed (s : Rootfs) (d : Nat) : Prop :=
  ∀ a ∈ s.dentriesOf d, ((s.dentries a).dName ≠ [] ∧ slash ∉ (s.dentries a).dName ∧
      (s.dentries a).dName ≠ [46#8] ∧ (s.dentries a).dName ≠ dotdot) ∧
    ∀ b ∈ s.dentriesOf d, (s.dentries b).dName = (s.dentries a).dName → b = a

instance decidableWellNamed (s : Rootfs) (d : Nat) : Decidable (s.WellNamed d) :=
  inferInstanceAs (Decidable (∀ a ∈ s.dentriesOf d, _ ∧ ∀ b ∈ s.dentriesOf d, _))

theorem wellNamed_of_closed {ps : List Nat} (hroot : 0 ∈ ps) (hclosed : ∀ p ∈ ps, WellNamed s p ∧
    ∀ a ∈ s.dentriesOf p, (s.dentries a).dInode ∈ ps) (hd : PathTo s 0 way d) : WellNamed s d := by
  have hmem : ∀ {p way d}, PathTo s p way d → p ∈ ps → d ∈ ps := by
    intro p way d hd
    induction hd with
    | here => exact id
    | into _ ha _ ih => exact fun hp => ih ((hclosed _ hp).2 _ ha)
  exact (hclosed d (hmem hd hroot)).1

/-- The directories below the root directory are a tree, in which names tell files apart. -/
structure DirTree (s : Rootfs) : Prop where
  use : InUse s
  slots : Slots s none
  root : (s.inodes 0).iSync = true
  child : ∀ {way d}, PathTo s 0 way d → s.IsDir d → ∀ a ∈ s.dentriesOf d, Child s d a
  names : ∀ {way d}, PathTo s 0 way d → s.IsDir d → WellNamed s d

/-- Whatever was done through directories, there is a tree as soon as the names are proper ones. -/
theorem dirTree_of_run {sInoAddr sBlkAddr : Nat} {calls : List RootfsCall}
    (hok : Runs.AllOk ThroughDirs call (rootfsInit sInoAddr sBlkAddr) calls)
    (hrun : Runs.exec call (rootfsInit sInoAddr sBlkAddr) calls = some s)
    (hnames : ∀ {way d}, PathTo s 0 way d → s.IsDir d → WellNamed s d) : DirTree s := by
  obtain ⟨hreg, hslots⟩ := ((rootfsInit_tabled sInoAddr sBlkAddr).calls hok hrun).1
  obtain ⟨-, hacts⟩ := acts_of_run hrun
  have hkeeps := ((rootfsInit_inUse sInoAddr sBlkAddr).acts hacts).2
  exact ⟨hreg.use, hslots, hkeeps.iSync 0 rfl rfl, fun _ _ => hreg.child _, hnames⟩

/-- The path of a directory, which ends with a slash. -/
def pathOf (way : List (Nat × List Byte)) : List Byte :=
  slash :: way.flatMap fun e => e.2 ++ [slash]

theorem take_append_take (n : Nat) (x y : List Byte) :
    (x ++ y.take n).take n = (x ++ y).take n := by
  rw [List.take_append, List.take_append, List.take_take, Nat.min_eq_left (Nat.sub_le n x.length)]

theorem find?_of_unique {a : Nat} {list : List Nat} {f : Nat → Bool} (ha : a ∈ list)
    (hfa : f a = true) (honly : ∀ b ∈ list, f b = true → b = a) : list.find? f = some a := by
  cases hfind : list.find? f with
  | none => exact absurd hfa (List.find?_eq_none.mp hfind a ha)
  | some b =>
      rw [honly b (List.mem_of_find?_eq_some hfind) (List.find?_some hfind)]

theorem iDentry_of_mem {a : Nat} (ha : a ∈ s.dentriesOf p) :
    ∃ list, (s.inodes p).iDentry = some list ∧ a ∈ list := by
  rw [dentriesOf] at ha
  cases hlist : (s.inodes p).iDentry with
  | none =>
      rw [hlist] at ha
      exact absurd ha List.not_mem_nil
  | some list =>
      rw [hlist] at ha
      exact ⟨list, rfl, ha⟩

theorem getcwdLoop_child {a : Nat} (huse : InUse s) (h : Child s p a) (ha : a ∈ s.dentriesOf p)
    (newPath : List Byte) : s.getcwdLoop (depth + 1) (s.dentries a).dInode newPath =
      s.getcwdLoop depth p (((s.dentries a).dName ++ slash :: newPath).take (pathMax - 1)) := by
  have hIno : (s.inodes (s.dentries a).dInode).iIno = (s.dentries a).dInode :=
    huse.iIno _ (huse.listed p a ha)
  obtain ⟨list, hlist, hmem⟩ := iDentry_of_mem ha
  have hfind : list.find? (fun b => (s.dentries b).dInode = (s.dentries a).dInode) = some a := by
    refine find?_of_unique hmem (decide_eq_true rfl) fun b hb heq => ?_
    refine h.2.2 b ?_ (of_decide_eq_true heq)
    rwa [dentriesOf, hlist]
  rw [Rootfs.getcwdLoop, hIno, if_neg h.1, h.2.1]
  simp only [hlist, Option.bind_eq_bind, Option.bind_some]
  rw [if_neg (List.ne_nil_of_mem hmem), hfind]
  rfl

theorem DirTree.getcwdLoop (h : DirTree s) (hp : PathTo s 0 way' p) (hd : PathTo s p way d)
    {newPath : List Byte} (hnew : newPath.length < pathMax) :
    s.getcwdLoop (depth + way.length) d newPath = s.getcwdLoop depth p
      (((way.flatMap fun e => e.2 ++ [slash]) ++ newPath).take (pathMax - 1)) := by
  induction hd generalizing way' depth with
  | here => rw [List.flatMap_nil, List.nil_append, List.take_of_length_le (by omega)]; rfl
  | @into p a d way hdir ha hway ih =>
      rw [List.length_cons, Nat.add_comm way.length 1, ← Nat.add_assoc, ih (hp.child hdir ha),
        getcwdLoop_child h.use (h.child hp hdir a ha) ha, ← List.singleton_append,
        ← List.append_assoc, take_append_take, List.flatMap_cons, List.append_assoc _ _ newPath]

/-- `fs_getcwd` answers the path of the directory, as much of it as there is room for. -/
theorem DirTree.fsGetcwd (h : DirTree s) (hd : PathTo s 0 way d) (hdepth : way.length < depth)
    (len : Nat) : s.fsGetcwd depth d len =
      some ((slash :: (way.flatMap fun e => e.2 ++ [slash]).take (pathMax - 1)).take (len - 1)) := by
  obtain ⟨n, rfl⟩ : ∃ n, depth = n + 1 + way.length := ⟨depth - way.length - 1, by omega⟩
  have hroot : (s.inodes 0).iIno = 0 := h.use.iIno 0 h.use.root.1
  rw [Rootfs.fsGetcwd, h.getcwdLoop .here hd (by decide), Rootfs.getcwdLoop, if_pos hroot,
    List.append_nil, Option.map_some]

theorem DirTree.fsGetcwd_fits (h : DirTree s) (hd : PathTo s 0 way d) (hdepth : way.length < depth)
    {len : Nat} (hfits : (pathOf way).length < pathMax) (hlen : pathMax ≤ len) :
    s.fsGetcwd depth d len = some (pathOf way) := by
  rw [pathOf, List.length_cons] at hfits
  rw [h.fsGetcwd hd hdepth, List.take_of_length_le (by omega : _ ≤ pathMax - 1), pathOf,
    List.take_of_length_le (by rw [List.length_cons]; omega)]

theorem DirTree.fsGetcwd_pathMax (h : DirTree s) (hd : PathTo s 0 way d)
    (hdepth : way.length < depth) :
    s.fsGetcwd depth d pathMax = some ((pathOf way).take (pathMax - 1)) := by
  have hcut := take_append_take (pathMax - 1) [slash] (way.flatMap fun e => e.2 ++ [slash])
  rw [h.fsGetcwd hd hdepth, pathOf, ← List.singleton_append, hcut, List.singleton_append]

theorem getcwdLoop_mono {n : Nat} {newPath cwd : List Byte} (hle : depth ≤ n)
    (h : s.getcwdLoop depth d newPath = some cwd) : s.getcwdLoop n d newPath = some cwd := by
  induction depth generalizing n d newPath with
  | zero => cases h
  | succ depth ih =>
      obtain ⟨n, rfl⟩ : ∃ m, n = m + 1 := ⟨n - 1, by omega⟩
      rw [Rootfs.getcwdLoop] at h ⊢
      split at h
      · next hroot =>
          rw [if_pos hroot]
          exact h
      · next hroot =>
          rw [if_neg hroot]
          obtain ⟨list, hlist, hrest⟩ := Option.bind_eq_some_iff.mp h
          refine Option.bind_eq_some_iff.mpr ⟨list, hlist, ?_⟩
          split at hrest
          · next hnil =>
              rw [if_pos hnil]
              exact hrest
          · next hnil =>
              rw [if_neg hnil]
              exact ih (Nat.le_of_succ_le_succ hle) hrest

theorem DirTree.getcwd_eq (h : DirTree s) (hd : PathTo s 0 way d) {cwd : List Byte}
    (hcwd : s.fsGetcwd depth d pathMax = some cwd) : cwd = (pathOf way).take (pathMax - 1) := by
  obtain ⟨newPath, hloop, hcut⟩ := Option.map_eq_some_iff.mp hcwd
  have hdeep : s.fsGetcwd (depth + way.length + 1) d pathMax = some cwd :=
    Option.map_eq_some_iff.mpr ⟨newPath, getcwdLoop_mono (by omega) hloop, hcut⟩
  exact Option.some.inj (hdeep.symm.trans (h.fsGetcwd_pathMax hd (by omega)))

/-- What `path_tmp` holds when the directory is opened, if it has not overflowed. -/
def combined (way : List (Nat × List Byte)) (path : List Byte) : Option (List Byte) :=
  if path.head? = some slash then some (path.take (pathMax - 1))
  else appendPath ((pathOf way).take (pathMax - 1)) path

theorem pathTmp_eq : s.pathTmp depth d path =
    if path.head? = some slash then some (some (path.take (pathMax - 1)))
    else (s.fsGetcwd depth d pathMax).map fun cwd => appendPath cwd path := by
  rw [pathTmp]
  by_cases hpath : path = dotdot
  · rw [if_pos hpath, hpath, if_neg (by decide)]
  · rw [if_neg hpath]

theorem DirTree.pathTmp (h : DirTree s) (hd : PathTo s 0 way d) (hdepth : way.length < depth)
    (path : List Byte) : s.pathTmp depth d path = some (combined way path) := by
  rw [pathTmp_eq, combined, h.fsGetcwd_pathMax hd hdepth]
  split <;> rfl

theorem DirTree.eq_combined (h : DirTree s) (hd : PathTo s 0 way d) {r : Option (List Byte)}
    (hr : s.pathTmp depth d path = some r) : r = combined way path := by
  rw [pathTmp_eq] at hr
  rw [combined]
  split at hr
  · next habs =>
      rw [if_pos habs]
      exact (Option.some.inj hr).symm
  · next hrel =>
      rw [if_neg hrel]
      obtain ⟨cwd, hcwd, rfl⟩ := Option.map_eq_some_iff.mp hr
      rw [h.getcwd_eq hd hcwd]

/-- The path fits into `path_tmp`, behind that of the directory unless it starts with a slash. -/
def Fits (way : List (Nat × List Byte)) (path : List Byte) : Prop :=
  if path.head? = some slash then path.length < pathMax
  else (pathOf way).length + path.length < pathMax

theorem combined_of_fits (h : Fits way path) : combined way path =
    some (if path.head? = some slash then path else pathOf way ++ path) := by
  rw [Fits] at h
  rw [combined]
  split at h
  · next habs => rw [if_pos habs, if_pos habs, List.take_of_length_le (by omega)]
  · next hrel =>
      rw [if_neg hrel, if_neg hrel, appendPath, List.take_of_length_le (by omega : _ ≤ pathMax - 1),
        List.take_of_length_le (by omega : _ ≤ pathMax - 1)]
      exact if_pos (by omega)

theorem combined_of_not_fits (h : ¬ Fits way path) : combined way path =
    if path.head? = some slash then some (path.take (pathMax - 1))
    else if path = [] then some ((pathOf way).take (pathMax - 1)) else none := by
  rw [Fits] at h
  rw [combined]
  split
  · rfl
  · next hrel =>
      have hmax : pathMax = 128 := rfl
      rw [if_neg hrel] at h
      by_cases hnil : path = []
      · subst hnil
        rw [if_pos rfl, appendPath, List.take_nil, List.append_nil]
        exact if_pos (by rw [List.length_take, List.length_nil]; omega)
      · have hpos := List.length_pos_of_ne_nil hnil
        have hslash : 0 < (pathOf way).length := Nat.succ_pos _
        rw [if_neg hnil, appendPath]
        exact if_neg (by rw [List.length_take, List.length_take]; omega)

theorem fsChdir_cases {r : Chdir} (huse : InUse s) (h : s.fsChdir depth passes d path = some r) :
    (s.pathTmp depth d path = some none ∧ r = .overflow) ∨
    ∃ tmp w, s.pathTmp depth d path = some (some tmp) ∧ s.fsOpenDirectory passes tmp = some w ∧
      ((w.result = none ∧ r = .returned w.rootfs d (-enoent)) ∨
        ∃ i, w.result = some i ∧ r = .returned w.rootfs i 0) := by
  obtain ⟨tmp, htmp, hrest⟩ := Option.bind_eq_some_iff.mp h
  cases tmp with
  | none => exact Or.inl ⟨htmp, (Option.some.inj hrest).symm⟩
  | some tmp =>
      obtain ⟨w, hw, hrest⟩ := Option.bind_eq_some_iff.mp hrest
      refine Or.inr ⟨tmp, w, htmp, hw, ?_⟩
      cases hresult : w.result with
      | none =>
          simp only [hresult] at hrest
          exact Or.inl ⟨rfl, (Option.some.inj hrest).symm⟩
      | some i =>
          have hdir := (huse.fsOpenDirectory_acts False hw).2 i hresult
          simp only [hresult, hdir.2, ne_eq, not_true, if_false] at hrest
          exact Or.inr ⟨i, rfl, (Option.some.inj hrest).symm⟩

/-- The path is not there, or is not that of a directory. -/
def OpensNone (s : Rootfs) (pathname : List Byte) : Prop :=
  ∃ passes w, s.fsOpenDirectory passes pathname = some w ∧ w.result = none

/-- `fs_chdir` stays inside of `path_tmp`, and a path that does not fit is rejected. -/
def ChdirInside (s : Rootfs) (d : Nat) (way : List (Nat × List Byte)) (path : List Byte) : Prop :=
  (∀ depth passes, s.fsChdir depth passes d path ≠ some .overflow) ∧
  (¬ Fits way path → ∃ depth passes t retval,
    s.fsChdir depth passes d path = some (.returned t d retval) ∧ retval ≠ 0)

theorem DirTree.not_overflow (h : DirTree s) (hd : PathTo s 0 way d) {tmp : List Byte}
    (htmp : combined way path = some tmp) (depth passes : Nat) :
    s.fsChdir depth passes d path ≠ some .overflow := by
  intro hchdir
  obtain ⟨hnone, -⟩ | ⟨_, _, -, -, ⟨-, hr⟩ | ⟨_, -, hr⟩⟩ := fsChdir_cases h.use hchdir
  · have heq := h.eq_combined hd hnone
    rw [htmp] at heq
    cases heq
  · cases hr
  · cases hr

/-- A path that does not fit is only rejected if it is one that is cut off, and what is left of it
is not the path of a directory. -/
theorem chdirInside_iff (h : DirTree s) (hd : PathTo s 0 way d) (path : List Byte) :
    ChdirInside s d way path ↔ Fits way path ∨
      (path.head? = some slash ∧ OpensNone s (path.take (pathMax - 1))) ∨
      (path = [] ∧ OpensNone s ((pathOf way).take (pathMax - 1))) := by
  by_cases hfits : Fits way path
  · exact iff_of_true ⟨h.not_overflow hd (combined_of_fits hfits), absurd hfits⟩ (Or.inl hfits)
  rw [or_iff_right hfits]
  have hcut := combined_of_not_fits hfits
  constructor
  · rintro ⟨-, hreject⟩
    obtain ⟨depth, passes, t, retval, hchdir, hne⟩ := hreject hfits
    obtain ⟨-, hr⟩ | ⟨tmp, w, htmp, hw, ⟨hnone, -⟩ | ⟨i, -, hr⟩⟩ := fsChdir_cases h.use hchdir
    · cases hr
    · have heq := (h.eq_combined hd htmp).trans hcut
      split at heq
      · next habs =>
          obtain rfl := Option.some.inj heq
          exact Or.inl ⟨habs, passes, w, hw, hnone⟩
      split at heq
      · next hnil =>
          obtain rfl := Option.some.inj heq
          exact Or.inr ⟨hnil, passes, w, hw, hnone⟩
      · cases heq
    · injection hr with _ _ hretval
      exact absurd hretval hne
  · intro hopens
    obtain ⟨tmp, htmp, passes, w, hw, hnone⟩ : ∃ tmp, combined way path = some tmp ∧
        OpensNone s tmp := by
      obtain ⟨habs, hnone⟩ | ⟨rfl, hnone⟩ := hopens
      · exact ⟨_, by rw [hcut, if_pos habs], hnone⟩
      · exact ⟨_, by rw [hcut, if_neg (by simp), if_pos rfl], hnone⟩
    refine ⟨h.not_overflow hd htmp, fun _ => ⟨way.length + 1, passes, w.rootfs, -enoent, ?_, by decide⟩⟩
    have hpath := h.pathTmp hd (Nat.lt_succ_self _) path
    rw [htmp] at hpath
    simp only [Rootfs.fsChdir, hpath, hw, hnone, Option.bind_eq_bind, Option.bind_some]

/-- A directory `d` is made in the root directory, with an empty directory `e` in it. -/
def dirCalls : List RootfsCall := [.createFile 0 [slash, 100#8, slash, 101#8] sIfdir true]

theorem dirCalls_tree : ∃ s, Runs.exec call (rootfsInit 0x20010000 0x20020000) dirCalls = some s ∧
    DirTree s ∧ PathTo s 0 [(0, [100#8])] 1 ∧ PathTo s 1 [(1, [101#8])] 2 ∧
      (s.IsDir 1 ∧ (s.inodes 1).iSync = true ∧ (s.inodes 1).iSize ≠ 0) ∧
      (s.IsDir 2 ∧ (s.inodes 2).iSize = 0) ∧ (s.inodes 0).iSize ≠ 0 := by
  have hread : (Runs.exec call (rootfsInit 0x20010000 0x20020000) dirCalls).any (fun s =>
      (0x20020000 ∈ s.dentriesOf 0 ∧ 0x20020080 ∈ s.dentriesOf 1 ∧
        s.dentries 0x20020000 = { dName := [100#8], dInode := 1 } ∧
        s.dentries 0x20020080 = { dName := [101#8], dInode := 2, dParent := 1 }) ∧
      (∀ p ∈ [0, 1, 2], s.WellNamed p ∧ ∀ a ∈ s.dentriesOf p, (s.dentries a).dInode ∈ [0, 1, 2]) ∧
      s.IsDir 0 ∧ (s.IsDir 1 ∧ (s.inodes 1).iSync = true ∧ (s.inodes 1).iSize ≠ 0) ∧
      (s.IsDir 2 ∧ (s.inodes 2).iSize = 0) ∧ (s.inodes 0).iSize ≠ 0) = true := by decide +kernel
  obtain ⟨s, hrun, hs⟩ := (Option.any_eq_true ..).mp hread
  obtain ⟨⟨hmem, hmem', hdentry, hdentry'⟩, hclosed, hroot, hfacts⟩ := of_decide_eq_true hs
  have hway := PathTo.into hroot hmem .here
  have hway' := PathTo.into hfacts.1.1 hmem' .here
  rw [hdentry] at hway
  rw [hdentry'] at hway'
  have hok : Runs.AllOk ThroughDirs call (rootfsInit 0x20010000 0x20020000) dirCalls :=
    ⟨fun hmeets => not_meets_of_empty rfl hmeets.2, fun _ _ => trivial⟩
  exact ⟨s, hrun, dirTree_of_run hok hrun fun hd _ =>
    wellNamed_of_closed List.mem_cons_self hclosed hd, hway, hway', hfacts⟩

theorem dirCalls_inside : ∃ s,
    Runs.exec call (rootfsInit 0x20010000 0x20020000) dirCalls = some s ∧
      ChdirInside s 1 [(0, [100#8])] dotdot := by
  obtain ⟨s, hrun, htree, hway, -⟩ := dirCalls_tree
  exact ⟨s, hrun, (chdirInside_iff htree hway dotdot).mpr (Or.inl (by rw [Fits]; decide))⟩

/-- A name of 127 characters is written behind the end. -/
theorem dirCalls_overflow : ∃ s,
    Runs.exec call (rootfsInit 0x20010000 0x20020000) dirCalls = some s ∧ s.IsDir 1 ∧
      PathTo s 0 [(0, [100#8])] 1 ∧
      ¬ ChdirInside s 1 [(0, [100#8])] (List.replicate 127 97#8) := by
  obtain ⟨s, hrun, htree, hway, -, ⟨hdir, -⟩, -⟩ := dirCalls_tree
  refine ⟨s, hrun, hdir, hway, fun hinside => hinside.1 2 0 ?_⟩
  have hnot : ¬ Fits [(0, [100#8])] (List.replicate 127 97#8) := by
    rw [Fits, if_neg (by decide), List.length_replicate]
    decide
  have hover := combined_of_not_fits hnot
  rw [if_neg (by decide), if_neg (by decide)] at hover
  have hpath := htree.pathTmp hway (Nat.lt_succ_self 1) (List.replicate 127 97#8)
  rw [hover] at hpath
  simp only [Rootfs.fsChdir, hpath, Option.bind_eq_bind, Option.bind_some]

end Rootfs

end Tenok
