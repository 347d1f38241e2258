import Tenok.Fs.DirectoryLoads

/-!
Opening the path of the current directory again, which `fs_chdir` does with `.` and `..` behind it.
What is on the way is loaded, and a directory that seems to be empty is not looked into.
-/
namespace Tenok

theorem entries_name {name : List Byte} (hname : slash ∉ name) (rest : List Byte) :
    entries (name ++ slash :: rest) = name :: entries rest := by
  induction name with
  | nil => rw [List.nil_append, entries, if_pos rfl]
  | cons c name ih =>
      obtain ⟨hc, hname⟩ := List.ne_and_not_mem_of_not_mem_cons hname
      rw [List.cons_append, entries, if_neg (Ne.symm hc), ih hname]
      rfl

theorem entries_names {way : List (Nat × List Byte)} (hway : ∀ e ∈ way, slash ∉ e.2)
    (rest : List Byte) : entries ((way.flatMap fun e => e.2 ++ [slash]) ++ rest) =
      way.map Prod.snd ++ entries rest := by
  induction way with
  | nil => rfl
  | cons e way ih =>
      obtain ⟨he, hway⟩ := List.forall_mem_cons.mp hway
      rw [List.flatMap_cons, List.append_assoc, List.append_assoc, List.singleton_append,
        entries_name he, ih hway]
      rfl

namespace Rootfs
variable {s t : Rootfs} {p d i passes : Nat} {way way' : List (Nat × List Byte)}
  {path pathname : List Byte} {es : List (List Byte)}

theorem PathTo.last (h : PathTo s p way d) : (way = [] ∧ d = p) ∨
    ∃ front q a, way = front ++ [(q, (s.dentries a).dName)] ∧ PathTo s p front q ∧ s.IsDir q ∧
      a ∈ s.dentriesOf q ∧ d = (s.dentries a).dInode := by
  induction h with
  | here => exact Or.inl ⟨rfl, rfl⟩
  | @into p a d way hdir ha hway ih =>
      right
      obtain ⟨rfl, rfl⟩ | ⟨front, q, b, rfl, hfront, hq, hb, rfl⟩ := ih
      · exact ⟨[], p, a, rfl, .here, hdir, ha, rfl⟩
      · exact ⟨(p, (s.dentries a).dName) :: front, q, b, rfl, .into hdir ha hfront, hq, hb, rfl⟩

theorem DirTree.way_unique (h : DirTree s) (hd : PathTo s 0 way d) (hd' : PathTo s 0 way' d) :
    way = way' := by
  induction way using List.reverseRecOn generalizing d way' with
  | nil =>
      obtain ⟨-, rfl⟩ | ⟨front, q, a, hway, -⟩ := hd.last
      · obtain ⟨rfl, -⟩ | ⟨front, q, a, -, hfront, hq, ha, hroot⟩ := hd'.last
        · rfl
        · exact absurd hroot.symm (h.child hfront hq a ha).1
      · exact absurd hway (by simp)
  | append_singleton way e ih =>
      obtain ⟨hway, -⟩ | ⟨front, q, a, hway, hfront, hq, ha, rfl⟩ := hd.last
      · exact absurd hway (by simp)
      obtain ⟨rfl, he⟩ := List.append_inj' hway rfl
      obtain ⟨hne, hparent, honce⟩ := h.child hfront hq a ha
      obtain ⟨rfl, hroot⟩ | ⟨front', q', a', rfl, hfront', hq', ha', hsame⟩ := hd'.last
      · exact absurd hroot hne
      · have hparent' := (h.child hfront' hq' a' ha').2.1
        rw [← hsame, hparent] at hparent'
        subst hparent'
        rw [ih hfront hfront', honce a' ha' hsame.symm, he]

theorem DirTree.nodup (h : DirTree s) (hp : PathTo s 0 way' p) (hd : PathTo s p way d) :
    (way.map Prod.fst ++ [d]).Nodup := by
  induction hd generalizing way' with
  | here => exact List.nodup_singleton _
  | @into p a d way hdir ha hway ih =>
      have hchild := hp.child hdir ha
      refine List.nodup_cons.mpr ⟨fun hmem => ?_, ih hchild⟩
      have hback : ∀ {c way d}, PathTo s c way d → p ∈ way.map Prod.fst ++ [d] →
          ∃ front, PathTo s c front p := by
        intro c way d hway hmem
        induction hway with
        | here => exact ⟨[], by rw [List.mem_singleton.mp hmem]; exact .here⟩
        | into hdir ha _ ih =>
            obtain rfl | hmem := List.mem_cons.mp hmem
            · exact ⟨[], .here⟩
            · obtain ⟨front, hfront⟩ := ih hmem
              exact ⟨_, .into hdir ha hfront⟩
      obtain ⟨front, hfront⟩ := hback hway hmem
      have hlen := congrArg List.length (h.way_unique hp (hchild.trans hfront))
      simp only [List.length_append, List.length_singleton] at hlen
      omega

/-- The rest of a path leads from a directory to another one, which is opened. -/
def Arrives (passes : Nat) (s : Rootfs) (d : Nat) (es : List (List Byte)) (i : Nat) : Prop :=
  ∃ w, (if es = [] then s.endDirectory passes d else (directoryLoop passes).along es s d) = some w ∧
    w.result = some i

theorem arrives_cons {entry : List Byte} (hentry : entry ≠ []) :
    Arrives passes s d (entry :: es) i ↔ ∃ t j, s.fsSearchFile passes d entry = some (t, some j) ∧
      (t.inodes j).iMode = sIfdir ∧ Arrives passes t j es i := by
  have hvisit : Arrives passes s d (entry :: es) i ↔ ∃ w, (directoryLoop passes).visit
      (fun t j => (directoryLoop passes).along es t j) s d entry (es = []) = some w ∧
      w.result = some i := by
    rw [Arrives, if_neg (List.cons_ne_nil entry es), PathLoop.along, if_neg hentry]
    cases (directoryLoop passes).visit (fun t j => (directoryLoop passes).along es t j) s d entry
      (es = []) <;> simp
  rw [hvisit]
  cases hsearch : s.fsSearchFile passes d entry with
  | none => simp [directoryLoop, hsearch]
  | some found =>
      obtain ⟨t, r⟩ := found
      cases r with
      | none => simp [directoryLoop, hsearch]
      | some j =>
          by_cases hdir : (t.inodes j).iMode = sIfdir
          · by_cases hes : es = [] <;> simp [directoryLoop, hsearch, hdir, hes, Arrives]
          · simp [directoryLoop, hsearch, hdir]

/-- Walking down the tree along names loads the directories on the way, and fails at one that seems
to be empty. -/
theorem Slots.arrives_iff (hslots : Slots s none) (huse : InUse s) (hway : PathTo s p way d)
    (hdir : s.IsDir d) (hnames : ∀ e ∈ way, WellNamed s e.1)
    (hnodup : (way.map Prod.fst ++ [d]).Nodup) :
    Arrives passes s p (way.map Prod.snd ++ es) i ↔ (∀ e ∈ way, (s.inodes e.1).iSize ≠ 0) ∧
      ∃ t, Rootfs.loadDirs passes (way.map Prod.fst) s = some t ∧ Arrives passes t d es i := by
  induction way generalizing s p with
  | nil =>
      cases hway
      simp [Rootfs.loadDirs]
  | cons e way ih =>
      cases hway with
      | @into p a d way hp' ha hrest =>
          obtain ⟨hp, hnodup⟩ := List.nodup_cons.mp hnodup
          obtain ⟨hnames₀, hnames⟩ := List.forall_mem_cons.mp hnames
          obtain ⟨hchild, hdirs⟩ := hrest.isDir hdir
          rw [List.map_cons, List.cons_append, arrives_cons (hnames₀ a ha).1.1,
            hslots.fsSearchFile huse hp' hnames₀ ha, List.forall_mem_cons, List.map_cons,
            Rootfs.loadDirs]
          by_cases hsize : (s.inodes p).iSize = 0
          · simp [hsize]
          rw [if_neg hsize, and_iff_right hsize]
          cases hload : s.loadDir passes p with
          | none => simp
          | some t =>
              obtain ⟨⟨ht, hslots', -, hext⟩, -⟩ := hslots.loadDir huse hp' hload
              have hothers : ∀ e ∈ way, e.1 ≠ p := by
                intro e he heq
                have hmem := List.mem_map_of_mem (f := Prod.fst) he
                rw [heq] at hmem
                exact hp (List.mem_append_left _ hmem)
              have hstep := ih hslots' ht (hrest.extends hext) (hext.keeps.isDir hdir)
                (fun e he => (hnames e he).extends (hdirs e he).1 (hothers e he) hext) hnodup
              have hsizes : (∀ e ∈ way, (t.inodes e.1).iSize ≠ 0) ↔
                  ∀ e ∈ way, (s.inodes e.1).iSize ≠ 0 := by
                refine forall₂_congr fun e he => ?_
                rw [hext.others e.1 (hdirs e he).1 (hothers e he)]
              rw [hsizes] at hstep
              simp only [Option.map_some, Option.some.injEq, Prod.mk.injEq, Option.bind_some]
              refine Iff.trans ⟨?_, fun harrives => ?_⟩ hstep
              · rintro ⟨_, _, ⟨rfl, rfl⟩, -, harrives⟩
                exact harrives
              · exact ⟨t, _, ⟨rfl, rfl⟩, (hext.keeps.isDir hchild).2, harrives⟩

theorem arrives_nil : Arrives passes s d [] i ↔ d = i ∧ (s.loadDir passes d).isSome := by
  have hend : s.endDirectory passes d = (s.loadDir passes d).map fun t => ⟨t, some d, []⟩ := rfl
  rw [Arrives, if_pos rfl, hend]
  cases s.loadDir passes d <;> simp

def OpensAs (s : Rootfs) (pathname : List Byte) (i : Nat) : Prop :=
  ∃ passes w, s.fsOpenDirectory passes pathname = some w ∧ w.result = some i

/-- `fs_chdir` answers 0, and this is the current directory then. -/
def ChdirTo (s : Rootfs) (d : Nat) (path : List Byte) (i : Nat) : Prop :=
  ∃ depth passes t, s.fsChdir depth passes d path = some (.returned t i 0)

/-- The directories can be loaded, one after the other. -/
def Loadable (s : Rootfs) (ps : List Nat) : Prop :=
  ∃ passes, (Rootfs.loadDirs passes ps s).isSome

theorem DirTree.opensAs_iff (h : DirTree s) :
    OpensAs s (slash :: path) i ↔ ∃ passes, Arrives passes s 0 (entries path) i := by
  refine exists_congr fun passes => ?_
  rw [fsOpenDirectory_eq rfl, List.tail_cons]
  by_cases hpath : path = []
  · have hroot : s.loadDir passes 0 = some s := if_pos h.root
    rw [if_pos hpath, hpath, entries, arrives_nil, hroot]
    simp
  · rw [if_neg hpath, Arrives, if_neg (mt entries_eq_nil.mp hpath)]

theorem DirTree.chdirTo_iff (h : DirTree s) (hd : PathTo s 0 way d) :
    ChdirTo s d path i ↔ ∃ tmp, combined way path = some tmp ∧ OpensAs s tmp i := by
  constructor
  · rintro ⟨depth, passes, t, hchdir⟩
    obtain ⟨-, hr⟩ | ⟨tmp, w, htmp, hw, ⟨-, hr⟩ | ⟨j, hj, hr⟩⟩ := fsChdir_cases h.use hchdir
    · cases hr
    · injection hr with _ _ hretval
      exact absurd hretval (by decide)
    · injection hr with _ hij _
      exact ⟨tmp, (h.eq_combined hd htmp).symm, passes, w, hw, hij ▸ hj⟩
  · rintro ⟨tmp, htmp, passes, w, hw, hi⟩
    have hpath := h.pathTmp hd (Nat.lt_succ_self _) path
    have hdir := (h.use.fsOpenDirectory_acts False hw).2 i hi
    refine ⟨way.length + 1, passes, w.rootfs, ?_⟩
    rw [htmp] at hpath
    simp [Rootfs.fsChdir, hpath, hw, hi, hdir.2]

theorem DirTree.wellNamed (h : DirTree s) (hp : PathTo s 0 way' p) (hd : PathTo s p way d) :
    ∀ e ∈ way, WellNamed s e.1 ∧ slash ∉ e.2 := by
  induction hd generalizing way' with
  | here => exact nofun
  | @into p a d way hdir ha _ ih =>
      have hnames := h.names hp hdir
      exact List.forall_mem_cons.mpr ⟨⟨hnames, (hnames a ha).1.2.1⟩, ih (hp.child hdir ha)⟩

theorem DirTree.opensAs_pathOf (h : DirTree s) (hd : PathTo s 0 way d) (hdir : s.IsDir d)
    (path : List Byte) : OpensAs s (pathOf way ++ path) i ↔
      (∀ e ∈ way, (s.inodes e.1).iSize ≠ 0) ∧ ∃ passes t,
        Rootfs.loadDirs passes (way.map Prod.fst) s = some t ∧ Arrives passes t d (entries path) i := by
  have hnames := h.wellNamed .here hd
  have hwalk : ∀ passes, Arrives passes s 0 (entries ((way.flatMap fun e => e.2 ++ [slash]) ++ path)) i ↔
      (∀ e ∈ way, (s.inodes e.1).iSize ≠ 0) ∧ ∃ t,
        Rootfs.loadDirs passes (way.map Prod.fst) s = some t ∧ Arrives passes t d (entries path) i := by
    intro passes
    rw [entries_names fun e he => (hnames e he).2]
    exact h.slots.arrives_iff h.use hd hdir (fun e he => (hnames e he).1) (h.nodup .here hd)
  rw [pathOf, List.cons_append, h.opensAs_iff]
  simp only [hwalk, exists_and_left]

theorem DirTree.opensAs_self (h : DirTree s) (hd : PathTo s 0 way d) (hdir : s.IsDir d) :
    OpensAs s (pathOf way) d ↔
      (∀ e ∈ way, (s.inodes e.1).iSize ≠ 0) ∧ Loadable s (way.map Prod.fst ++ [d]) := by
  have hopens := h.opensAs_pathOf (i := d) hd hdir []
  rw [List.append_nil] at hopens
  rw [hopens, Loadable]
  refine and_congr_right fun _ => exists_congr fun passes => ?_
  rw [loadDirs_append]
  cases Rootfs.loadDirs passes (way.map Prod.fst) s with
  | none => simp
  | some t =>
      simp only [entries, arrives_nil, Option.some.injEq, exists_eq_left', true_and,
        Option.bind_some, Rootfs.loadDirs]
      cases t.loadDir passes d <;> rfl

/-- What `fs_getcwd` answers for a directory whose path fits leads there again exactly if all
directories above have their dentries, and these and the directory itself can be loaded. -/
theorem getcwd_opens_iff (h : DirTree s) (hd : PathTo s 0 way d) (hdir : s.IsDir d)
    (hfits : (pathOf way).length < pathMax) {len : Nat} (hlen : pathMax ≤ len) :
    ∃ cwd, (∀ depth, way.length < depth → s.fsGetcwd depth d len = some cwd) ∧
      ((OpensAs s cwd d ∧ ChdirTo s d cwd d) ↔
        (∀ e ∈ way, (s.inodes e.1).iSize ≠ 0) ∧ Loadable s (way.map Prod.fst ++ [d])) := by
  refine ⟨pathOf way, fun depth hdepth => h.fsGetcwd_fits hd hdepth hfits hlen, ?_⟩
  have habs : (pathOf way).head? = some slash := rfl
  have hcombined : combined way (pathOf way) = some (pathOf way) := by
    rw [combined, if_pos habs, List.take_of_length_le (by omega)]
  rw [h.chdirTo_iff hd, hcombined, ← h.opensAs_self hd hdir]
  simp only [Option.some.injEq, exists_eq_left', and_self]

theorem dirCalls_opens : ∃ s cwd,
    Runs.exec call (rootfsInit 0x20010000 0x20020000) dirCalls = some s ∧
      s.fsGetcwd 2 1 pathMax = some cwd ∧ OpensAs s cwd 1 ∧ ChdirTo s 1 cwd 1 := by
  obtain ⟨s, hrun, htree, hway, -, ⟨hdir, hsync, -⟩, -, hsize⟩ := dirCalls_tree
  obtain ⟨cwd, hcwd, hiff⟩ := getcwd_opens_iff htree hway hdir (by decide) (Nat.le_refl pathMax)
  refine ⟨s, cwd, hrun, hcwd 2 (by decide), hiff.mpr ⟨by simpa using hsize, 0, ?_⟩⟩
  simp [Rootfs.loadDirs, loadDir, htree.root, hsync]

theorem syncDirectory_unreadable (hsize : (s.inodes d).iSize ≠ 0)
    (hread : (s.storages (s.inodes d).iRdev).dentry (s.inodes d).iData = none) (passes : Nat) :
    s.syncDirectory passes d = none := by
  have hloop : ∀ {t : Rootfs}, t.storages = s.storages →
      mountLoop (s.inodes d).iRdev d passes t (s.inodes d).iData none = none := by
    intro t ht
    cases passes with
    | zero => rfl
    | succ passes =>
        rw [mountLoop, ht, hread]
        rfl
  rw [syncDirectory, fsMountDirectory, if_neg (show (storedInode (s.inodes d)).iSize ≠ 0 from hsize)]
  refine (congrArg (Option.bind · _) (hloop ?_)).trans rfl
  split <;> rfl

/-- The image of a root directory with an empty directory, `f`, and nothing behind it. -/
def shortImage : Storage where
  read offset size := if offset + size ≤ 10056 then (fileImage 4#8).read offset size else none

/-- The image is mounted at the root directory, and a directory `e` is made in `f`. -/
def shortCalls : List RootfsCall :=
  [.createFile 0 [slash, 98#8] sIfblk true, .mount 1 shortImage [slash, 98#8] [slash] true,
    .createFile 0 [slash, 102#8, slash, 101#8] sIfdir true]

theorem shortCalls_ok :
    Runs.AllOk ThroughDirs call (rootfsInit 0x20010000 0x20020000) shortCalls := by
  refine ⟨fun hmeets => not_meets_of_empty rfl hmeets.2, fun t ht =>
    ⟨trivial, fun u hu => ⟨fun hmeets => ?_, fun _ _ => trivial⟩⟩⟩
  have hread : ((call (rootfsInit 0x20010000 0x20020000) shortCalls[0]).bind fun t =>
      call t shortCalls[1]).all (fun u => (u.fsSearchFile 0 0 [102#8]).any fun found =>
        found.2 = some 2 ∧ (found.1.inodes 2).iMode = sIfdir ∧ (found.1.inodes 2).iSize = 0) =
          true := by decide +kernel
  have ht' : call (rootfsInit 0x20010000 0x20020000) shortCalls[0] = some t := ht
  have hu' : call t shortCalls[1] = some u := hu
  rw [ht', Option.bind_some, hu', Option.all_some] at hread
  obtain ⟨⟨v, r⟩, hsearch, hfacts⟩ := (Option.any_eq_true ..).mp hread
  obtain ⟨hr, hdir, hempty⟩ := of_decide_eq_true hfacts
  have hway : Meets Named [[102#8], [101#8]] u 0 := hmeets.2
  obtain ⟨v', j, hfound, hrest⟩ := hway
  obtain ⟨rfl, hj⟩ := hfound.unique ⟨0, hsearch⟩
  obtain rfl := Option.some.inj (hj.trans hr)
  rw [if_pos hdir] at hrest
  exact not_meets_of_empty hempty hrest

/-- The current directory is `f`, which has a dentry but is not loaded: `fs_open_directory` looks
for its dentries on the storage, at the address of the dentry in memory. -/
theorem shortCalls_not_opens : ∃ s cwd,
    Runs.exec call (rootfsInit 0x20010000 0x20020000) shortCalls = some s ∧ DirTree s ∧
      PathTo s 0 [(0, [102#8])] 2 ∧ s.IsDir 2 ∧ (pathOf [(0, [102#8])]).length < pathMax ∧
      s.fsGetcwd 2 2 pathMax = some cwd ∧ ¬ OpensAs s cwd 2 := by
  have hread : (Runs.exec call (rootfsInit 0x20010000 0x20020000) shortCalls).any (fun s =>
      ((s.dentriesOf 0).any fun a => s.dentries a = { dName := [102#8], dInode := 2 }) ∧
      (∀ p ∈ [0, 1, 2, 3], s.WellNamed p ∧
        ∀ a ∈ s.dentriesOf p, (s.dentries a).dInode ∈ [0, 1, 2, 3]) ∧
      s.IsDir 0 ∧ s.IsDir 2 ∧ (s.inodes 2).iSync = false ∧ (s.inodes 2).iSize ≠ 0 ∧
      (s.storages (s.inodes 2).iRdev).dentry (s.inodes 2).iData = none) = true := by
    decide +kernel
  obtain ⟨s, hrun, hs⟩ := (Option.any_eq_true ..).mp hread
  obtain ⟨hentry, hclosed, hroot, hdir, hsync, hsize, hnone⟩ := of_decide_eq_true hs
  obtain ⟨a, ha, hdentry⟩ := List.any_eq_true.mp hentry
  have hway := PathTo.into hroot ha .here
  rw [of_decide_eq_true hdentry] at hway
  have htree : DirTree s := dirTree_of_run shortCalls_ok hrun fun hd _ =>
    wellNamed_of_closed List.mem_cons_self hclosed hd
  refine ⟨s, _, hrun, htree, hway, hdir, by decide,
    htree.fsGetcwd_fits hway (by decide) (by decide) (Nat.le_refl _), fun hopens => ?_⟩
  obtain ⟨-, passes, hload⟩ := (htree.opensAs_self hway hdir).mp hopens
  have hroot' : s.loadDir passes 0 = some s := if_pos htree.root
  have hlast : s.loadDir passes 2 = none := by
    rw [loadDir, if_neg (by simp [hsync])]
    exact syncDirectory_unreadable hsize hnone passes
  simp [Rootfs.loadDirs, hroot', hlast] at hload

theorem fsSearchFile_dot : s.fsSearchFile passes d [46#8] =
    if (s.inodes d).iSize = 0 then some (s, none) else some (s, some d) := by
  rw [Rootfs.fsSearchFile, if_pos rfl]

theorem fsSearchFile_dotdot : s.fsSearchFile passes d dotdot =
    if (s.inodes d).iSize = 0 then some (s, none) else some (s, some (s.inodes d).iParent) := by
  rw [Rootfs.fsSearchFile, if_neg (by decide : dotdot ≠ [46#8])]
  rfl

theorem DirTree.loaded (h : DirTree s) (hd : PathTo s 0 way d) (hdir : s.IsDir d)
    (hload : Rootfs.loadDirs passes (way.map Prod.fst) s = some t) :
    t.inodes d = s.inodes d ∧ Keeps s t ∧
      ∀ e ∈ way, (s.inodes e.1).iSize ≠ 0 → (t.inodes e.1).iSync = true := by
  obtain ⟨hnodup, -, hapart⟩ := List.nodup_append.mp (h.nodup .here hd)
  have hdirs : ∀ p ∈ way.map Prod.fst, s.IsDir p := by
    intro p hp
    obtain ⟨e, he, rfl⟩ := List.mem_map.mp hp
    exact (hd.isDir hdir).2 e he
  obtain ⟨-, -, hkeeps, hothers, hsynced⟩ := h.slots.loadDirs h.use hdirs hnodup hload
  refine ⟨hothers d hdir.1 fun hmem => hapart d hmem d (List.mem_singleton_self d) rfl, hkeeps,
    fun e he => hsynced e.1 (List.mem_map_of_mem he)⟩

theorem combined_relative {P : List Byte → Prop} (hrel : path.head? ≠ some slash)
    (hne : path ≠ []) : (∃ tmp, combined way path = some tmp ∧ P tmp) ↔
      Fits way path ∧ P (pathOf way ++ path) := by
  by_cases hfits : Fits way path
  · rw [combined_of_fits hfits, if_neg hrel]
    simp [hfits]
  · rw [combined_of_not_fits hfits, if_neg hrel, if_neg hne]
    simp [hfits]

theorem DirTree.chdir_dot (h : DirTree s) (hd : PathTo s 0 way d) (hdir : s.IsDir d) :
    ChdirTo s d [46#8] d ↔ Fits way [46#8] ∧ (∀ e ∈ way, (s.inodes e.1).iSize ≠ 0) ∧
      (s.inodes d).iSize ≠ 0 ∧ Loadable s (way.map Prod.fst ++ [d]) := by
  rw [h.chdirTo_iff hd, combined_relative (by decide) (by decide), h.opensAs_pathOf hd hdir, Loadable,
    ← exists_and_left (b := (s.inodes d).iSize ≠ 0)]
  refine and_congr_right fun _ => and_congr_right fun _ => exists_congr fun passes => ?_
  rw [loadDirs_append]
  cases hload : Rootfs.loadDirs passes (way.map Prod.fst) s with
  | none => simp
  | some t =>
      obtain ⟨hsame, hkeeps, -⟩ := h.loaded hd hdir hload
      have hentry : entries [46#8] = [[46#8]] := by decide
      have hmode : (t.inodes d).iMode = sIfdir := (hkeeps.isDir hdir).2
      simp only [Option.some.injEq, exists_eq_left', hentry, Option.bind_some, Rootfs.loadDirs,
        arrives_cons (List.cons_ne_nil _ _), arrives_nil, fsSearchFile_dot, hsame]
      by_cases hsize : (s.inodes d).iSize = 0
      · simp [hsize]
      · cases hlast : t.loadDir passes d <;> simp [hsize, hmode, hlast]

theorem DirTree.chdir_dotdot (h : DirTree s) (hd : PathTo s 0 way d) (hdir : s.IsDir d)
    (hroot : d ≠ 0) : ChdirTo s d dotdot (s.inodes d).iParent ↔
      Fits way dotdot ∧ (∀ e ∈ way, (s.inodes e.1).iSize ≠ 0) ∧ (s.inodes d).iSize ≠ 0 ∧
        Loadable s (way.map Prod.fst) := by
  rw [h.chdirTo_iff hd, combined_relative (by decide) (by decide), h.opensAs_pathOf hd hdir, Loadable,
    ← exists_and_left (b := (s.inodes d).iSize ≠ 0)]
  refine and_congr_right fun _ => and_congr_right fun hsizes => exists_congr fun passes => ?_
  cases hload : Rootfs.loadDirs passes (way.map Prod.fst) s with
  | none => simp
  | some t =>
      obtain ⟨hsame, hkeeps, hsynced⟩ := h.loaded hd hdir hload
      have hentry : entries dotdot = [dotdot] := by decide
      have hdots : dotdot ≠ [] := by decide
      obtain ⟨-, rfl⟩ | ⟨front, q, a, rfl, hfront, hq, ha, rfl⟩ := hd.last
      · exact absurd rfl hroot
      have hparent := (h.child hfront hq a ha).2.1
      have hmode : (t.inodes q).iMode = sIfdir := (hkeeps.isDir hq).2
      have hlast : t.loadDir passes q = some t := by
        have hmem : (q, (s.dentries a).dName) ∈ front ++ [(q, (s.dentries a).dName)] := by simp
        exact if_pos (hsynced _ hmem (hsizes _ hmem))
      simp only [Option.some.injEq, exists_eq_left', hentry, arrives_cons hdots, arrives_nil,
        fsSearchFile_dotdot, hsame, hparent]
      by_cases hsize : (s.inodes (s.dentries a).dInode).iSize = 0
      · simp [hsize]
      · simp [hsize, hmode, hlast]

/-- Going up from a directory and staying there both work exactly if there is room for the path, no
directory on it seems to be empty, also not the last one, and all can be loaded. -/
theorem chdir_dots_iff (h : DirTree s) (hd : PathTo s 0 way d) (hdir : s.IsDir d) (hroot : d ≠ 0) :
    (ChdirTo s d dotdot (s.inodes d).iParent ∧ ChdirTo s d [46#8] d) ↔
      (pathOf way).length + 2 < pathMax ∧ (∀ e ∈ way, (s.inodes e.1).iSize ≠ 0) ∧
        (s.inodes d).iSize ≠ 0 ∧ Loadable s (way.map Prod.fst ++ [d]) := by
  have hall : Loadable s (way.map Prod.fst ++ [d]) → Loadable s (way.map Prod.fst) := by
    rintro ⟨passes, hload⟩
    rw [loadDirs_append] at hload
    exact ⟨passes, Option.isSome_of_isSome_bind hload⟩
  have hdots : Fits way dotdot ↔ (pathOf way).length + 2 < pathMax := Iff.rfl
  have hdot : Fits way [46#8] ↔ (pathOf way).length + 1 < pathMax := Iff.rfl
  rw [h.chdir_dotdot hd hdir hroot, h.chdir_dot hd hdir, hdots, hdot]
  constructor
  · rintro ⟨⟨hfits, hsizes, hsize, -⟩, -, -, -, hload⟩
    exact ⟨hfits, hsizes, hsize, hload⟩
  · rintro ⟨hfits, hsizes, hsize, hload⟩
    exact ⟨⟨hfits, hsizes, hsize, hall hload⟩, by omega, hsizes, hsize, hload⟩

theorem dirCalls_dots : ∃ s,
    Runs.exec call (rootfsInit 0x20010000 0x20020000) dirCalls = some s ∧
      ChdirTo s 1 dotdot (s.inodes 1).iParent ∧ ChdirTo s 1 [46#8] 1 := by
  obtain ⟨s, hrun, htree, hway, -, ⟨hdir, hsync, hentries⟩, -, hsize⟩ := dirCalls_tree
  refine ⟨s, hrun, (chdir_dots_iff htree hway hdir (by decide)).mpr
    ⟨by decide, by simpa using hsize, hentries, 0, ?_⟩⟩
  simp [Rootfs.loadDirs, loadDir, htree.root, hsync]

/-- There is no way out of an empty directory. -/
theorem dirCalls_not_dots : ∃ s,
    Runs.exec call (rootfsInit 0x20010000 0x20020000) dirCalls = some s ∧ DirTree s ∧
      PathTo s 0 [(0, [100#8]), (1, [101#8])] 2 ∧ s.IsDir 2 ∧
      (pathOf [(0, [100#8]), (1, [101#8])]).length < pathMax ∧
      ¬ ChdirTo s 2 dotdot (s.inodes 2).iParent ∧ ¬ ChdirTo s 2 [46#8] 2 := by
  obtain ⟨s, hrun, htree, hway, hway', -, ⟨hdir, hempty⟩, -⟩ := dirCalls_tree
  have hdeep : PathTo s 0 [(0, [100#8]), (1, [101#8])] 2 := hway.trans hway'
  refine ⟨s, hrun, htree, hdeep, hdir, by decide, fun hup => ?_, fun hstay => ?_⟩
  · exact ((htree.chdir_dotdot hdeep hdir (by decide)).mp hup).2.2.1 hempty
  · exact ((htree.chdir_dot hdeep hdir).mp hstay).2.2.1 hempty

end Rootfs

end Tenok
