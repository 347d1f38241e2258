import Tenok.Fs.Actions

/-!
Walks along paths as sequences of actions. A walk is only led through a file that is not a
directory by `fs_create_file`.
-/
namespace Tenok

theorem PathLoop.along_rule {loop : PathLoop} {G : List (List Byte) → Rootfs → Nat → Prop}
    {Q : Rootfs → Walk → Prop} (hskip : ∀ {es s i}, es ≠ [] → G ([] :: es) s i → G es s i)
    (hend : ∀ {s i w}, G [[]] s i → loop.atEnd s i = some w → Q s w)
    (hvisit : ∀ {entry es s i w} {next : Rootfs → Nat → Option Walk}, entry ≠ [] →
      G (entry :: es) s i → (∀ {t j w}, G es t j → next t j = some w → Q t w) →
      loop.visit next s i entry (es = []) = some w →
      Q s { w with searched := (s.inodes i).iMode :: w.searched })
    {es : List (List Byte)} {s : Rootfs} {i : Nat} {w : Walk} (h : G es s i)
    (hw : loop.along es s i = some w) : Q s w := by
  induction es generalizing s i w with
  | nil => cases hw
  | cons entry es ih =>
      rw [PathLoop.along] at hw
      by_cases hentry : entry = []
      · subst hentry
        rw [if_pos rfl] at hw
        by_cases hes : es = []
        · subst hes
          exact hend h hw
        · rw [if_neg hes] at hw
          exact ih (hskip hes h) hw
      · rw [if_neg hentry] at hw
        obtain ⟨w', hw', hpair⟩ := Option.bind_eq_some_iff.mp hw
        obtain rfl := Option.some.inj hpair
        exact hvisit hentry h ih hw'

def Walk.InDirs (w : Walk) : Prop := ∀ mode ∈ w.searched, mode = sIfdir

theorem Walk.InDirs.cons {w : Walk} {mode : Nat} (h : w.InDirs) (hmode : mode = sIfdir) :
    Walk.InDirs { w with searched := mode :: w.searched } := by
  intro m hm
  obtain rfl | hm := List.mem_cons.mp hm
  · exact hmode
  · exact h m hm

namespace Rootfs
variable {s s' t : Rootfs} {dir i j passes : Nat} {r : Option Nat} {entry : List Byte}
  {es : List (List Byte)} {w : Walk} {p : List (List Byte) → Prop} {strict : Prop}

def Searches (s : Rootfs) (dir : Nat) (entry : List Byte) (s' : Rootfs) (r : Option Nat) : Prop :=
  ∃ passes, s.fsSearchFile passes dir entry = some (s', r)

theorem mountLoop_mono {rdev addr n : Nat} {inode : Option StoredInode} (hle : passes ≤ n)
    (h : mountLoop rdev dir passes s addr inode = some s') :
    mountLoop rdev dir n s addr inode = some s' := by
  induction passes generalizing s addr inode n with
  | zero => cases h
  | succ passes ih =>
      obtain ⟨n, rfl⟩ : ∃ m, n = m + 1 := ⟨n - 1, by omega⟩
      rw [mountLoop] at h ⊢
      obtain ⟨dentry, hdentry, hpass⟩ := Option.bind_eq_some_iff.mp h
      obtain ⟨mnt, hmnt, hmount⟩ := Option.bind_eq_some_iff.mp hpass
      obtain ⟨t, ht, hrest⟩ := Option.bind_eq_some_iff.mp hmount
      simp only [Option.bind_eq_bind, hdentry, hmnt, ht, Option.bind_some]
      split at hrest
      · next hend =>
          rw [if_pos hend]
          exact hrest
      · next hend =>
          rw [if_neg hend]
          exact ih (Nat.le_of_succ_le_succ hle) hrest

theorem fsMountDirectory_mono {rdev n : Nat} {src : StoredInode} (hle : passes ≤ n)
    (h : s.fsMountDirectory passes rdev src dir = some s') :
    s.fsMountDirectory n rdev src dir = some s' := by
  rw [fsMountDirectory] at h ⊢
  split at h
  · next hempty =>
      rw [if_pos hempty]
      exact h
  · next hsize =>
      rw [if_neg hsize]
      obtain ⟨t, hloop, hs'⟩ := Option.bind_eq_some_iff.mp h
      exact Option.bind_eq_some_iff.mpr ⟨t, mountLoop_mono hle hloop, hs'⟩

theorem syncDirectory_mono {n : Nat} (hle : passes ≤ n)
    (h : s.syncDirectory passes dir = some s') : s.syncDirectory n dir = some s' :=
  fsMountDirectory_mono hle h

theorem fsSearchFile_mono {n : Nat} (hle : passes ≤ n)
    (h : s.fsSearchFile passes dir entry = some (s', r)) :
    s.fsSearchFile n dir entry = some (s', r) := by
  rw [fsSearchFile] at h ⊢
  by_cases hempty : (s.inodes dir).iSize = 0
  · rwa [if_pos hempty] at h ⊢
  by_cases hdot : entry = [46#8]
  · rwa [if_neg hempty, if_pos hdot] at h ⊢
  by_cases hdots : entry = [46#8, 46#8]
  · rwa [if_neg hempty, if_neg hdot, if_pos hdots] at h ⊢
  rw [if_neg hempty, if_neg hdot, if_neg hdots] at h ⊢
  cases hsync : (s.inodes dir).iSync with
  | true => simpa only [hsync, if_true] using h
  | false =>
      simp only [hsync, Bool.false_eq_true, if_false] at h ⊢
      obtain ⟨t, hload, hfind⟩ := Option.bind_eq_some_iff.mp h
      exact Option.bind_eq_some_iff.mpr ⟨t, syncDirectory_mono hle hload, hfind⟩

theorem Searches.unique {t : Rootfs} {r' : Option Nat} (h : s.Searches dir entry s' r)
    (h' : s.Searches dir entry t r') : s' = t ∧ r = r' := by
  obtain ⟨passes, hsearch⟩ := h
  obtain ⟨n, hsearch'⟩ := h'
  have hsame := (fsSearchFile_mono (Nat.le_max_left passes n) hsearch).symm.trans
    (fsSearchFile_mono (Nat.le_max_right passes n) hsearch')
  exact Prod.mk.inj (Option.some.inj hsame)

/-- The entries lead through directories to something that is not a directory, with entries like
these behind it. -/
def Meets (p : List (List Byte) → Prop) : List (List Byte) → Rootfs → Nat → Prop
  | [], _, _ => False
  | entry :: es, s, curr =>
      if entry = [] then Meets p es s curr
      else ∃ s' i, s.Searches curr entry s' (some i) ∧
        if (s'.inodes i).iMode = sIfdir then Meets p es s' i else p es

def Named (es : List (List Byte)) : Prop := ∃ entry ∈ es, entry ≠ []

/-- The path goes through a file that is not a directory and has a name behind it. -/
def MeetsFile (s : Rootfs) (pathname : List Byte) : Prop :=
  pathname.head? = some slash ∧ Meets Named (entries pathname.tail) s 0

theorem fsSplitPath_slash {pathname : List Byte} (hslash : pathname.head? = some slash) :
    fsSplitPath pathname =
      some ([], if pathname.tail = [] then none else some pathname.tail) := by
  cases pathname with
  | nil => cases hslash
  | cons c path =>
      obtain rfl := Option.some.inj hslash
      rw [fsSplitPath, if_pos rfl, List.tail_cons]

theorem run_tail (loop : PathLoop) (s : Rootfs) (pathname : List Byte) :
    loop.run pathname.length s 0 (if pathname.tail = [] then none else some pathname.tail) =
      loop.along (entries pathname.tail) s 0 := by
  split
  · next htail =>
      rw [htail]
      cases pathname.length <;> rfl
  · next htail => exact loop.run_eq_along htail (by rw [List.length_tail]; omega) s 0

theorem fsCreateFile_eq {pathname : List Byte} {fileType : Nat} {memory : Bool}
    (hslash : pathname.head? = some slash) :
    s.fsCreateFile passes pathname fileType memory =
      (createLoop passes fileType memory).along (entries pathname.tail) s 0 := by
  rw [fsCreateFile, if_neg (not_not.mpr hslash), fsSplitPath_slash hslash]
  exact run_tail _ s pathname

theorem fsOpenFile_eq {pathname : List Byte} {memory : Bool}
    (hslash : pathname.head? = some slash) :
    s.fsOpenFile passes pathname memory =
      (openLoop passes pathname memory).along (entries pathname.tail) s 0 := by
  rw [fsOpenFile, if_neg (not_not.mpr hslash), fsSplitPath_slash hslash]
  exact run_tail _ s pathname

theorem fsOpenDirectory_eq {pathname : List Byte} (hslash : pathname.head? = some slash) :
    s.fsOpenDirectory passes pathname = if pathname.tail = [] then some ⟨s, some 0, []⟩
      else (directoryLoop passes).along (entries pathname.tail) s 0 := by
  rw [fsOpenDirectory, if_neg (not_not.mpr hslash), fsSplitPath_slash hslash]
  by_cases htail : pathname.tail = []
  · simp [htail]
  · have hrun := run_tail (directoryLoop passes) s pathname
    rw [if_neg htail] at hrun
    simpa only [if_neg htail, Option.bind_eq_bind, Option.bind_some, Option.isNone_some,
      Bool.false_eq_true, if_false] using hrun

theorem InUse.openLoop_acts (strict : Prop) {pathname : List Byte} {memory : Bool} (h : InUse s)
    (hdir : s.IsDir i) (hw : (openLoop passes pathname memory).along es s i = some w) :
    Relation.ReflTransGen (Act strict) s w.rootfs ∧ w.InDirs := by
  refine PathLoop.along_rule (G := fun _ s i => InUse s ∧ s.IsDir i)
    (Q := fun s w => Relation.ReflTransGen (Act strict) s w.rootfs ∧ w.InDirs) (fun _ hG => hG) ?_ ?_
    ⟨h, hdir⟩ hw
  · intro s i w _ hw
    obtain rfl := Option.some.inj hw
    exact ⟨.refl, nofun⟩
  · intro entry es s i w next _ hG hnext hw
    refine (?_ : Relation.ReflTransGen (Act strict) s w.rootfs ∧ w.InDirs).imp_right
      (Walk.InDirs.cons · hG.2.2)
    obtain ⟨⟨t, r⟩, hsearch, hw⟩ := Option.bind_eq_some_iff.mp hw
    obtain ⟨hacts, hfound, -⟩ := hG.1.fsSearchFile hG.2.1 (fun _ => hG.2.2) hsearch
    obtain ⟨ht, hkeeps⟩ := hG.1.acts hacts
    cases r with
    | none =>
        obtain rfl := Option.some.inj hw
        exact ⟨hacts, nofun⟩
    | some j =>
        have hj := hfound j rfl
        dsimp only at hw
        split at hw
        · split at hw
          · obtain rfl := Option.some.inj hw
            exact ⟨hacts, nofun⟩
          · obtain ⟨u, hsync, hw⟩ := Option.bind_eq_some_iff.mp hw
            have hu : Relation.ReflTransGen (Act strict) s u := by
              rw [syncOpened] at hsync
              split at hsync
              · exact hacts.tail (.sync hj hsync)
              · obtain rfl := Option.some.inj hsync
                exact hacts
            split at hw <;> obtain rfl := Option.some.inj hw <;> exact ⟨hu, nofun⟩
        · split at hw
          · obtain rfl := Option.some.inj hw
            exact ⟨hacts, nofun⟩
          · next hmode =>
              exact (hnext ⟨ht, hj, not_not.mp hmode⟩ hw).imp_left hacts.trans

theorem InUse.endDirectory_acts (h : InUse s) (hdir : s.IsDir i)
    (hw : s.endDirectory passes i = some w) :
    Relation.ReflTransGen (Act strict) s w.rootfs ∧ w.InDirs ∧
      ∀ j ∈ w.result, w.rootfs.IsDir j := by
  obtain ⟨t, hload, rfl⟩ := Option.map_eq_some_iff.mp hw
  have hacts : Relation.ReflTransGen (Act strict) s t := by
    split at hload
    · obtain rfl := Option.some.inj hload
      exact .refl
    · next hsync => exact .single (.load hdir.1 (fun _ => hdir.2) (by simpa using hsync) hload)
  refine ⟨hacts, nofun, fun j hj => ?_⟩
  obtain rfl := Option.some.inj hj
  exact (h.acts hacts).2.isDir hdir

theorem InUse.directoryLoop_acts (strict : Prop) (h : InUse s) (hdir : s.IsDir i)
    (hw : (directoryLoop passes).along es s i = some w) :
    Relation.ReflTransGen (Act strict) s w.rootfs ∧ w.InDirs ∧
      ∀ j ∈ w.result, w.rootfs.IsDir j := by
  refine PathLoop.along_rule (G := fun _ s i => InUse s ∧ s.IsDir i)
    (Q := fun s w => Relation.ReflTransGen (Act strict) s w.rootfs ∧ w.InDirs ∧
      ∀ j ∈ w.result, w.rootfs.IsDir j) (fun _ hG => hG)
    (fun hG hend => hG.1.endDirectory_acts hG.2 hend) ?_ ⟨h, hdir⟩ hw
  intro entry es s i w next _ hG hnext hw
  refine (?_ : Relation.ReflTransGen (Act strict) s w.rootfs ∧ w.InDirs ∧
    ∀ j ∈ w.result, w.rootfs.IsDir j).imp_right (And.imp_left (Walk.InDirs.cons · hG.2.2))
  obtain ⟨⟨t, r⟩, hsearch, hw⟩ := Option.bind_eq_some_iff.mp hw
  obtain ⟨hacts, hfound, -⟩ := hG.1.fsSearchFile hG.2.1 (fun _ => hG.2.2) hsearch
  obtain ⟨ht, hkeeps⟩ := hG.1.acts hacts
  cases r with
  | none =>
      obtain rfl := Option.some.inj hw
      exact ⟨hacts, nofun, nofun⟩
  | some j =>
      have hj := hfound j rfl
      dsimp only at hw
      split at hw
      · obtain rfl := Option.some.inj hw
        exact ⟨hacts, nofun, nofun⟩
      · next hmode =>
          have hdir : t.IsDir j := ⟨hj, not_not.mp hmode⟩
          split at hw
          · exact (ht.endDirectory_acts hdir hw).imp_left hacts.trans
          · exact (hnext ⟨ht, hdir⟩ hw).imp_left hacts.trans

/-- With `strict`, as long as there are names. -/
def CreatesIn (strict : Prop) (es : List (List Byte)) (s : Rootfs) (i : Nat) : Prop :=
  InUse s ∧ s.bitmapInodes i = true ∧
    (strict → Named es → (s.inodes i).iMode = sIfdir ∧ ¬ Meets Named es s i)

theorem CreatesIn.skip (h : CreatesIn strict ([] :: es) s i) : CreatesIn strict es s i := by
  refine ⟨h.1, h.2.1, fun hs hnamed => ?_⟩
  have hnamed' : Named ([] :: es) := by
    obtain ⟨entry, hentry, hne⟩ := hnamed
    exact ⟨entry, List.mem_cons_of_mem _ hentry, hne⟩
  simpa only [Meets, if_true] using h.2.2 hs hnamed'

theorem not_meets_of_empty (hempty : (s.inodes i).iSize = 0) : ¬ Meets p es s i := by
  induction es with
  | nil => exact id
  | cons entry es ih =>
      rw [Meets]
      split
      · exact ih
      · rintro ⟨t, j, ⟨passes, hsearch⟩, -⟩
        rw [fsSearchFile, if_pos hempty] at hsearch
        cases hsearch

theorem InUse.createLoop_acts {fileType : Nat} {memory : Bool}
    (h : CreatesIn strict es s i) (hw : (createLoop passes fileType memory).along es s i = some w) :
    Relation.ReflTransGen (Act strict) s w.rootfs ∧ (strict → w.InDirs) := by
  refine PathLoop.along_rule (G := CreatesIn strict)
    (Q := fun s w => Relation.ReflTransGen (Act strict) s w.rootfs ∧ (strict → w.InDirs))
    (fun _ hG => hG.skip) ?_ ?_ h hw
  · intro s i w _ hw
    obtain rfl := Option.some.inj hw
    exact ⟨.refl, fun _ => nofun⟩
  · intro entry es s i w next hentry hG hnext hw
    have hmode : strict → (s.inodes i).iMode = sIfdir := fun hs =>
      (hG.2.2 hs ⟨entry, List.mem_cons_self, hentry⟩).1
    refine (?_ : Relation.ReflTransGen (Act strict) s w.rootfs ∧ (strict → w.InDirs)).imp_right
      fun hdirs hs => (hdirs hs).cons (hmode hs)
    obtain ⟨⟨t, r⟩, hsearch, hw⟩ := Option.bind_eq_some_iff.mp hw
    obtain ⟨hacts, hfound, hready⟩ := hG.1.fsSearchFile hG.2.1 hmode hsearch
    obtain ⟨ht, hkeeps⟩ := hG.1.acts hacts
    have hadd : ∀ {name fileType u r'}, r = none →
        t.fsAddFile i name fileType memory = some (u, r') →
        Relation.ReflTransGen (Act strict) s u := by
      intro name fileType u r' hr hadd
      refine hacts.tail (.add (hkeeps.bits i hG.2.1) (fun hs => ?_) (hready hr) hadd)
      rw [hkeeps.iMode i hG.2.1]
      exact hmode hs
    dsimp only at hw
    split at hw
    · cases r with
      | some j =>
          obtain rfl := Option.some.inj hw
          exact ⟨hacts, fun _ => nofun⟩
      | none =>
          obtain ⟨⟨u, r'⟩, hu, hw⟩ := Option.bind_eq_some_iff.mp hw
          obtain rfl := Option.some.inj hw
          exact ⟨hadd rfl hu, fun _ => nofun⟩
    · cases r with
      | some j =>
          refine (hnext ⟨ht, hfound j rfl, fun hs hnamed => ?_⟩ hw).imp_left hacts.trans
          have hnot := (hG.2.2 hs ⟨entry, List.mem_cons_self, hentry⟩).2
          rw [Meets, if_neg hentry, not_exists] at hnot
          have hthrough := not_and.mp (not_exists.mp (hnot t) j) ⟨passes, hsearch⟩
          by_cases hdir : (t.inodes j).iMode = sIfdir
          · rw [if_pos hdir] at hthrough
            exact ⟨hdir, hthrough⟩
          · rw [if_neg hdir] at hthrough
            exact absurd hnamed hthrough
      | none =>
          obtain ⟨⟨u, r'⟩, hu, hw⟩ := Option.bind_eq_some_iff.mp hw
          have hacts' := hadd rfl hu
          cases r' with
          | none =>
              obtain rfl := Option.some.inj hw
              exact ⟨hacts', fun _ => nofun⟩
          | some j =>
              obtain ⟨huse, -, hnew⟩ := ht.fsAddFile (hkeeps.bits i hG.2.1) hu
              obtain ⟨-, hj, hdir, hempty⟩ := hnew j rfl
              exact (hnext ⟨huse, hj, fun _ _ => ⟨hdir, not_meets_of_empty hempty⟩⟩ hw).imp_left
                hacts'.trans

theorem InUse.fsOpenFile_acts (strict : Prop) {pathname : List Byte} {memory : Bool} (h : InUse s)
    (hw : s.fsOpenFile passes pathname memory = some w) :
    Relation.ReflTransGen (Act strict) s w.rootfs := by
  by_cases hslash : pathname.head? = some slash
  · rw [fsOpenFile_eq hslash] at hw
    exact (h.openLoop_acts strict h.root hw).1
  · rw [fsOpenFile, if_pos hslash] at hw
    obtain rfl := Option.some.inj hw
    exact .refl

theorem InUse.fsOpenDirectory_acts (strict : Prop) {pathname : List Byte} (h : InUse s)
    (hw : s.fsOpenDirectory passes pathname = some w) :
    Relation.ReflTransGen (Act strict) s w.rootfs ∧ ∀ j ∈ w.result, w.rootfs.IsDir j := by
  by_cases hslash : pathname.head? = some slash
  · rw [fsOpenDirectory_eq hslash] at hw
    split at hw
    · obtain rfl := Option.some.inj hw
      refine ⟨.refl, fun j hj => ?_⟩
      obtain rfl := Option.some.inj hj
      exact h.root
    · exact (h.directoryLoop_acts strict h.root hw).imp_right And.right
  · rw [fsOpenDirectory, if_pos hslash] at hw
    obtain rfl := Option.some.inj hw
    exact ⟨.refl, nofun⟩

/-- Files are not created through a file that is not a directory. -/
def ThroughDirs (s : Rootfs) : RootfsCall → Prop
  | .createFile _ pathname _ _ => ¬ MeetsFile s pathname
  | _ => True

/-- Every call is a sequence of actions, which are on directories if files are only created
through directories. -/
theorem InUse.call_acts {e : RootfsCall} (h : InUse s) (hdirs : strict → s.ThroughDirs e)
    (hcall : s.call e = some t) : Relation.ReflTransGen (Act strict) s t := by
  cases e with
  | createFile passes pathname fileType memory =>
      obtain ⟨w, hw, rfl⟩ := Option.map_eq_some_iff.mp hcall
      by_cases hslash : pathname.head? = some slash
      · rw [fsCreateFile_eq hslash] at hw
        exact (InUse.createLoop_acts ⟨h, h.root.1, fun hs _ =>
          ⟨h.root.2, not_and.mp (hdirs hs) hslash⟩⟩ hw).1
      · rw [fsCreateFile, if_pos hslash] at hw
        obtain rfl := Option.some.inj hw
        exact .refl
  | openFile passes pathname memory =>
      obtain ⟨w, hw, rfl⟩ := Option.map_eq_some_iff.mp hcall
      exact h.fsOpenFile_acts strict hw
  | openDirectory passes pathname =>
      obtain ⟨w, hw, rfl⟩ := Option.map_eq_some_iff.mp hcall
      exact (h.fsOpenDirectory_acts strict hw).1
  | mount passes storage source target memory =>
      obtain ⟨device, hdevice, hrest⟩ := Option.bind_eq_some_iff.mp hcall
      have hacts := h.fsOpenFile_acts strict hdevice
      cases hfd : device.result with
      | none =>
          simp only [hfd] at hrest
          obtain rfl := Option.some.inj hrest
          exact hacts
      | some sourceFd =>
          simp only [hfd] at hrest
          obtain ⟨directory, hdirectory, hrest⟩ := Option.bind_eq_some_iff.mp hrest
          obtain ⟨hacts', hdir⟩ := (h.acts hacts).1.fsOpenDirectory_acts strict hdirectory
          have hacts := hacts.trans hacts'
          cases hinode : directory.result with
          | none =>
              simp only [hinode] at hrest
              obtain rfl := Option.some.inj hrest
              exact hacts
          | some target =>
              simp only [hinode] at hrest
              split at hrest
              · cases hrest
              next hready =>
                obtain ⟨inodeRoot, -, hrest⟩ := Option.bind_eq_some_iff.mp hrest
                obtain ⟨u, hmount, hu⟩ := Option.bind_eq_some_iff.mp hrest
                obtain rfl := Option.some.inj hu
                exact hacts.tail (.mount (hdir target hinode)
                  (Nat.le_of_not_lt fun hlt => hready (Or.inr hlt)) hmount)
  | appendBlock ino =>
      obtain ⟨hfile, hcall⟩ := Option.ite_none_right_eq_some.mp hcall
      obtain ⟨⟨_, addr⟩, happ, rfl⟩ := Option.map_eq_some_iff.mp hcall
      exact .single (.append hfile happ)

theorem rootfsInit_inUse (sInoAddr sBlkAddr : Nat) : InUse (rootfsInit sInoAddr sBlkAddr) where
  root := ⟨rfl, rfl⟩
  iIno i hi := by
    have hi' : i = 0 := by simpa [rootfsInit] using hi
    subst hi'
    rfl
  parent i hi := by
    have hi' : i = 0 := by simpa [rootfsInit] using hi
    subst hi'
    rfl
  listed i a ha := by
    simp only [dentriesOf, rootfsInit] at ha
    split at ha <;> exact absurd ha List.not_mem_nil

theorem acts_of_run {sInoAddr sBlkAddr : Nat} {calls : List RootfsCall}
    (hrun : Runs.exec call (rootfsInit sInoAddr sBlkAddr) calls = some s) :
    InUse s ∧ Relation.ReflTransGen (Act False) (rootfsInit sInoAddr sBlkAddr) s := by
  refine Runs.exec_keeps
    (I := fun s => InUse s ∧ Relation.ReflTransGen (Act False) (rootfsInit sInoAddr sBlkAddr) s)
    (fun s e t h hcall => ?_) ⟨rootfsInit_inUse .., .refl⟩ hrun
  have hacts : Relation.ReflTransGen (Act False) s t := h.1.call_acts nofun hcall
  exact ⟨(h.1.acts hacts).1, h.2.trans hacts⟩

end Rootfs

end Tenok
