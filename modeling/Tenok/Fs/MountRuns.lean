import Mathlib.Algebra.BigOperators.Group.Finset.Piecewise
import Mathlib.Algebra.Order.BigOperators.Group.Finset
import Tenok.Fs.DirectoryLoads
import Tenok.Fs.MountSpace
import Tenok.Fs.PathSafety

/-!
When mounting ends. A directory is loaded to its end exactly if the list of its dentries has one and
the blocks are enough, and `fs_mount` exactly if this holds of everything that it loads on its way.
-/
namespace Tenok

namespace Rootfs
variable {s s' t u : Rootfs} {dir d i ino rdev n addr passes fileType : Nat} {mnt src : StoredInode}
  {name fileName entry : List Byte} {inode added : Inode} {mounting : Option Nat} {memory : Bool}
  {r : Option Nat} {strict : Prop} {es : List (List Byte)} {w : Walk}

/-- What holds in front of every mount, and while files are mounted. -/
structure Prepared (s : Rootfs) (mounting : Option Nat) : Prop where
  use : InUse s
  counted : ∃ ahead, Counted s ahead
  unused : ∀ i, s.bitmapInodes i = false → (s.inodes i).iMode ≠ sIfdir
  listed : ∀ i, s.bitmapInodes i = true → (s.inodes i).iSync = false → (s.inodes i).iDentry ≠ none
  filled : ∀ d, (s.IsDir d ∧ (s.inodes d).iSync = true) ∨ mounting = some d → ∃ n, Filling s d n

theorem Prepared.newFile (h : Prepared s mounting) (hnew : NewFile s t dir ino addr added)
    (huse : InUse t) (hcounted : ∃ ahead, Counted t ahead) (honly : ∀ d ∈ mounting, d = dir)
    (hlist : added.iSync = false → added.iDentry ≠ none)
    (hempty : added.iMode = sIfdir → added.iSync = true →
      added.iDentry ≠ none ∧ added.iSize = 0 ∧ added.iBlocks = 0) : Prepared t mounting := by
  obtain ⟨iData, hinode⟩ := hnew.counts
  have hcount := countP_range_update hnew.bound hnew.free
  rw [← hnew.bits] at hcount
  have hold : ∀ {j}, j ≠ ino → t.bitmapInodes j = s.bitmapInodes j := fun hj => by
    rw [hnew.bits, Function.update_of_ne hj]
  refine ⟨huse, hcounted, fun j hj => ?_, fun j hj hsync => ?_, fun d hd => ?_⟩
  · have hne : j ≠ ino := by
      rintro rfl
      rw [hnew.bits, Function.update_self] at hj
      cases hj
    rw [hold hne] at hj
    by_cases hjdir : j = dir
    · subst hjdir
      rw [hinode]
      exact h.unused j hj
    · rw [hnew.others j hne hjdir]
      exact h.unused j hj
  · by_cases hjino : j = ino
    · subst hjino
      rw [hnew.inode] at hsync ⊢
      exact hlist hsync
    rw [hold hjino] at hj
    by_cases hjdir : j = dir
    · subst hjdir
      rw [hinode]
      exact Option.some_ne_none _
    · rw [hnew.others j hjino hjdir] at hsync ⊢
      exact h.listed j hj hsync
  · by_cases hdino : d = ino
    · subst hdino
      obtain ⟨hdir, hsync⟩ := hd.resolve_right fun hd => hnew.ne (honly d hd).symm
      obtain ⟨hbit, hmode⟩ := hdir
      rw [hnew.inode] at hmode hsync
      obtain ⟨hdentry, hsize, hblocks⟩ := hempty hmode hsync
      exact ⟨0, .empty hcounted hbit (by rwa [hnew.inode]) (by rwa [hnew.inode])
        (by rwa [hnew.inode])⟩
    by_cases hddir : d = dir
    · subst hddir
      have hd' : (s.IsDir d ∧ (s.inodes d).iSync = true) ∨ mounting = some d := by
        refine hd.imp_left fun ⟨⟨hbit, hmode⟩, hsync⟩ => ?_
        rw [hold hdino] at hbit
        rw [hinode] at hmode hsync
        exact ⟨⟨hbit, hmode⟩, hsync⟩
      obtain ⟨n, hfilling⟩ := h.filled d hd'
      exact ⟨n + 1, hfilling.newFile hnew hcounted⟩
    · have hsame := hnew.others d hdino hddir
      have hd' : (s.IsDir d ∧ (s.inodes d).iSync = true) ∨ mounting = some d := by
        refine hd.imp_left fun ⟨⟨hbit, hmode⟩, hsync⟩ => ?_
        rw [hold hdino] at hbit
        rw [hsame] at hmode hsync
        exact ⟨⟨hbit, hmode⟩, hsync⟩
      obtain ⟨n, hfilling⟩ := h.filled d hd'
      exact ⟨n, hfilling.same hcounted (by rw [hold hdino]; exact hfilling.inUse) (by rw [hsame])
        (by rw [hsame]) (by rw [hsame]) (hcount ▸ Nat.le_succ _)⟩

theorem Prepared.update {mounting' : Option Nat} (h : Prepared s mounting) (huse : InUse t)
    (hcounted : ∃ ahead, Counted t ahead) (hbits : t.bitmapInodes = s.bitmapInodes)
    (hinodes : t.inodes = Function.update s.inodes i inode) (hbit : s.bitmapInodes i = true)
    (hlist : inode.iDentry = (s.inodes i).iDentry)
    (hsync : inode.iSync = false → (s.inodes i).iSync = false)
    (hothers : ∀ d ≠ i, mounting' = some d → mounting = some d)
    (hmode : inode.iMode = (s.inodes i).iMode)
    (hfilled : ((s.inodes i).iMode = sIfdir ∧ inode.iSync = true) ∨ mounting' = some i →
      ∃ n, Filling t i n) : Prepared t mounting' := by
  have hother : ∀ {j}, j ≠ i → t.inodes j = s.inodes j := fun hj => by
    rw [hinodes, Function.update_of_ne hj]
  have hself : t.inodes i = inode := by rw [hinodes, Function.update_self]
  refine ⟨huse, hcounted, fun j hj => ?_, fun j hj hj' => ?_, fun d hd => ?_⟩
  · rw [hbits] at hj
    have hne : j ≠ i := by
      rintro rfl
      rw [hbit] at hj
      cases hj
    rw [hother hne]
    exact h.unused j hj
  · rw [hbits] at hj
    by_cases hji : j = i
    · subst hji
      rw [hself] at hj' ⊢
      rw [hlist]
      exact h.listed j hj (hsync hj')
    · rw [hother hji] at hj' ⊢
      exact h.listed j hj hj'
  · by_cases hdi : d = i
    · subst hdi
      refine hfilled (hd.imp_left fun ⟨⟨_, hdir⟩, hs⟩ => ?_)
      rw [hself] at hdir hs
      exact ⟨hmode ▸ hdir, hs⟩
    · have hd' : (s.IsDir d ∧ (s.inodes d).iSync = true) ∨ mounting = some d := by
        refine hd.imp (fun ⟨⟨hb, hm⟩, hs⟩ => ?_) (hothers d hdi)
        rw [hbits] at hb
        rw [hother hdi] at hm hs
        exact ⟨⟨hb, hm⟩, hs⟩
      obtain ⟨n, hfilling⟩ := h.filled d hd'
      exact ⟨n, hfilling.same hcounted (by rw [hbits]; exact hfilling.inUse)
        (by rw [hother hdi]) (by rw [hother hdi]) (by rw [hother hdi]) (by rw [hbits])⟩

theorem Prepared.same (h : Prepared s mounting) (huse : InUse t) (hinodes : t.inodes = s.inodes)
    (hbits : t.bitmapInodes = s.bitmapInodes) (hcounted : ∃ ahead, Counted t ahead) :
    Prepared t mounting := by
  refine ⟨huse, hcounted, ?_, ?_, fun d hd => ?_⟩
  · rw [hbits, hinodes]
    exact h.unused
  · rw [hbits, hinodes]
    exact h.listed
  · rw [IsDir, hbits, hinodes] at hd
    obtain ⟨n, hfilling⟩ := h.filled d hd
    exact ⟨n, hfilling.same hcounted (by rw [hbits]; exact hfilling.inUse) (by rw [hinodes])
      (by rw [hinodes]) (by rw [hinodes]) (by rw [hbits])⟩

/-- In front of the loop of `fs_mount_directory` the directory counts its dentries, or nothing. -/
theorem Prepared.startMounting (h : Prepared s none) (hdir : s.bitmapInodes dir = true)
    (hsync : (s.inodes dir).iSync = false) :
    Prepared (s.setInode dir fun n => { n with iSize := 0, iBlocks := 0 }) (some dir) ∧
      Filling (s.setInode dir fun n => { n with iSize := 0, iBlocks := 0 }) dir 0 := by
  obtain ⟨ahead, hcounted⟩ := h.counted
  have hcounted' : ∃ ahead, Counted (s.setInode dir fun n => { n with iSize := 0, iBlocks := 0 })
      ahead := ⟨ahead, hcounted.same ⟨rfl, rfl, rfl, rfl⟩⟩
  have hfilling : Filling (s.setInode dir fun n => { n with iSize := 0, iBlocks := 0 }) dir 0 :=
    .empty hcounted' hdir (by simpa [setInode] using h.listed dir hdir hsync) (by simp [setInode])
      (by simp [setInode])
  refine ⟨h.update (h.use.emptied hdir) hcounted' rfl rfl hdir rfl id ?_ rfl fun _ => ⟨0, hfilling⟩,
    hfilling⟩
  intro d hd heq
  exact absurd (Option.some.inj heq).symm hd

theorem Prepared.mountingLoaded (h : Prepared s none) (hdir : s.IsDir dir)
    (hsync : (s.inodes dir).iSync = true) : Prepared s (some dir) ∧ ∃ n, Filling s dir n := by
  have hfilling := h.filled dir (Or.inl ⟨hdir, hsync⟩)
  refine ⟨⟨h.use, h.counted, h.unused, h.listed, fun d hd => ?_⟩, hfilling⟩
  obtain hd | heq := hd
  · exact h.filled d (Or.inl hd)
  · obtain rfl := Option.some.inj heq
    exact hfilling

theorem Prepared.fsMountFile (h : Prepared s (some dir))
    (hmount : s.fsMountFile dir rdev mnt name = some s') : Prepared s' (some dir) := by
  obtain ⟨n, hfilling⟩ := h.filled dir (Or.inr rfl)
  obtain ⟨ahead, hcounted⟩ := h.counted
  obtain ⟨-, rfl⟩ | ⟨hroom, hcounted'⟩ := hcounted.fsMountFile hmount
  · exact h
  obtain ⟨hfull, -⟩ | ⟨ino, addr, t, htakes, -, -, hlists⟩ := fsMountFile_spec hfilling.inUse hmount
  · omega
  exact h.newFile (htakes.newFile hfilling.inUse hlists) (h.use.fsMountFile hfilling.inUse hmount).1
    ⟨_, hcounted'⟩ (fun d hd => (Option.some.inj hd).symm) (fun _ => Option.some_ne_none _)
    fun _ hsync => by cases hsync

theorem Prepared.loaded (h : Prepared s (some dir)) :
    Prepared (s.setInode dir fun n => { n with iSync := true }) none := by
  obtain ⟨n, hfilling⟩ := h.filled dir (Or.inr rfl)
  obtain ⟨ahead, hcounted⟩ := h.counted
  have hcounted' : ∃ ahead, Counted (s.setInode dir fun n => { n with iSync := true }) ahead :=
    ⟨ahead, hcounted.same ⟨rfl, rfl, rfl, rfl⟩⟩
  have huse : InUse (s.setInode dir fun n => { n with iSync := true }) := by
    refine h.use.update hfilling.inUse rfl rfl rfl ?_ (h.use.iIno dir hfilling.inUse) rfl
      (h.use.listed dir)
    rintro rfl
    exact h.use.root.2
  refine h.update huse hcounted' rfl rfl hfilling.inUse rfl (fun hs => by cases hs) (by simp) rfl
    fun _ => ⟨n, ?_⟩
  exact hfilling.same hcounted' hfilling.inUse (by simp [setInode]) (by simp [setInode])
    (by simp [setInode]) (Nat.le_refl _)

theorem Prepared.fsMountDirectory (h : Prepared s none) (hbit : s.bitmapInodes dir = true)
    (hdir : (s.inodes dir).iSync = true → s.IsDir dir)
    (hmount : s.fsMountDirectory passes rdev src dir = some s') : Prepared s' none := by
  obtain ⟨-, rfl⟩ | ⟨-, t, ht, rfl⟩ :=
    fsMountDirectory_invariant (P := fun t => Prepared t (some dir))
      (fun hs hfile => hs.fsMountFile hfile) (fun hsync => (h.startMounting hbit hsync).1)
      (fun hsync => (h.mountingLoaded (hdir hsync) hsync).1) hmount
  · exact h
  · exact ht.loaded

theorem Prepared.fsMountDirectory_iff (h : Prepared s none) (rdev : Nat)
    (hbit : s.bitmapInodes dir = true) (hdir : (s.inodes dir).iSync = true → s.IsDir dir)
    (src : StoredInode) :
    (∃ passes, (s.fsMountDirectory passes rdev src dir).isSome) ↔
      s.MountOk (s.storages rdev) src dir := by
  rw [MountOk]
  by_cases hsize : src.iSize = 0
  · refine iff_of_true ⟨0, ?_⟩ fun hne => absurd hsize hne
    rw [Rootfs.fsMountDirectory, if_pos hsize]
    rfl
  rw [forall_prop_of_true hsize]
  refine exists_congr fun passes => ?_
  rw [Rootfs.fsMountDirectory, if_neg hsize]
  have hbind : ∀ o : Option Rootfs, (o >>= fun s => some (s.setInode dir fun n =>
      { n with iSync := true })).isSome = o.isSome := fun o => by cases o <;> rfl
  refine (Iff.of_eq (congrArg (· = true) (hbind _))).trans ?_
  cases hsync : (s.inodes dir).iSync with
  | true =>
      obtain ⟨n, hfilling⟩ := (h.mountingLoaded (hdir hsync) hsync).2
      have hcnt : s.dentryCnt dir = n := by
        rw [dentryCnt, if_pos hsync, hfilling.size, Nat.mul_div_cancel_left _ (by decide)]
      rw [if_pos rfl, hfilling.mountLoop_isSome, hcnt]
      simp
  | false =>
      have hfilling := (h.startMounting hbit hsync).2
      have hcnt : s.dentryCnt dir = 0 := by
        rw [dentryCnt, hsync]
        rfl
      rw [if_neg Bool.false_ne_true, hfilling.mountLoop_isSome, hcnt]
      simp [BlocksLeft, setInode]

theorem Prepared.takes (h : Prepared s none) (htakes : Takes s t dir ino addr added)
    (huse : InUse t) (hcounted : ∃ ahead, Counted t ahead) (hmode : added.iMode ≠ sIfdir)
    (hsync : added.iSync = true) : Prepared t none := by
  have hcount := countP_range_update htakes.bound htakes.free
  rw [← htakes.bits] at hcount
  have hold : ∀ {j}, t.bitmapInodes j = true → j ≠ ino → s.bitmapInodes j = true := fun hj hne => by
    rwa [htakes.bits, Function.update_of_ne hne] at hj
  refine ⟨huse, hcounted, fun j hj => ?_, fun j hj hj' => ?_, fun d hd => ?_⟩
  · have hne : j ≠ ino := by
      rintro rfl
      rw [htakes.taken.1] at hj
      cases hj
    rw [htakes.bits, Function.update_of_ne hne] at hj
    rw [htakes.inodes, Function.update_of_ne hne]
    exact h.unused j hj
  · have hne : j ≠ ino := by
      rintro rfl
      rw [htakes.taken.2, hsync] at hj'
      cases hj'
    have hbit := hold hj hne
    rw [(htakes.others hbit).2] at hj' ⊢
    exact h.listed j hbit hj'
  · obtain ⟨⟨hbit, hdir⟩, hs⟩ := hd.resolve_right (by simp)
    have hne : d ≠ ino := by
      rintro rfl
      rw [htakes.taken.2] at hdir
      exact hmode hdir
    have hbit' := hold hbit hne
    have hsame := (htakes.others hbit').2
    rw [hsame] at hdir hs
    obtain ⟨n, hfilling⟩ := h.filled d (Or.inl ⟨⟨hbit', hdir⟩, hs⟩)
    exact ⟨n, hfilling.same hcounted hbit (by rw [hsame]) (by rw [hsame]) (by rw [hsame])
      (hcount ▸ Nat.le_succ _)⟩

theorem Prepared.fsAddFile (h : Prepared s none) (hdir : s.bitmapInodes dir = true)
    (hadd : s.fsAddFile dir fileName fileType memory = some (s', r)) : Prepared s' none := by
  obtain ⟨huse, -⟩ := h.use.fsAddFile hdir hadd
  obtain ⟨ahead, hcounted⟩ := h.counted
  have hcounted' : ∃ ahead, Counted s' ahead := ⟨ahead, hcounted.fsAddFile hadd⟩
  obtain ⟨rfl, -⟩ | ⟨ino, addr, t, -, htakes, -, -, hfile⟩ := fsAddFile_spec hdir hadd
  · exact h
  obtain ⟨rfl, -⟩ | ⟨u, hinst, -, hlists⟩ := hfile
  · exact h.takes htakes huse hcounted' (h.unused ino htakes.free) rfl
  · obtain ⟨iDentry, -, hmade⟩ := htakes.instantiated hinst
    obtain ⟨iDentry', hlist, hinodes⟩ := hinst.inodes
    obtain rfl : iDentry = iDentry' := by
      have hsame := hmade.taken.2
      rw [hinodes, Function.update_self] at hsame
      exact (congrArg Inode.iDentry hsame).symm
    refine h.newFile (hmade.counted.newFile hdir hlists) huse hcounted' (by simp)
      (fun hs => by cases hs) fun hmode _ => ⟨?_, rfl, rfl⟩
    obtain rfl | ⟨hne, -⟩ := hlist
    · exact Option.some_ne_none []
    · exact absurd hmode hne

theorem Prepared.act (h : Prepared s none) (hact : Act strict s t) : Prepared t none := by
  obtain ⟨huse, -⟩ := h.use.act hact
  obtain ⟨ahead, hcounted⟩ := h.counted
  cases hact with
  | load hdir _ hsync hload =>
      refine h.fsMountDirectory hdir (fun hs => ?_) hload
      rw [hsync] at hs
      cases hs
  | add hdir _ _ hadd => exact h.fsAddFile hdir hadd
  | sync hino hsync =>
      obtain ⟨rfl, -⟩ | ⟨-, hmode, -, -, rfl⟩ := fsSyncFile_cases hsync
      · exact h
      · refine h.update huse ⟨ahead, hcounted.same ⟨rfl, rfl, rfl, rfl⟩⟩ rfl rfl hino rfl
          (fun hs => by cases hs) (by simp) rfl fun hdir => ?_
        obtain ⟨hdir, -⟩ := hdir.resolve_right (by simp)
        exact absurd (hmode.symm.trans hdir) (by decide)
  | @mount t _ _ storage _ hdir _ hmount =>
      have h₀ : Prepared { s with storages := Function.update s.storages s.mountCnt storage } none :=
        h.same (h.use.storages _) rfl rfl ⟨ahead, hcounted.same ⟨rfl, rfl, rfl, rfl⟩⟩
      have ht := h₀.fsMountDirectory hdir.1 (fun _ => hdir) hmount
      obtain ⟨ahead', hcounted'⟩ := ht.counted
      exact ht.same huse rfl rfl ⟨ahead', hcounted'.same ⟨rfl, rfl, rfl, rfl⟩⟩
  | append hfile happ =>
      have hcounted' := hcounted.fsFileAppendBlock happ
      obtain ⟨rfl, -⟩ | ⟨k, -, -, -, rfl⟩ := fsFileAppendBlock_cases happ
      · exact h
      · refine h.update huse ⟨ahead, hcounted'⟩ rfl rfl hfile.1 rfl id (by simp) rfl fun hdir => ?_
        obtain ⟨hdir, -⟩ := hdir.resolve_right (by simp)
        exact absurd (hfile.2.1.symm.trans hdir) (by decide)

theorem Prepared.acts (h : Prepared s none) (hacts : Relation.ReflTransGen (Act strict) s t) :
    Prepared t none := by
  induction hacts with
  | refl => exact h
  | tail _ hact ih => exact ih.act hact

theorem rootfsInit_prepared (sInoAddr sBlkAddr : Nat) :
    Prepared (rootfsInit sInoAddr sBlkAddr) none := by
  have hcounted : ∃ ahead, Counted (rootfsInit sInoAddr sBlkAddr) ahead :=
    ⟨0, rootfsInit_counted sInoAddr sBlkAddr⟩
  refine ⟨rootfsInit_inUse .., hcounted, fun i hi => ?_, fun i hi hsync => ?_, fun d hd => ?_⟩
  · have hne : i ≠ 0 := by simpa [rootfsInit] using hi
    simp only [rootfsInit, if_neg hne]
    decide
  · have hroot : i = 0 := by simpa [rootfsInit] using hi
    subst hroot
    cases hsync
  · obtain ⟨⟨hbit, -⟩, -⟩ := hd.resolve_right (by simp)
    have hroot : d = 0 := by simpa [rootfsInit] using hbit
    subst hroot
    exact ⟨0, .empty hcounted rfl (Option.some_ne_none _) rfl rfl⟩

theorem prepared_of_run {sInoAddr sBlkAddr : Nat} {calls : List RootfsCall}
    (hrun : Runs.exec call (rootfsInit sInoAddr sBlkAddr) calls = some s) : Prepared s none :=
  (rootfsInit_prepared sInoAddr sBlkAddr).acts (acts_of_run hrun).2

/-- The entries of all directories. -/
def entryCnt (s : Rootfs) : Nat := ∑ d ∈ Finset.range inodeMax, (s.dentriesOf d).length

theorem entryCnt_le (h : ∀ d, (t.dentriesOf d).length ≤ (s.dentriesOf d).length) :
    t.entryCnt ≤ s.entryCnt :=
  Finset.sum_le_sum fun d _ => h d

theorem entryCnt_le_succ
    (h : ∀ i, (t.dentriesOf i).length ≤ (s.dentriesOf i).length + if i = d then 1 else 0) :
    t.entryCnt ≤ s.entryCnt + 1 := by
  have hone : ∑ i ∈ Finset.range inodeMax, (if i = d then 1 else 0) ≤ 1 := by
    rw [Finset.sum_ite_eq']
    split <;> decide
  calc t.entryCnt
      ≤ ∑ i ∈ Finset.range inodeMax, ((s.dentriesOf i).length + if i = d then 1 else 0) :=
        Finset.sum_le_sum fun i _ => h i
    _ = s.entryCnt + ∑ i ∈ Finset.range inodeMax, (if i = d then 1 else 0) :=
        Finset.sum_add_distrib
    _ ≤ s.entryCnt + 1 := Nat.add_le_add_left hone _

def OwnInodes (s t : Rootfs) : Prop :=
  t.entryCnt + (List.range inodeMax).countP s.bitmapInodes ≤
    s.entryCnt + (List.range inodeMax).countP t.bitmapInodes

theorem OwnInodes.trans (h : OwnInodes s t) (h' : OwnInodes t u) : OwnInodes s u := by
  rw [OwnInodes] at h h' ⊢
  omega

theorem OwnInodes.entryCnt (h : OwnInodes s t) : t.entryCnt ≤ s.entryCnt + inodeMax := by
  have hle := inUse_le t
  rw [OwnInodes] at h
  omega

theorem OwnInodes.same (hbits : t.bitmapInodes = s.bitmapInodes)
    (hlists : ∀ d, t.dentriesOf d = s.dentriesOf d) : OwnInodes s t := by
  have hle : t.entryCnt ≤ s.entryCnt := entryCnt_le fun d => by rw [hlists]
  rw [OwnInodes, hbits]
  omega

theorem OwnInodes.update (hbits : t.bitmapInodes = s.bitmapInodes)
    (hinodes : t.inodes = Function.update s.inodes i inode)
    (hlist : inode.iDentry = (s.inodes i).iDentry) : OwnInodes s t := by
  refine .same hbits fun d => ?_
  rw [dentriesOf, dentriesOf]
  obtain ⟨hd, rfl⟩ | hd := inodes_update hinodes d
  · rw [hd, hlist]
  · rw [hd]

theorem NewFile.ownInodes (h : NewFile s t dir ino addr added)
    (hlist : added.iDentry = some [] ∨ added.iDentry = (s.inodes ino).iDentry) : OwnInodes s t := by
  have hcount := countP_range_update h.bound h.free
  rw [← h.bits] at hcount
  have hle : t.entryCnt ≤ s.entryCnt + 1 := by
    refine entryCnt_le_succ (d := dir) fun d => ?_
    by_cases hddir : d = dir
    · subst hddir
      rw [h.dentriesOf_dir, List.length_append, if_pos rfl]
      rfl
    rw [if_neg hddir, Nat.add_zero]
    by_cases hdino : d = ino
    · subst hdino
      rw [dentriesOf, h.inode, dentriesOf]
      obtain hnil | hsame := hlist
      · rw [hnil]
        exact Nat.zero_le _
      · rw [hsame]
    · rw [dentriesOf, h.others d hdino hddir, dentriesOf]
  rw [OwnInodes]
  omega

theorem Takes.ownInodes (h : Takes s t dir ino addr added)
    (hlist : added.iDentry = (s.inodes ino).iDentry) : OwnInodes s t := by
  have hcount := countP_range_update h.bound h.free
  rw [← h.bits] at hcount
  have hle : t.entryCnt ≤ s.entryCnt := entryCnt_le fun d => by
    rw [dentriesOf, dentriesOf]
    obtain ⟨hd, rfl⟩ | hd := inodes_update h.inodes d
    · rw [hd, hlist]
    · rw [hd]
  rw [OwnInodes]
  omega

theorem OwnInodes.fsMountDirectory (h : InUse s) (hdir : s.bitmapInodes dir = true)
    (hmount : s.fsMountDirectory passes rdev src dir = some t) : OwnInodes s t := by
  have hfile : ∀ {v v' : Rootfs} {mnt name},
      (InUse v ∧ v.bitmapInodes dir = true) ∧ OwnInodes s v →
      v.fsMountFile dir rdev mnt name = some v' →
      (InUse v' ∧ v'.bitmapInodes dir = true) ∧ OwnInodes s v' := by
    intro v v' mnt name hv hmount
    obtain ⟨⟨huse, hbit⟩, hown⟩ := hv
    obtain ⟨huse', hkeeps⟩ := huse.fsMountFile hbit hmount
    refine ⟨⟨huse', hkeeps.bits dir hbit⟩, ?_⟩
    obtain ⟨-, rfl⟩ | ⟨ino, addr, v₁, htakes, -, -, hlists⟩ := fsMountFile_spec hbit hmount
    · exact hown
    · exact hown.trans ((htakes.newFile hbit hlists).ownInodes (Or.inl rfl))
  obtain ⟨-, rfl⟩ | ⟨-, u, ⟨-, hown⟩, rfl⟩ :=
    fsMountDirectory_invariant (P := fun v => (InUse v ∧ v.bitmapInodes dir = true) ∧ OwnInodes s v)
      hfile (fun _ => ⟨⟨h.emptied hdir, hdir⟩, .update rfl rfl rfl⟩)
      (fun _ => ⟨⟨h, hdir⟩, .same rfl fun _ => rfl⟩) hmount
  · exact .same rfl fun _ => rfl
  · exact hown.trans (.update rfl rfl rfl)

theorem OwnInodes.act (h : InUse s) (hact : Act strict s t) : OwnInodes s t := by
  cases hact with
  | load hdir _ _ hload => exact .fsMountDirectory h hdir hload
  | add hdir _ _ hadd =>
      obtain ⟨rfl, -⟩ | ⟨ino, addr, u, -, htakes, -, -, hfile⟩ := fsAddFile_spec hdir hadd
      · exact .same rfl fun _ => rfl
      obtain ⟨rfl, -⟩ | ⟨v, hinst, -, hlists⟩ := hfile
      · exact htakes.ownInodes rfl
      · obtain ⟨iDentry, hlist, hmade⟩ := htakes.instantiated hinst
        exact (hmade.counted.newFile hdir hlists).ownInodes hlist
  | sync hino hsync =>
      obtain ⟨rfl, -⟩ | ⟨-, -, -, -, rfl⟩ := fsSyncFile_cases hsync
      · exact .same rfl fun _ => rfl
      · exact .update rfl rfl rfl
  | @mount t _ _ storage _ hdir _ hmount =>
      have h₀ := h.storages (Function.update s.storages s.mountCnt storage)
      have hown := OwnInodes.fsMountDirectory h₀ hdir.1 hmount
      exact hown
  | append _ happ =>
      obtain ⟨rfl, -⟩ | ⟨k, -, -, -, rfl⟩ := fsFileAppendBlock_cases happ
      · exact .same rfl fun _ => rfl
      · exact .update rfl rfl rfl

theorem OwnInodes.acts (h : InUse s) (hacts : Relation.ReflTransGen (Act strict) s t) :
    OwnInodes s t := by
  induction hacts with
  | refl => exact .same rfl fun _ => rfl
  | tail hbefore hact ih => exact ih.trans (.act (h.acts hbefore).1 hact)

def LoadOk (s : Rootfs) (dir : Nat) : Prop :=
  s.MountOk (s.storages (s.inodes dir).iRdev) (storedInode (s.inodes dir)) dir

theorem Prepared.syncDirectory_iff (h : Prepared s none) (hbit : s.bitmapInodes dir = true)
    (hsync : (s.inodes dir).iSync = false) :
    (∃ passes, (s.syncDirectory passes dir).isSome) ↔ s.LoadOk dir := by
  refine h.fsMountDirectory_iff _ hbit (fun hs => ?_) _
  rw [hsync] at hs
  cases hs

/-- What a loop along a path loads on its way can be loaded, and what it is at the end of it. -/
def WayEnds (atEnd last : Rootfs → Nat → Prop) : List (List Byte) → Rootfs → Nat → Prop
  | [], _, _ => False
  | entry :: es, s, curr =>
      if entry = [] then if es = [] then atEnd s curr else WayEnds atEnd last es s curr
      else (s.Settled curr entry ∨ s.LoadOk curr) ∧ ∀ t i, s.Searches curr entry t (some i) →
        if es = [] then last t i
        else (t.inodes i).iMode = sIfdir → WayEnds atEnd last es t i

theorem Prepared.search_iff (h : Prepared s none) (hdir : s.IsDir dir) :
    (∃ passes t r, s.fsSearchFile passes dir entry = some (t, r)) ↔
      s.Settled dir entry ∨ s.LoadOk dir := by
  constructor
  · rintro ⟨passes, t, r, hsearch⟩
    obtain ⟨hsettled, -⟩ | ⟨-, hsync, hload⟩ := fsSearchFile_settled hsearch
    · exact Or.inl hsettled
    · exact Or.inr ((h.syncDirectory_iff hdir.1 hsync).mp ⟨passes, by rw [hload]; rfl⟩)
  · intro hor
    by_cases hsize : (s.inodes dir).iSize = 0
    · exact ⟨0, s, none, by rw [fsSearchFile, if_pos hsize]⟩
    by_cases hdot : entry = [46#8]
    · exact ⟨0, s, some dir, by rw [fsSearchFile, if_neg hsize, if_pos hdot]⟩
    by_cases hdots : entry = [46#8, 46#8]
    · exact ⟨0, s, _, by rw [fsSearchFile, if_neg hsize, if_neg hdot, if_pos hdots]⟩
    have hfinds : ∀ {passes t}, s.loadDir passes dir = some t → (t.inodes dir).iDentry ≠ none →
        ∃ passes t r, s.fsSearchFile passes dir entry = some (t, r) := by
      intro passes t hload hlist
      obtain ⟨list, hlist⟩ := Option.ne_none_iff_exists'.mp hlist
      refine ⟨passes, t, (list.find? fun a => (t.dentries a).dName = entry).map fun a =>
        (t.dentries a).dInode, ?_⟩
      rw [fsSearchFile_eq hsize hdot hdots, hload, Option.bind_some, hlist, Option.bind_some]
    cases hsync : (s.inodes dir).iSync with
    | true =>
        obtain ⟨n, hfilling⟩ := h.filled dir (Or.inl ⟨hdir, hsync⟩)
        have hload : s.loadDir 0 dir = some s := by rw [loadDir, if_pos hsync]
        exact hfinds hload hfilling.list
    | false =>
        have hload : s.LoadOk dir := by
          refine hor.resolve_left ?_
          simp [Settled, hsize, hdot, hdots, hsync]
        obtain ⟨passes, hsome⟩ := (h.syncDirectory_iff hdir.1 hsync).mpr hload
        obtain ⟨t, ht⟩ := Option.isSome_iff_exists.mp hsome
        have hact : Act False s t := .load hdir.1 False.elim hsync ht
        have hprepared := h.act hact
        have hkeeps := (h.use.act hact).2
        have hsynced := (h.use.fsMountDirectory hdir.1 ht).2.2 hsize
        obtain ⟨n, hfilling⟩ := hprepared.filled dir (Or.inl ⟨hkeeps.isDir hdir, hsynced⟩)
        have hload : s.loadDir passes dir = some t := by
          rw [loadDir, hsync]
          exact ht
        exact hfinds hload hfilling.list

/-- When a loop with enough passes ends, where this does not depend on the passes: at the end of the
path and at its last entry. -/
structure EndsWhen (ends : Nat → PathEnds) (atEnd last : Rootfs → Nat → Prop) : Prop where
  through : ∀ {passes s i}, (ends passes).through s i ↔ (s.inodes i).iMode = sIfdir
  missing : ∀ {passes next s i entry l}, (ends passes).missing next s i entry l
  atEnd_mono : ∀ {passes n s i}, passes ≤ n → (ends passes).atEnd s i → (ends n).atEnd s i
  last_mono : ∀ {passes n s i}, passes ≤ n → (ends passes).last s i → (ends n).last s i
  atEnd : ∀ {s i}, Prepared s none → s.IsDir i → ((∃ passes, (ends passes).atEnd s i) ↔ atEnd s i)
  last : ∀ {s i}, Prepared s none → s.bitmapInodes i = true →
    ((∃ passes, (ends passes).last s i) ↔ last s i)

variable {ends : Nat → PathEnds} {atEnd last : Rootfs → Nat → Prop} {pathname : List Byte}

theorem EndsWhen.along_mono (hends : EndsWhen ends atEnd last) (hle : passes ≤ n)
    (h : (ends passes).Along passes es s i) : (ends n).Along n es s i := by
  induction es generalizing s i with
  | nil => exact h
  | cons entry es ih =>
      rw [PathEnds.Along] at h ⊢
      split at h
      · next hentry =>
          rw [if_pos hentry]
          split at h
          · next hes =>
              rw [if_pos hes]
              exact hends.atEnd_mono hle h
          · next hes =>
              rw [if_neg hes]
              exact ih h
      · next hentry =>
          rw [if_neg hentry]
          obtain ⟨t, r, hsearch, -, hfound⟩ := h
          refine ⟨t, r, fsSearchFile_mono hle hsearch, fun _ => hends.missing, fun j hj => ?_⟩
          have hnext := hfound j hj
          split at hnext
          · next hes =>
              rw [if_pos hes]
              exact hends.last_mono hle hnext
          · next hes =>
              rw [if_neg hes]
              exact fun hthrough => ih (hnext (hends.through.mpr (hends.through.mp hthrough)))

theorem EndsWhen.along_iff (hends : EndsWhen ends atEnd last) (h : Prepared s none)
    (hdir : s.IsDir i) :
    (∃ passes, (ends passes).Along passes es s i) ↔ WayEnds atEnd last es s i := by
  induction es generalizing s i with
  | nil => exact iff_of_false (fun ⟨_, hfalse⟩ => hfalse) id
  | cons entry es ih =>
      simp only [PathEnds.Along, WayEnds]
      by_cases hentry : entry = []
      · simp only [if_pos hentry]
        by_cases hes : es = []
        · simp only [if_pos hes]
          exact hends.atEnd h hdir
        · simp only [if_neg hes]
          exact ih h hdir
      simp only [if_neg hentry]
      -- what is found is in use, in a file system in which it can be mounted
      have hafter : ∀ {passes t r}, s.fsSearchFile passes i entry = some (t, r) →
          Prepared t none ∧ ∀ j ∈ r, t.bitmapInodes j = true := by
        intro passes t r hsearch
        obtain ⟨hacts, hfound, -⟩ := h.use.fsSearchFile hdir.1 (False.elim : False → _) hsearch
        exact ⟨h.acts hacts, hfound⟩
      constructor
      · rintro ⟨passes, t, r, hsearch, -, hfound⟩
        refine ⟨(h.search_iff hdir).mp ⟨passes, t, r, hsearch⟩, fun t' j hj => ?_⟩
        obtain ⟨rfl, rfl⟩ := hj.unique ⟨passes, hsearch⟩
        obtain ⟨ht, hbits⟩ := hafter hsearch
        have hnext := hfound j rfl
        split at hnext
        · next hes =>
            rw [if_pos hes]
            exact (hends.last ht (hbits j rfl)).mp ⟨passes, hnext⟩
        · next hes =>
            rw [if_neg hes]
            exact fun hmode =>
              (ih ht ⟨hbits j rfl, hmode⟩).mp ⟨passes, hnext (hends.through.mpr hmode)⟩
      · rintro ⟨hsearches, hfound⟩
        obtain ⟨passes, t, r, hsearch⟩ := (h.search_iff hdir).mpr hsearches
        obtain ⟨ht, hbits⟩ := hafter hsearch
        cases r with
        | none => exact ⟨passes, t, none, hsearch, fun _ => hends.missing, by simp⟩
        | some j =>
            have hnext := hfound t j ⟨passes, hsearch⟩
            by_cases hes : es = []
            · rw [if_pos hes] at hnext
              obtain ⟨n, hlast⟩ := (hends.last ht (hbits j rfl)).mpr hnext
              refine ⟨max passes n, t, some j, fsSearchFile_mono (Nat.le_max_left ..) hsearch,
                fun _ => hends.missing, fun j' hj' => ?_⟩
              obtain rfl := Option.some.inj hj'
              rw [if_pos hes]
              exact hends.last_mono (Nat.le_max_right ..) hlast
            · rw [if_neg hes] at hnext
              by_cases hmode : (t.inodes j).iMode = sIfdir
              · obtain ⟨n, halong⟩ := (ih ht ⟨hbits j rfl, hmode⟩).mpr (hnext hmode)
                refine ⟨max passes n, t, some j, fsSearchFile_mono (Nat.le_max_left ..) hsearch,
                  fun _ => hends.missing, fun j' hj' => ?_⟩
                obtain rfl := Option.some.inj hj'
                rw [if_neg hes]
                exact fun _ => hends.along_mono (Nat.le_max_right ..) halong
              · refine ⟨passes, t, some j, hsearch, fun _ => hends.missing, fun j' hj' => ?_⟩
                obtain rfl := Option.some.inj hj'
                rw [if_neg hes]
                exact fun hthrough => absurd (hends.through.mp hthrough) hmode

def Loaded (s : Rootfs) (dir : Nat) : Prop := (s.inodes dir).iSync = true ∨ s.LoadOk dir

theorem Loads.mono (hle : passes ≤ n) (h : Loads passes s i) : Loads n s i := by
  refine h.imp_right fun hsome => ?_
  obtain ⟨t, ht⟩ := Option.isSome_iff_exists.mp hsome
  rw [syncDirectory_mono hle ht]
  rfl

theorem Prepared.loads_iff (h : Prepared s none) (hbit : s.bitmapInodes i = true) :
    (∃ passes, Loads passes s i) ↔ s.Loaded i := by
  simp only [Loads, Loaded]
  cases hsync : (s.inodes i).iSync with
  | true => exact iff_of_true ⟨0, Or.inl rfl⟩ (Or.inl rfl)
  | false =>
      simp only [Bool.false_eq_true, false_or]
      exact h.syncDirectory_iff hbit hsync

theorem openEnds_when : EndsWhen (fun _ => openEnds pathname memory) (fun _ _ => True)
    fun s i => pathname.getLast? = some slash ∨ (s.syncOpened i memory).isSome where
  through := Iff.rfl
  missing := trivial
  atEnd_mono _ h := h
  last_mono _ h := h
  atEnd _ _ := iff_of_true ⟨0, trivial⟩ trivial
  last _ _ := exists_const Nat

theorem directoryEnds_when : EndsWhen directoryEnds Loaded
    fun s i => (s.inodes i).iMode = sIfdir → s.Loaded i where
  through := Iff.rfl
  missing := trivial
  atEnd_mono hle h := Loads.mono hle h
  last_mono hle h hmode := Loads.mono hle (h hmode)
  atEnd h hdir := h.loads_iff hdir.1
  last {s i} h hbit := by
    by_cases hmode : (s.inodes i).iMode = sIfdir
    · simp only [directoryEnds, hmode, forall_const]
      exact h.loads_iff hbit
    · exact iff_of_true ⟨0, fun hdir => absurd hdir hmode⟩ fun hdir => absurd hdir hmode

theorem along_of_visits {loop loop' : PathLoop}
    (hend : ∀ {s i w}, loop.atEnd s i = some w → loop'.atEnd s i = some w)
    (hvisit : ∀ {next next' : Rootfs → Nat → Option Walk} {s i entry l w},
      (∀ {t j w}, next t j = some w → next' t j = some w) →
      loop.visit next s i entry l = some w → loop'.visit next' s i entry l = some w)
    (h : loop.along es s i = some w) : loop'.along es s i = some w := by
  induction es generalizing s i w with
  | nil => cases h
  | cons entry es ih =>
      rw [PathLoop.along] at h ⊢
      split at h
      · next hentry =>
          rw [if_pos hentry]
          split at h
          · next hes =>
              rw [if_pos hes]
              exact hend h
          · next hes =>
              rw [if_neg hes]
              exact ih h
      · next hentry =>
          rw [if_neg hentry]
          obtain ⟨w', hw', hpair⟩ := Option.bind_eq_some_iff.mp h
          exact Option.bind_eq_some_iff.mpr ⟨w', hvisit ih hw', hpair⟩

theorem endDirectory_mono (hle : passes ≤ n) (h : s.endDirectory passes i = some w) :
    s.endDirectory n i = some w := by
  obtain ⟨t, hload, rfl⟩ := Option.map_eq_some_iff.mp h
  refine Option.map_eq_some_iff.mpr ⟨t, ?_, rfl⟩
  split at hload
  · next hsync =>
      rw [if_pos hsync]
      exact hload
  · next hsync =>
      rw [if_neg hsync]
      exact syncDirectory_mono hle hload

theorem fsOpenFile_mono (hle : passes ≤ n) (h : s.fsOpenFile passes pathname memory = some w) :
    s.fsOpenFile n pathname memory = some w := by
  by_cases hslash : pathname.head? = some slash
  · rw [fsOpenFile_eq hslash] at h ⊢
    have hend : ∀ {s i w}, (openLoop passes pathname memory).atEnd s i = some w →
        (openLoop n pathname memory).atEnd s i = some w := fun hw => hw
    refine along_of_visits hend (fun hnext hw => ?_) h
    obtain ⟨⟨t, r⟩, hsearch, hw⟩ := Option.bind_eq_some_iff.mp hw
    refine Option.bind_eq_some_iff.mpr ⟨(t, r), fsSearchFile_mono hle hsearch, ?_⟩
    cases r with
    | none => exact hw
    | some j =>
        dsimp only at hw ⊢
        split at hw
        · next hlast =>
            rw [if_pos hlast]
            exact hw
        · next hlast =>
            rw [if_neg hlast]
            split at hw
            · next hmode =>
                rw [if_pos hmode]
                exact hw
            · next hmode =>
                rw [if_neg hmode]
                exact hnext hw
  · rw [fsOpenFile, if_pos hslash] at h ⊢
    exact h

theorem fsOpenDirectory_mono (hle : passes ≤ n) (h : s.fsOpenDirectory passes pathname = some w) :
    s.fsOpenDirectory n pathname = some w := by
  by_cases hslash : pathname.head? = some slash
  · rw [fsOpenDirectory_eq hslash] at h ⊢
    split at h
    · next htail =>
        rw [if_pos htail]
        exact h
    next htail =>
    rw [if_neg htail]
    refine along_of_visits (fun hw => endDirectory_mono hle hw) (fun hnext hw => ?_) h
    obtain ⟨⟨t, r⟩, hsearch, hw⟩ := Option.bind_eq_some_iff.mp hw
    refine Option.bind_eq_some_iff.mpr ⟨(t, r), fsSearchFile_mono hle hsearch, ?_⟩
    cases r with
    | none => exact hw
    | some j =>
        dsimp only at hw ⊢
        split at hw
        · next hmode =>
            rw [if_pos hmode]
            exact hw
        · next hmode =>
            rw [if_neg hmode]
            split at hw
            · next hlast =>
                rw [if_pos hlast]
                exact endDirectory_mono hle hw
            · next hlast =>
                rw [if_neg hlast]
                exact hnext hw
  · rw [fsOpenDirectory, if_pos hslash] at h ⊢
    exact h

/-- `fs_open_file` comes to an end: what it searches in can be loaded, and what it opens can be
synchronized. -/
def OpenEnds (s : Rootfs) (pathname : List Byte) (memory : Bool) : Prop :=
  pathname.head? = some slash → WayEnds (fun _ _ => True)
    (fun t i => pathname.getLast? = some slash ∨ (t.syncOpened i memory).isSome)
    (entries pathname.tail) s 0

/-- `fs_open_directory` does: the directory can be loaded as well. -/
def DirectoryEnds (s : Rootfs) (pathname : List Byte) : Prop :=
  pathname.head? = some slash → pathname.tail ≠ [] → WayEnds Loaded
    (fun t i => (t.inodes i).iMode = sIfdir → t.Loaded i) (entries pathname.tail) s 0

theorem Prepared.fsOpenFile_iff (h : Prepared s none) :
    (∃ passes, (s.fsOpenFile passes pathname memory).isSome) ↔ s.OpenEnds pathname memory := by
  rw [OpenEnds]
  by_cases hslash : pathname.head? = some slash
  · rw [forall_prop_of_true hslash, ← openEnds_when.along_iff h h.use.root]
    refine exists_congr fun passes => ?_
    rw [fsOpenFile_eq hslash]
    exact openEnds_for.along _ s 0
  · refine iff_of_true ⟨0, ?_⟩ fun heq => absurd heq hslash
    rw [fsOpenFile, if_pos hslash]
    rfl

theorem Prepared.fsOpenDirectory_iff (h : Prepared s none) :
    (∃ passes, (s.fsOpenDirectory passes pathname).isSome) ↔ s.DirectoryEnds pathname := by
  rw [DirectoryEnds]
  by_cases hslash : pathname.head? = some slash
  · by_cases htail : pathname.tail = []
    · refine iff_of_true ⟨0, ?_⟩ fun _ hne => absurd htail hne
      rw [fsOpenDirectory_eq hslash, if_pos htail]
      rfl
    · rw [forall_prop_of_true hslash, forall_prop_of_true htail,
        ← directoryEnds_when.along_iff h h.use.root]
      refine exists_congr fun passes => ?_
      rw [fsOpenDirectory_eq hslash, if_neg htail]
      exact directoryEnds_for.along _ s 0
  · refine iff_of_true ⟨0, ?_⟩ fun heq => absurd heq hslash
    rw [fsOpenDirectory, if_pos hslash]
    rfl

def Opens (s : Rootfs) (pathname : List Byte) (memory : Bool) (w : Walk) : Prop :=
  ∃ passes, s.fsOpenFile passes pathname memory = some w

def OpensDirectory (s : Rootfs) (pathname : List Byte) (w : Walk) : Prop :=
  ∃ passes, s.fsOpenDirectory passes pathname = some w

theorem Opens.unique {w' : Walk} (h : s.Opens pathname memory w) (h' : s.Opens pathname memory w') :
    w = w' := by
  obtain ⟨passes, hw⟩ := h
  obtain ⟨n, hw'⟩ := h'
  exact Option.some.inj ((fsOpenFile_mono (Nat.le_max_left passes n) hw).symm.trans
    (fsOpenFile_mono (Nat.le_max_right passes n) hw'))

theorem OpensDirectory.unique {w' : Walk} (h : s.OpensDirectory pathname w)
    (h' : s.OpensDirectory pathname w') : w = w' := by
  obtain ⟨passes, hw⟩ := h
  obtain ⟨n, hw'⟩ := h'
  exact Option.some.inj ((fsOpenDirectory_mono (Nat.le_max_left passes n) hw).symm.trans
    (fsOpenDirectory_mono (Nat.le_max_right passes n) hw'))

/-- There is a file to read the storage with and a place for the mount, the root directory of the
storage can be read, and its files can be mounted. -/
def RootOk (s : Rootfs) (storage : Storage) (fd target : Nat) : Prop :=
  s.files fd ≠ none ∧ s.mountCnt ≤ mountMax ∧ ∃ root ∈ storage.inode 0, s.MountOk storage root target

def FsMountOk (s : Rootfs) (storage : Storage) (source target : List Byte) (memory : Bool) : Prop :=
  s.OpenEnds source memory ∧ ∀ device, s.Opens source memory device → ∀ fd ∈ device.result,
    device.rootfs.DirectoryEnds target ∧
    ∀ directory, device.rootfs.OpensDirectory target directory → ∀ i ∈ directory.result,
      directory.rootfs.RootOk storage fd i

def mountRoot (passes : Nat) (s : Rootfs) (storage : Storage) (fd target : Nat) : Option Rootfs :=
  if s.files fd = none ∨ mountMax < s.mountCnt then none
  else do
    let inodeRoot ← storage.inode 0
    let s := { s with storages := Function.update s.storages s.mountCnt storage }
    let s ← s.fsMountDirectory passes s.mountCnt inodeRoot target
    some { s with mountCnt := s.mountCnt + 1 }

variable {storage : Storage} {source target : List Byte} {fd : Nat} {device directory : Walk}

theorem mountRoot_mono (hle : passes ≤ n) (h : s.mountRoot passes storage fd i = some t) :
    s.mountRoot n storage fd i = some t := by
  obtain ⟨hok, h⟩ := Option.ite_none_left_eq_some.mp h
  obtain ⟨root, hroot, h⟩ := Option.bind_eq_some_iff.mp h
  obtain ⟨u, hu, ht⟩ := Option.bind_eq_some_iff.mp h
  exact Option.ite_none_left_eq_some.mpr ⟨hok, Option.bind_eq_some_iff.mpr
    ⟨root, hroot, Option.bind_eq_some_iff.mpr ⟨u, fsMountDirectory_mono hle hu, ht⟩⟩⟩

theorem Prepared.mountRoot_iff (h : Prepared s none) (hdir : s.IsDir i) :
    (∃ passes t, s.mountRoot passes storage fd i = some t) ↔ s.RootOk storage fd i := by
  obtain ⟨ahead, hcounted⟩ := h.counted
  have h₀ : Prepared { s with storages := Function.update s.storages s.mountCnt storage } none :=
    h.same (h.use.storages _) rfl rfl ⟨ahead, hcounted.same ⟨rfl, rfl, rfl, rfl⟩⟩
  have hmounts := h₀.fsMountDirectory_iff s.mountCnt hdir.1 fun _ => hdir
  simp only [Function.update_self] at hmounts
  constructor
  · rintro ⟨passes, t, ht⟩
    obtain ⟨hok, ht⟩ := Option.ite_none_left_eq_some.mp ht
    obtain ⟨root, hroot, ht⟩ := Option.bind_eq_some_iff.mp ht
    obtain ⟨u, hu, -⟩ := Option.bind_eq_some_iff.mp ht
    obtain ⟨hfile, hcnt⟩ := not_or.mp hok
    exact ⟨hfile, Nat.le_of_not_lt hcnt, root, hroot,
      (hmounts root).mp ⟨passes, by rw [hu]; rfl⟩⟩
  · rintro ⟨hfile, hcnt, root, hroot, hmount⟩
    obtain ⟨passes, hsome⟩ := (hmounts root).mpr hmount
    obtain ⟨u, hu⟩ := Option.isSome_iff_exists.mp hsome
    exact ⟨passes, _, Option.ite_none_left_eq_some.mpr ⟨not_or.mpr ⟨hfile, Nat.not_lt.mpr hcnt⟩,
      Option.bind_eq_some_iff.mpr ⟨root, hroot, Option.bind_eq_some_iff.mpr ⟨u, hu, rfl⟩⟩⟩⟩

theorem fsMount_eq_some : s.fsMount passes storage source target memory = some t ↔
    ∃ device, s.fsOpenFile passes source memory = some device ∧
      ((device.result = none ∧ device.rootfs = t) ∨ ∃ fd, device.result = some fd ∧
        ∃ directory, device.rootfs.fsOpenDirectory passes target = some directory ∧
          ((directory.result = none ∧ directory.rootfs = t) ∨ ∃ i, directory.result = some i ∧
            directory.rootfs.mountRoot passes storage fd i = some t)) := by
  rw [fsMount, Option.bind_eq_bind, Option.bind_eq_some_iff]
  refine exists_congr fun device => and_congr_right fun _ => ?_
  cases device.result with
  | none => simp
  | some fd =>
      simp only [Option.bind_eq_bind, Option.bind_eq_some_iff, reduceCtorEq, false_and, false_or,
        Option.some.injEq, exists_eq_left']
      refine exists_congr fun directory => and_congr_right fun _ => ?_
      cases directory.result with
      | none => simp
      | some i => simp [mountRoot]

theorem Prepared.fsMount_iff (h : Prepared s none) :
    (∃ passes t, s.fsMount passes storage source target memory = some t) ↔
      s.FsMountOk storage source target memory := by
  have hopened : ∀ {device}, s.Opens source memory device → Prepared device.rootfs none := by
    rintro device ⟨passes, hdevice⟩
    exact h.acts (h.use.fsOpenFile_acts False hdevice)
  have hfound : ∀ {s₁ : Rootfs} {directory}, Prepared s₁ none →
      s₁.OpensDirectory target directory → Prepared directory.rootfs none ∧
        ∀ i ∈ directory.result, directory.rootfs.IsDir i := by
    rintro s₁ directory h₁ ⟨passes, hdirectory⟩
    obtain ⟨hacts, hdirs⟩ := h₁.use.fsOpenDirectory_acts False hdirectory
    exact ⟨h₁.acts hacts, hdirs⟩
  constructor
  · rintro ⟨passes, t, ht⟩
    obtain ⟨device, hdevice, hrest⟩ := fsMount_eq_some.mp ht
    refine ⟨h.fsOpenFile_iff.mp ⟨passes, by rw [hdevice]; rfl⟩, fun device' hdevice' fd hfd => ?_⟩
    obtain rfl := Opens.unique ⟨passes, hdevice⟩ hdevice'
    have h₁ := hopened hdevice'
    obtain ⟨hnone, -⟩ | ⟨fd', hfd', directory, hdirectory, hrest⟩ := hrest
    · rw [hnone] at hfd
      cases hfd
    obtain rfl := Option.some.inj (hfd'.symm.trans hfd)
    refine ⟨h₁.fsOpenDirectory_iff.mp ⟨passes, by rw [hdirectory]; rfl⟩,
      fun directory' hdirectory' i hi => ?_⟩
    obtain rfl := OpensDirectory.unique ⟨passes, hdirectory⟩ hdirectory'
    obtain ⟨h₂, hdirs⟩ := hfound h₁ hdirectory'
    obtain ⟨hnone, -⟩ | ⟨i', hi', hroot⟩ := hrest
    · rw [hnone] at hi
      cases hi
    obtain rfl := Option.some.inj (hi'.symm.trans hi)
    exact (h₂.mountRoot_iff (hdirs _ hi)).mp ⟨passes, t, hroot⟩
  · rintro ⟨hends, hrest⟩
    obtain ⟨p₁, hsome⟩ := h.fsOpenFile_iff.mpr hends
    obtain ⟨device, hdevice⟩ := Option.isSome_iff_exists.mp hsome
    have h₁ := hopened ⟨p₁, hdevice⟩
    cases hfd : device.result with
    | none => exact ⟨p₁, _, fsMount_eq_some.mpr ⟨device, hdevice, Or.inl ⟨hfd, rfl⟩⟩⟩
    | some fd =>
        obtain ⟨hends', hrest'⟩ := hrest device ⟨p₁, hdevice⟩ fd hfd
        obtain ⟨p₂, hsome'⟩ := h₁.fsOpenDirectory_iff.mpr hends'
        obtain ⟨directory, hdirectory⟩ := Option.isSome_iff_exists.mp hsome'
        obtain ⟨h₂, hdirs⟩ := hfound h₁ ⟨p₂, hdirectory⟩
        cases hi : directory.result with
        | none =>
            exact ⟨max p₁ p₂, _, fsMount_eq_some.mpr ⟨device,
              fsOpenFile_mono (Nat.le_max_left ..) hdevice, Or.inr ⟨fd, hfd, directory,
                fsOpenDirectory_mono (Nat.le_max_right ..) hdirectory, Or.inl ⟨hi, rfl⟩⟩⟩⟩
        | some i =>
            obtain ⟨p₃, t, ht⟩ := (h₂.mountRoot_iff (hdirs i hi)).mpr
              (hrest' directory ⟨p₂, hdirectory⟩ i hi)
            exact ⟨max (max p₁ p₂) p₃, t, fsMount_eq_some.mpr ⟨device,
              fsOpenFile_mono (by omega) hdevice, Or.inr ⟨fd, hfd, directory,
                fsOpenDirectory_mono (by omega) hdirectory, Or.inr ⟨i, hi,
                  mountRoot_mono (by omega) ht⟩⟩⟩⟩

/-- In every reachable state, exactly these directories are loaded and storages mounted, with at
most as many new entries as there are inodes. -/
theorem mounts_iff {sInoAddr sBlkAddr : Nat} {calls : List RootfsCall}
    (hrun : Runs.exec call (rootfsInit sInoAddr sBlkAddr) calls = some s) :
    (∀ dir, s.bitmapInodes dir = true → (s.inodes dir).iSync = false →
      ((∃ passes t, s.syncDirectory passes dir = some t ∧ t.entryCnt ≤ s.entryCnt + inodeMax) ↔
        s.LoadOk dir)) ∧
    ∀ storage source target memory,
      ((∃ passes t, s.fsMount passes storage source target memory = some t ∧
          t.entryCnt ≤ s.entryCnt + inodeMax) ↔
        s.FsMountOk storage source target memory) := by
  have h := prepared_of_run hrun
  refine ⟨fun dir hbit hsync => ?_, fun storage source target memory => ?_⟩
  · rw [← h.syncDirectory_iff hbit hsync]
    refine exists_congr fun passes => ?_
    rw [Option.isSome_iff_exists]
    refine exists_congr fun t => and_iff_left_of_imp fun hload => ?_
    exact (OwnInodes.fsMountDirectory h.use hbit hload).entryCnt
  · rw [← h.fsMount_iff]
    refine exists_congr fun passes => exists_congr fun t => and_iff_left_of_imp fun hmount => ?_
    have hcall : s.call (.mount passes storage source target memory) = some t := hmount
    have hacts : Relation.ReflTransGen (Act False) s t := h.use.call_acts False.elim hcall
    exact (OwnInodes.acts h.use hacts).entryCnt

def deviceCalls : List RootfsCall := [.createFile 0 [slash, 98#8] sIfblk true]

/-- The image with one file is mounted at the root directory. -/
theorem deviceCalls_mountOk : ∃ s,
    Runs.exec call (rootfsInit 0x20010000 0x20020000) deviceCalls = some s ∧
      s.FsMountOk (fileImage 3#8) [slash, 98#8] [slash] true := by
  have hread : (Runs.exec call (rootfsInit 0x20010000 0x20020000) deviceCalls).any (fun s =>
      (s.fsMount 1 (fileImage 3#8) [slash, 98#8] [slash] true).any fun t =>
        t.entryCnt ≤ s.entryCnt + inodeMax) = true := by decide +kernel
  obtain ⟨s, hrun, hs⟩ := (Option.any_eq_true ..).mp hread
  obtain ⟨t, hmount, hcnt⟩ := (Option.any_eq_true ..).mp hs
  exact ⟨s, hrun, ((mounts_iff hrun).2 ..).mp ⟨1, t, hmount, of_decide_eq_true hcnt⟩⟩

/-- The image of a root directory whose only dentry is the next one of itself. -/
def circularImage : Storage where
  read offset size := some ((List.range size).map fun i =>
    if offset + i = 40 then 4#8 else if offset + i = 56 then 56#8 else if offset + i = 60 then 1#8
    else if offset + i = 64 then 16#8 else if offset + i = 65 then 39#8
    else if offset + i = 10000 then 102#8 else if offset + i = 10032 then 1#8
    else if offset + i = 10040 then 56#8 else if offset + i = 10041 then 39#8 else 0#8)

theorem circularImage_entries (n : Nat) : circularImage.entries n 10000 = none := by
  have hdentry : circularImage.dentry 10000 = some ⟨[102#8], 1, 10040⟩ := by decide +kernel
  induction n with
  | zero => rfl
  | succ n ih =>
      have hnext : ¬ 10040 < sizeofSuperBlock + sizeofInode * inodeMax := by decide
      rw [Storage.entries, hdentry]
      simp only [Option.bind_eq_bind, Option.bind_some, if_neg hnext]
      rw [ih]
      rfl

/-- The mount of this image does not end. -/
theorem circularImage_not_mounts : ∃ s,
    Runs.exec call (rootfsInit 0x20010000 0x20020000) deviceCalls = some s ∧
      ∀ passes, s.fsMount passes circularImage [slash, 98#8] [slash] true = none := by
  have hsome : (Runs.exec call (rootfsInit 0x20010000 0x20020000) deviceCalls).any (fun s =>
      (s.fsOpenFile 0 [slash, 98#8] true).any fun w => w.result.isSome) = true := by decide +kernel
  obtain ⟨s, hrun, hs⟩ := (Option.any_eq_true ..).mp hsome
  obtain ⟨device, hopen, hresult⟩ := (Option.any_eq_true ..).mp hs
  obtain ⟨fd, hfd⟩ := Option.isSome_iff_exists.mp hresult
  refine ⟨s, hrun, fun passes => Option.eq_none_iff_forall_ne_some.mpr fun t ht => ?_⟩
  obtain ⟨-, hsteps⟩ := (prepared_of_run hrun).fsMount_iff.mp ⟨passes, t, ht⟩
  obtain ⟨-, htarget⟩ := hsteps device ⟨0, hopen⟩ fd hfd
  obtain ⟨-, -, root, hroot, hmount⟩ :=
    htarget ⟨device.rootfs, some 0, []⟩ ⟨0, fsOpenDirectory_eq rfl⟩ 0 rfl
  have hread : circularImage.inode 0 = some ⟨sIfdir, 56, 1, 10000⟩ := by decide +kernel
  obtain rfl := Option.some.inj (hread.symm.trans hroot)
  obtain ⟨n, l, hentries, -⟩ := hmount (by decide)
  rw [circularImage_entries] at hentries
  cases hentries

end Rootfs

end Tenok
