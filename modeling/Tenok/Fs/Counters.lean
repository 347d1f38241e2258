import Tenok.Fs.FileBlocks

/-!
The counters of the superblock and the bitmaps that they count. `fs_alloc_inode` counts an inode
and `fs_mount_file` counts it again.
-/
namespace Tenok

namespace Rootfs

/-- The counters are the numbers of set bits, and full exactly when no bit is free. -/
structure CountersMatch (s : Rootfs) : Prop where
  inodes : s.sInodeCnt = (List.range inodeMax).countP s.bitmapInodes
  blks : s.sBlkCnt = (List.range fsBlkCnt).countP s.bitmapBlks
  inodesFull : inodeMax ≤ s.sInodeCnt ↔ s.fsAllocInode = none
  blksFull : fsBlkCnt ≤ s.sBlkCnt ↔ s.fsAllocBlock = none

/-- Nothing is mounted: the directory on the storage is empty or no inode is left. -/
def MountsNothing (s : Rootfs) : RootfsEvent → Prop
  | .addFile _ _ _ _ | .appendBlock _ => True
  | .mountDirectory _ src _ _ => src.iSize = 0 ∨ inodeMax ≤ s.sInodeCnt
  | .syncDirectory dir _ => (s.inodes dir).iSize = 0 ∨ inodeMax ≤ s.sInodeCnt

instance decidableMountsNothing (s : Rootfs) : (e : RootfsEvent) → Decidable (s.MountsNothing e)
  | .addFile _ _ _ _ | .appendBlock _ => inferInstanceAs (Decidable True)
  | .mountDirectory _ src _ _ => inferInstanceAs (Decidable (src.iSize = 0 ∨ _))
  | .syncDirectory dir _ => inferInstanceAs (Decidable ((s.inodes dir).iSize = 0 ∨ _))

/-- The counter of the inodes is ahead of their bitmap by this many. -/
structure Counted (s : Rootfs) (ahead : Nat) : Prop where
  inodes : s.sInodeCnt = (List.range inodeMax).countP s.bitmapInodes + ahead
  blks : s.sBlkCnt = (List.range fsBlkCnt).countP s.bitmapBlks

structure SameCounters (s s' : Rootfs) : Prop where
  sInodeCnt : s'.sInodeCnt = s.sInodeCnt
  sBlkCnt : s'.sBlkCnt = s.sBlkCnt
  bitmapInodes : s'.bitmapInodes = s.bitmapInodes
  bitmapBlks : s'.bitmapBlks = s.bitmapBlks

variable {s s' : Rootfs} {ahead n k dir : Nat} {bits : Nat → Bool}

theorem countP_range_update (hk : k < n) (hbit : bits k = false) :
    (List.range n).countP (Function.update bits k true) = (List.range n).countP bits + 1 := by
  induction n with
  | zero => exact absurd hk (Nat.not_lt_zero k)
  | succ n ih =>
      rw [List.range_succ, List.countP_append, List.countP_append]
      obtain hlt | rfl := Nat.lt_succ_iff_lt_or_eq.mp hk
      · have hlast : Function.update bits k true n = bits n :=
          Function.update_of_ne (Nat.ne_of_gt hlt) ..
        rw [ih hlt, List.countP_singleton, List.countP_singleton, hlast]
        omega
      · have hrest : (List.range k).countP (Function.update bits k true) =
            (List.range k).countP bits := by
          refine List.countP_congr fun i hi => ?_
          rw [Function.update_of_ne (Nat.ne_of_lt (List.mem_range.mp hi))]
        rw [hrest, List.countP_singleton, List.countP_singleton, Function.update_self, hbit]
        rfl

theorem le_countP_range_iff :
    n ≤ (List.range n).countP bits ↔ ∀ i < n, bits i = true := by
  have hle : (List.range n).countP bits ≤ n := by
    simpa using List.countP_le_length (p := bits) (l := List.range n)
  have hfull := List.countP_eq_length (p := bits) (l := List.range n)
  rw [List.length_range] at hfull
  constructor
  · intro h i hi
    exact hfull.mp (le_antisymm hle h) i (List.mem_range.mpr hi)
  · intro h
    exact (hfull.mpr fun i hi => h i (List.mem_range.mp hi)).ge

theorem fsAllocInode_eq_none : s.fsAllocInode = none ↔ ∀ i < inodeMax, s.bitmapInodes i = true := by
  simp [fsAllocInode]

theorem fsAllocBlock_eq_none : s.fsAllocBlock = none ↔ ∀ i < fsBlkCnt, s.bitmapBlks i = true := by
  simp [fsAllocBlock]

theorem countersMatch_iff_counted : CountersMatch s ↔ Counted s 0 := by
  constructor
  · intro h
    exact ⟨h.inodes, h.blks⟩
  · intro h
    refine ⟨h.inodes, h.blks, ?_, ?_⟩
    · rw [h.inodes, Nat.add_zero, le_countP_range_iff, fsAllocInode_eq_none]
    · rw [h.blks, le_countP_range_iff, fsAllocBlock_eq_none]

theorem Counted.same (h : Counted s ahead) (hsame : SameCounters s s') : Counted s' ahead :=
  ⟨by rw [hsame.sInodeCnt, hsame.bitmapInodes, h.inodes],
    by rw [hsame.sBlkCnt, hsame.bitmapBlks, h.blks]⟩

theorem Counted.fsAllocInode {i : Nat} (h : Counted s ahead) (halloc : s.fsAllocInode = some (i, s')) :
    Counted s' ahead := by
  have hi : i < inodeMax := by
    obtain ⟨j, hfind, hpair⟩ := Option.map_eq_some_iff.mp halloc
    obtain rfl := (Prod.mk.inj hpair).1
    exact List.mem_range.mp (List.mem_of_find?_eq_some hfind)
  obtain ⟨hfree, rfl⟩ := fsAllocInode_spec halloc
  refine ⟨?_, h.blks⟩
  simp only [countP_range_update hi hfree, h.inodes]
  omega

theorem Counted.fsAllocBlock {addr : Nat} (h : Counted s ahead)
    (halloc : s.fsAllocBlock = some (addr, s')) : Counted s' ahead := by
  obtain ⟨k, hk, hfree, -, rfl⟩ := fsAllocBlock_spec halloc
  refine ⟨h.inodes, ?_⟩
  simp only [countP_range_update hk hfree, h.blks]

theorem Counted.fsAllocateDentry {addr : Nat} (h : Counted s ahead)
    (halloc : s.fsAllocateDentry dir = some (addr, s')) : Counted s' ahead := by
  simp only [Rootfs.fsAllocateDentry] at halloc
  split at halloc
  · obtain ⟨last, -, hpair⟩ := Option.bind_eq_some_iff.mp halloc
    obtain ⟨-, rfl⟩ := Prod.mk.inj (Option.some.inj hpair)
    exact h
  · exact h.fsAllocBlock halloc

theorem insertDentry_sameCounters {addr : Nat} (hins : s.insertDentry dir addr = some s') :
    SameCounters s s' := by
  obtain ⟨list, -, hs'⟩ := Option.bind_eq_some_iff.mp hins
  obtain rfl := Option.some.inj hs'
  exact ⟨rfl, rfl, rfl, rfl⟩

theorem instantiate_sameCounters {ino fd fileType : Nat} {memory : Bool}
    (hinst : s.instantiate ino fd fileType memory = some s') : SameCounters s s' := by
  rw [Rootfs.instantiate] at hinst
  split at hinst
  · cases memory <;> cases hinst
    exact ⟨rfl, rfl, rfl, rfl⟩
  split at hinst
  · cases memory <;> cases hinst
    exact ⟨rfl, rfl, rfl, rfl⟩
  split at hinst
  · cases memory <;> cases hinst
    exact ⟨rfl, rfl, rfl, rfl⟩
  split at hinst
  · cases hinst
    exact ⟨rfl, rfl, rfl, rfl⟩
  · cases hinst

theorem Counted.fsAddFile {fileName : List Byte} {fileType : Nat} {memory : Bool} {r : Option Nat}
    (h : Counted s ahead) (hadd : s.fsAddFile dir fileName fileType memory = some (s', r)) :
    Counted s' ahead := by
  obtain ⟨rfl, -, -⟩ | ⟨ino, addr, s₁, s₂, hadds, hfile⟩ := fsAddFile_cases hadd
  · exact h
  have h₁ : Counted (s₁.setInode ino (addedInode (s.inodes dir).iIno
      (s.fileCnt + fileReservedNum))) ahead :=
    (h.fsAllocInode hadds.inode).same ⟨rfl, rfl, rfl, rfl⟩
  have h₂ : Counted (named s s₂ dir ino addr fileName) ahead :=
    (h₁.fsAllocateDentry hadds.dentry).same ⟨rfl, rfl, rfl, rfl⟩
  obtain ⟨-, rfl, -⟩ | ⟨s₃, hinst, -, hins⟩ := hfile
  · exact h₂
  · have h₃ := h₂.same (instantiate_sameCounters hinst)
    have h₄ : Counted ({ s₃ with fileCnt := s₃.fileCnt + 1 }.setInode dir (firstDentry addr))
        ahead := h₃.same ⟨rfl, rfl, rfl, rfl⟩
    exact h₄.same (insertDentry_sameCounters hins)

theorem Counted.fsMountFile {rdev : Nat} {mnt : StoredInode} {name : List Byte}
    (h : Counted s ahead) (hmount : s.fsMountFile dir rdev mnt name = some s') :
    (inodeMax ≤ s.sInodeCnt ∧ s' = s) ∨ (s.sInodeCnt < inodeMax ∧ Counted s' (ahead + 1)) := by
  obtain hfull | ⟨ino, addr, s₁, s₂, hroom, halloc, hdentry, hins⟩ := fsMountFile_cases hmount
  · exact Or.inl hfull
  have h₀ : Counted { s with fileCnt := s.fileCnt + 1 } ahead := h.same ⟨rfl, rfl, rfl, rfl⟩
  have h₁ : Counted (s₁.setInode ino (mountedInode rdev (s.inodes dir).iIno
      (s.fileCnt + fileReservedNum) mnt)) ahead :=
    (h₀.fsAllocInode halloc).same ⟨rfl, rfl, rfl, rfl⟩
  have h₂ := h₁.fsAllocateDentry hdentry
  have hagain : Counted { s₂.setDentry addr
      { dName := name.take nameMax, dInode := ino, dParent := (s.inodes dir).iIno } with
        sInodeCnt := s₂.sInodeCnt + 1 } (ahead + 1) := by
    refine ⟨?_, h₂.blks⟩
    simp only [h₂.inodes]
    rfl
  exact Or.inr ⟨hroom, hagain.same (insertDentry_sameCounters hins)⟩

theorem Counted.mountLoop {rdev passes addr : Nat} {inode : Option StoredInode}
    (h : Counted s ahead) (hloop : mountLoop rdev dir passes s addr inode = some s') :
    (inodeMax ≤ s.sInodeCnt ∧ s' = s) ∨
      (s.sInodeCnt < inodeMax ∧ ∃ further, ahead < further ∧ Counted s' further) := by
  induction passes generalizing s ahead addr inode with
  | zero => cases hloop
  | succ passes ih =>
      rw [Rootfs.mountLoop] at hloop
      obtain ⟨dentry, -, hpass⟩ := Option.bind_eq_some_iff.mp hloop
      obtain ⟨mnt, -, hmount⟩ := Option.bind_eq_some_iff.mp hpass
      obtain ⟨s₁, hfile, hrest⟩ := Option.bind_eq_some_iff.mp hmount
      clear hloop hpass hmount
      obtain ⟨hfull, rfl⟩ | ⟨hroom, h₁⟩ := h.fsMountFile hfile
      · split at hrest
        · exact Or.inl ⟨hfull, (Option.some.inj hrest).symm⟩
        · exact ih h hrest
      · refine Or.inr ⟨hroom, ?_⟩
        split at hrest
        · obtain rfl := Option.some.inj hrest
          exact ⟨ahead + 1, Nat.lt_succ_self ahead, h₁⟩
        · obtain ⟨-, rfl⟩ | ⟨-, further, hlt, h'⟩ := ih h₁ hrest
          · exact ⟨ahead + 1, Nat.lt_succ_self ahead, h₁⟩
          · exact ⟨further, Nat.lt_of_succ_lt hlt, h'⟩

theorem Counted.fsMountDirectory {rdev passes : Nat} {src : StoredInode} (h : Counted s ahead)
    (hmount : s.fsMountDirectory passes rdev src dir = some s') :
    ((src.iSize = 0 ∨ inodeMax ≤ s.sInodeCnt) ∧ Counted s' ahead) ∨
      (¬ (src.iSize = 0 ∨ inodeMax ≤ s.sInodeCnt) ∧ ∃ further, ahead < further ∧
        Counted s' further) := by
  rw [Rootfs.fsMountDirectory] at hmount
  split at hmount
  · next hempty =>
      obtain rfl := Option.some.inj hmount
      exact Or.inl ⟨Or.inl hempty, h⟩
  · next hsize =>
      obtain ⟨s₁, hloop, hs'⟩ := Option.bind_eq_some_iff.mp hmount
      obtain rfl := Option.some.inj hs'
      have hfirst : ∀ {s₀ : Rootfs}, SameCounters s s₀ →
          Rootfs.mountLoop rdev dir passes s₀ src.iData none = some s₁ →
          ((src.iSize = 0 ∨ inodeMax ≤ s.sInodeCnt) ∧ Counted s₁ ahead) ∨
            (¬ (src.iSize = 0 ∨ inodeMax ≤ s.sInodeCnt) ∧ ∃ further, ahead < further ∧
              Counted s₁ further) := by
        intro s₀ hsame hloop
        have hcnt := hsame.sInodeCnt
        obtain ⟨hfull, rfl⟩ | ⟨hroom, hfurther⟩ := (h.same hsame).mountLoop hloop
        · exact Or.inl ⟨Or.inr (hcnt ▸ hfull), h.same hsame⟩
        · exact Or.inr ⟨by rintro (hempty | hfull) <;> omega, hfurther⟩
      have hend : ∀ {ahead}, Counted s₁ ahead →
          Counted (s₁.setInode dir fun n => { n with iSync := true }) ahead :=
        fun h₁ => h₁.same ⟨rfl, rfl, rfl, rfl⟩
      refine (hfirst ?_ hloop).imp (And.imp_right hend) fun hroom => ?_
      · split <;> exact ⟨rfl, rfl, rfl, rfl⟩
      · obtain ⟨hnot, further, hlt, h₁⟩ := hroom
        exact ⟨hnot, further, hlt, hend h₁⟩

theorem Counted.fsFileAppendBlock {ino r : Nat} (h : Counted s ahead)
    (happ : s.fsFileAppendBlock ino = some (s', r)) : Counted s' ahead := by
  obtain ⟨rfl, -⟩ | ⟨k, hk, hfree, -, rfl⟩ := fsFileAppendBlock_cases happ
  · exact h
  · refine ⟨h.inodes, ?_⟩
    simp only [Rootfs.setInode, countP_range_update hk hfree, h.blks]

theorem Counted.step {e : RootfsEvent} (h : Counted s 0) (hstep : s.step e = some s') :
    s.MountsNothing e ↔ Counted s' 0 := by
  have hunique : ∀ {further}, 0 < further → Counted s' further → ¬ Counted s' 0 := by
    intro further hlt hfurther hzero
    have hcnt := hfurther.inodes
    rw [hzero.inodes] at hcnt
    omega
  cases e with
  | addFile dir fileName fileType memory =>
      obtain ⟨-, hcall⟩ := Option.ite_none_right_eq_some.mp hstep
      obtain ⟨⟨_, r⟩, hadd, rfl⟩ := Option.map_eq_some_iff.mp hcall
      exact iff_of_true trivial (h.fsAddFile hadd)
  | mountDirectory storage src target passes =>
      obtain ⟨-, hcall⟩ := Option.ite_none_right_eq_some.mp hstep
      obtain ⟨s₁, hmount, hs'⟩ := Option.bind_eq_some_iff.mp hcall
      obtain rfl := Option.some.inj hs'
      have h₀ : Counted { s with
          storages := Function.update s.storages s.mountCnt storage } 0 :=
        h.same ⟨rfl, rfl, rfl, rfl⟩
      obtain ⟨hnothing, h₁⟩ | ⟨hsome, further, hlt, h₁⟩ := h₀.fsMountDirectory hmount
      · exact iff_of_true hnothing (h₁.same ⟨rfl, rfl, rfl, rfl⟩)
      · exact iff_of_false hsome (hunique hlt (h₁.same ⟨rfl, rfl, rfl, rfl⟩))
  | syncDirectory dir passes =>
      obtain ⟨-, hcall⟩ := Option.ite_none_right_eq_some.mp hstep
      obtain ⟨hnothing, h₁⟩ | ⟨hsome, further, hlt, h₁⟩ := h.fsMountDirectory hcall
      · exact iff_of_true hnothing h₁
      · exact iff_of_false hsome (hunique hlt h₁)
  | appendBlock ino =>
      obtain ⟨-, hcall⟩ := Option.ite_none_right_eq_some.mp hstep
      obtain ⟨⟨_, r⟩, happ, rfl⟩ := Option.map_eq_some_iff.mp hcall
      exact iff_of_true trivial (h.fsFileAppendBlock happ)

theorem rootfsInit_counted (sInoAddr sBlkAddr : Nat) : Counted (rootfsInit sInoAddr sBlkAddr) 0 :=
  ⟨rfl, rfl⟩

/-- The counters match in every state of a run exactly if nothing is mounted in it. -/
theorem countersMatch_iff_mountsNothing {sInoAddr sBlkAddr : Nat} {events : List RootfsEvent}
    (hrun : Runs.exec step (rootfsInit sInoAddr sBlkAddr) events = some s) :
    Runs.AllOk MountsNothing step (rootfsInit sInoAddr sBlkAddr) events ↔
      ∀ n u, Runs.exec step (rootfsInit sInoAddr sBlkAddr) (events.take n) = some u →
        CountersMatch u :=
  Runs.allOk_iff_forall_take (I := fun _ => True) (fun _ _ _ _ _ => trivial)
    (fun _ _ _ _ hP hstep => by
      rw [countersMatch_iff_counted] at hP ⊢
      exact hP.step hstep) trivial
    (countersMatch_iff_counted.mpr (rootfsInit_counted sInoAddr sBlkAddr)) hrun

def emptyImage : Storage where
  read _ size := some (List.replicate size 0#8)

def createdRun : List RootfsEvent :=
  [.addFile 0 [97#8] sIfreg true, .appendBlock 1, .addFile 0 [98#8] sIfdir true,
    .mountDirectory emptyImage ⟨sIfdir, 0, 0, 0⟩ 0 1]

theorem createdRun_countersMatch : ∃ s,
    Runs.exec step (rootfsInit 0x20010000 0x20020000) createdRun = some s ∧
      s.sInodeCnt = 3 ∧ s.sBlkCnt = 2 ∧ CountersMatch s := by
  have hread : (Runs.exec step (rootfsInit 0x20010000 0x20020000) createdRun).map
      (fun s => (s.sInodeCnt, s.sBlkCnt)) = some (3, 2) := by decide +kernel
  obtain ⟨s, hrun, hread⟩ := Option.map_eq_some_iff.mp hread
  obtain ⟨hinodes, hblks⟩ := Prod.mk.inj hread
  have hok : Runs.AllOk MountsNothing step (rootfsInit 0x20010000 0x20020000) createdRun := by
    decide +kernel
  exact ⟨s, hrun, hinodes, hblks,
    (countersMatch_iff_mountsNothing hrun).mp hok createdRun.length s (by rwa [List.take_length])⟩

/-- A file is mounted: two inodes are in use and three are counted. -/
theorem countersMatch_not_mounted : ∃ s,
    Runs.exec step (rootfsInit 0x20010000 0x20020000)
      [.mountDirectory emptyImage ⟨sIfdir, sizeofDentry, 1, 10000⟩ 0 1] = some s ∧
      s.sInodeCnt = 3 ∧ (List.range inodeMax).countP s.bitmapInodes = 2 ∧ ¬ CountersMatch s := by
  have hread : (Runs.exec step (rootfsInit 0x20010000 0x20020000)
      [.mountDirectory emptyImage ⟨sIfdir, sizeofDentry, 1, 10000⟩ 0 1]).map
      (fun s => (s.sInodeCnt, (List.range inodeMax).countP s.bitmapInodes)) = some (3, 2) := by
    decide +kernel
  obtain ⟨s, hrun, hread⟩ := Option.map_eq_some_iff.mp hread
  obtain ⟨hcnt, hbits⟩ := Prod.mk.inj hread
  refine ⟨s, hrun, hcnt, hbits, fun h => ?_⟩
  have hmatch := h.inodes
  rw [hcnt, hbits] at hmatch
  exact absurd hmatch (by decide)

end Rootfs

end Tenok
