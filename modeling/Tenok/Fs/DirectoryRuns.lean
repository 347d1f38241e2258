import Tenok.Fs.FileBlocks

/-!
Directories over whole runs: from the root directory on, every call keeps the blocks apart, so
the dentries never meet.
-/
namespace Tenok

namespace Rootfs
variable {s s' : Rootfs} {own : Nat → List Nat} {mounting : Option Nat}
  {devs d d' i j k a b : Nat}

theorem rootfsInit_laid {sInoAddr sBlkAddr : Nat} (hnull : 0 < sBlkAddr)
    (hend : sBlkAddr + fsBlkSize * fsBlkCnt ≤ 2 ^ 32) :
    Laid (rootfsInit sInoAddr sBlkAddr) (fun _ => []) none (rootfsInit sInoAddr sBlkAddr).mountCnt
    where
  fits := ⟨hnull, hend⟩
  mounted := Nat.one_pos
  blocks := .nil _
  unused i hi := by
    have hne : i ≠ 0 := by simpa [rootfsInit] using hi
    exact ⟨rfl, if_neg hne⟩
  inodes i hi := by
    obtain rfl : i = 0 := by simpa [rootfsInit] using hi
    refine ⟨Nat.one_pos, fun _ => ?_, fun hmode => nomatch hmode⟩
    exact ⟨0, rfl, rfl, fun _ => ⟨rfl, rfl⟩, fun hnot => absurd (Or.inl rfl) hnot, Or.inl rfl⟩

theorem Laid.addStorage {storage : Storage} (h : Laid s own none devs) :
    Laid { s with storages := Function.update s.storages devs storage } own none (devs + 1) where
  fits := h.fits
  mounted := Nat.succ_pos devs
  blocks := h.blocks
  unused := h.unused
  inodes i hi := by
    have hok := h.inodes i hi
    refine ⟨Nat.lt_succ_of_lt hok.rdev, fun hmode => ?_, fun hmode hrdev => ?_⟩
    · obtain ⟨n, hdir⟩ := hok.dir hmode
      refine ⟨n, hdir.list, hdir.blocks, hdir.counted, fun hnot => ?_, hdir.device⟩
      simp only [Function.update_of_ne (Nat.ne_of_lt hok.rdev)]
      exact hdir.stored hnot
    · obtain ⟨hblocks, hlinked⟩ := hok.file hmode hrdev
      exact ⟨hblocks, hlinked⟩

theorem Laid.setMountCnt (h : Laid s own none devs) (n : Nat) :
    Laid { s with mountCnt := n } own none devs where
  fits := h.fits
  mounted := h.mounted
  blocks := h.blocks
  unused := h.unused
  inodes i hi := by
    have hok := h.inodes i hi
    refine ⟨hok.rdev, fun hmode => ?_, fun hmode hrdev => ?_⟩
    · obtain ⟨n, hdir⟩ := hok.dir hmode
      exact ⟨n, hdir.list, hdir.blocks, hdir.counted, hdir.stored, hdir.device⟩
    · obtain ⟨hblocks, hlinked⟩ := hok.file hmode hrdev
      exact ⟨hblocks, hlinked⟩

theorem Laid.step {e : RootfsEvent} (h : ∃ own, Laid s own none s.mountCnt) (hok : s.EntryOk e)
    (hstep : s.step e = some s') : ∃ own, Laid s' own none s'.mountCnt := by
  obtain ⟨own, h⟩ := h
  cases e with
  | addFile dir fileName fileType memory =>
      obtain ⟨hdir, hcall⟩ := Option.ite_none_right_eq_some.mp hstep
      obtain ⟨⟨_, r⟩, hadd, rfl⟩ := Option.map_eq_some_iff.mp hcall
      obtain ⟨howned, hcnt⟩ := h.fsAddFile hdir hok hadd
      exact hcnt ▸ howned
  | mountDirectory storage src target passes =>
      obtain ⟨⟨hdir, -⟩, hcall⟩ := Option.ite_none_right_eq_some.mp hstep
      obtain ⟨s₁, hmount, hs'⟩ := Option.bind_eq_some_iff.mp hcall
      obtain rfl := Option.some.inj hs'
      have hrdev : s.mountCnt < s.mountCnt + 1 ∧ s.mountCnt ≠ rdevRootfs :=
        ⟨Nat.lt_succ_self _, Nat.ne_of_gt h.mounted⟩
      have hcounts : (Function.update s.storages s.mountCnt storage s.mountCnt).CountsAll
          ((Function.update s.storages s.mountCnt storage s.mountCnt).visited passes src.iData
            none) := by
        rw [Function.update_self]
        exact hok
      obtain ⟨⟨own₁, h₁⟩, hcnt⟩ := h.addStorage.fsMountDirectory hdir hrdev hcounts hmount
      refine ⟨own₁, ?_⟩
      rw [hcnt]
      exact h₁.setMountCnt _
  | syncDirectory dir passes =>
      obtain ⟨⟨hdir, hsync⟩, hcall⟩ := Option.ite_none_right_eq_some.mp hstep
      have hdev := h.inodes dir hdir.1
      obtain ⟨_, hstored⟩ := hdev.dir hdir.2
      have hrdev : (s.inodes dir).iRdev ≠ rdevRootfs :=
        hstored.device.resolve_left (by simp [hsync])
      have hcounts : (s.storages (s.inodes dir).iRdev).CountsAll
          ((s.storages (s.inodes dir).iRdev).visited passes (storedInode (s.inodes dir)).iData
            none) := hok
      obtain ⟨howned, hcnt⟩ := h.fsMountDirectory hdir ⟨hdev.rdev, hrdev⟩ hcounts hcall
      exact hcnt ▸ howned
  | appendBlock ino =>
      obtain ⟨hfile, hcall⟩ := Option.ite_none_right_eq_some.mp hstep
      obtain ⟨⟨_, r⟩, happ, rfl⟩ := Option.map_eq_some_iff.mp hcall
      obtain ⟨howned, hcnt⟩ := h.fsFileAppendBlock hfile happ
      exact hcnt ▸ howned

theorem Laid.slot_block (h : Laid s own mounting devs) (hdir : s.IsDir d)
    (hi : (s.dentriesOf d)[i]? = some a) :
    ∃ k, (own d)[i / 2]? = some k ∧ k ∈ s.usedBlks ∧ a = s.blkAddr k + sizeofDentry * (i % 2) := by
  obtain ⟨n, hok⟩ := (h.inodes d hdir.1).dir hdir.2
  rw [dentriesOf, hok.list, Option.getD_some, List.getElem?_map] at hi
  obtain ⟨_, hrange, rfl⟩ := Option.map_eq_some_iff.mp hi
  obtain ⟨hlt, rfl⟩ := List.getElem?_eq_some_iff.mp hrange
  rw [List.length_range] at hlt
  have hblk : i / 2 < (own d).length := by
    have hlen := hok.blocks
    omega
  have hmem : (own d)[i / 2] ∈ s.usedBlks := h.blocks.used d _ (List.getElem_mem hblk)
  refine ⟨(own d)[i / 2], List.getElem?_eq_getElem hblk, hmem, ?_⟩
  rw [List.getElem_range, slot, List.getD_eq_getElem _ _ hblk]

theorem slot_inside (i : Nat) : s.blkAddr k ≤ s.blkAddr k + sizeofDentry * (i % 2) ∧
    s.blkAddr k + sizeofDentry * (i % 2) + sizeofDentry ≤ s.blkAddr (k + 1) := by
  have hsize : fsBlkSize = 128 := rfl
  have hdentry : sizeofDentry = 56 := rfl
  simp only [blkAddr, hsize, hdentry]
  omega

theorem slot_clear (hne : k ≠ j) (i : Nat) : s.Clear (s.blkAddr k + sizeofDentry * (i % 2)) j := by
  have hsize : fsBlkSize = 128 := rfl
  have hdentry : sizeofDentry = 56 := rfl
  simp only [Clear, blkAddr, hsize, hdentry]
  omega

theorem slot_apart {k' : Nat} (hne : k ≠ k' ∨ i % 2 ≠ j % 2) :
    s.blkAddr k + sizeofDentry * (i % 2) + sizeofDentry ≤ s.blkAddr k' + sizeofDentry * (j % 2) ∨
      s.blkAddr k' + sizeofDentry * (j % 2) + sizeofDentry ≤
        s.blkAddr k + sizeofDentry * (i % 2) := by
  have hsize : fsBlkSize = 128 := rfl
  have hdentry : sizeofDentry = 56 := rfl
  simp only [blkAddr, hsize, hdentry]
  rcases Nat.mod_two_eq_zero_or_one i with hi | hi <;>
    rcases Nat.mod_two_eq_zero_or_one j with hj | hj <;> rw [hi, hj] at hne ⊢ <;> omega

theorem blkOf_slot (i : Nat) : s.blkOf (s.blkAddr k + sizeofDentry * (i % 2)) = k := by
  have hsize : fsBlkSize = 128 := rfl
  have hdentry : sizeofDentry = 56 := rfl
  simp only [blkOf, blkAddr, hsize, hdentry]
  omega

theorem DirOk.card_blocks {bs : List Nat} {n : Nat} (hlen : bs.length = (n + 1) / 2)
    (hnodup : bs.Nodup) :
    (((List.range n).map (s.slot bs)).map s.blkOf).toFinset.card = bs.length := by
  rw [← List.toFinset_card_of_nodup hnodup]
  congr 1
  ext k
  simp only [List.mem_toFinset, List.mem_map, List.mem_range, exists_exists_and_eq_and]
  constructor
  · rintro ⟨i, hi, rfl⟩
    have hblk : i / 2 < bs.length := by omega
    rw [slot, List.getD_eq_getElem _ _ hblk, blkOf_slot]
    exact List.getElem_mem hblk
  · intro hk
    obtain ⟨j, hj, rfl⟩ := List.getElem_of_mem hk
    have hhalf : 2 * j / 2 = j := by omega
    refine ⟨2 * j, by omega, ?_⟩
    rw [slot, hhalf, List.getD_eq_getElem _ _ hj, blkOf_slot]

theorem Laid.dentriesApart (h : Laid s own none devs) : DentriesApart s where
  inside d hdir a ha := by
    obtain ⟨i, hi⟩ := List.getElem?_of_mem ha
    obtain ⟨k, hk, hused, rfl⟩ := h.slot_block hdir hi
    have hmem : k ∈ own d := List.mem_of_getElem? hk
    refine ⟨k, hused.1, hused.2, (slot_inside i).1, (slot_inside i).2, ?_, ?_⟩
    · intro d' hdir' hne b hb
      obtain ⟨j, hj⟩ := List.getElem?_of_mem hb
      obtain ⟨k', hk', -, rfl⟩ := h.slot_block hdir' hj
      refine slot_clear ?_ j
      rintro rfl
      exact hne (h.blocks.apart d' d k' (List.mem_of_getElem? hk') hmem)
    · intro f hfile hin
      obtain ⟨hbit, hmode, hrdev⟩ := hfile
      have hfiles : s.fileBlocks f = (own f).map s.blkAddr :=
        ((h.inodes f hbit).file hmode hrdev).fileBlocks
      rw [hfiles, List.mem_map_of_injective blkAddr_injective] at hin
      obtain rfl := h.blocks.apart d f k hmem hin
      exact absurd (hdir.2.symm.trans hmode) (by decide)
  apart d d' i j a b hdir hdir' hi hj hne := by
    obtain ⟨k, hk, -, rfl⟩ := h.slot_block hdir hi
    obtain ⟨k', hk', -, rfl⟩ := h.slot_block hdir' hj
    refine slot_apart ?_
    by_contra hsame
    obtain ⟨rfl, hpar⟩ : k = k' ∧ i % 2 = j % 2 := by omega
    obtain rfl := h.blocks.apart d d' k (List.mem_of_getElem? hk) (List.mem_of_getElem? hk')
    have hhalf : i / 2 = j / 2 :=
      (List.getElem?_inj (List.getElem?_eq_some_iff.mp hk).1 (h.blocks.nodup d)).mp
        (hk.trans hk'.symm)
    exact hne (Prod.ext rfl (show i = j by omega))
  loaded d hdir hsync := by
    obtain ⟨n, hok⟩ := (h.inodes d hdir.1).dir hdir.2
    obtain ⟨hsize, hblocks⟩ := hok.counted (Or.inl hsync)
    rw [dentriesOf, hok.list, Option.getD_some, DirOk.card_blocks hok.blocks (h.blocks.nodup d)]
    exact ⟨by simpa using hsize, hblocks.trans hok.blocks.symm⟩
  stored d hdir hsync := by
    obtain ⟨n, hok⟩ := (h.inodes d hdir.1).dir hdir.2
    obtain ⟨rfl, hcounts⟩ := hok.stored (by simp [hsync])
    exact ⟨by rw [dentriesOf, hok.list]; rfl, hcounts⟩

/-- In every run from the root directory whose files are added to loaded directories and whose
mounted directories count their dentries, the dentries stay apart. -/
theorem dentriesApart_of_allOk {sInoAddr sBlkAddr : Nat} {events : List RootfsEvent}
    (hnull : 0 < sBlkAddr) (hend : sBlkAddr + fsBlkSize * fsBlkCnt ≤ 2 ^ 32)
    (hok : Runs.AllOk EntryOk step (rootfsInit sInoAddr sBlkAddr) events)
    (hrun : Runs.exec step (rootfsInit sInoAddr sBlkAddr) events = some s) : DentriesApart s := by
  have hinit : ∃ own, Laid (rootfsInit sInoAddr sBlkAddr) own none
      (rootfsInit sInoAddr sBlkAddr).mountCnt := ⟨_, rootfsInit_laid hnull hend⟩
  obtain ⟨own, h⟩ := Runs.exec_invariant (fun _ _ _ h hok hstep => Laid.step h hok hstep) hinit hok
    hrun
  exact h.dentriesApart

/-- The image of a root directory with one empty directory, `d`, in it. -/
def emptyDirImage : Storage where
  read offset size := some ((List.range size).map fun i =>
    if offset + i = 10000 then 100#8 else if offset + i = 10032 then 1#8
    else if offset + i = sizeofSuperBlock + sizeofInode then 4#8 else 0#8)

/-- The image is mounted below a root directory that has a file and a directory. -/
def mountedRun : List RootfsEvent :=
  [.addFile 0 [97#8] sIfreg true, .appendBlock 1, .addFile 0 [98#8] sIfdir true,
    .mountDirectory emptyDirImage ⟨sIfdir, sizeofDentry, 1, 10000⟩ 0 1, .syncDirectory 3 1]

theorem mountedRun_dentriesApart : ∃ s,
    Runs.exec step (rootfsInit 0x20010000 0x20020000) mountedRun = some s ∧
      (s.inodes 0).iSize = sizeofDentry * 3 ∧ DentriesApart s := by
  have hsize : (Runs.exec step (rootfsInit 0x20010000 0x20020000) mountedRun).map
      (fun s => (s.inodes 0).iSize) = some (sizeofDentry * 3) := by decide +kernel
  obtain ⟨s, hrun, hsize⟩ := Option.map_eq_some_iff.mp hsize
  have hok : Runs.AllOk EntryOk step (rootfsInit 0x20010000 0x20020000) mountedRun := by
    decide +kernel
  exact ⟨s, hrun, hsize, dentriesApart_of_allOk (by decide) (by decide) hok hrun⟩

/-- A file is added to the empty directory, which then has a dentry but is not loaded. Loading it
does not count that one. -/
def emptyDirRun : List RootfsEvent :=
  [.mountDirectory emptyDirImage ⟨sIfdir, sizeofDentry, 1, 10000⟩ 0 1,
    .addFile 1 [97#8] sIfreg true, .syncDirectory 1 1]

theorem emptyDirRun_not_dentriesApart : ∃ s,
    Runs.exec step (rootfsInit 0x20010000 0x20020000) emptyDirRun = some s ∧ s.IsDir 1 ∧
      (s.inodes 1).iSync = true ∧ (s.inodes 1).iSize = sizeofDentry ∧
      (s.dentriesOf 1).length = 2 ∧ ¬ DentriesApart s := by
  have hread : (Runs.exec step (rootfsInit 0x20010000 0x20020000) emptyDirRun).map
      (fun s => (decide (s.IsDir 1), (s.inodes 1).iSync, (s.inodes 1).iSize,
        (s.dentriesOf 1).length)) = some (true, true, sizeofDentry, 2) := by decide +kernel
  obtain ⟨s, hrun, hread⟩ := Option.map_eq_some_iff.mp hread
  simp only [Prod.mk.injEq, decide_eq_true_eq] at hread
  obtain ⟨hdir, hsync, hsize, hlen⟩ := hread
  refine ⟨s, hrun, hdir, hsync, hsize, hlen, fun h => ?_⟩
  have hcount := (h.loaded 1 hdir hsync).1
  rw [hsize, hlen] at hcount
  exact absurd hcount (by decide)

end Rootfs

end Tenok
