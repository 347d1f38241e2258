import Tenok.Fs.FileRuns

/-!
What is read from files. A read of a file ends with it only if it is asked for no more than there
is. What is written from the start of files is read from them again, however both are cut into
calls.
-/
namespace Tenok

namespace Rootfs

def romStorage (p : Placement) (memory : Nat → Byte) : Storage :=
  ⟨fun offset size => romDevRead p.romStart p.romEnd memory size offset⟩

/-- A file of a ROM that is mounted, with its blocks there. -/
structure OnRom (p : Placement) (memory : Nat → Byte) (s : Rootfs) (ino : Nat) (blocks : List Nat) :
    Prop where
  rdev : (s.inodes ino).iRdev ≠ rdevRootfs
  storage : s.storages (s.inodes ino).iRdev = romStorage p memory
  linked : Linked (fun a => wordAt (ByteMemory.read memory (p.romStart + a) 4) 0)
    (s.inodes ino).iData (blocks ++ [0])
  inside : ∀ a ∈ blocks, 0 < a ∧ p.romStart + a + fsBlkSize ≤ p.romEnd

def romBytes (p : Placement) (memory : Nat → Byte) (offset : Nat) : Byte :=
  memory (p.romStart + offset)

variable {s t u : Rootfs} {p : Placement} {memory : Nat → Byte} {ino n : Nat} {blocks bs : List Nat}

theorem read_romBytes (a n : Nat) : ByteMemory.read (romBytes p memory) a n =
    ByteMemory.read memory (p.romStart + a) n :=
  List.map_congr_left fun i _ => by rw [romBytes, Nat.add_assoc]

theorem OnRom.stored (h : OnRom p memory s ino blocks) :
    Stored (s.driverRead (s.inodes ino).iRdev) (romBytes p memory) (s.inodes ino).iData blocks := by
  have hlt := p.rom_lt
  have hread : ∀ a ∈ blocks, ∀ o n, o + n ≤ fsBlkSize →
      s.driverRead (s.inodes ino).iRdev (a + o) n =
        some (ByteMemory.read (romBytes p memory) (a + o) n) := by
    intro a ha o n hn
    obtain ⟨-, hend⟩ := h.inside a ha
    rw [driverRead, if_neg h.rdev, h.storage, read_romBytes, ByteMemory.read]
    change romDevRead p.romStart p.romEnd memory n (a + o) = _
    rw [romDevRead, romDevAccess, Nat.mod_eq_of_lt (by omega), Nat.mod_eq_of_lt (by omega),
      if_neg (by omega), Option.map_some, memcpyAddrs, List.map_map]
    refine congrArg some (List.map_congr_left fun j hj => ?_)
    have hj' := List.mem_range.mp hj
    rw [Function.comp_apply, Nat.mod_eq_of_lt (by omega)]
  refine ⟨h.linked.congr_init fun a ha => ?_, fun hnull => ?_, fun a ha => ⟨?_, hread a ha⟩⟩
  · have hhead := hread a ha 0 sizeofBlockHeader (by decide)
    rw [Nat.add_zero] at hhead
    rw [nextBlk, hhead, Option.map_some, Option.getD_some, read_romBytes, wordAt, wordAt,
      List.drop_zero, List.drop_zero, ByteMemory.take_read (by decide),
      ByteMemory.take_read (Nat.le_refl 4)]
  · exact absurd (h.inside 0 hnull).1 (Nat.lt_irrefl 0)
  · obtain ⟨-, hend⟩ := h.inside a ha
    omega

theorem Chain.fileBlocks (h : Chain s ino bs) : s.fileBlocks ino = bs.map s.blkAddr :=
  FileOk.fileBlocks ⟨h.blocks, h.linked.left⟩

/-- A read of a file ends with it and stays in its blocks exactly if it is not asked for more than
the file and its blocks have. This is so for files in the root file system and on a ROM. -/
theorem regFileRead_readsToEnd_iff {sInoAddr sBlkAddr : Nat} {events : List FileEvent} (n : Nat)
    (hnull : 0 < sBlkAddr) (hend : sBlkAddr + fsBlkSize * fsBlkCnt ≤ 2 ^ 32)
    (hok : Runs.AllOk CallOk fileStep (rootfsInit sInoAddr sBlkAddr) events)
    (hrun : Runs.exec fileStep (rootfsInit sInoAddr sBlkAddr) events = some s)
    (hfile : s.IsFile ino) (hpos : s.pos ino ≤ (s.inodes ino).iSize) :
    ((s.inodes ino).iRdev = rdevRootfs →
      (ReadsToEnd (s.inodes ino).iSize (s.pos ino) n (fileContent s.memory (s.fileBlocks ino))
          (s.fileBlocks ino) (s.regFileRead ino n).2 ↔
        n = 0 ∨ (s.pos ino + n ≤ (s.inodes ino).iSize ∧
          s.pos ino + n ≤ blkFreeSize * (s.inodes ino).iBlocks))) ∧
    ∀ p memory blocks, OnRom p memory s ino blocks →
      (ReadsToEnd (s.inodes ino).iSize (s.pos ino) n (fileContent (romBytes p memory) blocks) blocks
          (s.regFileRead ino n).2 ↔
        n = 0 ∨ (s.pos ino + n ≤ (s.inodes ino).iSize ∧
          s.pos ino + n ≤ blkFreeSize * blocks.length)) := by
  have hs := filed_of_run hnull hend hok hrun
  refine ⟨fun hrdev => ?_, fun p memory blocks hrom => hrom.stored.readsToEnd_iff hpos⟩
  obtain ⟨own, -, hchains⟩ := hs.chains
  have hchain := hchains ino ⟨hfile.1, hfile.2, hrdev⟩
  have hstored := hchain.stored hs.blocksOk
  rw [← hrdev] at hstored
  rw [hchain.fileBlocks, hchain.blocks, ← List.length_map (f := s.blkAddr)]
  exact hstored.readsToEnd_iff hpos

/-- A ROM with a file of ten bytes in its root directory: the inode, the dentry and the block. -/
def romImage : Nat → Byte := fun addr =>
  match addr - Placement.example32.romStart with
  | 88 => 3#8
  | 104 => 10#8
  | 108 => 1#8
  | 112 => 0x10#8
  | 113 => 0x27#8
  | 9000 => 97#8
  | 9032 => 1#8
  | 10008 => 42#8
  | _ => 0#8

def romRun : List FileEvent :=
  tenBytes ++ [.lseek 1 0 seekSet,
    .call (.mountDirectory (romStorage .example32 romImage) ⟨sIfdir, sizeofDentry, 1, 9000⟩ 0 1)]

theorem romRun_run : ∃ s, Runs.exec fileStep (rootfsInit 0x20010000 0x20020000) romRun = some s ∧
    (s.IsFile 1 ∧ s.pos 1 = 0 ∧ (s.inodes 1).iRdev = rdevRootfs ∧ (s.inodes 1).iSize = 10 ∧
      (s.inodes 1).iBlocks = 1 ∧ (s.regFileRead 1 20).2.retval = 20) ∧
    s.IsFile 2 ∧ s.pos 2 = 0 ∧ (s.inodes 2).iSize = 10 ∧
      OnRom .example32 romImage s 2 [10000] := by
  have hread : (Runs.exec fileStep (rootfsInit 0x20010000 0x20020000) romRun).map (fun s =>
      (decide (s.IsFile 1), s.pos 1, (s.inodes 1).iRdev, (s.inodes 1).iSize, (s.inodes 1).iBlocks,
        (s.regFileRead 1 20).2.retval)) = some (true, 0, rdevRootfs, 10, 1, 20) := by decide +kernel
  have hread₂ : (Runs.exec fileStep (rootfsInit 0x20010000 0x20020000) romRun).map (fun s =>
      (decide (s.IsFile 2), s.pos 2, (s.inodes 2).iSize, (s.inodes 2).iRdev, (s.inodes 2).iData)) =
      some (true, 0, 10, 1, 10000) := by decide +kernel
  have hstorage : (Runs.exec fileStep (rootfsInit 0x20010000 0x20020000) romRun).map (fun s =>
      s.storages 1) = some (romStorage .example32 romImage) := rfl
  obtain ⟨s, hrun, hread⟩ := Option.map_eq_some_iff.mp hread
  rw [hrun, Option.map_some, Option.some.injEq] at hread₂ hstorage
  simp only [Prod.mk.injEq, decide_eq_true_eq] at hread hread₂
  obtain ⟨hfile₂, hpos₂, hsize₂, hrdev₂, hdata₂⟩ := hread₂
  refine ⟨s, hrun, hread, hfile₂, hpos₂, hsize₂, ⟨?_, ?_, ?_, ?_⟩⟩
  · rw [hrdev₂]
    decide
  · rw [hrdev₂, hstorage]
  · rw [hdata₂]
    exact ⟨rfl, by decide, trivial⟩
  · intro a ha
    rw [List.mem_singleton.mp ha]
    decide

/-- Both files are read to their ends. -/
theorem romRun_readsToEnd : ∃ s,
    Runs.exec fileStep (rootfsInit 0x20010000 0x20020000) romRun = some s ∧
      ReadsToEnd 10 0 10 (fileContent s.memory (s.fileBlocks 1)) (s.fileBlocks 1)
        (s.regFileRead 1 10).2 ∧
      ReadsToEnd 10 0 10 (fileContent (romBytes .example32 romImage) [10000]) [10000]
        (s.regFileRead 2 10).2 := by
  obtain ⟨s, hrun, ⟨hfile, hpos, hrdev, hsize, hblocks, -⟩, hfile₂, hpos₂, hsize₂, hrom⟩ := romRun_run
  have hok : Runs.AllOk CallOk fileStep (rootfsInit 0x20010000 0x20020000) romRun := by
    decide +kernel
  have hfirst := (regFileRead_readsToEnd_iff 10 (by decide) (by decide) hok hrun hfile
    (by omega)).1 hrdev
  have hsecond := (regFileRead_readsToEnd_iff 10 (by decide) (by decide) hok hrun hfile₂
    (by omega)).2 .example32 romImage [10000] hrom
  rw [hpos, hsize, hblocks] at hfirst
  rw [hpos₂, hsize₂] at hsecond
  exact ⟨s, hrun, hfirst.mpr (by decide), hsecond.mpr (by decide)⟩

/-- A read of twenty bytes is answered with as many. -/
theorem romRun_not_readsToEnd : ∃ s,
    Runs.exec fileStep (rootfsInit 0x20010000 0x20020000) romRun = some s ∧ s.IsFile 1 ∧
      s.pos 1 ≤ (s.inodes 1).iSize ∧ (s.inodes 1).iSize = 10 ∧
      (s.regFileRead 1 20).2.retval = 20 ∧
      ¬ ReadsToEnd (s.inodes 1).iSize (s.pos 1) 20 (fileContent s.memory (s.fileBlocks 1))
        (s.fileBlocks 1) (s.regFileRead 1 20).2 := by
  obtain ⟨s, hrun, ⟨hfile, hpos, -, hsize, -, hread⟩, -⟩ := romRun_run
  refine ⟨s, hrun, hfile, by omega, hsize, hread, fun hreads => ?_⟩
  have hretval := hreads.retval
  omega

end Rootfs

end Tenok
