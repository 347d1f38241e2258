import Tenok.Fs.Rootfs

/-!
The drivers of the storages. An access is the list of the addresses that `memcpy` goes through,
which start again at 0 behind the last one; `none` is `-EFAULT`.
-/
namespace Tenok

/-- The storage side of `memcpy` in an address space of 32 bits. -/
def memcpyAddrs (addr size : Nat) : List Nat := (List.range size).map fun i => (addr + i) % 2 ^ 32

/-- `rootfs_mem_check`, which includes the address behind a region. -/
def rootfsMemCheck (inodes rootfsBlks addr : Nat) : Bool :=
  decide (inodes ≤ addr ∧ addr ≤ inodes + sizeofInode * inodeMax) ||
    decide (rootfsBlks ≤ addr ∧ addr ≤ rootfsBlks + fsBlkSize * fsBlkCnt)

def rootfsAccess (inodes rootfsBlks size offset : Nat) : Option (List Nat) :=
  if rootfsMemCheck inodes rootfsBlks offset then some (memcpyAddrs offset size) else none

def rootfsRead (inodes rootfsBlks : Nat) (memory : Nat → Byte) (size offset : Nat) :
    Option (List Byte) :=
  (rootfsAccess inodes rootfsBlks size offset).map fun addrs => addrs.map memory

def rootfsWrite (inodes rootfsBlks : Nat) (memory : Nat → Byte) (buf : List Byte) (offset : Nat) :
    Option (Nat → Byte) :=
  (rootfsAccess inodes rootfsBlks buf.length offset).map fun addrs =>
    (addrs.zip buf).foldl (fun m c => Function.update m c.1 c.2) memory

def romDevAccess (romStart romEnd size offset : Nat) : Option (List Nat) :=
  let readAddr := (romStart + offset) % 2 ^ 32
  if romEnd < (readAddr + size) % 2 ^ 32 then none else some (memcpyAddrs readAddr size)

def romDevRead (romStart romEnd : Nat) (memory : Nat → Byte) (size offset : Nat) :
    Option (List Byte) :=
  (romDevAccess romStart romEnd size offset).map fun addrs => addrs.map memory

/-- Where the linker puts what the drivers give access to. -/
structure Placement where
  inodes : Nat
  rootfsBlks : Nat
  romStart : Nat
  romEnd : Nat
  inodes_lt : inodes + sizeofInode * inodeMax < 2 ^ 32
  blks_lt : rootfsBlks + fsBlkSize * fsBlkCnt < 2 ^ 32
  rom_le : romStart ≤ romEnd
  rom_lt : romEnd < 2 ^ 32

/-- All addresses are between these two. -/
def Within (low high : Nat) (addrs : List Nat) : Prop := ∀ a ∈ addrs, low ≤ a ∧ a < high

variable {low high addr size : Nat}

theorem within_memcpyAddrs_iff (hhigh : high < 2 ^ 32) (haddr : addr < 2 ^ 32) :
    Within low high (memcpyAddrs addr size) ↔ size = 0 ∨ (low ≤ addr ∧ addr + size ≤ high) := by
  constructor
  · intro h
    by_contra hnot
    obtain ⟨hsize, hout⟩ := not_or.mp hnot
    have hmem : ∀ i < size, low ≤ (addr + i) % 2 ^ 32 ∧ (addr + i) % 2 ^ 32 < high := fun i hi =>
      h _ (List.mem_map.mpr ⟨i, List.mem_range.mpr hi, rfl⟩)
    have hfirst := hmem 0 (Nat.pos_of_ne_zero hsize)
    rw [Nat.add_zero, Nat.mod_eq_of_lt haddr] at hfirst
    -- the first byte behind the region
    have hbehind := hmem (high - addr) (by omega)
    rw [Nat.add_sub_cancel' (Nat.le_of_lt hfirst.2), Nat.mod_eq_of_lt hhigh] at hbehind
    exact Nat.lt_irrefl _ hbehind.2
  · rintro (rfl | ⟨hlow, hend⟩) a ha
    · cases ha
    · obtain ⟨i, hi, rfl⟩ := List.mem_map.mp ha
      have hlt := List.mem_range.mp hi
      rw [Nat.mod_eq_of_lt (by omega)]
      omega

namespace Placement
variable (p : Placement)

/-- `rootfs_read` and `rootfs_write` copy nothing, or only in one of the two regions. -/
def RootfsStays (size offset : Word) : Prop :=
  ∀ addrs ∈ rootfsAccess p.inodes p.rootfsBlks size.toNat offset.toNat,
    Within p.inodes (p.inodes + sizeofInode * inodeMax) addrs ∨
      Within p.rootfsBlks (p.rootfsBlks + fsBlkSize * fsBlkCnt) addrs

/-- `rom_dev_read` copies nothing, or only from the ROM. -/
def RomStays (size offset : Word) : Prop :=
  ∀ addrs ∈ romDevAccess p.romStart p.romEnd size.toNat offset.toNat,
    Within p.romStart p.romEnd addrs

/-- An access does not run out of the region that it starts in. -/
def EndsInside (low high addr size : Nat) : Prop := low ≤ addr ∧ addr + size ≤ high

theorem size_eq_zero {size : Word} : size.toNat = 0 ↔ size = 0#32 :=
  ⟨fun h => BitVec.eq_of_toNat_eq h, fun h => h ▸ rfl⟩

theorem rootfsStays_iff (size offset : Word) : p.RootfsStays size offset ↔
    size = 0#32 ∨ rootfsMemCheck p.inodes p.rootfsBlks offset.toNat = false ∨
      EndsInside p.inodes (p.inodes + sizeofInode * inodeMax) offset.toNat size.toNat ∨
      EndsInside p.rootfsBlks (p.rootfsBlks + fsBlkSize * fsBlkCnt) offset.toNat size.toNat := by
  rw [RootfsStays, rootfsAccess]
  cases hcheck : rootfsMemCheck p.inodes p.rootfsBlks offset.toNat with
  | false => simp
  | true =>
      simp only [if_true, Option.mem_some, forall_eq', reduceCtorEq, false_or,
        within_memcpyAddrs_iff p.inodes_lt offset.isLt, within_memcpyAddrs_iff p.blks_lt offset.isLt,
        EndsInside, size_eq_zero]
      tauto

theorem romStays_iff (size offset : Word) : p.RomStays size offset ↔
    size = 0#32 ∨ p.romEnd < (p.romStart + offset.toNat + size.toNat) % 2 ^ 32 ∨
      EndsInside p.romStart p.romEnd ((p.romStart + offset.toNat) % 2 ^ 32) size.toNat := by
  have hmod : (p.romStart + offset.toNat) % 2 ^ 32 < 2 ^ 32 := Nat.mod_lt _ (by decide)
  rw [RomStays, romDevAccess, Nat.mod_add_mod]
  by_cases hend : p.romEnd < (p.romStart + offset.toNat + size.toNat) % 2 ^ 32
  · rw [if_pos hend]
    exact iff_of_true (fun addrs haddrs => by cases haddrs) (Or.inr (Or.inl hend))
  · simp only [hend, if_false, Option.mem_some, forall_eq', false_or,
      within_memcpyAddrs_iff p.rom_lt hmod, EndsInside, size_eq_zero]

/-- The drivers stay in their regions exactly if nothing is to be copied, the check fails, or the
bytes end where the region does at the latest. -/
theorem stays_iff (size offset : Word) :
    (p.RootfsStays size offset ↔
      size = 0#32 ∨ rootfsMemCheck p.inodes p.rootfsBlks offset.toNat = false ∨
        EndsInside p.inodes (p.inodes + sizeofInode * inodeMax) offset.toNat size.toNat ∨
        EndsInside p.rootfsBlks (p.rootfsBlks + fsBlkSize * fsBlkCnt) offset.toNat size.toNat) ∧
    (p.RomStays size offset ↔
      size = 0#32 ∨ p.romEnd < (p.romStart + offset.toNat + size.toNat) % 2 ^ 32 ∨
        EndsInside p.romStart p.romEnd ((p.romStart + offset.toNat) % 2 ^ 32) size.toNat) :=
  ⟨p.rootfsStays_iff size offset, p.romStays_iff size offset⟩

/-- A RAM with the inodes before the blocks, and a ROM elsewhere. -/
def example32 : Placement :=
  ⟨0x20010000, 0x20020000, 0x08010000, 0x08014000, by decide, by decide, by decide, by decide⟩

/-- At the address behind the blocks, the check lets an access pass. Before the start of the ROM,
the check of its end does. -/
theorem example32_not_stays :
    ¬ example32.RootfsStays 1#32 0x20023200#32 ∧ ¬ example32.RootfsStays 200#32 0x20023180#32 ∧
      ¬ example32.RomStays 4#32 0xfffffff0#32 ∧ ¬ example32.RomStays 0xfffffff0#32 0x4000#32 := by
  simp only [rootfsStays_iff, romStays_iff, EndsInside]
  decide

end Placement

end Tenok
