import Mathlib.Data.List.Infix
import Tenok.Fs.Layout

/-!
The blocks of regular files: a new one is linked behind the last one, and the links of all other
files stay as they are.
-/
namespace Tenok

namespace Rootfs
variable {s s' : Rootfs} {own : Nat → List Nat} {devs i ino k k' addr : Nat} {bs : List Nat}

theorem blkAddr_apart (hne : k ≠ k') :
    s.blkAddr k + fsBlkSize ≤ s.blkAddr k' ∨ s.blkAddr k' + fsBlkSize ≤ s.blkAddr k := by
  have hsize : fsBlkSize = 128 := rfl
  simp only [blkAddr, hsize]
  omega

theorem blkAddr_injective : Function.Injective s.blkAddr := by
  intro k k' heq
  have hsize : fsBlkSize = 128 := rfl
  simp only [blkAddr, hsize] at heq
  omega

theorem bNext_setNext_self {next : Nat} (hlt : next < 2 ^ 32) :
    (s.setNext addr next).bNext addr = next := by
  have hread := ByteMemory.read_write s.memory addr
    (LittleEndian.bytes 4 (BitVec.ofNat 32 next))
  rw [LittleEndian.length_bytes] at hread
  rw [bNext, setNext, hread, wordAt, List.drop_zero, List.take_of_length_le (by simp),
    LittleEndian.value_bytes (w := 32) (n := 4) rfl, BitVec.toNat_ofNat, Nat.mod_eq_of_lt hlt]

theorem bNext_setNext_of_ne {next : Nat} (hne : k ≠ k') :
    (s.setNext (s.blkAddr k) next).bNext (s.blkAddr k') = s.bNext (s.blkAddr k') := by
  have hsize : fsBlkSize = 128 := rfl
  have hapart := s.blkAddr_apart hne
  rw [bNext, setNext, ByteMemory.read_write_outside, bNext]
  rw [LittleEndian.length_bytes]
  omega

theorem FileOk.fileBlocks {inode : Inode} (h : FileOk s bs inode) :
    (List.range inode.iBlocks).map (fun j => s.bNext^[j] inode.iData) = bs.map s.blkAddr := by
  refine List.ext_getElem (by simp [h.blocks]) fun j hj hj' => ?_
  rw [List.getElem_map, List.getElem_range]
  exact h.linked.iterate (List.getElem?_eq_getElem hj')

/-- The memory when a new block is linked behind the last one of a file. -/
def linkBlock (s : Rootfs) (inode : Inode) (newBlk : Nat) : Nat → Byte :=
  let s := s.setNext newBlk 0
  if inode.iBlocks = 0 then s.memory
  else (s.setNext (s.bNext^[inode.iBlocks - 1] inode.iData) newBlk).memory

def linkedInode (inode : Inode) (newBlk : Nat) : Inode :=
  { inode with
    iData := if inode.iBlocks = 0 then newBlk else inode.iData
    iBlocks := inode.iBlocks + 1 }

theorem fsFileAppendBlock_cases {r : Nat} (h : s.fsFileAppendBlock ino = some (s', r)) :
    (s' = s ∧ r = 0) ∨ ∃ k < fsBlkCnt, s.bitmapBlks k = false ∧ r = s.blkAddr k ∧
      s' = ({ s with
        sBlkCnt := s.sBlkCnt + 1
        bitmapBlks := Function.update s.bitmapBlks k true
        memory := s.linkBlock (s.inodes ino) (s.blkAddr k) } : Rootfs).setInode ino
          fun n => linkedInode n (s.blkAddr k) := by
  rw [fsFileAppendBlock] at h
  split at h
  · cases h
    exact Or.inl ⟨rfl, rfl⟩
  split at h
  · cases h
    exact Or.inl ⟨rfl, rfl⟩
  obtain ⟨⟨newBlk, s₁⟩, halloc, h⟩ := Option.bind_eq_some_iff.mp h
  obtain ⟨k, hk, hfree, rfl, rfl⟩ := fsAllocBlock_spec halloc
  refine Or.inr ⟨k, hk, hfree, ?_⟩
  by_cases hzero : (s.inodes ino).iBlocks = 0
  · simp only [setNext, hzero, if_true] at h
    cases h
    simp [setInode, linkBlock, linkedInode, setNext, hzero]
  · simp only [setNext, hzero, if_false] at h
    cases h
    simp [setInode, linkBlock, linkedInode, setNext, hzero]
    rfl

theorem linkBlock_nil {inode : Inode} (hblocks : inode.iBlocks = 0) :
    s.linkBlock inode addr = (s.setNext addr 0).memory := by
  simp only [linkBlock, hblocks, if_true]

theorem linkBlock_concat {inode : Inode} (hblocks : inode.iBlocks = bs.length + 1)
    (hlinked : Linked s.bNext inode.iData ((bs ++ [i]).map s.blkAddr)) (hfresh : k ∉ bs ++ [i]) :
    s.linkBlock inode (s.blkAddr k) =
      ((s.setNext (s.blkAddr k) 0).setNext (s.blkAddr i) (s.blkAddr k)).memory := by
  have hlinked' : Linked (s.setNext (s.blkAddr k) 0).bNext inode.iData
      ((bs ++ [i]).map s.blkAddr) := by
    refine hlinked.congr fun a ha => ?_
    obtain ⟨j, hj, rfl⟩ := List.mem_map.mp ha
    exact bNext_setNext_of_ne fun heq => hfresh (heq ▸ hj)
  have hwalk : (s.setNext (s.blkAddr k) 0).bNext^[inode.iBlocks - 1] inode.iData = s.blkAddr i := by
    refine hlinked'.iterate ?_
    rw [hblocks, Nat.add_sub_cancel, List.map_append, List.getElem?_append_right (by simp)]
    simp
  simp only [linkBlock, if_neg (show inode.iBlocks ≠ 0 by omega), hwalk]

theorem FileOk.bNext_linkBlock {inode : Inode} (h : FileOk s bs inode) (hfresh : k ∉ bs)
    (hne : k' ≠ k) (hlast : ∀ l, bs ≠ l ++ [k']) :
    ({ s with memory := s.linkBlock inode (s.blkAddr k) } : Rootfs).bNext (s.blkAddr k') =
      s.bNext (s.blkAddr k') := by
  have hnew : (s.setNext (s.blkAddr k) 0).bNext (s.blkAddr k') = s.bNext (s.blkAddr k') :=
    bNext_setNext_of_ne hne.symm
  rcases List.eq_nil_or_concat bs with rfl | ⟨l, i, rfl⟩
  · rw [linkBlock_nil h.blocks]
    exact hnew
  · rw [List.concat_eq_append] at h hfresh hlast
    rw [linkBlock_concat (by simpa using h.blocks) h.linked hfresh]
    have hmiss : i ≠ k' := fun heq => hlast l (by rw [heq])
    exact (bNext_setNext_of_ne (s := s.setNext (s.blkAddr k) 0) hmiss).trans hnew

theorem FileOk.append {inode : Inode} (h : FileOk s bs inode) (hnodup : bs.Nodup)
    (hfresh : k ∉ bs) (hfits : s.blkAddr k < 2 ^ 32) :
    FileOk { s with memory := s.linkBlock inode (s.blkAddr k) } (bs ++ [k])
      (linkedInode inode (s.blkAddr k)) where
  blocks := by rw [List.length_append, ← h.blocks]; rfl
  linked := by
    rcases List.eq_nil_or_concat bs with rfl | ⟨l, i, rfl⟩
    · have hzero : inode.iBlocks = 0 := h.blocks
      simp only [linkedInode, hzero, if_true]
      exact ⟨rfl, trivial⟩
    · rw [List.concat_eq_append] at h hfresh hnodup ⊢
      have hblocks : inode.iBlocks = l.length + 1 := by simpa using h.blocks
      have hlast : ({ s with memory := s.linkBlock inode (s.blkAddr k) } : Rootfs).bNext
          (s.blkAddr i) = s.blkAddr k := by
        rw [linkBlock_concat hblocks h.linked hfresh]
        exact bNext_setNext_self (s := s.setNext (s.blkAddr k) 0) hfits
      have hold := h.linked
      rw [List.map_append, List.map_singleton] at hold
      have hkept : ∀ a ∈ l.map s.blkAddr, ({ s with memory := s.linkBlock inode (s.blkAddr k) } :
          Rootfs).bNext a = s.bNext a := by
        intro a ha
        obtain ⟨j, hj, rfl⟩ := List.mem_map.mp ha
        refine h.bNext_linkBlock hfresh (fun heq => hfresh (heq ▸ List.mem_append_left _ hj)) ?_
        intro l' heq
        obtain ⟨-, heq⟩ := List.append_inj' heq rfl
        obtain rfl := List.singleton_inj.mp heq
        exact (List.nodup_append_comm.mp hnodup).notMem hj
      have hgrown := hold.concat hkept
      rw [hlast] at hgrown
      simp only [linkedInode, if_neg (show inode.iBlocks ≠ 0 by omega), List.map_append,
        List.append_assoc, List.singleton_append]
      exact hgrown

theorem Laid.fsFileAppendBlock {r : Nat} (h : Laid s own none devs) (hfile : s.IsRegFile ino)
    (happ : s.fsFileAppendBlock ino = some (s', r)) :
    (∃ own', Laid s' own' none devs) ∧ s'.mountCnt = s.mountCnt := by
  obtain ⟨rfl, -⟩ | ⟨k, hk, hfree, -, rfl⟩ := fsFileAppendBlock_cases happ
  · exact ⟨⟨own, h⟩, rfl⟩
  obtain ⟨hbit, hmode, hrdev⟩ := hfile
  have hok := (h.inodes ino hbit).file hmode hrdev
  have hfresh : ∀ j, k ∉ own j := fun j hj => notMem_usedBlks hfree (h.blocks.used j k hj)
  have hfits : s.blkAddr k < 2 ^ 32 := by
    have hend := h.fits.2
    have hsize : fsBlkSize = 128 := rfl
    rw [hsize] at hend
    rw [blkAddr, hsize]
    omega
  -- the block is taken first, the inode and the links follow
  have hused : usedBlks { s with
      sBlkCnt := s.sBlkCnt + 1
      bitmapBlks := Function.update s.bitmapBlks k true } = insert k s.usedBlks :=
    usedBlks_update hk rfl
  have h₁ : Laid { s with
      sBlkCnt := s.sBlkCnt + 1
      bitmapBlks := Function.update s.bitmapBlks k true } own none devs :=
    h.same ⟨rfl, rfl, rfl, rfl⟩ rfl rfl (hused ▸ Set.subset_insert ..)
  refine ⟨⟨Function.update own ino (own ino ++ [k]), h₁.update hbit ?_ ?_ ?_⟩, rfl⟩
  · exact hused ▸ h.blocks.grow (notMem_usedBlks hfree) ino
  · refine ⟨(h.inodes ino hbit).rdev, fun hdir => ?_, fun _ _ => ?_⟩
    · exact absurd (hmode.symm.trans hdir) (by decide)
    · obtain ⟨hblocks, hlinked⟩ := hok.append (h.blocks.nodup ino) (hfresh ino) hfits
      exact ⟨hblocks, hlinked⟩
  · intro j hj
    refine ⟨Iff.rfl, fun k' hk' => ?_⟩
    refine hok.bNext_linkBlock (hfresh ino) (fun heq => hfresh j (heq ▸ hk')) fun l heq => ?_
    exact hj (h.blocks.apart j ino k' hk' (heq ▸ List.mem_append_right l List.mem_cons_self))

end Rootfs

end Tenok
