import Tenok.Fs.Counters
import Tenok.Fs.FileReads

/-!
What `reg_file_write` does to the blocks of a file, and that it leaves all other blocks as they
are. A write goes on for as long as there are blocks.
-/
namespace Tenok
open Chunks

namespace Rootfs

/-- The blocks of a regular file, linked up to NULL. -/
structure Chain (s : Rootfs) (ino : Nat) (bs : List Nat) : Prop where
  file : s.IsRegFile ino
  used : ∀ k ∈ bs, k ∈ s.usedBlks
  nodup : bs.Nodup
  blocks : (s.inodes ino).iBlocks = bs.length
  linked : Linked s.bNext (s.inodes ino).iData (bs.map s.blkAddr ++ [0])

/-- The blocks are somewhere in the memory, and those in use are counted. -/
structure BlocksOk (s : Rootfs) : Prop where
  null : 0 < s.sBlkAddr
  fits : s.sBlkAddr + fsBlkSize * fsBlkCnt ≤ 2 ^ 32
  counted : s.sBlkCnt = (List.range fsBlkCnt).countP s.bitmapBlks

def SameBlk (s : Rootfs) (memory : Nat → Byte) (k : Nat) : Prop :=
  ∀ o < fsBlkSize, memory (s.blkAddr k + o) = s.memory (s.blkAddr k + o)

def content (s : Rootfs) (bs : List Nat) : List Byte := fileContent s.memory (bs.map s.blkAddr)

/-- The bytes that can be written from a position on. -/
def room (s : Rootfs) (blocks pos : Nat) : Nat :=
  blkFreeSize * (max blocks (pos / blkFreeSize) + (fsBlkCnt - s.sBlkCnt)) - pos

/-- A file may have got more blocks and other bytes in them, and nothing else has changed. -/
structure Wrote (s t : Rootfs) (ino : Nat) (bs bs' : List Nat) : Prop where
  inode : ∃ iData, t.inodes =
    Function.update s.inodes ino { s.inodes ino with iData, iBlocks := bs'.length }
  used : s.usedBlks ⊆ t.usedBlks
  sub : ∀ k ∈ bs, k ∈ bs'
  grown : ∀ k ∈ bs', k ∈ bs ∨ k ∉ s.usedBlks
  others : ∀ k, k ∉ bs' → s.SameBlk t.memory k
  rest : t = { s with
    inodes := t.inodes, memory := t.memory, sBlkCnt := t.sBlkCnt, bitmapBlks := t.bitmapBlks }

variable {s t u : Rootfs} {ino i k k' pos o n passes : Nat} {bs bs' bs'' cs : List Nat}
  {buf piece : List Byte} {memory : Nat → Byte}

theorem Wrote.blkAddr (h : Wrote s t ino bs bs') : t.blkAddr = s.blkAddr := by
  rw [h.rest]
  rfl

theorem Chain.wrote_refl (h : Chain s ino bs) : Wrote s s ino bs bs where
  inode := ⟨(s.inodes ino).iData, by rw [← h.blocks, Function.update_eq_self]⟩
  used := subset_rfl
  sub _ hk := hk
  grown _ hk := Or.inl hk
  others _ _ _ _ := rfl
  rest := rfl

theorem Wrote.trans (h : Wrote s t ino bs bs') (h' : Wrote t u ino bs' bs'') :
    Wrote s u ino bs bs'' where
  inode := by
    obtain ⟨iData, hinodes⟩ := h.inode
    obtain ⟨iData', hinodes'⟩ := h'.inode
    exact ⟨iData', by rw [hinodes', hinodes, Function.update_idem, Function.update_self]⟩
  used := Set.Subset.trans h.used h'.used
  sub k hk := h'.sub k (h.sub k hk)
  grown k hk := (h'.grown k hk).elim (h.grown k) fun hfresh => Or.inr fun hused =>
    hfresh (h.used hused)
  others k hk o ho := by
    have hold := h.others k (fun hmem => hk (h'.sub k hmem)) o ho
    have hnew := h'.others k hk o ho
    rw [h.blkAddr] at hnew
    exact hnew.trans hold
  rest := by
    rw [h'.rest, h.rest]

theorem SameBlk.payload (h : s.SameBlk memory k) :
    Tenok.payload memory (s.blkAddr k) = Tenok.payload s.memory (s.blkAddr k) := by
  refine ByteMemory.read_congr fun j hj => ?_
  have hfree : blkFreeSize = 120 := rfl
  have hhead : sizeofBlockHeader = 8 := rfl
  have hblk : fsBlkSize = 128 := rfl
  rw [Nat.add_assoc]
  exact h _ (by omega)

theorem SameBlk.bNext (h : s.SameBlk memory k) :
    ({ s with memory } : Rootfs).bNext (s.blkAddr k) = s.bNext (s.blkAddr k) := by
  have hblk : fsBlkSize = 128 := rfl
  have hread : ByteMemory.read memory (s.blkAddr k) 4 = ByteMemory.read s.memory (s.blkAddr k) 4 :=
    ByteMemory.read_congr fun j hj => h j (by omega)
  rw [Rootfs.bNext, hread, Rootfs.bNext]

theorem BlocksOk.blkAddr_lt (h : BlocksOk s) (hk : k ∈ s.usedBlks) :
    0 < s.blkAddr k ∧ s.blkAddr k + fsBlkSize ≤ s.sBlkAddr + fsBlkSize * fsBlkCnt := by
  have hblk : fsBlkSize = 128 := rfl
  have hcnt : fsBlkCnt = 100 := rfl
  have hlt := hk.1
  have hnull := h.null
  simp only [Rootfs.blkAddr, hblk, hcnt] at hlt ⊢
  omega

theorem BlocksOk.rootfsRead (h : BlocksOk s) (hk : k ∈ s.usedBlks) (hn : o + n ≤ fsBlkSize) :
    Tenok.rootfsRead s.sInoAddr s.sBlkAddr s.memory n (s.blkAddr k + o) =
      some (ByteMemory.read s.memory (s.blkAddr k + o) n) := by
  obtain ⟨-, hend⟩ := h.blkAddr_lt hk
  have hfits := h.fits
  have hcheck : rootfsMemCheck s.sInoAddr s.sBlkAddr (s.blkAddr k + o) = true := by
    have hlow : s.sBlkAddr ≤ s.blkAddr k := Nat.le_add_right ..
    simp only [rootfsMemCheck, Bool.or_eq_true, decide_eq_true_eq]
    exact Or.inr (by omega)
  rw [Tenok.rootfsRead, rootfsAccess, if_pos hcheck, Option.map_some, memcpyAddrs, List.map_map,
    ByteMemory.read]
  refine congrArg some (List.map_congr_left fun j hj => ?_)
  have hlt := List.mem_range.mp hj
  rw [Function.comp_apply, Nat.mod_eq_of_lt (by omega)]

theorem foldl_memcpyAddrs {addr : Nat} (haddr : addr + buf.length ≤ 2 ^ 32) :
    ((memcpyAddrs addr buf.length).zip buf).foldl (fun m c => Function.update m c.1 c.2) memory =
      ByteMemory.write memory addr buf := by
  induction buf generalizing addr memory with
  | nil => exact ByteMemory.write_nil.symm
  | cons b buf ih =>
      rw [List.length_cons] at haddr
      have hcons : memcpyAddrs addr (b :: buf).length = addr :: memcpyAddrs (addr + 1) buf.length := by
        rw [List.length_cons, memcpyAddrs, List.range_succ_eq_map, List.map_cons, List.map_map,
          Nat.add_zero, Nat.mod_eq_of_lt (by omega), memcpyAddrs]
        refine congrArg _ (List.map_congr_left fun j _ => ?_)
        rw [Function.comp_apply, Nat.succ_eq_add_one, Nat.add_comm j 1, ← Nat.add_assoc]
      rw [hcons, List.zip_cons_cons, List.foldl_cons, ih (by omega), ByteMemory.write_cons]

theorem BlocksOk.rootfsWrite (h : BlocksOk s) (hk : k ∈ s.usedBlks)
    (hn : o + piece.length ≤ fsBlkSize) :
    Tenok.rootfsWrite s.sInoAddr s.sBlkAddr s.memory piece (s.blkAddr k + o) =
      some (ByteMemory.write s.memory (s.blkAddr k + o) piece) := by
  obtain ⟨-, hend⟩ := h.blkAddr_lt hk
  have hfits := h.fits
  have hcheck : rootfsMemCheck s.sInoAddr s.sBlkAddr (s.blkAddr k + o) = true := by
    have hlow : s.sBlkAddr ≤ s.blkAddr k := Nat.le_add_right ..
    simp only [rootfsMemCheck, Bool.or_eq_true, decide_eq_true_eq]
    exact Or.inr (by omega)
  rw [Tenok.rootfsWrite, rootfsAccess, if_pos hcheck, Option.map_some,
    foldl_memcpyAddrs (by omega)]

theorem Chain.stored (h : Chain s ino bs) (hs : BlocksOk s) :
    Stored (s.driverRead rdevRootfs) s.memory (s.inodes ino).iData (bs.map s.blkAddr) where
  linked := by
    refine h.linked.congr_init fun a ha => ?_
    obtain ⟨k, hk, rfl⟩ := List.mem_map.mp ha
    have hread := hs.rootfsRead (n := sizeofBlockHeader) (o := 0) (h.used k hk) (by decide)
    rw [Nat.add_zero] at hread
    rw [nextBlk, driverRead, if_pos rfl, hread, Option.map_some, Option.getD_some, bNext, wordAt,
      wordAt, List.drop_zero, List.drop_zero, ByteMemory.take_read (by decide),
      ByteMemory.take_read (Nat.le_refl 4)]
  null hnull := by
    obtain ⟨k, hk, hzero⟩ := List.mem_map.mp hnull
    exact absurd hzero (Nat.ne_of_gt (hs.blkAddr_lt (h.used k hk)).1)
  serves a ha := by
    obtain ⟨k, hk, rfl⟩ := List.mem_map.mp ha
    refine ⟨(hs.blkAddr_lt (h.used k hk)).2.trans hs.fits, fun o n hn => ?_⟩
    rw [driverRead, if_pos rfl]
    exact hs.rootfsRead (h.used k hk) hn

theorem content_length (bs : List Nat) : (s.content bs).length = blkFreeSize * bs.length := by
  rw [content, length_fileContent, List.length_map]

/-- Of the memory only the headers of the new block and of the last one have changed. -/
theorem FileOk.linkBlock_outside {inode : Inode} {a : Nat} (h : FileOk s bs inode) (hfresh : k ∉ bs)
    (ha : ∀ j, j ∈ bs ++ [k] → a < s.blkAddr j ∨ s.blkAddr j + 4 ≤ a) :
    s.linkBlock inode (s.blkAddr k) a = s.memory a := by
  have hlen : ∀ n : Nat, (LittleEndian.bytes 4 (BitVec.ofNat 32 n)).length = 4 := fun n =>
    LittleEndian.length_bytes ..
  have hnew : (s.setNext (s.blkAddr k) 0).memory a = s.memory a :=
    ByteMemory.write_outside (by
      rw [hlen]
      exact ha k (List.mem_append_right bs List.mem_cons_self))
  rcases List.eq_nil_or_concat bs with rfl | ⟨l, i, rfl⟩
  · rw [linkBlock_nil h.blocks]
    exact hnew
  · rw [List.concat_eq_append] at h hfresh ha
    rw [linkBlock_concat (by simpa using h.blocks) h.linked hfresh]
    refine Eq.trans (ByteMemory.write_outside ?_) hnew
    rw [hlen]
    exact ha i (by simp)

theorem FileOk.linkBlock_others {inode : Inode} {j : Nat} (h : FileOk s bs inode)
    (hfresh : k ∉ bs) (hj : j ∉ bs ++ [k]) : s.SameBlk (s.linkBlock inode (s.blkAddr k)) j := by
  intro o ho
  refine h.linkBlock_outside hfresh fun j' hj' => ?_
  have hblk : fsBlkSize = 128 := rfl
  have hne : j ≠ j' := fun hjj => hj (hjj ▸ hj')
  have hapart := s.blkAddr_apart hne
  omega

/-- The headers lie in front of the bytes of the blocks. -/
theorem FileOk.payload_linkBlock {inode : Inode} (h : FileOk s bs inode) (hfresh : k ∉ bs)
    (j : Nat) : payload (s.linkBlock inode (s.blkAddr k)) (s.blkAddr j) =
      payload s.memory (s.blkAddr j) := by
  refine ByteMemory.read_congr fun i hi => h.linkBlock_outside hfresh fun j' _ => ?_
  have hblk : fsBlkSize = 128 := rfl
  have hfree : blkFreeSize = 120 := rfl
  have hhead : sizeofBlockHeader = 8 := rfl
  by_cases hjj : j = j'
  · subst hjj
    omega
  · have hapart := s.blkAddr_apart hjj
    omega

theorem FileOk.bNext_linkBlock_new {inode : Inode} (h : FileOk s bs inode) (hfresh : k ∉ bs) :
    ({ s with memory := s.linkBlock inode (s.blkAddr k) } : Rootfs).bNext (s.blkAddr k) = 0 := by
  have hnull : (s.setNext (s.blkAddr k) 0).bNext (s.blkAddr k) = 0 :=
    bNext_setNext_self (by decide)
  rcases List.eq_nil_or_concat bs with rfl | ⟨l, i, rfl⟩
  · rw [linkBlock_nil h.blocks]
    exact hnull
  · rw [List.concat_eq_append] at h hfresh
    rw [linkBlock_concat (by simpa using h.blocks) h.linked hfresh]
    have hne : i ≠ k := fun heq => hfresh (by simp [heq])
    exact (bNext_setNext_of_ne (s := s.setNext (s.blkAddr k) 0) hne).trans hnull

/-- The list of the blocks ends behind the new one. -/
theorem FileOk.linkBlock_end {inode : Inode} (h : FileOk s bs inode) (hnodup : bs.Nodup)
    (hfresh : k ∉ bs) (hfits : s.blkAddr k < 2 ^ 32) :
    ({ s with memory := s.linkBlock inode (s.blkAddr k) } : Rootfs).bNext^[
      ((bs ++ [k]).map s.blkAddr).length] (linkedInode inode (s.blkAddr k)).iData = 0 := by
  have hlast : ((bs ++ [k]).map s.blkAddr)[bs.length]? = some (s.blkAddr k) := by simp
  rw [List.length_map, List.length_append, List.length_singleton, Function.iterate_succ_apply',
    (h.append hnodup hfresh hfits).linked.iterate hlast]
  exact h.bNext_linkBlock_new hfresh

theorem fsAllocBlock_isSome (h : BlocksOk s) (hroom : s.sBlkCnt < fsBlkCnt) :
    ∃ r, s.fsAllocBlock = some r := by
  refine Option.ne_none_iff_exists'.mp fun hnone => ?_
  have hfull := le_countP_range_iff.mpr (fsAllocBlock_eq_none.mp hnone)
  rw [← h.counted] at hfull
  exact absurd hfull (Nat.not_le.mpr hroom)

/-- The file gets another block, which was free, and the bytes of its other blocks are the same. -/
structure Appended (s t : Rootfs) (ino : Nat) (bs : List Nat) (k : Nat) : Prop where
  chain : Chain t ino (bs ++ [k])
  blocksOk : BlocksOk t
  wrote : Wrote s t ino bs (bs ++ [k])
  counted : t.sBlkCnt = s.sBlkCnt + 1
  content : t.content bs = s.content bs
  null : s.blkAddr k ≠ 0

theorem BlocksOk.blkAddr_ne_zero (h : BlocksOk s) (k : Nat) : s.blkAddr k ≠ 0 :=
  Nat.ne_of_gt (Nat.lt_of_lt_of_le h.null (Nat.le_add_right ..))

theorem Chain.fsFileAppendBlock_isSome (h : Chain s ino bs) (hs : BlocksOk s)
    (hroom : s.sBlkCnt < fsBlkCnt) : ∃ t k, s.fsFileAppendBlock ino = some (t, s.blkAddr k) := by
  obtain ⟨⟨newBlk, s₁⟩, halloc⟩ := fsAllocBlock_isSome hs hroom
  obtain ⟨k, -, -, rfl, -⟩ := fsAllocBlock_spec halloc
  rw [fsFileAppendBlock, if_neg (not_not.mpr h.file.2.2), if_neg (Nat.not_le.mpr hroom), halloc]
  simp only [Option.bind_eq_bind, Option.bind_some]
  split
  · exact ⟨_, k, rfl⟩
  · exact ⟨_, k, rfl⟩

theorem Chain.append (h : Chain s ino bs) (hs : BlocksOk s) (hroom : s.sBlkCnt < fsBlkCnt) :
    ∃ t k, s.fsFileAppendBlock ino = some (t, s.blkAddr k) ∧ Appended s t ino bs k := by
  obtain ⟨t, k, happ⟩ := h.fsFileAppendBlock_isSome hs hroom
  refine ⟨t, k, happ, ?_⟩
  obtain ⟨-, hzero⟩ | ⟨k', hk, hfree, heq, rfl⟩ := fsFileAppendBlock_cases happ
  · exact absurd hzero (hs.blkAddr_ne_zero k)
  obtain rfl := blkAddr_injective heq
  have hok : FileOk s bs (s.inodes ino) := ⟨h.blocks, h.linked.left⟩
  have hfresh : k ∉ bs := fun hmem => notMem_usedBlks hfree (h.used k hmem)
  have hused : usedBlks { s with bitmapBlks := Function.update s.bitmapBlks k true } =
      insert k s.usedBlks := usedBlks_update hk rfl
  have hfits : s.blkAddr k < 2 ^ 32 := by
    have hend := hs.fits
    have hblk : fsBlkSize = 128 := rfl
    rw [hblk] at hend
    rw [Rootfs.blkAddr, hblk]
    omega
  obtain ⟨hlen, hlinked⟩ := hok.append h.nodup hfresh hfits
  have hinode := Function.update_self ino (linkedInode (s.inodes ino) (s.blkAddr k)) s.inodes
  exact {
    chain := {
      file := ⟨h.file.1, (congrArg Inode.iMode hinode).trans h.file.2.1,
        (congrArg Inode.iRdev hinode).trans h.file.2.2⟩
      used := fun j hj => hused.ge ((List.mem_append.mp hj).elim (fun hold => Or.inr (h.used j hold))
        fun hnew => Or.inl (List.mem_singleton.mp hnew))
      nodup := List.nodup_append_comm.mp (List.nodup_cons.mpr ⟨hfresh, h.nodup⟩)
      blocks := (congrArg Inode.iBlocks hinode).trans hlen
      linked := by
        have hnull := hlinked.append (hok.linkBlock_end h.nodup hfresh hfits)
        rw [← congrArg Inode.iData hinode] at hnull
        exact hnull }
    blocksOk := ⟨hs.null, hs.fits,
      (congrArg (· + 1) hs.counted).trans (countP_range_update hk hfree).symm⟩
    wrote := {
      inode := ⟨_, by
        rw [← hlen]
        rfl⟩
      used := fun j hj => hused.ge (Or.inr hj)
      sub := fun j hj => List.mem_append_left [k] hj
      grown := fun j hj => (List.mem_append.mp hj).imp id fun hnew => by
        rw [List.mem_singleton.mp hnew]
        exact notMem_usedBlks hfree
      others := fun j hj => hok.linkBlock_others hfresh hj
      rest := rfl }
    counted := rfl
    content := by
      have hblks : ∀ a ∈ bs.map s.blkAddr,
          payload (s.linkBlock (s.inodes ino) (s.blkAddr k)) a = payload s.memory a := by
        intro a ha
        obtain ⟨j, -, rfl⟩ := List.mem_map.mp ha
        exact hok.payload_linkBlock hfresh j
      exact congrArg List.flatten (List.map_congr_left hblks)
    null := hs.blkAddr_ne_zero k }

/-- The memory when bytes are put into a block behind its header. -/
def writeBlock (s : Rootfs) (k o : Nat) (piece : List Byte) : Nat → Byte :=
  ByteMemory.write s.memory (s.blkAddr k + sizeofBlockHeader + o) piece

theorem bNext_writeBlock (hn : o + piece.length ≤ blkFreeSize) :
    ({ s with memory := s.writeBlock k o piece } : Rootfs).bNext (s.blkAddr k') =
      s.bNext (s.blkAddr k') := by
  have hblk : fsBlkSize = 128 := rfl
  have hfree : blkFreeSize = 120 := rfl
  have hhead : sizeofBlockHeader = 8 := rfl
  have hread : ByteMemory.read (s.writeBlock k o piece) (s.blkAddr k') 4 =
      ByteMemory.read s.memory (s.blkAddr k') 4 := by
    refine ByteMemory.read_write_outside ?_
    by_cases hkk : k = k'
    · subst hkk
      omega
    · have hapart := s.blkAddr_apart hkk
      omega
  rw [bNext, hread, bNext]

theorem Chain.writeBlock (h : Chain s ino bs) (hs : BlocksOk s) (hk : k ∈ bs) (ho : o < blkFreeSize)
    (hn : o + piece.length ≤ blkFreeSize) :
    Tenok.rootfsWrite s.sInoAddr s.sBlkAddr s.memory piece
      ((s.blkAddr k + sizeofBlockHeader + o) % 2 ^ 32) = some (s.writeBlock k o piece) ∧
    Chain { s with memory := s.writeBlock k o piece } ino bs ∧
    Wrote s { s with memory := s.writeBlock k o piece } ino bs bs := by
  have hblk : fsBlkSize = 128 := rfl
  have hfree : blkFreeSize = 120 := rfl
  have hhead : sizeofBlockHeader = 8 := rfl
  obtain ⟨-, hend⟩ := hs.blkAddr_lt (h.used k hk)
  have hfits := hs.fits
  refine ⟨?_, ⟨h.file, h.used, h.nodup, h.blocks, ?_⟩, ?_⟩
  · rw [Nat.mod_eq_of_lt (by omega), Nat.add_assoc, hs.rootfsWrite (h.used k hk) (by omega),
      Rootfs.writeBlock, Nat.add_assoc]
  · refine h.linked.congr_init fun a ha => ?_
    obtain ⟨j, -, rfl⟩ := List.mem_map.mp ha
    exact bNext_writeBlock hn
  · refine ⟨h.wrote_refl.inode, subset_rfl, fun _ hj => hj, fun _ hj => Or.inl hj,
      fun j hj i hi => ByteMemory.write_outside ?_, rfl⟩
    have hne : j ≠ k := fun heq => hj (heq ▸ hk)
    have hapart := s.blkAddr_apart hne
    omega

theorem content_writeBlock (hnodup : bs.Nodup) (hk : bs[pos / blkFreeSize]? = some k)
    (hn : pos % blkFreeSize + piece.length ≤ blkFreeSize) :
    ({ s with memory := s.writeBlock k (pos % blkFreeSize) piece } : Rootfs).content bs =
      overwrite (s.content bs) pos piece := by
  have hblk : fsBlkSize = 128 := rfl
  have hfree : blkFreeSize = 120 := rfl
  have hhead : sizeofBlockHeader = 8 := rfl
  have hset : (bs.map s.blkAddr).map (payload (s.writeBlock k (pos % blkFreeSize) piece)) =
      ((bs.map s.blkAddr).map (payload s.memory)).set (pos / blkFreeSize)
        (overwrite (payload s.memory (s.blkAddr k)) (pos % blkFreeSize) piece) := by
    refine List.ext_getElem? fun i => ?_
    rw [List.getElem?_set, List.map_map, List.map_map, List.getElem?_map, List.length_map]
    by_cases hi : pos / blkFreeSize = i
    · subst hi
      rw [if_pos rfl, if_pos (List.getElem?_eq_some_iff.mp hk).1, hk, Option.map_some,
        Function.comp_apply, payload, payload, overwrite_read (by omega)]
      rfl
    · rw [if_neg hi, List.getElem?_map]
      refine Option.map_congr fun j hj => SameBlk.payload fun i' hi' => ?_
      have hne : j ≠ k := by
        rintro rfl
        exact hi ((List.getElem?_inj (List.getElem?_eq_some_iff.mp hk).1 hnodup).mp (hk.trans hj.symm))
      refine ByteMemory.write_outside ?_
      have hapart := s.blkAddr_apart hne
      omega
  have hpiece : ((bs.map s.blkAddr).map (payload s.memory))[pos / blkFreeSize]? =
      some (payload s.memory (s.blkAddr k)) := by
    rw [List.map_map, List.getElem?_map, hk, Option.map_some, Function.comp_apply]
  rw [content, fileContent]
  exact (congrArg List.flatten hset).trans
    (flatten_set_overwrite (by decide) (fun _ => payload_length_of_mem) hpiece hn)

/-- Bytes are written from a position on. What is before them stays, if the position is not behind
the blocks. -/
structure Writes (s t : Rootfs) (ino pos : Nat) (piece : List Byte) (bs bs' : List Nat) : Prop where
  chain : Chain t ino bs'
  blocksOk : BlocksOk t
  wrote : Wrote s t ino bs bs'
  content : pos ≤ blkFreeSize * bs.length →
    pos + piece.length ≤ blkFreeSize * bs'.length ∧
    (t.content bs').take (pos + piece.length) = (s.content bs).take pos ++ piece

theorem Chain.writes_nil (h : Chain s ino bs) (hs : BlocksOk s) : Writes s s ino pos [] bs bs :=
  ⟨h, hs, h.wrote_refl, fun hpos => ⟨hpos, (List.append_nil _).symm⟩⟩

theorem Writes.trans {piece' : List Byte} (h : Writes s t ino pos piece bs bs')
    (h' : Writes t u ino (pos + piece.length) piece' bs' bs'') :
    Writes s u ino pos (piece ++ piece') bs bs'' := by
  refine ⟨h'.chain, h'.blocksOk, h.wrote.trans h'.wrote, fun hpos => ?_⟩
  obtain ⟨hend, hold⟩ := h.content hpos
  obtain ⟨hend', hnew⟩ := h'.content hend
  rw [List.length_append, ← Nat.add_assoc]
  exact ⟨hend', by rw [hnew, hold, List.append_assoc]⟩

/-- One pass of the loop finds the block of the position or a new one, and writes into it. The
blocks that remain are one less if it was new. -/
structure Passes (s t : Rootfs) (ino pos : Nat) (piece : List Byte) (bs bs' : List Nat) (addr : Nat)
    (memory : Nat → Byte) : Prop where
  block : (if (s.inodes ino).iBlocks ≤ pos / blkFreeSize then s.fsFileAppendBlock ino
    else some (s, fsGetBlockAddr (s.driverRead rdevRootfs) (s.inodes ino).iData
      (pos / blkFreeSize))) = some (t, addr)
  null : addr ≠ 0
  write : Tenok.rootfsWrite t.sInoAddr t.sBlkAddr t.memory piece
    ((addr + sizeofBlockHeader + pos % blkFreeSize) % 2 ^ 32) = some memory
  writes : Writes s { t with memory } ino pos piece bs bs'
  remain : max bs'.length (pos / blkFreeSize + 1) + (fsBlkCnt - t.sBlkCnt) =
    max bs.length (pos / blkFreeSize) + (fsBlkCnt - s.sBlkCnt)

theorem Chain.pass_old (h : Chain s ino bs) (hs : BlocksOk s)
    (hpiece : pos % blkFreeSize + piece.length ≤ blkFreeSize)
    (hblk : pos / blkFreeSize < bs.length) :
    ∃ addr memory, Passes s s ino pos piece bs bs addr memory := by
  have hk := List.getElem?_eq_getElem hblk
  have hmod : pos % blkFreeSize < blkFreeSize := Nat.mod_lt _ (by decide)
  obtain ⟨hwrite, hchain, hwrote⟩ := h.writeBlock hs (List.getElem_mem hblk) hmod hpiece
  refine ⟨s.blkAddr bs[pos / blkFreeSize], _, ?_, hs.blkAddr_ne_zero _, hwrite,
    ⟨hchain, ⟨hs.null, hs.fits, hs.counted⟩, hwrote, fun hpos => ?_⟩, by omega⟩
  · rw [if_neg (by rw [h.blocks]; omega)]
    have haddr := (h.stored hs).fsGetBlockAddr (i := pos / blkFreeSize)
      (a := s.blkAddr bs[pos / blkFreeSize]) (by rw [List.getElem?_map, hk, Option.map_some])
    rw [haddr]
  · rw [content_writeBlock h.nodup hk hpiece, take_overwrite (by rw [content_length]; exact hpos)]
    have hdiv := Nat.div_add_mod pos blkFreeSize
    have hlast : blkFreeSize * (pos / blkFreeSize) + blkFreeSize ≤ blkFreeSize * bs.length := by
      rw [← Nat.mul_succ]
      exact Nat.mul_le_mul_left _ hblk
    exact ⟨by omega, rfl⟩

theorem Chain.pass_new (h : Chain s ino bs) (hs : BlocksOk s)
    (hpiece : pos % blkFreeSize + piece.length ≤ blkFreeSize)
    (hblk : bs.length ≤ pos / blkFreeSize) (hroom : s.sBlkCnt < fsBlkCnt) :
    ∃ t bs' addr memory, Passes s t ino pos piece bs bs' addr memory := by
  obtain ⟨t, k, happ, hnew⟩ := h.append hs hroom
  have hmod : pos % blkFreeSize < blkFreeSize := Nat.mod_lt _ (by decide)
  obtain ⟨hwrite, hchain, hwrote⟩ := hnew.chain.writeBlock hnew.blocksOk
    (List.mem_append_right bs List.mem_cons_self) hmod hpiece
  rw [hnew.wrote.blkAddr] at hwrite
  have hcnt := hnew.counted
  have hcount : (bs ++ [k]).length = bs.length + 1 := by simp
  refine ⟨t, bs ++ [k], s.blkAddr k, _, by rw [h.blocks, if_pos hblk, happ], hnew.null, hwrite,
    ⟨hchain, ⟨hnew.blocksOk.null, hnew.blocksOk.fits, hnew.blocksOk.counted⟩,
      hnew.wrote.trans hwrote, fun hpos => ?_⟩, by omega⟩
  -- the position is that behind the old blocks
  have hdiv := Nat.div_add_mod pos blkFreeSize
  have hlast := Nat.mul_le_mul_left blkFreeSize hblk
  have hend : pos = blkFreeSize * bs.length := by omega
  have hfirst : pos / blkFreeSize = bs.length := by
    rw [hend, Nat.mul_div_cancel_left _ (by decide)]
  have hk : (bs ++ [k])[pos / blkFreeSize]? = some k := by simp [hfirst]
  have hsplit : t.content (bs ++ [k]) = s.content bs ++ payload t.memory (t.blkAddr k) := by
    rw [← hnew.content]
    simp [content, fileContent]
  rw [content_writeBlock hnew.chain.nodup hk hpiece, take_overwrite (by
    rw [content_length, hcount, Nat.mul_succ]
    omega), hcount, Nat.mul_succ]
  refine ⟨by omega, ?_⟩
  rw [hsplit, List.take_append_of_le_length (by rw [content_length]; omega)]

theorem Passes.writeLoop {addr : Nat}
    (h : Passes s t ino pos (buf.take (min (blkFreeSize - pos % blkFreeSize) buf.length)) bs bs' addr
      memory) (hbuf : buf ≠ []) :
    Rootfs.writeLoop ino (passes + 1) s pos buf =
      Rootfs.writeLoop ino passes { t with memory }
        (pos + min (blkFreeSize - pos % blkFreeSize) buf.length)
        (buf.drop (min (blkFreeSize - pos % blkFreeSize) buf.length)) := by
  have hblock := h.block
  have hnull := h.null
  have hwrite := h.write
  rw [Rootfs.writeLoop, if_neg hbuf]
  split at hblock
  · next hnew =>
      simp only [hnew, if_true, hblock, Option.bind_eq_bind, Option.bind_some, hnull, hwrite, if_false]
  · next hold =>
      obtain ⟨rfl, rfl⟩ := Prod.mk.inj (Option.some.inj hblock)
      simp only [hold, Option.bind_eq_bind, Option.bind_some, hnull, hwrite, if_false]

theorem Passes.room {addr : Nat}
    (h : Passes s t ino pos (buf.take (min (blkFreeSize - pos % blkFreeSize) buf.length)) bs bs' addr
      memory) :
    min buf.length (s.room bs.length pos) = min (blkFreeSize - pos % blkFreeSize) buf.length +
      min (buf.length - min (blkFreeSize - pos % blkFreeSize) buf.length)
        (({ t with memory } : Rootfs).room bs'.length
          (pos + min (blkFreeSize - pos % blkFreeSize) buf.length)) := by
  have hfree : blkFreeSize = 120 := rfl
  have hremain := h.remain
  have hblk : pos / 120 + 1 ≤ max bs'.length (pos / 120 + 1) := Nat.le_max_right ..
  simp only [Rootfs.room, hfree] at hremain ⊢
  rw [← hremain]
  obtain hpart | hfull := Nat.le_total buf.length (120 - pos % 120)
  · rw [Nat.min_eq_right hpart, Nat.sub_self, Nat.zero_min]
    omega
  · have hnext : (pos + (120 - pos % 120)) / 120 = pos / 120 + 1 := by omega
    rw [Nat.min_eq_left hfull, hnext]
    omega

theorem Chain.writeLoop (h : Chain s ino bs) (hs : BlocksOk s) (pos : Nat)
    (hpasses : buf.length ≤ passes) :
    ∃ t bs', Rootfs.writeLoop ino passes s pos buf =
        some (t, pos + min buf.length (s.room bs.length pos),
          buf.drop (min buf.length (s.room bs.length pos))) ∧
      Writes s t ino pos (buf.take (min buf.length (s.room bs.length pos))) bs bs' := by
  induction passes generalizing s bs pos buf with
  | zero =>
      obtain rfl := List.length_eq_zero_iff.mp (Nat.le_zero.mp hpasses)
      exact ⟨s, bs, by simp [Rootfs.writeLoop], by simpa using h.writes_nil hs⟩
  | succ passes ih =>
      by_cases hbuf : buf = []
      · subst hbuf
        exact ⟨s, bs, by simp [Rootfs.writeLoop], by simpa using h.writes_nil hs⟩
      have hlen : 0 < buf.length := List.length_pos_iff.mpr hbuf
      have hmod : pos % blkFreeSize < blkFreeSize := Nat.mod_lt _ (by decide)
      by_cases hfull : bs.length ≤ pos / blkFreeSize ∧ fsBlkCnt ≤ s.sBlkCnt
      · -- no block for the position, and none to be had
        have hroom : s.room bs.length pos = 0 := by
          rw [room, Nat.max_eq_right hfull.1, Nat.sub_eq_zero_of_le hfull.2, Nat.add_zero]
          exact Nat.sub_eq_zero_of_le (Nat.mul_div_le pos blkFreeSize)
        have happ : s.fsFileAppendBlock ino = some (s, 0) := by
          rw [fsFileAppendBlock, if_neg (not_not.mpr h.file.2.2), if_pos hfull.2]
        refine ⟨s, bs, ?_, by simpa [hroom] using h.writes_nil hs⟩
        rw [Rootfs.writeLoop, if_neg hbuf, h.blocks, if_pos hfull.1, happ, hroom]
        simp
      · obtain ⟨t, bs₁, addr, memory, hpass⟩ : ∃ t bs₁ addr memory,
            Passes s t ino pos (buf.take (min (blkFreeSize - pos % blkFreeSize) buf.length)) bs bs₁
              addr memory := by
          have hpiece : pos % blkFreeSize +
              (buf.take (min (blkFreeSize - pos % blkFreeSize) buf.length)).length ≤
                blkFreeSize := by
            rw [List.length_take]
            omega
          by_cases hblk : pos / blkFreeSize < bs.length
          · obtain ⟨addr, memory, hpass⟩ := h.pass_old hs hpiece hblk
            exact ⟨s, bs, addr, memory, hpass⟩
          · exact h.pass_new hs hpiece (by omega) (by omega)
        have hrest : (buf.drop (min (blkFreeSize - pos % blkFreeSize) buf.length)).length ≤ passes := by
          rw [List.length_drop]
          omega
        obtain ⟨u, bs', hloop, hwrites⟩ := ih hpass.writes.chain hpass.writes.blocksOk _ hrest
        have hroom := hpass.room
        rw [← List.length_drop] at hroom
        refine ⟨u, bs', ?_, ?_⟩
        · rw [hpass.writeLoop hbuf, hloop, hroom, Nat.add_assoc, List.drop_drop]
        · rw [hroom, List.take_add]
          have htaken : (buf.take (min (blkFreeSize - pos % blkFreeSize) buf.length)).length =
              min (blkFreeSize - pos % blkFreeSize) buf.length := by
            rw [List.length_take]
            omega
          exact hpass.writes.trans (by rw [htaken]; exact hwrites)

theorem Wrote.other {j : Nat} (h : Wrote s t ino bs bs') (hne : j ≠ ino) (hc : Chain s j cs)
    (hapart : ∀ k ∈ cs, k ∉ bs) : Chain t j cs ∧ t.content cs = s.content cs := by
  obtain ⟨iData, hinodes⟩ := h.inode
  have hinode : t.inodes j = s.inodes j := by rw [hinodes, Function.update_of_ne hne]
  have hbits : t.bitmapInodes = s.bitmapInodes := by rw [h.rest]
  have hsame : ∀ k ∈ cs, s.SameBlk t.memory k := fun k hk => h.others k fun hmem =>
    (h.grown k hmem).elim (hapart k hk) fun hfresh => hfresh (hc.used k hk)
  refine ⟨⟨?_, fun k hk => h.used (hc.used k hk), hc.nodup, ?_, ?_⟩, ?_⟩
  · rw [IsRegFile, hinode, hbits]
    exact hc.file
  · rw [hinode, hc.blocks]
  · rw [hinode, h.blkAddr]
    refine hc.linked.congr_init fun a ha => ?_
    obtain ⟨k, hk, rfl⟩ := List.mem_map.mp ha
    exact (hsame k hk).bNext
  · rw [content, h.blkAddr, content, fileContent, fileContent]
    refine congrArg List.flatten (List.map_congr_left fun a ha => ?_)
    obtain ⟨k, hk, rfl⟩ := List.mem_map.mp ha
    exact (hsame k hk).payload

theorem Chain.regFileWrite (h : Chain s ino bs) (hs : BlocksOk s) (buf : List Byte) :
    ∃ t u bs', s.regFileWrite ino buf = some (t, min buf.length (s.room bs.length (s.pos ino))) ∧
      Writes s u ino (s.pos ino) (buf.take (min buf.length (s.room bs.length (s.pos ino)))) bs bs' ∧
      t = { u.setInode ino (fun n => { n with iSize := (n.iSize + buf.length) % 2 ^ 32 }) with
        pos := Function.update s.pos ino
          (s.pos ino + min buf.length (s.room bs.length (s.pos ino))) } := by
  obtain ⟨u, bs', hloop, hwrites⟩ := h.writeLoop hs (s.pos ino) (Nat.le_refl buf.length)
  refine ⟨_, u, bs', ?_, hwrites, rfl⟩
  have hpos : u.pos = s.pos := by rw [hwrites.wrote.rest]
  rw [Rootfs.regFileWrite, if_neg (not_not.mpr h.file.2.2)]
  simp only [hloop, Option.bind_eq_bind, Option.bind_some, setInode, hpos, List.length_drop]
  congr 2
  omega

end Rootfs

end Tenok
