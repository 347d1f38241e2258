import Tenok.Fs.RegFile
import Tenok.Lib.Chunks

/-!
What `reg_file_read` answers. The content of a file is what its blocks hold behind their headers,
one block after the other; a read that is asked for no more than that gives it, and one that is
asked for more comes to the address behind the last block.
-/
namespace Tenok
open Chunks

/-- A file on a storage: its blocks are linked up to NULL, and the driver gives access to them. -/
structure Stored (read : DriverRead) (memory : Nat → Byte) (iData : Nat) (blocks : List Nat) :
    Prop where
  linked : Linked (nextBlk read) iData (blocks ++ [0])
  null : 0 ∉ blocks
  serves : ∀ a ∈ blocks, a + fsBlkSize ≤ 2 ^ 32 ∧
    ∀ o n, o + n ≤ fsBlkSize → read (a + o) n = some (ByteMemory.read memory (a + o) n)

def payload (memory : Nat → Byte) (blkAddr : Nat) : List Byte :=
  ByteMemory.read memory (blkAddr + sizeofBlockHeader) blkFreeSize

def fileContent (memory : Nat → Byte) (blocks : List Nat) : List Byte :=
  (blocks.map (payload memory)).flatten

/-- The read ends where the file does, and stays in its blocks. -/
structure ReadsToEnd (size pos n : Nat) (content : List Byte) (blocks : List Nat) (r : FileRead) :
    Prop where
  retval : r.retval = min n (size - pos)
  data : r.data = (content.drop pos).take (min n (size - pos))
  filled : r.data.length = min n (size - pos)
  own : ∀ a ∈ r.followed, a ∈ blocks

variable {read : DriverRead} {memory : Nat → Byte} {iData i a pos n passes remained size : Nat}
  {blocks : List Nat}

theorem length_payload (a : Nat) : (payload memory a).length = blkFreeSize :=
  ByteMemory.length_read ..

theorem payload_length_of_mem {c : List Byte} (hc : c ∈ blocks.map (payload memory)) :
    c.length = blkFreeSize := by
  obtain ⟨a, -, rfl⟩ := List.mem_map.mp hc
  exact length_payload a

theorem length_fileContent :
    (fileContent memory blocks).length = blkFreeSize * blocks.length := by
  rw [fileContent, length_flatten fun _ => payload_length_of_mem, List.length_map]

namespace Stored

theorem fsGetBlockAddr (h : Stored read memory iData blocks) (ha : blocks[i]? = some a) :
    Tenok.fsGetBlockAddr read iData i = a := by
  refine h.linked.iterate ?_
  rw [List.getElem?_append_left (List.getElem?_eq_some_iff.mp ha).1]
  exact ha

theorem fsGetBlockAddr_length (h : Stored read memory iData blocks) :
    Tenok.fsGetBlockAddr read iData blocks.length = 0 :=
  h.linked.iterate (by simp)

theorem mem_of_blocksTo (h : Stored read memory iData blocks) (hi : i < blocks.length)
    (ha : a ∈ blocksTo read iData i) : a ∈ blocks := by
  obtain ⟨j, hj, rfl⟩ := List.mem_map.mp ha
  have hlt : j < blocks.length := Nat.lt_of_lt_of_le (List.mem_range.mp hj) hi
  rw [h.fsGetBlockAddr (List.getElem?_eq_getElem hlt)]
  exact List.getElem_mem hlt

theorem null_mem_blocksTo (h : Stored read memory iData blocks) (hi : blocks.length ≤ i) :
    0 ∈ blocksTo read iData i :=
  List.mem_map.mpr ⟨blocks.length, List.mem_range.mpr (Nat.lt_succ_of_le hi),
    h.fsGetBlockAddr_length⟩

theorem read_block (h : Stored read memory iData blocks) (ha : blocks[pos / blkFreeSize]? = some a)
    (hn : pos % blkFreeSize + n ≤ blkFreeSize) :
    read ((a + sizeofBlockHeader + pos % blkFreeSize) % 2 ^ 32) n =
      some (((fileContent memory blocks).drop pos).take n) := by
  have hfree : blkFreeSize = 120 := rfl
  have hblk : fsBlkSize = 128 := rfl
  have hhead : sizeofBlockHeader = 8 := rfl
  obtain ⟨hend, hread⟩ := h.serves a (List.mem_of_getElem? ha)
  have hmod : pos % blkFreeSize < blkFreeSize := Nat.mod_lt _ (by decide)
  have hpiece : ((fileContent memory blocks).drop pos).take n =
      ((payload memory a).drop (pos % blkFreeSize)).take n :=
    take_drop_flatten (by decide) (fun _ => payload_length_of_mem)
      (by rw [List.getElem?_map, ha]; rfl) hn
  rw [hpiece, Nat.mod_eq_of_lt (by omega), Nat.add_assoc, hread _ _ (by omega), payload]
  refine congrArg some (List.ext_getElem? fun j => ?_)
  rw [List.getElem?_take, List.getElem?_drop]
  by_cases hj : j < n
  · rw [if_pos hj, ByteMemory.getElem?_read hj, ByteMemory.getElem?_read (by omega), Nat.add_assoc,
      Nat.add_assoc, Nat.add_assoc]
  · rw [if_neg hj]
    exact List.getElem?_eq_none (by rw [ByteMemory.length_read]; omega)

theorem readLoop_inside (h : Stored read memory iData blocks) (hpasses : remained ≤ passes)
    (hend : pos + remained ≤ blkFreeSize * blocks.length) :
    let r := readLoop read iData passes pos remained
    r.data = ((fileContent memory blocks).drop pos).take remained ∧ r.retval = remained ∧
      r.pos = pos + remained ∧ ∀ a ∈ r.followed, a ∈ blocks := by
  induction passes generalizing pos remained with
  | zero =>
      obtain rfl := Nat.le_zero.mp hpasses
      simp [readLoop]
  | succ passes ih =>
      rw [readLoop]
      by_cases hzero : remained = 0
      · simp [hzero]
      have hlt : pos / blkFreeSize < blocks.length := Nat.div_lt_of_lt_mul (by omega)
      have hblk := List.getElem?_eq_getElem hlt
      have hmod : pos % blkFreeSize < blkFreeSize := Nat.mod_lt _ (by decide)
      have hread := h.read_block (n := min (blkFreeSize - pos % blkFreeSize) remained) hblk (by omega)
      have hends : pos + min (blkFreeSize - pos % blkFreeSize) remained +
          (remained - min (blkFreeSize - pos % blkFreeSize) remained) ≤
            blkFreeSize * blocks.length := by omega
      obtain ⟨hdata, hretval, hpos, hown⟩ := ih (by omega) hends
      simp only [hzero, if_false, h.fsGetBlockAddr hblk, hread]
      refine ⟨?_, ?_, ?_, ?_⟩
      · rw [hdata, ← List.drop_drop, ← List.take_add]
        congr 1
        omega
      · omega
      · omega
      · intro a ha
        exact (List.mem_append.mp ha).elim (h.mem_of_blocksTo hlt) (hown a)

theorem readLoop_behind (h : Stored read memory iData blocks) (hpasses : remained ≤ passes)
    (hpos : 0 < remained) (hend : blkFreeSize * blocks.length < pos + remained) :
    0 ∈ (readLoop read iData passes pos remained).followed := by
  induction passes generalizing pos remained with
  | zero => omega
  | succ passes ih =>
      rw [readLoop, if_neg (Nat.ne_of_gt hpos)]
      obtain hlt | hle := Nat.lt_or_ge (pos / blkFreeSize) blocks.length
      · have hblk := List.getElem?_eq_getElem hlt
        have hmod : pos % blkFreeSize < blkFreeSize := Nat.mod_lt _ (by decide)
        have hread := h.read_block (n := min (blkFreeSize - pos % blkFreeSize) remained) hblk
          (by omega)
        have hdiv := Nat.div_add_mod pos blkFreeSize
        have hblocks : blkFreeSize * (pos / blkFreeSize) + blkFreeSize ≤
            blkFreeSize * blocks.length := by
          rw [← Nat.mul_succ]
          exact Nat.mul_le_mul_left _ hlt
        simp only [h.fsGetBlockAddr hblk, hread]
        exact List.mem_append_right _ (ih (by omega) (by omega) (by omega))
      · have hnull := h.null_mem_blocksTo hle
        cases hread : read ((Tenok.fsGetBlockAddr read iData (pos / blkFreeSize) +
          sizeofBlockHeader + pos % blkFreeSize) % 2 ^ 32)
          (min (blkFreeSize - pos % blkFreeSize) remained) with
        | none => simpa only [hread] using hnull
        | some bytes => simpa only [hread] using List.mem_append_left _ hnull

/-- A read from a position in the file ends where the file does exactly if it is not asked for
more, and the blocks hold as much. -/
theorem readsToEnd_iff (h : Stored read memory iData blocks) (hpos : pos ≤ size) :
    ReadsToEnd size pos n (fileContent memory blocks) blocks (readLoop read iData n pos n) ↔
      n = 0 ∨ (pos + n ≤ size ∧ pos + n ≤ blkFreeSize * blocks.length) := by
  obtain rfl | hn := Nat.eq_zero_or_pos n
  · exact iff_of_true ⟨by simp [readLoop], by simp [readLoop], by simp [readLoop], by simp [readLoop]⟩
      (Or.inl rfl)
  constructor
  · intro hreads
    have hblocks : pos + n ≤ blkFreeSize * blocks.length := by
      by_contra hbehind
      exact h.null (hreads.own 0 (h.readLoop_behind (Nat.le_refl n) hn (Nat.lt_of_not_le hbehind)))
    have hretval := (h.readLoop_inside (Nat.le_refl n) hblocks).2.1
    rw [hreads.retval] at hretval
    exact Or.inr ⟨by omega, hblocks⟩
  · rintro (rfl | ⟨hsize, hblocks⟩)
    · exact absurd hn (Nat.lt_irrefl 0)
    obtain ⟨hdata, hretval, -, hown⟩ := h.readLoop_inside (Nat.le_refl n) hblocks
    have hmin : min n (size - pos) = n := by omega
    refine ⟨by rw [hmin]; exact hretval, by rw [hmin]; exact hdata, ?_, hown⟩
    rw [hdata, hmin, List.length_take, List.length_drop, length_fileContent]
    omega

/-- If there is nothing to be read at NULL, every block behind the last one is NULL. -/
theorem fsGetBlockAddr_behind (h : Stored read memory iData blocks)
    (hnull : read 0 sizeofBlockHeader = none) (hi : blocks.length ≤ i) :
    Tenok.fsGetBlockAddr read iData i = 0 := by
  obtain ⟨j, rfl⟩ := Nat.exists_eq_add_of_le hi
  induction j with
  | zero => exact h.fsGetBlockAddr_length
  | succ j ih =>
      rw [← Nat.add_assoc, Tenok.fsGetBlockAddr, Function.iterate_succ_apply']
      change nextBlk read (Tenok.fsGetBlockAddr read iData (blocks.length + j)) = 0
      rw [ih (Nat.le_add_right ..), nextBlk, hnull]
      rfl

/-- A read depends on the blocks of the file alone, if there is nothing to be read at NULL. -/
theorem readLoop_congr {read' : DriverRead} {memory' : Nat → Byte}
    (h : Stored read memory iData blocks) (h' : Stored read' memory' iData blocks)
    (hsame : fileContent memory' blocks = fileContent memory blocks)
    (hlow : ∀ o n, o < fsBlkSize → read o n = none ∧ read' o n = none) :
    readLoop read' iData passes pos remained = readLoop read iData passes pos remained := by
  have haddr : Tenok.fsGetBlockAddr read' iData = Tenok.fsGetBlockAddr read iData := by
    funext i
    obtain hlt | hle := Nat.lt_or_ge i blocks.length
    · have hblk := List.getElem?_eq_getElem hlt
      rw [h.fsGetBlockAddr hblk, h'.fsGetBlockAddr hblk]
    · obtain ⟨hnull, hnull'⟩ := hlow 0 sizeofBlockHeader (by decide)
      rw [h.fsGetBlockAddr_behind hnull hle, h'.fsGetBlockAddr_behind hnull' hle]
  induction passes generalizing pos remained with
  | zero => rfl
  | succ passes ih =>
      rw [readLoop, readLoop]
      by_cases hzero : remained = 0
      · rw [if_pos hzero, if_pos hzero]
      rw [if_neg hzero, if_neg hzero]
      have hmod : pos % blkFreeSize < blkFreeSize := Nat.mod_lt _ (by decide)
      have hread : read' ((Tenok.fsGetBlockAddr read iData (pos / blkFreeSize) + sizeofBlockHeader +
            pos % blkFreeSize) % 2 ^ 32) (min (blkFreeSize - pos % blkFreeSize) remained) =
          read ((Tenok.fsGetBlockAddr read iData (pos / blkFreeSize) + sizeofBlockHeader +
            pos % blkFreeSize) % 2 ^ 32) (min (blkFreeSize - pos % blkFreeSize) remained) := by
        obtain hlt | hle := Nat.lt_or_ge (pos / blkFreeSize) blocks.length
        · have hblk := List.getElem?_eq_getElem hlt
          have hn : pos % blkFreeSize + min (blkFreeSize - pos % blkFreeSize) remained ≤
              blkFreeSize := by omega
          rw [h.fsGetBlockAddr hblk, h.read_block hblk hn, h'.read_block hblk hn, hsame]
        · rw [h.fsGetBlockAddr_behind (hlow 0 sizeofBlockHeader (by decide)).1 hle]
          have hfree : blkFreeSize = 120 := rfl
          have hhead : sizeofBlockHeader = 8 := rfl
          have hblk : fsBlkSize = 128 := rfl
          obtain ⟨hnone, hnone'⟩ := hlow ((0 + sizeofBlockHeader + pos % blkFreeSize) % 2 ^ 32)
            (min (blkFreeSize - pos % blkFreeSize) remained) (by omega)
          rw [hnone, hnone']
      simp only [blocksTo, haddr, hread, ih]

end Stored

end Tenok
