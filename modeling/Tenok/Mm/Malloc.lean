import Tenok.Common.List
import Tenok.Common.Util

/-!
`kernel/mm/mm.c`: the user heap. The headers of the blocks lie in the heap itself, so
the model works on raw memory, a function from the addresses of aligned words to their
contents. A block is the address of its `struct malloc_info`: the word `block_info`,
then the list node, then the data.
-/
namespace Tenok
open Ring

abbrev Memory := Word → Word

def Memory.write (m : Memory) (addr value : Word) : Memory :=
  fun a => if a = addr then value else m a

theorem Memory.write_self (m : Memory) (addr value : Word) : m.write addr value addr = value :=
  if_pos rfl

theorem Memory.write_ne (m : Memory) {addr a : Word} (value : Word) (h : addr ≠ a) :
    m.write addr value a = m a := if_neg h.symm

private theorem add_four_ne (a : Word) : a + 4#32 ≠ a := by simp

private theorem add_four_ne_add_four {a b : Word} (h : a ≠ b) : a + 4#32 ≠ b + 4#32 := by
  simpa using h

/-- A `struct list_head` in memory: `next`, then `prev`. -/
instance : LinkStore Memory Word where
  next m a := m a
  prev m a := m (a + 4#32)
  setNext m a v := m.write a v
  setPrev m a v := m.write (a + 4#32) v
  Apart a b := a ≠ b ∧ a + 4#32 ≠ b ∧ b + 4#32 ≠ a
  apart_ne h := h.1
  apart_symm h := ⟨h.1.symm, h.2.2, h.2.1⟩
  next_setNext_self m _ v := m.write_self _ v
  prev_setNext_self m a v := m.write_ne v (add_four_ne a).symm
  next_setPrev_self m a v := m.write_ne v (add_four_ne a)
  prev_setPrev_self m _ v := m.write_self _ v
  next_setNext_apart m _ _ v h := m.write_ne v h.1
  prev_setNext_apart m _ _ v h := m.write_ne v h.2.2.symm
  next_setPrev_apart m _ _ v h := m.write_ne v h.2.1
  prev_setPrev_apart m _ _ v h := m.write_ne v (add_four_ne_add_four h.1)

abbrev mallocInfoSize : Word := 12#32

abbrev listOf (blk : Word) : Word := blk + 4#32

/-- `list_entry(node, struct malloc_info, list)`. -/
abbrev blockOf (node : Word) : Word := node - 4#32

abbrev dataOf (blk : Word) : Word := blk + 12#32

def mallocBlkFreeMask : Word := 1#32 <<< 30

def mallocBlkLenMask : Word := ~~~(1#32 <<< 30)

def mallocBlockIsFree (m : Memory) (blk : Word) : Bool := decide (m blk &&& mallocBlkFreeMask ≠ 0)

def mallocSetBlockFree (m : Memory) (blk : Word) (free : Bool) : Memory :=
  if free then m.write blk (m blk ||| mallocBlkFreeMask)
  else m.write blk (m blk &&& mallocBlkLenMask)

def mallocGetBlockLength (m : Memory) (blk : Word) : Word := m blk &&& mallocBlkLenMask

def mallocSetBlockLength (m : Memory) (blk len : Word) : Memory :=
  m.write blk ((m blk &&& mallocBlkFreeMask) ||| (len &&& mallocBlkLenMask))

/-- The linker symbols `_user_stack_start` and `_user_stack_end` and the address of
`malloc_list`. -/
structure HeapLayout where
  start : Word
  stop : Word
  mallocList : Word
  start_aligned : 4 ∣ start.toNat
  stop_aligned : 4 ∣ stop.toNat
  room : start.toNat + 12 ≤ stop.toNat
  small : stop.toNat - start.toNat < 2 ^ 30
  list_outside : mallocList.toNat + 8 ≤ start.toNat ∨ stop.toNat ≤ mallocList.toNat
  list_fits : mallocList.toNat + 8 ≤ 2 ^ 32

/-- No list in memory is longer than this, so a loop that is still running does not end. -/
abbrev memoryFuel : Nat := 2 ^ 32

/-- `LIST_HEAD(malloc_list)` and then `heap_init`, in memory of any contents. -/
def heapInit (L : HeapLayout) (m : Memory) : Memory :=
  let m := initListHead m L.mallocList
  let firstBlk := L.start
  let len := L.stop - L.start
  let m := mallocSetBlockFree m firstBlk true
  let m := mallocSetBlockLength m firstBlk len
  listAdd m (listOf firstBlk) L.mallocList

/-- The branch of `__malloc` that splits a free block. -/
def mallocSplit (L : HeapLayout) (m : Memory) (blk allocSize : Word) : Memory × Word :=
  let m := mallocSetBlockLength m blk (mallocGetBlockLength m blk - allocSize)
  let newBlk := blk + mallocGetBlockLength m blk
  let m := mallocSetBlockFree m newBlk false
  let m := mallocSetBlockLength m newBlk allocSize
  (listAdd m (listOf newBlk) L.mallocList, dataOf newBlk)

def mallocTry (L : HeapLayout) (allocSize : Word) (m : Memory) (node : Word) :
    Memory ⊕ (Memory × Word) :=
  let blk := blockOf node
  if mallocBlockIsFree m blk then
    let blkLen := mallocGetBlockLength m blk
    if blkLen < allocSize then .inl m
    else if blkLen < allocSize + mallocInfoSize then
      .inr (mallocSetBlockFree m blk false, dataOf blk)
    else .inr (mallocSplit L m blk allocSize)
  else .inl m

/-- `__malloc`; the inner `none` is `NULL`. -/
def malloc (L : HeapLayout) (m : Memory) (size : Word) : Option (Memory × Option Word) :=
  let allocSize := align (size + mallocInfoSize) 4#32
  match listForEach id L.mallocList (mallocTry L allocSize) memoryFuel m (next m L.mallocList) with
  | none => none
  | some (.inl m) => some (m, none)
  | some (.inr (m, data)) => some (m, some data)

/-- The first half of `__free`: merging with the previous block of the list. -/
def mergePrev (L : HeapLayout) (m : Memory) (currBlk : Word) : Memory × Word :=
  if prev m (listOf currBlk) ≠ L.mallocList then
    let prevBlk := blockOf (prev m (listOf currBlk))
    if mallocBlockIsFree m prevBlk then
      let len := mallocGetBlockLength m prevBlk + mallocGetBlockLength m currBlk
      let m := mallocSetBlockLength m prevBlk len
      (listDel m (listOf currBlk), prevBlk)
    else (m, currBlk)
  else (m, currBlk)

/-- The second half of `__free`: merging with the next block of the list. -/
def mergeNext (L : HeapLayout) (m : Memory) (currBlk : Word) : Memory :=
  if next m (listOf currBlk) ≠ L.mallocList then
    let nextBlk := blockOf (next m (listOf currBlk))
    if mallocBlockIsFree m nextBlk then
      let len := mallocGetBlockLength m currBlk + mallocGetBlockLength m nextBlk
      let m := mallocSetBlockLength m currBlk len
      listDel m (listOf nextBlk)
    else m
  else m

def free (L : HeapLayout) (m : Memory) (ptr : Word) : Memory :=
  let currBlk := ptr - 12#32
  let m := mallocSetBlockFree m currBlk true
  let (m, currBlk) := mergePrev L m currBlk
  mergeNext L m currBlk

/-- The body of a loop that lists the blocks it visits. -/
def collectBlock (t : Memory × List Word) (node : Word) : (Memory × List Word) ⊕ Empty :=
  .inl (t.1, t.2 ++ [blockOf node])

/-- The blocks on `malloc_list`, in the order of `list_for_each_entry`. -/
def mallocBlocks (L : HeapLayout) (m : Memory) : Option (List Word) :=
  match listForEach Prod.fst L.mallocList collectBlock memoryFuel (m, []) (next m L.mallocList) with
  | some (.inl t) => some t.2
  | _ => none

section BlockInfo
variable (m : Memory) (blk : Word)

private theorem getLsbD_freeMask (i : Nat) : mallocBlkFreeMask.getLsbD i = decide (i = 30) := by
  rw [mallocBlkFreeMask, BitVec.getLsbD_shiftLeft, BitVec.getLsbD_one]
  by_cases h : i = 30
  · simp [h]
  · simp [h]
    omega

private theorem getLsbD_lenMask {i : Nat} (hi : i < 32) :
    mallocBlkLenMask.getLsbD i = !decide (i = 30) := by
  rw [mallocBlkLenMask, BitVec.getLsbD_not, ← mallocBlkFreeMask, getLsbD_freeMask]
  simp [hi]

theorem mallocBlockIsFree_eq : mallocBlockIsFree m blk = (m blk).getLsbD 30 := by
  have hbit : m blk &&& mallocBlkFreeMask = if (m blk).getLsbD 30 then mallocBlkFreeMask else 0 := by
    apply BitVec.eq_of_getLsbD_eq
    intro i hi
    rw [BitVec.getLsbD_and, getLsbD_freeMask]
    by_cases h : i = 30
    · subst h
      cases (m blk).getLsbD 30 <;> simp [getLsbD_freeMask]
    · cases (m blk).getLsbD 30 <;> simp [h, getLsbD_freeMask]
  rw [mallocBlockIsFree, hbit]
  cases (m blk).getLsbD 30 <;> decide

private theorem and_lenMask {len : Word} (h : len.toNat < 2 ^ 30) : len &&& mallocBlkLenMask = len := by
  have hzero : len.getLsbD 30 = false := by
    rw [← BitVec.testBit_toNat]
    exact Nat.testBit_lt_two_pow h
  apply BitVec.eq_of_getLsbD_eq
  intro i hi
  rw [BitVec.getLsbD_and, getLsbD_lenMask hi]
  by_cases h30 : i = 30
  · subst h30
    rw [hzero, Bool.false_and]
  · simp [h30]

@[simp] theorem mallocBlockIsFree_setFree (free : Bool) :
    mallocBlockIsFree (mallocSetBlockFree m blk free) blk = free := by
  rw [mallocBlockIsFree_eq]
  cases free with
  | true =>
      simp only [mallocSetBlockFree, if_true, Memory.write_self]
      rw [BitVec.getLsbD_or, getLsbD_freeMask]
      simp
  | false =>
      simp only [mallocSetBlockFree, Bool.false_eq_true, if_false, Memory.write_self]
      rw [BitVec.getLsbD_and, getLsbD_lenMask (by decide)]
      simp

@[simp] theorem mallocGetBlockLength_setFree (free : Bool) :
    mallocGetBlockLength (mallocSetBlockFree m blk free) blk = mallocGetBlockLength m blk := by
  apply BitVec.eq_of_getLsbD_eq
  intro i hi
  cases free with
  | true =>
      simp only [mallocGetBlockLength, mallocSetBlockFree, if_true, Memory.write_self]
      rw [BitVec.getLsbD_and, BitVec.getLsbD_or, BitVec.getLsbD_and, getLsbD_freeMask,
        getLsbD_lenMask hi]
      by_cases h30 : i = 30 <;> simp [h30]
  | false =>
      simp only [mallocGetBlockLength, mallocSetBlockFree, Bool.false_eq_true, if_false,
        Memory.write_self]
      rw [BitVec.and_assoc, BitVec.and_self]

@[simp] theorem mallocBlockIsFree_setLength (len : Word) :
    mallocBlockIsFree (mallocSetBlockLength m blk len) blk = mallocBlockIsFree m blk := by
  rw [mallocBlockIsFree_eq, mallocBlockIsFree_eq, mallocSetBlockLength, Memory.write_self,
    BitVec.getLsbD_or, BitVec.getLsbD_and, BitVec.getLsbD_and, getLsbD_freeMask,
    getLsbD_lenMask (by decide)]
  simp

theorem mallocGetBlockLength_setLength {len : Word} (h : len.toNat < 2 ^ 30) :
    mallocGetBlockLength (mallocSetBlockLength m blk len) blk = len := by
  have hflag : m blk &&& mallocBlkFreeMask &&& mallocBlkLenMask = 0 := by
    rw [BitVec.and_assoc, mallocBlkLenMask, ← mallocBlkFreeMask]
    simp
  rw [mallocGetBlockLength, mallocSetBlockLength, Memory.write_self, and_lenMask h]
  rw [BitVec.and_or_distrib_right, hflag, and_lenMask h]
  simp

variable {m blk}

theorem mallocSetBlockFree_ne {a : Word} (free : Bool) (h : blk ≠ a) :
    mallocSetBlockFree m blk free a = m a := by
  cases free <;> exact m.write_ne _ h

theorem mallocSetBlockLength_ne {a : Word} (len : Word) (h : blk ≠ a) :
    mallocSetBlockLength m blk len a = m a := m.write_ne _ h

end BlockInfo

end Tenok
