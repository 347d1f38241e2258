import Tenok.Mm.Kmalloc
import Tenok.Mm.MallocRuns

/-!
How much of what was asked for the allocators give. Both add the size of a header to the
request in 32 bits; `__malloc` then rounds the sum down to a multiple of four, and
`kmalloc` drops the header again when it chooses the order of a page.
-/
namespace Tenok
open Ring

section Malloc

/-- The pointer that `__malloc` returns lies behind the header of a used block of the heap
that has room for the header and `size` bytes. -/
def MallocGives (L : HeapLayout) (m : Memory) (size : Word) : Prop :=
  ∀ m' ptr, malloc L m size = some (m', some ptr) →
    ∃ blks blk, mallocBlocks L m' = some blks ∧ blk ∈ blks ∧ ptr = dataOf blk ∧
      mallocBlockIsFree m' blk = false ∧ size.toNat + 12 ≤ (mallocGetBlockLength m' blk).toNat

/-- The first fit is large enough before the rounding, and is split only for whole words. -/
def FirstFitGives (m : Memory) (blks : List Word) (size : Word) : Prop :=
  ∀ blk ∈ firstFit m blks (align (size + mallocInfoSize) 4#32),
    size.toNat + 12 ≤ (mallocGetBlockLength m blk).toNat ∧
      ((align (size + mallocInfoSize) 4#32).toNat + 12 ≤ (mallocGetBlockLength m blk).toNat →
        4 ∣ size.toNat)

variable {L : HeapLayout} {m : Memory} {blks : List Word} {blk size : Word}

/-- A wrapped sum asks for less than a header, and no block has the length of the true sum. -/
private theorem not_gives_of_wrap (hsize : ¬ size.toNat + 12 < 2 ^ 32) (len : Word) :
    ¬ size.toNat + 12 ≤ len.toNat := by
  intro hle
  have hlt := len.isLt
  omega

private theorem taken_gives_iff {len alloc : Word}
    (halloc : alloc.toNat = (size.toNat + 12) / 4 * 4) :
    size.toNat + 12 ≤ (if len.toNat < alloc.toNat + 12 then len else alloc).toNat ↔
      size.toNat + 12 ≤ len.toNat ∧ (alloc.toNat + 12 ≤ len.toNat → 4 ∣ size.toNat) := by
  split <;> omega

/-- `__malloc` gives what was asked for exactly if the first fit does. -/
theorem mallocGives_iff (h : HeapRep L m blks) (size : Word) :
    MallocGives L m size ↔ FirstFitGives m blks size := by
  have hmalloc := malloc_firstFit h size
  cases hfit : firstFit m blks (align (size + mallocInfoSize) 4#32) with
  | none =>
      rw [hfit] at hmalloc
      refine iff_of_true ?_ ?_
      · intro m' ptr hptr
        rw [hmalloc] at hptr
        simp at hptr
      · intro blk hblk
        simp [hfit] at hblk
  | some blk =>
      rw [hfit] at hmalloc
      have hfits : FirstFitGives m blks size ↔
          size.toNat + 12 ≤ (mallocGetBlockLength m blk).toNat ∧
            ((align (size + mallocInfoSize) 4#32).toNat + 12 ≤
              (mallocGetBlockLength m blk).toNat → 4 ∣ size.toNat) := by
        simp only [FirstFitGives, hfit, Option.mem_some_iff, forall_eq']
      rw [hfits]
      by_cases hsize : size.toNat + 12 < 2 ^ 32
      · obtain ⟨hblk, hfree, hlen⟩ := firstFit_some hfit
        have halloc := allocSize_spec hsize
        obtain ⟨m', blks', new, heq, hrep, hnew, hused, hnewLen, _⟩ :=
          mallocTake_spec h hblk hfree (by omega) (by omega) hlen
        rw [← taken_gives_iff halloc, ← hnewLen]
        simp only [heq] at hmalloc
        constructor
        · intro hgives
          obtain ⟨_, blk', _, _, hptr, _, hroom⟩ := hgives m' _ hmalloc
          have hsame : new = blk' := by simpa using hptr
          rw [hsame]
          exact hroom
        · intro hroom m'' ptr hptr
          obtain ⟨rfl, rfl⟩ : m' = m'' ∧ dataOf new = ptr := by
            simpa using hmalloc.symm.trans hptr
          exact ⟨blks', new, mallocBlocks_eq hrep, hnew, rfl, hused, hroom⟩
      · refine iff_of_false ?_ fun hroom => not_gives_of_wrap hsize _ hroom.1
        intro hgives
        obtain ⟨_, blk', _, _, _, _, hroom⟩ := hgives _ _ hmalloc
        exact not_gives_of_wrap hsize _ hroom

/-- Eight bytes of the heap after boot. -/
theorem mallocGives_iff_at_boot : MallocGives ramHeap (heapInit ramHeap fun _ => 0) 8 := by
  apply (mallocGives_iff (heapRep_init ramHeap fun _ => 0) 8).mpr
  have hfit : firstFit (heapInit ramHeap fun _ => 0) [ramHeap.start]
      (align (8#32 + mallocInfoSize) 4#32) = some ramHeap.start := by decide +kernel
  intro blk hblk
  obtain rfl := Option.some.inj (hfit.symm.trans hblk)
  decide +kernel

/-- One byte is asked for, and the block consists of its header. -/
theorem mallocGives_not_for_one : ¬ MallocGives ramHeap (heapInit ramHeap fun _ => 0) 1 := by
  intro hgives
  have hcomp : ((malloc ramHeap (heapInit ramHeap fun _ => 0) 1).bind fun r => r.2.map fun ptr =>
      (mallocGetBlockLength r.1 (ptr - 12#32)).toNat) = some 12 := by
    decide +kernel
  obtain ⟨⟨m', answer⟩, hmalloc, hlen⟩ := Option.bind_eq_some_iff.mp hcomp
  obtain ⟨ptr, rfl, hlen⟩ := Option.map_eq_some_iff.mp hlen
  obtain ⟨_, blk, _, _, hptr, _, hroom⟩ := hgives m' ptr hmalloc
  have hblk : ptr - 12#32 = blk := by
    rw [hptr]
    exact BitVec.add_sub_cancel blk 12#32
  rw [hblk] at hlen
  rw [hlen] at hroom
  exact absurd hroom (by decide)

end Malloc

section Kmalloc

/-- The length of the slab object or page block that a request is answered with. -/
def KmallocCall.blockSize (cfg : PageSizeSelect) : KmallocCall → Option Nat
  | .kmemCacheAlloc cache => (kmallocSlabSizes cfg)[cache]?
  | .allocPages order => pageOrderToSize cfg order

/-- Whatever the allocators answer, the bytes behind the returned pointer lie in the block
that was obtained for them. -/
def KmallocGives (cfg : PageSizeSelect) (size : Word) : Prop :=
  ∀ answer m m' ptr, kmalloc cfg answer m size = (m', some ptr) →
    ∃ call addr blockSize, kmallocCall cfg size = some call ∧ answer call = some addr ∧
      call.blockSize cfg = some blockSize ∧ (ptr - addr).toNat + size.toNat ≤ blockSize

/-- The sum does not wrap around, and a size that is too large for the caches leaves room
for the header in its page block. -/
def RoomForHeader (cfg : PageSizeSelect) (size : Word) : Prop :=
  size.toNat + 4 < 2 ^ 32 ∧ ∀ sz ∈ pageOrderSz cfg, (∀ c ∈ kmallocSlabSizes cfg, c ≤ sz) →
    ¬ (sz - 4 < size.toNat ∧ size.toNat ≤ sz)

instance (cfg : PageSizeSelect) (size : Word) : Decidable (RoomForHeader cfg size) :=
  inferInstanceAs (Decidable (_ ∧ ∀ sz ∈ pageOrderSz cfg, _ → ¬ _))

variable {cfg : PageSizeSelect} {size : Word}

theorem pageOrderSz_sorted (cfg : PageSizeSelect) : (pageOrderSz cfg).Pairwise (· ≤ ·) := by
  cases cfg <;> decide

private theorem four_dvd_of_mem_sizes {n : Nat} (h : n ∈ kmallocSlabSizes cfg ++ pageOrderSz cfg) :
    4 ∣ n := by
  revert n
  cases cfg <;> decide

private theorem header_offset (addr : Word) : (addr + kmallocHeaderSize - addr).toNat = 4 := by
  rw [BitVec.add_comm, BitVec.add_sub_cancel]
  rfl

private theorem kmallocGives_iff_call :
    KmallocGives cfg size ↔ ∀ call, kmallocCall cfg size = some call →
      ∃ blockSize, call.blockSize cfg = some blockSize ∧ 4 + size.toNat ≤ blockSize := by
  constructor
  · intro h call hcall
    obtain ⟨call', addr, blockSize, hcall', haddr, hsize, hroom⟩ :=
      h (fun _ => some 0) (fun _ => 0) _ _ (kmalloc_of_call hcall rfl _)
    obtain rfl := Option.some.inj (hcall.symm.trans hcall')
    obtain rfl := Option.some.inj haddr
    rw [header_offset] at hroom
    exact ⟨blockSize, hsize, hroom⟩
  · intro h answer m m' ptr hmalloc
    obtain ⟨call, addr, hcall, haddr, rfl, rfl⟩ := kmalloc_some hmalloc
    obtain ⟨blockSize, hsize, hroom⟩ := h call hcall
    refine ⟨call, addr, blockSize, hcall, haddr, hsize, ?_⟩
    rw [header_offset]
    exact hroom

private theorem sizeToPageOrder_least {i : Nat}
    (h : ((pageOrderSz cfg).findIdx? fun sz => decide (size.toNat ≤ sz)) = some i) :
    ∃ sz ∈ pageOrderSz cfg, pageOrderToSize cfg i = some sz ∧ size.toNat ≤ sz ∧
      ∀ sz' ∈ pageOrderSz cfg, size.toNat ≤ sz' → sz ≤ sz' := by
  obtain ⟨hlt, hfits, hfirst⟩ := List.findIdx?_eq_some_iff_getElem.mp h
  have hmax : ¬ (i : Int) > pageOrderMax cfg := by
    cases cfg <;> simp only [pageOrderSz, List.length_cons, List.length_nil] at hlt <;>
      simp only [pageOrderMax] <;> omega
  refine ⟨(pageOrderSz cfg)[i], List.getElem_mem hlt, ?_, by simpa using hfits, ?_⟩
  · rw [pageOrderToSize, if_neg hmax, if_neg (by omega), Int.toNat_natCast]
    exact List.getElem?_eq_getElem hlt
  · intro sz' hsz' hle
    obtain ⟨j, hj, rfl⟩ := List.mem_iff_getElem.mp hsz'
    have hij : ¬ j < i := fun hji => hfirst j hji (by simpa using hle)
    rcases Nat.lt_or_eq_of_le (Nat.le_of_not_lt hij) with hbefore | rfl
    · exact List.pairwise_iff_getElem.mp (pageOrderSz_sorted cfg) i j hlt hj hbefore
    · exact Nat.le_refl _

private theorem slab_gives (hsize : size.toNat + 4 < 2 ^ 32)
    (hslab : findKmallocSlab cfg (size + kmallocHeaderSize) < (kmallocSlabSizes cfg).length) :
    ∃ c ∈ kmallocSlabSizes cfg,
      (KmallocCall.kmemCacheAlloc (findKmallocSlab cfg (size + kmallocHeaderSize))).blockSize cfg =
        some c ∧ 4 + size.toNat ≤ c := by
  refine ⟨_, List.getElem_mem hslab, List.getElem?_eq_getElem hslab, ?_⟩
  have hfits : (size + kmallocHeaderSize).toNat ≤
      (kmallocSlabSizes cfg)[findKmallocSlab cfg (size + kmallocHeaderSize)] :=
    of_decide_eq_true (List.findIdx_getElem (w := hslab))
  rw [add_kmallocHeaderSize hsize] at hfits
  omega

private theorem slab_lt_of_page (hsize : size.toNat + 4 < 2 ^ 32)
    (hpage : ¬ findKmallocSlab cfg (size + kmallocHeaderSize) < (kmallocSlabSizes cfg).length)
    {c : Nat} (hc : c ∈ kmallocSlabSizes cfg) : c < size.toNat + 4 := by
  have hend : findKmallocSlab cfg (size + kmallocHeaderSize) = (kmallocSlabSizes cfg).length :=
    Nat.le_antisymm List.findIdx_le_length (Nat.le_of_not_lt hpage)
  have hnot := List.findIdx_eq_length.mp hend c hc
  rw [decide_eq_false_iff_not, add_kmallocHeaderSize hsize] at hnot
  omega

/-- A page block is as long as its order, which the header can exceed by up to four bytes. -/
private theorem page_gives_iff (hsize : size.toNat + 4 < 2 ^ 32)
    (hpage : ¬ findKmallocSlab cfg (size + kmallocHeaderSize) < (kmallocSlabSizes cfg).length) :
    (∀ call, kmallocCall cfg size = some call →
      ∃ blockSize, call.blockSize cfg = some blockSize ∧ 4 + size.toNat ≤ blockSize) ↔
      ∀ sz ∈ pageOrderSz cfg, (∀ c ∈ kmallocSlabSizes cfg, c ≤ sz) →
        ¬ (sz - 4 < size.toNat ∧ size.toNat ≤ sz) := by
  cases hfind : (pageOrderSz cfg).findIdx? fun sz => decide (size.toNat ≤ sz) with
  | none =>
      refine iff_of_true ?_ ?_
      · intro call hcall
        simp only [kmallocCall, if_neg hpage, sizeToPageOrder, hfind] at hcall
        simp at hcall
      · intro sz hsz _ hin
        have hlarge := List.findIdx?_eq_none_iff.mp hfind sz hsz
        rw [decide_eq_false_iff_not] at hlarge
        exact hlarge hin.2
  | some i =>
      obtain ⟨sz, hsz, hblock, hle, hleast⟩ := sizeToPageOrder_least hfind
      have hcall : kmallocCall cfg size = some (.allocPages i) := by
        simp only [kmallocCall, if_neg hpage, sizeToPageOrder, hfind]
        exact if_pos (by omega)
      constructor
      · intro h sz' hsz' _ hin
        obtain ⟨blockSize, hblock', hroom⟩ := h _ hcall
        obtain rfl := Option.some.inj (hblock.symm.trans hblock')
        have := hleast sz' hsz' hin.2
        omega
      · intro h call hcall'
        obtain rfl := Option.some.inj (hcall.symm.trans hcall')
        refine ⟨sz, hblock, ?_⟩
        have hfour := four_dvd_of_mem_sizes (List.mem_append_right (kmallocSlabSizes cfg) hsz)
        have hlarge : ∀ c ∈ kmallocSlabSizes cfg, c ≤ sz := by
          intro c hc
          have hlt := slab_lt_of_page hsize hpage hc
          have hfour' := four_dvd_of_mem_sizes (List.mem_append_left (pageOrderSz cfg) hc)
          omega
        have hroom := h sz hsz hlarge
        have hslab := hlarge 32 (by cases cfg <;> decide)
        omega

private theorem wrap_gives_not (cfg : PageSizeSelect) (hsize : ¬ size.toNat + 4 < 2 ^ 32) :
    ∃ call, kmallocCall cfg size = some call ∧ call.blockSize cfg = some 32 := by
  refine ⟨.kmemCacheAlloc 0, ?_, ?_⟩
  · rw [kmallocCall, findKmallocSlab_of_wrap cfg hsize]
    cases cfg <;> rfl
  · cases cfg <;> rfl

/-- `kmalloc` gives what was asked for exactly where the header has room. -/
theorem kmallocGives_iff (cfg : PageSizeSelect) (size : Word) :
    KmallocGives cfg size ↔ RoomForHeader cfg size := by
  rw [kmallocGives_iff_call]
  by_cases hsize : size.toNat + 4 < 2 ^ 32
  · by_cases hslab : findKmallocSlab cfg (size + kmallocHeaderSize) < (kmallocSlabSizes cfg).length
    · obtain ⟨c, hc, hblock, hroom⟩ := slab_gives hsize hslab
      refine iff_of_true ?_ ⟨hsize, ?_⟩
      · intro call hcall
        simp only [kmallocCall, if_pos hslab, Option.some.injEq] at hcall
        subst hcall
        exact ⟨c, hblock, hroom⟩
      · intro sz _ hlarge hin
        have hle := hlarge c hc
        omega
    · rw [RoomForHeader, and_iff_right hsize]
      exact page_gives_iff hsize hslab
  · refine iff_of_false ?_ fun hroom => hsize hroom.1
    intro h
    obtain ⟨call, hcall, hblock⟩ := wrap_gives_not cfg hsize
    obtain ⟨blockSize, hblock', hroom⟩ := h call hcall
    obtain rfl := Option.some.inj (hblock.symm.trans hblock')
    omega

/-- A request of 4096 bytes gets a page block of 4096 bytes, header included. -/
theorem kmallocGives_not_for_4096 : ¬ KmallocGives .size64K 4096 := by
  intro h
  have hcall : kmallocCall .size64K 4096 = some (.allocPages 4) := by decide
  obtain ⟨call, addr, blockSize, hcall', haddr, hblock, hroom⟩ :=
    h (fun _ => some 0x20010000) (fun _ => 0) _ _ (kmalloc_of_call hcall rfl _)
  obtain rfl := Option.some.inj (hcall.symm.trans hcall')
  obtain rfl := Option.some.inj haddr
  have hpage : (KmallocCall.allocPages 4).blockSize .size64K = some 4096 := by decide
  obtain rfl := Option.some.inj (hpage.symm.trans hblock)
  exact absurd hroom (by decide)

end Kmalloc

end Tenok
