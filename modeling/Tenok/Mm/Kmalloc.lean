import Tenok.Mm.Malloc
import Tenok.Mm.Page

/-!
`kmalloc` and `kfree` of `kernel/kernel.c`. Both pick a cache or a page order by size:
`kmalloc` from the size with its header, `kfree` from the size in the header. What the
allocators below answer is an argument, so that the results hold for every state of
theirs.
-/
namespace Tenok

def kmallocSlabSizes : PageSizeSelect → List Nat
  | .size32K => [32, 64, 128, 256, 512, 1024]
  | .size64K => [32, 64, 128, 256, 512, 1024, 2048]

abbrev kmallocHeaderSize : Word := 4#32

def findKmallocSlab (cfg : PageSizeSelect) (size : Word) : Nat :=
  (kmallocSlabSizes cfg).findIdx fun c => decide (size.toNat ≤ c)

/-- A request of `kmalloc`; a cache is its index in `kmalloc_caches`. -/
inductive KmallocCall
  | kmemCacheAlloc (cache : Nat)
  | allocPages (order : Int)
deriving DecidableEq, Repr

inductive KfreeCall
  | kmemCacheFree (cache : Nat) (obj : Word)
  | freePages (addr : Word) (order : Int)
deriving DecidableEq, Repr

/-- The request that `kmalloc` makes, or `none` if the size is too large. -/
def kmallocCall (cfg : PageSizeSelect) (size : Word) : Option KmallocCall :=
  let allocSize := size + kmallocHeaderSize
  let i := findKmallocSlab cfg allocSize
  if i < (kmallocSlabSizes cfg).length then some (.kmemCacheAlloc i)
  else
    let pageOrder := sizeToPageOrder cfg size
    if pageOrder ≠ -1 then some (.allocPages pageOrder) else none

/-- `kmalloc` where the allocators give `answer`; `none` is `NULL`. -/
def kmalloc (cfg : PageSizeSelect) (answer : KmallocCall → Option Word) (m : Memory)
    (size : Word) : Memory × Option Word :=
  match (kmallocCall cfg size).bind answer with
  | some ptr => (m.write ptr size, some (ptr + kmallocHeaderSize))
  | none => (m, none)

/-- The call that `kfree` makes, or `none` if it finds the header corrupted. -/
def kfree (cfg : PageSizeSelect) (m : Memory) (ptr : Word) : Option KfreeCall :=
  let addr := ptr - kmallocHeaderSize
  let allocSize := m addr
  let i := findKmallocSlab cfg allocSize
  if i < (kmallocSlabSizes cfg).length then some (.kmemCacheFree i addr)
  else
    let pageOrder := sizeToPageOrder cfg allocSize
    if pageOrder ≠ -1 then some (.freePages addr pageOrder) else none

/-- The call that gives back what a request returned. -/
def KmallocCall.undo (addr : Word) : KmallocCall → KfreeCall
  | .kmemCacheAlloc cache => .kmemCacheFree cache addr
  | .allocPages order => .freePages addr order

/-- Whatever the allocators answer, freeing the pointer while its header is intact gives
the block back to where it was taken from. -/
def KmallocAgrees (cfg : PageSizeSelect) (size : Word) : Prop :=
  ∀ answer m m' ptr, kmalloc cfg answer m size = (m', some ptr) →
    ∃ call addr, kmallocCall cfg size = some call ∧ answer call = some addr ∧
      ∀ m'', m'' (ptr - kmallocHeaderSize) = m' (ptr - kmallocHeaderSize) →
        kfree cfg m'' ptr = some (call.undo addr)

section Classes

theorem findIdx_le_iff {l : List Nat} (hl : l.Pairwise (· ≤ ·)) {n k : Nat} (hnk : n ≤ k) :
    l.findIdx (fun c => decide (k ≤ c)) = l.findIdx (fun c => decide (n ≤ c)) ↔
      ∀ c ∈ l, n ≤ c → k ≤ c := by
  induction l with
  | nil => simp
  | cons c l ih =>
      obtain ⟨hc, hl⟩ := List.pairwise_cons.mp hl
      by_cases hn : n ≤ c
      · by_cases hk : k ≤ c
        · simp only [List.findIdx_cons, hn, hk, decide_true, cond_true, List.mem_cons, true_iff]
          rintro d (rfl | hd) _
          · exact hk
          · exact Nat.le_trans hk (hc d hd)
        · simp only [List.findIdx_cons, hn, hk, decide_true, decide_false, cond_true, cond_false]
          refine iff_of_false (by omega) fun hall => hk (hall c (by simp) hn)
      · have hk : ¬ k ≤ c := by omega
        simp only [List.findIdx_cons, hn, hk, decide_false, cond_false, Nat.add_right_cancel_iff,
          ih hl, List.mem_cons, forall_eq_or_imp, false_implies, true_and]

theorem kmallocSlabSizes_sorted (cfg : PageSizeSelect) :
    (kmallocSlabSizes cfg).Pairwise (· ≤ ·) := by
  cases cfg <;> decide

/-- The header does not carry the size into another class, and does not wrap around. -/
def ClassAgrees (cfg : PageSizeSelect) (size : Word) : Prop :=
  size.toNat + 4 < 2 ^ 32 ∧ ∀ c ∈ kmallocSlabSizes cfg, ¬ (c - 4 < size.toNat ∧ size.toNat ≤ c)

variable {cfg : PageSizeSelect} {size : Word}

theorem slab_le {c : Nat} (hc : c ∈ kmallocSlabSizes cfg) : 32 ≤ c ∧ c ≤ 2048 := by
  cases cfg <;> simp only [kmallocSlabSizes, List.mem_cons, List.not_mem_nil, or_false] at hc <;>
    omega

theorem add_kmallocHeaderSize (hsize : size.toNat + 4 < 2 ^ 32) :
    (size + kmallocHeaderSize).toNat = size.toNat + 4 := by
  rw [BitVec.toNat_add]
  exact Nat.mod_eq_of_lt hsize

theorem findKmallocSlab_eq_iff (hsize : size.toNat + 4 < 2 ^ 32) :
    findKmallocSlab cfg (size + kmallocHeaderSize) = findKmallocSlab cfg size ↔
      ∀ c ∈ kmallocSlabSizes cfg, ¬ (c - 4 < size.toNat ∧ size.toNat ≤ c) := by
  rw [findKmallocSlab, findKmallocSlab, add_kmallocHeaderSize hsize,
    findIdx_le_iff (kmallocSlabSizes_sorted cfg) (Nat.le_add_right _ _)]
  refine forall₂_congr fun c hc => ?_
  have hge := (slab_le hc).1
  omega

theorem findKmallocSlab_of_small (cfg : PageSizeSelect) (h : size.toNat ≤ 32) :
    findKmallocSlab cfg size = 0 := by
  cases cfg <;> simp [findKmallocSlab, kmallocSlabSizes, List.findIdx_cons, h]

theorem findKmallocSlab_of_wrap (cfg : PageSizeSelect) (hsize : ¬ size.toNat + 4 < 2 ^ 32) :
    findKmallocSlab cfg (size + kmallocHeaderSize) = 0 := by
  have hlt := size.isLt
  apply findKmallocSlab_of_small
  rw [BitVec.toNat_add]
  simp only [BitVec.toNat_ofNat]
  omega

theorem findKmallocSlab_of_large (cfg : PageSizeSelect) (h : 2048 < size.toNat) :
    findKmallocSlab cfg size = (kmallocSlabSizes cfg).length := by
  rw [findKmallocSlab, List.findIdx_eq_length]
  intro c hc
  have hle := (slab_le hc).2
  simp only [decide_eq_false_iff_not]
  omega

theorem sizeToPageOrder_of_slab (h : findKmallocSlab cfg size < (kmallocSlabSizes cfg).length) :
    sizeToPageOrder cfg size ≠ -1 := by
  have hsize : size.toNat ≤ 2048 := by
    by_contra hlarge
    rw [findKmallocSlab_of_large cfg (by omega)] at h
    omega
  unfold sizeToPageOrder
  cases hfind : (pageOrderSz cfg).findIdx? fun sz => decide (size.toNat ≤ sz) with
  | some i =>
      simp only
      omega
  | none =>
      rw [List.findIdx?_eq_none_iff] at hfind
      have hmem : 4096 ∈ pageOrderSz cfg := by cases cfg <;> decide
      have := hfind 4096 hmem
      simp only [decide_eq_false_iff_not] at this
      omega

theorem kfree_of_header {m : Memory} {addr : Word} (h : m addr = size) :
    kfree cfg m (addr + kmallocHeaderSize) =
      if findKmallocSlab cfg size < (kmallocSlabSizes cfg).length then
        some (.kmemCacheFree (findKmallocSlab cfg size) addr)
      else if sizeToPageOrder cfg size ≠ -1 then
        some (.freePages addr (sizeToPageOrder cfg size))
      else none := by
  have haddr : addr + kmallocHeaderSize - kmallocHeaderSize = addr := BitVec.add_sub_cancel ..
  simp only [kfree, haddr, h]

theorem kmalloc_of_call {call : KmallocCall} (hcall : kmallocCall cfg size = some call)
    {answer : KmallocCall → Option Word} {addr : Word} (haddr : answer call = some addr)
    (m : Memory) :
    kmalloc cfg answer m size = (m.write addr size, some (addr + kmallocHeaderSize)) := by
  simp [kmalloc, hcall, haddr]

theorem kmalloc_some {answer : KmallocCall → Option Word} {m m' : Memory} {ptr : Word}
    (h : kmalloc cfg answer m size = (m', some ptr)) :
    ∃ call addr, kmallocCall cfg size = some call ∧ answer call = some addr ∧
      m' = m.write addr size ∧ ptr = addr + kmallocHeaderSize := by
  rw [kmalloc] at h
  cases hptr : (kmallocCall cfg size).bind answer with
  | none => simp [hptr] at h
  | some addr =>
      obtain ⟨call, hcall, haddr⟩ := Option.bind_eq_some_iff.mp hptr
      simp only [hptr, Prod.mk.injEq, Option.some.injEq] at h
      exact ⟨call, addr, hcall, haddr, h.1.symm, h.2.symm⟩

private theorem kmallocAgrees_iff_undo :
    KmallocAgrees cfg size ↔ ∀ call, kmallocCall cfg size = some call → ∀ m addr,
      m addr = size → kfree cfg m (addr + kmallocHeaderSize) = some (call.undo addr) := by
  have hback : ∀ addr : Word, addr + kmallocHeaderSize - kmallocHeaderSize = addr := fun addr =>
    BitVec.add_sub_cancel ..
  constructor
  · intro h call hcall m addr hm
    obtain ⟨call', addr', hcall', haddr', hfree⟩ :=
      h (fun _ => some addr) m _ _ (kmalloc_of_call hcall rfl m)
    obtain rfl := Option.some.inj (hcall.symm.trans hcall')
    obtain rfl := Option.some.inj haddr'
    apply hfree m
    rw [hback, Memory.write_self, hm]
  · intro h answer m m' ptr hmalloc
    obtain ⟨call, addr, hcall, haddr, rfl, rfl⟩ := kmalloc_some hmalloc
    refine ⟨call, addr, hcall, haddr, fun m'' hm'' => h call hcall m'' addr ?_⟩
    rw [hback, Memory.write_self] at hm''
    exact hm''

private theorem undo_of_class_eq
    (heq : findKmallocSlab cfg (size + kmallocHeaderSize) = findKmallocSlab cfg size)
    {call : KmallocCall} (hcall : kmallocCall cfg size = some call) {m : Memory} {addr : Word}
    (hm : m addr = size) :
    kfree cfg m (addr + kmallocHeaderSize) = some (call.undo addr) := by
  rw [kfree_of_header hm]
  simp only [kmallocCall, heq] at hcall
  split at hcall
  · next hslab =>
      obtain rfl := Option.some.inj hcall
      exact if_pos hslab
  · next hslab =>
      rw [if_neg hslab]
      split at hcall
      · next horder =>
          obtain rfl := Option.some.inj hcall
          exact if_pos horder
      · simp at hcall

/-- Two classes: a block of one cache, or of the page allocator, goes to another cache. -/
private theorem class_eq_of_undo
    (h : ∀ call, kmallocCall cfg size = some call → ∀ m addr, m addr = size →
      kfree cfg m (addr + kmallocHeaderSize) = some (call.undo addr)) :
    findKmallocSlab cfg (size + kmallocHeaderSize) = findKmallocSlab cfg size := by
  by_cases hslab : findKmallocSlab cfg (size + kmallocHeaderSize) < (kmallocSlabSizes cfg).length
  · have hundo := h _ (by rw [kmallocCall]; exact if_pos hslab) (fun _ => size) 0 rfl
    rw [kfree_of_header rfl] at hundo
    split at hundo
    · simp only [KmallocCall.undo, Option.some.injEq, KfreeCall.kmemCacheFree.injEq] at hundo
      exact hundo.1.symm
    · split at hundo <;> simp [KmallocCall.undo] at hundo
  · by_cases hfree : findKmallocSlab cfg size < (kmallocSlabSizes cfg).length
    · have horder := sizeToPageOrder_of_slab hfree
      have hundo := h _ (by simp only [kmallocCall, if_neg hslab, if_pos horder]; rfl)
        (fun _ => size) 0 rfl
      rw [kfree_of_header rfl, if_pos hfree] at hundo
      simp [KmallocCall.undo] at hundo
    · have hle : findKmallocSlab cfg (size + kmallocHeaderSize) ≤
          (kmallocSlabSizes cfg).length := List.findIdx_le_length
      have hle' : findKmallocSlab cfg size ≤ (kmallocSlabSizes cfg).length :=
        List.findIdx_le_length
      omega

private theorem class_ne_of_wrap (hsize : ¬ size.toNat + 4 < 2 ^ 32) :
    findKmallocSlab cfg (size + kmallocHeaderSize) ≠ findKmallocSlab cfg size := by
  rw [findKmallocSlab_of_wrap cfg hsize, findKmallocSlab_of_large cfg (by omega)]
  cases cfg <;> decide

/-- `kmalloc` and `kfree` agree exactly on the sizes that stay in their class. -/
theorem kmallocAgrees_iff (cfg : PageSizeSelect) (size : Word) :
    KmallocAgrees cfg size ↔ ClassAgrees cfg size := by
  rw [kmallocAgrees_iff_undo]
  constructor
  · intro h
    have heq := class_eq_of_undo h
    have hsize : size.toNat + 4 < 2 ^ 32 := by
      by_contra hwrap
      exact class_ne_of_wrap hwrap heq
    exact ⟨hsize, (findKmallocSlab_eq_iff hsize).mp heq⟩
  · intro h call hcall m addr hm
    exact undo_of_class_eq ((findKmallocSlab_eq_iff h.1).mpr h.2) hcall hm

/-- A request of 30 bytes is served from the cache of 64 bytes and freed to that of 32. -/
theorem kmallocAgrees_not_for_30 : ¬ KmallocAgrees .size64K 30 := by
  intro h
  have hcall : kmallocCall .size64K 30 = some (.kmemCacheAlloc 1) := by decide
  obtain ⟨call, addr, hcall', haddr, hfree⟩ :=
    h (fun _ => some 0x20000010) (fun _ => 0) _ _ (kmalloc_of_call hcall rfl _)
  have hundo := hfree _ rfl
  obtain rfl := Option.some.inj (hcall.symm.trans hcall')
  obtain rfl := Option.some.inj haddr
  revert hundo
  decide +kernel

end Classes

end Tenok
