import Mathlib.Data.Set.BooleanAlgebra
import Mathlib.Order.CompletePartialOrder
import Tenok.Common.Util
import Tenok.Lib.Runs

/-!
`mpool_init` and `mpool_alloc`. The pool is never given anything back, so its state is how far it
has been given away. A request is rounded by `ALIGN`, downwards, and the sum with the offset has 32
bits.
-/
namespace Tenok

/-- `offset` is an `int` in the source; its sums and comparisons are those of `size_t`. -/
structure Mpool where
  offset : Word
  size : Word
  mem : Word
  deriving DecidableEq, Repr

def mpoolInit (mem size : Word) : Mpool where
  offset := 0#32
  size := size
  mem := mem

def sysMpoolAlloc (mpool : Mpool) (size : Word) : Mpool × Option Word :=
  let allocSize := align size 4#32
  if mpool.offset + allocSize ≤ mpool.size then
    ({ mpool with offset := mpool.offset + allocSize }, some (mpool.mem + mpool.offset))
  else (mpool, none)

def region (ptr size : Word) : Set Word := { addr | ∃ i < size.toNat, addr = ptr + BitVec.ofNat 32 i }

/-- A pool with the regions of the successful calls, the last one first. -/
structure MpoolUse where
  mpool : Mpool
  regions : List (Word × Word)

namespace MpoolUse

def alloc (s : MpoolUse) (size : Word) : MpoolUse :=
  match sysMpoolAlloc s.mpool size with
  | (mpool, some ptr) => ⟨mpool, (ptr, size) :: s.regions⟩
  | (mpool, none) => { s with mpool }

def step (s : MpoolUse) (size : Word) : Option MpoolUse := some (s.alloc size)

def start (mem size : Word) : MpoolUse := ⟨mpoolInit mem size, []⟩

/-- The regions are apart from each other and in the pool. -/
def Separate (s : MpoolUse) : Prop :=
  (s.regions.Pairwise fun r r' => Disjoint (region r.1 r.2) (region r'.1 r'.2)) ∧
    ∀ r ∈ s.regions, region r.1 r.2 ⊆ region s.mpool.mem s.mpool.size

def Serves (s : MpoolUse) (size : Word) : Prop :=
  s.mpool.offset + align size 4#32 ≤ s.mpool.size

/-- A call that succeeds ends in the pool, and if it gives anything, then the sizes of the calls that
succeeded before are multiples of four. -/
def AllocOk (s : MpoolUse) (size : Word) : Prop :=
  s.Serves size → s.mpool.offset.toNat + size.toNat ≤ s.mpool.size.toNat ∧
    (size ≠ 0#32 → ∀ r ∈ s.regions, 4 ∣ r.2.toNat)

instance (s : MpoolUse) (size : Word) : Decidable (s.Serves size) :=
  inferInstanceAs (Decidable (_ ≤ _))

instance (s : MpoolUse) (size : Word) : Decidable (s.AllocOk size) :=
  inferInstanceAs (Decidable (_ → _ ∧ (_ → ∀ r ∈ s.regions, _)))

/-- Where the region of a call lies, once what was given so far is apart and in the pool: before the
offset, or a little beyond it if its size was rounded. -/
def Placed (mpool : Mpool) (r : Word × Word) : Prop :=
  ∃ o, r.1 = mpool.mem + BitVec.ofNat 32 o ∧ o + r.2.toNat ≤ mpool.size.toNat ∧
    o + r.2.toNat / 4 * 4 ≤ mpool.offset.toNat ∧
      (4 ∣ r.2.toNat ∨ mpool.offset.toNat < o + r.2.toNat)

def Filled (s : MpoolUse) : Prop :=
  s.mpool.offset ≤ s.mpool.size ∧ (s.Separate → ∀ r ∈ s.regions, Placed s.mpool r)

section Regions
variable {mem size n m : Word} {o o' : Nat}

theorem offset_inj {a b : Nat} (ha : a < 2 ^ 32) (hb : b < 2 ^ 32)
    (h : mem + BitVec.ofNat 32 a = mem + BitVec.ofNat 32 b) : a = b := by
  have hnat := congrArg BitVec.toNat ((BitVec.add_right_inj mem).mp h)
  rwa [BitVec.toNat_ofNat, BitVec.toNat_ofNat, Nat.mod_eq_of_lt ha, Nat.mod_eq_of_lt hb] at hnat

theorem mem_region {addr : Word} : addr ∈ region (mem + BitVec.ofNat 32 o) n ↔
    ∃ i < n.toNat, addr = mem + BitVec.ofNat 32 (o + i) := by
  simp only [region, Set.mem_ofPred_eq, BitVec.add_assoc, BitVec.ofNat_add]

theorem mem_pool {a : Nat} (ha : a < 2 ^ 32) :
    mem + BitVec.ofNat 32 a ∈ region mem size ↔ a < size.toNat := by
  constructor
  · rintro ⟨i, hi, heq⟩
    have hlt := size.isLt
    rwa [offset_inj ha (by omega) heq]
  · intro hlt
    exact ⟨a, hlt, rfl⟩

/-- A region that is not empty lies in the pool only if it ends there without a wrap. -/
theorem end_le_of_subset (ho : o < 2 ^ 32) (hn : n ≠ 0#32)
    (h : region (mem + BitVec.ofNat 32 o) n ⊆ region mem size) : o + n.toNat ≤ size.toNat := by
  have hpos : 0 < n.toNat := by
    rw [Nat.pos_iff_ne_zero]
    exact fun hz => hn (BitVec.eq_of_toNat_eq hz)
  have hlt := size.isLt
  by_cases hwrap : o + n.toNat ≤ 2 ^ 32
  · have hlast : mem + BitVec.ofNat 32 (o + (n.toNat - 1)) ∈ region mem size :=
      h (mem_region.mpr ⟨n.toNat - 1, by omega, rfl⟩)
    rw [mem_pool (by omega)] at hlast
    omega
  · -- the highest offset is in the region, and in no pool
    have htop : mem + BitVec.ofNat 32 (o + (2 ^ 32 - 1 - o)) ∈ region mem size :=
      h (mem_region.mpr ⟨2 ^ 32 - 1 - o, by omega, rfl⟩)
    rw [mem_pool (by omega)] at htop
    omega

theorem subset_of_end_le (h : o + n.toNat ≤ size.toNat) :
    region (mem + BitVec.ofNat 32 o) n ⊆ region mem size := by
  intro addr haddr
  have hlt := size.isLt
  obtain ⟨i, hi, rfl⟩ := mem_region.mp haddr
  rw [mem_pool (by omega)]
  omega

/-- Of two regions in the pool, the later one starts where the other one ends or behind, or they
share a byte. -/
theorem disjoint_iff_end_le (h : o + n.toNat ≤ size.toNat) (h' : o' + m.toNat ≤ size.toNat)
    (hoo' : o ≤ o') (hm : m ≠ 0#32) :
    Disjoint (region (mem + BitVec.ofNat 32 o') m) (region (mem + BitVec.ofNat 32 o) n) ↔
      o + n.toNat ≤ o' := by
  have hpos : 0 < m.toNat := by
    rw [Nat.pos_iff_ne_zero]
    exact fun hz => hm (BitVec.eq_of_toNat_eq hz)
  have hlt := size.isLt
  rw [Set.disjoint_left]
  constructor
  · intro hdisjoint
    by_contra hover
    have hfirst : mem + BitVec.ofNat 32 o' ∈ region (mem + BitVec.ofNat 32 o') m :=
      mem_region.mpr ⟨0, hpos, rfl⟩
    refine hdisjoint hfirst (mem_region.mpr ⟨o' - o, by omega, ?_⟩)
    rw [Nat.add_sub_cancel' hoo']
  · intro hend addr haddr haddr'
    obtain ⟨i, hi, rfl⟩ := mem_region.mp haddr
    obtain ⟨j, hj, heq⟩ := mem_region.mp haddr'
    have hsame := offset_inj (by omega) (by omega) heq
    omega

end Regions

variable {s : MpoolUse} {size : Word}

theorem align_four (size : Word) : (align size 4#32).toNat = size.toNat / 4 * 4 :=
  align_two_pow_toNat size 2 (by decide)

theorem alloc_of_serves (h : s.Serves size) : s.alloc size =
    ⟨{ s.mpool with offset := s.mpool.offset + align size 4#32 },
      (s.mpool.mem + s.mpool.offset, size) :: s.regions⟩ := by
  simp only [alloc, sysMpoolAlloc, if_pos (show s.mpool.offset + align size 4#32 ≤ s.mpool.size from h)]

theorem alloc_of_not_serves (h : ¬ s.Serves size) : s.alloc size = s := by
  simp only [alloc, sysMpoolAlloc,
    if_neg (show ¬ s.mpool.offset + align size 4#32 ≤ s.mpool.size from h)]

/-- A call that succeeds after others, when the regions so far are apart and in the pool. -/
theorem separate_alloc_iff (hF : s.Filled) (hsep : s.Separate) (size : Word) :
    s.AllocOk size ↔ (s.alloc size).Separate := by
  by_cases hserves : s.Serves size
  · rw [alloc_of_serves hserves, AllocOk, Separate, List.pairwise_cons, List.forall_mem_cons]
    have hmem : s.mpool.mem + s.mpool.offset =
        s.mpool.mem + BitVec.ofNat 32 s.mpool.offset.toNat := by
      rw [BitVec.ofNat_toNat, BitVec.setWidth_eq]
    dsimp only
    rw [hmem]
    have hoffset : s.mpool.offset.toNat ≤ s.mpool.size.toNat := hF.1
    constructor
    · intro hok
      obtain ⟨hend, hfour⟩ := hok hserves
      refine ⟨⟨fun r hr => ?_, hsep.1⟩, subset_of_end_le hend, hsep.2⟩
      obtain ⟨o, hptr, hle, hbelow, -⟩ := hF.2 hsep r hr
      rw [hptr]
      by_cases hsize : size = 0#32
      · subst hsize
        refine Set.disjoint_left.mpr fun addr haddr => ?_
        obtain ⟨i, hi, -⟩ := haddr
        exact absurd hi (Nat.not_lt_zero i)
      · have hdvd := hfour hsize r hr
        refine (disjoint_iff_end_le hle hend ?_ hsize).mpr ?_ <;> omega
    · intro hsep' _
      obtain ⟨⟨hapart, -⟩, hinside, -⟩ := hsep'
      by_cases hsize : size = 0#32
      · subst hsize
        exact ⟨hoffset, fun hne => absurd rfl hne⟩
      · have hend := end_le_of_subset s.mpool.offset.isLt hsize hinside
        refine ⟨hend, fun _ r hr => ?_⟩
        obtain ⟨o, hptr, hle, hbelow, hdvd⟩ := hF.2 hsep r hr
        have hdisjoint := hapart r hr
        rw [hptr, disjoint_iff_end_le hle hend (by omega) hsize] at hdisjoint
        exact hdvd.resolve_right (by omega)
  · rw [alloc_of_not_serves hserves]
    exact iff_of_true (fun h => absurd h hserves) hsep

theorem filled_alloc (hF : s.Filled) (size : Word) : (s.alloc size).Filled := by
  by_cases hserves : s.Serves size
  · refine ⟨?_, fun hsep' => ?_⟩
    · rw [alloc_of_serves hserves]
      exact hserves
    · have hsep : s.Separate := by
        rw [alloc_of_serves hserves, Separate, List.pairwise_cons, List.forall_mem_cons] at hsep'
        exact ⟨hsep'.1.2, hsep'.2.2⟩
      obtain ⟨hend, hfour⟩ := (separate_alloc_iff hF hsep size).mpr hsep' hserves
      have hlt := s.mpool.size.isLt
      have hoffset : (s.mpool.offset + align size 4#32).toNat =
          s.mpool.offset.toNat + size.toNat / 4 * 4 := by
        rw [BitVec.toNat_add, align_four, Nat.mod_eq_of_lt]
        omega
      rw [alloc_of_serves hserves, List.forall_mem_cons]
      refine ⟨⟨s.mpool.offset.toNat, ?_, hend, ?_, ?_⟩, fun r hr => ?_⟩
      · rw [BitVec.ofNat_toNat, BitVec.setWidth_eq]
      · exact hoffset.ge
      · change 4 ∣ size.toNat ∨ (s.mpool.offset + align size 4#32).toNat <
          s.mpool.offset.toNat + size.toNat
        omega
      · obtain ⟨o, hptr, hle, hbelow, hdvd⟩ := hF.2 hsep r hr
        refine ⟨o, hptr, hle, ?_, ?_⟩
        · change _ ≤ (s.mpool.offset + align size 4#32).toNat
          omega
        · change _ ∨ (s.mpool.offset + align size 4#32).toNat < _
          by_cases hsize : size = 0#32
          · subst hsize
            rw [hoffset]
            simpa using hdvd
          · exact Or.inl (hfour hsize r hr)
  · rw [alloc_of_not_serves hserves]
    exact hF

theorem filled_start (mem size : Word) : (start mem size).Filled :=
  ⟨BitVec.le_def.mpr (Nat.zero_le _), fun _ _ hr => absurd hr List.not_mem_nil⟩

/-- The regions of the calls that succeed are apart and in the pool after any number of calls
exactly if each of them ends in the pool without a wrap of the sum, and no size that `ALIGN` has
rounded comes before a call that gives anything. A call that fails leaves the pool as it was. -/
theorem mpoolAlloc_separate_iff (mem size : Word) (sizes : List Word) :
    (∀ mpool size, (sysMpoolAlloc mpool size).2 = none → (sysMpoolAlloc mpool size).1 = mpool) ∧
    (Runs.AllOk AllocOk step (start mem size) sizes ↔
      ∀ n u, Runs.exec step (start mem size) (sizes.take n) = some u → u.Separate) := by
  refine ⟨fun mpool size hnone => ?_, ?_⟩
  · rw [sysMpoolAlloc] at hnone ⊢
    split at hnone
    · cases hnone
    · next hfull => rw [if_neg hfull]
  · obtain ⟨u, hu⟩ := Runs.exec_total (fun s size => ⟨s.alloc size, rfl⟩) (start mem size) sizes
    refine Runs.allOk_iff_forall_take (I := Filled) (fun s size t hF ht => ?_)
      (fun s size t hF hsep ht => ?_) (filled_start mem size) ?_ hu
    · obtain rfl := Option.some.inj ht
      exact filled_alloc hF size
    · obtain rfl := Option.some.inj ht
      exact separate_alloc_iff hF hsep size
    · exact ⟨List.Pairwise.nil, fun _ hr => absurd hr List.not_mem_nil⟩
/-- A second buffer of four bytes starts in the last byte of one of five. -/
theorem mpoolAlloc_not_separate :
    ∃ u, Runs.exec step (start 0x20000000#32 64#32) [5#32, 4#32] = some u ∧
      u.regions = [(0x20000004#32, 4#32), (0x20000000#32, 5#32)] ∧ ¬ u.Separate := by
  refine ⟨_, rfl, rfl, fun hsep => ?_⟩
  have hapart : Disjoint (region 0x20000004#32 4#32) (region 0x20000000#32 5#32) :=
    List.rel_of_pairwise_cons hsep.1 List.mem_cons_self
  exact Set.disjoint_left.mp hapart ⟨0, by decide, rfl⟩ ⟨4, by decide, rfl⟩

end MpoolUse

end Tenok
