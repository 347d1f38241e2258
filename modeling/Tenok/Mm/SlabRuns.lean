import Mathlib.Data.Finset.Card
import Mathlib.Tactic.IntervalCases
import Tenok.Lib.Runs
import Tenok.Mm.PageRefines
import Tenok.Mm.Slab

/-!
Histories of one object cache. `kmem_cache_free` finds the slab and the index of an
object from its address, with the constants of a page of 256 bytes and a bitmap of one
word, while `kmem_cache_create` picks the order of the pages by the object size.
-/
namespace Tenok
open Runs

inductive SlabOp
  | alloc (page : Option Word)
  | free (obj : Word)
deriving DecidableEq, Repr

structure SlabState where
  cache : KmemCache
  slabs : Slabs
  live : List SlabObj

def slabBoot (cache : KmemCache) (slabs : Slabs) : SlabState := ⟨cache, slabs, []⟩

def slabStep (s : SlabState) : SlabOp → Option SlabState
  | .alloc page => do
      let (cache, slabs, obj) ← kmemCacheAlloc s.cache s.slabs page
      pure ⟨cache, slabs, obj.toList ++ s.live⟩
  | .free obj => do
      let (cache, slabs, _) ← kmemCacheFree s.cache s.slabs obj
      pure ⟨cache, slabs, s.live.filter fun o => o.obj ≠ obj⟩

/-- A page is aligned to its own size and not yet a slab; an object is freed only while
it is in use. -/
def SlabOp.Valid (s : SlabState) : SlabOp → Prop
  | .alloc none => True
  | .alloc (some page) => 2 ^ (s.cache.pageOrder + 8) ∣ page.toNat ∧ page ∉ s.cache.listed
  | .free obj => obj ∈ s.live.map SlabObj.obj

instance SlabOp.decidableValid (s : SlabState) : (op : SlabOp) → Decidable (op.Valid s)
  | .alloc none => inferInstanceAs (Decidable True)
  | .alloc (some page) => inferInstanceAs
      (Decidable (2 ^ (s.cache.pageOrder + 8) ∣ page.toNat ∧ page ∉ s.cache.listed))
  | .free obj => inferInstanceAs (Decidable (obj ∈ s.live.map SlabObj.obj))

/-- `kmem_cache_free` would find the slab and the bit that the allocation used. -/
def Resolves (cache : KmemCache) (o : SlabObj) : Prop :=
  getSlabFromObj o.obj 256#32 = o.slab ∧ (objIndexInSlab o.obj cache).toNat = o.bit ∧ o.bit < 32

instance (cache : KmemCache) (o : SlabObj) : Decidable (Resolves cache o) :=
  inferInstanceAs (Decidable (_ ∧ _ ∧ _))

/-- In every valid history no call leaves the bitmap and every object resolves. -/
def CacheResolves (cache : KmemCache) (slabs : Slabs) : Prop :=
  ∀ ops, AllOk (fun s op => op.Valid s) slabStep (slabBoot cache slabs) ops →
    ∃ s, exec slabStep (slabBoot cache slabs) ops = some s ∧ ∀ o ∈ s.live, Resolves cache o

/-- The objects of a slab fit in the constants of `kmem_cache_free`. -/
def Fits (cache : KmemCache) : Prop :=
  cache.objnum ≤ 32 ∧ 16 + (cache.objnum - 1) * cache.objsize < 256

section Address
variable {cache : KmemCache} {slab : Word} {bit : Nat}

theorem resolves_of_lt (hslab : 2 ^ 8 ∣ slab.toNat) (hpos : 0 < cache.objsize)
    (hsize : cache.objsize < 2 ^ 16) (hbit : bit < 32) (hlt : 16 + bit * cache.objsize < 256) :
    Resolves cache ⟨slabData slab + BitVec.ofNat 32 (bit * cache.objsize), slab, bit⟩ := by
  have hsum : 16 + bit * cache.objsize < 2 ^ 8 := hlt
  have hobj : (slabData slab + BitVec.ofNat 32 (bit * cache.objsize)).toNat =
      slab.toNat + (16 + bit * cache.objsize) := by
    have hs := slab.isLt
    rw [BitVec.toNat_add, BitVec.toNat_add, BitVec.toNat_ofNat]
    simp only [BitVec.toNat_ofNat]
    omega
  generalize slabData slab + BitVec.ofNat 32 (bit * cache.objsize) = obj at hobj ⊢
  refine ⟨?_, ?_, hbit⟩
  · apply BitVec.eq_of_toNat_eq
    have h256 : 256#32 = 1#32 <<< 8 := by decide
    rw [getSlabFromObj, h256, align_two_pow_toNat _ 8 (by decide), hobj]
    obtain ⟨q, hq⟩ := hslab
    rw [hq, Nat.mul_add_div (by decide), Nat.div_eq_of_lt hsum, Nat.add_zero, Nat.mul_comm]
  · have hlow : (obj &&& ((1#32 <<< 8) - 1#32)).toNat = 16 + bit * cache.objsize := by
      have hmask : (1#32 <<< 8) - 1#32 = BitVec.ofNat 32 (2 ^ 8 - 1) := by decide
      rw [hmask, BitVec.toNat_and, BitVec.toNat_ofNat, Nat.mod_eq_of_lt (by decide),
        Nat.and_two_pow_sub_one_eq_mod, hobj]
      obtain ⟨q, hq⟩ := hslab
      rw [hq, Nat.mul_add_mod, Nat.mod_eq_of_lt hsum]
    have hoff : ((obj &&& ((1#32 <<< 8) - 1#32)) - slabSize).toNat = bit * cache.objsize := by
      rw [BitVec.toNat_sub, hlow]
      simp only [BitVec.toNat_ofNat]
      omega
    rw [objIndexInSlab, BitVec.toNat_udiv, hoff, BitVec.toNat_ofNat,
      Nat.mod_eq_of_lt (Nat.lt_trans hsize (by decide)), Nat.mul_div_cancel _ hpos]

theorem not_resolves_of_ge (hslab : 2 ^ 8 ∣ slab.toNat) (hge : 256 ≤ 16 + bit * cache.objsize)
    (hfit : slab.toNat + (16 + bit * cache.objsize) < 2 ^ 32) :
    ¬ Resolves cache ⟨slabData slab + BitVec.ofNat 32 (bit * cache.objsize), slab, bit⟩ := by
  rintro ⟨hround, -, -⟩
  have hobj : (slabData slab + BitVec.ofNat 32 (bit * cache.objsize)).toNat =
      slab.toNat + (16 + bit * cache.objsize) := by
    rw [BitVec.toNat_add, BitVec.toNat_add, BitVec.toNat_ofNat]
    simp only [BitVec.toNat_ofNat]
    omega
  have h256 : 256#32 = 1#32 <<< 8 := by decide
  have heq := congrArg BitVec.toNat hround
  rw [getSlabFromObj, h256, align_two_pow_toNat _ 8 (by decide), hobj] at heq
  obtain ⟨q, hq⟩ := hslab
  simp only at heq
  rw [hq, Nat.mul_add_div (by decide)] at heq
  have hone : 1 ≤ (16 + bit * cache.objsize) / 2 ^ 8 := (Nat.le_div_iff_mul_le (by decide)).mpr hge
  omega

end Address

section Lists
variable {cache : KmemCache} {slab a : Word}

theorem KmemCache.mem_listed :
    a ∈ cache.listed ↔ a ∈ cache.slabsFree ∨ a ∈ cache.slabsPartial ∨ a ∈ cache.slabsFull := by
  simp [KmemCache.listed]

theorem KmemCache.listed_unlink (h : cache.listed.Nodup) (slab : Word) :
    (cache.unlink slab).listed = cache.listed.erase slab := by
  have hnd := h
  simp only [listed, List.nodup_append] at hnd
  rw [h.erase_eq_filter]
  simp only [listed, unlink, List.filter_append]
  rw [hnd.1.1.erase_eq_filter, hnd.1.2.1.erase_eq_filter, hnd.2.1.erase_eq_filter]

theorem KmemCache.listed_moveToPartial (h : cache.listed.Nodup) (slab : Word) :
    (cache.moveToPartial slab).listed.Perm (slab :: cache.listed.erase slab) := by
  rw [← listed_unlink h]
  simp only [listed, moveToPartial, List.append_assoc]
  exact (List.perm_middle.append_left _).trans List.perm_middle

theorem KmemCache.listed_moveToFull (h : cache.listed.Nodup) (slab : Word) :
    (cache.moveToFull slab).listed.Perm (slab :: cache.listed.erase slab) := by
  rw [← listed_unlink h]
  simp only [listed, moveToFull]
  rw [← List.append_assoc]
  exact List.perm_append_singleton _ _

theorem KmemCache.perm_moveToPartial (h : cache.listed.Nodup) (hslab : slab ∈ cache.listed) :
    (cache.moveToPartial slab).listed.Perm cache.listed :=
  (listed_moveToPartial h slab).trans (List.perm_cons_erase hslab).symm

theorem KmemCache.perm_moveToFull (h : cache.listed.Nodup) (hslab : slab ∈ cache.listed) :
    (cache.moveToFull slab).listed.Perm cache.listed :=
  (listed_moveToFull h slab).trans (List.perm_cons_erase hslab).symm

theorem KmemCache.perm_grow (cache : KmemCache) (slabs : Slabs) (page : Word) :
    (kmemCacheGrow cache slabs page).1.listed.Perm (page :: cache.listed) := by
  simp only [kmemCacheGrow, listed, List.append_assoc]
  exact List.perm_middle

end Lists

section FreeSet
variable {map map' : Bitmap} {n bit : Nat}

def freeSet (map : Bitmap) (n : Nat) : Finset Nat :=
  (Finset.range n).filter fun i => testBit map i = false

theorem mem_freeSet {i : Nat} : i ∈ freeSet map n ↔ i < n ∧ testBit map i = false := by
  simp [freeSet]

theorem freeSet_setBit (h : bitmapSetBit map bit = some map') :
    freeSet map' n = (freeSet map n).erase bit := by
  ext i
  rw [Finset.mem_erase, mem_freeSet, mem_freeSet, (bitmapSetBit_spec h).2]
  by_cases hi : i = bit <;> simp [hi]

theorem freeSet_clearBit (h : bitmapClearBit map bit = some map') (hbit : bit < n) :
    freeSet map' n = insert bit (freeSet map n) := by
  ext i
  rw [Finset.mem_insert, mem_freeSet, mem_freeSet, (bitmapClearBit_spec h).2]
  by_cases hi : i = bit
  · simp [hi, hbit]
  · simp [hi]

theorem freeSet_eq_range (h : n ≤ (freeSet map n).card) : freeSet map n = Finset.range n := by
  apply Finset.eq_of_subset_of_card_le (Finset.filter_subset _ _)
  rw [Finset.card_range]
  exact h

end FreeSet

/-- The state of a cache with the geometry of `c`. -/
structure SlabInv (c : KmemCache) (s : SlabState) : Prop where
  objsize : s.cache.objsize = c.objsize
  objnum : s.cache.objnum = c.objnum
  pageOrder : s.cache.pageOrder = c.pageOrder
  nodup : s.cache.listed.Nodup
  aligned : ∀ a ∈ s.cache.listed, 2 ^ 8 ∣ a.toNat
  bitmap : ∀ a ∈ s.cache.listed, (s.slabs a).freeBitmap.length = 1
  count : ∀ a ∈ s.cache.listed,
    (s.slabs a).freeObjects = (freeSet (s.slabs a).freeBitmap c.objnum).card
  room : ∀ a, a ∈ s.cache.slabsFree ∨ a ∈ s.cache.slabsPartial → 0 < (s.slabs a).freeObjects
  live : ∀ o ∈ s.live, o.slab ∈ s.cache.listed ∧ o.bit < c.objnum ∧
    testBit (s.slabs o.slab).freeBitmap o.bit = true ∧
    o.obj = slabData o.slab + BitVec.ofNat 32 (o.bit * c.objsize)

section Steps
variable {c : KmemCache} {s : SlabState} {slab : Word}

theorem slabInv_boot (hlisted : c.listed = []) (slabs : Slabs) : SlabInv c (slabBoot c slabs) := by
  have hnone : ∀ a, a ∉ c.listed := by simp [hlisted]
  refine ⟨rfl, rfl, rfl, by simp [slabBoot, hlisted], fun a ha => absurd ha (hnone a),
    fun a ha => absurd ha (hnone a), fun a ha => absurd ha (hnone a), ?_, by simp [slabBoot]⟩
  intro a ha
  exact absurd (KmemCache.mem_listed.mpr (ha.imp_right Or.inl)) (hnone a)

theorem SlabInv.move (h : SlabInv c s) {cache : KmemCache}
    (hgeom : cache.objsize = s.cache.objsize ∧ cache.objnum = s.cache.objnum ∧
      cache.pageOrder = s.cache.pageOrder)
    (hperm : cache.listed.Perm s.cache.listed)
    (hroom : ∀ a, a ∈ cache.slabsFree ∨ a ∈ cache.slabsPartial → 0 < (s.slabs a).freeObjects) :
    SlabInv c ⟨cache, s.slabs, s.live⟩ where
  objsize := hgeom.1.trans h.objsize
  objnum := hgeom.2.1.trans h.objnum
  pageOrder := hgeom.2.2.trans h.pageOrder
  nodup := hperm.nodup_iff.mpr h.nodup
  aligned a ha := h.aligned a (hperm.mem_iff.mp ha)
  bitmap a ha := h.bitmap a (hperm.mem_iff.mp ha)
  count a ha := h.count a (hperm.mem_iff.mp ha)
  room := hroom
  live o ho := by
    obtain ⟨hslab, hrest⟩ := h.live o ho
    exact ⟨hperm.mem_iff.mpr hslab, hrest⟩

theorem SlabInv.moveToPartial (h : SlabInv c s) (hslab : slab ∈ s.cache.listed)
    (hpos : 0 < (s.slabs slab).freeObjects) :
    SlabInv c ⟨s.cache.moveToPartial slab, s.slabs, s.live⟩ := by
  refine h.move ⟨rfl, rfl, rfl⟩ (KmemCache.perm_moveToPartial h.nodup hslab) ?_
  intro a ha
  by_cases heq : a = slab
  · rw [heq]
    exact hpos
  · apply h.room
    simp only [KmemCache.moveToPartial, KmemCache.unlink, List.mem_append, List.mem_singleton, heq,
      or_false] at ha
    exact ha.imp List.mem_of_mem_erase List.mem_of_mem_erase

theorem SlabInv.moveToFull (h : SlabInv c s) (hslab : slab ∈ s.cache.listed) :
    SlabInv c ⟨s.cache.moveToFull slab, s.slabs, s.live⟩ := by
  refine h.move ⟨rfl, rfl, rfl⟩ (KmemCache.perm_moveToFull h.nodup hslab) ?_
  intro a ha
  apply h.room
  exact ha.imp List.mem_of_mem_erase List.mem_of_mem_erase

theorem Slabs.set_apply (slabs : Slabs) (addr a : Word) (slab : Slab) :
    slabs.set addr slab a = if a = addr then slab else slabs a := rfl

theorem SlabInv.setHeader (h : SlabInv c s) {header : Slab} {live : List SlabObj}
    (hlen : header.freeBitmap.length = 1)
    (hcount : header.freeObjects = (freeSet header.freeBitmap c.objnum).card)
    (hroom : slab ∈ s.cache.slabsFree ∨ slab ∈ s.cache.slabsPartial → 0 < header.freeObjects)
    (hlive : ∀ o ∈ live, o.slab ∈ s.cache.listed ∧ o.bit < c.objnum ∧
      testBit (s.slabs.set slab header o.slab).freeBitmap o.bit = true ∧
      o.obj = slabData o.slab + BitVec.ofNat 32 (o.bit * c.objsize)) :
    SlabInv c ⟨s.cache, s.slabs.set slab header, live⟩ where
  objsize := h.objsize
  objnum := h.objnum
  pageOrder := h.pageOrder
  nodup := h.nodup
  aligned := h.aligned
  bitmap a ha := by
    by_cases heq : a = slab
    · simp only [Slabs.set_apply, if_pos heq, hlen]
    · simp only [Slabs.set_apply, if_neg heq, h.bitmap a ha]
  count a ha := by
    by_cases heq : a = slab
    · simp only [Slabs.set_apply, if_pos heq, hcount]
    · simp only [Slabs.set_apply, if_neg heq, h.count a ha]
  room a ha := by
    by_cases heq : a = slab
    · simp only [Slabs.set_apply, if_pos heq]
      exact hroom (heq ▸ ha)
    · simp only [Slabs.set_apply, if_neg heq]
      exact h.room a ha
  live := hlive

theorem SlabInv.grow (h : SlabInv c s) (hpos : 0 < c.objnum) {page : Word}
    (haligned : 2 ^ (s.cache.pageOrder + 8) ∣ page.toNat) (hnew : page ∉ s.cache.listed) :
    SlabInv c ⟨(kmemCacheGrow s.cache s.slabs page).1, (kmemCacheGrow s.cache s.slabs page).2,
      s.live⟩ := by
  have hperm := KmemCache.perm_grow s.cache s.slabs page
  have hfree : freeSet [0#32] c.objnum = Finset.range c.objnum := by
    ext i
    rw [mem_freeSet, Finset.mem_range]
    exact and_iff_left (testBit_zeros 1 i)
  have hne : ∀ a ∈ s.cache.listed, a ≠ page := fun a ha heq => hnew (heq ▸ ha)
  refine ⟨h.objsize, h.objnum, h.pageOrder, ?_, ?_, ?_, ?_, ?_, ?_⟩
  · exact hperm.nodup_iff.mpr (List.nodup_cons.mpr ⟨hnew, h.nodup⟩)
  · intro a ha
    cases List.mem_cons.mp (hperm.mem_iff.mp ha) with
    | inl heq =>
        rw [heq]
        exact Nat.dvd_trans (Nat.pow_dvd_pow 2 (Nat.le_add_left 8 _)) haligned
    | inr hold => exact h.aligned a hold
  · intro a ha
    cases List.mem_cons.mp (hperm.mem_iff.mp ha) with
    | inl heq => simp [kmemCacheGrow, Slabs.set_apply, heq]
    | inr hold => simpa [kmemCacheGrow, Slabs.set_apply, hne a hold] using h.bitmap a hold
  · intro a ha
    cases List.mem_cons.mp (hperm.mem_iff.mp ha) with
    | inl heq => simp [kmemCacheGrow, Slabs.set_apply, heq, hfree, h.objnum]
    | inr hold => simpa [kmemCacheGrow, Slabs.set_apply, hne a hold] using h.count a hold
  · intro a ha
    by_cases heq : a = page
    · simp [kmemCacheGrow, Slabs.set_apply, heq, h.objnum, hpos]
    · have hold : a ∈ s.cache.slabsFree ∨ a ∈ s.cache.slabsPartial := by
        simpa [kmemCacheGrow, heq] using ha
      simpa [kmemCacheGrow, Slabs.set_apply, heq] using h.room a hold
  · intro o ho
    obtain ⟨hslab, hbit, hset, hobj⟩ := h.live o ho
    refine ⟨hperm.mem_iff.mpr (List.mem_cons_of_mem _ hslab), hbit, ?_, hobj⟩
    simpa [kmemCacheGrow, Slabs.set_apply, hne o.slab hslab] using hset

/-- The slab to take an object from: the first of the partial list, else the first of the
free list, else a new one. -/
inductive Picked (s : SlabState) : Option Word → KmemCache → Slabs → Word → Prop
  | partly {page : Option Word} {slab : Word} (hslab : slab ∈ s.cache.slabsPartial) :
      Picked s page s.cache s.slabs slab
  | free {page : Option Word} {slab : Word} (hpartly : s.cache.slabsPartial = [])
      (hslab : slab ∈ s.cache.slabsFree) :
      Picked s page (s.cache.moveToPartial slab) s.slabs slab
  | grown {page : Word} (hpartly : s.cache.slabsPartial = []) (hfree : s.cache.slabsFree = []) :
      Picked s (some page) ((kmemCacheGrow s.cache s.slabs page).1.moveToPartial page)
        (kmemCacheGrow s.cache s.slabs page).2 page

theorem Picked.mem_partial {page : Option Word} {cache : KmemCache} {slabs : Slabs}
    (h : Picked s page cache slabs slab) : slab ∈ cache.slabsPartial := by
  cases h with
  | partly hslab => exact hslab
  | free | grown => simp [KmemCache.moveToPartial]

theorem slabToUse_spec (h : SlabInv c s) (hpos : 0 < c.objnum) {page : Option Word}
    (hpage : SlabOp.Valid s (.alloc page)) :
    (slabToUse s.cache s.slabs page = none ∧ page = none) ∨
      ∃ cache slabs slab, slabToUse s.cache s.slabs page = some (cache, slabs, slab) ∧
        Picked s page cache slabs slab ∧ SlabInv c ⟨cache, slabs, s.live⟩ := by
  unfold slabToUse
  cases hpart : s.cache.slabsPartial with
  | cons slab rest => exact Or.inr ⟨_, _, slab, rfl, .partly (by simp [hpart]), h⟩
  | nil =>
      cases hfree : s.cache.slabsFree with
      | cons slab rest =>
          have hmem : slab ∈ s.cache.slabsFree := by simp [hfree]
          exact Or.inr ⟨_, _, slab, rfl, .free hpart hmem,
            h.moveToPartial (KmemCache.mem_listed.mpr (Or.inl hmem)) (h.room slab (Or.inl hmem))⟩
      | nil =>
          cases page with
          | none => exact Or.inl ⟨rfl, rfl⟩
          | some page =>
              have hgrow := h.grow hpos hpage.1 hpage.2
              have hmem : page ∈ (kmemCacheGrow s.cache s.slabs page).1.slabsFree := by
                simp [kmemCacheGrow]
              exact Or.inr ⟨_, _, page, rfl, .grown hpart hfree,
                hgrow.moveToPartial (KmemCache.mem_listed.mpr (Or.inl hmem))
                  (hgrow.room page (Or.inl hmem))⟩

theorem takeObject_eq {cache : KmemCache} {slabs : Slabs} {bit : Nat} {map : Bitmap}
    (hfind : findFirstZeroBit (slabs slab).freeBitmap cache.objnum = some bit)
    (hset : bitmapSetBit (slabs slab).freeBitmap bit = some map) :
    takeObject cache slabs slab =
      some (if (slabs slab).freeObjects - 1 = 0 then cache.moveToFull slab else cache,
        slabs.set slab ⟨map, (slabs slab).freeObjects - 1⟩,
        ⟨slabData slab + BitVec.ofNat 32 (bit * cache.objsize), slab, bit⟩) := by
  simp [takeObject, hfind, hset]

/-- A slab of the partial list has room, and the scan reaches it if the objects are not
more than the bits of its word. -/
theorem SlabInv.exists_free (h : SlabInv c s) (hn : c.objnum ≤ 32)
    (hslab : slab ∈ s.cache.slabsPartial) :
    ∃ i ∈ freeSet (s.slabs slab).freeBitmap c.objnum, i < 32 := by
  have hmem : slab ∈ s.cache.listed := KmemCache.mem_listed.mpr (Or.inr (Or.inl hslab))
  have hcount := h.count slab hmem
  have hpos := h.room slab (Or.inr hslab)
  obtain ⟨i, hi⟩ := Finset.card_pos.mp
    (show 0 < (freeSet (s.slabs slab).freeBitmap c.objnum).card by omega)
  exact ⟨i, hi, Nat.lt_of_lt_of_le (mem_freeSet.mp hi).1 hn⟩

theorem takeObject_spec (h : SlabInv c s) (hslab : slab ∈ s.cache.slabsPartial)
    (hroom : ∃ i ∈ freeSet (s.slabs slab).freeBitmap c.objnum, i < 32) :
    ∃ bit map', bit ∈ freeSet (s.slabs slab).freeBitmap c.objnum ∧
      bitmapSetBit (s.slabs slab).freeBitmap bit = some map' ∧
      takeObject s.cache s.slabs slab =
        some (if (s.slabs slab).freeObjects - 1 = 0 then s.cache.moveToFull slab else s.cache,
          s.slabs.set slab ⟨map', (s.slabs slab).freeObjects - 1⟩,
          ⟨slabData slab + BitVec.ofNat 32 (bit * c.objsize), slab, bit⟩) ∧
      SlabInv c
        ⟨if (s.slabs slab).freeObjects - 1 = 0 then s.cache.moveToFull slab else s.cache,
          s.slabs.set slab ⟨map', (s.slabs slab).freeObjects - 1⟩,
          ⟨slabData slab + BitVec.ofNat 32 (bit * c.objsize), slab, bit⟩ :: s.live⟩ := by
  have hmem : slab ∈ s.cache.listed := KmemCache.mem_listed.mpr (Or.inr (Or.inl hslab))
  have hlen := h.bitmap slab hmem
  have hcount := h.count slab hmem
  have hpos := h.room slab (Or.inr hslab)
  obtain ⟨i, hi, hi32⟩ := hroom
  obtain ⟨bit, hle, hfind, hclear⟩ :=
    findFirstZeroBit_of_clear (mem_freeSet.mp hi).1 (by omega) (mem_freeSet.mp hi).2
  have hbit : bit < c.objnum := Nat.lt_of_le_of_lt hle (mem_freeSet.mp hi).1
  have hfree := mem_freeSet.mpr ⟨hbit, hclear⟩
  obtain ⟨map', hset⟩ := bitmapSetBit_isSome (s.slabs slab).freeBitmap bit (by omega)
  obtain ⟨hlen', hbits⟩ := bitmapSetBit_spec hset
  have hcard : ((freeSet map' c.objnum).card : Int) = (s.slabs slab).freeObjects - 1 := by
    rw [freeSet_setBit hset, Finset.card_erase_of_mem hfree, hcount]
    have hone : 1 ≤ (freeSet (s.slabs slab).freeBitmap c.objnum).card :=
      Finset.card_pos.mpr ⟨bit, hfree⟩
    omega
  -- the new object is live, and the bits of the others stay set
  have hlive : ∀ cache : KmemCache, (∀ a, a ∈ cache.listed ↔ a ∈ s.cache.listed) →
      ∀ o ∈ (⟨slabData slab + BitVec.ofNat 32 (bit * c.objsize), slab, bit⟩ :: s.live : List SlabObj),
        o.slab ∈ cache.listed ∧ o.bit < c.objnum ∧
        testBit (s.slabs.set slab ⟨map', (s.slabs slab).freeObjects - 1⟩ o.slab).freeBitmap o.bit =
          true ∧ o.obj = slabData o.slab + BitVec.ofNat 32 (o.bit * c.objsize) := by
    intro cache hlisted o ho
    cases List.mem_cons.mp ho with
    | inl heq =>
        subst heq
        exact ⟨(hlisted slab).mpr hmem, hbit, by simp [Slabs.set_apply, hbits], rfl⟩
    | inr hold =>
        obtain ⟨hoslab, hobit, hoset, hobj⟩ := h.live o hold
        refine ⟨(hlisted _).mpr hoslab, hobit, ?_, hobj⟩
        by_cases heq : o.slab = slab
        · simp [Slabs.set_apply, heq, hbits, heq ▸ hoset]
        · simpa [Slabs.set_apply, heq] using hoset
  rw [← h.objnum] at hfind
  have htake := takeObject_eq hfind hset
  rw [h.objsize] at htake
  refine ⟨bit, map', hfree, hset, htake, ?_⟩
  by_cases hlast : (s.slabs slab).freeObjects - 1 = 0
  · rw [if_pos hlast]
    have hfull := h.moveToFull hmem
    have hperm := KmemCache.perm_moveToFull h.nodup hmem
    refine hfull.setHeader (hlen'.trans hlen) hcard.symm ?_ (hlive _ fun a => hperm.mem_iff)
    intro hin
    have hnd := h.nodup
    simp only [KmemCache.listed, List.nodup_append] at hnd
    exact absurd hin (not_or.mpr ⟨hnd.1.1.not_mem_erase, hnd.1.2.1.not_mem_erase⟩)
  · rw [if_neg hlast]
    refine h.setHeader (hlen'.trans hlen) hcard.symm ?_ (hlive _ fun a => Iff.rfl)
    intro _
    show 0 < (s.slabs slab).freeObjects - 1
    omega

theorem SlabInv.unlink (h : SlabInv c s) (hnone : ∀ o ∈ s.live, o.slab ≠ slab) :
    SlabInv c ⟨s.cache.unlink slab, s.slabs, s.live⟩ := by
  have hlisted := KmemCache.listed_unlink h.nodup slab
  have hsub : ∀ a, a ∈ (s.cache.unlink slab).listed → a ∈ s.cache.listed := by
    intro a ha
    rw [hlisted] at ha
    exact List.mem_of_mem_erase ha
  refine ⟨h.objsize, h.objnum, h.pageOrder, ?_, fun a ha => h.aligned a (hsub a ha),
    fun a ha => h.bitmap a (hsub a ha), fun a ha => h.count a (hsub a ha), ?_, ?_⟩
  · rw [hlisted]
    exact h.nodup.erase slab
  · intro a ha
    exact h.room a (ha.imp List.mem_of_mem_erase List.mem_of_mem_erase)
  · intro o ho
    obtain ⟨hslab, hrest⟩ := h.live o ho
    refine ⟨?_, hrest⟩
    rw [hlisted]
    exact (List.mem_erase_of_ne (hnone o ho)).mpr hslab

theorem SlabInv.resolves (h : SlabInv c s) (hpos : 0 < c.objsize) (hsize : c.objsize < 2 ^ 16)
    (hfits : Fits c) {o : SlabObj} (ho : o ∈ s.live) : Resolves c o := by
  obtain ⟨hslab, hbit, _, hobj⟩ := h.live o ho
  have hmul : o.bit * c.objsize ≤ (c.objnum - 1) * c.objsize :=
    Nat.mul_le_mul_right _ (by omega)
  have hlt := hfits.2
  have hres := resolves_of_lt (h.aligned _ hslab) hpos hsize (Nat.lt_of_lt_of_le hbit hfits.1)
    (by omega)
  rw [← hobj] at hres
  exact hres

/-- The state after an object was freed and the lists of the cache have changed. -/
def SlabState.freed (s : SlabState) (o : SlabObj) (map : Bitmap) (cache : KmemCache) : SlabState :=
  ⟨cache, s.slabs.set o.slab ⟨map, (s.slabs o.slab).freeObjects + 1⟩,
    s.live.filter fun o' => o'.obj ≠ o.obj⟩

/-- A slab leaves the cache with its last object, is on the partial list with one free
object, or stays where it is. -/
inductive Freed (c : KmemCache) (s : SlabState) (o : SlabObj) (map : Bitmap) :
    KmemCache → Option Word → Prop
  | last (hfree : (s.slabs o.slab).freeObjects + 1 = c.objnum) :
      Freed c s o map (s.cache.unlink o.slab) (some o.slab)
  | first (hfree : (s.slabs o.slab).freeObjects + 1 ≠ c.objnum)
      (hone : (s.slabs o.slab).freeObjects + 1 = 1) :
      Freed c s o map (s.cache.moveToPartial o.slab) none
  | more (hfree : (s.slabs o.slab).freeObjects + 1 ≠ c.objnum)
      (hmore : (s.slabs o.slab).freeObjects + 1 ≠ 1) : Freed c s o map s.cache none

theorem kmemCacheFree_spec (h : SlabInv c s) {o : SlabObj} (ho : o ∈ s.live)
    (hres : Resolves c o) :
    ∃ map' cache page, bitmapClearBit (s.slabs o.slab).freeBitmap o.bit = some map' ∧
      kmemCacheFree s.cache s.slabs o.obj =
        some (cache, s.slabs.set o.slab ⟨map', (s.slabs o.slab).freeObjects + 1⟩, page) ∧
      Freed c s o map' cache page ∧ SlabInv c (s.freed o map' cache) := by
  obtain ⟨hround, hindex, hword⟩ := hres
  obtain ⟨hslab, hbit, hset, hobj⟩ := h.live o ho
  have hindex' : (objIndexInSlab o.obj s.cache).toNat = o.bit := by
    rw [← hindex, objIndexInSlab, objIndexInSlab, h.objsize]
  have hlen := h.bitmap _ hslab
  have hcount := h.count _ hslab
  obtain ⟨map', hclear⟩ := bitmapClearBit_isSome (s.slabs o.slab).freeBitmap o.bit (by omega)
  obtain ⟨hlen', hbits⟩ := bitmapClearBit_spec hclear
  have hcard : ((freeSet map' c.objnum).card : Int) = (s.slabs o.slab).freeObjects + 1 := by
    have hnot : o.bit ∉ freeSet (s.slabs o.slab).freeBitmap c.objnum := by
      rw [mem_freeSet, hset]
      simp
    rw [freeSet_clearBit hclear hbit, Finset.card_insert_of_notMem hnot, hcount]
    omega
  have hheader : SlabInv c ⟨s.cache,
      s.slabs.set o.slab ⟨map', (s.slabs o.slab).freeObjects + 1⟩,
      s.live.filter fun o' => o'.obj ≠ o.obj⟩ := by
    refine h.setHeader (hlen'.trans hlen) hcard.symm (fun _ => ?_) ?_
    · simp only
      omega
    · intro o' ho'
      obtain ⟨hmem, hne⟩ : o' ∈ s.live ∧ o'.obj ≠ o.obj := by simpa using ho'
      obtain ⟨hslab', hbit', hset', hobj'⟩ := h.live o' hmem
      refine ⟨hslab', hbit', ?_, hobj'⟩
      by_cases heq : o'.slab = o.slab
      · have hbne : o'.bit ≠ o.bit := by
          intro hb
          rw [hobj', hobj, heq, hb] at hne
          exact hne rfl
        rw [Slabs.set_apply, if_pos heq]
        simp [hbits, hbne, heq ▸ hset']
      · rw [Slabs.set_apply, if_neg heq]
        exact hset'
  have hfree : kmemCacheFree s.cache s.slabs o.obj =
      let header : Slab := ⟨map', (s.slabs o.slab).freeObjects + 1⟩
      if (s.slabs o.slab).freeObjects + 1 = c.objnum then
        some (s.cache.unlink o.slab, s.slabs.set o.slab header, some o.slab)
      else if (s.slabs o.slab).freeObjects + 1 = 1 then
        some (s.cache.moveToPartial o.slab, s.slabs.set o.slab header, none)
      else some (s.cache, s.slabs.set o.slab header, none) := by
    simp only [kmemCacheFree, hround, hindex', hslab, hclear, h.objnum, not_true_eq_false, if_false,
      Option.bind_eq_bind, Option.bind_some, Option.pure_def]
  by_cases hall : (s.slabs o.slab).freeObjects + 1 = c.objnum
  · refine ⟨map', _, _, hclear, hfree.trans (if_pos hall), .last hall, hheader.unlink ?_⟩
    -- every bit of the slab is clear now
    intro o' ho' heq
    obtain ⟨_, hbit', hset', _⟩ := hheader.live o' ho'
    have hmem : o'.bit ∈ freeSet map' c.objnum := by
      rw [freeSet_eq_range (by omega)]
      exact Finset.mem_range.mpr hbit'
    simp only [Slabs.set_apply, if_pos heq, (mem_freeSet.mp hmem).2] at hset'
    exact Bool.noConfusion hset'
  · by_cases hone : (s.slabs o.slab).freeObjects + 1 = 1
    · refine ⟨map', _, _, hclear, (hfree.trans (if_neg hall)).trans (if_pos hone),
        .first hall hone, hheader.moveToPartial hslab ?_⟩
      simp only [Slabs.set_apply, if_true]
      omega
    · exact ⟨map', _, _, hclear, (hfree.trans (if_neg hall)).trans (if_neg hone),
        .more hall hone, hheader⟩

theorem slabStep_spec (hpos : 0 < c.objsize) (hsize : c.objsize < 2 ^ 16) (hnum : 0 < c.objnum)
    (hfits : Fits c) (s : SlabState) (op : SlabOp) (h : SlabInv c s) (hop : op.Valid s) :
    ∃ s', slabStep s op = some s' ∧ SlabInv c s' := by
  cases op with
  | alloc page =>
      rcases slabToUse_spec h hnum hop with ⟨hnull, -⟩ | ⟨cache, slabs, slab, huse, hpick, hinv⟩
      · exact ⟨s, by simp [slabStep, kmemCacheAlloc, hnull], h⟩
      · obtain ⟨bit, map', -, -, htake, hinv'⟩ :=
          takeObject_spec hinv hpick.mem_partial (hinv.exists_free hfits.1 hpick.mem_partial)
        exact ⟨_, by simp [slabStep, kmemCacheAlloc, huse, htake], hinv'⟩
  | free obj =>
      obtain ⟨o, ho, rfl⟩ := List.mem_map.mp hop
      obtain ⟨map', cache', page, -, hfree, -, hinv'⟩ :=
        kmemCacheFree_spec h ho (h.resolves hpos hsize hfits ho)
      exact ⟨_, by simp [slabStep, hfree, SlabState.freed], hinv'⟩

end Steps

section Filling
variable {c : KmemCache} {s : SlabState} {page : Word} {k : Nat}

/-- One slab whose first `k` objects are in use. -/
structure Filling (c : KmemCache) (page : Word) (k : Nat) (s : SlabState) : Prop where
  cache : s.cache = { c with slabsFree := [], slabsPartial := [page], slabsFull := [] }
  word : ∃ w, (s.slabs page).freeBitmap = [w] ∧ ∀ j < 32, w.getLsbD j = decide (j < k)
  count : (s.slabs page).freeObjects = (c.objnum : Int) - k

theorem Filling.take (h : Filling c page k s) (hk : k < 32) (hn : k < c.objnum) :
    ∃ cache slabs, takeObject s.cache s.slabs page = some (cache, slabs,
        ⟨slabData page + BitVec.ofNat 32 (k * c.objsize), page, k⟩) ∧
      (k + 1 < c.objnum → ∀ live, Filling c page (k + 1) ⟨cache, slabs, live⟩) := by
  obtain ⟨w, hmap, hword⟩ := h.word
  have hnum : s.cache.objnum = c.objnum := by rw [h.cache]
  have hsize : s.cache.objsize = c.objsize := by rw [h.cache]
  have hfind : findFirstZeroBit (s.slabs page).freeBitmap s.cache.objnum = some k := by
    rw [hmap, hnum]
    exact findFirstZeroBit_singleton hk hn hword
  have hset : bitmapSetBit (s.slabs page).freeBitmap k = some [setBit k w] := by
    rw [hmap]
    simp [bitmapSetBit, Nat.div_eq_of_lt hk, Nat.mod_eq_of_lt hk]
  have htake := takeObject_eq hfind hset
  rw [hsize] at htake
  refine ⟨_, _, htake, fun hmore live => ⟨?_, ⟨setBit k w, ?_, ?_⟩, ?_⟩⟩
  · have hne : (s.slabs page).freeObjects - 1 ≠ 0 := by
      rw [h.count]
      omega
    simp only [if_neg hne]
    exact h.cache
  · simp [Slabs.set_apply]
  · intro j hj
    rw [getLsbD_setBit w k j hj, hword j hj]
    by_cases hjk : j = k
    · simp [hjk]
    · have hiff : j < k ↔ j < k + 1 := by omega
      simp [hjk, hiff]
  · simp only [Slabs.set_apply, if_true, h.count]
    omega

/-- The history that fills a slab object by object. -/
def fillOps (page : Word) (k : Nat) : List SlabOp :=
  .alloc (some page) :: List.replicate k (.alloc none)

theorem fillOps_succ (page : Word) (k : Nat) :
    fillOps page (k + 1) = fillOps page k ++ [.alloc none] := by
  rw [fillOps, fillOps, List.replicate_succ', List.cons_append]

theorem filling_zero (hlisted : c.listed = []) (page : Word) (slabs : Slabs) :
    ∃ s, slabToUse c slabs (some page) = some (s.cache, s.slabs, page) ∧ Filling c page 0 s := by
  simp only [KmemCache.listed, List.append_eq_nil_iff] at hlisted
  obtain ⟨⟨hfree, hpart⟩, hfull⟩ := hlisted
  refine ⟨⟨_, slabs.set page ⟨[0#32], c.objnum⟩, []⟩,
    by simp only [slabToUse, hpart, hfree, kmemCacheGrow]; rfl, ?_, ⟨0#32, ?_, ?_⟩, ?_⟩
  · simp [KmemCache.moveToPartial, KmemCache.unlink, hfull]
  · simp [Slabs.set_apply]
  · simp
  · simp [Slabs.set_apply]

theorem Filling.step (h : Filling c page k s) (hk : k < 32) (hn : k < c.objnum) :
    ∃ s', slabStep s (.alloc none) = some s' ∧
      ⟨slabData page + BitVec.ofNat 32 (k * c.objsize), page, k⟩ ∈ s'.live ∧
      (k + 1 < c.objnum → Filling c page (k + 1) s') := by
  obtain ⟨cache, slabs, htake, hmore⟩ := h.take hk hn
  have huse : slabToUse s.cache s.slabs none = some (s.cache, s.slabs, page) := by
    simp [slabToUse, h.cache]
  refine ⟨_, by simp [slabStep, kmemCacheAlloc, huse, htake]; rfl, by simp, fun hlt => hmore hlt _⟩

theorem Filling.overflow (h : Filling c page 32 s) (hn : 32 < c.objnum) :
    slabStep s (.alloc none) = none := by
  obtain ⟨w, hmap, hword⟩ := h.word
  have hall : w = ~~~0#32 := by
    apply BitVec.eq_of_getLsbD_eq
    intro j hj
    rw [hword j hj, BitVec.getLsbD_not]
    simp [hj]
  have hnum : s.cache.objnum = c.objnum := by rw [h.cache]
  have hfind : findFirstZeroBit (s.slabs page).freeBitmap s.cache.objnum = none := by
    rw [hmap, hall, hnum]
    exact findFirstZeroBit_full hn
  have huse : slabToUse s.cache s.slabs none = some (s.cache, s.slabs, page) := by
    simp [slabToUse, h.cache]
  simp [slabStep, kmemCacheAlloc, huse, takeObject, hfind]

private theorem allOk_alloc_none (s : SlabState) :
    AllOk (fun s op => op.Valid s) slabStep s [.alloc none] := ⟨trivial, fun _ _ => trivial⟩

theorem fill_run (hlisted : c.listed = []) (hpage : 2 ^ (c.pageOrder + 8) ∣ page.toNat)
    (slabs : Slabs) (hk : k < 32) (hn : k + 1 < c.objnum) :
    ∃ s, exec slabStep (slabBoot c slabs) (fillOps page k) = some s ∧
      AllOk (fun s op => op.Valid s) slabStep (slabBoot c slabs) (fillOps page k) ∧
      Filling c page (k + 1) s := by
  induction k with
  | zero =>
      obtain ⟨s, huse, hfill⟩ := filling_zero hlisted page slabs
      obtain ⟨cache, slabs', htake, hmore⟩ := hfill.take hk (by omega)
      refine ⟨_, by simp [fillOps, exec, slabStep, kmemCacheAlloc, slabBoot, huse, htake]; rfl,
        ⟨⟨hpage, by simp [slabBoot, hlisted]⟩, fun _ _ => trivial⟩, hmore hn _⟩
  | succ k ih =>
      obtain ⟨s, hrun, hok, hfill⟩ := ih (by omega) (by omega)
      obtain ⟨s', hstep, _, hmore⟩ := hfill.step hk (by omega)
      refine ⟨s', ?_, ?_, hmore (by omega)⟩
      · rw [fillOps_succ, exec_append, hrun]
        simp [exec, hstep]
      · rw [fillOps_succ]
        exact allOk_append hrun hok (allOk_alloc_none s)

abbrev ramPage : Word := 0x20000000#32

theorem cacheResolves_iff_fits (hlisted : c.listed = []) (hpos : 0 < c.objsize)
    (hsize : c.objsize < 2 ^ 16) (hnum : 2 ≤ c.objnum) (horder : c.pageOrder ≤ 5)
    (slabs : Slabs) : CacheResolves c slabs ↔ Fits c := by
  constructor
  · intro hres
    by_contra hfits
    have hpage : 2 ^ (c.pageOrder + 8) ∣ ramPage.toNat := by
      interval_cases c.pageOrder <;> decide
    -- the first object that does not fit
    obtain ⟨b, hb, hbn, hbad⟩ : ∃ b, b < 32 ∧ b + 1 < c.objnum ∧
        (b + 1 = 32 ∨ b + 1 < 32 ∧ 256 ≤ 16 + (b + 1) * c.objsize) := by
      by_cases h32 : c.objnum ≤ 32
      · have hge : 256 ≤ 16 + (c.objnum - 1) * c.objsize := by
          by_contra hlt
          exact hfits ⟨h32, by omega⟩
        refine ⟨c.objnum - 2, by omega, by omega, Or.inr ⟨by omega, ?_⟩⟩
        have heq : c.objnum - 2 + 1 = c.objnum - 1 := by omega
        rw [heq]
        exact hge
      · exact ⟨31, by decide, by omega, Or.inl rfl⟩
    obtain ⟨s, hrun, hok, hfill⟩ := fill_run hlisted hpage slabs hb hbn
    obtain ⟨s', hrun', hall⟩ := hres (fillOps ramPage b ++ [.alloc none])
      (allOk_append hrun hok (allOk_alloc_none s))
    rw [exec_append, hrun] at hrun'
    simp only [Option.bind_some, exec, Option.bind_eq_some_iff] at hrun'
    obtain ⟨_, hstep, heq⟩ := hrun'
    obtain rfl := Option.some.inj heq
    cases hbad with
    | inl hfull =>
        rw [hfull] at hfill hbn
        rw [hfill.overflow hbn] at hstep
        exact absurd hstep (by simp)
    | inr hfar =>
        obtain ⟨_, hstep', hmem, _⟩ := hfill.step hfar.1 hbn
        obtain rfl := Option.some.inj (hstep.symm.trans hstep')
        have hbound : (b + 1) * c.objsize ≤ 32 * 2 ^ 16 :=
          Nat.mul_le_mul (by omega) (by omega)
        refine not_resolves_of_ge (by decide) hfar.2 ?_ (hall _ hmem)
        have hram : ramPage.toNat = 0x20000000 := by decide
        omega
  · intro hfits ops hops
    obtain ⟨s, hrun, hinv⟩ := exec_of_allOk
      (fun s op => slabStep_spec hpos hsize (by omega) hfits s op)
      (slabInv_boot hlisted slabs) hops
    exact ⟨s, hrun, fun o ho => hinv.resolves hpos hsize hfits ho⟩

end Filling

section Create
variable {cfg : PageSizeSelect} {size : Word} {cache : KmemCache}

private theorem objsPerSlab_toNat {o : Nat} (ho : o ≤ 5) (size : Word) :
    (objsPerSlab (2 ^ (o + 8)) size).toNat = (2 ^ (o + 8) - 16) / size.toNat := by
  have hsub : (BitVec.ofNat 32 (2 ^ (o + 8)) - slabSize).toNat = 2 ^ (o + 8) - 16 := by
    interval_cases o <;> decide
  rw [objsPerSlab, BitVec.toNat_udiv, hsub]

private theorem objsPerSlab_toInt {o : Nat} (ho : o ≤ 5) (size : Word) :
    (objsPerSlab (2 ^ (o + 8)) size).toInt = ((2 ^ (o + 8) - 16) / size.toNat : Nat) := by
  have hnat := objsPerSlab_toNat ho size
  have hle : (2 ^ (o + 8) - 16) / size.toNat ≤ 2 ^ (o + 8) - 16 := Nat.div_le_self ..
  have hpow : 2 ^ (o + 8) ≤ 2 ^ 13 := Nat.pow_le_pow_right (by decide) (by omega)
  rw [BitVec.toInt_eq_toNat_of_lt (by omega), hnat]

private theorem pageOrderToSize_of_le {o : Nat} (ho : o ≤ pageOrderMax cfg) :
    pageOrderToSize cfg o = some (2 ^ (o + 8)) := by
  cases cfg <;> simp only [pageOrderMax] at ho <;> interval_cases o <;> rfl

private theorem pageOrderToSize_succ_max (cfg : PageSizeSelect) :
    pageOrderToSize cfg ((pageOrderMax cfg : Int) + 1) = some 0 := by
  cases cfg <;> rfl

/-- No smaller order holds two objects. -/
def Least (o : Nat) (size : Word) : Prop :=
  o = 0 ∨ 2 ^ (o + 7) - 16 < 2 * size.toNat ∨ size.toNat = 0

private theorem findSlabOrder_spec {n o : Nat} {order : Int} {objnum : Word}
    (ho : o ≤ pageOrderMax cfg) (hleast : Least o size)
    (h : findSlabOrder cfg size n o (objsPerSlab (2 ^ (o + 8)) size) = some (order, objnum)) :
    order > pageOrderMax cfg ∨ ∃ o' : Nat, order = o' ∧ o' ≤ pageOrderMax cfg ∧ Least o' size ∧
      objnum = objsPerSlab (2 ^ (o' + 8)) size ∧ 2 ≤ (2 ^ (o' + 8) - 16) / size.toNat := by
  have hmax := pageOrderMax_le cfg
  induction n generalizing o with
  | zero => simp [findSlabOrder] at h
  | succ n ih =>
      have hint := objsPerSlab_toInt (Nat.le_trans ho hmax) size
      rw [findSlabOrder] at h
      split at h
      · next hloop =>
          rw [hint] at hloop
          by_cases hlast : o + 1 ≤ pageOrderMax cfg
          · have hnext : Least (o + 1) size := by
              by_cases hzero : size.toNat = 0
              · exact Or.inr (Or.inr hzero)
              · have hlt : (2 ^ (o + 8) - 16) / size.toNat < 2 := by omega
                rw [Nat.div_lt_iff_lt_mul (by omega)] at hlt
                exact Or.inr (Or.inl hlt)
            have hcast : (o : Int) + 1 = (o + 1 : Nat) := by omega
            rw [hcast, pageOrderToSize_of_le hlast] at h
            exact ih hlast hnext h
          · -- the loop runs once more and stops behind the last order
            have heq : o = pageOrderMax cfg := by omega
            subst heq
            rw [pageOrderToSize_succ_max] at h
            simp only [Option.bind_eq_bind, Option.bind_some] at h
            cases n with
            | zero => simp [findSlabOrder] at h
            | succ n =>
                rw [findSlabOrder, if_neg (by omega)] at h
                obtain ⟨rfl, _⟩ := Prod.mk.inj (Option.some.inj h)
                exact Or.inl (by omega)
      · next hexit =>
          obtain ⟨rfl, rfl⟩ := Prod.mk.inj (Option.some.inj h)
          rw [hint] at hexit
          exact Or.inr ⟨o, rfl, ho, hleast, rfl, by omega⟩

private theorem sizeToPageOrder_cases (cfg : PageSizeSelect) (size : Word) :
    sizeToPageOrder cfg size = -1 ∨
      ∃ o : Nat, sizeToPageOrder cfg size = o ∧ o ≤ pageOrderMax cfg ∧ Least o size := by
  unfold sizeToPageOrder
  cases hfind : (pageOrderSz cfg).findIdx? fun sz => decide (size.toNat ≤ sz) with
  | none => exact Or.inl rfl
  | some o =>
      obtain ⟨hlt, _, hbefore⟩ := List.findIdx?_eq_some_iff_getElem.mp hfind
      have hle : o ≤ pageOrderMax cfg := by
        cases cfg <;> simp only [pageOrderSz, pageOrderMax, List.length_cons, List.length_nil] at hlt ⊢ <;>
          omega
      refine Or.inr ⟨o, rfl, hle, ?_⟩
      cases o with
      | zero => exact Or.inl rfl
      | succ o =>
          have hprev := hbefore o (Nat.lt_succ_self o)
          have hsz : (pageOrderSz cfg)[o] = 2 ^ (o + 8) := by
            have hget := @pageOrderSz_getElem cfg o (Nat.le_of_succ_le hle)
            simpa [List.getElem?_eq_getElem (Nat.lt_of_succ_lt hlt)] using hget
          rw [hsz] at hprev
          refine Or.inr (Or.inl ?_)
          simp only [decide_eq_true_eq] at hprev
          show 2 ^ (o + 8) - 16 < 2 * size.toNat
          omega

theorem kmemCacheCreate_spec {mem : Option Word}
    (h : kmemCacheCreate cfg size mem = some (some cache)) :
    cache.listed = [] ∧ cache.objsize = size.toNat ∧
      ∃ o, cache.pageOrder = o ∧ o ≤ pageOrderMax cfg ∧ Least o size ∧
        cache.objnum = (2 ^ (o + 8) - 16) / size.toNat ∧ 2 ≤ cache.objnum := by
  have hmax := pageOrderMax_le cfg
  simp only [kmemCacheCreate, Option.bind_eq_bind, Option.bind_eq_some_iff] at h
  obtain ⟨pageSize, hpage, ⟨order, objnum⟩, hloop, hcache⟩ := h
  rcases sizeToPageOrder_cases cfg size with hneg | ⟨o, hord, ho, hleast⟩
  · rw [hneg] at hpage
    cases cfg <;> simp [pageOrderToSize, pageOrderMax] at hpage
  rw [hord, pageOrderToSize_of_le ho] at hpage
  obtain rfl := Option.some.inj hpage
  rw [hord] at hloop
  rcases findSlabOrder_spec ho hleast hloop with hbig | ⟨o', rfl, ho', hleast', rfl, htwo⟩
  · simp [hbig] at hcache
  · have hsmall : ¬ (o' : Int) > pageOrderMax cfg := by omega
    simp only [if_neg hsmall] at hcache
    cases mem with
    | none => simp at hcache
    | some _ =>
        obtain rfl := Option.some.inj (Option.some.inj hcache)
        have hpos : 0 < size.toNat := by
          by_contra hzero
          have hz : size.toNat = 0 := by omega
          rw [hz, Nat.div_zero] at htwo
          omega
        have hpow : 2 ^ (o' + 8) ≤ 2 ^ 13 := Nat.pow_le_pow_right (by decide) (by omega)
        have hsize : size.toNat < 2 ^ 16 := by
          rw [Nat.le_div_iff_mul_le hpos] at htwo
          omega
        have hnum : (2 ^ (o' + 8) - 16) / size.toNat < 2 ^ 16 :=
          Nat.lt_of_le_of_lt (Nat.div_le_self ..) (by omega)
        have hnat := objsPerSlab_toNat (Nat.le_trans ho' hmax) size
        refine ⟨rfl, Nat.mod_eq_of_lt hsize, o', ?_, ho', hleast', ?_, ?_⟩
        · simp only [Int.toNat_natCast]
          omega
        · simp only [hnat]
          exact Nat.mod_eq_of_lt hnum
        · simp only [hnat]
          rw [Nat.mod_eq_of_lt hnum]
          exact htwo

/-- The sizes `m` for which `n` objects of a page fit. -/
private abbrev Fit (n m : Nat) : Prop := n ≤ 32 ∧ 16 + (n - 1) * m < 256

private theorem pred_mul (n m : Nat) (h : 2 ≤ n) :
    (n - 1) * m + m = n * m ∧ m ≤ (n - 1) * m := by
  refine ⟨?_, Nat.le_mul_of_pos_left m (by omega)⟩
  rw [← Nat.succ_mul]
  congr 1
  omega

private theorem fit_order_zero {n m : Nat} (htwo : 2 ≤ n) (hmul : n * m ≤ 240)
    (hmore : 240 < n * m + m) : Fit n m ↔ 8 ≤ m ∧ m ≤ 120 := by
  obtain ⟨hlast, hfirst⟩ := pred_mul n m htwo
  have hlow : m ≤ 7 → n * m ≤ n * 7 := Nat.mul_le_mul_left n
  have hhigh : 8 ≤ m → n * 8 ≤ n * m := Nat.mul_le_mul_left n
  rw [Fit]
  generalize n * m = p at *
  generalize (n - 1) * m = q at *
  omega

private theorem fit_order_one {n m : Nat} (htwo : 2 ≤ n) (hmul : n * m ≤ 496)
    (hmore : 496 < n * m + m) (hleast : 240 < 2 * m) : Fit n m ↔ 166 ≤ m ∧ m ≤ 239 := by
  have hn : n ≤ 4 := by
    have hle : n * 121 ≤ n * m := Nat.mul_le_mul_left n (by omega)
    omega
  rw [Fit]
  interval_cases n <;> omega

private theorem fit_order_large {n m : Nat} (htwo : 2 ≤ n) (hm : 249 ≤ m) : ¬ Fit n m := by
  obtain ⟨_, hfirst⟩ := pred_mul n m htwo
  rw [Fit]
  omega

theorem fits_iff (hsize : cache.objsize = size.toNat) {o : Nat} (hleast : Least o size)
    (hnum : cache.objnum = (2 ^ (o + 8) - 16) / size.toNat) (htwo : 2 ≤ cache.objnum) :
    Fits cache ↔ (8 ≤ size.toNat ∧ size.toNat ≤ 120) ∨ (166 ≤ size.toNat ∧ size.toNat ≤ 239) := by
  have hpos : 0 < size.toNat := by
    by_contra hzero
    have hz : size.toNat = 0 := by omega
    rw [hz, Nat.div_zero] at hnum
    omega
  have hmul : cache.objnum * size.toNat ≤ 2 ^ (o + 8) - 16 := hnum ▸ Nat.div_mul_le_self ..
  have hmore : 2 ^ (o + 8) - 16 < cache.objnum * size.toNat + size.toNat := by
    rw [hnum]
    exact Nat.lt_div_mul_add hpos
  have htwoMul : 2 * size.toNat ≤ cache.objnum * size.toNat := Nat.mul_le_mul_right _ htwo
  have hlow : o = 0 ∨ 2 ^ (o + 7) - 16 < 2 * size.toNat := by
    rcases hleast with hzero | hlt | hz
    · exact Or.inl hzero
    · exact Or.inr hlt
    · omega
  have hfits : Fits cache ↔ Fit cache.objnum size.toNat := by rw [Fits, hsize]
  rw [hfits]
  rcases Nat.lt_trichotomy o 1 with hzero | hone | hlarge
  · obtain rfl : o = 0 := by omega
    rw [fit_order_zero htwo hmul hmore]
    omega
  · subst hone
    rw [fit_order_one htwo hmul hmore (hlow.resolve_left (by decide))]
    omega
  · have hpow : 2 ^ 9 ≤ 2 ^ (o + 7) := Nat.pow_le_pow_right (by decide) (by omega)
    have hlt := hlow.resolve_left (by omega)
    have hm : 249 ≤ size.toNat := by omega
    refine iff_of_false (fit_order_large htwo hm) ?_
    omega

/-- The caches that `kmem_cache_create` returns find their objects again exactly for
object sizes of 8 to 120 and of 166 to 239 bytes. -/
theorem cacheResolves_iff {mem : Option Word}
    (h : kmemCacheCreate cfg size mem = some (some cache)) (slabs : Slabs) :
    CacheResolves cache slabs ↔
      (8 ≤ size.toNat ∧ size.toNat ≤ 120) ∨ (166 ≤ size.toNat ∧ size.toNat ≤ 239) := by
  obtain ⟨hlisted, hsize, o, horder, ho, hleast, hnum, htwo⟩ := kmemCacheCreate_spec h
  have hmax := pageOrderMax_le cfg
  have hpos : 0 < size.toNat := by
    by_contra hzero
    have hz : size.toNat = 0 := by omega
    rw [hz, Nat.div_zero] at hnum
    omega
  have hlt : size.toNat < 2 ^ 16 := by
    rw [hnum, Nat.le_div_iff_mul_le hpos] at htwo
    have hpow : 2 ^ (o + 8) ≤ 2 ^ 13 := Nat.pow_le_pow_right (by decide) (by omega)
    omega
  rw [cacheResolves_iff_fits hlisted (by omega) (by omega) htwo (by omega),
    fits_iff hsize hleast hnum htwo]

def cache32 : KmemCache :=
  { slabsFree := [], slabsPartial := [], slabsFull := [], objsize := 32, objnum := 7, pageOrder := 0 }

theorem cacheResolves_for_32 :
    kmemCacheCreate .size64K 32 (some 0x20000110) = some (some cache32) ∧
      CacheResolves cache32 fun _ => ⟨[0#32], 0⟩ :=
  ⟨by decide +kernel,
    (cacheResolves_iff (by decide +kernel : kmemCacheCreate .size64K 32 (some 0x20000110) =
      some (some cache32)) _).mpr (by decide)⟩

/-- The cache for objects of 128 bytes, three in a page of 512 bytes. -/
def cache128 : KmemCache :=
  { slabsFree := [], slabsPartial := [], slabsFull := [], objsize := 128, objnum := 3, pageOrder := 1 }

private theorem third_of_128 :
    (exec slabStep (slabBoot cache128 fun _ => ⟨[0#32], 0⟩)
      [.alloc (some 0x20000000), .alloc none, .alloc none]).map SlabState.live =
    some [⟨0x20000110, 0x20000000, 2⟩, ⟨0x20000090, 0x20000000, 1⟩, ⟨0x20000010, 0x20000000, 0⟩] := by
  decide +kernel

/-- The third object of such a page resolves to its second half. -/
theorem cacheResolves_not_for_128 :
    kmemCacheCreate .size64K 128 (some 0x20000110) = some (some cache128) ∧
      ¬ CacheResolves cache128 fun _ => ⟨[0#32], 0⟩ := by
  refine ⟨by decide +kernel, fun hres => ?_⟩
  obtain ⟨s, hrun, hall⟩ := hres [.alloc (some 0x20000000), .alloc none, .alloc none]
    (by decide +kernel)
  have hlive := third_of_128
  rw [hrun, Option.map_some, Option.some.injEq] at hlive
  rw [hlive] at hall
  exact absurd (hall _ (List.mem_cons_self ..)) (by decide)

end Create

end Tenok
