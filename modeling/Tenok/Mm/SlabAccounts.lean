import Tenok.Mm.SlabRuns

/-!
What an object cache knows of its slabs: the bits that are set are those of the objects in
use, the counter of a slab agrees with its bitmap, and the list a slab is on with its
counter.
-/
namespace Tenok

def usedSet (map : Bitmap) : Finset Nat :=
  (Finset.range (32 * map.length)).filter fun i => testBit map i = true

theorem testBit_lt {map : Bitmap} {i : Nat} (h : testBit map i = true) : i < 32 * map.length := by
  by_contra hge
  have hnone : map[i / 32]? = none := List.getElem?_eq_none (by omega)
  simp [testBit, hnone] at h

theorem mem_usedSet {map : Bitmap} {i : Nat} : i ∈ usedSet map ↔ testBit map i = true := by
  rw [usedSet, Finset.mem_filter, Finset.mem_range]
  exact and_iff_right_of_imp testBit_lt

theorem card_freeSet_add_usedSet (map : Bitmap) {n : Nat}
    (hhigh : ∀ i, testBit map i = true → i < n) :
    (freeSet map n).card + (usedSet map).card = n := by
  have hused : usedSet map = (Finset.range n).filter fun i => ¬ testBit map i = false := by
    ext i
    rw [mem_usedSet, Finset.mem_filter, Finset.mem_range, Bool.not_eq_false]
    exact ⟨fun h => ⟨hhigh i h, h⟩, And.right⟩
  rw [hused, freeSet, Finset.card_filter_add_card_filter_not, Finset.card_range]

namespace KmemCache
variable {cache : KmemCache} {slab a : Word}

theorem mem_unlink (h : cache.listed.Nodup) (slab a : Word) :
    (a ∈ (cache.unlink slab).slabsFree ↔ a ≠ slab ∧ a ∈ cache.slabsFree) ∧
      (a ∈ (cache.unlink slab).slabsPartial ↔ a ≠ slab ∧ a ∈ cache.slabsPartial) ∧
      (a ∈ (cache.unlink slab).slabsFull ↔ a ≠ slab ∧ a ∈ cache.slabsFull) := by
  simp only [listed, List.nodup_append] at h
  exact ⟨h.1.1.mem_erase_iff, h.1.2.1.mem_erase_iff, h.2.1.mem_erase_iff⟩

theorem mem_moveToPartial (h : cache.listed.Nodup) (slab a : Word) :
    (a ∈ (cache.moveToPartial slab).slabsFree ↔ a ≠ slab ∧ a ∈ cache.slabsFree) ∧
      (a ∈ (cache.moveToPartial slab).slabsPartial ↔
        (a ≠ slab ∧ a ∈ cache.slabsPartial) ∨ a = slab) ∧
      (a ∈ (cache.moveToPartial slab).slabsFull ↔ a ≠ slab ∧ a ∈ cache.slabsFull) := by
  obtain ⟨hfree, hpartly, hfull⟩ := mem_unlink h slab a
  exact ⟨hfree, by simp only [moveToPartial, List.mem_append, List.mem_singleton, hpartly], hfull⟩

theorem mem_moveToFull (h : cache.listed.Nodup) (slab a : Word) :
    (a ∈ (cache.moveToFull slab).slabsFree ↔ a ≠ slab ∧ a ∈ cache.slabsFree) ∧
      (a ∈ (cache.moveToFull slab).slabsPartial ↔ a ≠ slab ∧ a ∈ cache.slabsPartial) ∧
      (a ∈ (cache.moveToFull slab).slabsFull ↔ (a ≠ slab ∧ a ∈ cache.slabsFull) ∨ a = slab) := by
  obtain ⟨hfree, hpartly, hfull⟩ := mem_unlink h slab a
  exact ⟨hfree, hpartly, by simp only [moveToFull, List.mem_append, List.mem_singleton, hfull]⟩

theorem apart (h : cache.listed.Nodup) :
    (a ∈ cache.slabsFree → a ∉ cache.slabsPartial ∧ a ∉ cache.slabsFull) ∧
      (a ∈ cache.slabsPartial → a ∉ cache.slabsFull) := by
  simp only [listed, List.nodup_append, List.mem_append] at h
  obtain ⟨⟨-, -, hfree⟩, -, hrest⟩ := h
  exact ⟨fun ha => ⟨fun hp => hfree a ha a hp rfl, fun hf => hrest a (Or.inl ha) a hf rfl⟩,
    fun ha hf => hrest a (Or.inr ha) a hf rfl⟩

end KmemCache

/-- The accounts of a cache with the geometry of `c`; the slab of `X` is just being used. -/
structure SlabAccounts (c : KmemCache) (s : SlabState) (X : Set Word) : Prop where
  inv : SlabInv c s
  full : ∀ a ∈ s.cache.slabsFull, (s.slabs a).freeObjects = 0
  partly : ∀ a ∈ s.cache.slabsPartial, a ∉ X → (s.slabs a).freeObjects < c.objnum
  free : ∀ a ∈ s.cache.slabsFree, (s.slabs a).freeObjects = c.objnum
  used : ∀ a ∈ s.cache.listed, ∀ i, testBit (s.slabs a).freeBitmap i = true →
    ∃ o ∈ s.live, o.slab = a ∧ o.bit = i
  distinct : s.live.Pairwise fun o o' => o.slab = o'.slab → o.bit ≠ o'.bit

namespace SlabAccounts
variable {c : KmemCache} {s : SlabState} {slab : Word} {X : Set Word}

theorem boot (hlisted : c.listed = []) (slabs : Slabs) : SlabAccounts c (slabBoot c slabs) X := by
  have hnone : ∀ a, ¬ (a ∈ c.slabsFree ∨ a ∈ c.slabsPartial ∨ a ∈ c.slabsFull) := fun a => by
    rw [← KmemCache.mem_listed, hlisted]
    exact List.not_mem_nil
  exact ⟨slabInv_boot hlisted slabs, fun a ha => absurd (Or.inr (Or.inr ha)) (hnone a),
    fun a ha => absurd (Or.inr (Or.inl ha)) (hnone a), fun a ha => absurd (Or.inl ha) (hnone a),
    fun a ha => absurd (KmemCache.mem_listed.mp ha) (hnone a), List.Pairwise.nil⟩

theorem grow {page : Word} (h : SlabAccounts c s X) (hpos : 0 < c.objnum)
    (hvalid : SlabOp.Valid s (.alloc (some page))) :
    SlabAccounts c ⟨(kmemCacheGrow s.cache s.slabs page).1, (kmemCacheGrow s.cache s.slabs page).2,
      s.live⟩ X := by
  have hold : ∀ a ∈ s.cache.listed, (kmemCacheGrow s.cache s.slabs page).2 a = s.slabs a :=
    fun a ha => if_neg fun heq : a = page => hvalid.2 (heq ▸ ha)
  have hnew : (kmemCacheGrow s.cache s.slabs page).2 page = ⟨[0#32], c.objnum⟩ := by
    simp [kmemCacheGrow, Slabs.set_apply, h.inv.objnum]
  refine ⟨h.inv.grow hpos hvalid.1 hvalid.2, fun a ha => ?_, fun a ha hX => ?_, fun a ha => ?_,
    fun a ha i hi => ?_, h.distinct⟩
  all_goals dsimp only at *
  · rw [hold a (KmemCache.mem_listed.mpr (Or.inr (Or.inr ha)))]
    exact h.full a ha
  · rw [hold a (KmemCache.mem_listed.mpr (Or.inr (Or.inl ha)))]
    exact h.partly a ha hX
  · obtain ha | rfl : a ∈ s.cache.slabsFree ∨ a = page := by simpa [kmemCacheGrow] using ha
    · rw [hold a (KmemCache.mem_listed.mpr (Or.inl ha))]
      exact h.free a ha
    · simp [hnew]
  · by_cases heq : a = page
    · subst heq
      rw [hnew] at hi
      cases (testBit_zeros 1 i).symm.trans hi
    · have ha' : a ∈ s.cache.listed := by
        simpa [kmemCacheGrow, KmemCache.listed, heq] using ha
      rw [hold a ha'] at hi
      exact h.used a ha' i hi

theorem toPartial (h : SlabAccounts c s ∅) (hslab : slab ∈ s.cache.listed)
    (hpos : 0 < (s.slabs slab).freeObjects) :
    SlabAccounts c ⟨s.cache.moveToPartial slab, s.slabs, s.live⟩ {slab} := by
  have hmem := KmemCache.mem_moveToPartial h.inv.nodup slab
  have hperm := KmemCache.perm_moveToPartial h.inv.nodup hslab
  refine ⟨h.inv.moveToPartial hslab hpos, fun a ha => h.full a ((hmem a).2.2.mp ha).2,
    fun a ha hX => ?_, fun a ha => h.free a ((hmem a).1.mp ha).2,
    fun a ha => h.used a (hperm.mem_iff.mp ha), h.distinct⟩
  exact h.partly a (((hmem a).2.1.mp ha).resolve_right hX).2 (Set.notMem_empty a)

theorem picked {page : Option Word} {cache : KmemCache} {slabs : Slabs}
    (h : SlabAccounts c s ∅) (hpos : 0 < c.objnum) (hvalid : SlabOp.Valid s (.alloc page))
    (hpick : Picked s page cache slabs slab) : SlabAccounts c ⟨cache, slabs, s.live⟩ {slab} := by
  cases hpick with
  | partly hslab => exact { h with partly := fun a ha _ => h.partly a ha (Set.notMem_empty a) }
  | free hpartly hslab =>
      exact h.toPartial (KmemCache.mem_listed.mpr (Or.inl hslab)) (h.inv.room slab (Or.inl hslab))
  | grown hpartly hfree =>
      have hgrow := h.grow hpos hvalid
      have hmem : slab ∈ (kmemCacheGrow s.cache s.slabs slab).1.slabsFree := by
        simp [kmemCacheGrow]
      exact hgrow.toPartial (KmemCache.mem_listed.mpr (Or.inl hmem))
        (hgrow.inv.room slab (Or.inl hmem))

theorem change {cache : KmemCache} {header : Slab} {live : List SlabObj}
    (h : SlabAccounts c s {slab}) (hinv : SlabInv c ⟨cache, s.slabs.set slab header, live⟩)
    (hlists : ∀ a, a ≠ slab → (a ∈ cache.slabsFree → a ∈ s.cache.slabsFree) ∧
      (a ∈ cache.slabsPartial → a ∈ s.cache.slabsPartial) ∧
      (a ∈ cache.slabsFull → a ∈ s.cache.slabsFull))
    (hfree : slab ∈ cache.slabsFree → header.freeObjects = c.objnum)
    (hpartly : slab ∈ cache.slabsPartial → header.freeObjects < c.objnum)
    (hfull : slab ∈ cache.slabsFull → header.freeObjects = 0)
    (hself : ∀ i, testBit header.freeBitmap i = true → ∃ o ∈ live, o.slab = slab ∧ o.bit = i)
    (hlive : ∀ o ∈ s.live, o.slab ≠ slab → o ∈ live)
    (hdistinct : live.Pairwise fun o o' => o.slab = o'.slab → o.bit ≠ o'.bit) :
    SlabAccounts c ⟨cache, s.slabs.set slab header, live⟩ ∅ := by
  have hsame : ∀ a, a ≠ slab → s.slabs.set slab header a = s.slabs a := fun a ha => if_neg ha
  have hset : s.slabs.set slab header slab = header := if_pos rfl
  refine ⟨hinv, fun a ha => ?_, fun a ha _ => ?_, fun a ha => ?_, fun a ha i hi => ?_, hdistinct⟩
  all_goals
    dsimp only at *
    by_cases heq : a = slab
    · subst heq
      rw [hset] at *
      first | exact hfull ha | exact hpartly ha | exact hfree ha | exact hself i hi
    rw [hsame a heq] at *
  · exact h.full a ((hlists a heq).2.2 ha)
  · exact h.partly a ((hlists a heq).2.1 ha) heq
  · exact h.free a ((hlists a heq).1 ha)
  · have hlisted : a ∈ s.cache.listed := KmemCache.mem_listed.mpr <|
      (KmemCache.mem_listed.mp ha).imp (hlists a heq).1 (Or.imp (hlists a heq).2.1 (hlists a heq).2.2)
    obtain ⟨o, ho, rfl, hbit⟩ := h.used a hlisted i hi
    exact ⟨o, hlive o ho heq, rfl, hbit⟩

theorem freeObjects_le (h : SlabInv c s) (hslab : slab ∈ s.cache.listed) :
    (s.slabs slab).freeObjects ≤ c.objnum := by
  have hcard : (freeSet (s.slabs slab).freeBitmap c.objnum).card ≤ c.objnum :=
    (Finset.card_filter_le _ _).trans_eq (Finset.card_range _)
  have hcount := h.count slab hslab
  omega

theorem take {bit : Nat} {map' : Bitmap} {obj : Word} (h : SlabAccounts c s {slab})
    (hslab : slab ∈ s.cache.slabsPartial)
    (hfree : bit ∈ freeSet (s.slabs slab).freeBitmap c.objnum)
    (hset : bitmapSetBit (s.slabs slab).freeBitmap bit = some map')
    (hinv : SlabInv c
      ⟨if (s.slabs slab).freeObjects - 1 = 0 then s.cache.moveToFull slab else s.cache,
        s.slabs.set slab ⟨map', (s.slabs slab).freeObjects - 1⟩, ⟨obj, slab, bit⟩ :: s.live⟩) :
    SlabAccounts c
      ⟨if (s.slabs slab).freeObjects - 1 = 0 then s.cache.moveToFull slab else s.cache,
        s.slabs.set slab ⟨map', (s.slabs slab).freeObjects - 1⟩, ⟨obj, slab, bit⟩ :: s.live⟩ ∅ := by
  have hle := freeObjects_le h.inv (KmemCache.mem_listed.mpr (Or.inr (Or.inl hslab)))
  have hapart := KmemCache.apart (a := slab) h.inv.nodup
  have hmove := KmemCache.mem_moveToFull h.inv.nodup slab
  refine h.change hinv (fun a ha => ?_) (fun hmem => ?_) (fun hmem => ?_) (fun hmem => ?_)
    (fun i hi => ?_) (fun o ho _ => List.mem_cons_of_mem _ ho) ?_
  · split
    · exact ⟨fun hmem => ((hmove a).1.mp hmem).2, fun hmem => ((hmove a).2.1.mp hmem).2,
        fun hmem => (((hmove a).2.2.mp hmem).resolve_right ha).2⟩
    · exact ⟨id, id, id⟩
  · split at hmem
    · exact absurd rfl ((hmove slab).1.mp hmem).1
    · exact absurd hslab (hapart.1 hmem).1
  · show (s.slabs slab).freeObjects - 1 < c.objnum
    omega
  · split at hmem
    · next hlast => exact hlast
    · exact absurd hmem (hapart.2 hslab)
  · obtain rfl | hold : i = bit ∨ testBit (s.slabs slab).freeBitmap i = true := by
      simpa [(bitmapSetBit_spec hset).2 i] using hi
    · exact ⟨_, List.mem_cons_self, rfl, rfl⟩
    · obtain ⟨o, ho, hsame⟩ := h.used slab (KmemCache.mem_listed.mpr (Or.inr (Or.inl hslab))) i hold
      exact ⟨o, List.mem_cons_of_mem _ ho, hsame⟩
  · refine List.pairwise_cons.mpr ⟨fun o ho hsame hbit => ?_, h.distinct⟩
    have hlive := (h.inv.live o ho).2.2.1
    rw [← hsame, ← hbit, (mem_freeSet.mp hfree).2] at hlive
    cases hlive

theorem freed {o : SlabObj} {map' : Bitmap} {cache : KmemCache} {page : Option Word}
    (h : SlabAccounts c s ∅) (hres : ∀ o ∈ s.live, Resolves c o) (ho : o ∈ s.live)
    (hclear : bitmapClearBit (s.slabs o.slab).freeBitmap o.bit = some map')
    (hfreed : Freed c s o map' cache page) (hinv : SlabInv c (s.freed o map' cache)) :
    SlabAccounts c (s.freed o map' cache) ∅ := by
  obtain ⟨hlisted, hbit, hset, -⟩ := h.inv.live o ho
  have hbits := (bitmapClearBit_spec hclear).2
  -- the object is told from the others by its slab and its bit
  have hobj : ∀ o' ∈ s.live, o'.obj = o.obj → o'.slab = o.slab ∧ o'.bit = o.bit := fun o' ho' heq => by
    obtain ⟨hslab, hindex, -⟩ := hres o ho
    obtain ⟨hslab', hindex', -⟩ := hres o' ho'
    rw [heq] at hslab' hindex'
    exact ⟨hslab'.symm.trans hslab, hindex'.symm.trans hindex⟩
  have hkeep : ∀ o' ∈ s.live, (o'.slab = o.slab → o'.bit ≠ o.bit) →
      o' ∈ s.live.filter fun o' => o'.obj ≠ o.obj := fun o' ho' hne =>
    List.mem_filter.mpr ⟨ho', decide_eq_true fun heq => (hobj o' ho' heq).elim hne⟩
  have hroom : (s.slabs o.slab).freeObjects < c.objnum := by
    by_contra hge
    have hle := freeObjects_le h.inv hlisted
    have hcount := h.inv.count _ hlisted
    have hmem : o.bit ∈ freeSet (s.slabs o.slab).freeBitmap c.objnum := by
      rw [freeSet_eq_range (by omega)]
      exact Finset.mem_range.mpr hbit
    cases hset.symm.trans (mem_freeSet.mp hmem).2
  have hnodup := h.inv.nodup
  have hsome : SlabAccounts c s {o.slab} :=
    { h with partly := fun a ha _ => h.partly a ha (Set.notMem_empty a) }
  refine hsome.change hinv ?_ ?_ ?_ ?_ (fun i hi => ?_)
    (fun o' ho' hne => hkeep o' ho' fun heq => absurd heq hne) (h.distinct.sublist List.filter_sublist)
  · cases hfreed with
    | last => exact fun a _ => ⟨List.mem_of_mem_erase, List.mem_of_mem_erase, List.mem_of_mem_erase⟩
    | first =>
        refine fun a ha => ⟨List.mem_of_mem_erase, fun hmem => ?_, List.mem_of_mem_erase⟩
        exact (((KmemCache.mem_moveToPartial hnodup ..).2.1.mp hmem).resolve_right ha).2
    | more => exact fun a _ => ⟨id, id, id⟩
  · intro hmem
    cases hfreed with
    | last => exact absurd rfl ((KmemCache.mem_unlink hnodup ..).1.mp hmem).1
    | first => exact absurd rfl ((KmemCache.mem_moveToPartial hnodup ..).1.mp hmem).1
    | more => exact absurd (h.free _ hmem) (Int.ne_of_lt hroom)
  · intro hmem
    cases hfreed with
    | last => exact absurd rfl ((KmemCache.mem_unlink hnodup ..).2.1.mp hmem).1
    | first hfree | more hfree =>
        show (s.slabs o.slab).freeObjects + 1 < c.objnum
        omega
  · intro hmem
    cases hfreed with
    | last => exact absurd rfl ((KmemCache.mem_unlink hnodup ..).2.2.mp hmem).1
    | first => exact absurd rfl ((KmemCache.mem_moveToPartial hnodup ..).2.2.mp hmem).1
    | more hfree hmore => exact absurd (by rw [h.full _ hmem, Int.zero_add]) hmore
  · obtain ⟨hne, hold⟩ : i ≠ o.bit ∧ testBit (s.slabs o.slab).freeBitmap i = true := by
      simpa [hbits i] using hi
    obtain ⟨o', ho', hslab, rfl⟩ := h.used _ hlisted i hold
    exact ⟨o', hkeep o' ho' fun _ => hne, hslab, rfl⟩

/-- With fewer than 32 objects in use there is a clear bit in the word of every bitmap. -/
theorem exists_free (h : SlabAccounts c s X) (hslab : slab ∈ s.cache.slabsPartial)
    (hroom : c.objnum ≤ 32 ∨ s.live.length < 32) :
    ∃ i ∈ freeSet (s.slabs slab).freeBitmap c.objnum, i < 32 := by
  obtain hsmall | hfew := hroom
  · exact h.inv.exists_free hsmall hslab
  by_cases hsmall : c.objnum ≤ 32
  · exact h.inv.exists_free hsmall hslab
  by_contra hnone
  have hall : ∀ i < 32, testBit (s.slabs slab).freeBitmap i = true := fun i hi => by
    by_contra hclear
    exact hnone ⟨i, mem_freeSet.mpr ⟨by omega, by simpa using hclear⟩, hi⟩
  have hsub : Finset.range 32 ⊆ (s.live.map SlabObj.bit).toFinset := fun i hi => by
    obtain ⟨o, ho, -, hbit⟩ := h.used slab (KmemCache.mem_listed.mpr (Or.inr (Or.inl hslab))) i
      (hall i (Finset.mem_range.mp hi))
    exact List.mem_toFinset.mpr (List.mem_map.mpr ⟨o, ho, hbit⟩)
  have hcard := (Finset.card_le_card hsub).trans (List.toFinset_card_le _)
  rw [Finset.card_range, List.length_map] at hcard
  omega

/-- The slabs that an allocation adds to the cache. -/
def newSlabs (cache : KmemCache) (page : Option Word) : List Word :=
  if cache.slabsPartial = [] ∧ cache.slabsFree = [] then page.toList else []

theorem listed_picked {page : Option Word} {cache : KmemCache} {slabs : Slabs} (h : SlabInv c s)
    (hvalid : SlabOp.Valid s (.alloc page)) (hpick : Picked s page cache slabs slab) :
    cache.listed.Perm (newSlabs s.cache page ++ s.cache.listed) ∧
      ∀ a ∈ cache.slabsFree, a ∈ s.cache.slabsFree := by
  cases hpick with
  | partly hslab =>
      have hne : s.cache.slabsPartial ≠ [] := List.ne_nil_of_mem hslab
      simp [newSlabs, hne]
  | free hpartly hslab =>
      have hne : s.cache.slabsFree ≠ [] := List.ne_nil_of_mem hslab
      simp only [newSlabs, hne, and_false, if_false, List.nil_append]
      exact ⟨KmemCache.perm_moveToPartial h.nodup (KmemCache.mem_listed.mpr (Or.inl hslab)),
        fun a => List.mem_of_mem_erase⟩
  | grown hpartly hfree =>
      have hperm := KmemCache.perm_grow s.cache s.slabs slab
      have hmem : slab ∈ (kmemCacheGrow s.cache s.slabs slab).1.listed :=
        hperm.mem_iff.mpr List.mem_cons_self
      have hnodup := hperm.nodup_iff.mpr (List.nodup_cons.mpr ⟨hvalid.2, h.nodup⟩)
      refine ⟨?_, by simp [KmemCache.moveToPartial, KmemCache.unlink, kmemCacheGrow, hfree]⟩
      simpa [newSlabs, hpartly, hfree] using
        (KmemCache.perm_moveToPartial hnodup hmem).trans hperm

theorem alloc {page : Option Word} (h : SlabAccounts c s ∅) (hpos : 0 < c.objnum)
    (hvalid : SlabOp.Valid s (.alloc page)) (hroom : c.objnum ≤ 32 ∨ s.live.length < 32) :
    ∃ s', slabStep s (.alloc page) = some s' ∧ SlabAccounts c s' ∅ ∧
      s'.cache.listed.Perm (newSlabs s.cache page ++ s.cache.listed) ∧
      (∀ a ∈ s'.cache.slabsFree, a ∈ s.cache.slabsFree) ∧ s'.live.length ≤ s.live.length + 1 := by
  obtain ⟨hnull, rfl⟩ | ⟨cache, slabs, slab, huse, hpick, hinv⟩ := slabToUse_spec h.inv hpos hvalid
  · exact ⟨s, by simp [slabStep, kmemCacheAlloc, hnull], h, by simp [newSlabs], fun _ => id,
      Nat.le_succ _⟩
  · have hslab := hpick.mem_partial
    have hpicked := h.picked hpos hvalid hpick
    obtain ⟨bit, map', hfree, hset, htake, hinv'⟩ :=
      takeObject_spec hinv hslab (hpicked.exists_free hslab hroom)
    obtain ⟨hperm, hsub⟩ := listed_picked h.inv hvalid hpick
    refine ⟨_, by simp [slabStep, kmemCacheAlloc, huse, htake],
      hpicked.take hslab hfree hset hinv', ?_, fun a ha => ?_, Nat.le_refl _⟩
    · dsimp only
      split
      · have hlisted : slab ∈ cache.listed := KmemCache.mem_listed.mpr (Or.inr (Or.inl hslab))
        exact (KmemCache.perm_moveToFull hinv.nodup hlisted).trans hperm
      · exact hperm
    · dsimp only at ha
      split at ha
      · exact hsub a (List.mem_of_mem_erase ha)
      · exact hsub a ha

theorem free_obj {o : SlabObj} (h : SlabAccounts c s ∅) (hres : ∀ o ∈ s.live, Resolves c o)
    (ho : o ∈ s.live) :
    ∃ cache slabs page, kmemCacheFree s.cache s.slabs o.obj = some (cache, slabs, page) ∧
      SlabAccounts c ⟨cache, slabs, s.live.filter fun o' => o'.obj ≠ o.obj⟩ ∅ ∧
      s.cache.listed.Perm (page.toList ++ cache.listed) ∧
      ∀ a ∈ cache.slabsFree, a ∈ s.cache.slabsFree := by
  obtain ⟨map', cache, page, hclear, hfree, hfreed, hinv⟩ := kmemCacheFree_spec h.inv ho (hres o ho)
  have hlisted := (h.inv.live o ho).1
  refine ⟨_, _, _, hfree, h.freed hres ho hclear hfreed hinv, ?_, ?_⟩
  · cases hfreed with
    | last =>
        rw [KmemCache.listed_unlink h.inv.nodup]
        exact List.perm_cons_erase hlisted
    | first => exact (KmemCache.perm_moveToPartial h.inv.nodup hlisted).symm
    | more => exact List.Perm.refl _
  · cases hfreed with
    | last | first => exact fun a => List.mem_of_mem_erase
    | more => exact fun a => id

end SlabAccounts

end Tenok
