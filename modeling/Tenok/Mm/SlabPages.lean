import Tenok.Mm.PageRuns
import Tenok.Mm.SlabAccounts

/-!
An object cache on top of the page allocator, which serves others at the same time. The
cache takes its pages with `alloc_pages` at its own order, and `slab_destroy` returns them.
-/
namespace Tenok
open Runs

/-- A cache and the page allocator, with the pages that the cache has taken and returned
so far and their orders. -/
structure SlabSys where
  state : SlabState
  pages : PageState
  taken : List (Word × Nat)
  returned : List (Word × Nat)

inductive SlabEvent
  | alloc
  | free (obj : Word)
  /-- `kmem_cache_grow` as `kmem_cache_init` calls it. -/
  | grow
  /-- Somebody else takes or returns pages. -/
  | page (op : PageOp)

def slabSysBoot (c : KmemCache) (slabs : Slabs) (pages : PageState) : SlabSys :=
  ⟨slabBoot c slabs, pages, [], []⟩

namespace SlabSys

/-- `alloc_pages(cache->page_order)`. -/
def takePage (cfg : PageSizeSelect) (start : Word) (s : SlabSys) :
    Option (SlabSys × Option Word) := do
  let order := s.state.cache.pageOrder
  let (pages, offset) ← pageStep cfg start s.pages (.alloc order)
  let page := offset.map (start + ·)
  some ({ s with pages, taken := page.toList.map (·, order) ++ s.taken }, page)

def step (cfg : PageSizeSelect) (start : Word) (s : SlabSys) : SlabEvent → Option SlabSys
  | .alloc =>
      if s.state.cache.slabsPartial = [] ∧ s.state.cache.slabsFree = [] then do
        let (s, page) ← s.takePage cfg start
        let state ← slabStep s.state (.alloc page)
        some { s with state }
      else (slabStep s.state (.alloc none)).map fun state => { s with state }
  | .free obj => do
      let (cache, slabs, page) ← kmemCacheFree s.state.cache s.state.slabs obj
      let s := { s with state := ⟨cache, slabs, s.state.live.filter fun o => o.obj ≠ obj⟩ }
      match page with
      | none => some s
      | some page => do
          let (pages, _) ← pageStep cfg start s.pages (.free (page - start) 0)
          some { s with pages, returned := (page, 0) :: s.returned }
  | .grow => do
      let (s, page) ← s.takePage cfg start
      match page with
      | none => some s
      | some page =>
          let (cache, slabs) := kmemCacheGrow s.state.cache s.state.slabs page
          some { s with state := ⟨cache, slabs, s.state.live⟩ }
  | .page op => (pageStep cfg start s.pages op).map fun (pages, _) => { s with pages }

/-- Who frees an object or a page has it; the others have no page of the cache. -/
def Valid (start : Word) (s : SlabSys) : SlabEvent → Prop
  | .free obj => obj ∈ s.state.live.map SlabObj.obj
  | .page (.free offset order) =>
      (offset, order) ∈ s.pages.live ∧ start + offset ∉ s.state.cache.listed
  | .alloc | .grow | .page (.alloc _) => True

instance decidableValid (start : Word) (s : SlabSys) : (e : SlabEvent) → Decidable (Valid start s e)
  | .free obj => inferInstanceAs (Decidable (obj ∈ _))
  | .page (.free _ _) => inferInstanceAs (Decidable (_ ∧ _))
  | .alloc | .grow | .page (.alloc _) => inferInstanceAs (Decidable True)

def slabPages (start : Word) (c : KmemCache) : List (Word × Nat) :=
  c.listed.map fun a => (a - start, 0)

variable {cfg : PageSizeSelect} {c : KmemCache} {s : SlabSys} {others : List (Word × Nat)}

/-- The cache has its pages, others have theirs, and what the cache has taken is still
listed or was returned. -/
structure Sound (L : PageLayout cfg) (c : KmemCache) (others : List (Word × Nat)) (s : SlabSys) :
    Prop where
  accounts : SlabAccounts c s.state ∅
  pages : PageInv cfg s.pages
  owned : s.pages.live.Perm (slabPages L.start s.state.cache ++ others)
  ledger : s.taken.Perm ((s.state.cache.listed.map fun a => (a, 0)) ++ s.returned)

/-- The slabs of the cache are single pages of 256 bytes. -/
structure Single (c : KmemCache) : Prop where
  pageOrder : c.pageOrder = 0
  two : 2 ≤ c.objnum
  size : 0 < c.objsize
  fits : 16 + c.objnum * c.objsize ≤ 256

theorem obj_end_le {bit : Nat} (hbit : bit < c.objnum) :
    bit * c.objsize + c.objsize ≤ c.objnum * c.objsize := by
  rw [← Nat.succ_mul]
  exact Nat.mul_le_mul_right _ hbit

theorem Single.resolves {state : SlabState} (hc : Single c) (h : SlabInv c state) :
    ∀ o ∈ state.live, Resolves c o := by
  intro o ho
  obtain ⟨hslab, hbit, hset, hobj⟩ := h.live o ho
  have hmul := obj_end_le hbit
  have hfits := hc.fits
  have hsize := hc.size
  have hword := testBit_lt hset
  rw [h.bitmap _ hslab] at hword
  have hres := resolves_of_lt (h.aligned _ hslab) hc.size (by omega) hword (by omega)
  rwa [← hobj] at hres

namespace Sound
variable {L : PageLayout cfg}

theorem mem_owned (hs : s.Sound L c others) {a : Word} (ha : a ∈ s.state.cache.listed) :
    (a - L.start, 0) ∈ s.pages.live :=
  hs.owned.mem_iff.mpr (List.mem_append_left _ (List.mem_map.mpr ⟨a, ha, rfl⟩))

theorem takePage (hs : s.Sound L c others) (hc : Single c) :
    ∃ s' page, s.takePage cfg L.start = some (s', page) ∧ s'.state = s.state ∧
      s'.returned = s.returned ∧ PageInv cfg s'.pages ∧ SlabOp.Valid s.state (.alloc page) ∧
      s'.pages.live = (page.toList.map fun a => (a - L.start, 0)) ++ s.pages.live ∧
      s'.taken = (page.toList.map fun a => (a, 0)) ++ s.taken := by
  have horder : s.state.cache.pageOrder = 0 := hs.accounts.inv.pageOrder.trans hc.pageOrder
  obtain ⟨pages, offset, hstep, hinv⟩ :=
    pageStep_spec L.aligned hs.pages (show PageOp.Valid s.pages (.alloc 0) from trivial)
  have hlive := pageStep_alloc_live hstep
  have htake : s.takePage cfg L.start = some
      ({ s with pages, taken := (offset.map (L.start + ·)).toList.map (·, 0) ++ s.taken },
        offset.map (L.start + ·)) := by
    simp only [SlabSys.takePage, hstep, horder, Option.bind_eq_bind, Option.bind_some]
  refine ⟨_, _, htake, rfl, rfl, hinv, ?_, ?_, rfl⟩
  · cases offset with
    | none => trivial
    | some offset =>
        have hcancel : L.start + offset - L.start = offset := by
          rw [BitVec.add_comm, BitVec.add_sub_cancel]
        have hmem : (offset, 0) ∈ pages.live := by simp [hlive]
        have hnodup := hinv.live_nodup L
        refine ⟨by simpa [horder] using hinv.aligned L hmem, fun hlisted => ?_⟩
        have hold := hs.mem_owned hlisted
        rw [hcancel] at hold
        rw [hlive] at hnodup
        exact (List.nodup_cons.mp hnodup).1 hold
  · cases offset with
    | none => simpa using hlive
    | some offset =>
        have hcancel : L.start + offset - L.start = offset := by
          rw [BitVec.add_comm, BitVec.add_sub_cancel]
        simpa [hcancel] using hlive

theorem list_taken {s' : SlabSys} {state : SlabState} (hs : s.Sound L c others)
    (page : Option Word) (hreturned : s'.returned = s.returned) (hpages : PageInv cfg s'.pages)
    (hlive : s'.pages.live = (page.toList.map fun a => (a - L.start, 0)) ++ s.pages.live)
    (htaken : s'.taken = (page.toList.map fun a => (a, 0)) ++ s.taken)
    (haccounts : SlabAccounts c state ∅)
    (hperm : state.cache.listed.Perm (page.toList ++ s.state.cache.listed)) :
    ({ s' with state } : SlabSys).Sound L c others where
  accounts := haccounts
  pages := hpages
  owned := by
    have hmap := hperm.map fun a => (a - L.start, 0)
    rw [List.map_append] at hmap
    simp only [hlive]
    exact (hs.owned.append_left _).trans
      ((List.append_assoc ..).symm ▸ hmap.symm.append_right others)
  ledger := by
    have hmap := hperm.map fun a => (a, 0)
    rw [List.map_append] at hmap
    simp only [htaken, hreturned]
    exact (hs.ledger.append_left _).trans
      ((List.append_assoc ..).symm ▸ hmap.symm.append_right s.returned)

theorem alloc (hs : s.Sound L c others) (hc : Single c)
    (hroom : c.objnum ≤ 32 ∨ s.state.live.length < 32) :
    ∃ s', s.step cfg L.start .alloc = some s' ∧ s'.Sound L c others ∧
      (∀ a ∈ s'.state.cache.slabsFree, a ∈ s.state.cache.slabsFree) ∧
      s'.state.live.length ≤ s.state.live.length + 1 := by
  have hpos : 0 < c.objnum := Nat.lt_of_lt_of_le (by decide) hc.two
  by_cases hgrow : s.state.cache.slabsPartial = [] ∧ s.state.cache.slabsFree = []
  · obtain ⟨s', page, htake, hstate, hreturned, hpages, hvalid, hlive, htaken⟩ := hs.takePage hc
    obtain ⟨state, hstep, haccounts, hperm, hfree, hlen⟩ :=
      hs.accounts.alloc hpos hvalid hroom
    rw [SlabAccounts.newSlabs, if_pos hgrow] at hperm
    refine ⟨{ s' with state }, ?_,
      hs.list_taken _ hreturned hpages hlive htaken haccounts hperm, hfree, hlen⟩
    simp only [SlabSys.step, if_pos hgrow, htake, Option.bind_eq_bind, Option.bind_some, hstate,
      hstep]
  · obtain ⟨state, hstep, haccounts, hperm, hfree, hlen⟩ :=
      hs.accounts.alloc hpos (show SlabOp.Valid s.state (.alloc none) from trivial) hroom
    rw [SlabAccounts.newSlabs, if_neg hgrow] at hperm
    refine ⟨{ s with state }, by simp [SlabSys.step, if_neg hgrow, hstep], ?_, hfree, hlen⟩
    exact hs.list_taken none rfl hs.pages rfl rfl haccounts hperm

theorem free {obj : Word} (hs : s.Sound L c others) (hc : Single c)
    (hobj : obj ∈ s.state.live.map SlabObj.obj) :
    ∃ s', s.step cfg L.start (.free obj) = some s' ∧ s'.Sound L c others ∧
      (∀ a ∈ s'.state.cache.slabsFree, a ∈ s.state.cache.slabsFree) ∧
      s'.state.live = s.state.live.filter fun o => o.obj ≠ obj := by
  obtain ⟨o, ho, rfl⟩ := List.mem_map.mp hobj
  obtain ⟨cache, slabs, page, hfree, haccounts, hperm, hsub⟩ :=
    hs.accounts.free_obj (hc.resolves hs.accounts.inv) ho
  cases page with
  | none =>
      refine ⟨{ s with state := ⟨cache, slabs, s.state.live.filter fun o' => o'.obj ≠ o.obj⟩ },
        by simp [SlabSys.step, hfree], ⟨haccounts, hs.pages, ?_, ?_⟩, hsub, rfl⟩
      · exact hs.owned.trans ((hperm.map _).append_right _)
      · exact hs.ledger.trans ((hperm.map _).append_right _)
  | some page =>
      have hmap := hperm.map fun a => (a - L.start, 0)
      have hlisted : page ∈ s.state.cache.listed := hperm.mem_iff.mpr List.mem_cons_self
      obtain ⟨pages, ret, hstep, hinv⟩ := pageStep_spec L.aligned hs.pages
        (show PageOp.Valid s.pages (.free (page - L.start) 0) from hs.mem_owned hlisted)
      refine ⟨_, by
          simp only [SlabSys.step, hfree, hstep, Option.bind_eq_bind, Option.bind_some]; rfl,
        ⟨haccounts, hinv, ?_, ?_⟩, hsub, rfl⟩
      · simp only [pageStep_free_live hstep]
        have howned := hs.owned.trans (hmap.append_right others)
        simpa [slabPages] using howned.erase (page - L.start, 0)
      · have hledger := hs.ledger.trans ((hperm.map fun a => (a, 0)).append_right s.returned)
        exact hledger.trans List.perm_middle.symm

theorem grow (hs : s.Sound L c others) (hc : Single c) :
    ∃ s', s.step cfg L.start .grow = some s' ∧ s'.Sound L c others := by
  have hpos : 0 < c.objnum := Nat.lt_of_lt_of_le (by decide) hc.two
  obtain ⟨s', page, htake, hstate, hreturned, hpages, hvalid, hlive, htaken⟩ := hs.takePage hc
  cases page with
  | none =>
      have hlist := hs.list_taken none hreturned hpages hlive htaken hs.accounts
        (List.Perm.refl _)
      rw [← hstate] at hlist
      exact ⟨s', by simp [SlabSys.step, htake], hlist⟩
  | some page =>
      have hgrow := hs.accounts.grow hpos hvalid
      exact ⟨_, by simp [SlabSys.step, htake, hstate],
        hs.list_taken _ hreturned hpages hlive htaken hgrow (KmemCache.perm_grow _ s.state.slabs page)⟩

theorem page {op : PageOp} (hs : s.Sound L c others) (hvalid : Valid L.start s (.page op)) :
    ∃ s' others', s.step cfg L.start (.page op) = some s' ∧ s'.Sound L c others' := by
  have hop : op.Valid s.pages := by
    cases op with
    | alloc order => trivial
    | free offset order => exact hvalid.1
  obtain ⟨pages, ret, hstep, hinv⟩ := pageStep_spec L.aligned hs.pages hop
  have hnext : s.step cfg L.start (.page op) = some { s with pages } := by
    simp [SlabSys.step, hstep]
  cases op with
  | alloc order =>
      refine ⟨_, ret.toList.map (·, order) ++ others, hnext, hs.accounts, hinv, ?_, hs.ledger⟩
      simp only [pageStep_alloc_live hstep]
      refine (hs.owned.append_left _).trans ?_
      rw [← List.append_assoc, ← List.append_assoc]
      exact List.perm_append_comm.append_right others
  | free offset order =>
      refine ⟨_, others.erase (offset, order), hnext, hs.accounts, hinv, ?_, hs.ledger⟩
      have hnot : (offset, order) ∉ slabPages L.start s.state.cache := fun hmem => by
        obtain ⟨a, ha, heq⟩ := List.mem_map.mp hmem
        obtain ⟨rfl, rfl⟩ := Prod.mk.inj heq
        have hcancel : L.start + (a - L.start) = a := by
          rw [BitVec.add_comm, BitVec.sub_add_cancel]
        exact hvalid.2 (by rwa [hcancel])
      simp only [pageStep_free_live hstep]
      rw [← List.erase_append_right _ hnot]
      exact hs.owned.erase _

theorem step {e : SlabEvent} (hc : Single c) (hsmall : c.objnum ≤ 32)
    (hs : ∃ others, s.Sound L c others) (hvalid : Valid L.start s e) :
    ∃ s', s.step cfg L.start e = some s' ∧ ∃ others, s'.Sound L c others := by
  obtain ⟨others, hs⟩ := hs
  cases e with
  | alloc =>
      obtain ⟨s', hstep, hs', -⟩ := hs.alloc hc (Or.inl hsmall)
      exact ⟨s', hstep, others, hs'⟩
  | free obj =>
      obtain ⟨s', hstep, hs', -⟩ := hs.free hc hvalid
      exact ⟨s', hstep, others, hs'⟩
  | grow =>
      obtain ⟨s', hstep, hs'⟩ := hs.grow hc
      exact ⟨s', hstep, others, hs'⟩
  | page op =>
      obtain ⟨s', others', hstep, hs'⟩ := hs.page hvalid
      exact ⟨s', hstep, others', hs'⟩

theorem boot {pages : PageState} (hlisted : c.listed = []) (slabs : Slabs)
    (hpages : PageInv cfg pages) : (slabSysBoot c slabs pages).Sound L c pages.live where
  accounts := SlabAccounts.boot hlisted slabs
  pages := hpages
  owned := by simp [slabSysBoot, slabBoot, slabPages, hlisted]
  ledger := by simp [slabSysBoot, slabBoot, hlisted]

end Sound

/-- Every object, bitmap, counter and list of a cache agree, and so do the pages. -/
structure Accounted (start : Word) (s : SlabSys) : Prop where
  disjoint : s.state.live.Pairwise fun o o' =>
    o.obj.toNat + s.state.cache.objsize ≤ o'.obj.toNat ∨
      o'.obj.toNat + s.state.cache.objsize ≤ o.obj.toNat
  inside : ∀ o ∈ s.state.live, o.slab ∈ s.state.cache.listed ∧
    o.slab.toNat + 16 ≤ o.obj.toNat ∧ o.obj.toNat + s.state.cache.objsize ≤ o.slab.toNat + 256
  count : ∀ a ∈ s.state.cache.listed, (s.state.slabs a).freeObjects =
    (s.state.cache.objnum : Int) - (usedSet (s.state.slabs a).freeBitmap).card
  nodup : s.state.cache.listed.Nodup
  full : ∀ a ∈ s.state.cache.listed,
    (a ∈ s.state.cache.slabsFull ↔ (s.state.slabs a).freeObjects = 0)
  partly : ∀ a ∈ s.state.cache.listed, (a ∈ s.state.cache.slabsPartial ↔
    1 ≤ (s.state.slabs a).freeObjects ∧
      (s.state.slabs a).freeObjects ≤ (s.state.cache.objnum : Int) - 1)
  free : ∀ a ∈ s.state.cache.listed,
    (a ∈ s.state.cache.slabsFree ↔ (s.state.slabs a).freeObjects = s.state.cache.objnum)
  pages : ∀ a ∈ s.state.cache.listed, 2 ^ 8 ∣ a.toNat ∧ (a - start, 0) ∈ s.pages.live
  returned : s.taken.Perm ((s.state.cache.listed.map fun a => (a, 0)) ++ s.returned)

theorem Single.obj_toNat (hc : Single c) {slab : Word} {bit : Nat} (hslab : 2 ^ 8 ∣ slab.toNat)
    (hbit : bit < c.objnum) :
    (slabData slab + BitVec.ofNat 32 (bit * c.objsize)).toNat =
      slab.toNat + (16 + bit * c.objsize) := by
  have hmul := obj_end_le hbit
  have hfits := hc.fits
  have hsize := hc.size
  obtain ⟨q, hq⟩ := hslab
  have hlt := slab.isLt
  rw [BitVec.toNat_add, BitVec.toNat_add, BitVec.toNat_ofNat]
  simp only [BitVec.toNat_ofNat]
  omega

theorem Sound.accounted {L : PageLayout cfg} (hc : Single c) (hs : s.Sound L c others) :
    s.Accounted L.start := by
  have hinv := hs.accounts.inv
  have hapart := fun a => KmemCache.apart (a := a) hinv.nodup
  have htwo := hc.two
  have hinside : ∀ o ∈ s.state.live,
      o.obj.toNat = o.slab.toNat + (16 + o.bit * c.objsize) ∧ o.bit < c.objnum ∧
        o.slab ∈ s.state.cache.listed ∧ 2 ^ 8 ∣ o.slab.toNat := fun o ho => by
    obtain ⟨hslab, hbit, -, hobj⟩ := hinv.live o ho
    rw [hobj]
    exact ⟨hc.obj_toNat (hinv.aligned _ hslab) hbit, hbit, hslab, hinv.aligned _ hslab⟩
  have hlists : ∀ a ∈ s.state.cache.listed, (s.state.slabs a).freeObjects ≤ c.objnum :=
    fun a => SlabAccounts.freeObjects_le hinv
  have hfits := hc.fits
  refine ⟨hs.accounts.distinct.imp_of_mem fun {o o'} ho ho' hne => ?_, fun o ho => ?_, fun a ha => ?_,
    hinv.nodup, fun a ha => ⟨hs.accounts.full a, fun hzero => ?_⟩,
    fun a ha => ⟨fun hmem => ?_, fun hsome => ?_⟩, fun a ha => ⟨fun hmem => ?_, fun hall => ?_⟩,
    fun a ha => ⟨hinv.aligned a ha, hs.mem_owned ha⟩, hs.ledger⟩
  · obtain ⟨heq, hbit, -, hpage⟩ := hinside o ho
    obtain ⟨heq', hbit', -, hpage'⟩ := hinside o' ho'
    rw [hinv.objsize]
    have hend := obj_end_le hbit
    have hend' := obj_end_le hbit'
    by_cases hslab : o.slab = o'.slab
    · rw [hslab] at heq
      obtain hlt | hlt := Nat.lt_or_gt_of_ne (hne hslab)
      · have hstep : (o.bit + 1) * c.objsize ≤ o'.bit * c.objsize := Nat.mul_le_mul_right _ hlt
        rw [Nat.succ_mul] at hstep
        omega
      · have hstep : (o'.bit + 1) * c.objsize ≤ o.bit * c.objsize := Nat.mul_le_mul_right _ hlt
        rw [Nat.succ_mul] at hstep
        omega
    · have hapart : o.slab.toNat ≠ o'.slab.toNat := fun heq => hslab (BitVec.eq_of_toNat_eq heq)
      omega
  · obtain ⟨heq, hbit, hslab, -⟩ := hinside o ho
    have hend := obj_end_le hbit
    rw [hinv.objsize]
    exact ⟨hslab, by omega, by omega⟩
  · have hcard := card_freeSet_add_usedSet (s.state.slabs a).freeBitmap (n := c.objnum)
      fun i hi => by
        obtain ⟨o, ho, rfl, rfl⟩ := hs.accounts.used a ha i hi
        exact (hinv.live o ho).2.1
    rw [hinv.count a ha, hinv.objnum]
    omega
  · obtain hmem | hmem | hmem := KmemCache.mem_listed.mp ha
    · have := hinv.room a (Or.inl hmem)
      omega
    · have := hinv.room a (Or.inr hmem)
      omega
    · exact hmem
  · have hpos := hinv.room a (Or.inr hmem)
    have hlt := hs.accounts.partly a hmem (Set.notMem_empty a)
    rw [hinv.objnum]
    omega
  · rw [hinv.objnum] at hsome
    obtain hmem | hmem | hmem := KmemCache.mem_listed.mp ha
    · have := hs.accounts.free a hmem
      omega
    · exact hmem
    · have := hs.accounts.full a hmem
      omega
  · rw [hinv.objnum]
    exact hs.accounts.free a hmem
  · rw [hinv.objnum] at hall
    obtain hmem | hmem | hmem := KmemCache.mem_listed.mp ha
    · exact hmem
    · have := hs.accounts.partly a hmem (Set.notMem_empty a)
      omega
    · have := hs.accounts.full a hmem
      omega

/-- In every run of a cache whose slabs are single pages with 2 to 32 objects, from the
start of the system on and with everybody else taking and returning pages, each call
succeeds or gives `NULL` and the accounts agree. -/
theorem accounted_of_valid (L : PageLayout cfg) (hlisted : c.listed = []) (horder : c.pageOrder = 0)
    (hnum : c.objnum = (256 - 16) / c.objsize) (htwo : 2 ≤ c.objnum) (hmax : c.objnum ≤ 32)
    (slabs : Slabs) {es : List SlabEvent}
    (hok : AllOk (Valid L.start) (SlabSys.step cfg L.start)
      (slabSysBoot c slabs (pageInit cfg)) es) :
    ∃ s, exec (SlabSys.step cfg L.start) (slabSysBoot c slabs (pageInit cfg)) es = some s ∧
      s.Accounted L.start := by
  have hsize : 0 < c.objsize := by
    by_contra hzero
    rw [Nat.eq_zero_of_not_pos hzero, Nat.div_zero] at hnum
    omega
  have hfits : c.objnum * c.objsize ≤ 256 - 16 := hnum ▸ Nat.div_mul_le_self ..
  have hc : Single c := ⟨horder, htwo, hsize, by omega⟩
  obtain ⟨s, hrun, others, hs⟩ := exec_of_allOk
    (I := fun s => ∃ others, s.Sound L c others)
    (fun s e hs hvalid => Sound.step hc hmax hs hvalid)
    ⟨_, Sound.boot hlisted slabs (pageInv_init cfg)⟩ hok
  exact ⟨s, hrun, hs.accounted hc⟩

/-- `cache_caches`, for objects of `sizeof(struct kmem_cache)`. -/
def cacheCaches : KmemCache where
  slabsFree := []
  slabsPartial := []
  slabsFull := []
  objsize := 68
  objnum := (256 - 16) / 68
  pageOrder := 0

/-- The slab of `kmem_cache_init` becomes full, a second one comes and goes, and the first
one is returned in the end. -/
def cachesRun : List SlabEvent :=
  [.grow, .alloc, .page (.alloc 1), .alloc, .alloc, .alloc, .free 0x20000110,
    .page (.free 0x200 1), .free 0x20000054, .free 0x20000010, .free 0x20000098]

theorem accounted_of_valid_at_caches :
    ∃ s, exec (SlabSys.step .size64K ramLayout.start)
        (slabSysBoot cacheCaches (fun _ => ⟨[0#32], 0⟩) (pageInit .size64K)) cachesRun = some s ∧
      s.Accounted ramLayout.start :=
  accounted_of_valid ramLayout rfl rfl rfl (by decide) (by decide) _ (by decide +kernel)

end SlabSys

end Tenok
