import Tenok.Mm.SlabPages

/-!
What a cache takes from the page allocator and what it gives back when all its objects are
freed. `kmem_cache_grow` takes pages of the order of the cache, `slab_destroy` returns
single pages.
-/
namespace Tenok
open Runs

namespace SlabSys
variable {cfg : PageSizeSelect} {c : KmemCache} {s s' : SlabSys} {others : List (Word × Nat)}
  {L : PageLayout cfg} {slabs : Slabs} {pages : PageState} {n : Nat}

/-- After `n` allocations the frees of all objects, in any order, return each page with the
order it was taken with, and the bitmaps are what they were. -/
def GivesBack (cfg : PageSizeSelect) (start : Word) (c : KmemCache) (slabs : Slabs)
    (pages : PageState) (n : Nat) : Prop :=
  ∃ s, exec (SlabSys.step cfg start) (slabSysBoot c slabs pages) (List.replicate n .alloc) = some s ∧
    ∀ objs : List Word, objs.Perm (s.state.live.map SlabObj.obj) →
      ∃ s', exec (SlabSys.step cfg start) s (objs.map .free) = some s' ∧
        s'.taken.Perm s'.returned ∧ s'.pages.maps = pages.maps

def NoPage (cfg : PageSizeSelect) (start : Word) (pages : PageState) (order : Nat) : Prop :=
  ∀ idx, pageSpan start order idx ⊆ pageRegion cfg start →
    ∃ l ∈ pages.live, ¬ Disjoint (pageSpan start order idx) (allocSpan start l)

section Single

theorem Sound.nodup_objs (hs : s.Sound L c others) (hc : Single c) :
    (s.state.live.map SlabObj.obj).Nodup := by
  refine List.pairwise_map.mpr (hs.accounts.distinct.imp_of_mem fun {o o'} ho ho' hne heq => ?_)
  obtain ⟨hslab, hbit, -⟩ := hc.resolves hs.accounts.inv o ho
  obtain ⟨hslab', hbit', -⟩ := hc.resolves hs.accounts.inv o' ho'
  rw [heq] at hslab hbit
  exact hne (hslab.symm.trans hslab') (hbit.symm.trans hbit')

theorem Sound.allocs (hs : s.Sound L c others) (hc : Single c) (hfree : s.state.cache.slabsFree = [])
    (hroom : c.objnum ≤ 32 ∨ s.state.live.length + n ≤ 32) :
    ∃ s', exec (SlabSys.step cfg L.start) s (List.replicate n .alloc) = some s' ∧
      s'.Sound L c others ∧ s'.state.cache.slabsFree = [] := by
  induction n generalizing s with
  | zero => exact ⟨s, rfl, hs, hfree⟩
  | succ n ih =>
      obtain ⟨s₁, hstep, hs₁, hsub, hlen⟩ := hs.alloc hc (hroom.imp_right fun h => by omega)
      have hfree₁ : s₁.state.cache.slabsFree = [] :=
        List.eq_nil_iff_forall_not_mem.mpr fun a ha => by simpa [hfree] using hsub a ha
      obtain ⟨s', hrun, hs'⟩ := ih hs₁ hfree₁ (hroom.imp_right fun h => by omega)
      exact ⟨s', by simp only [List.replicate_succ, exec, hstep, Option.bind_some, hrun], hs'⟩

theorem Sound.frees {objs : List Word} (hs : s.Sound L c others) (hc : Single c)
    (hfree : s.state.cache.slabsFree = []) (hobjs : objs.Perm (s.state.live.map SlabObj.obj)) :
    ∃ s', exec (SlabSys.step cfg L.start) s (objs.map .free) = some s' ∧ s'.Sound L c others ∧
      s'.state.cache.slabsFree = [] ∧ s'.state.live = [] := by
  induction objs generalizing s with
  | nil => exact ⟨s, rfl, hs, hfree, List.map_eq_nil_iff.mp hobjs.symm.eq_nil⟩
  | cons obj objs ih =>
      obtain ⟨s₁, hstep, hs₁, hsub, hlive⟩ :=
        hs.free hc (hobjs.mem_iff.mp List.mem_cons_self)
      have hfree₁ : s₁.state.cache.slabsFree = [] :=
        List.eq_nil_iff_forall_not_mem.mpr fun a ha => by simpa [hfree] using hsub a ha
      have hrest : objs.Perm (s₁.state.live.map SlabObj.obj) := by
        have herase := hobjs.erase obj
        rw [List.erase_cons_head, (hs.nodup_objs hc).erase_eq_filter] at herase
        rw [hlive]
        refine herase.trans (List.Perm.of_eq ?_)
        rw [List.filter_map]
        exact congrArg _ (List.filter_congr fun o _ => by by_cases h : o.obj = obj <;> simp [h])
      obtain ⟨s', hrun, hs'⟩ := ih hs₁ hfree₁ hrest
      exact ⟨s', by simp only [List.map_cons, exec, hstep, Option.bind_some, hrun], hs'⟩

theorem Sound.listed_nil (hs : s.Sound L c others) (hc : Single c)
    (hfree : s.state.cache.slabsFree = []) (hlive : s.state.live = []) :
    s.state.cache.listed = [] := by
  refine List.eq_nil_iff_forall_not_mem.mpr fun a ha => ?_
  have hnone : usedSet (s.state.slabs a).freeBitmap = ∅ := by
    refine Finset.eq_empty_iff_forall_notMem.mpr fun i hi => ?_
    obtain ⟨o, ho, -⟩ := hs.accounts.used a ha i (mem_usedSet.mp hi)
    rw [hlive] at ho
    cases ho
  have hacc := hs.accounted hc
  have hcount := hacc.count a ha
  rw [hnone, Finset.card_empty, Nat.cast_zero, Int.sub_zero] at hcount
  have hmem := (hacc.free a ha).mpr hcount
  rw [hfree] at hmem
  cases hmem

theorem givesBack_of_single (hc : Single c) (hlisted : c.listed = []) (hpages : PageInv cfg pages)
    (hroom : c.objnum ≤ 32 ∨ n ≤ 32) : GivesBack cfg L.start c slabs pages n := by
  have hnil : c.slabsFree = [] := by
    simp only [KmemCache.listed, List.append_eq_nil_iff] at hlisted
    exact hlisted.1.1
  have hboot : (slabSysBoot c slabs pages).Sound L c pages.live := Sound.boot hlisted slabs hpages
  obtain ⟨s, hrun, hs, hfree⟩ := hboot.allocs hc hnil (hroom.imp_right fun h => by
    simpa [slabSysBoot, slabBoot] using h)
  refine ⟨s, hrun, fun objs hobjs => ?_⟩
  obtain ⟨s', hrun', hs', hfree', hlive⟩ := hs.frees hc hfree hobjs
  have hempty := hs'.listed_nil hc hfree' hlive
  refine ⟨s', hrun', ?_, hs'.pages.maps_eq hpages ?_⟩
  · simpa [hempty] using hs'.ledger
  · simpa [slabPages, hempty] using hs'.owned

end Single

section Null

theorem alloc_of_noPage (hlisted : c.listed = []) (hpages : PageInv cfg pages)
    (hnone : NoPage cfg L.start pages c.pageOrder) :
    (slabSysBoot c slabs pages).step cfg L.start .alloc = some (slabSysBoot c slabs pages) := by
  simp only [KmemCache.listed, List.append_eq_nil_iff] at hlisted
  obtain ⟨⟨hfree, hpartly⟩, -⟩ := hlisted
  obtain ⟨maps, hnull⟩ := (allocPages_null_iff L hpages c.pageOrder).mpr (Or.inr hnone)
  obtain ⟨held, hrep, -⟩ := hpages
  obtain ⟨hsame, -⟩ | ⟨-, maps', idx, hsome, -⟩ := allocPages_spec hrep L.start c.pageOrder
  · simp [SlabSys.step, SlabSys.takePage, slabSysBoot, slabBoot, pageStep, hfree, hpartly, hsame,
      slabStep, kmemCacheAlloc, slabToUse]
  · cases hnull.symm.trans hsome

theorem givesBack_of_noPage (hlisted : c.listed = []) (hpages : PageInv cfg pages)
    (hnone : NoPage cfg L.start pages c.pageOrder) : GivesBack cfg L.start c slabs pages n := by
  have hrun : exec (SlabSys.step cfg L.start) (slabSysBoot c slabs pages) (List.replicate n .alloc) =
      some (slabSysBoot c slabs pages) := by
    induction n with
    | zero => rfl
    | succ n ih =>
        rw [List.replicate_succ, exec, alloc_of_noPage hlisted hpages hnone, Option.bind_some, ih]
  refine ⟨_, hrun, fun objs hobjs => ?_⟩
  obtain rfl : objs = [] := hobjs.eq_nil
  exact ⟨_, rfl, List.Perm.refl _, rfl⟩

end Null

section Taken

/-- The page was taken, and only single pages were returned. -/
def Marked (t : Word × Nat) (s : SlabSys) : Prop := t ∈ s.taken ∧ ∀ r ∈ s.returned, r.2 = 0

theorem takePage_taken {start : Word} {page : Option Word}
    (h : s.takePage cfg start = some (s', page)) :
    s'.taken = page.toList.map (·, s.state.cache.pageOrder) ++ s.taken ∧
      s'.returned = s.returned := by
  obtain ⟨⟨pages, offset⟩, -, heq⟩ := Option.bind_eq_some_iff.mp h
  obtain ⟨rfl, rfl⟩ := Prod.mk.inj (Option.some.inj heq)
  exact ⟨rfl, rfl⟩

theorem Marked.step {start : Word} {t : Word × Nat} {e : SlabEvent} (h : s.Marked t)
    (hstep : s.step cfg start e = some s') : s'.Marked t := by
  cases e with
  | alloc =>
      rw [SlabSys.step] at hstep
      split at hstep
      · obtain ⟨⟨s₁, page⟩, htake, hstep⟩ := Option.bind_eq_some_iff.mp hstep
        obtain ⟨state, -, heq⟩ := Option.bind_eq_some_iff.mp hstep
        obtain rfl := Option.some.inj heq
        obtain ⟨htaken, hreturned⟩ := takePage_taken htake
        exact ⟨htaken ▸ List.mem_append_right _ h.1, hreturned ▸ h.2⟩
      · obtain ⟨state, -, rfl⟩ := Option.map_eq_some_iff.mp hstep
        exact h
  | free obj =>
      obtain ⟨⟨cache, slabs, page⟩, -, hstep⟩ := Option.bind_eq_some_iff.mp hstep
      cases page with
      | none =>
          obtain rfl := Option.some.inj hstep
          exact h
      | some page =>
          obtain ⟨⟨pages, ret⟩, -, heq⟩ := Option.bind_eq_some_iff.mp hstep
          obtain rfl := Option.some.inj heq
          exact ⟨h.1, List.forall_mem_cons.mpr ⟨rfl, h.2⟩⟩
  | grow =>
      obtain ⟨⟨s₁, page⟩, htake, hstep⟩ := Option.bind_eq_some_iff.mp hstep
      obtain ⟨htaken, hreturned⟩ := takePage_taken htake
      have hmarked : s₁.Marked t := ⟨htaken ▸ List.mem_append_right _ h.1, hreturned ▸ h.2⟩
      cases page <;>
        · obtain rfl := Option.some.inj hstep
          exact hmarked
  | page op =>
      obtain ⟨⟨pages, ret⟩, -, rfl⟩ := Option.map_eq_some_iff.mp hstep
      exact h

theorem Marked.exec {start : Word} {t : Word × Nat} {es : List SlabEvent} (h : s.Marked t)
    (hrun : Runs.exec (SlabSys.step cfg start) s es = some s') : s'.Marked t :=
  exec_keeps (fun _ _ _ h hstep => h.step hstep) h hrun

theorem takePage_boot (slabs : Slabs) (hpages : PageInv cfg pages) (hsome : ¬ NoPage cfg L.start pages c.pageOrder)
    (horder : c.pageOrder ≤ pageOrderMax cfg) :
    ∃ page pages', (slabSysBoot c slabs pages).takePage cfg L.start =
        some ({ slabSysBoot c slabs pages with pages := pages', taken := [(page, c.pageOrder)] },
          some page) ∧ 2 ^ (c.pageOrder + 8) ∣ page.toNat := by
  obtain ⟨pages', offset, hstep, hinv⟩ :=
    pageStep_spec L.aligned hpages (show PageOp.Valid pages (.alloc c.pageOrder) from trivial)
  have hlive := pageStep_alloc_live hstep
  cases offset with
  | none =>
      simp only [pageStep, Option.bind_eq_bind, Option.bind_eq_some_iff] at hstep
      obtain ⟨⟨maps, addr⟩, halloc, hstep⟩ := hstep
      cases addr with
      | none =>
          refine absurd ?_ hsome
          exact ((allocPages_null_iff L hpages c.pageOrder).mp ⟨maps, halloc⟩).resolve_left
            (Nat.not_lt.mpr horder)
      | some addr => simp at hstep
  | some offset =>
      refine ⟨L.start + offset, pages', ?_, ?_⟩
      · simp [SlabSys.takePage, slabSysBoot, slabBoot, hstep]
      · exact hinv.aligned L (l := (offset, c.pageOrder)) (by simp [hlive])

theorem step_alloc_of_empty {start : Word} (hlisted : c.listed = []) :
    (slabSysBoot c slabs pages).step cfg start .alloc =
      ((slabSysBoot c slabs pages).takePage cfg start).bind fun (s, page) =>
        (slabStep s.state (.alloc page)).bind fun state => some { s with state } := by
  simp only [KmemCache.listed, List.append_eq_nil_iff] at hlisted
  exact if_pos ⟨hlisted.1.2, hlisted.1.1⟩

theorem not_givesBack_of_order (hlisted : c.listed = []) (hpages : PageInv cfg pages)
    (hsome : ¬ NoPage cfg L.start pages c.pageOrder) (horder : c.pageOrder ≤ pageOrderMax cfg)
    (hpos : c.pageOrder ≠ 0) (hn : n ≠ 0) : ¬ GivesBack cfg L.start c slabs pages n := by
  rintro ⟨s, hrun, hall⟩
  obtain ⟨m, rfl⟩ := Nat.exists_eq_succ_of_ne_zero hn
  obtain ⟨page, pages', htake, -⟩ := takePage_boot slabs hpages hsome horder
  obtain ⟨s₁, hstep, hrest⟩ := Option.bind_eq_some_iff.mp hrun
  rw [step_alloc_of_empty hlisted, htake, Option.bind_some] at hstep
  obtain ⟨state, -, heq⟩ := Option.bind_eq_some_iff.mp hstep
  obtain rfl := Option.some.inj heq
  have hmarked : Marked (page, c.pageOrder)
      { slabSysBoot c slabs pages with state, pages := pages', taken := [(page, c.pageOrder)] } :=
    ⟨List.mem_singleton_self _, by simp [slabSysBoot]⟩
  obtain ⟨s', hrun', hperm, -⟩ := hall _ (List.Perm.refl _)
  obtain ⟨hmem, hzero⟩ := (hmarked.exec hrest).exec hrun'
  exact hpos (hzero _ (hperm.mem_iff.mp hmem))

theorem fill_allocs (slabs : Slabs) {k : Nat} (hlisted : c.listed = []) (hpages : PageInv cfg pages)
    (hsome : ¬ NoPage cfg L.start pages c.pageOrder) (horder : c.pageOrder ≤ pageOrderMax cfg)
    (hk : k < 32) (hnum : k + 1 < c.objnum) :
    ∃ s page, exec (SlabSys.step cfg L.start) (slabSysBoot c slabs pages)
      (List.replicate (k + 1) .alloc) = some s ∧ Filling c page (k + 1) s.state := by
  induction k with
  | zero =>
      obtain ⟨page, pages', htake, haligned⟩ := takePage_boot slabs hpages hsome horder
      obtain ⟨state, hrun, -, hfill⟩ := fill_run hlisted haligned slabs hk hnum
      have hstep : slabStep (slabBoot c slabs) (.alloc (some page)) = some state := by
        simpa [fillOps, exec] using hrun
      refine ⟨{ slabSysBoot c slabs pages with
        state, pages := pages', taken := [(page, c.pageOrder)] }, page, ?_, hfill⟩
      rw [List.replicate_one, exec, step_alloc_of_empty hlisted, htake, Option.bind_some]
      simp only [slabSysBoot, hstep, Option.bind_some]
      rfl
  | succ k ih =>
      obtain ⟨s, page, hrun, hfill⟩ := ih (by omega) (by omega)
      obtain ⟨state, hstep, -, hmore⟩ := hfill.step hk (by omega)
      refine ⟨{ s with state }, page, ?_, hmore hnum⟩
      rw [List.replicate_succ', exec_append, hrun, Option.bind_some, exec, SlabSys.step,
        if_neg (by simp [hfill.cache]), hstep]
      rfl

theorem not_givesBack_of_full (hlisted : c.listed = []) (hpages : PageInv cfg pages)
    (hsome : ¬ NoPage cfg L.start pages c.pageOrder) (horder : c.pageOrder ≤ pageOrderMax cfg)
    (hnum : 32 < c.objnum) (hn : 32 < n) : ¬ GivesBack cfg L.start c slabs pages n := by
  rintro ⟨s, hrun, -⟩
  obtain ⟨s₃₂, page, hfirst, hfill⟩ :=
    fill_allocs slabs hlisted hpages hsome horder (show 31 < 32 by decide) hnum
  obtain ⟨m, rfl⟩ := Nat.exists_eq_add_of_lt hn
  rw [Nat.add_assoc, List.replicate_add, exec_append, hfirst, Option.bind_some, List.replicate_succ,
    exec, SlabSys.step, if_neg (by simp [hfill.cache]), hfill.overflow hnum] at hrun
  cases hrun

end Taken

/-- The pages of a cache that `kmem_cache_create` made come back exactly if nothing was
allocated, if no page could be had, or if the objects are of at most 120 bytes and no more
than 32 of them in a slab. -/
theorem givesBack_iff (L : PageLayout cfg) {size : Word} {mem : Option Word}
    (hcreate : kmemCacheCreate cfg size mem = some (some c)) (slabs : Slabs) {ops : List PageOp}
    {rets : List (Option Word)} (hops : ValidOps cfg L.start (pageInit cfg) ops)
    (hrun : pageRun cfg L.start (pageInit cfg) ops = some (pages, rets)) (n : Nat) :
    GivesBack cfg L.start c slabs pages n ↔
      n = 0 ∨ NoPage cfg L.start pages c.pageOrder ∨
        (size.toNat ≤ 120 ∧ (8 ≤ size.toNat ∨ n ≤ 32)) := by
  obtain ⟨hlisted, hsize, o, rfl, hmax, hleast, hnum, htwo⟩ := kmemCacheCreate_spec hcreate
  obtain ⟨pages', rets', hrun', hpages⟩ := pageRun_spec L.aligned ops (pageInv_init cfg) hops
  obtain ⟨rfl, rfl⟩ := Prod.mk.inj (Option.some.inj (hrun.symm.trans hrun'))
  have hpos : 0 < size.toNat := by
    by_contra hzero
    rw [Nat.eq_zero_of_not_pos hzero, Nat.div_zero] at hnum
    omega
  constructor
  · intro h
    by_cases hn : n = 0
    · exact Or.inl hn
    by_cases hsome : NoPage cfg L.start pages c.pageOrder
    · exact Or.inr (Or.inl hsome)
    have hzero : c.pageOrder = 0 := by
      by_contra hne
      exact not_givesBack_of_order hlisted hpages hsome hmax hne hn h
    rw [hzero] at hnum
    have hle : 2 * size.toNat ≤ 2 ^ (0 + 8) - 16 := by
      rwa [hnum, Nat.le_div_iff_mul_le hpos] at htwo
    refine Or.inr (Or.inr ⟨by omega, ?_⟩)
    by_contra hlarge
    have hmany : 33 ≤ c.objnum := by
      rw [hnum, Nat.le_div_iff_mul_le hpos]
      omega
    exact not_givesBack_of_full hlisted hpages hsome hmax hmany (by omega) h
  · rintro (rfl | hnone | ⟨hle, hroom⟩)
    · refine ⟨_, rfl, fun objs hobjs => ?_⟩
      obtain rfl : objs = [] := hobjs.eq_nil
      exact ⟨_, rfl, List.Perm.refl _, rfl⟩
    · exact givesBack_of_noPage hlisted hpages hnone
    · have hzero : c.pageOrder = 0 := by
        by_contra hne
        have hpow : 2 ^ 8 ≤ 2 ^ (c.pageOrder + 7) := Nat.pow_le_pow_right (by decide) (by omega)
        obtain h | h | h := hleast <;> omega
      rw [hzero] at hnum
      have hfits : c.objnum * size.toNat ≤ 2 ^ (0 + 8) - 16 := hnum ▸ Nat.div_mul_le_self ..
      refine givesBack_of_single ⟨hzero, htwo, by omega, by rw [hsize]; omega⟩ hlisted hpages
        (hroom.imp_left fun hlow => ?_)
      by_contra hmany
      have hmul : 33 * 8 ≤ c.objnum * size.toNat := Nat.mul_le_mul (by omega) hlow
      omega

theorem givesBack_iff_at_32 :
    GivesBack .size64K ramLayout.start cache32 (fun _ => ⟨[0#32], 0⟩) (pageInit .size64K) 10 :=
  (givesBack_iff ramLayout
    (by decide +kernel : kmemCacheCreate .size64K 32 (some 0x20000110) = some (some cache32)) _
    (show ValidOps .size64K ramLayout.start (pageInit .size64K) [] from trivial) rfl 10).mpr
    (Or.inr (Or.inr ⟨by decide, by decide⟩))

/-- A cache for objects of 128 bytes has pages of 512 bytes, of which it returns 256. -/
theorem givesBack_not_for_128 :
    kmemCacheCreate .size64K 128 (some 0x20000110) = some (some cache128) ∧
      ¬ GivesBack .size64K ramLayout.start cache128 (fun _ => ⟨[0#32], 0⟩) (pageInit .size64K) 1 := by
  refine ⟨by decide +kernel, not_givesBack_of_order rfl (pageInv_init .size64K) (fun hnone => ?_)
    (by decide) (by decide) (by decide)⟩
  have hsub : pageSpan ramLayout.start 1 0 ⊆ pageRegion .size64K ramLayout.start :=
    Set.Ico_subset_Ico (by decide) (by decide)
  obtain ⟨l, hl, -⟩ := hnone 0 hsub
  cases hl

end SlabSys

end Tenok
