import Mathlib.Order.CompletePartialOrder
import Mathlib.Order.Interval.Set.Basic
import Tenok.Mm.PageRefines

/-!
Whole histories of the page allocator. The calls of a history name addresses by
their offset from `_page_mem_start`, so that histories at different placements of
the page section can be compared; the state records which allocations are live.
-/
namespace Tenok
open Buddy

inductive PageOp
  | alloc (order : Nat)
  | free (offset : Word) (order : Nat)
deriving DecidableEq, Repr

structure PageState where
  maps : PageBitmap
  live : List (Word × Nat)
deriving DecidableEq, Repr

def pageInit (cfg : PageSizeSelect) : PageState := ⟨pageBitmapInit cfg, []⟩

/-- One call and the offset it returns, if any. -/
def pageStep (cfg : PageSizeSelect) (start : Word) (s : PageState) :
    PageOp → Option (PageState × Option Word)
  | .alloc order => do
      let (maps, addr) ← allocPages cfg start s.maps order
      match addr with
      | none => pure (⟨maps, s.live⟩, none)
      | some addr => pure (⟨maps, (addr - start, order) :: s.live⟩, some (addr - start))
  | .free offset order => do
      let maps ← freePages cfg start s.maps (start + offset) order
      pure (⟨maps, s.live.erase (offset, order)⟩, none)

theorem pageStep_alloc_live {cfg : PageSizeSelect} {start : Word} {s s' : PageState}
    {order : Nat} {ret : Option Word} (h : pageStep cfg start s (.alloc order) = some (s', ret)) :
    s'.live = ret.toList.map (·, order) ++ s.live := by
  simp only [pageStep, Option.bind_eq_bind, Option.bind_eq_some_iff] at h
  obtain ⟨⟨maps, addr⟩, -, h⟩ := h
  cases addr <;>
    · obtain ⟨rfl, rfl⟩ := Prod.mk.inj (Option.some.inj h)
      rfl

theorem pageStep_free_live {cfg : PageSizeSelect} {start : Word} {s s' : PageState}
    {offset : Word} {order : Nat} {ret : Option Word}
    (h : pageStep cfg start s (.free offset order) = some (s', ret)) :
    s'.live = s.live.erase (offset, order) := by
  simp only [pageStep, Option.bind_eq_bind, Option.bind_eq_some_iff] at h
  obtain ⟨maps, -, h⟩ := h
  obtain ⟨rfl, -⟩ := Prod.mk.inj (Option.some.inj h)
  rfl

/-- A free names the address and the order of a live allocation. -/
def PageOp.Valid (s : PageState) : PageOp → Prop
  | .alloc _ => True
  | .free offset order => (offset, order) ∈ s.live

def pageRun (cfg : PageSizeSelect) (start : Word) :
    PageState → List PageOp → Option (PageState × List (Option Word))
  | s, [] => some (s, [])
  | s, op :: ops => do
      let (s, ret) ← pageStep cfg start s op
      let (s, rets) ← pageRun cfg start s ops
      pure (s, ret :: rets)

instance PageOp.decidableValid (s : PageState) : (op : PageOp) → Decidable (op.Valid s)
  | .alloc _ => inferInstanceAs (Decidable True)
  | .free offset order => inferInstanceAs (Decidable ((offset, order) ∈ s.live))

/-- Every call of the history is valid in the state it is made in. -/
def ValidOps (cfg : PageSizeSelect) (start : Word) : PageState → List PageOp → Prop
  | _, [] => True
  | s, op :: ops => op.Valid s ∧
      match pageStep cfg start s op with
      | some (s', _) => ValidOps cfg start s' ops
      | none => True

instance decidableValidOps (cfg : PageSizeSelect) (start : Word) :
    (ops : List PageOp) → (s : PageState) → Decidable (ValidOps cfg start s ops)
  | [], _ => inferInstanceAs (Decidable True)
  | op :: ops, s =>
      match h : pageStep cfg start s op with
      | some (s', _) =>
          have := decidableValidOps cfg start ops s'
          decidable_of_iff (op.Valid s ∧ ValidOps cfg start s' ops) (by simp [ValidOps, h])
      | none => decidable_of_iff (op.Valid s) (by simp [ValidOps, h])

/-- The allocation that a held block stands for. -/
def blockCall (b : Block) : Word × Nat := (BitVec.ofNat 32 (b.idx * 2 ^ (b.order + 8)), b.order)

/-- The held blocks are the live allocations. -/
def PageInv (cfg : PageSizeSelect) (s : PageState) : Prop :=
  ∃ held, PageRep cfg s.maps held ∧ s.live.Perm (held.map blockCall)

section Invariant
variable {cfg : PageSizeSelect} {start : Word} {s : PageState}

private theorem pageIdxToAddr_sub (start : Word) (idx order : Nat) :
    pageIdxToAddr start idx order - start = BitVec.ofNat 32 (idx * 2 ^ (order + 8)) := by
  have hshift : (1#32 <<< (order + pageSizeMinLog)) = BitVec.ofNat 32 (2 ^ (order + 8)) := by
    apply BitVec.eq_of_toNat_eq
    simp [BitVec.toNat_shiftLeft, Nat.shiftLeft_eq]
  rw [pageIdxToAddr, hshift, ← BitVec.ofNat_mul, BitVec.add_comm, BitVec.add_sub_cancel]

private theorem testBit_low_byte (i : Nat) : testBit [0xff#32] i = decide (i < 8) := by
  by_cases hi : i < 32
  · have hall : ∀ k : Fin 32, (0xff#32).getLsbD k = decide (k.val < 8) := by decide
    simpa [testBit, Nat.div_eq_of_lt hi, Nat.mod_eq_of_lt hi] using hall ⟨i, hi⟩
  · have hnone : [0xff#32][i / 32]? = none := by
      rw [List.getElem?_eq_none]
      simp only [List.length_singleton]
      omega
    have hge : ¬ i < 8 := by omega
    simp only [testBit, hnone, hge, decide_false]

private theorem pageBitmapInit_eq (cfg : PageSizeSelect) :
    pageBitmapInit cfg =
      ((List.range (pageOrderMax cfg)).map fun o =>
        List.replicate (((pageBitmapInit cfg)[o]?).getD []).length 0#32) ++ [[0xff#32]] := by
  cases cfg <;> rfl

theorem freeOf_init (cfg : PageSizeSelect) :
    freeOf (pageBitmapInit cfg) = initialFree (pageOrderMax cfg) 8 := by
  funext o i
  rw [freeOf, pageBitmapInit_eq]
  rcases Nat.lt_trichotomy o (pageOrderMax cfg) with ho | rfl | ho
  · rw [List.getElem?_append_left (by simpa using ho), List.getElem?_map, List.getElem?_range ho]
    simp [testBit_zeros, initialFree, Nat.ne_of_lt ho]
  · rw [List.getElem?_append_right (by simp)]
    simp [testBit_low_byte, initialFree]
  · rw [List.getElem?_eq_none (by simp; omega)]
    simp [initialFree, Nat.ne_of_gt ho]

theorem pageInv_init (cfg : PageSizeSelect) : PageInv cfg (pageInit cfg) := by
  refine ⟨[], ⟨rfl, ?_, ?_⟩, .refl _⟩
  · rw [pageInit, freeOf_init]
    exact tiles_initial _ _
  · rw [pageInit, freeOf_init]
    exact coalesced_initial _ _

theorem pageStep_spec (hstart : 2 ^ (pageOrderMax cfg + 8) ∣ start.toNat) (h : PageInv cfg s)
    {op : PageOp} (hop : op.Valid s) :
    ∃ s' ret, pageStep cfg start s op = some (s', ret) ∧ PageInv cfg s' := by
  obtain ⟨held, hrep, hlive⟩ := h
  cases op with
  | alloc order =>
      rcases allocPages_spec hrep start order with ⟨hnull, _⟩ | ⟨_, maps', idx, hsome, hrep'⟩
      · exact ⟨s, none, by simp [pageStep, hnull], held, hrep, hlive⟩
      · refine ⟨_, _, by simp only [pageStep, hsome, Option.bind_eq_bind, Option.bind_some]; rfl,
          _, hrep', ?_⟩
        rw [pageIdxToAddr_sub]
        exact hlive.cons _
  | free offset order =>
      obtain ⟨b, hb, hcall⟩ := List.mem_map.mp (hlive.mem_iff.mp hop)
      have hperm : held.Perm (b :: held.erase b) := List.perm_cons_erase hb
      have hrep' : PageRep cfg s.maps (b :: held.erase b) :=
        ⟨hrep.shape, hrep.tiles.perm hperm, hrep.coalesced⟩
      obtain ⟨maps', hfree, hrep''⟩ := freePages_spec start hstart hrep'
      obtain ⟨rfl, rfl⟩ : BitVec.ofNat 32 (b.idx * 2 ^ (b.order + 8)) = offset ∧
          b.order = order := by
        simpa [blockCall] using hcall
      refine ⟨_, _, by simp only [pageStep, hfree, Option.bind_eq_bind, Option.bind_some]; rfl,
        _, hrep'', ?_⟩
      have hlive' : s.live.Perm (blockCall b :: (held.erase b).map blockCall) :=
        hlive.trans (hperm.map blockCall)
      simpa [blockCall] using hlive'.erase (blockCall b)

theorem pageRun_spec (hstart : 2 ^ (pageOrderMax cfg + 8) ∣ start.toNat) (ops : List PageOp)
    (h : PageInv cfg s) (hops : ValidOps cfg start s ops) :
    ∃ s' rets, pageRun cfg start s ops = some (s', rets) ∧ PageInv cfg s' := by
  induction ops generalizing s with
  | nil => exact ⟨s, [], rfl, h⟩
  | cons op ops ih =>
      obtain ⟨hop, hrest⟩ := hops
      obtain ⟨s1, ret, hstep, h1⟩ := pageStep_spec hstart h hop
      rw [hstep] at hrest
      obtain ⟨s2, rets, hrun, h2⟩ := ih h1 hrest
      exact ⟨s2, ret :: rets, by simp [pageRun, hstep, hrun], h2⟩

end Invariant

section FreeSize
variable {cfg : PageSizeSelect} {maps : PageBitmap}

private theorem popcount_bitmapByte (map : Bitmap) (n : Nat) (hn : n < 4 * map.length) :
    ∃ byte, bitmapByte map n = some byte ∧
      popcount byte = (List.range 8).countP fun k => testBit map (8 * n + k) := by
  have hlt : n / 4 < map.length := by omega
  refine ⟨_, by simp [bitmapByte, List.getElem?_eq_getElem hlt]; rfl, ?_⟩
  apply List.countP_congr
  intro k hk
  have hk8 : k < 8 := List.mem_range.mp hk
  have hdiv : (8 * n + k) / 32 = n / 4 := by omega
  have hmod : (8 * n + k) % 32 = 8 * (n % 4) + k := by omega
  simp [testBit, hdiv, hmod, List.getElem?_eq_getElem hlt, hk8]

private theorem countSetBits_spec (map : Bitmap) (n : Nat) (hn : n ≤ 4 * map.length) :
    countSetBits map n = some ((List.range (8 * n)).countP (testBit map)) := by
  induction n with
  | zero => rfl
  | succ n ih =>
      obtain ⟨byte, hbyte, hpop⟩ := popcount_bitmapByte map n (by omega)
      have hsplit : (List.range (8 * (n + 1))).countP (testBit map) =
          (List.range (8 * n)).countP (testBit map) + popcount byte := by
        rw [hpop, Nat.mul_add, List.range_add, List.countP_append, List.countP_map]
        rfl
      simp [countSetBits, ih (by omega), hbyte, hsplit]

private theorem countP_range_eq_sum (p : Nat → Bool) (n : Nat) :
    (List.range n).countP p = ∑ i ∈ Finset.range n, if p i then 1 else 0 := by
  induction n with
  | zero => rfl
  | succ n ih =>
      rw [List.range_succ, List.countP_append, ih, Finset.sum_range_succ]
      cases h : p n <;> simp [h]

theorem getPageTotalFreeSize_spec (hs : PageShape cfg maps) :
    getPageTotalFreeSize cfg maps = some (∑ o ∈ Finset.range (pageOrderMax cfg + 1),
      freeCount (pageOrderMax cfg) 8 (freeOf maps) o * 2 ^ (o + 8)) := by
  suffices h : ∀ n ≤ pageOrderMax cfg + 1, totalFreeSizeBelow cfg maps n =
      some (∑ o ∈ Finset.range n,
        freeCount (pageOrderMax cfg) 8 (freeOf maps) o * 2 ^ (o + 8)) from h _ (Nat.le_refl _)
  intro n hn
  induction n with
  | zero => rfl
  | succ n ih =>
      have ho : n ≤ pageOrderMax cfg := by omega
      obtain ⟨map, hmap, hsz, hlen⟩ := hs.row ho
      have hrow : freeOf maps n = testBit map := by
        funext i
        simp [freeOf, hmap]
      have hcount : countSetBits map (2 ^ (pageOrderMax cfg - n)) =
          some (freeCount (pageOrderMax cfg) 8 (freeOf maps) n) := by
        rw [countSetBits_spec map _ (by omega), countP_range_eq_sum, freeCount, hrow]
      rw [totalFreeSizeBelow, ih (by omega), Finset.sum_range_succ]
      simp [hmap, hsz, hcount, pageOrderSz_getElem ho]

end FreeSize

section Tiling

/-- A placement of the page section at a multiple of the largest page size. -/
structure PageLayout (cfg : PageSizeSelect) where
  start : Word
  aligned : 2 ^ (pageOrderMax cfg + 8) ∣ start.toNat
  fits : start.toNat + pageSectionSize cfg ≤ 2 ^ 32

def pageRegion (cfg : PageSizeSelect) (start : Word) : Set Nat :=
  Set.Ico start.toNat (start.toNat + pageSectionSize cfg)

def pageSpan (start : Word) (order idx : Nat) : Set Nat :=
  Set.Ico (start.toNat + idx * 2 ^ (order + 8)) (start.toNat + (idx + 1) * 2 ^ (order + 8))

def allocSpan (start : Word) (l : Word × Nat) : Set Nat :=
  Set.Ico (start + l.1).toNat ((start + l.1).toNat + 2 ^ (l.2 + 8))

/-- The free pages and the live allocations partition the page section. -/
structure PageTiling (cfg : PageSizeSelect) (start : Word) (s : PageState) : Prop where
  free_inside : ∀ o i, freeOf s.maps o i = true →
    o ≤ pageOrderMax cfg ∧ pageSpan start o i ⊆ pageRegion cfg start
  live_inside : ∀ l ∈ s.live, l.2 ≤ pageOrderMax cfg ∧ allocSpan start l ⊆ pageRegion cfg start
  cover : ∀ a ∈ pageRegion cfg start,
    (∃ o i, freeOf s.maps o i = true ∧ a ∈ pageSpan start o i) ∨
      ∃ l ∈ s.live, a ∈ allocSpan start l
  free_disjoint : ∀ o i o' i', freeOf s.maps o i = true → freeOf s.maps o' i' = true →
    (o, i) ≠ (o', i') → Disjoint (pageSpan start o i) (pageSpan start o' i')
  free_live : ∀ o i, freeOf s.maps o i = true → ∀ l ∈ s.live,
    Disjoint (pageSpan start o i) (allocSpan start l)
  live_disjoint : s.live.Pairwise fun l l' => Disjoint (allocSpan start l) (allocSpan start l')

variable {cfg : PageSizeSelect} {s : PageState}

theorem mem_pageSpan (start : Word) (order idx a : Nat) :
    a ∈ pageSpan start order idx ↔
      start.toNat ≤ a ∧ (Block.mk order idx).Contains ((a - start.toNat) / 2 ^ 8) := by
  have hpos := Nat.two_pow_pos (order + 8)
  rw [pageSpan, Set.mem_Ico, Block.Contains, Nat.div_div_eq_div_mul, ← Nat.pow_add,
    Nat.add_comm 8 order, Nat.div_eq_iff hpos, Nat.add_one_mul]
  simp only
  omega

theorem blockCall_toNat (L : PageLayout cfg) {b : Block} (hb : b.InRange (pageOrderMax cfg) 8) :
    (L.start + (blockCall b).1).toNat = L.start.toNat + b.idx * 2 ^ (b.order + 8) := by
  have hoff : b.idx * 2 ^ (b.order + 8) < pageSectionSize cfg := block_offset_lt hb
  have hfits := L.fits
  rw [BitVec.toNat_add, blockCall, BitVec.toNat_ofNat]
  omega

private theorem allocSpan_blockCall (L : PageLayout cfg) {b : Block}
    (hb : b.InRange (pageOrderMax cfg) 8) :
    allocSpan L.start (blockCall b) = pageSpan L.start b.order b.idx := by
  rw [allocSpan, pageSpan, blockCall_toNat L hb, Nat.add_one_mul, blockCall, Nat.add_assoc]

theorem PageInv.aligned (L : PageLayout cfg) (h : PageInv cfg s) {l : Word × Nat}
    (hl : l ∈ s.live) : 2 ^ (l.2 + 8) ∣ (L.start + l.1).toNat := by
  obtain ⟨held, hrep, hlive⟩ := h
  obtain ⟨b, hb, rfl⟩ := List.mem_map.mp (hlive.mem_iff.mp hl)
  have hr := hrep.tiles.held_inRange b hb
  rw [blockCall_toNat L hr]
  exact Nat.dvd_add (Nat.dvd_trans (Nat.pow_dvd_pow 2 (Nat.add_le_add_right hr.1 8)) L.aligned)
    (Nat.dvd_mul_left ..)

private theorem cell_lt {start : Word} {a : Nat} (ha : a ∈ pageRegion cfg start) :
    (a - start.toNat) / 2 ^ 8 < 8 * 2 ^ pageOrderMax cfg := by
  have hlt : a < start.toNat + pageSectionSize cfg := ha.2
  have hle : start.toNat ≤ a := ha.1
  rw [pageSectionSize_eq] at hlt
  omega

private theorem pageSpan_subset {start : Word} {o i : Nat}
    (h : (Block.mk o i).InRange (pageOrderMax cfg) 8) :
    pageSpan start o i ⊆ pageRegion cfg start := by
  intro a ha
  refine ⟨Nat.le_trans (Nat.le_add_right _ _) ha.1, Nat.lt_of_lt_of_le ha.2 ?_⟩
  have hend : (i + 1) * 2 ^ (o + 8) ≤ pageSectionSize cfg := by
    obtain ⟨ho, hi⟩ := h
    rw [pageSectionSize_eq, ← Nat.sub_add_cancel ho, Nat.pow_add, Nat.pow_add, ← Nat.mul_assoc,
      ← Nat.mul_assoc]
    exact Nat.mul_le_mul_right _ (Nat.mul_le_mul_right _ hi)
  omega

theorem pageTiling_of_inv (L : PageLayout cfg) (h : PageInv cfg s) :
    PageTiling cfg L.start s := by
  obtain ⟨held, hrep, hlive⟩ := h
  have hspan : ∀ l ∈ s.live, ∃ b ∈ held, blockCall b = l ∧
      allocSpan L.start l = pageSpan L.start b.order b.idx := by
    intro l hl
    obtain ⟨b, hb, rfl⟩ := List.mem_map.mp (hlive.mem_iff.mp hl)
    exact ⟨b, hb, rfl, allocSpan_blockCall L (hrep.tiles.held_inRange b hb)⟩
  -- two pages that share an address share its cell
  have hdisj : ∀ o i o' i', (Block.mk o i).InRange (pageOrderMax cfg) 8 →
      (∀ x < 8 * 2 ^ pageOrderMax cfg, (Block.mk o i).Contains x → ¬ (Block.mk o' i').Contains x) →
      Disjoint (pageSpan L.start o i) (pageSpan L.start o' i') := by
    intro o i o' i' hr hne
    rw [Set.disjoint_left]
    intro a ha ha'
    exact hne _ (cell_lt (pageSpan_subset hr ha)) ((mem_pageSpan ..).mp ha).2
      ((mem_pageSpan ..).mp ha').2
  refine ⟨?_, ?_, ?_, ?_, ?_, ?_⟩
  · intro o i hf
    have hr := hrep.tiles.free_inRange o i hf
    exact ⟨hr.1, pageSpan_subset hr⟩
  · intro l hl
    obtain ⟨b, hb, rfl, hs⟩ := hspan l hl
    have hr := hrep.tiles.held_inRange b hb
    rw [hs]
    exact ⟨hr.1, pageSpan_subset hr⟩
  · intro a ha
    by_cases hheld : ∃ b ∈ held, b.Contains ((a - L.start.toNat) / 2 ^ 8)
    · obtain ⟨b, hb, hc⟩ := hheld
      refine Or.inr ⟨blockCall b, hlive.mem_iff.mpr (List.mem_map_of_mem hb), ?_⟩
      rw [allocSpan_blockCall L (hrep.tiles.held_inRange b hb), mem_pageSpan]
      exact ⟨ha.1, hc⟩
    · obtain ⟨o, _, hf⟩ := hrep.tiles.exists_free (cell_lt ha)
        (fun b hb hc => hheld ⟨b, hb, hc⟩)
      exact Or.inl ⟨o, _, hf, (mem_pageSpan ..).mpr ⟨ha.1, rfl⟩⟩
  · intro o i o' i' hf hf' hne
    apply hdisj o i o' i' (hrep.tiles.free_inRange o i hf)
    intro x hx hc hc'
    obtain rfl : x / 2 ^ o = i := hc
    obtain rfl : x / 2 ^ o' = i' := hc'
    obtain rfl := hrep.tiles.free_unique hx hf hf'
    exact hne rfl
  · intro o i hf l hl
    obtain ⟨b, hb, rfl, hs⟩ := hspan l hl
    rw [hs]
    apply hdisj o i _ _ (hrep.tiles.free_inRange o i hf)
    intro x hx hc hc'
    obtain rfl : x / 2 ^ o = i := hc
    exact hrep.tiles.free_not_held hx hf hb hc'
  · refine hlive.symm.pairwise ?_ fun hd => Disjoint.symm hd
    rw [List.pairwise_map]
    refine hrep.tiles.held_pairwise.imp_of_mem fun {b c} hb hc hne => ?_
    have hbr := hrep.tiles.held_inRange b hb
    rw [allocSpan_blockCall L hbr, allocSpan_blockCall L (hrep.tiles.held_inRange c hc)]
    exact hdisj _ _ _ _ hbr hne

theorem PageInv.live_nodup (L : PageLayout cfg) (h : PageInv cfg s) : s.live.Nodup := by
  refine (pageTiling_of_inv L h).live_disjoint.imp fun {l l'} hdisj heq => ?_
  subst heq
  have hmem : (L.start + l.1).toNat ∈ allocSpan L.start l :=
    ⟨Nat.le_refl _, Nat.lt_add_of_pos_right (Nat.two_pow_pos _)⟩
  exact Set.disjoint_left.mp hdisj hmem hmem

theorem totalFreeSize_of_inv (h : PageInv cfg s) :
    ∃ size, getPageTotalFreeSize cfg s.maps = some size ∧
      size + (s.live.map fun l => 2 ^ (l.2 + 8)).sum = pageSectionSize cfg := by
  obtain ⟨held, hrep, hlive⟩ := h
  refine ⟨_, getPageTotalFreeSize_spec hrep.shape, ?_⟩
  have hsum : (s.live.map fun l => 2 ^ (l.2 + 8)).sum =
      (held.map fun b => 2 ^ b.order).sum * 2 ^ 8 := by
    rw [(hlive.map _).sum_eq, List.map_map, ← List.sum_map_mul_right]
    congr 1
    apply List.map_congr_left
    intro b _
    simp [blockCall, Nat.pow_add]
  have htotal := hrep.tiles.total
  rw [hsum, pageSectionSize_eq, ← htotal, Nat.add_mul, Finset.sum_mul]
  congr 1
  apply Finset.sum_congr rfl
  intro o _
  rw [Nat.pow_add, Nat.mul_assoc]

/-- Histories of valid calls never leave the bitmaps, the free pages and the live
allocations always partition the page section, and the reported free size is exact. -/
theorem page_histories_tile (L : PageLayout cfg) (ops : List PageOp)
    (hops : ValidOps cfg L.start (pageInit cfg) ops) :
    ∃ s rets, pageRun cfg L.start (pageInit cfg) ops = some (s, rets) ∧
      PageTiling cfg L.start s ∧
      ∃ size, getPageTotalFreeSize cfg s.maps = some size ∧
        size + (s.live.map fun l => 2 ^ (l.2 + 8)).sum = pageSectionSize cfg := by
  obtain ⟨s, rets, hrun, hinv⟩ := pageRun_spec L.aligned ops (pageInv_init cfg) hops
  exact ⟨s, rets, hrun, pageTiling_of_inv L hinv, totalFreeSize_of_inv hinv⟩

/-- The page section of a 64K build at the start of the board's RAM. -/
def ramLayout : PageLayout .size64K := ⟨0x20000000, by decide, by decide⟩

theorem page_histories_tile_at_ram :
    ∃ s rets, pageRun .size64K ramLayout.start (pageInit .size64K)
        [.alloc 0, .alloc 3, .free 0 0] = some (s, rets) ∧
      PageTiling .size64K ramLayout.start s ∧
      ∃ size, getPageTotalFreeSize .size64K s.maps = some size ∧
        size + (s.live.map fun l => 2 ^ (l.2 + 8)).sum = pageSectionSize .size64K :=
  page_histories_tile ramLayout [.alloc 0, .alloc 3, .free 0 0] (by decide +kernel)

private theorem inRange_of_subset {start : Word} {order idx : Nat}
    (ho : order ≤ pageOrderMax cfg) (h : pageSpan start order idx ⊆ pageRegion cfg start) :
    (Block.mk order idx).InRange (pageOrderMax cfg) 8 := by
  refine ⟨ho, ?_⟩
  have hpos := Nat.two_pow_pos (order + 8)
  have hmem : start.toNat + idx * 2 ^ (order + 8) ∈ pageSpan start order idx := by
    rw [pageSpan, Set.mem_Ico, Nat.add_one_mul]
    omega
  have hlt : idx * 2 ^ (order + 8) < 8 * 2 ^ (pageOrderMax cfg - order) * 2 ^ (order + 8) := by
    have hregion := (h hmem).2
    have hsize : pageSectionSize cfg = 8 * 2 ^ (pageOrderMax cfg - order) * 2 ^ (order + 8) := by
      rw [pageSectionSize_eq, Nat.mul_assoc, Nat.mul_assoc, ← Nat.pow_add, ← Nat.pow_add]
      congr 2
      omega
    omega
  exact Nat.lt_of_mul_lt_mul_right hlt

/-- `alloc_pages` fails only if every aligned block of the order meets a live allocation. -/
theorem allocPages_null_iff (L : PageLayout cfg) (h : PageInv cfg s) (order : Nat) :
    (∃ maps, allocPages cfg L.start s.maps order = some (maps, none)) ↔
      pageOrderMax cfg < order ∨
        ∀ idx, pageSpan L.start order idx ⊆ pageRegion cfg L.start →
          ∃ l ∈ s.live, ¬ Disjoint (pageSpan L.start order idx) (allocSpan L.start l) := by
  obtain ⟨held, hrep, hlive⟩ := h
  rcases allocPages_spec hrep L.start order with ⟨hnull, hnone⟩ | ⟨hle, maps', idx, hsome, hrep'⟩
  · refine iff_of_true ⟨_, hnull⟩ ?_
    rcases Nat.lt_or_ge (pageOrderMax cfg) order with ho | ho
    · exact Or.inl ho
    refine Or.inr fun idx hidx => ?_
    by_contra hfree
    have hr := inRange_of_subset ho hidx
    -- no held block meets the block, so a free one of at least its order is around it
    have hheld : ∀ x, (Block.mk order idx).Contains x → ∀ c ∈ held, ¬ c.Contains x := by
      intro x hx c hc hcx
      refine hfree ⟨blockCall c, hlive.mem_iff.mpr (List.mem_map_of_mem hc), ?_⟩
      rw [allocSpan_blockCall L (hrep.tiles.held_inRange c hc), Set.not_disjoint_iff]
      have hcell : (L.start.toNat + x * 2 ^ 8 - L.start.toNat) / 2 ^ 8 = x := by omega
      exact ⟨L.start.toNat + x * 2 ^ 8,
        (mem_pageSpan ..).mpr ⟨Nat.le_add_right _ _, by rwa [hcell]⟩,
        (mem_pageSpan ..).mpr ⟨Nat.le_add_right _ _, by rwa [hcell]⟩⟩
    obtain ⟨o, ho', _, hf⟩ := hrep.tiles.exists_free_around hrep.coalesced hr hheld
    rw [hnone o ho'] at hf
    exact Bool.noConfusion hf
  · refine iff_of_false ?_ ?_
    · rintro ⟨maps, hnull⟩
      rw [hsome] at hnull
      simp at hnull
    · rintro (ho | hall)
      · omega
      · have hr := hrep'.tiles.held_inRange _ (List.mem_cons_self ..)
        obtain ⟨l, hl, hmeet⟩ := hall idx (pageSpan_subset hr)
        obtain ⟨c, hc, rfl⟩ := List.mem_map.mp (hlive.mem_iff.mp hl)
        rw [allocSpan_blockCall L (hrep.tiles.held_inRange c hc), Set.not_disjoint_iff] at hmeet
        obtain ⟨a, ha, hac⟩ := hmeet
        exact (List.pairwise_cons.mp hrep'.tiles.held_pairwise).1 c hc _
          (cell_lt (pageSpan_subset hr ha)) ((mem_pageSpan ..).mp ha).2 ((mem_pageSpan ..).mp hac).2

theorem PageShape.maps_eq {maps maps' : PageBitmap} (hs : PageShape cfg maps)
    (hs' : PageShape cfg maps') (hfree : freeOf maps = freeOf maps') : maps = maps' := by
  have hlens := hs.trans hs'.symm
  have hlen : maps.length = maps'.length := by simpa using congrArg List.length hlens
  apply List.ext_getElem hlen
  intro o ho ho'
  have hrow : maps[o].length = maps'[o].length := by
    have hget := List.getElem_of_eq hlens (by simpa using ho)
    rwa [List.getElem_map, List.getElem_map] at hget
  apply bitmap_ext hrow
  intro i
  have := congrFun (congrFun hfree o) i
  simpa [freeOf, List.getElem?_eq_getElem ho, List.getElem?_eq_getElem ho'] using this

private theorem blockCall_injective {b b' : Block} (hb : b.InRange (pageOrderMax cfg) 8)
    (hb' : b'.InRange (pageOrderMax cfg) 8) (heq : blockCall b = blockCall b') : b = b' := by
  obtain ⟨hoffset, horder⟩ := Prod.mk.inj heq
  have hlt : b.idx * 2 ^ (b.order + 8) < pageSectionSize cfg := block_offset_lt hb
  have hlt' : b'.idx * 2 ^ (b'.order + 8) < pageSectionSize cfg := block_offset_lt hb'
  have hmax := pageSectionSize_le cfg
  have hnat := congrArg BitVec.toNat hoffset
  rw [BitVec.toNat_ofNat, BitVec.toNat_ofNat, Nat.mod_eq_of_lt (by omega),
    Nat.mod_eq_of_lt (by omega), horder] at hnat
  have hidx := Nat.eq_of_mul_eq_mul_right (Nat.two_pow_pos _) hnat
  cases b
  cases b'
  simp_all

theorem PageInv.maps_eq {s' : PageState} (h : PageInv cfg s) (h' : PageInv cfg s')
    (hlive : s.live.Perm s'.live) : s.maps = s'.maps := by
  have hsub : ∀ {s s' : PageState} {held held'}, PageRep cfg s.maps held → PageRep cfg s'.maps held' →
      s.live.Perm (held.map blockCall) → s'.live.Perm (held'.map blockCall) →
      s.live.Perm s'.live → ∀ b ∈ held, b ∈ held' := by
    intro s s' held held' hrep hrep' hperm hperm' hlive b hb
    have hmem := hperm'.mem_iff.mp (hlive.mem_iff.mp (hperm.mem_iff.mpr (List.mem_map_of_mem hb)))
    obtain ⟨b', hb', heq⟩ := List.mem_map.mp hmem
    exact blockCall_injective (hrep'.tiles.held_inRange b' hb') (hrep.tiles.held_inRange b hb) heq ▸
      hb'
  obtain ⟨held, hrep, hperm⟩ := h
  obtain ⟨held', hrep', hperm'⟩ := h'
  refine hrep.shape.maps_eq hrep'.shape ?_
  exact hrep.tiles.free_eq hrep.coalesced hrep'.tiles hrep'.coalesced fun b =>
    ⟨hsub hrep hrep' hperm hperm' hlive b, hsub hrep' hrep hperm' hperm hlive.symm b⟩

theorem maps_eq_init_of_inv (h : PageInv cfg s) (hlive : s.live = []) :
    s.maps = pageBitmapInit cfg :=
  h.maps_eq (pageInv_init cfg) (hlive ▸ List.Perm.refl _)

/-- In every state that valid calls reach no two buddies are both free, an allocation
fails only where it must, and freeing everything restores the initial bitmaps. -/
theorem page_histories_coalesce (L : PageLayout cfg) (ops : List PageOp)
    (hops : ValidOps cfg L.start (pageInit cfg) ops) :
    ∃ s rets, pageRun cfg L.start (pageInit cfg) ops = some (s, rets) ∧
      (∀ o < pageOrderMax cfg, ∀ i,
        ¬ (freeOf s.maps o (2 * i) = true ∧ freeOf s.maps o (2 * i + 1) = true)) ∧
      (∀ order, (∃ maps, allocPages cfg L.start s.maps order = some (maps, none)) ↔
        pageOrderMax cfg < order ∨
          ∀ idx, pageSpan L.start order idx ⊆ pageRegion cfg L.start →
            ∃ l ∈ s.live, ¬ Disjoint (pageSpan L.start order idx) (allocSpan L.start l)) ∧
      (s.live = [] → s.maps = pageBitmapInit cfg) := by
  obtain ⟨s, rets, hrun, hinv⟩ := pageRun_spec L.aligned ops (pageInv_init cfg) hops
  refine ⟨s, rets, hrun, ?_, allocPages_null_iff L hinv, maps_eq_init_of_inv hinv⟩
  rintro o ho i ⟨hlow, hup⟩
  obtain ⟨held, hrep, _⟩ := hinv
  rw [hrep.coalesced o ho i hlow] at hup
  exact Bool.noConfusion hup

theorem page_histories_coalesce_at_ram :
    ∃ s rets, pageRun .size64K ramLayout.start (pageInit .size64K)
        [.alloc 0, .alloc 0, .free 0x100 0, .free 0 0] = some (s, rets) ∧
      (∀ o < pageOrderMax .size64K, ∀ i,
        ¬ (freeOf s.maps o (2 * i) = true ∧ freeOf s.maps o (2 * i + 1) = true)) ∧
      (∀ order, (∃ maps, allocPages .size64K ramLayout.start s.maps order = some (maps, none)) ↔
        pageOrderMax .size64K < order ∨
          ∀ idx, pageSpan ramLayout.start order idx ⊆ pageRegion .size64K ramLayout.start →
            ∃ l ∈ s.live,
              ¬ Disjoint (pageSpan ramLayout.start order idx) (allocSpan ramLayout.start l)) ∧
      (s.live = [] → s.maps = pageBitmapInit .size64K) :=
  page_histories_coalesce ramLayout [.alloc 0, .alloc 0, .free 0x100 0, .free 0 0]
    (by decide +kernel)

end Tiling

end Tenok
