import Tenok.Mm.Page
import Tenok.Common.Util
import Mathlib.Tactic.IntervalCases

/-!
The page allocator refines the buddy system of `Tenok.Lib.Buddy`: each order's
bitmap is a row of the free map, and the loops of `alloc_pages` and `free_pages`
are sequences of the abstract operations on one block that is held in between.
-/
namespace Tenok
open Buddy

def freeOf (maps : PageBitmap) : FreeMap := fun order idx =>
  match maps[order]? with
  | some map => testBit map idx
  | none => false

/-- The bitmaps have the lengths they were declared with. -/
def PageShape (cfg : PageSizeSelect) (maps : PageBitmap) : Prop :=
  maps.map List.length = (pageBitmapInit cfg).map List.length

variable {cfg : PageSizeSelect} {maps maps' : PageBitmap}

theorem PageShape.row (h : PageShape cfg maps) {order : Nat} (ho : order ≤ pageOrderMax cfg) :
    ∃ map, maps[order]? = some map ∧
      (pageBitmapSz cfg)[order]? = some (8 * 2 ^ (pageOrderMax cfg - order)) ∧
      8 * 2 ^ (pageOrderMax cfg - order) ≤ 32 * map.length := by
  have hrow : (maps[order]?).map List.length = ((pageBitmapInit cfg)[order]?).map List.length := by
    rw [← List.getElem?_map, ← List.getElem?_map, h]
  cases cfg
  all_goals
    simp only [pageOrderMax, pageBitmapInit, pageBitmapSz] at *
    interval_cases order <;> simp at hrow <;> obtain ⟨map, hmap, hlen⟩ := hrow <;>
      exact ⟨map, hmap, by simp, by rw [hlen]; decide⟩

private theorem freeOf_set {order : Nat} {map map' : Bitmap} (hmap : maps[order]? = some map)
    (bit : Nat) (value : Bool)
    (hbits : ∀ i, testBit map' i = if i = bit then value else testBit map i) :
    freeOf (maps.set order map') = (freeOf maps).set ⟨order, bit⟩ value := by
  obtain ⟨hlt, _⟩ := List.getElem?_eq_some_iff.mp hmap
  funext o i
  by_cases ho : o = order
  · subst ho
    simp [freeOf, FreeMap.set, List.getElem?_set_self hlt, hmap, hbits]
  · simp [freeOf, FreeMap.set, List.getElem?_set_ne (Ne.symm ho), ho]

private theorem map_length_set {order : Nat} {map map' : Bitmap} (hmap : maps[order]? = some map)
    (hlen : map'.length = map.length) :
    (maps.set order map').map List.length = maps.map List.length := by
  rw [List.map_set, hlen]
  apply List.ext_getElem?
  intro k
  by_cases hk : k = order
  · subst hk
    obtain ⟨hlt, rfl⟩ := List.getElem?_eq_some_iff.mp hmap
    simp [hlt]
  · rw [List.getElem?_set_ne (Ne.symm hk)]

theorem pageBitmapSet_spec (hs : PageShape cfg maps) {order bit : Nat}
    (h : pageBitmapSet maps order bit = some maps') :
    PageShape cfg maps' ∧
      freeOf maps' = (freeOf maps).set ⟨order, bit⟩ true := by
  simp only [pageBitmapSet, Option.bind_eq_bind, Option.bind_eq_some_iff] at h
  obtain ⟨map, hmap, map', hset, heq⟩ := h
  obtain rfl := Option.some.inj heq
  obtain ⟨hlen, hbits⟩ := bitmapSetBit_spec hset
  refine ⟨(map_length_set hmap hlen).trans hs, freeOf_set hmap bit true fun i => ?_⟩
  rw [hbits]
  by_cases hi : i = bit <;> simp [hi]

theorem pageBitmapClear_spec (hs : PageShape cfg maps) {order bit : Nat}
    (h : pageBitmapClear maps order bit = some maps') :
    PageShape cfg maps' ∧
      freeOf maps' = (freeOf maps).set ⟨order, bit⟩ false := by
  simp only [pageBitmapClear, Option.bind_eq_bind, Option.bind_eq_some_iff] at h
  obtain ⟨map, hmap, map', hset, heq⟩ := h
  obtain rfl := Option.some.inj heq
  obtain ⟨hlen, hbits⟩ := bitmapClearBit_spec hset
  refine ⟨(map_length_set hmap hlen).trans hs, freeOf_set hmap bit false fun i => ?_⟩
  rw [hbits]
  by_cases hi : i = bit <;> simp [hi]

theorem pageBitmapSet_isSome (hs : PageShape cfg maps) {order bit : Nat}
    (hb : (Block.mk order bit).InRange (pageOrderMax cfg) 8) :
    ∃ maps', pageBitmapSet maps order bit = some maps' := by
  obtain ⟨map, hmap, _, hlen⟩ := hs.row hb.1
  obtain ⟨map', hset⟩ := bitmapSetBit_isSome map bit (Nat.lt_of_lt_of_le hb.2 hlen)
  exact ⟨_, by simp only [pageBitmapSet, hmap, hset, Option.bind_eq_bind, Option.bind_some]; rfl⟩

theorem pageBitmapClear_isSome (hs : PageShape cfg maps) {order bit : Nat}
    (hb : (Block.mk order bit).InRange (pageOrderMax cfg) 8) :
    ∃ maps', pageBitmapClear maps order bit = some maps' := by
  obtain ⟨map, hmap, _, hlen⟩ := hs.row hb.1
  obtain ⟨map', hset⟩ := bitmapClearBit_isSome map bit (Nat.lt_of_lt_of_le hb.2 hlen)
  exact ⟨_, by simp only [pageBitmapClear, hmap, hset, Option.bind_eq_bind, Option.bind_some]; rfl⟩

theorem pageBitmapGet_spec (hs : PageShape cfg maps) {order bit : Nat}
    (hb : (Block.mk order bit).InRange (pageOrderMax cfg) 8) :
    pageBitmapGet maps order bit = some (if freeOf maps order bit then 1#32 else 0#32) := by
  obtain ⟨map, hmap, _, hlen⟩ := hs.row hb.1
  simp only [pageBitmapGet, freeOf, hmap, Option.bind_eq_bind, Option.bind_some]
  exact bitmapGetBit_spec map bit (Nat.lt_of_lt_of_le hb.2 hlen)

theorem pageFirstBit_spec (hs : PageShape cfg maps) {order : Nat}
    (ho : order ≤ pageOrderMax cfg) :
    ∃ n, pageFirstBit cfg maps order = some n ∧
      IsFirst (freeOf maps order) (8 * 2 ^ (pageOrderMax cfg - order)) n := by
  obtain ⟨map, hmap, hsz, hlen⟩ := hs.row ho
  obtain ⟨n, hn, hfirst⟩ := findFirstBit_spec map _ hlen
  refine ⟨n, by simp [pageFirstBit, hmap, hsz, hn], ?_⟩
  have hrow : freeOf maps order = testBit map := by
    funext i
    simp [freeOf, hmap]
  rwa [hrow]

theorem pageFirstBit_eq (hs : PageShape cfg maps) {order n : Nat} (ho : order ≤ pageOrderMax cfg)
    (hn : IsFirst (freeOf maps order) (8 * 2 ^ (pageOrderMax cfg - order)) n) :
    pageFirstBit cfg maps order = some n := by
  obtain ⟨m, hm, hfirst⟩ := pageFirstBit_spec hs ho
  rw [hm, hfirst.unique hn]

/-- The bitmaps represent a tiling by their free pages and the held blocks, in which
no two buddies are both free. -/
structure PageRep (cfg : PageSizeSelect) (maps : PageBitmap) (held : List Block) : Prop where
  shape : PageShape cfg maps
  tiles : Tiles (pageOrderMax cfg) 8 (freeOf maps) held
  coalesced : Coalesced (pageOrderMax cfg) (freeOf maps)

section Alloc
variable {held : List Block}

private theorem findFirstFreePage_spec (hs : PageShape cfg maps) {order : Nat}
    (ho : order ≤ pageOrderMax cfg) :
    ∃ r, findFirstFreePage cfg maps order = some r ∧
      (r < 0 ↔ ∀ i < 8 * 2 ^ (pageOrderMax cfg - order), freeOf maps order i = false) := by
  obtain ⟨n, hn, hle, hset, hclear⟩ := pageFirstBit_spec hs ho
  obtain ⟨_, _, hsz, _⟩ := hs.row ho
  refine ⟨_, by simp only [findFirstFreePage, hn, hsz, Option.bind_eq_bind, Option.bind_some]; rfl,
    ?_⟩
  by_cases hlt : n < 8 * 2 ^ (pageOrderMax cfg - order)
  · rw [if_neg (by omega)]
    constructor
    · intro h
      omega
    · intro h
      rw [h n hlt] at hset
      exact absurd (hset hlt) (by simp)
  · rw [if_pos (by omega)]
    refine ⟨fun _ i hi => hclear i (by omega), fun _ => by decide⟩

private theorem findOrder_spec (hs : PageShape cfg maps) (n i : Nat)
    (hn : n = pageOrderMax cfg + 1 - i) :
    ∃ j, findOrder cfg maps n i = some j ∧ i ≤ j ∧
      (∀ o, i ≤ o → o < j → o ≤ pageOrderMax cfg →
        ∀ k < 8 * 2 ^ (pageOrderMax cfg - o), freeOf maps o k = false) ∧
      (j ≤ pageOrderMax cfg →
        ∃ k < 8 * 2 ^ (pageOrderMax cfg - j), freeOf maps j k = true) := by
  induction n generalizing i with
  | zero => exact ⟨i, rfl, Nat.le_refl _, fun o h1 h2 => by omega, fun h => by omega⟩
  | succ n ih =>
      have hi : i ≤ pageOrderMax cfg := by omega
      obtain ⟨r, hr, hneg⟩ := findFirstFreePage_spec hs hi
      by_cases hlt : r < 0
      · obtain ⟨j, hj, hij, hnone, hsome⟩ := ih (i + 1) (by omega)
        refine ⟨j, by simp [findOrder, hr, hlt, hj], by omega, fun o h1 h2 h3 => ?_, hsome⟩
        rcases Nat.lt_or_eq_of_le h1 with h1 | rfl
        · exact hnone o h1 h2 h3
        · exact hneg.mp hlt
      · refine ⟨i, by simp [findOrder, hr, hlt], Nat.le_refl _, fun o h1 h2 => by omega,
          fun _ => ?_⟩
        by_contra hno
        apply hlt
        apply hneg.mpr
        intro k hk
        by_contra hk'
        exact hno ⟨k, hk, by simpa using hk'⟩

/-- The state of the splitting loop at order `o`: the page that is being split is the
first free one of its order and the only one that breaks the invariant. -/
structure Splitting (cfg : PageSizeSelect) (maps : PageBitmap) (held : List Block)
    (lo o k : Nat) : Prop where
  shape : PageShape cfg maps
  le : o ≤ pageOrderMax cfg
  free : freeOf maps o k = true
  first : ∀ j < k, freeOf maps o j = false
  tiles : Tiles (pageOrderMax cfg) 8 ((freeOf maps).set ⟨o, k⟩ false) (⟨o, k⟩ :: held)
  coalesced : Coalesced (pageOrderMax cfg) ((freeOf maps).set ⟨o, k⟩ false)
  below : ∀ o', lo ≤ o' → o' < o → ∀ i, freeOf maps o' i = false

theorem Splitting.inRange {lo o k : Nat} (h : Splitting cfg maps held lo o k) :
    (Block.mk o k).InRange (pageOrderMax cfg) 8 :=
  h.tiles.held_inRange _ (List.mem_cons_self ..)

theorem Splitting.pageFirstBit {lo o k : Nat} (h : Splitting cfg maps held lo o k) :
    pageFirstBit cfg maps o = some k :=
  pageFirstBit_eq h.shape h.le ⟨Nat.le_of_lt h.inRange.2, fun _ => h.free, h.first⟩

private theorem set_set_false (free : FreeMap) (a b c : Block) (hab : a ≠ b) (hbc : b ≠ c)
    (hb : free b.order b.idx = false) :
    ((((free.set a false).set b true).set c true).set b false) =
      (free.set a false).set c true := by
  have hba : ¬ (b.order = a.order ∧ b.idx = a.idx) := fun h => hab (by
    cases a
    cases b
    simp_all)
  have hbc' : ¬ (b.order = c.order ∧ b.idx = c.idx) := fun h => hbc (by
    cases b
    cases c
    simp_all)
  funext o i
  simp only [FreeMap.set]
  by_cases h : o = b.order ∧ i = b.idx
  · obtain ⟨rfl, rfl⟩ := h
    simp [hba, hbc', hb]
  · simp [h]

private theorem buddyIdx_odd (k : Nat) : buddyIdx (2 * k + 1) = 2 * k := by
  rw [buddyIdx, if_pos (by omega)]
  omega

theorem splitFirstFreePage_spec {lo o k : Nat} (h : Splitting cfg maps held lo (o + 1) k)
    (hlo : lo ≤ o) :
    ∃ maps', splitFirstFreePage cfg maps (o + 1) = some maps' ∧
      Splitting cfg maps' held lo o (2 * k) := by
  have hlow : ∀ i, freeOf maps o i = false := h.below o hlo (Nat.lt_succ_self o)
  have htiles := h.tiles.split
  have hlower : (Block.mk o (2 * k)).InRange (pageOrderMax cfg) 8 :=
    htiles.held_inRange _ (List.mem_cons_self ..)
  have hupper : (Block.mk o (2 * k + 1)).InRange (pageOrderMax cfg) 8 :=
    htiles.free_inRange _ _ (by simp [FreeMap.set])
  obtain ⟨m1, h1⟩ := pageBitmapClear_isSome h.shape h.inRange
  obtain ⟨s1, f1⟩ := pageBitmapClear_spec h.shape h1
  obtain ⟨m2, h2⟩ := pageBitmapSet_isSome s1 hlower
  obtain ⟨s2, f2⟩ := pageBitmapSet_spec s1 h2
  obtain ⟨m3, h3⟩ := pageBitmapSet_isSome s2 hupper
  obtain ⟨s3, f3⟩ := pageBitmapSet_spec s2 h3
  have hfree : freeOf m3 =
      (((freeOf maps).set ⟨o + 1, k⟩ false).set ⟨o, 2 * k⟩ true).set ⟨o, 2 * k + 1⟩ true := by
    rw [f3, f2, f1]
  have hset : (freeOf m3).set ⟨o, 2 * k⟩ false =
      ((freeOf maps).set ⟨o + 1, k⟩ false).set ⟨o, 2 * k + 1⟩ true := by
    rw [hfree]
    exact set_set_false _ _ _ _ (by simp) (by simp) (hlow _)
  refine ⟨m3, ?_, ?_⟩
  · simp only [splitFirstFreePage, h.pageFirstBit, h1, Option.bind_eq_bind, Option.bind_some,
      Nat.add_sub_cancel, Nat.mul_comm k 2, h2, h3]
  · refine ⟨s3, Nat.le_of_succ_le h.le, ?_, ?_, ?_, ?_, ?_⟩
    · rw [hfree]
      simp [FreeMap.set]
    · intro j hj
      rw [hfree]
      have hne : j ≠ 2 * k + 1 := by omega
      simp [FreeMap.set, Nat.ne_of_lt hj, hne, hlow]
    · rw [hset]
      exact htiles
    · rw [hset]
      apply h.coalesced.set_true
      intro _
      simp [buddyIdx_odd, FreeMap.set, hlow]
    · intro o' h1 h2 i
      rw [hfree]
      simp [FreeMap.set, Nat.ne_of_lt h2, Nat.ne_of_lt (Nat.lt_succ_of_lt h2),
        h.below o' h1 (Nat.lt_succ_of_lt h2)]

theorem splitDown_spec {lo k : Nat} (n : Nat) (h : Splitting cfg maps held lo (lo + n) k) :
    ∃ maps' k', splitDown cfg lo n maps = some maps' ∧ Splitting cfg maps' held lo lo k' := by
  induction n generalizing maps k with
  | zero => exact ⟨maps, k, rfl, h⟩
  | succ n ih =>
      obtain ⟨m1, h1, hs⟩ := splitFirstFreePage_spec (o := lo + n) h (Nat.le_add_right _ _)
      obtain ⟨m2, k', h2, hs2⟩ := ih hs
      refine ⟨m2, k', ?_, hs2⟩
      rw [splitDown, show lo + n + 1 = (lo + n) + 1 from rfl, h1]
      exact h2

theorem exists_first {p : Nat → Bool} {size k : Nat} (hk : k < size) (hp : p k = true) :
    ∃ n < size, p n = true ∧ ∀ j < n, p j = false := by
  have hex : ∃ n, p n = true := ⟨k, hp⟩
  refine ⟨Nat.find hex, Nat.lt_of_le_of_lt (Nat.find_min' hex hp) hk, Nat.find_spec hex,
    fun j hj => ?_⟩
  simpa using Nat.find_min hex hj

/-- `alloc_pages` either finds no free page of any sufficient order, or hands out a
block that it takes out of the free map. -/
theorem allocPages_spec (h : PageRep cfg maps held) (start : Word) (order : Nat) :
    (allocPages cfg start maps order = some (maps, none) ∧
      ∀ o, order ≤ o → ∀ i, freeOf maps o i = false) ∨
    (order ≤ pageOrderMax cfg ∧ ∃ maps' idx,
      allocPages cfg start maps order = some (maps', some (pageIdxToAddr start idx order)) ∧
        PageRep cfg maps' (⟨order, idx⟩ :: held)) := by
  obtain ⟨j, hj, hle, hnone, hsome⟩ := findOrder_spec h.shape _ order rfl
  have hempty : ∀ o, order ≤ o → o < j → ∀ i, freeOf maps o i = false := by
    intro o h1 h2 i
    by_contra hf
    have hr := h.tiles.free_inRange o i (by simpa using hf)
    exact hf (hnone o h1 h2 hr.1 i hr.2)
  by_cases hmax : j > pageOrderMax cfg
  · refine Or.inl ⟨by simp [allocPages, hj, hmax], fun o h1 i => ?_⟩
    by_cases h2 : o < j
    · exact hempty o h1 h2 i
    · by_contra hf
      have hr := h.tiles.free_inRange o i (by simpa using hf)
      have hle : o ≤ pageOrderMax cfg := hr.1
      omega
  · obtain ⟨k0, hk0, hf0⟩ := hsome (by omega)
    obtain ⟨k, hk, hf, hfirst⟩ := exists_first hk0 hf0
    have hsplit : Splitting cfg maps held order (order + (j - order)) k := by
      rw [Nat.add_sub_cancel' hle]
      exact ⟨h.shape, by omega, hf, hfirst, h.tiles.take ⟨j, k⟩ hf, h.coalesced.set_false _, hempty⟩
    obtain ⟨m1, k1, h1, hs1⟩ := splitDown_spec _ hsplit
    obtain ⟨m2, h2⟩ := pageBitmapClear_isSome hs1.shape hs1.inRange
    obtain ⟨s2, f2⟩ := pageBitmapClear_spec hs1.shape h2
    refine Or.inr ⟨hs1.le, m2, k1, ?_, s2, ?_, ?_⟩
    · simp [allocPages, hj, hmax, h1, hs1.pageFirstBit, h2]
    · rw [f2]
      exact hs1.tiles
    · rw [f2]
      exact hs1.coalesced

theorem exists_free_of_allocPages (hs : PageShape cfg maps) {start addr : Word} {order : Nat}
    (halloc : allocPages cfg start maps order = some (maps', some addr)) :
    ∃ o, order ≤ o ∧ ∃ i, freeOf maps o i = true := by
  obtain ⟨j, hj, hle, -, hsome⟩ := findOrder_spec hs _ order rfl
  by_cases hmax : j > pageOrderMax cfg
  · simp [allocPages, hj, hmax] at halloc
  · obtain ⟨k, -, hfree⟩ := hsome (by omega)
    exact ⟨j, hle, k, hfree⟩

end Alloc

section Free
variable {held : List Block}

theorem addrToPageIdx_spec (start : Word) (idx order : Nat)
    (h : idx * 2 ^ (order + 8) < 2 ^ 32) :
    (addrToPageIdx start (start + BitVec.ofNat 32 (idx * 2 ^ (order + 8))) order).toNat = idx := by
  rw [addrToPageIdx, BitVec.add_comm, BitVec.add_sub_cancel]
  simp only [BitVec.toNat_ushiftRight, BitVec.toNat_ofNat]
  rw [Nat.mod_eq_of_lt h, Nat.shiftRight_eq_div_pow, Nat.mul_div_cancel _ (Nat.two_pow_pos _)]

/-- Rounding an address of the region down commutes with taking the region as base,
if the base itself is a multiple of the rounding. -/
theorem mask_addr (start : Word) (k off : Nat) (hk : k < 32) (hs : 2 ^ k ∣ start.toNat) :
    (start + BitVec.ofNat 32 off) &&& ~~~((1#32 <<< k) - 1) =
      start + BitVec.ofNat 32 (off / 2 ^ k * 2 ^ k) := by
  apply BitVec.eq_of_toNat_eq
  rw [and_mask_toNat _ _ hk, BitVec.toNat_add, BitVec.toNat_add, BitVec.toNat_ofNat,
    BitVec.toNat_ofNat, Nat.add_mod_mod, Nat.add_mod_mod]
  obtain ⟨q, hq⟩ := hs
  have hpow : 2 ^ 32 = 2 ^ k * 2 ^ (32 - k) := by
    rw [← Nat.pow_add, Nat.add_sub_cancel' (Nat.le_of_lt hk)]
  rw [hq, hpow, Nat.mod_mul_right_div_self, Nat.mul_add_div (Nat.two_pow_pos k),
    Nat.mul_comm (2 ^ k) (2 ^ (32 - k)), ← Nat.mul_mod_mul_right, Nat.add_mul, Nat.mul_comm q]

theorem getBuddyIndex_toNat (idx : Word) (h : idx.toNat < 2 ^ 31) :
    (getBuddyIndex idx).toNat = buddyIdx idx.toNat := by
  have hmod : (idx % 2 : Word).toNat = idx.toNat % 2 := BitVec.toNat_umod
  have hone : (1 : Word).toNat = 1 := rfl
  unfold getBuddyIndex buddyIdx
  by_cases hodd : idx.toNat % 2 = 1
  · rw [if_pos hodd, if_pos]
    · rw [BitVec.toNat_sub, hone]
      omega
    · intro hz
      rw [hz] at hmod
      simp at hmod
      omega
  · rw [if_neg hodd, if_neg]
    · rw [BitVec.toNat_add, hone]
      omega
    · simp only [ne_eq, not_not]
      apply BitVec.eq_of_toNat_eq
      rw [hmod]
      simp
      omega

theorem pageSectionSize_eq (cfg : PageSizeSelect) :
    pageSectionSize cfg = 8 * 2 ^ pageOrderMax cfg * 2 ^ 8 := by
  cases cfg <;> rfl

theorem pageOrderSz_getElem {order : Nat} (ho : order ≤ pageOrderMax cfg) :
    (pageOrderSz cfg)[order]? = some (2 ^ (order + 8)) := by
  cases cfg <;> simp only [pageOrderMax] at ho <;> interval_cases order <;> rfl

theorem block_offset_lt {order idx : Nat} (h : (Block.mk order idx).InRange (pageOrderMax cfg) 8) :
    idx * 2 ^ (order + 8) < pageSectionSize cfg := by
  have hlt : idx * 2 ^ order + 0 < 8 * 2 ^ pageOrderMax cfg := h.start_lt (Nat.two_pow_pos _)
  rw [Nat.pow_add, ← Nat.mul_assoc, pageSectionSize_eq]
  exact Nat.mul_lt_mul_of_pos_right hlt (by decide)

theorem pageSectionSize_le (cfg : PageSizeSelect) : pageSectionSize cfg ≤ 2 ^ 16 := by
  cases cfg <;> decide

theorem pageOrderMax_le (cfg : PageSizeSelect) : pageOrderMax cfg ≤ 5 := by
  cases cfg <;> decide

private theorem buddy_inRange {order idx : Nat} (ho : order < pageOrderMax cfg)
    (h : (Block.mk order idx).InRange (pageOrderMax cfg) 8) :
    (Block.mk order (buddyIdx idx)).InRange (pageOrderMax cfg) 8 := by
  have hlt : idx < 8 * 2 ^ (pageOrderMax cfg - order) := h.2
  have hpow : 2 ^ (pageOrderMax cfg - order) = 2 ^ (pageOrderMax cfg - order - 1) * 2 := by
    rw [← Nat.pow_succ]
    congr 1
    omega
  refine ⟨h.1, ?_⟩
  show buddyIdx idx < 8 * 2 ^ (pageOrderMax cfg - order)
  unfold buddyIdx
  rw [hpow] at hlt ⊢
  split <;> omega

theorem freePagesLoop_spec (start : Word) (hstart : 2 ^ (pageOrderMax cfg + 8) ∣ start.toNat)
    (n : Nat) {order idx : Nat} (hn : n = pageOrderMax cfg - order)
    (hs : PageShape cfg maps)
    (ht : Tiles (pageOrderMax cfg) 8 (freeOf maps) (⟨order, idx⟩ :: held))
    (hc : Coalesced (pageOrderMax cfg) (freeOf maps)) :
    ∃ maps', freePagesLoop start n maps (start + BitVec.ofNat 32 (idx * 2 ^ (order + 8))) order =
        some maps' ∧ PageRep cfg maps' held := by
  induction n generalizing maps order idx with
  | zero =>
      have hr := ht.held_inRange _ (List.mem_cons_self ..)
      have hoff := block_offset_lt hr
      have hsec := pageSectionSize_le cfg
      obtain ⟨m1, h1⟩ := pageBitmapSet_isSome hs hr
      obtain ⟨s1, f1⟩ := pageBitmapSet_spec hs h1
      refine ⟨m1, ?_, s1, ?_, ?_⟩
      · rw [freePagesLoop, addrToPageIdx_spec start idx order (by omega), h1]
      · rw [f1]
        exact ht.put
      · rw [f1]
        apply hc.set_true
        intro hlt
        simp only at hlt
        omega
  | succ n ih =>
      have hlt : order < pageOrderMax cfg := by omega
      have hr := ht.held_inRange _ (List.mem_cons_self ..)
      have hoff := block_offset_lt hr
      have hsec := pageSectionSize_le cfg
      have hidx := addrToPageIdx_spec start idx order (by omega)
      have hsmall : idx < 2 ^ 31 := by
        have hpos := Nat.two_pow_pos (order + 8)
        have := Nat.le_mul_of_pos_right idx hpos
        omega
      have hbuddy := getBuddyIndex_toNat _ (hidx ▸ hsmall)
      rw [hidx] at hbuddy
      have hbr := buddy_inRange hlt hr
      have hget := pageBitmapGet_spec hs hbr
      by_cases hfree : freeOf maps order (buddyIdx idx) = true
      · obtain ⟨m1, h1⟩ := pageBitmapClear_isSome hs hbr
        obtain ⟨s1, f1⟩ := pageBitmapClear_spec hs h1
        have hmax := pageOrderMax_le cfg
        have haddr : (start + BitVec.ofNat 32 (idx * 2 ^ (order + 8))) &&&
            ~~~((1#32 <<< (order + 1 + pageSizeMinLog)) - 1) =
            start + BitVec.ofNat 32 (idx / 2 * 2 ^ (order + 1 + 8)) := by
          have hdvd : 2 ^ (order + 1 + 8) ∣ start.toNat :=
            Nat.dvd_trans (Nat.pow_dvd_pow 2 (by omega)) hstart
          rw [mask_addr start (order + 1 + 8) _ (by omega) hdvd]
          congr 3
          rw [show 2 ^ (order + 1 + 8) = 2 * 2 ^ (order + 8) by ring,
            Nat.mul_div_mul_right _ _ (Nat.two_pow_pos _)]
        have ht' : Tiles (pageOrderMax cfg) 8 (freeOf m1) (⟨order + 1, idx / 2⟩ :: held) := by
          rw [f1]
          exact ht.merge hlt hfree
        have hc' : Coalesced (pageOrderMax cfg) (freeOf m1) := by
          rw [f1]
          exact hc.set_false _
        obtain ⟨m2, h2, hrep⟩ := ih (by omega) s1 ht' hc'
        refine ⟨m2, ?_, hrep⟩
        simp only [freePagesLoop, hbuddy, hget, hfree, if_true, h1, haddr, h2, Option.bind_eq_bind,
          Option.bind_some]
        simp
      · obtain ⟨m1, h1⟩ := pageBitmapSet_isSome hs hr
        obtain ⟨s1, f1⟩ := pageBitmapSet_spec hs h1
        refine ⟨m1, ?_, s1, ?_, ?_⟩
        · simp [freePagesLoop, hbuddy, hget, hfree, hidx, h1]
        · rw [f1]
          exact ht.put
        · rw [f1]
          exact hc.set_true _ fun _ => by simpa using hfree

theorem freePages_spec (start : Word) (hstart : 2 ^ (pageOrderMax cfg + 8) ∣ start.toNat)
    {order idx : Nat} (h : PageRep cfg maps (⟨order, idx⟩ :: held)) :
    ∃ maps', freePages cfg start maps (start + BitVec.ofNat 32 (idx * 2 ^ (order + 8))) order =
        some maps' ∧ PageRep cfg maps' held :=
  freePagesLoop_spec start hstart _ rfl h.shape h.tiles h.coalesced

end Free

end Tenok
