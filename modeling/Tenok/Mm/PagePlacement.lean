import Tenok.Mm.PageRuns

/-!
How the page allocator depends on the address of its section. `alloc_pages` and the
index computations work on offsets from `_page_mem_start`, while the mask of
`free_pages` rounds the absolute address. The linker scripts align the section to
four bytes only.
-/
namespace Tenok
open Buddy

/-- Every valid history runs through and gives the bitmaps and the offsets that it
gives with the section at address zero. -/
def PlacementIndependent (cfg : PageSizeSelect) (start : Word) : Prop :=
  ∀ ops, ValidOps cfg start (pageInit cfg) ops →
    (pageRun cfg start (pageInit cfg) ops).isSome = true ∧
      pageRun cfg start (pageInit cfg) ops = pageRun cfg 0 (pageInit cfg) ops

variable {cfg : PageSizeSelect} {start : Word}

private theorem pageIdxToAddr_eq_add (start : Word) (idx order : Nat) :
    pageIdxToAddr start idx order = start + pageIdxToAddr 0 idx order := by
  simp [pageIdxToAddr]

theorem allocPages_eq_map (cfg : PageSizeSelect) (start : Word) (maps : PageBitmap)
    (order : Nat) :
    allocPages cfg start maps order =
      (allocPages cfg 0 maps order).map fun r => (r.1, r.2.map (start + ·)) := by
  simp only [allocPages, Option.bind_eq_bind, Option.pure_def, pageIdxToAddr_eq_add start]
  rw [Option.map_bind]
  congr 1
  funext i
  by_cases hi : i > pageOrderMax cfg
  · simp [hi]
  · simp only [Function.comp_apply, if_neg hi, Option.map_bind]
    rfl

private theorem addrToPageIdx_add (start off : Word) (order : Nat) :
    addrToPageIdx start (start + off) order = off >>> (order + pageSizeMinLog) := by
  rw [addrToPageIdx, BitVec.add_comm, BitVec.add_sub_cancel]

private theorem addrToPageIdx_zero (off : Word) (order : Nat) :
    addrToPageIdx 0 off order = off >>> (order + pageSizeMinLog) := by
  rw [addrToPageIdx, show off - 0 = off from BitVec.sub_zero off]

private theorem mask_add (start off : Word) {k : Nat} (hk : k < 32)
    (hs : 2 ^ k ∣ start.toNat) :
    (start + off) &&& ~~~((1#32 <<< k) - 1) = start + (off &&& ~~~((1#32 <<< k) - 1)) := by
  have h := mask_addr start k off.toNat hk hs
  have h0 := mask_addr 0#32 k off.toNat hk (Nat.dvd_zero _)
  simp only [BitVec.ofNat_toNat, BitVec.setWidth_eq, BitVec.zero_add] at h h0
  rw [h, h0]

theorem freePagesLoop_eq_zero (hstart : 2 ^ (pageOrderMax cfg + 8) ∣ start.toNat) (n : Nat)
    (maps : PageBitmap) (off : Word) (order : Nat) (hn : n ≤ pageOrderMax cfg - order) :
    freePagesLoop start n maps (start + off) order = freePagesLoop 0 n maps off order := by
  induction n generalizing maps off order with
  | zero => rw [freePagesLoop, freePagesLoop, addrToPageIdx_add, addrToPageIdx_zero]
  | succ n ih =>
      have hmax := pageOrderMax_le cfg
      have hdvd : 2 ^ (order + 1 + pageSizeMinLog) ∣ start.toNat :=
        Nat.dvd_trans (Nat.pow_dvd_pow 2 (by simp only [pageSizeMinLog]; omega)) hstart
      have hmask := mask_add start off (by simp only [pageSizeMinLog]; omega) hdvd
      simp only [freePagesLoop, addrToPageIdx_add, addrToPageIdx_zero, hmask]
      congr 1
      funext bit
      split
      · congr 1
        funext maps
        exact ih _ _ _ (by omega)
      · rfl

theorem pageStep_eq_zero (hstart : 2 ^ (pageOrderMax cfg + 8) ∣ start.toNat) (s : PageState)
    (op : PageOp) : pageStep cfg start s op = pageStep cfg 0 s op := by
  cases op with
  | alloc order =>
      have hsub : ∀ addr : Word, start + addr - start = addr := by
        intro addr
        rw [BitVec.add_comm, BitVec.add_sub_cancel]
      simp only [pageStep, allocPages_eq_map cfg start]
      cases allocPages cfg 0 s.maps order with
      | none => rfl
      | some r =>
          obtain ⟨maps, addr⟩ := r
          cases addr with
          | none => rfl
          | some addr => simp [hsub]
  | free offset order =>
      simp only [pageStep, freePages]
      rw [freePagesLoop_eq_zero hstart _ _ _ _ (Nat.le_refl _),
        show 0 + offset = offset from BitVec.zero_add offset]

theorem pageRun_eq_zero (hstart : 2 ^ (pageOrderMax cfg + 8) ∣ start.toNat) (s : PageState)
    (ops : List PageOp) : pageRun cfg start s ops = pageRun cfg 0 s ops := by
  induction ops generalizing s with
  | nil => rfl
  | cons op ops ih => simp only [pageRun, pageStep_eq_zero hstart, ih]

/-- The history that leaves the bitmaps at an unaligned section: an allocation just
below the largest order, given back at once. -/
def mergeHistory (cfg : PageSizeSelect) : List PageOp :=
  [.alloc (pageOrderMax cfg - 1), .free 0 (pageOrderMax cfg - 1)]

/-- The bitmaps between the two calls: the second half of the first page is free. -/
def halvedMaps : PageSizeSelect → PageBitmap
  | .size32K => [[0, 0, 0, 0], [0, 0], [0], [2], [0xfe]]
  | .size64K => [[0, 0, 0, 0, 0, 0, 0, 0], [0, 0, 0, 0], [0, 0], [0], [2], [0xfe]]

private theorem pageStep_halve (cfg : PageSizeSelect) (start : Word) :
    pageStep cfg start (pageInit cfg) (.alloc (pageOrderMax cfg - 1)) =
      some (⟨halvedMaps cfg, [(0, pageOrderMax cfg - 1)]⟩, some 0) := by
  have h0 : allocPages cfg 0 (pageInit cfg).maps (pageOrderMax cfg - 1) =
      some (halvedMaps cfg, some 0) := by
    cases cfg <;> decide +kernel
  simp only [pageStep, allocPages_eq_map cfg start, h0]
  simp [pageInit]

theorem validOps_mergeHistory (cfg : PageSizeSelect) (start : Word) :
    ValidOps cfg start (pageInit cfg) (mergeHistory cfg) := by
  refine ⟨trivial, ?_⟩
  rw [pageStep_halve]
  refine ⟨List.mem_singleton.mpr rfl, ?_⟩
  split <;> exact trivial

private theorem addrToPageIdx_below (hs : ¬ 2 ^ (pageOrderMax cfg + 8) ∣ start.toNat) :
    256 ≤ (addrToPageIdx start
      (start &&& ~~~((1#32 <<< (pageOrderMax cfg + 8)) - 1)) (pageOrderMax cfg)).toNat := by
  have hmax := pageOrderMax_le cfg
  have hlt := start.isLt
  have hmask := and_mask_toNat start (pageOrderMax cfg + 8) (by omega)
  rw [addrToPageIdx, BitVec.toNat_ushiftRight, Nat.shiftRight_eq_div_pow, BitVec.toNat_sub, hmask]
  have hmod : start.toNat % 2 ^ (pageOrderMax cfg + 8) ≠ 0 := fun h => hs (Nat.dvd_of_mod_eq_zero h)
  cases cfg <;> simp only [pageOrderMax, pageSizeMinLog] at hmod ⊢ <;> omega

private theorem pageRun_mergeHistory (hs : ¬ 2 ^ (pageOrderMax cfg + 8) ∣ start.toNat) :
    pageRun cfg start (pageInit cfg) (mergeHistory cfg) = none := by
  have hout : ∀ maps idx, 256 ≤ idx → (maps[pageOrderMax cfg]?).map List.length = some 1 →
      pageBitmapSet maps (pageOrderMax cfg) idx = none := by
    intro maps idx hidx hlen
    rw [Option.map_eq_some_iff] at hlen
    obtain ⟨map, hmap, hlen⟩ := hlen
    have hnone : map[idx / 32]? = none := by
      rw [List.getElem?_eq_none]
      omega
    simp [pageBitmapSet, hmap, bitmapSetBit, hnone]
  have hbelow := addrToPageIdx_below hs
  have hfree : freePages cfg start (halvedMaps cfg) (start + 0) (pageOrderMax cfg - 1) = none := by
    have hzero : addrToPageIdx start start (pageOrderMax cfg - 1) = 0 := by
      rw [addrToPageIdx, BitVec.sub_self]
      simp
    have hget : pageBitmapGet (halvedMaps cfg) (pageOrderMax cfg - 1) 1 = some 1 := by
      cases cfg <;> decide
    obtain ⟨maps, hclear, hlen⟩ : ∃ maps, pageBitmapClear (halvedMaps cfg) (pageOrderMax cfg - 1) 1 =
        some maps ∧ (maps[pageOrderMax cfg]?).map List.length = some 1 := by
      cases cfg <;> exact ⟨_, rfl, by decide⟩
    have hsucc : pageOrderMax cfg - 1 + 1 = pageOrderMax cfg := by cases cfg <;> rfl
    have hfuel : pageOrderMax cfg - (pageOrderMax cfg - 1) = 1 := by cases cfg <;> rfl
    have hbuddy : (getBuddyIndex 0).toNat = 1 := by decide
    rw [freePages, hfuel, show start + 0 = start from BitVec.add_zero start]
    simp only [freePagesLoop, hzero, hbuddy, hget, hclear, hsucc, Option.bind_eq_bind,
      Option.bind_some]
    rw [if_pos (by decide)]
    exact hout _ _ hbelow hlen
  simp only [mergeHistory, pageRun, pageStep_halve, Option.bind_eq_bind, Option.bind_some]
  rw [pageStep, hfree]
  rfl

/-- The placement of the section makes no difference exactly when it is a multiple of
the largest page size. -/
theorem placementIndependent_iff (cfg : PageSizeSelect) (start : Word) :
    PlacementIndependent cfg start ↔ 2 ^ (pageOrderMax cfg + 8) ∣ start.toNat := by
  constructor
  · intro h
    by_contra hs
    have hsome := (h _ (validOps_mergeHistory cfg start)).1
    rw [pageRun_mergeHistory hs] at hsome
    exact Bool.noConfusion hsome
  · intro hstart ops hops
    obtain ⟨s, rets, hrun, _⟩ := pageRun_spec hstart ops (pageInv_init cfg) hops
    exact ⟨by rw [hrun]; rfl, pageRun_eq_zero hstart _ _⟩

/-- A section four bytes into RAM satisfies the linker script. -/
theorem placementIndependent_not_at_word :
    4 ∣ (0x20000004#32).toNat ∧ ¬ PlacementIndependent .size64K 0x20000004 := by
  refine ⟨by decide, fun h => ?_⟩
  have hrun := (h [.alloc 4, .free 0 4] (by decide +kernel)).1
  revert hrun
  decide +kernel

end Tenok
