import Tenok.Common.Bitops
import Tenok.Lib.Buddy

/-!
`kernel/mm/page.c`: the page allocator. `none` as the result of an operation means
that the code left one of its tables, so that C gives it no meaning; a `NULL` that
`alloc_pages` returns is a `none` inside the result. The operations take the
linker symbol `_page_mem_start` as an argument.
-/
namespace Tenok
open Buddy

inductive PageSizeSelect
  | size32K
  | size64K
deriving DecidableEq, Repr

def pageOrderMax : PageSizeSelect → Nat
  | .size32K => 4
  | .size64K => 5

abbrev pageSizeMinLog : Nat := 8

abbrev PageBitmap := List Bitmap

def pageBitmapInit : PageSizeSelect → PageBitmap
  | .size32K => [[0, 0, 0, 0], [0, 0], [0], [0], [0xff]]
  | .size64K => [[0, 0, 0, 0, 0, 0, 0, 0], [0, 0, 0, 0], [0, 0], [0], [0], [0xff]]

def pageBitmapSz : PageSizeSelect → List Nat
  | .size32K => [128, 64, 32, 16, 8]
  | .size64K => [256, 128, 64, 32, 16, 8]

def pageOrderSz : PageSizeSelect → List Nat
  | .size32K => [256, 512, 1024, 2048, 4096]
  | .size64K => [256, 512, 1024, 2048, 4096, 8192]

def pageSectionSize : PageSizeSelect → Nat
  | .size32K => 32 * 1024
  | .size64K => 64 * 1024

def sizeToPageOrder (cfg : PageSizeSelect) (size : Word) : Int :=
  match (pageOrderSz cfg).findIdx? fun sz => decide (size.toNat ≤ sz) with
  | some i => i
  | none => -1

/-- A negative order passes the check and reads in front of the table. -/
def pageOrderToSize (cfg : PageSizeSelect) (order : Int) : Option Nat :=
  if order > pageOrderMax cfg then some 0
  else if order < 0 then none
  else (pageOrderSz cfg)[order.toNat]?

/-- `((uint8_t *) map)[j]` on the little-endian target. -/
def bitmapByte (map : Bitmap) (j : Nat) : Option (BitVec 8) := do
  let word ← map[j / 4]?
  pure (word.extractLsb' (8 * (j % 4)) 8)

def popcount (byte : BitVec 8) : Nat := (List.range 8).countP fun k => byte.getLsbD k

/-- The inner loop of `get_page_total_free_size` over the first `n` bytes. -/
def countSetBits (map : Bitmap) : Nat → Option Nat
  | 0 => some 0
  | n + 1 => do
      let bitNum ← countSetBits map n
      let byte ← bitmapByte map n
      pure (bitNum + popcount byte)

def totalFreeSizeBelow (cfg : PageSizeSelect) (maps : PageBitmap) : Nat → Option Nat
  | 0 => some 0
  | n + 1 => do
      let size ← totalFreeSizeBelow cfg maps n
      let map ← maps[n]?
      let bits ← (pageBitmapSz cfg)[n]?
      let bitNum ← countSetBits map (bits / 8)
      let pageSize ← (pageOrderSz cfg)[n]?
      pure (size + bitNum * pageSize)

def getPageTotalFreeSize (cfg : PageSizeSelect) (maps : PageBitmap) : Option Nat :=
  totalFreeSizeBelow cfg maps (pageOrderMax cfg + 1)

def pageBitmapSet (maps : PageBitmap) (order bit : Nat) : Option PageBitmap := do
  let map ← maps[order]?
  let map ← bitmapSetBit map bit
  pure (maps.set order map)

def pageBitmapClear (maps : PageBitmap) (order bit : Nat) : Option PageBitmap := do
  let map ← maps[order]?
  let map ← bitmapClearBit map bit
  pure (maps.set order map)

def pageBitmapGet (maps : PageBitmap) (order bit : Nat) : Option Word := do
  let map ← maps[order]?
  bitmapGetBit map bit

/-- `find_first_bit(page_bitmap[order], page_bitmap_sz[order])`. -/
def pageFirstBit (cfg : PageSizeSelect) (maps : PageBitmap) (order : Nat) : Option Nat := do
  let map ← maps[order]?
  let size ← (pageBitmapSz cfg)[order]?
  findFirstBit map size

def findFirstFreePage (cfg : PageSizeSelect) (maps : PageBitmap) (order : Nat) : Option Int := do
  let pageIdx ← pageFirstBit cfg maps order
  let size ← (pageBitmapSz cfg)[order]?
  pure (if pageIdx ≥ size then -1 else pageIdx)

def splitFirstFreePage (cfg : PageSizeSelect) (maps : PageBitmap) (order : Nat) :
    Option PageBitmap := do
  let pageIdx ← pageFirstBit cfg maps order
  let maps ← pageBitmapClear maps order pageIdx
  let maps ← pageBitmapSet maps (order - 1) (pageIdx * 2)
  pageBitmapSet maps (order - 1) (pageIdx * 2 + 1)

def getBuddyIndex (idx : Word) : Word := if idx % 2 ≠ 0 then idx - 1 else idx + 1

def pageIdxToAddr (start : Word) (idx order : Nat) : Word :=
  let offset := BitVec.ofNat 32 idx * (1#32 <<< (order + pageSizeMinLog))
  start + offset

def addrToPageIdx (start addr : Word) (order : Nat) : Word :=
  (addr - start) >>> (order + pageSizeMinLog)

/-- The first loop of `alloc_pages` from order `i` on; the first argument is the
number of orders that are left. -/
def findOrder (cfg : PageSizeSelect) (maps : PageBitmap) : Nat → Nat → Option Nat
  | 0, i => some i
  | n + 1, i => do
      let pageIdx ← findFirstFreePage cfg maps i
      if pageIdx < 0 then findOrder cfg maps n (i + 1) else pure i

/-- The second loop of `alloc_pages`, from order `order + n` down to `order`. -/
def splitDown (cfg : PageSizeSelect) (order : Nat) : Nat → PageBitmap → Option PageBitmap
  | 0, maps => some maps
  | n + 1, maps => do
      let maps ← splitFirstFreePage cfg maps (order + n + 1)
      splitDown cfg order n maps

def allocPages (cfg : PageSizeSelect) (start : Word) (maps : PageBitmap) (order : Nat) :
    Option (PageBitmap × Option Word) := do
  let i ← findOrder cfg maps (pageOrderMax cfg + 1 - order) order
  if i > pageOrderMax cfg then pure (maps, none)
  else
    let maps ← splitDown cfg order (i - order) maps
    let pageIdx ← pageFirstBit cfg maps order
    let maps ← pageBitmapClear maps order pageIdx
    pure (maps, some (pageIdxToAddr start pageIdx order))

/-- The loop of `free_pages`; the first argument is the number of orders that are left
below `PAGE_ORDER_MAX`. The mask is applied to the absolute address. -/
def freePagesLoop (start : Word) : Nat → PageBitmap → Word → Nat → Option PageBitmap
  | 0, maps, addr, order => pageBitmapSet maps order (addrToPageIdx start addr order).toNat
  | n + 1, maps, addr, order => do
      let pageIdx := addrToPageIdx start addr order
      let buddyIdx := getBuddyIndex pageIdx
      let bit ← pageBitmapGet maps order buddyIdx.toNat
      if bit ≠ 0 then
        let maps ← pageBitmapClear maps order buddyIdx.toNat
        let mask := ~~~((1#32 <<< (order + 1 + pageSizeMinLog)) - 1)
        freePagesLoop start n maps (addr &&& mask) (order + 1)
      else pageBitmapSet maps order pageIdx.toNat

def freePages (cfg : PageSizeSelect) (start : Word) (maps : PageBitmap) (addr : Word)
    (order : Nat) : Option PageBitmap :=
  freePagesLoop start (pageOrderMax cfg - order) maps addr order

end Tenok
