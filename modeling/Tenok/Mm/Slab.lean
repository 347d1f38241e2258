import Tenok.Common.Util
import Tenok.Mm.Page

/-!
`kernel/mm/slab.c`: object caches. A slab is the address of its page, which starts with
the `struct slab` header. The lists of a cache are kept as lists of slabs, and what
`alloc_pages` answers to a growing cache is an argument. `none` as the result of an
operation means that the code reads or writes outside the object it means to, so that C
gives it no meaning.
-/
namespace Tenok

/-- `struct slab` without its list node; the bitmap has one word. -/
structure Slab where
  freeBitmap : Bitmap
  freeObjects : Int
deriving DecidableEq, Repr

/-- The fields of `struct kmem_cache` that the allocator reads; sizes are
`unsigned short`. -/
structure KmemCache where
  slabsFree : List Word
  slabsPartial : List Word
  slabsFull : List Word
  objsize : Nat
  objnum : Nat
  pageOrder : Nat
deriving DecidableEq, Repr

abbrev Slabs := Word → Slab

def Slabs.set (slabs : Slabs) (addr : Word) (slab : Slab) : Slabs :=
  fun a => if a = addr then slab else slabs a

abbrev slabSize : Word := 16#32

abbrev slabData (slab : Word) : Word := slab + slabSize

def objsPerSlab (pageSize : Nat) (objsize : Word) : Word :=
  (BitVec.ofNat 32 pageSize - slabSize) / objsize

def getSlabFromObj (obj pageSize : Word) : Word := align obj pageSize

def objIndexInSlab (obj : Word) (cache : KmemCache) : Word :=
  ((obj &&& ((1#32 <<< 8) - 1#32)) - slabSize) / BitVec.ofNat 32 cache.objsize

/-- The loop of `kmem_cache_create`; the first argument bounds the iterations. -/
def findSlabOrder (cfg : PageSizeSelect) (size : Word) : Nat → Int → Word → Option (Int × Word)
  | 0, _, _ => none
  | n + 1, order, objnum =>
      if objnum.toInt < 2 ∧ order ≤ pageOrderMax cfg then do
        let pageSize ← pageOrderToSize cfg (order + 1)
        findSlabOrder cfg size n (order + 1) (objsPerSlab pageSize size)
      else some (order, objnum)

/-- `kmem_cache_create`; `mem` is the answer of `cache_caches`, and the inner `none` is
`NULL`. A size above the largest page reads in front of `page_order_sz`. -/
def kmemCacheCreate (cfg : PageSizeSelect) (size : Word) (mem : Option Word) :
    Option (Option KmemCache) := do
  let order := sizeToPageOrder cfg size
  let pageSize ← pageOrderToSize cfg order
  let (order, objnum) ← findSlabOrder cfg size (pageOrderMax cfg + 3) order
    (objsPerSlab pageSize size)
  if order > pageOrderMax cfg then pure none
  else match mem with
    | none => pure none
    | some _ => pure (some
        { slabsFree := [], slabsPartial := [], slabsFull := [],
          objsize := size.toNat % 2 ^ 16, objnum := objnum.toNat % 2 ^ 16,
          pageOrder := order.toNat % 2 ^ 16 })

/-- `kmem_cache_grow` with the page that `alloc_pages` returned. -/
def kmemCacheGrow (cache : KmemCache) (slabs : Slabs) (page : Word) : KmemCache × Slabs :=
  ({ cache with slabsFree := cache.slabsFree ++ [page] },
    slabs.set page { freeBitmap := [0#32], freeObjects := cache.objnum })

/-- `list_del` of a slab from the list it is on. -/
def KmemCache.unlink (cache : KmemCache) (slab : Word) : KmemCache :=
  { cache with
    slabsFree := cache.slabsFree.erase slab
    slabsPartial := cache.slabsPartial.erase slab
    slabsFull := cache.slabsFull.erase slab }

def KmemCache.moveToPartial (cache : KmemCache) (slab : Word) : KmemCache :=
  let cache := cache.unlink slab
  { cache with slabsPartial := cache.slabsPartial ++ [slab] }

def KmemCache.moveToFull (cache : KmemCache) (slab : Word) : KmemCache :=
  let cache := cache.unlink slab
  { cache with slabsFull := cache.slabsFull ++ [slab] }

def KmemCache.listed (cache : KmemCache) : List Word :=
  cache.slabsFree ++ cache.slabsPartial ++ cache.slabsFull

/-- The first half of `kmem_cache_alloc`: the slab to take an object from. `page` is
what `alloc_pages` answers if the cache has to grow. -/
def slabToUse (cache : KmemCache) (slabs : Slabs) (page : Option Word) :
    Option (KmemCache × Slabs × Word) :=
  match cache.slabsPartial with
  | slab :: _ => some (cache, slabs, slab)
  | [] => match cache.slabsFree with
    | slab :: _ => some (cache.moveToPartial slab, slabs, slab)
    | [] => match page with
      | none => none
      | some page =>
          let (cache, slabs) := kmemCacheGrow cache slabs page
          some (cache.moveToPartial page, slabs, page)

/-- An allocated object: its address and the slab and bit it was taken from. -/
structure SlabObj where
  obj : Word
  slab : Word
  bit : Nat
deriving DecidableEq, Repr

/-- The second half of `kmem_cache_alloc`: taking an object from a slab. -/
def takeObject (cache : KmemCache) (slabs : Slabs) (slab : Word) :
    Option (KmemCache × Slabs × SlabObj) := do
  let bit ← findFirstZeroBit (slabs slab).freeBitmap cache.objnum
  let freeBitmap ← bitmapSetBit (slabs slab).freeBitmap bit
  let obj := slabData slab + BitVec.ofNat 32 (bit * cache.objsize)
  let freeObjects := (slabs slab).freeObjects - 1
  let slabs := slabs.set slab { freeBitmap, freeObjects }
  let cache := if freeObjects = 0 then cache.moveToFull slab else cache
  pure (cache, slabs, { obj, slab, bit })

/-- `kmem_cache_alloc`; the inner `none` is `NULL`. -/
def kmemCacheAlloc (cache : KmemCache) (slabs : Slabs) (page : Option Word) :
    Option (KmemCache × Slabs × Option SlabObj) :=
  match slabToUse cache slabs page with
  | none => some (cache, slabs, none)
  | some (cache, slabs, slab) => do
      let (cache, slabs, obj) ← takeObject cache slabs slab
      pure (cache, slabs, some obj)

/-- `kmem_cache_free`, with the page that `slab_destroy` gives to `free_pages` at order
zero, if any. -/
def kmemCacheFree (cache : KmemCache) (slabs : Slabs) (obj : Word) :
    Option (KmemCache × Slabs × Option Word) := do
  let slab := getSlabFromObj obj 256#32
  let bit := objIndexInSlab obj cache
  if slab ∉ cache.listed then none
  else
    let freeBitmap ← bitmapClearBit (slabs slab).freeBitmap bit.toNat
    let freeObjects := (slabs slab).freeObjects + 1
    let slabs := slabs.set slab { freeBitmap, freeObjects }
    if freeObjects = cache.objnum then pure (cache.unlink slab, slabs, some slab)
    else if freeObjects = 1 then pure (cache.moveToPartial slab, slabs, none)
    else pure (cache, slabs, none)

end Tenok
