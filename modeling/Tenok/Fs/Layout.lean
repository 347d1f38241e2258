import Mathlib.Data.List.GetD
import Tenok.Fs.Directories
import Tenok.Lib.Linked

/-!
Blocks over whole runs: each belongs to one directory, which fills it with two dentries, or to
one file, whose blocks are linked in the order in which it got them.
-/
namespace Tenok

namespace Rootfs
variable {s s' : Rootfs} {own : Nat → List Nat} {mounting : Option Nat} {devs : Nat}
  {i j dir addr k n : Nat} {bs : List Nat} {m : Prop}

/-- The address of a dentry of a directory with these blocks. -/
def slot (s : Rootfs) (bs : List Nat) (i : Nat) : Nat :=
  s.blkAddr (bs.getD (i / 2) 0) + sizeofDentry * (i % 2)

/-- A directory with `n` dentries, which are on the storage until it is loaded. -/
structure DirOk (s : Rootfs) (bs : List Nat) (mounting : Prop) (i : Inode) (n : Nat) : Prop where
  list : i.iDentry = some ((List.range n).map (s.slot bs))
  blocks : bs.length = (n + 1) / 2
  counted : i.iSync = true ∨ mounting → i.iSize = sizeofDentry * n ∧ i.iBlocks = (n + 1) / 2
  stored : ¬ (i.iSync = true ∨ mounting) →
    n = 0 ∧ (s.storages i.iRdev).Counts (storedInode i)
  device : i.iSync = true ∨ i.iRdev ≠ rdevRootfs

/-- A file whose blocks are linked in this order. -/
structure FileOk (s : Rootfs) (bs : List Nat) (i : Inode) : Prop where
  blocks : i.iBlocks = bs.length
  linked : Linked s.bNext i.iData (bs.map s.blkAddr)

structure InodeOk (s : Rootfs) (devs : Nat) (bs : List Nat) (mounting : Prop) (i : Inode) :
    Prop where
  rdev : i.iRdev < devs
  dir : i.iMode = sIfdir → ∃ n, DirOk s bs mounting i n
  file : i.iMode = sIfreg → i.iRdev = rdevRootfs → FileOk s bs i

def usedBlks (s : Rootfs) : Set Nat := {k | k < fsBlkCnt ∧ s.bitmapBlks k = true}

/-- Every inode owns blocks; a directory may be at its mounting. The inodes are on the first
`devs` storages. -/
structure Laid (s : Rootfs) (own : Nat → List Nat) (mounting : Option Nat) (devs : Nat) :
    Prop where
  fits : 0 < s.sBlkAddr ∧ s.sBlkAddr + fsBlkSize * fsBlkCnt ≤ 2 ^ 32
  mounted : 0 < devs
  blocks : Allotment s.usedBlks own
  unused : ∀ i, s.bitmapInodes i = false → own i = [] ∧ s.inodes i = {}
  inodes : ∀ i, s.bitmapInodes i = true → InodeOk s devs (own i) (mounting = some i) (s.inodes i)

/-- What the blocks of an inode depend on. -/
structure SameStore (s s' : Rootfs) : Prop where
  sBlkAddr : s'.sBlkAddr = s.sBlkAddr
  memory : s'.memory = s.memory
  storages : s'.storages = s.storages
  mountCnt : s'.mountCnt = s.mountCnt

theorem SameStore.blkAddr (h : SameStore s s') : s'.blkAddr = s.blkAddr := by
  funext k
  rw [Rootfs.blkAddr, h.sBlkAddr, Rootfs.blkAddr]

theorem SameStore.slot (h : SameStore s s') (bs : List Nat) : s'.slot bs = s.slot bs := by
  funext i
  rw [Rootfs.slot, h.blkAddr, Rootfs.slot]

theorem SameStore.bNext (h : SameStore s s') : s'.bNext = s.bNext := by
  funext a
  rw [Rootfs.bNext, h.memory, Rootfs.bNext]

theorem InodeOk.same {i : Inode} (h : InodeOk s devs bs m i) (hsame : SameStore s s') :
    InodeOk s' devs bs m i where
  rdev := h.rdev
  dir hmode := by
    obtain ⟨n, hdir⟩ := h.dir hmode
    exact ⟨n, hsame.slot bs ▸ hdir.list, hdir.blocks, hdir.counted,
      hsame.storages ▸ hdir.stored, hdir.device⟩
  file hmode hrdev := by
    obtain ⟨hblocks, hlinked⟩ := h.file hmode hrdev
    exact ⟨hblocks, by rwa [hsame.bNext, hsame.blkAddr]⟩

theorem InodeOk.memory {inode : Inode} {memory : Nat → Byte} (h : InodeOk s devs bs m inode)
    (hlinks : ∀ k ∈ bs,
      ({ s with memory } : Rootfs).bNext (s.blkAddr k) = s.bNext (s.blkAddr k)) :
    InodeOk { s with memory } devs bs m inode where
  rdev := h.rdev
  dir hmode := by
    obtain ⟨n, hdir⟩ := h.dir hmode
    exact ⟨n, hdir.list, hdir.blocks, hdir.counted, hdir.stored, hdir.device⟩
  file hmode hrdev := by
    obtain ⟨hblocks, hlinked⟩ := h.file hmode hrdev
    refine ⟨hblocks, hlinked.congr fun a ha => ?_⟩
    obtain ⟨k, hk, rfl⟩ := List.mem_map.mp ha
    exact hlinks k hk

/-- A change of one inode, of its blocks and of memory that the others do not depend on. It may
begin or end its mounting. -/
theorem Laid.update {f : Inode → Inode} {mounting' : Option Nat} {memory : Nat → Byte}
    (h : Laid s own mounting devs) (hi : s.bitmapInodes i = true)
    (hblocks : Allotment s.usedBlks (Function.update own i bs))
    (hok : InodeOk { s with memory } devs bs (mounting' = some i) (f (s.inodes i)))
    (hothers : ∀ j ≠ i, (mounting' = some j ↔ mounting = some j) ∧ ∀ k ∈ own j,
      ({ s with memory } : Rootfs).bNext (s.blkAddr k) = s.bNext (s.blkAddr k)) :
    Laid ({ s with memory }.setInode i f) (Function.update own i bs) mounting' devs where
  fits := h.fits
  mounted := h.mounted
  blocks := hblocks
  unused j hj := by
    have hne : j ≠ i := by
      rintro rfl
      exact absurd hi (by simp [show s.bitmapInodes j = false from hj])
    obtain ⟨hown, hfree⟩ := h.unused j hj
    exact ⟨(Function.update_of_ne hne ..).trans hown, (Function.update_of_ne hne ..).trans hfree⟩
  inodes j hj := by
    have hsame : SameStore { s with memory } ({ s with memory }.setInode i f) :=
      ⟨rfl, rfl, rfl, rfl⟩
    by_cases hij : j = i
    · subst hij
      simp only [Rootfs.setInode, Function.update_self]
      exact hok.same hsame
    · simp only [Rootfs.setInode, Function.update_of_ne hij]
      obtain ⟨hmount, hlinks⟩ := hothers j hij
      exact propext hmount ▸ ((h.inodes j hj).memory hlinks).same hsame

theorem Laid.setMounting {f : Inode → Inode} {mounting' : Option Nat}
    (h : Laid s own mounting devs) (hi : s.bitmapInodes i = true)
    (hok : InodeOk s devs (own i) (mounting' = some i) (f (s.inodes i)))
    (hothers : ∀ j ≠ i, mounting' = some j ↔ mounting = some j) :
    Laid (s.setInode i f) own mounting' devs := by
  have hown : Function.update own i (own i) = own := Function.update_eq_self ..
  have hnew := h.update hi (hown.symm ▸ h.blocks) hok fun j hj => ⟨hothers j hj, fun _ _ => rfl⟩
  rwa [hown] at hnew

theorem Laid.setInode {f : Inode → Inode} (h : Laid s own mounting devs)
    (hi : s.bitmapInodes i = true)
    (hok : InodeOk s devs (own i) (mounting = some i) (f (s.inodes i))) :
    Laid (s.setInode i f) own mounting devs :=
  h.setMounting hi hok fun _ _ => Iff.rfl

theorem Laid.same (h : Laid s own mounting devs) (hsame : SameStore s s')
    (hinodes : s'.inodes = s.inodes) (hbitmap : s'.bitmapInodes = s.bitmapInodes)
    (hblks : s.usedBlks ⊆ s'.usedBlks) : Laid s' own mounting devs where
  fits := hsame.sBlkAddr ▸ h.fits
  mounted := h.mounted
  blocks := h.blocks.mono hblks
  unused i hi := hinodes ▸ h.unused i (hbitmap ▸ hi)
  inodes i hi := hinodes ▸ (h.inodes i (hbitmap ▸ hi)).same hsame

theorem fsAllocInode_spec (h : s.fsAllocInode = some (i, s')) :
    s.bitmapInodes i = false ∧ s' = { s.setInode i fun n => { n with iIno := i } with
      sInodeCnt := s.sInodeCnt + 1
      bitmapInodes := Function.update s.bitmapInodes i true } := by
  obtain ⟨k, hk, hpair⟩ := Option.map_eq_some_iff.mp h
  obtain ⟨rfl, rfl⟩ := Prod.mk.inj hpair
  exact ⟨by simpa using List.find?_some hk, rfl⟩

theorem Laid.fsAllocInode (h : Laid s own mounting devs) (halloc : s.fsAllocInode = some (i, s')) :
    Laid s' own mounting devs ∧ own i = [] ∧ s'.inodes i = { iIno := i } := by
  obtain ⟨hfree, rfl⟩ := fsAllocInode_spec halloc
  obtain ⟨hown, hempty⟩ := h.unused i hfree
  have hsame : SameStore s { s.setInode i fun n => { n with iIno := i } with
      sInodeCnt := s.sInodeCnt + 1
      bitmapInodes := Function.update s.bitmapInodes i true } := ⟨rfl, rfl, rfl, rfl⟩
  refine ⟨⟨h.fits, h.mounted, h.blocks, fun j hj => ?_, fun j hj => ?_⟩, hown, ?_⟩
  · have hne : j ≠ i := by
      rintro rfl
      simp at hj
    obtain ⟨hown', hfree'⟩ := h.unused j (by simpa [hne] using hj)
    exact ⟨hown', (Function.update_of_ne hne ..).trans hfree'⟩
  · by_cases hij : j = i
    · subst hij
      simp only [Rootfs.setInode, Function.update_self, hempty]
      exact ⟨h.mounted, fun hmode => (by cases hmode), fun hmode => (by cases hmode)⟩
    · simp only [Rootfs.setInode, Function.update_of_ne hij]
      exact (h.inodes j (by simpa [hij] using hj)).same hsame
  · simp [Rootfs.setInode, hempty]

theorem fsAllocBlock_spec (h : s.fsAllocBlock = some (addr, s')) :
    ∃ k < fsBlkCnt, s.bitmapBlks k = false ∧ addr = s.blkAddr k ∧ s' = { s with
      sBlkCnt := s.sBlkCnt + 1
      bitmapBlks := Function.update s.bitmapBlks k true } := by
  obtain ⟨k, hk, hpair⟩ := Option.map_eq_some_iff.mp h
  obtain ⟨rfl, rfl⟩ := Prod.mk.inj hpair
  exact ⟨k, List.mem_range.mp (List.mem_of_find?_eq_some hk), by simpa using List.find?_some hk,
    rfl, rfl⟩

theorem usedBlks_update (hk : k < fsBlkCnt)
    (hbitmap : s'.bitmapBlks = Function.update s.bitmapBlks k true) :
    s'.usedBlks = insert k s.usedBlks := by
  ext j
  by_cases hj : j = k
  · simp [usedBlks, hbitmap, hj, hk]
  · simp [usedBlks, hbitmap, hj]

theorem notMem_usedBlks (hfree : s.bitmapBlks k = false) : k ∉ s.usedBlks := by
  simp [usedBlks, hfree]

theorem Laid.length_le (h : Laid s own mounting devs) (i : Nat) : (own i).length ≤ fsBlkCnt := by
  have hsub : (own i).toFinset ⊆ Finset.range fsBlkCnt := fun k hk =>
    Finset.mem_range.mpr (h.blocks.used i k (List.mem_toFinset.mp hk)).1
  have hcard := Finset.card_le_card hsub
  rwa [List.toFinset_card_of_nodup (h.blocks.nodup i), Finset.card_range] at hcard

theorem fsCalculateDentryBlocks_eq (n : Nat) :
    fsCalculateDentryBlocks fsBlkSize n = (n + 1) / 2 := by
  have hper : fsBlkSize / sizeofDentry = 2 := rfl
  rw [fsCalculateDentryBlocks, hper]
  split <;> omega

theorem slot_append {i : Nat} (hi : i / 2 < bs.length) (k : Nat) :
    s.slot (bs ++ [k]) i = s.slot bs i := by
  rw [slot, slot, List.getD_append _ _ _ _ hi]

/-- The next dentry of a directory would be at this address, in the last block or a new one. -/
def Reserved (s : Rootfs) (own : Nat → List Nat) (dir addr : Nat) : Prop :=
  ∃ n bs, (s.inodes dir).iDentry = some ((List.range n).map (s.slot (own dir))) ∧
    (s.inodes dir).iSize = sizeofDentry * n ∧ bs.length = (n + 1 + 1) / 2 ∧
    (∀ i < n, s.slot bs i = s.slot (own dir) i) ∧ s.slot bs n = addr ∧
    Allotment s.usedBlks (Function.update own dir bs)

theorem Laid.fsAllocateDentry (h : Laid s own mounting devs) (hdir : s.IsDir dir)
    (hcounted : (s.inodes dir).iSync = true ∨ mounting = some dir)
    (halloc : s.fsAllocateDentry dir = some (addr, s')) :
    Laid s' own mounting devs ∧ Reserved s' own dir addr ∧ SameStore s s' ∧ s'.inodes = s.inodes ∧
      s'.bitmapInodes = s.bitmapInodes := by
  obtain ⟨n, hok⟩ := (h.inodes dir hdir.1).dir hdir.2
  obtain ⟨hsize, hblocks⟩ := hok.counted hcounted
  have hlen := hok.blocks
  have hle := h.length_le dir
  have hcnt : (s.inodes dir).iSize / sizeofDentry = n := by
    rw [hsize, Nat.mul_div_cancel_left _ (by decide)]
  have hfit : ((s.inodes dir).iSize / sizeofDentry + 1 ≤
      (s.inodes dir).iBlocks * (fsBlkSize / sizeofDentry) % 2 ^ 32 ∧ (s.inodes dir).iSize ≠ 0) ↔
      n % 2 = 1 := by
    have hper : fsBlkSize / sizeofDentry = 2 := rfl
    have hmax : fsBlkCnt = 100 := rfl
    have hdentry : sizeofDentry = 56 := rfl
    rw [hcnt, hblocks, hsize, hper, hdentry, Nat.mod_eq_of_lt (by omega)]
    omega
  simp only [Rootfs.fsAllocateDentry, hfit] at halloc
  split at halloc
  · next hodd =>
      -- the last dentry is the first one of its block
      obtain ⟨last, hlast, hpair⟩ := Option.bind_eq_some_iff.mp halloc
      obtain ⟨rfl, rfl⟩ := Prod.mk.inj (Option.some.inj hpair)
      refine ⟨h, ⟨n, own dir, hok.list, hsize, by omega, fun _ _ => rfl, ?_, ?_⟩,
        ⟨rfl, rfl, rfl, rfl⟩, rfl, rfl⟩
      · obtain ⟨l, rfl⟩ : ∃ l, n = l + 1 := ⟨n - 1, by omega⟩
        rw [hok.list, Option.getD_some, List.range_succ, List.map_append, List.map_singleton,
          List.getLast?_concat, Option.some.injEq] at hlast
        have hhalf : (l + 1) / 2 = l / 2 := by omega
        have hparity : l % 2 = 0 ∧ (l + 1) % 2 = 1 := by omega
        rw [← hlast, slot, slot, hhalf, hparity.1, hparity.2]
        omega
      · rw [Function.update_eq_self]
        exact h.blocks
  · next heven =>
      obtain ⟨k, hk, hfree, rfl, rfl⟩ := fsAllocBlock_spec halloc
      have hsame : SameStore s { s with
          sBlkCnt := s.sBlkCnt + 1
          bitmapBlks := Function.update s.bitmapBlks k true } := ⟨rfl, rfl, rfl, rfl⟩
      have hused : usedBlks { s with
          sBlkCnt := s.sBlkCnt + 1
          bitmapBlks := Function.update s.bitmapBlks k true } = insert k s.usedBlks :=
        usedBlks_update hk rfl
      refine ⟨h.same hsame rfl rfl (hused ▸ Set.subset_insert ..),
        ⟨n, own dir ++ [k], hok.list, hsize, by rw [List.length_append, hlen]; simp; omega,
          fun i hi => slot_append (by omega) k, ?_, ?_⟩, hsame, rfl, rfl⟩
      · have hlast : n / 2 = (own dir).length := by omega
        rw [slot, hlast, List.getD_append_right _ _ _ _ (Nat.le_refl _), Nat.sub_self,
          show n % 2 = 0 by omega]
        rfl
      · rw [hused]
        exact h.blocks.grow (notMem_usedBlks hfree) dir

theorem Reserved.same (h : Reserved s own dir addr) (hsame : SameStore s s')
    (hlist : (s'.inodes dir).iDentry = (s.inodes dir).iDentry)
    (hsize : (s'.inodes dir).iSize = (s.inodes dir).iSize) (hused : s'.usedBlks = s.usedBlks) :
    Reserved s' own dir addr := by
  obtain ⟨n, bs, hl, hn, hlen, hslots, haddr, hblocks⟩ := h
  refine ⟨n, bs, ?_, hsize.trans hn, hlen, ?_, ?_, hused ▸ hblocks⟩
  · rw [hlist, hsame.slot, hl]
  · rw [hsame.slot, hsame.slot]
    exact hslots
  · rw [hsame.slot, haddr]

/-- What a call leaves as it is of the directory that it is for. -/
structure KeepsDir (s : Rootfs) (dir : Nat) (s' : Rootfs) : Prop where
  isDir : s.IsDir dir → s'.IsDir dir
  iSync : (s'.inodes dir).iSync = (s.inodes dir).iSync
  storages : s'.storages = s.storages
  mountCnt : s'.mountCnt = s.mountCnt

theorem Laid.insertDentry (h : Laid s own mounting devs) (hdir : s.IsDir dir)
    (hcounted : (s.inodes dir).iSync = true ∨ mounting = some dir)
    (hroom : Reserved s own dir addr) (hins : s.insertDentry dir addr = some s') :
    (∃ own', Laid s' own' mounting devs) ∧ KeepsDir s dir s' := by
  obtain ⟨list, hlist, hs'⟩ := Option.bind_eq_some_iff.mp hins
  obtain rfl := Option.some.inj hs'
  obtain ⟨n, bs, hl, hsize, hlen, hslots, rfl, hblocks⟩ := hroom
  obtain rfl := Option.some.inj (hlist.symm.trans hl)
  have hbound : bs.length ≤ fsBlkCnt := by
    have hsub : bs.toFinset ⊆ Finset.range fsBlkCnt := fun k hk => by
      have hk' := hblocks.used dir k (by simpa using hk)
      exact Finset.mem_range.mpr hk'.1
    have hnodup : bs.Nodup := by simpa using hblocks.nodup dir
    have hcard := Finset.card_le_card hsub
    rwa [List.toFinset_card_of_nodup hnodup, Finset.card_range] at hcard
  have hsize' : ((s.inodes dir).iSize + sizeofDentry) % 2 ^ 32 = sizeofDentry * (n + 1) := by
    have hmax : fsBlkCnt = 100 := rfl
    have hdentry : sizeofDentry = 56 := rfl
    rw [hsize, hdentry, Nat.mod_eq_of_lt (by omega)]
    omega
  have hcount : fsCalculateDentryBlocks fsBlkSize (sizeofDentry * (n + 1) / sizeofDentry) =
      (n + 1 + 1) / 2 := by
    rw [Nat.mul_div_cancel_left _ (by decide), fsCalculateDentryBlocks_eq]
  have hlist' : (List.range n).map (s.slot (own dir)) ++ [s.slot bs n] =
      (List.range (n + 1)).map (s.slot bs) := by
    rw [List.range_succ, List.map_append, List.map_singleton]
    refine congrArg (· ++ _) (List.map_congr_left fun i hi => ?_)
    exact (hslots i (List.mem_range.mp hi)).symm
  rw [hsize', hcount, hlist']
  have hold := h.inodes dir hdir.1
  obtain ⟨_, hok⟩ := hold.dir hdir.2
  refine ⟨⟨Function.update own dir bs, h.update hdir.1 hblocks
    ⟨hold.rdev, fun _ => ⟨n + 1, rfl, hlen, fun _ => ⟨rfl, rfl⟩, ?_, hok.device⟩, fun hmode => ?_⟩
    fun j hj => ⟨Iff.rfl, fun _ _ => rfl⟩⟩, ⟨fun hd => ⟨hd.1, ?_⟩, ?_, rfl, rfl⟩⟩
  · exact fun hnot => absurd hcounted hnot
  · have hmode' : (s.inodes dir).iMode = sIfreg := hmode
    exact absurd (hdir.2.symm.trans hmode') (by decide)
  · simp only [Rootfs.setInode, Function.update_self]
    exact hd.2
  · simp [Rootfs.setInode]

theorem KeepsDir.trans {s'' : Rootfs} (h : KeepsDir s dir s') (h' : KeepsDir s' dir s'') :
    KeepsDir s dir s'' :=
  ⟨fun hd => h'.isDir (h.isDir hd), h'.iSync.trans h.iSync, h'.storages.trans h.storages,
    h'.mountCnt.trans h.mountCnt⟩

theorem KeepsDir.refl (s : Rootfs) (dir : Nat) : KeepsDir s dir s := ⟨id, rfl, rfl, rfl⟩

theorem fsAllocInode_others (halloc : s.fsAllocInode = some (i, s'))
    (hdir : s.bitmapInodes dir = true) : dir ≠ i ∧ s'.inodes dir = s.inodes dir ∧
      s'.bitmapInodes dir = true ∧ s'.bitmapInodes i = true ∧ SameStore s s' ∧
      s'.usedBlks = s.usedBlks := by
  obtain ⟨hfree, rfl⟩ := fsAllocInode_spec halloc
  have hne : dir ≠ i := by
    rintro rfl
    exact absurd hdir (by simp [hfree])
  exact ⟨hne, Function.update_of_ne hne .., (Function.update_of_ne hne ..).trans hdir,
    Function.update_self .., ⟨rfl, rfl, rfl, rfl⟩, rfl⟩

structure NewInode (s : Rootfs) (own : Nat → List Nat) (mounting : Option Nat) (devs dir ino : Nat)
    (inode : Inode) (addr : Nat) (s' : Rootfs) : Prop where
  laid : Laid s' own mounting devs
  room : Reserved s' own dir addr
  same : SameStore s s'
  dir : s'.inodes dir = s.inodes dir ∧ s'.bitmapInodes dir = true ∧ dir ≠ ino
  inode : s'.inodes ino = inode ∧ s'.bitmapInodes ino = true
  own : own ino = []

theorem Laid.newInode {s₁ : Rootfs} {f : Inode → Inode} (h : Laid s own mounting devs)
    (hdir : s.IsDir dir) (hcounted : (s.inodes dir).iSync = true ∨ mounting = some dir)
    (honly : ∀ t ∈ mounting, t = dir) (halloc : s.fsAllocInode = some (i, s₁))
    (hok : InodeOk s devs [] False (f { iIno := i }))
    (hdentry : (s₁.setInode i f).fsAllocateDentry dir = some (addr, s')) :
    NewInode s own mounting devs dir i (f { iIno := i }) addr s' := by
  obtain ⟨h₁, hown, hnew⟩ := h.fsAllocInode halloc
  obtain ⟨hne, hinode, hbit, hbit', hsame, hused⟩ := fsAllocInode_others halloc hdir.1
  have hnot : (mounting = some i) = False := eq_false fun hm => hne (honly i hm).symm
  have hdir₂ : (s₁.setInode i f).inodes dir = s.inodes dir :=
    (Function.update_of_ne hne ..).trans hinode
  have h₂ : Laid (s₁.setInode i f) own mounting devs := h₁.setInode hbit' (by
    rw [hown, hnot, hnew]
    exact hok.same hsame)
  obtain ⟨h₃, hroom, hsame₃, hinodes, hbits⟩ := h₂.fsAllocateDentry
    ⟨hbit, by rw [hdir₂]; exact hdir.2⟩ (by rw [hdir₂]; exact hcounted) hdentry
  exact {
    laid := h₃
    room := hroom
    same := ⟨hsame₃.sBlkAddr.trans hsame.sBlkAddr, hsame₃.memory.trans hsame.memory,
      hsame₃.storages.trans hsame.storages, hsame₃.mountCnt.trans hsame.mountCnt⟩
    dir := ⟨by rw [hinodes, hdir₂], by rw [hbits]; exact hbit, hne⟩
    inode := ⟨by simp [hinodes, Rootfs.setInode, hnew], by rw [hbits]; exact hbit'⟩
    own := hown }

theorem NewInode.insert {inode : Inode} {s₁ s₂ : Rootfs}
    (hnew : NewInode s own mounting devs dir i inode addr s₁) (hdir : s.IsDir dir)
    (hcounted : (s.inodes dir).iSync = true ∨ mounting = some dir)
    (hlaid : Laid s₂ own mounting devs) (hsame : SameStore s₁ s₂)
    (hbits : s₂.bitmapInodes = s₁.bitmapInodes) (hused : s₂.usedBlks = s₁.usedBlks)
    (hrecord : ∃ iData, s₂.inodes dir = { s₁.inodes dir with iData })
    (hins : s₂.insertDentry dir addr = some s') :
    (∃ own', Laid s' own' mounting devs) ∧ KeepsDir s dir s' := by
  obtain ⟨hinode, hbit, -⟩ := hnew.dir
  obtain ⟨iData, hrecord⟩ := hrecord
  rw [hinode] at hrecord
  have hdir₂ : s₂.IsDir dir := ⟨by rw [hbits, hbit], by rw [hrecord]; exact hdir.2⟩
  have hsync : (s₂.inodes dir).iSync = (s.inodes dir).iSync := by rw [hrecord]
  have hroom := hnew.room.same hsame (by rw [hrecord, hinode]) (by rw [hrecord, hinode]) hused
  obtain ⟨howned, hkeeps⟩ := hlaid.insertDentry hdir₂ (hsync ▸ hcounted) hroom hins
  refine ⟨howned, ⟨fun _ => hkeeps.isDir hdir₂, hkeeps.iSync.trans hsync, ?_, ?_⟩⟩
  · rw [hkeeps.storages, hsame.storages, hnew.same.storages]
  · rw [hkeeps.mountCnt, hsame.mountCnt, hnew.same.mountCnt]

def addedInode (iParent fd : Nat) (n : Inode) : Inode :=
  { n with iRdev := rdevRootfs, iParent, iFd := fd, iSync := true }

def mountedInode (rdev iParent fd : Nat) (mnt : StoredInode) (n : Inode) : Inode :=
  { n with
    iMode := mnt.iMode
    iRdev := rdev
    iParent := iParent
    iFd := fd
    iSize := mnt.iSize
    iBlocks := mnt.iBlocks
    iData := mnt.iData
    iSync := false
    iDentry := some [] }

/-- The directory of a new dentry, which may be its first one. -/
def firstDentry (addr : Nat) (d : Inode) : Inode :=
  { d with iData := if d.iDentry = some [] then addr else d.iData }

/-- What `fs_add_file` does after its two tests, with the inode and the dentry that it takes. -/
structure AddsFile (s : Rootfs) (dir ino addr : Nat) (s₁ s₂ : Rootfs) : Prop where
  inodes : s.sInodeCnt < inodeMax
  files : s.fileCnt < fileMax
  inode : s.fsAllocInode = some (ino, s₁)
  dentry : (s₁.setInode ino (addedInode (s.inodes dir).iIno
    (s.fileCnt + fileReservedNum))).fsAllocateDentry dir = some (addr, s₂)

/-- With its dentry. -/
def named (s s₂ : Rootfs) (dir ino addr : Nat) (fileName : List Byte) : Rootfs :=
  s₂.setDentry addr
    { dName := fileName.take (nameMax - 1), dInode := ino, dParent := (s.inodes dir).iIno }

theorem fsAddFile_cases {fileName : List Byte} {fileType : Nat} {memory : Bool} {r : Option Nat}
    (h : s.fsAddFile dir fileName fileType memory = some (s', r)) :
    (s' = s ∧ r = none ∧ (inodeMax ≤ s.sInodeCnt ∨ fileMax ≤ s.fileCnt)) ∨
    ∃ ino addr s₁ s₂, AddsFile s dir ino addr s₁ s₂ ∧
      (((named s s₂ dir ino addr fileName).instantiate ino (s.fileCnt + fileReservedNum) fileType
          memory = none ∧ s' = named s s₂ dir ino addr fileName ∧ r = none) ∨
        ∃ s₃, (named s s₂ dir ino addr fileName).instantiate ino (s.fileCnt + fileReservedNum)
            fileType memory = some s₃ ∧ r = some ino ∧
          ({ s₃ with fileCnt := s₃.fileCnt + 1 }.setInode dir (firstDentry addr)).insertDentry dir
            addr = some s') := by
  rw [Rootfs.fsAddFile] at h
  split at h
  · next hinodes =>
      obtain ⟨rfl, rfl⟩ := Prod.mk.inj (Option.some.inj h)
      exact Or.inl ⟨rfl, rfl, Or.inl hinodes⟩
  split at h
  · next hfiles =>
      obtain ⟨rfl, rfl⟩ := Prod.mk.inj (Option.some.inj h)
      exact Or.inl ⟨rfl, rfl, Or.inr hfiles⟩
  next hinodes hfiles =>
    obtain ⟨⟨ino, s₁⟩, halloc, hrest⟩ := Option.bind_eq_some_iff.mp h
    obtain ⟨⟨addr, s₂⟩, hdentry, hfile⟩ := Option.bind_eq_some_iff.mp hrest
    refine Or.inr ⟨ino, addr, s₁, s₂,
      ⟨Nat.lt_of_not_le hinodes, Nat.lt_of_not_le hfiles, halloc, hdentry⟩, ?_⟩
    cases hinst : (named s s₂ dir ino addr fileName).instantiate ino (s.fileCnt + fileReservedNum)
        fileType memory with
    | none =>
        simp only [named] at hinst
        simp only [hinst] at hfile
        obtain ⟨rfl, rfl⟩ := Prod.mk.inj (Option.some.inj hfile)
        exact Or.inl ⟨rfl, rfl, rfl⟩
    | some s₃ =>
        simp only [named] at hinst
        simp only [hinst] at hfile
        obtain ⟨s₄, hins, hpair⟩ := Option.bind_eq_some_iff.mp hfile
        obtain ⟨rfl, rfl⟩ := Prod.mk.inj (Option.some.inj hpair)
        exact Or.inr ⟨s₃, rfl, rfl, hins⟩

theorem fsMountFile_cases {rdev : Nat} {mnt : StoredInode} {name : List Byte}
    (h : s.fsMountFile dir rdev mnt name = some s') :
    (inodeMax ≤ s.sInodeCnt ∧ s' = s) ∨
    ∃ ino addr s₁ s₂, s.sInodeCnt < inodeMax ∧
      { s with fileCnt := s.fileCnt + 1 }.fsAllocInode = some (ino, s₁) ∧
      (s₁.setInode ino (mountedInode rdev (s.inodes dir).iIno (s.fileCnt + fileReservedNum)
        mnt)).fsAllocateDentry dir = some (addr, s₂) ∧
      { s₂.setDentry addr
          { dName := name.take nameMax, dInode := ino, dParent := (s.inodes dir).iIno } with
        sInodeCnt := s₂.sInodeCnt + 1 }.insertDentry dir addr = some s' := by
  rw [Rootfs.fsMountFile] at h
  split at h
  · next hfull => exact Or.inl ⟨hfull, (Option.some.inj h).symm⟩
  · next hroom =>
      obtain ⟨⟨ino, s₁⟩, halloc, hrest⟩ := Option.bind_eq_some_iff.mp h
      obtain ⟨⟨addr, s₂⟩, hdentry, hins⟩ := Option.bind_eq_some_iff.mp hrest
      exact Or.inr ⟨ino, addr, s₁, s₂, Nat.lt_of_not_le hroom, halloc, hdentry, hins⟩

theorem Laid.fsMountFile {rdev : Nat} {mnt : StoredInode} {name : List Byte}
    (h : Laid s own mounting devs) (hdir : s.IsDir dir)
    (hcounted : (s.inodes dir).iSync = true ∨ mounting = some dir)
    (honly : ∀ t ∈ mounting, t = dir) (hrdev : rdev < devs ∧ rdev ≠ rdevRootfs)
    (hcounts : mnt.iMode = sIfdir → (s.storages rdev).Counts mnt)
    (hmount : s.fsMountFile dir rdev mnt name = some s') :
    (∃ own', Laid s' own' mounting devs) ∧ KeepsDir s dir s' := by
  obtain ⟨-, rfl⟩ | ⟨ino, addr, s₁, s₂, -, halloc, hdentry, hins⟩ := fsMountFile_cases hmount
  · exact ⟨⟨own, h⟩, .refl ..⟩
  · have h₀ : Laid { s with fileCnt := s.fileCnt + 1 } own mounting devs :=
      h.same ⟨rfl, rfl, rfl, rfl⟩ rfl rfl subset_rfl
    have hok : InodeOk { s with fileCnt := s.fileCnt + 1 } devs [] False
        (mountedInode rdev (s.inodes dir).iIno (s.fileCnt + fileReservedNum) mnt { iIno := ino }) :=
      ⟨hrdev.1, fun hmode => ⟨0, rfl, rfl, fun hor => by simp [mountedInode] at hor,
        fun _ => ⟨rfl, hcounts hmode⟩, Or.inr hrdev.2⟩, fun _ hzero => absurd hzero hrdev.2⟩
    have hnew := h₀.newInode hdir hcounted honly halloc hok hdentry
    have hlaid : Laid { s₂.setDentry addr
        { dName := name.take nameMax, dInode := ino, dParent := (s.inodes dir).iIno } with
          sInodeCnt := s₂.sInodeCnt + 1 } own mounting devs :=
      hnew.laid.same ⟨rfl, rfl, rfl, rfl⟩ rfl rfl subset_rfl
    obtain ⟨howned, hkeeps⟩ := hnew.insert hdir hcounted hlaid ⟨rfl, rfl, rfl, rfl⟩ rfl rfl
      ⟨_, rfl⟩ hins
    exact ⟨howned, ⟨hkeeps.isDir, hkeeps.iSync, hkeeps.storages, hkeeps.mountCnt⟩⟩

/-- The new inode becomes an empty file, and nothing else changes that directories depend on. -/
theorem instantiate_spec {fd fileType : Nat} {memory : Bool}
    (h : s.instantiate i fd fileType memory = some s') :
    SameStore s s' ∧ s'.bitmapInodes = s.bitmapInodes ∧ s'.usedBlks = s.usedBlks ∧
      ∃ iDentry, (fileType = sIfdir → iDentry = some []) ∧
        s'.inodes = Function.update s.inodes i { s.inodes i with
          iMode := fileType, iSize := 0, iBlocks := 0, iData := 0, iDentry } := by
  rw [Rootfs.instantiate] at h
  split at h
  · next hfifo =>
      cases memory <;> cases h
      exact ⟨⟨rfl, rfl, rfl, rfl⟩, rfl, rfl, _, fun hdir => absurd (hfifo.symm.trans hdir) (by decide),
        rfl⟩
  split at h
  · next hdev =>
      cases memory <;> cases h
      refine ⟨⟨rfl, rfl, rfl, rfl⟩, rfl, rfl, _, fun hdir => ?_, rfl⟩
      rw [hdir] at hdev
      exact absurd hdev (by decide)
  split at h
  · next hreg =>
      cases memory <;> cases h
      exact ⟨⟨rfl, rfl, rfl, rfl⟩, rfl, rfl, _, fun hdir => absurd (hreg.symm.trans hdir) (by decide),
        rfl⟩
  split at h
  · cases h
    refine ⟨⟨rfl, rfl, rfl, rfl⟩, rfl, rfl, some [], fun _ => rfl, ?_⟩
    simp [Rootfs.setInode]
  · cases h

theorem Laid.instantiate {fd fileType : Nat} {memory : Bool} (h : Laid s own mounting devs)
    (hi : s.bitmapInodes i = true) (hown : own i = [])
    (hnew : (s.inodes i).iRdev = rdevRootfs ∧ (s.inodes i).iSync = true)
    (hinst : s.instantiate i fd fileType memory = some s') : Laid s' own mounting devs := by
  obtain ⟨hsame, hbits, hused, iDentry, hempty, hinodes⟩ := instantiate_spec hinst
  have hset : Laid (s.setInode i fun n => { n with
      iMode := fileType, iSize := 0, iBlocks := 0, iData := 0, iDentry }) own mounting devs := by
    refine h.setInode hi (hown ▸ ⟨(h.inodes i hi).rdev, fun hdir => ?_, fun _ _ => ?_⟩)
    · exact ⟨0, hempty hdir, rfl, fun _ => ⟨rfl, rfl⟩, fun hnot => absurd (Or.inl hnew.2) hnot,
        Or.inl hnew.2⟩
    · exact ⟨rfl, trivial⟩
  exact hset.same ⟨hsame.sBlkAddr, hsame.memory, hsame.storages, hsame.mountCnt⟩ hinodes hbits
    hused.ge

/-- A file is added to a directory that is loaded. If it fails, what is allocated stays so. -/
theorem Laid.fsAddFile {fileName : List Byte} {fileType : Nat} {memory : Bool} {r : Option Nat}
    (h : Laid s own none devs) (hdir : s.IsDir dir) (hsync : (s.inodes dir).iSync = true)
    (hadd : s.fsAddFile dir fileName fileType memory = some (s', r)) :
    (∃ own', Laid s' own' none devs) ∧ s'.mountCnt = s.mountCnt := by
  obtain ⟨rfl, -, -⟩ | ⟨ino, addr, s₁, s₂, hadds, hfile⟩ := fsAddFile_cases hadd
  · exact ⟨⟨own, h⟩, rfl⟩
  have hnew := h.newInode hdir (Or.inl hsync) (by simp) hadds.inode
    ⟨h.mounted, fun hmode => (by cases hmode), fun hmode => (by cases hmode)⟩ hadds.dentry
  have h₃ : Laid (named s s₂ dir ino addr fileName) own none devs :=
    hnew.laid.same ⟨rfl, rfl, rfl, rfl⟩ rfl rfl subset_rfl
  obtain ⟨-, rfl, -⟩ | ⟨s₄, hinst, -, hins⟩ := hfile
  · exact ⟨⟨own, h₃⟩, hnew.same.mountCnt⟩
  · obtain ⟨hsame, hbits, hused, iDentry, -, hinodes⟩ := instantiate_spec hinst
    have h₄ : Laid s₄ own none devs := h₃.instantiate hnew.inode.2 hnew.own
      (by rw [show (named s s₂ dir ino addr fileName).inodes ino = _ from hnew.inode.1];
          exact ⟨rfl, rfl⟩) hinst
    have hdir₄ : s₄.inodes dir = s.inodes dir := by
      rw [hinodes, Function.update_of_ne hnew.dir.2.2]
      exact hnew.dir.1
    have hbit₄ : s₄.bitmapInodes dir = true := by
      rw [hbits]
      exact hnew.dir.2.1
    -- the address of the first dentry is only looked at on storages
    have h₅ : Laid ({ s₄ with fileCnt := s₄.fileCnt + 1 }.setInode dir (firstDentry addr)) own none
        devs := by
      have hcnt : Laid { s₄ with fileCnt := s₄.fileCnt + 1 } own none devs :=
        h₄.same ⟨rfl, rfl, rfl, rfl⟩ rfl rfl subset_rfl
      refine hcnt.setInode hbit₄ ?_
      have hold := h₄.inodes dir hbit₄
      refine ⟨hold.rdev, fun hmode => ?_, fun hmode => ?_⟩
      · obtain ⟨n, hok⟩ := hold.dir hmode
        refine ⟨n, hok.list, hok.blocks, hok.counted, fun hnot => absurd (Or.inl ?_) hnot,
          hok.device⟩
        rw [← hsync, ← hdir₄]
        rfl
      · have hmode' : (s₄.inodes dir).iMode = sIfreg := hmode
        rw [hdir₄, hdir.2] at hmode'
        cases hmode'
    obtain ⟨howned, hkeeps⟩ := hnew.insert hdir (Or.inl hsync) h₅
      ⟨hsame.sBlkAddr, hsame.memory, hsame.storages, hsame.mountCnt⟩ hbits hused
      ⟨_, (Function.update_self ..).trans (by rw [hnew.dir.1, hdir₄]; rfl)⟩ hins
    exact ⟨howned, hkeeps.mountCnt⟩

theorem Laid.mountLoop {rdev target passes addr : Nat} {inode : Option StoredInode}
    (h : Laid s own mounting devs) (hdir : s.IsDir target)
    (hcounted : (s.inodes target).iSync = true ∨ mounting = some target)
    (honly : ∀ t ∈ mounting, t = target) (hrdev : rdev < devs ∧ rdev ≠ rdevRootfs)
    (hcounts : (s.storages rdev).CountsAll ((s.storages rdev).visited passes addr inode))
    (hloop : mountLoop rdev target passes s addr inode = some s') :
    (∃ own', Laid s' own' mounting devs) ∧ KeepsDir s target s' := by
  induction passes generalizing s own addr inode with
  | zero => cases hloop
  | succ passes ih =>
      rw [Rootfs.mountLoop] at hloop
      obtain ⟨dentry, hdentry, hloop⟩ := Option.bind_eq_some_iff.mp hloop
      obtain ⟨mnt, hmnt, hloop⟩ := Option.bind_eq_some_iff.mp hloop
      obtain ⟨s₁, hfile, hloop⟩ := Option.bind_eq_some_iff.mp hloop
      simp only [Storage.visited, hdentry, hmnt] at hcounts
      obtain ⟨⟨own₁, h₁⟩, hkeeps⟩ := h.fsMountFile hdir hcounted honly hrdev
        (hcounts mnt List.mem_cons_self) hfile
      split at hloop
      · obtain rfl := Option.some.inj hloop
        exact ⟨⟨own₁, h₁⟩, hkeeps⟩
      · next hnext =>
          rw [if_neg hnext] at hcounts
          have hrest : (s₁.storages rdev).CountsAll
              ((s₁.storages rdev).visited passes (dentry.next - 40) (some mnt)) := by
            rw [hkeeps.storages]
            exact fun i hi => hcounts i (List.mem_cons_of_mem _ hi)
          obtain ⟨howned, hkeeps'⟩ := ih h₁ (hkeeps.isDir hdir) (hkeeps.iSync ▸ hcounted) hrest hloop
          exact ⟨howned, hkeeps.trans hkeeps'⟩

theorem Laid.startMounting (h : Laid s own none devs) (hdir : s.IsDir dir)
    (hsync : (s.inodes dir).iSync = false) :
    Laid (s.setInode dir fun n => { n with iSize := 0, iBlocks := 0 }) own (some dir) devs := by
  have hold := h.inodes dir hdir.1
  obtain ⟨n, hok⟩ := hold.dir hdir.2
  obtain ⟨rfl, -⟩ := hok.stored (by simp [hsync])
  refine h.setMounting hdir.1 ⟨hold.rdev, fun _ => ?_, fun hmode => ?_⟩ fun j hj => ?_
  · exact ⟨0, hok.list, hok.blocks, fun _ => ⟨rfl, rfl⟩, fun hnot => absurd (Or.inr rfl) hnot,
      hok.device⟩
  · have hmode' : (s.inodes dir).iMode = sIfreg := hmode
    exact absurd (hdir.2.symm.trans hmode') (by decide)
  · simp [hj.symm]

theorem Laid.endMounting (h : Laid s own mounting devs) (hdir : s.IsDir dir)
    (hcounted : (s.inodes dir).iSync = true ∨ mounting = some dir)
    (honly : ∀ t ∈ mounting, t = dir) :
    Laid (s.setInode dir fun n => { n with iSync := true }) own none devs := by
  have hold := h.inodes dir hdir.1
  obtain ⟨n, hok⟩ := hold.dir hdir.2
  refine h.setMounting hdir.1 ⟨hold.rdev, fun _ => ?_, fun hmode => ?_⟩ fun j hj => ?_
  · exact ⟨n, hok.list, hok.blocks, fun _ => hok.counted hcounted,
      fun hnot => absurd (Or.inl rfl) hnot, Or.inl rfl⟩
  · have hmode' : (s.inodes dir).iMode = sIfreg := hmode
    exact absurd (hdir.2.symm.trans hmode') (by decide)
  · simp only [reduceCtorEq, false_iff]
    exact fun hm => hj (honly j hm)

theorem Laid.fsMountDirectory {rdev passes : Nat} {src : StoredInode}
    (h : Laid s own none devs) (hdir : s.IsDir dir) (hrdev : rdev < devs ∧ rdev ≠ rdevRootfs)
    (hcounts : (s.storages rdev).CountsAll ((s.storages rdev).visited passes src.iData none))
    (hmount : s.fsMountDirectory passes rdev src dir = some s') :
    (∃ own', Laid s' own' none devs) ∧ s'.mountCnt = s.mountCnt := by
  rw [Rootfs.fsMountDirectory] at hmount
  split at hmount
  · obtain rfl := Option.some.inj hmount
    exact ⟨⟨own, h⟩, rfl⟩
  obtain ⟨s₁, hloop, hs'⟩ := Option.bind_eq_some_iff.mp hmount
  obtain rfl := Option.some.inj hs'
  by_cases hsync : (s.inodes dir).iSync = true
  · rw [if_pos hsync] at hloop
    obtain ⟨⟨own₁, h₁⟩, hkeeps⟩ := h.mountLoop hdir (Or.inl hsync) (by simp) hrdev hcounts hloop
    exact ⟨⟨own₁, h₁.endMounting (hkeeps.isDir hdir) (Or.inl (hkeeps.iSync.trans hsync)) (by simp)⟩,
      hkeeps.mountCnt⟩
  · rw [if_neg hsync] at hloop
    have hstart := h.startMounting hdir (by simpa using hsync)
    have hdir' : (s.setInode dir fun n => { n with iSize := 0, iBlocks := 0 }).IsDir dir :=
      ⟨hdir.1, by simpa [Rootfs.setInode] using hdir.2⟩
    obtain ⟨⟨own₁, h₁⟩, hkeeps⟩ :=
      hstart.mountLoop hdir' (Or.inr rfl) (by simp) hrdev hcounts hloop
    exact ⟨⟨own₁, h₁.endMounting (hkeeps.isDir hdir') (Or.inr rfl) (by simp)⟩, hkeeps.mountCnt⟩

end Rootfs

end Tenok
