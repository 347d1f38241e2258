import Tenok.Fs.Walks
import Tenok.Fs.Counters

/-!
The file behind a descriptor. An inode has its entry of the file table when it is created, or when
it is opened for the first time if it comes from a storage.
-/
namespace Tenok

def FsFile.fInode : FsFile → Option Nat
  | .rootfs => none
  | .fifo inode | .device inode | .regFile inode => some inode

namespace Rootfs
variable {s s' t u : Rootfs} {dir d i j ino addr fd fileType passes n k : Nat} {inode : Inode}
  {r : Option Nat} {mounting : Option Nat} {fileName : List Byte} {memory : Bool}

/-- The dentries are at the two places of their blocks, and each is in one directory. A directory
that counts its dentries has the place behind an odd number of them for itself. -/
structure Slots (s : Rootfs) (mounting : Option Nat) : Prop where
  inside : ∀ d, ∀ a ∈ s.dentriesOf d, ∃ k < fsBlkCnt, s.bitmapBlks k = true ∧
    (a = s.blkAddr k ∨ a = s.blkAddr k + sizeofDentry)
  apart : ∀ d d', ∀ a ∈ s.dentriesOf d, a ∈ s.dentriesOf d' → d = d'
  counted : ∀ d, s.IsDir d → (s.inodes d).iSync = true ∨ mounting = some d →
    ∃ n, (s.inodes d).iSize = sizeofDentry * n ∧ (s.inodes d).iBlocks = (n + 1) / 2 ∧
      n ≤ (List.range inodeMax).countP s.bitmapInodes ∧
      (n % 2 = 1 → ∃ k, (s.dentriesOf d).getLast? = some (s.blkAddr k) ∧
        ∀ d', s.blkAddr k + sizeofDentry ∉ s.dentriesOf d')

def Unlisted (s : Rootfs) (addr : Nat) : Prop := ∀ d, addr ∉ s.dentriesOf d

theorem inUse_le (s : Rootfs) : (List.range inodeMax).countP s.bitmapInodes ≤ inodeMax :=
  List.countP_le_length.trans_eq List.length_range

theorem dentryFits_iff (hsize : (s.inodes dir).iSize = sizeofDentry * n)
    (hblocks : (s.inodes dir).iBlocks = (n + 1) / 2) (hn : n ≤ inodeMax) :
    s.DentryFits dir ↔ n % 2 = 1 :=
  dentry_room_iff hsize hblocks hn

theorem blkAddr_ne (k k' : Nat) : s.blkAddr k ≠ s.blkAddr k' + sizeofDentry := by
  have hblk : fsBlkSize = 128 := rfl
  have hdentry : sizeofDentry = 56 := rfl
  rw [blkAddr, blkAddr, hblk, hdentry]
  omega

theorem Slots.unlisted (h : Slots s mounting) (hfree : s.bitmapBlks k = false) :
    Unlisted s (s.blkAddr k) ∧ Unlisted s (s.blkAddr k + sizeofDentry) := by
  have hused : ∀ d a, a ∈ s.dentriesOf d → a ≠ s.blkAddr k ∧ a ≠ s.blkAddr k + sizeofDentry := by
    intro d a ha
    obtain ⟨k', -, hbit, hplace⟩ := h.inside d a ha
    have hne : k' ≠ k := by
      rintro rfl
      rw [hfree] at hbit
      cases hbit
    obtain rfl | rfl := hplace
    · exact ⟨fun heq => hne (blkAddr_injective heq), blkAddr_ne k' k⟩
    · exact ⟨(blkAddr_ne k k').symm, fun heq => hne (blkAddr_injective (Nat.add_right_cancel heq))⟩
  exact ⟨fun d hd => (hused d _ hd).1 rfl, fun d hd => (hused d _ hd).2 rfl⟩

/-- The place of a new dentry, in a directory that counts its dentries or is empty. -/
structure Fresh (s : Rootfs) (dir addr : Nat) (bitmapBlks : Nat → Bool) : Prop where
  unlisted : Unlisted s addr
  inside : ∃ k < fsBlkCnt, bitmapBlks k = true ∧
    (addr = s.blkAddr k ∨ addr = s.blkAddr k + sizeofDentry)
  grows : ∀ k, s.bitmapBlks k = true → bitmapBlks k = true
  /-- Nobody else has reserved it. -/
  reserved : ∀ d ≠ dir, ∀ k, (s.dentriesOf d).getLast? = some (s.blkAddr k) →
    addr ≠ s.blkAddr k + sizeofDentry
  counted : ∀ n, (s.inodes dir).iSize = sizeofDentry * n → (s.inodes dir).iBlocks = (n + 1) / 2 →
    n ≤ inodeMax → (n + 1) % 2 = 1 →
    ∃ k, addr = s.blkAddr k ∧ Unlisted s (s.blkAddr k + sizeofDentry)

theorem Slots.fresh {bitmapBlks : Nat → Bool} (h : Slots s mounting) (hdir : s.IsDir dir)
    (hready : ((s.inodes dir).iSync = true ∨ mounting = some dir) ∨ (s.inodes dir).iSize = 0)
    (hplace : s.Place dir addr bitmapBlks) : Fresh s dir addr bitmapBlks := by
  obtain ⟨hfits, rfl, last, hlast, rfl⟩ | ⟨hfits, k, hk, hfree, rfl, rfl⟩ := hplace
  · have hcounted : (s.inodes dir).iSync = true ∨ mounting = some dir :=
      hready.resolve_right hfits.2
    obtain ⟨n, hsize, hblocks, hn, hodd⟩ := h.counted dir hdir hcounted
    have hn' := hn.trans (inUse_le s)
    have hparity := (dentryFits_iff hsize hblocks hn').mp hfits
    obtain ⟨k, hk, hreserved⟩ := hodd hparity
    obtain rfl := Option.some.inj (hlast.symm.trans hk)
    obtain ⟨k', hk', hbit, hplace⟩ := h.inside dir _ (List.mem_of_getLast? hk)
    obtain rfl : k = k' := by
      obtain heq | heq := hplace
      · exact blkAddr_injective heq
      · exact absurd heq (blkAddr_ne k k')
    refine ⟨hreserved, ⟨k, hk', hbit, Or.inr rfl⟩, fun _ => id, fun d hd k' hlast' heq => ?_,
      fun m hsize' _ _ hodd' => ?_⟩
    · obtain rfl := blkAddr_injective (Nat.add_right_cancel heq)
      exact hd (h.apart d dir _ (List.mem_of_getLast? hlast') (List.mem_of_getLast? hk))
    · have hmn : m = n := Nat.eq_of_mul_eq_mul_left (by decide) (hsize'.symm.trans hsize)
      omega
  · obtain ⟨hunlisted, hbehind⟩ := h.unlisted hfree
    refine ⟨hunlisted, ⟨k, hk, Function.update_self .., Or.inl rfl⟩, fun j hj => ?_,
      fun d _ k' _ => blkAddr_ne k k', fun _ _ _ _ _ => ⟨k, rfl, hbehind⟩⟩
    by_cases hjk : j = k
    · rw [hjk, Function.update_self]
    · rwa [Function.update_of_ne hjk]

structure NewFile (s s' : Rootfs) (dir ino addr : Nat) (inode : Inode) : Prop where
  free : s.bitmapInodes ino = false
  bound : ino < inodeMax
  ne : dir ≠ ino
  bits : s'.bitmapInodes = Function.update s.bitmapInodes ino true
  inode : s'.inodes ino = inode
  counts : ∃ iData, s'.inodes dir = { s.inodes dir with
    iData
    iDentry := some (s.dentriesOf dir ++ [addr])
    iSize := ((s.inodes dir).iSize + sizeofDentry) % 2 ^ 32
    iBlocks := fsCalculateDentryBlocks fsBlkSize
      (((s.inodes dir).iSize + sizeofDentry) % 2 ^ 32 / sizeofDentry) }
  others : ∀ j, j ≠ ino → j ≠ dir → s'.inodes j = s.inodes j
  dentry : ∃ d, d.dInode = ino ∧ s'.dentries = Function.update s.dentries addr d
  place : s.Place dir addr s'.bitmapBlks
  same : SameStore s s'

theorem SameStore.trans (h : SameStore s t) (h' : SameStore t u) : SameStore s u :=
  ⟨h'.sBlkAddr.trans h.sBlkAddr, h'.memory.trans h.memory, h'.storages.trans h.storages,
    h'.mountCnt.trans h.mountCnt⟩

theorem Takes.newFile (h : Takes s t dir ino addr inode) (hdir : s.bitmapInodes dir = true)
    (hlists : Lists t s' dir addr) : NewFile s s' dir ino addr inode := by
  have hne : dir ≠ ino := by
    rintro rfl
    exact absurd hdir (by simp [h.free])
  have hdir' : t.inodes dir = s.inodes dir := (h.others hdir).2
  obtain ⟨iData, hinodes⟩ := hlists.inodes
  exact {
    free := h.free
    bound := h.bound
    ne := hne
    bits := hlists.bits.trans h.bits
    inode := by rw [hinodes, Function.update_of_ne hne.symm, h.taken.2]
    counts := ⟨iData, by rw [hinodes, Function.update_self, dentriesOf, hdir', dentriesOf]⟩
    others := fun j hj hjdir => by
      rw [hinodes, Function.update_of_ne hjdir, h.inodes, Function.update_of_ne hj]
    dentry := by rw [hlists.dentries]; exact h.dentry
    place := by rw [hlists.blks]; exact h.place
    same := h.same.trans hlists.same }

theorem Takes.instantiated (h : Takes s t dir ino addr inode)
    (hinst : Instantiates t u ino fd fileType) : ∃ iDentry,
      (iDentry = some [] ∨ iDentry = inode.iDentry) ∧ Takes s u dir ino addr
        { inode with iMode := fileType, iSize := 0, iBlocks := 0, iData := 0, iDentry } := by
  obtain ⟨iDentry, hlist, hinodes⟩ := hinst.inodes
  rw [h.taken.2] at hlist hinodes
  exact ⟨iDentry, hlist.imp_right And.right, {
    free := h.free
    bound := h.bound
    bits := hinst.bits.trans h.bits
    inodes := by rw [hinodes, h.inodes, Function.update_idem]
    dentry := by rw [hinst.dentries]; exact h.dentry
    place := by rw [hinst.blks]; exact h.place
    same := h.same.trans hinst.same }⟩

theorem Takes.counted (h : Takes s t dir ino addr inode) :
    Takes s { t with fileCnt := t.fileCnt + 1 } dir ino addr inode :=
  ⟨h.free, h.bound, h.bits, h.inodes, h.dentry, h.place,
    ⟨h.same.sBlkAddr, h.same.memory, h.same.storages, h.same.mountCnt⟩⟩

theorem NewFile.dentriesOf_dir (h : NewFile s s' dir ino addr inode) :
    s'.dentriesOf dir = s.dentriesOf dir ++ [addr] := by
  obtain ⟨iData, hdir⟩ := h.counts
  rw [dentriesOf, hdir, Option.getD_some]

theorem NewFile.mem_dentriesOf (h : NewFile s s' dir ino addr inode)
    (hlist : inode.iDentry.getD [] = []) {a : Nat} (ha : a ∈ s'.dentriesOf d) :
    a ∈ s.dentriesOf d ∨ (d = dir ∧ a = addr) := by
  by_cases hd : d = dir
  · subst hd
    rw [h.dentriesOf_dir] at ha
    exact (List.mem_append.mp ha).imp_right fun ha => ⟨rfl, List.mem_singleton.mp ha⟩
  by_cases hino : d = ino
  · rw [dentriesOf, hino, h.inode, hlist] at ha
    exact absurd ha List.not_mem_nil
  · rw [dentriesOf, h.others d hino hd] at ha
    exact Or.inl ha

theorem NewFile.slots (h : NewFile s s' dir ino addr inode) (hslots : Slots s mounting)
    (hfresh : Fresh s dir addr s'.bitmapBlks) (hlist : inode.iDentry.getD [] = [])
    (hempty : inode.iSync = true → inode.iSize = 0 ∧ inode.iBlocks = 0)
    (hmounting : mounting ≠ some ino) : Slots s' mounting := by
  have haddr := h.same.blkAddr
  have hcount := countP_range_update h.bound h.free
  rw [← h.bits] at hcount
  refine ⟨fun d a ha => ?_, fun d d' a ha ha' => ?_, fun d hd hcounted => ?_⟩
  · rw [haddr]
    obtain ha | ⟨-, rfl⟩ := h.mem_dentriesOf hlist ha
    · obtain ⟨k, hk, hbit, hplace⟩ := hslots.inside d a ha
      exact ⟨k, hk, hfresh.grows k hbit, hplace⟩
    · exact hfresh.inside
  · obtain hold | ⟨rfl, rfl⟩ := h.mem_dentriesOf hlist ha
    · obtain hold' | ⟨rfl, rfl⟩ := h.mem_dentriesOf hlist ha'
      · exact hslots.apart d d' a hold hold'
      · exact absurd hold (hfresh.unlisted d)
    · obtain hold' | ⟨rfl, -⟩ := h.mem_dentriesOf hlist ha'
      · exact absurd hold' (hfresh.unlisted d')
      · rfl
  · rw [haddr, hcount]
    by_cases hino : d = ino
    · subst hino
      obtain ⟨hsize, hblocks⟩ := hempty (by
        rw [← h.inode]
        exact hcounted.resolve_right hmounting)
      rw [h.inode, hsize, hblocks]
      exact ⟨0, rfl, rfl, Nat.zero_le _, by simp⟩
    by_cases hddir : d = dir
    · subst hddir
      obtain ⟨iData, hinode⟩ := h.counts
      have hd' : s.IsDir d := by
        refine ⟨?_, ?_⟩
        · have hbit := hd.1
          rwa [h.bits, Function.update_of_ne hino] at hbit
        · have hmode := hd.2
          rwa [hinode] at hmode
      rw [hinode] at hcounted ⊢
      obtain ⟨n, hsize, hblocks, hn, -⟩ := hslots.counted d hd' hcounted
      have hn' := hn.trans (inUse_le s)
      have hsize' : ((s.inodes d).iSize + sizeofDentry) % 2 ^ 32 = sizeofDentry * (n + 1) := by
        have hmax : inodeMax = 100 := rfl
        have hdentry : sizeofDentry = 56 := rfl
        rw [hsize, hdentry, Nat.mod_eq_of_lt (by omega)]
        omega
      refine ⟨n + 1, hsize', ?_, Nat.succ_le_succ hn, fun hparity => ?_⟩
      · show fsCalculateDentryBlocks fsBlkSize
          (((s.inodes d).iSize + sizeofDentry) % 2 ^ 32 / sizeofDentry) = _
        rw [hsize', Nat.mul_div_cancel_left _ (by decide), fsCalculateDentryBlocks_eq]
      · obtain ⟨k, rfl, hbehind⟩ := hfresh.counted n hsize hblocks hn' hparity
        refine ⟨k, by rw [h.dentriesOf_dir, List.getLast?_concat], fun d' hd' => ?_⟩
        obtain hold | ⟨-, heq⟩ := h.mem_dentriesOf hlist hd'
        · exact hbehind d' hold
        · exact blkAddr_ne k k heq.symm
    · have hsame := h.others d hino hddir
      have hd' : s.IsDir d := by
        refine ⟨?_, by rw [← hsame]; exact hd.2⟩
        have hbit := hd.1
        rwa [h.bits, Function.update_of_ne hino] at hbit
      rw [hsame] at hcounted ⊢
      obtain ⟨n, hsize, hblocks, hn, hodd⟩ := hslots.counted d hd' hcounted
      refine ⟨n, hsize, hblocks, hn.trans (Nat.le_succ _), fun hparity => ?_⟩
      obtain ⟨k, hlast, hreserved⟩ := hodd hparity
      refine ⟨k, by rwa [dentriesOf, hsame], fun d' hd' => ?_⟩
      obtain hold | ⟨rfl, heq⟩ := h.mem_dentriesOf hlist hd'
      · exact hreserved d' hold
      · exact hfresh.reserved d hddir k hlast heq.symm

theorem Slots.same {mounting' : Option Nat} (h : Slots s mounting)
    (hdentries : ∀ d, t.dentriesOf d = s.dentriesOf d) (hstart : t.sBlkAddr = s.sBlkAddr)
    (hblks : ∀ k, s.bitmapBlks k = true → t.bitmapBlks k = true)
    (hcount : (List.range inodeMax).countP s.bitmapInodes ≤
      (List.range inodeMax).countP t.bitmapInodes)
    (hcounted : ∀ d, t.IsDir d → (t.inodes d).iSync = true ∨ mounting' = some d →
      (s.IsDir d ∧ ((s.inodes d).iSync = true ∨ mounting = some d) ∧
        (t.inodes d).iSize = (s.inodes d).iSize ∧ (t.inodes d).iBlocks = (s.inodes d).iBlocks) ∨
      ((t.inodes d).iSize = 0 ∧ (t.inodes d).iBlocks = 0)) : Slots t mounting' := by
  have haddr : t.blkAddr = s.blkAddr := by
    funext k
    rw [blkAddr, hstart, blkAddr]
  refine ⟨fun d a ha => ?_, fun d d' a ha ha' => ?_, fun d hd hc => ?_⟩
  · rw [haddr]
    rw [hdentries] at ha
    obtain ⟨k, hk, hbit, hplace⟩ := h.inside d a ha
    exact ⟨k, hk, hblks k hbit, hplace⟩
  · rw [hdentries] at ha ha'
    exact h.apart d d' a ha ha'
  · obtain ⟨hd', hc', hsize, hblocks⟩ | ⟨hsize, hblocks⟩ := hcounted d hd hc
    · obtain ⟨n, hn, hm, hle, hodd⟩ := h.counted d hd' hc'
      refine ⟨n, hsize.trans hn, hblocks.trans hm, hle.trans hcount, fun hparity => ?_⟩
      obtain ⟨k, hlast, hreserved⟩ := hodd hparity
      refine ⟨k, by rw [hdentries, haddr, hlast], fun d' => ?_⟩
      rw [hdentries, haddr]
      exact hreserved d'
    · exact ⟨0, hsize, hblocks, Nat.zero_le _, by simp⟩

theorem Slots.update {mounting' : Option Nat} (h : Slots s mounting)
    (hinodes : t.inodes = Function.update s.inodes i inode)
    (hsame : inode.iMode = (s.inodes i).iMode ∧ inode.iDentry = (s.inodes i).iDentry)
    (hbits : t.bitmapInodes = s.bitmapInodes) (hstart : t.sBlkAddr = s.sBlkAddr)
    (hblks : ∀ k, s.bitmapBlks k = true → t.bitmapBlks k = true)
    (hothers : ∀ d ≠ i, mounting' = some d → mounting = some d)
    (hcounts : s.IsDir i → inode.iSync = true ∨ mounting' = some i →
      (((s.inodes i).iSync = true ∨ mounting = some i) ∧ inode.iSize = (s.inodes i).iSize ∧
        inode.iBlocks = (s.inodes i).iBlocks) ∨ (inode.iSize = 0 ∧ inode.iBlocks = 0)) :
    Slots t mounting' := by
  refine h.same (fun d => ?_) hstart hblks (by rw [hbits]) fun d hd hc => ?_
  · rw [dentriesOf, dentriesOf]
    obtain ⟨hd, rfl⟩ | hd := inodes_update hinodes d
    · rw [hd, hsame.2]
    · rw [hd]
  · by_cases hdi : d = i
    · subst hdi
      have hinode : t.inodes d = inode := by rw [hinodes, Function.update_self]
      have hdir : s.IsDir d := ⟨hbits ▸ hd.1, by rw [← hsame.1, ← hinode]; exact hd.2⟩
      rw [hinode] at hc ⊢
      exact (hcounts hdir hc).imp_left fun hcount => ⟨hdir, hcount⟩
    · have hinode : t.inodes d = s.inodes d := by rw [hinodes, Function.update_of_ne hdi]
      rw [hinode] at hc ⊢
      exact Or.inl ⟨⟨hbits ▸ hd.1, hinode ▸ hd.2⟩, hc.imp_right (hothers d hdi), rfl, rfl⟩

theorem Slots.startMounting (h : Slots s none) (dir : Nat) :
    Slots (s.setInode dir fun n => { n with iSize := 0, iBlocks := 0 }) (some dir) := by
  refine h.update rfl ⟨rfl, rfl⟩ rfl rfl (fun _ => id) ?_ fun _ _ => Or.inr ⟨rfl, rfl⟩
  intro d hd heq
  exact absurd (Option.some.inj heq).symm hd

theorem Slots.endMounting (h : Slots s mounting)
    (hready : (s.inodes dir).iSync = true ∨ mounting = some dir) :
    Slots (s.setInode dir fun n => { n with iSync := true }) none :=
  h.update rfl ⟨rfl, rfl⟩ rfl rfl (fun _ => id) (by simp)
    fun _ _ => Or.inl ⟨hready, rfl, rfl⟩

theorem Takes.slots (h : Takes s t dir ino addr inode) (hslots : Slots s mounting)
    (hfresh : Fresh s dir addr t.bitmapBlks) (hlist : inode.iDentry.getD [] = s.dentriesOf ino)
    (hmode : inode.iMode ≠ sIfdir) : Slots t mounting := by
  have hcount := countP_range_update h.bound h.free
  rw [← h.bits] at hcount
  have hinode := inodes_update h.inodes
  refine hslots.same (fun d => ?_) h.same.sBlkAddr hfresh.grows (by omega) fun d hd hc => ?_
  · rw [dentriesOf]
    obtain ⟨hd, rfl⟩ | hd := hinode d
    · rw [hd, hlist]
    · rw [hd, dentriesOf]
  · obtain ⟨hd', -⟩ | hd' := hinode d
    · have hdir := hd.2
      rw [hd'] at hdir
      exact absurd hdir hmode
    · have hne : d ≠ ino := by
        rintro rfl
        have hdir := hd.2
        rw [h.taken.2] at hdir
        exact hmode hdir
      have hbit := hd.1
      rw [h.bits, Function.update_of_ne hne] at hbit
      rw [hd'] at hc ⊢
      exact Or.inl ⟨⟨hbit, hd' ▸ hd.2⟩, hc, rfl, rfl⟩

/-- The descriptor is in the table and has the file of the inode. -/
def Opened (s : Rootfs) (ino fd : Nat) : Prop :=
  fd < fileReservedNum + fileMax ∧ ∃ f, s.files fd = some f ∧ f.fInode = some ino

/-- Files are not taken out of the table, and none is put where the counter has been. -/
structure KeepsFiles (s t : Rootfs) : Prop where
  files : ∀ fd f, s.files fd = some f → t.files fd = some f
  below : ∀ fd < s.fileCnt + fileReservedNum, s.files fd = none → t.files fd = none
  fileCnt : s.fileCnt ≤ t.fileCnt

theorem KeepsFiles.refl (s : Rootfs) : KeepsFiles s s :=
  ⟨fun _ _ h => h, fun _ _ h => h, Nat.le_refl _⟩

theorem KeepsFiles.trans (h : KeepsFiles s t) (h' : KeepsFiles t u) : KeepsFiles s u :=
  ⟨fun fd f hf => h'.files fd f (h.files fd f hf),
    fun fd hlt hf => h'.below fd (hlt.trans_le (Nat.add_le_add_right h.fileCnt _))
      (h.below fd hlt hf), h.fileCnt.trans h'.fileCnt⟩

theorem KeepsFiles.opened (h : KeepsFiles s t) (ho : Opened s ino fd) : Opened t ino fd := by
  obtain ⟨hlt, f, hf, hinode⟩ := ho
  exact ⟨hlt, f, h.files fd f hf, hinode⟩

/-- The file of an inode is in the table exactly if the inode does not come from a storage or is
synchronized. -/
def Entry (s : Rootfs) (ino : Nat) : Prop :=
  if (s.inodes ino).iRdev = rdevRootfs ∨ (s.inodes ino).iSync = true then
    Opened s ino (s.inodes ino).iFd
  else s.files (s.inodes ino).iFd = none ∧ (s.inodes ino).iFd < s.fileCnt + fileReservedNum

theorem Entry.same (h : Entry s ino) (hkeeps : KeepsFiles s t)
    (hrdev : (t.inodes ino).iRdev = (s.inodes ino).iRdev)
    (hsync : (t.inodes ino).iSync = (s.inodes ino).iSync)
    (hfd : (t.inodes ino).iFd = (s.inodes ino).iFd) : Entry t ino := by
  rw [Entry] at h ⊢
  rw [hrdev, hsync, hfd]
  split
  · next hor =>
      rw [if_pos hor] at h
      exact hkeeps.opened h
  · next hnot =>
      rw [if_neg hnot] at h
      exact ⟨hkeeps.below _ h.2 h.1,
        h.2.trans_le (Nat.add_le_add_right hkeeps.fileCnt _)⟩

/-- A listed inode has the directory as its parent, and is listed there once. -/
def Child (s : Rootfs) (d a : Nat) : Prop :=
  (s.dentries a).dInode ≠ 0 ∧ (s.inodes (s.dentries a).dInode).iParent = d ∧
    ∀ b ∈ s.dentriesOf d, (s.dentries b).dInode = (s.dentries a).dInode → b = a

/-- Directories have directories as parents, and what they list has its entry in the table. -/
structure Registry (s : Rootfs) : Prop where
  use : InUse s
  child : ∀ d, ∀ a ∈ s.dentriesOf d, Child s d a
  unused : ∀ i, s.bitmapInodes i = false → s.inodes i = {}
  mounts : 0 < s.mountCnt
  above : ∀ fd, s.fileCnt + fileReservedNum ≤ fd → s.files fd = none
  parent : ∀ i, s.IsDir i → (s.inodes (s.inodes i).iParent).iMode = sIfdir
  unloaded : ∀ i, s.IsDir i → (s.inodes i).iSync = false → (s.inodes i).iRdev ≠ rdevRootfs
  entry : ∀ d, ∀ a ∈ s.dentriesOf d, (s.inodes (s.dentries a).dInode).iMode ≠ sIfdir →
    Entry s (s.dentries a).dInode

theorem NewFile.old (h : NewFile s s' dir ino addr inode) (hj : s.bitmapInodes j = true) :
    j ≠ ino ∧ (s'.inodes j).iMode = (s.inodes j).iMode ∧
      (s'.inodes j).iParent = (s.inodes j).iParent ∧ (s'.inodes j).iRdev = (s.inodes j).iRdev ∧
      (s'.inodes j).iSync = (s.inodes j).iSync ∧ (s'.inodes j).iFd = (s.inodes j).iFd := by
  have hne : j ≠ ino := by
    rintro rfl
    exact absurd hj (by simp [h.free])
  by_cases hjdir : j = dir
  · obtain ⟨iData, hinode⟩ := h.counts
    rw [hjdir, hinode]
    exact ⟨h.ne, rfl, rfl, rfl, rfl, rfl⟩
  · rw [h.others j hne hjdir]
    exact ⟨hne, rfl, rfl, rfl, rfl, rfl⟩

theorem NewFile.old_dentry (h : NewFile s s' dir ino addr inode) (hfresh : Unlisted s addr)
    {a : Nat} (ha : a ∈ s.dentriesOf d) : s'.dentries a = s.dentries a := by
  obtain ⟨dentry, -, hdentries⟩ := h.dentry
  have hne : a ≠ addr := by
    rintro rfl
    exact hfresh d ha
  rw [hdentries, Function.update_of_ne hne]

theorem NewFile.child (h : NewFile s s' dir ino addr inode) (hreg : Registry s)
    (hfresh : Unlisted s addr) (hlist : inode.iDentry.getD [] = []) (hparent : inode.iParent = dir)
    {a : Nat} (ha : a ∈ s'.dentriesOf d) : Child s' d a := by
  have hnew : (s'.dentries addr).dInode = ino := by
    obtain ⟨dentry, hdentry, hdentries⟩ := h.dentry
    rw [hdentries, Function.update_self, hdentry]
  have hother : ∀ {b}, b ∈ s.dentriesOf d →
      (s'.dentries b).dInode = (s.dentries b).dInode ∧ (s.dentries b).dInode ≠ ino := by
    intro b hb
    exact ⟨congrArg Dentry.dInode (h.old_dentry hfresh hb), (h.old (hreg.use.listed d b hb)).1⟩
  obtain ha | ⟨rfl, rfl⟩ := h.mem_dentriesOf hlist ha
  · obtain ⟨hne, hparent', honce⟩ := hreg.child d a ha
    obtain ⟨ha', hino⟩ := hother ha
    rw [Child, ha', (h.old (hreg.use.listed d a ha)).2.2.1]
    refine ⟨hne, hparent', fun b hb heq => ?_⟩
    obtain hb | ⟨-, rfl⟩ := h.mem_dentriesOf hlist hb
    · exact honce b hb ((hother hb).1.symm.trans heq)
    · exact absurd (heq.symm.trans hnew) hino
  · rw [Child, hnew, h.inode]
    refine ⟨?_, hparent, fun b hb heq => ?_⟩
    · rintro rfl
      exact absurd hreg.use.root.1 (by simp [h.free])
    · obtain hb | ⟨-, rfl⟩ := h.mem_dentriesOf hlist hb
      · obtain ⟨hb', hino⟩ := hother hb
        exact absurd (hb'.symm.trans heq) hino
      · rfl

theorem NewFile.registry (h : NewFile s s' dir ino addr inode) (hreg : Registry s)
    (huse : InUse s') (hfresh : Unlisted s addr) (hdir : s.IsDir dir)
    (hlist : inode.iDentry.getD [] = []) (hparent : inode.iParent = dir)
    (hrdev : inode.iMode = sIfdir → inode.iSync = false → inode.iRdev ≠ rdevRootfs)
    (hkeeps : KeepsFiles s s') (habove : ∀ fd, s'.fileCnt + fileReservedNum ≤ fd → s'.files fd = none)
    (hentry : inode.iMode ≠ sIfdir → Entry s' ino) : Registry s' := by
  have hbits : ∀ j, s'.bitmapInodes j = true → j = ino ∨ s.bitmapInodes j = true := by
    intro j hj
    by_cases hjino : j = ino
    · exact Or.inl hjino
    · rw [h.bits, Function.update_of_ne hjino] at hj
      exact Or.inr hj
  refine ⟨huse, fun d a => h.child hreg hfresh hlist hparent, fun j hj => ?_,
    h.same.mountCnt ▸ hreg.mounts, habove, fun j hj => ?_, fun j hj => ?_, fun d a ha hmode => ?_⟩
  · have hjino : j ≠ ino := by
      rintro rfl
      rw [h.bits, Function.update_self] at hj
      cases hj
    rw [h.bits, Function.update_of_ne hjino] at hj
    have hjdir : j ≠ dir := by
      rintro rfl
      exact absurd hdir.1 (by simp [hj])
    rw [h.others j hjino hjdir]
    exact hreg.unused j hj
  · obtain rfl | hold := hbits j hj.1
    · rw [h.inode, hparent, (h.old hdir.1).2.1]
      exact hdir.2
    · obtain ⟨-, hmode, hparent', -⟩ := h.old hold
      rw [hparent', (h.old (hreg.use.parent j hold)).2.1]
      exact hreg.parent j ⟨hold, hmode ▸ hj.2⟩
  · obtain rfl | hold := hbits j hj.1
    · have hmode := hj.2
      rw [h.inode] at hmode ⊢
      exact hrdev hmode
    · obtain ⟨-, hmode, -, hrdev', hsync, -⟩ := h.old hold
      rw [hrdev', hsync]
      exact hreg.unloaded j ⟨hold, hmode ▸ hj.2⟩
  · obtain hold | ⟨-, rfl⟩ := h.mem_dentriesOf hlist ha
    · rw [h.old_dentry hfresh hold] at hmode ⊢
      obtain ⟨-, hmode', -, hrdev', hsync, hfd⟩ := h.old (hreg.use.listed d a hold)
      exact (hreg.entry d a hold (hmode' ▸ hmode)).same hkeeps hrdev' hsync hfd
    · obtain ⟨dentry, hdentry, hdentries⟩ := h.dentry
      rw [hdentries, Function.update_self, hdentry] at hmode ⊢
      rw [h.inode] at hmode
      exact hentry hmode

theorem Takes.registry (h : Takes s t dir ino addr inode) (hreg : Registry s) (huse : InUse t)
    (hfresh : Unlisted s addr) (hlist : inode.iDentry.getD [] = []) (hmode : inode.iMode ≠ sIfdir)
    (hkeeps : KeepsFiles s t)
    (habove : ∀ fd, t.fileCnt + fileReservedNum ≤ fd → t.files fd = none) : Registry t := by
  have hdirs : ∀ j, t.IsDir j → s.IsDir j ∧ t.inodes j = s.inodes j := by
    intro j hj
    have hne : j ≠ ino := by
      rintro rfl
      have hdir := hj.2
      rw [h.taken.2] at hdir
      exact hmode hdir
    have hbit := hj.1
    rw [h.bits, Function.update_of_ne hne] at hbit
    have hsame := (h.others hbit).2
    exact ⟨⟨hbit, hsame ▸ hj.2⟩, hsame⟩
  have hlists : ∀ {d a}, a ∈ t.dentriesOf d → a ∈ s.dentriesOf d ∧ t.dentries a = s.dentries a := by
    intro d a ha
    have hold : a ∈ s.dentriesOf d := by
      rw [dentriesOf] at ha
      obtain ⟨hd, rfl⟩ | hd := inodes_update h.inodes d
      · rw [hd, hlist] at ha
        exact absurd ha List.not_mem_nil
      · rwa [hd] at ha
    have hne : a ≠ addr := by
      rintro rfl
      exact hfresh d hold
    obtain ⟨dentry, -, hdentries⟩ := h.dentry
    exact ⟨hold, by rw [hdentries, Function.update_of_ne hne]⟩
  refine ⟨huse, fun d a ha => ?_, fun j hj => ?_, h.same.mountCnt ▸ hreg.mounts, habove,
    fun j hj => ?_, fun j hj => ?_, fun d a ha hmode' => ?_⟩
  · obtain ⟨hold, hsame⟩ := hlists ha
    obtain ⟨hne, hparent, honce⟩ := hreg.child d a hold
    rw [Child, hsame, (h.others (hreg.use.listed d a hold)).2]
    refine ⟨hne, hparent, fun b hb heq => ?_⟩
    obtain ⟨hb, hsame'⟩ := hlists hb
    exact honce b hb (hsame' ▸ heq)
  · have hne : j ≠ ino := by
      rintro rfl
      rw [h.bits, Function.update_self] at hj
      cases hj
    rw [h.bits, Function.update_of_ne hne] at hj
    rw [h.inodes, Function.update_of_ne hne]
    exact hreg.unused j hj
  · obtain ⟨hj', hsame⟩ := hdirs j hj
    rw [hsame, (h.others (hreg.use.parent j hj'.1)).2]
    exact hreg.parent j hj'
  · obtain ⟨hj', hsame⟩ := hdirs j hj
    rw [hsame]
    exact hreg.unloaded j hj'
  · obtain ⟨hold, hdentry⟩ := hlists ha
    rw [hdentry] at hmode' ⊢
    have hsame := (h.others (hreg.use.listed d a hold)).2
    rw [hsame] at hmode'
    exact (hreg.entry d a hold hmode').same hkeeps (by rw [hsame]) (by rw [hsame]) (by rw [hsame])

theorem Registry.update (h : Registry s) (hi : s.bitmapInodes i = true) (huse : InUse t)
    (hbits : t.bitmapInodes = s.bitmapInodes) (hinodes : t.inodes = Function.update s.inodes i inode)
    (hdentries : t.dentries = s.dentries) (hmounts : s.mountCnt ≤ t.mountCnt)
    (hsame : inode.iMode = (s.inodes i).iMode ∧ inode.iParent = (s.inodes i).iParent ∧
      inode.iRdev = (s.inodes i).iRdev ∧ inode.iDentry = (s.inodes i).iDentry)
    (hsync : (s.inodes i).iSync = true → inode.iSync = true) (hkeeps : KeepsFiles s t)
    (habove : ∀ fd, t.fileCnt + fileReservedNum ≤ fd → t.files fd = none)
    (hentry : inode.iMode ≠ sIfdir → Entry s i → Entry t i) : Registry t := by
  have hinode : ∀ j, t.inodes j = s.inodes j ∨ (j = i ∧ t.inodes j = inode) := fun j =>
    (inodes_update hinodes j).symm.imp_right And.symm
  have hmode : ∀ j, (t.inodes j).iMode = (s.inodes j).iMode := by
    intro j
    obtain hj | ⟨rfl, hj⟩ := hinode j
    · rw [hj]
    · rw [hj, hsame.1]
  have hdirs : ∀ j, t.IsDir j → s.IsDir j := fun j hj => ⟨hbits ▸ hj.1, hmode j ▸ hj.2⟩
  have hparent : ∀ j, (t.inodes j).iParent = (s.inodes j).iParent := by
    intro j
    obtain hj | ⟨rfl, hj⟩ := hinode j
    · rw [hj]
    · rw [hj, hsame.2.1]
  have hlists : ∀ d, t.dentriesOf d = s.dentriesOf d := by
    intro d
    rw [dentriesOf, dentriesOf]
    obtain hd | ⟨rfl, hd⟩ := hinode d
    · rw [hd]
    · rw [hd, hsame.2.2.2]
  refine ⟨huse, fun d a ha => ?_, fun j hj => ?_, h.mounts.trans_le hmounts, habove, fun j hj => ?_,
    fun j hj hs => ?_, fun d a ha hmode' => ?_⟩
  · rw [hlists] at ha
    rw [Child, hdentries, hparent, hlists]
    exact h.child d a ha
  · rw [hbits] at hj
    obtain hj' | ⟨rfl, -⟩ := hinode j
    · rw [hj']
      exact h.unused j hj
    · exact absurd hi (by simp [hj])
  · rw [hparent, hmode]
    exact h.parent j (hdirs j hj)
  · obtain hj' | ⟨rfl, hj'⟩ := hinode j
    · rw [hj'] at hs ⊢
      exact h.unloaded j (hdirs j hj) hs
    · rw [hj'] at hs ⊢
      rw [hsame.2.2.1]
      refine h.unloaded j (hdirs j hj) ?_
      by_contra hne
      rw [hsync (by simpa using hne)] at hs
      cases hs
  · rw [hlists] at ha
    rw [hdentries] at hmode' ⊢
    rw [hmode] at hmode'
    have hold := h.entry d a ha hmode'
    obtain hj | ⟨heq, -⟩ := hinode (s.dentries a).dInode
    · exact hold.same hkeeps (by rw [hj]) (by rw [hj]) (by rw [hj])
    · rw [heq] at hold hmode' ⊢
      exact hentry (hsame.1 ▸ hmode') hold

/-- What holds between the actions of calls, and while files are mounted into a directory. -/
structure Tabled (s : Rootfs) (mounting : Option Nat) : Prop where
  registry : Registry s
  slots : Slots s mounting

theorem KeepsFiles.put {f : FsFile} (hreg : Registry s) (hcnt : t.fileCnt = s.fileCnt + 1)
    (hfiles : t.files = s.files ∨
      t.files = Function.update s.files (s.fileCnt + fileReservedNum) (some f)) :
    KeepsFiles s t ∧ ∀ fd, t.fileCnt + fileReservedNum ≤ fd → t.files fd = none := by
  have hnext : s.files (s.fileCnt + fileReservedNum) = none := hreg.above _ (Nat.le_refl _)
  obtain hfiles | hfiles := hfiles
  · refine ⟨⟨fun fd f hf => by rw [hfiles, hf], fun fd _ hf => by rw [hfiles, hf], by omega⟩,
      fun fd hfd => ?_⟩
    rw [hfiles]
    exact hreg.above fd (by omega)
  · refine ⟨⟨fun fd f hf => ?_, fun fd hlt hf => ?_, by omega⟩, fun fd hfd => ?_⟩
    · have hne : fd ≠ s.fileCnt + fileReservedNum := by
        rintro rfl
        rw [hnext] at hf
        cases hf
      rwa [hfiles, Function.update_of_ne hne]
    · rwa [hfiles, Function.update_of_ne (Nat.ne_of_lt hlt)]
    · rw [hfiles, Function.update_of_ne (by omega)]
      exact hreg.above fd (by omega)

theorem Tabled.fsAddFile (h : Tabled s none) (hdir : s.IsDir dir)
    (hready : (s.inodes dir).iSync = true ∨ (s.inodes dir).iSize = 0)
    (hadd : s.fsAddFile dir fileName fileType memory = some (s', r)) :
    Tabled s' none ∧ KeepsFiles s s' := by
  obtain ⟨huse, -⟩ := h.registry.use.fsAddFile hdir.1 hadd
  obtain ⟨rfl, -⟩ | ⟨ino, addr, t, hroom, htakes, hcnt, hfiles, hfile⟩ := fsAddFile_spec hdir.1 hadd
  · exact ⟨h, .refl s'⟩
  have hready' := hready.imp_left (Or.inl (b := none = some dir))
  have hempty := h.registry.unused ino htakes.free
  obtain ⟨rfl, -⟩ | ⟨u, hinst, -, hlists⟩ := hfile
  · have hfresh := h.slots.fresh hdir hready' htakes.place
    have hmode : (addedInode (s.inodes dir).iIno (s.fileCnt + fileReservedNum)
        { s.inodes ino with iIno := ino }).iMode ≠ sIfdir := by
      rw [hempty]
      exact fun hmode => absurd hmode (show (0 : Nat) ≠ sIfdir by decide)
    have hlist : (addedInode (s.inodes dir).iIno (s.fileCnt + fileReservedNum)
        { s.inodes ino with iIno := ino }).iDentry.getD [] = [] := by
      rw [hempty]
      rfl
    have hkeeps : KeepsFiles s s' :=
      ⟨fun fd f hf => by rw [hfiles, hf], fun fd _ hf => by rw [hfiles, hf], hcnt.ge⟩
    refine ⟨⟨htakes.registry h.registry huse hfresh.unlisted hlist hmode hkeeps fun fd hfd => ?_,
      htakes.slots h.slots hfresh rfl hmode⟩, hkeeps⟩
    rw [hfiles]
    exact h.registry.above fd (hcnt ▸ hfd)
  · obtain ⟨iDentry, hlist, hmade⟩ := htakes.instantiated hinst
    have hnew := hmade.counted.newFile hdir.1 hlists
    have hfresh := h.slots.fresh hdir hready' hnew.place
    have hlist' : iDentry.getD [] = [] := by
      obtain rfl | rfl := hlist
      · rfl
      · rw [hempty]
        rfl
    have hcnt' : s'.fileCnt = s.fileCnt + 1 := by
      rw [hlists.fileCnt, ← hcnt, ← hinst.fileCnt]
    have hput : (fileType = sIfdir ∧ s'.files = s.files) ∨ ∃ f, f.fInode = some ino ∧
        s'.files = Function.update s.files (s.fileCnt + fileReservedNum) (some f) := by
      rw [hlists.files, ← hfiles]
      refine hinst.files.imp_right fun ⟨f, hf, hset⟩ => ⟨f, ?_, hset⟩
      simp only [List.mem_cons, List.not_mem_nil, or_false] at hf
      obtain rfl | rfl | rfl := hf <;> rfl
    obtain ⟨hkeeps, habove⟩ : KeepsFiles s s' ∧
        ∀ fd, s'.fileCnt + fileReservedNum ≤ fd → s'.files fd = none := by
      obtain ⟨-, hsame⟩ | ⟨f, -, hset⟩ := hput
      · exact KeepsFiles.put (f := .rootfs) h.registry hcnt' (Or.inl hsame)
      · exact KeepsFiles.put h.registry hcnt' (Or.inr hset)
    refine ⟨⟨hnew.registry h.registry huse hfresh.unlisted hdir hlist' (h.registry.use.iIno dir hdir.1)
      (fun _ hsync => by cases hsync) hkeeps habove fun hmode => ?_,
      hnew.slots h.slots hfresh hlist' (fun _ => ⟨rfl, rfl⟩) nofun⟩, hkeeps⟩
    obtain ⟨hdir', -⟩ | ⟨f, hf, hset⟩ := hput
    · exact absurd hdir' hmode
    · have hrdev : (s'.inodes ino).iRdev = rdevRootfs := by
        rw [hnew.inode]
        rfl
      have hfd : (s'.inodes ino).iFd = s.fileCnt + fileReservedNum := by
        rw [hnew.inode]
        rfl
      rw [Entry, if_pos (Or.inl hrdev), hfd]
      exact ⟨by omega, f, by rw [hset, Function.update_self], hf⟩

theorem Tabled.fsMountFile {rdev : Nat} {mnt : StoredInode} {name : List Byte}
    (h : Tabled s mounting) (hdir : s.IsDir dir)
    (hready : (s.inodes dir).iSync = true ∨ mounting = some dir) (honly : ∀ d ∈ mounting, d = dir)
    (hrdev : rdev ≠ rdevRootfs) (hmount : s.fsMountFile dir rdev mnt name = some s') :
    Tabled s' mounting ∧ KeepsFiles s s' ∧ (s'.inodes dir).iSync = (s.inodes dir).iSync := by
  obtain ⟨huse, -⟩ := h.registry.use.fsMountFile hdir.1 hmount
  obtain ⟨-, rfl⟩ | ⟨ino, addr, t, htakes, hcnt, hfiles, hlists⟩ := fsMountFile_spec hdir.1 hmount
  · exact ⟨h, .refl s', rfl⟩
  have hnew := htakes.newFile hdir.1 hlists
  have hfresh := h.slots.fresh hdir (Or.inl hready) hnew.place
  obtain ⟨hkeeps, habove⟩ := KeepsFiles.put (t := s') (f := .rootfs) h.registry
    (hlists.fileCnt.trans hcnt) (Or.inl (hlists.files.trans hfiles))
  have hmounting : mounting ≠ some ino := fun heq => hnew.ne (honly ino heq).symm
  refine ⟨⟨hnew.registry h.registry huse hfresh.unlisted hdir rfl (h.registry.use.iIno dir hdir.1)
    (fun _ _ => hrdev) hkeeps habove fun _ => ?_,
    hnew.slots h.slots hfresh rfl (fun hsync => by cases hsync) hmounting⟩, hkeeps,
    (hnew.old hdir.1).2.2.2.2.1⟩
  have hnot : ¬ ((s'.inodes ino).iRdev = rdevRootfs ∨ (s'.inodes ino).iSync = true) := by
    rw [hnew.inode]
    simpa [mountedInode] using hrdev
  rw [Entry, if_neg hnot, hnew.inode]
  refine ⟨?_, ?_⟩
  · rw [hlists.files, hfiles]
    exact h.registry.above _ (Nat.le_refl _)
  · show s.fileCnt + fileReservedNum < _
    rw [hlists.fileCnt, hcnt]
    omega

theorem Registry.directory (h : Registry s) (hdir : s.IsDir dir)
    (hinodes : t.inodes = Function.update s.inodes dir inode) (huse : InUse t)
    (hbits : t.bitmapInodes = s.bitmapInodes) (hdentries : t.dentries = s.dentries)
    (hfiles : t.files = s.files) (hcnt : t.fileCnt = s.fileCnt) (hmounts : t.mountCnt = s.mountCnt)
    (hsame : inode.iMode = (s.inodes dir).iMode ∧ inode.iParent = (s.inodes dir).iParent ∧
      inode.iRdev = (s.inodes dir).iRdev ∧ inode.iDentry = (s.inodes dir).iDentry)
    (hsync : (s.inodes dir).iSync = true → inode.iSync = true) : Registry t ∧ KeepsFiles s t := by
  have hkeeps : KeepsFiles s t :=
    ⟨fun fd f hf => by rw [hfiles, hf], fun fd _ hf => by rw [hfiles, hf], hcnt.ge⟩
  refine ⟨h.update hdir.1 huse hbits hinodes hdentries hmounts.ge hsame hsync hkeeps
    (fun fd hfd => ?_) fun hmode _ => absurd (hsame.1.trans hdir.2) hmode, hkeeps⟩
  rw [hfiles]
  exact h.above fd (hcnt ▸ hfd)

/-- What holds while files are mounted into a directory. -/
structure Mounting (s t : Rootfs) (dir : Nat) (mounting : Option Nat) : Prop where
  tabled : Tabled t mounting
  keeps : KeepsFiles s t
  isDir : t.IsDir dir
  ready : (t.inodes dir).iSync = true ∨ mounting = some dir
  only : ∀ d ∈ mounting, d = dir

theorem Tabled.emptied (h : Tabled s none) (hdir : s.IsDir dir) :
    Mounting s (s.setInode dir fun n => { n with iSize := 0, iBlocks := 0 }) dir (some dir) := by
  obtain ⟨hreg, hkeeps⟩ := h.registry.directory (t := s.setInode dir fun n =>
    { n with iSize := 0, iBlocks := 0 }) hdir rfl (h.registry.use.emptied hdir.1) rfl rfl rfl rfl rfl
    ⟨rfl, rfl, rfl, rfl⟩ id
  exact ⟨⟨hreg, h.slots.startMounting dir⟩, hkeeps, ⟨hdir.1, by simpa [setInode] using hdir.2⟩,
    Or.inr rfl, fun d hd => (Option.some.inj hd).symm⟩

theorem Mounting.fsMountFile {rdev : Nat} {mnt : StoredInode} {name : List Byte}
    (h : Mounting s t dir mounting) (hrdev : rdev ≠ rdevRootfs)
    (hmount : t.fsMountFile dir rdev mnt name = some u) : Mounting s u dir mounting := by
  obtain ⟨hu, hkeeps, hsync⟩ := h.tabled.fsMountFile h.isDir h.ready h.only hrdev hmount
  exact ⟨hu, h.keeps.trans hkeeps, (h.tabled.registry.use.fsMountFile h.isDir.1 hmount).2.isDir h.isDir,
    by rw [hsync]; exact h.ready, h.only⟩

theorem Mounting.loaded (h : Mounting s t dir mounting) :
    Tabled (t.setInode dir fun n => { n with iSync := true }) none ∧
      KeepsFiles s (t.setInode dir fun n => { n with iSync := true }) := by
  have hold := h.tabled.registry.use
  have huse : InUse (t.setInode dir fun n => { n with iSync := true }) := by
    refine hold.update h.isDir.1 rfl rfl rfl ?_ (hold.iIno dir h.isDir.1) rfl (hold.listed dir)
    rintro rfl
    exact h.isDir.2
  obtain ⟨hreg, hkeeps⟩ := h.tabled.registry.directory (t := t.setInode dir fun n =>
    { n with iSync := true }) h.isDir rfl huse rfl rfl rfl rfl rfl ⟨rfl, rfl, rfl, rfl⟩ fun _ => rfl
  exact ⟨⟨hreg, h.tabled.slots.endMounting h.ready⟩, h.keeps.trans hkeeps⟩

theorem Tabled.fsMountDirectory {rdev : Nat} {src : StoredInode} (h : Tabled s none)
    (hdir : s.IsDir dir) (hrdev : rdev ≠ rdevRootfs)
    (hmount : s.fsMountDirectory passes rdev src dir = some s') :
    Tabled s' none ∧ KeepsFiles s s' := by
  obtain ⟨-, rfl⟩ | ⟨-, t, ⟨mounting, ht⟩, rfl⟩ :=
    fsMountDirectory_invariant (P := fun t => ∃ mounting, Mounting s t dir mounting)
      (fun h₁ hfile => h₁.imp fun _ hmounting => hmounting.fsMountFile hrdev hfile)
      (fun _ => ⟨some dir, h.emptied hdir⟩)
      (fun hsync => ⟨none, h, .refl s, hdir, Or.inl hsync, by simp⟩) hmount
  · exact ⟨h, .refl s'⟩
  · exact ht.loaded

theorem Tabled.same (h : Tabled s none) (hinodes : t.inodes = s.inodes)
    (hbits : t.bitmapInodes = s.bitmapInodes) (hblks : t.bitmapBlks = s.bitmapBlks)
    (hstart : t.sBlkAddr = s.sBlkAddr) (hdentries : t.dentries = s.dentries)
    (hfiles : t.files = s.files) (hcnt : t.fileCnt = s.fileCnt) (hmounts : s.mountCnt ≤ t.mountCnt) :
    Tabled t none ∧ KeepsFiles s t := by
  have hroot := h.registry.use.root.1
  have huse : InUse t := h.registry.use.update hroot hbits
    (by rw [hinodes, Function.update_eq_self]) hdentries (fun _ => h.registry.use.root.2)
    (h.registry.use.iIno 0 hroot) rfl (h.registry.use.listed 0)
  have hkeeps : KeepsFiles s t :=
    ⟨fun fd f hf => by rw [hfiles, hf], fun fd _ hf => by rw [hfiles, hf], hcnt.ge⟩
  have hupdate : t.inodes = Function.update s.inodes 0 (s.inodes 0) := by
    rw [hinodes, Function.update_eq_self]
  refine ⟨⟨h.registry.update hroot huse hbits hupdate hdentries hmounts ⟨rfl, rfl, rfl, rfl⟩ id
    hkeeps (fun fd hfd => ?_) fun hmode _ => absurd h.registry.use.root.2 hmode,
    h.slots.update hupdate ⟨rfl, rfl⟩ hbits hstart (fun k hk => by rw [hblks, hk]) (fun _ _ => id)
      fun _ hc => Or.inl ⟨hc, rfl, rfl⟩⟩, hkeeps⟩
  rw [hfiles]
  exact h.registry.above fd (hcnt ▸ hfd)

theorem Tabled.fsSyncFile (h : Tabled s none) (hi : s.bitmapInodes i = true)
    (hsync : s.fsSyncFile i memory = some s') : Tabled s' none ∧ KeepsFiles s s' := by
  obtain ⟨huse, -⟩ := h.registry.use.fsSyncFile hi hsync
  obtain ⟨rfl, -⟩ | ⟨hrdev, hmode, hnot, hroom, rfl⟩ := fsSyncFile_cases hsync
  · exact ⟨h, .refl s'⟩
  · have hdir : ¬ s.IsDir i := fun hdir => absurd (hmode.symm.trans hdir.2) (by decide)
    obtain ⟨hkeeps, habove⟩ := KeepsFiles.put (f := .regFile i)
      (t := { s.setInode i fun n => { n with iFd := s.fileCnt + fileReservedNum, iSync := true } with
        fileCnt := s.fileCnt + 1
        files := Function.update s.files (s.fileCnt + fileReservedNum) (some (.regFile i))
        pos := Function.update s.pos i 0 }) h.registry rfl (Or.inr rfl)
    refine ⟨⟨h.registry.update hi huse rfl rfl rfl (Nat.le_refl _) ⟨rfl, rfl, rfl, rfl⟩
      (fun _ => rfl) hkeeps habove fun _ _ => ?_,
      h.slots.update rfl ⟨rfl, rfl⟩ rfl rfl (fun _ => id) (fun _ _ => id)
        fun hd => absurd hd hdir⟩, hkeeps⟩
    rw [Entry]
    simp only [setInode, Function.update_self, or_true, if_true]
    exact ⟨by omega, .regFile i, Function.update_self .., rfl⟩

theorem Tabled.act (h : Tabled s none) (hact : Act True s t) : Tabled t none ∧ KeepsFiles s t := by
  cases hact with
  | load hdir hmode hsync hload =>
      have hd := And.intro hdir (hmode trivial)
      exact h.fsMountDirectory hd (h.registry.unloaded _ hd hsync) hload
  | add hdir hmode hready hadd => exact h.fsAddFile ⟨hdir, hmode trivial⟩ hready hadd
  | sync hino hsync => exact h.fsSyncFile hino hsync
  | @mount t _ _ storage _ hdir _ hmount =>
      obtain ⟨h₀, hkeeps₀⟩ := h.same
        (t := { s with storages := Function.update s.storages s.mountCnt storage })
        rfl rfl rfl rfl rfl rfl rfl (Nat.le_refl _)
      obtain ⟨ht, hkeeps⟩ := h₀.fsMountDirectory hdir (Nat.ne_of_gt h.registry.mounts) hmount
      obtain ⟨ht', hkeeps'⟩ := ht.same (t := { t with mountCnt := t.mountCnt + 1 })
        rfl rfl rfl rfl rfl rfl rfl (Nat.le_succ _)
      exact ⟨ht', (hkeeps₀.trans hkeeps).trans hkeeps'⟩
  | @append t ino _ hfile happ =>
      obtain ⟨huse, -⟩ := h.registry.use.fsFileAppendBlock hfile.1 happ
      obtain ⟨rfl, -⟩ | ⟨k, -, -, -, rfl⟩ := fsFileAppendBlock_cases happ
      · exact ⟨h, .refl t⟩
      · have hdir : ¬ s.IsDir ino := fun hdir => absurd (hfile.2.1.symm.trans hdir.2) (by decide)
        have hgrows : ∀ j, s.bitmapBlks j = true → Function.update s.bitmapBlks k true j = true := by
          intro j hj
          by_cases hjk : j = k
          · rw [hjk, Function.update_self]
          · rwa [Function.update_of_ne hjk]
        have hkeeps : KeepsFiles s (({ s with
            sBlkCnt := s.sBlkCnt + 1
            bitmapBlks := Function.update s.bitmapBlks k true
            memory := s.linkBlock (s.inodes ino) (s.blkAddr k) } : Rootfs).setInode ino
              fun n => linkedInode n (s.blkAddr k)) :=
          ⟨fun _ _ hf => hf, fun _ _ hf => hf, Nat.le_refl _⟩
        refine ⟨⟨h.registry.update hfile.1 huse rfl rfl rfl (Nat.le_refl _) ⟨rfl, rfl, rfl, rfl⟩ id
          hkeeps h.registry.above fun _ hentry => ?_,
          h.slots.update rfl ⟨rfl, rfl⟩ rfl rfl hgrows (fun _ _ => id)
            fun hd => absurd hd hdir⟩, hkeeps⟩
        refine hentry.same hkeeps ?_ ?_ ?_ <;> simp [setInode, linkedInode]

theorem Tabled.acts (h : Tabled s none) (hacts : Relation.ReflTransGen (Act True) s t) :
    Tabled t none ∧ KeepsFiles s t := by
  induction hacts with
  | refl => exact ⟨h, .refl s⟩
  | tail _ hact ih =>
      obtain ⟨ht, hkeeps⟩ := ih.1.act hact
      exact ⟨ht, ih.2.trans hkeeps⟩

theorem rootfsInit_tabled (sInoAddr sBlkAddr : Nat) :
    Tabled (rootfsInit sInoAddr sBlkAddr) none := by
  have hroot : ∀ i, (rootfsInit sInoAddr sBlkAddr).bitmapInodes i = true → i = 0 := by
    intro i hi
    simpa [rootfsInit] using hi
  have hlists : ∀ d, (rootfsInit sInoAddr sBlkAddr).dentriesOf d = [] := by
    intro d
    rw [dentriesOf, rootfsInit]
    dsimp only
    split <;> rfl
  refine ⟨⟨rootfsInit_inUse .., fun d a ha => ?_, fun i hi => ?_, Nat.one_pos, fun fd hfd => ?_,
    fun i hi => ?_, fun i hi hsync => ?_, fun d a ha => ?_⟩,
    ⟨fun d a ha => ?_, fun d d' a ha => ?_, fun d hd _ => ?_⟩⟩
  · rw [hlists] at ha
    exact absurd ha List.not_mem_nil
  · have hne : i ≠ 0 := by
      rintro rfl
      cases hi
    exact if_neg hne
  · have hne : fd ≠ fileReservedNum := by
      rintro rfl
      exact absurd hfd (by simp [rootfsInit])
    exact if_neg hne
  · obtain rfl := hroot i hi.1
    rfl
  · obtain rfl := hroot i hi.1
    cases hsync
  · rw [hlists] at ha
    exact absurd ha List.not_mem_nil
  · rw [hlists] at ha
    exact absurd ha List.not_mem_nil
  · rw [hlists] at ha
    exact absurd ha List.not_mem_nil
  · obtain rfl := hroot d hd.1
    exact ⟨0, rfl, rfl, Nat.zero_le _, by simp⟩

theorem Tabled.calls {calls : List RootfsCall} (h : Tabled s none)
    (hok : Runs.AllOk ThroughDirs call s calls) (hrun : Runs.exec call s calls = some t) :
    Tabled t none ∧ KeepsFiles s t := by
  refine Runs.exec_invariant (I := fun t => Tabled t none ∧ KeepsFiles s t)
    (fun u e v hu hdirs hcall => ?_) ⟨h, .refl s⟩ hok hrun
  obtain ⟨hv, hkeeps⟩ := hu.1.acts (hu.1.registry.use.call_acts (fun _ => hdirs) hcall)
  exact ⟨hv, hu.2.trans hkeeps⟩

/-- The entries of a path lead through directories to an inode, in a file system in which what is
on the way is loaded. -/
def Leads : List (List Byte) → Rootfs → Nat → Rootfs → Nat → Prop
  | [], _, _, _, _ => False
  | entry :: es, s, curr, t, ino =>
      if entry = [] then Leads es s curr t ino
      else ∃ s' i, s.Searches curr entry s' (some i) ∧
        if es = [] then s' = t ∧ i = ino else (s'.inodes i).iMode = sIfdir ∧ Leads es s' i t ino

theorem Leads.unique {es : List (List Byte)} {ino' : Nat} (h : Leads es s i t ino)
    (h' : Leads es s i u ino') : t = u ∧ ino = ino' := by
  induction es generalizing s i with
  | nil => exact h.elim
  | cons entry es ih =>
      rw [Leads] at h h'
      split at h
      · next hentry =>
          rw [if_pos hentry] at h'
          exact ih h h'
      · next hentry =>
          rw [if_neg hentry] at h'
          obtain ⟨v, j, hfound, hrest⟩ := h
          obtain ⟨v', j', hfound', hrest'⟩ := h'
          obtain ⟨rfl, hj⟩ := hfound.unique hfound'
          obtain rfl := Option.some.inj hj
          split at hrest
          · next hes =>
              rw [if_pos hes] at hrest'
              exact ⟨hrest.1.symm.trans hrest'.1, hrest.2.symm.trans hrest'.2⟩
          · next hes =>
              rw [if_neg hes] at hrest'
              exact ih hrest.2 hrest'.2

/-- The file of the inode is in the table, or there is room for it: a regular file of a storage is
put there when it is opened. -/
def Registers (s : Rootfs) (ino : Nat) : Prop :=
  (s.inodes ino).iRdev = rdevRootfs ∨ (s.inodes ino).iSync = true ∨
    ((s.inodes ino).iMode = sIfreg ∧ s.fileCnt < fileMax)

/-- If the path leads to a file, that one is or can be put into the table. -/
def OpensRegistered (s : Rootfs) (pathname : List Byte) : Prop :=
  ∀ t ino, Leads (entries pathname.tail) s 0 t ino → (t.inodes ino).iMode ≠ sIfdir → Registers t ino

theorem Tabled.syncOpened (h : Tabled s none) (hi : s.bitmapInodes i = true)
    (hentry : Entry s i) (hsync : s.syncOpened i memory = some t) :
    Opened t i (t.inodes i).iFd ↔ Registers s i := by
  rw [Rootfs.syncOpened] at hsync
  rw [Entry] at hentry
  rw [Registers]
  by_cases hor : (s.inodes i).iRdev = rdevRootfs ∨ (s.inodes i).iSync = true
  · rw [if_pos hor] at hentry
    have hnot : ¬ ((s.inodes i).iRdev ≠ rdevRootfs ∧ (s.inodes i).iSync = false) := by
      rintro ⟨hrdev, hs⟩
      rw [hs] at hor
      exact hor.elim hrdev Bool.false_ne_true
    rw [if_neg hnot] at hsync
    obtain rfl := Option.some.inj hsync
    exact iff_of_true hentry (by tauto)
  · rw [if_neg hor] at hentry
    obtain ⟨hrdev, hs⟩ := not_or.mp hor
    have hs' : (s.inodes i).iSync = false := by simpa using hs
    rw [if_pos ⟨hrdev, hs'⟩] at hsync
    obtain ⟨rfl, hcannot⟩ | ⟨-, hmode, -, hroom, rfl⟩ := fsSyncFile_cases hsync
    · refine iff_of_false ?_ ?_
      · rintro ⟨-, f, hf, -⟩
        rw [hentry.1] at hf
        cases hf
      · rintro (hrdev' | hsync' | ⟨hmode, hroom⟩)
        · exact hrdev hrdev'
        · exact hs hsync'
        · exact hcannot ⟨hrdev, hmode, hs', hroom⟩
    · refine iff_of_true ?_ (Or.inr (Or.inr ⟨hmode, hroom⟩))
      simp only [setInode, Function.update_self]
      exact ⟨by omega, .regFile i, Function.update_self .., rfl⟩

theorem Tabled.searched {entry : List Byte} (h : Tabled s none) (hdir : s.IsDir dir)
    (hsearch : s.fsSearchFile passes dir entry = some (t, some j)) (ht : Tabled t none)
    (hmode : (t.inodes j).iMode ≠ sIfdir) : Entry t j := by
  obtain ⟨⟨-, hnone⟩ | hself | hparent, rfl⟩ | ⟨-, -, hlisted⟩ := fsSearchFile_cases hsearch
  · cases hnone
  · obtain rfl := Option.some.inj hself
    exact absurd hdir.2 hmode
  · obtain rfl := Option.some.inj hparent
    exact absurd (h.registry.parent dir hdir) hmode
  · obtain ⟨a, ha, rfl⟩ := hlisted j rfl
    exact ht.registry.entry dir a ha hmode

theorem InUse.syncOpened (h : InUse s) (hi : s.bitmapInodes i = true)
    (hsync : s.syncOpened i memory = some t) : Relation.ReflTransGen (Act True) s t ∧
      (t.inodes i).iMode = (s.inodes i).iMode := by
  have hacts : Relation.ReflTransGen (Act True) s t := by
    rw [Rootfs.syncOpened] at hsync
    split at hsync
    · exact .single (.sync hi hsync)
    · obtain rfl := Option.some.inj hsync
      exact .refl
  exact ⟨hacts, (h.acts hacts).2.iMode i hi⟩

theorem Tabled.openLoop {pathname : List Byte} {es : List (List Byte)} {w : Walk}
    (h : Tabled s none) (hdir : s.IsDir i)
    (hw : (openLoop passes pathname memory).along es s i = some w) (hfd : w.result = some fd) :
    ∃ t ino, Leads es s i t ino ∧ (t.inodes ino).iMode ≠ sIfdir ∧ Tabled w.rootfs none ∧
      (Opened w.rootfs ino fd ↔ Registers t ino) := by
  induction es generalizing s i w with
  | nil => cases hw
  | cons entry es ih =>
      rw [PathLoop.along] at hw
      by_cases hentry : entry = []
      · rw [if_pos hentry] at hw
        split at hw
        · obtain rfl := Option.some.inj hw
          cases hfd
        · obtain ⟨t, ino, hleads, hrest⟩ := ih h hdir hw hfd
          exact ⟨t, ino, by rwa [Leads, if_pos hentry], hrest⟩
      rw [if_neg hentry] at hw
      obtain ⟨w', hvisit, hw'⟩ := Option.bind_eq_some_iff.mp hw
      obtain rfl := Option.some.inj hw'
      obtain ⟨⟨t, r⟩, hsearch, hvisit⟩ := Option.bind_eq_some_iff.mp hvisit
      obtain ⟨hacts, hfound, -⟩ := h.registry.use.fsSearchFile hdir.1 (fun _ => hdir.2)
        hsearch
      have ht := (h.acts hacts).1
      cases r with
      | none =>
          obtain rfl := Option.some.inj hvisit
          cases hfd
      | some j =>
          have hj := hfound j rfl
          dsimp only at hvisit
          split at hvisit
          · next hlast =>
              have hes := of_decide_eq_true hlast
              split at hvisit
              · obtain rfl := Option.some.inj hvisit
                cases hfd
              · obtain ⟨u, hsync, hvisit⟩ := Option.bind_eq_some_iff.mp hvisit
                obtain ⟨hsynced, hmode'⟩ := ht.registry.use.syncOpened hj hsync
                split at hvisit
                · obtain rfl := Option.some.inj hvisit
                  cases hfd
                · next hmode =>
                    obtain rfl := Option.some.inj hvisit
                    obtain rfl := Option.some.inj hfd
                    rw [hmode'] at hmode
                    refine ⟨t, j, ?_, hmode, (ht.acts hsynced).1,
                      ht.syncOpened hj (h.searched hdir hsearch ht hmode) hsync⟩
                    rw [Leads, if_neg hentry]
                    exact ⟨t, j, ⟨passes, hsearch⟩, by rw [if_pos hes]; exact ⟨rfl, rfl⟩⟩
          · next hlast =>
              have hes : es ≠ [] := fun hes => hlast (decide_eq_true hes)
              split at hvisit
              · obtain rfl := Option.some.inj hvisit
                cases hfd
              · next hmode =>
                  have hmode' := not_not.mp hmode
                  obtain ⟨v, ino, hleads, hrest⟩ := ih ht ⟨hj, hmode'⟩ hvisit hfd
                  refine ⟨v, ino, ?_, hrest⟩
                  rw [Leads, if_neg hentry]
                  exact ⟨t, j, ⟨passes, hsearch⟩, by rw [if_neg hes]; exact ⟨hmode', hleads⟩⟩

/-- After files were only created through directories, what is opened is in the table exactly if it
was registered or could be, and it stays there. -/
theorem opened_iff {sInoAddr sBlkAddr : Nat} {calls : List RootfsCall} {pathname : List Byte} {w : Walk}
    (hok : Runs.AllOk ThroughDirs call (rootfsInit sInoAddr sBlkAddr) calls)
    (hrun : Runs.exec call (rootfsInit sInoAddr sBlkAddr) calls = some s)
    (hopen : s.fsOpenFile passes pathname memory = some w) (hfd : w.result = some fd) :
    ((∃ t ino, Leads (entries pathname.tail) s 0 t ino ∧ Opened w.rootfs ino fd) ↔
      OpensRegistered s pathname) ∧
    (OpensRegistered s pathname → ∀ later s', Runs.AllOk ThroughDirs call w.rootfs later →
      Runs.exec call w.rootfs later = some s' →
      ∃ t ino, Leads (entries pathname.tail) s 0 t ino ∧ Opened s' ino fd) := by
  have h := ((rootfsInit_tabled sInoAddr sBlkAddr).calls hok hrun).1
  have hslash : pathname.head? = some slash := by
    by_contra hslash
    rw [fsOpenFile, if_pos hslash] at hopen
    obtain rfl := Option.some.inj hopen
    cases hfd
  rw [fsOpenFile_eq hslash] at hopen
  obtain ⟨t, ino, hleads, hmode, hafter, hiff⟩ := h.openLoop h.registry.use.root hopen hfd
  have hregisters : OpensRegistered s pathname ↔ Registers t ino := by
    refine ⟨fun hall => hall t ino hleads hmode, fun hreg u ino' hleads' _ => ?_⟩
    obtain ⟨rfl, rfl⟩ := hleads.unique hleads'
    exact hreg
  refine ⟨⟨?_, ?_⟩, ?_⟩
  · rintro ⟨u, ino', hleads', ho⟩
    obtain ⟨rfl, rfl⟩ := hleads.unique hleads'
    exact hregisters.mpr (hiff.mp ho)
  · exact fun hall => ⟨t, ino, hleads, hiff.mpr (hregisters.mp hall)⟩
  · intro hall later s' hlater hrun'
    have hkeeps := (hafter.calls hlater hrun').2
    exact ⟨t, ino, hleads, hkeeps.opened (hiff.mpr (hregisters.mp hall))⟩

/-- The image of a root directory with one file, `f`, of this mode. -/
def fileImage (mode : Byte) : Storage where
  read offset size := some ((List.range size).map fun i =>
    if offset + i = 40 then 4#8 else if offset + i = 56 then 56#8 else if offset + i = 60 then 1#8
    else if offset + i = 64 then 16#8 else if offset + i = 65 then 39#8
    else if offset + i = 88 then mode else if offset + i = 10000 then 102#8
    else if offset + i = 10032 then 1#8 else 0#8)

/-- A block device `b` is made and its image is mounted at the root directory. -/
def mountedCalls (mode : Byte) : List RootfsCall :=
  [.createFile 0 [slash, 98#8] sIfblk true, .mount 1 (fileImage mode) [slash, 98#8] [slash] true]

theorem mountedCalls_opened : ∃ s w fd,
    Runs.exec call (rootfsInit 0x20010000 0x20020000) (mountedCalls 3#8) = some s ∧
      s.fsOpenFile 0 [slash, 102#8] true = some w ∧ w.result = some fd ∧
      ∃ ino, Opened w.rootfs ino fd := by
  have hread : (Runs.exec call (rootfsInit 0x20010000 0x20020000) (mountedCalls 3#8)).any (fun s =>
      (s.fsOpenFile 0 [slash, 102#8] true).any (fun w => w.result.isSome) ∧
      (s.fsSearchFile 0 0 [102#8]).any (fun found => found.2 = some 2 ∧
        (found.1.inodes 2).iMode = sIfreg ∧ found.1.fileCnt < fileMax)) = true := by decide +kernel
  obtain ⟨s, hrun, hs⟩ := (Option.any_eq_true ..).mp hread
  obtain ⟨hopened, hfound⟩ := of_decide_eq_true hs
  obtain ⟨w, hopen, hresult⟩ := (Option.any_eq_true ..).mp hopened
  obtain ⟨fd, hfd⟩ := Option.isSome_iff_exists.mp hresult
  obtain ⟨⟨t, r⟩, hsearch, hfacts⟩ := (Option.any_eq_true ..).mp hfound
  obtain ⟨rfl, hmode, hroom⟩ := of_decide_eq_true hfacts
  have hok : Runs.AllOk ThroughDirs call (rootfsInit 0x20010000 0x20020000) (mountedCalls 3#8) :=
    ⟨fun hmeets => not_meets_of_empty rfl hmeets.2, fun _ _ => ⟨trivial, fun _ _ => trivial⟩⟩
  have hleads : Leads (entries [102#8]) s 0 t 2 := ⟨t, 2, ⟨0, hsearch⟩, rfl, rfl⟩
  obtain ⟨_, ino, -, ho⟩ := (opened_iff hok hrun hopen hfd).1.mpr fun u ino hleads' _ => by
    obtain ⟨rfl, rfl⟩ := hleads.unique hleads'
    exact Or.inr (Or.inr ⟨hmode, hroom⟩)
  exact ⟨s, w, fd, hrun, hopen, hfd, ino, ho⟩

/-- A character device on the storage is opened without a file. -/
theorem mountedCalls_not_opened : ∃ s w fd,
    Runs.exec call (rootfsInit 0x20010000 0x20020000) (mountedCalls 1#8) = some s ∧
      s.fsOpenFile 0 [slash, 102#8] true = some w ∧ w.result = some fd ∧
      w.rootfs.files fd = none ∧ ¬ ∃ ino, Opened w.rootfs ino fd := by
  have hread : (Runs.exec call (rootfsInit 0x20010000 0x20020000) (mountedCalls 1#8)).any (fun s =>
      (s.fsOpenFile 0 [slash, 102#8] true).any (fun w =>
        w.result.any fun fd => w.rootfs.files fd = none)) = true := by decide +kernel
  obtain ⟨s, hrun, hs⟩ := (Option.any_eq_true ..).mp hread
  obtain ⟨w, hopen, hresult⟩ := (Option.any_eq_true ..).mp hs
  obtain ⟨fd, hfd, hnone⟩ := (Option.any_eq_true ..).mp hresult
  have hempty := of_decide_eq_true hnone
  refine ⟨s, w, fd, hrun, hopen, hfd, hempty, ?_⟩
  rintro ⟨ino, -, f, hf, -⟩
  rw [hempty] at hf
  cases hf

end Rootfs

end Tenok
