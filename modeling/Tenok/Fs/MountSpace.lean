import Tenok.Fs.AddFile
import Tenok.Fs.OpenFiles

/-!
What mounting a directory takes. Every file takes an inode, which is counted twice, and every other
dentry a block. The loop comes to its end if the list of the dentries on the storage does and the
blocks are enough.
-/
namespace Tenok

namespace Storage

def FirstInode (st : Storage) (l : List StoredDentry) : Prop :=
  ∃ d ∈ l.head?, (st.inode d.dInode).isSome

instance decidableFirstInode (st : Storage) (l : List StoredDentry) :
    Decidable (st.FirstInode l) :=
  inferInstanceAs (Decidable (∃ d ∈ l.head?, _))

end Storage

namespace Rootfs

/-- The blocks for more dentries in a directory that has some. -/
def blocksFor (dentryCnt more : Nat) : Nat :=
  fsCalculateDentryBlocks fsBlkSize (dentryCnt + more) - fsCalculateDentryBlocks fsBlkSize dentryCnt

/-- The files that are mounted from a list of them, before the inodes run out. -/
def filesMounted (sInodeCnt files : Nat) : Nat := min files ((inodeMax + 1 - sInodeCnt) / 2)

def BlocksLeft (s : Rootfs) (dentryCnt files : Nat) : Prop :=
  s.sBlkCnt + blocksFor dentryCnt (filesMounted s.sInodeCnt files) ≤ fsBlkCnt

instance decidableBlocksLeft (s : Rootfs) (dentryCnt files : Nat) :
    Decidable (s.BlocksLeft dentryCnt files) :=
  inferInstanceAs (Decidable (_ ≤ _))

/-- The dentries that a directory counts when files are mounted into it. -/
def dentryCnt (s : Rootfs) (dir : Nat) : Nat :=
  if (s.inodes dir).iSync then (s.inodes dir).iSize / sizeofDentry else 0

/-- The dentries that are read come to an end, an inode is read for the first of them, and there are
blocks for those that are mounted. -/
def MountOk (s : Rootfs) (st : Storage) (src : StoredInode) (dir : Nat) : Prop :=
  src.iSize ≠ 0 → ∃ n, ∃ l ∈ st.entries n src.iData,
    st.FirstInode l ∧ s.BlocksLeft (s.dentryCnt dir) l.length

/-- A directory that counts its dentries, and what there is for more of them. -/
structure Filling (s : Rootfs) (dir n : Nat) : Prop where
  counted : ∃ ahead, Counted s ahead
  inUse : s.bitmapInodes dir = true
  list : (s.inodes dir).iDentry ≠ none
  size : (s.inodes dir).iSize = sizeofDentry * n
  blocks : (s.inodes dir).iBlocks = (n + 1) / 2
  bound : n ≤ (List.range inodeMax).countP s.bitmapInodes
  nonempty : n ≠ 0 → s.dentriesOf dir ≠ []

variable {s s' t : Rootfs} {dir ino rdev n m addr passes files : Nat} {mnt : StoredInode}
  {name : List Byte} {inode : Option StoredInode} {added : Inode}

theorem Filling.dentryFits_iff (h : Filling s dir n) : s.DentryFits dir ↔ n % 2 = 1 :=
  Rootfs.dentryFits_iff h.size h.blocks (h.bound.trans (inUse_le s))

theorem Filling.block_iff (h : Filling s dir n) :
    (∃ k < fsBlkCnt, s.bitmapBlks k = false) ↔ s.sBlkCnt < fsBlkCnt := by
  obtain ⟨ahead, hcounted⟩ := h.counted
  have hfull : fsBlkCnt ≤ (List.range fsBlkCnt).countP s.bitmapBlks ↔
      ∀ k < fsBlkCnt, s.bitmapBlks k = true := le_countP_range_iff
  rw [← hcounted.blks] at hfull
  rw [← not_iff_not, Nat.not_lt, hfull]
  simp

theorem Filling.inode_of_room (h : Filling s dir n) (hroom : s.sInodeCnt < inodeMax) :
    ∃ k < inodeMax, s.bitmapInodes k = false := by
  obtain ⟨ahead, hcounted⟩ := h.counted
  by_contra hnot
  have hfull : inodeMax ≤ (List.range inodeMax).countP s.bitmapInodes :=
    le_countP_range_iff.mpr fun i hi => by simpa using fun hfree => hnot ⟨i, hi, hfree⟩
  rw [hcounted.inodes] at hroom
  omega

theorem Filling.fsMountFile_isSome (h : Filling s dir n) :
    (s.fsMountFile dir rdev mnt name).isSome ↔
      inodeMax ≤ s.sInodeCnt ∨ n % 2 = 1 ∨ s.sBlkCnt < fsBlkCnt := by
  rw [Rootfs.fsMountFile]
  by_cases hfull : inodeMax ≤ s.sInodeCnt
  · simp [hfull]
  rw [if_neg hfull, or_iff_right hfull]
  have hfree := h.inode_of_room (Nat.lt_of_not_le hfull)
  obtain ⟨⟨ino, s₁⟩, halloc⟩ := Option.isSome_iff_exists.mp
    ((fsAllocInode_isSome (s := { s with fileCnt := s.fileCnt + 1 })).mpr hfree)
  obtain ⟨hne, hsame, -, -, -, -⟩ := fsAllocInode_others halloc h.inUse
  obtain ⟨-, hs₁⟩ := fsAllocInode_spec halloc
  simp only [Option.bind_eq_bind, halloc, Option.bind_some]
  generalize hr : s₁.setInode ino _ = r
  have hkept : r.inodes dir = s.inodes dir := by
    rw [← hr]
    exact (Function.update_of_ne hne ..).trans hsame
  have hblks : r.bitmapBlks = s.bitmapBlks := by
    rw [← hr, hs₁]
    rfl
  have hplace : (r.fsAllocateDentry dir).isSome ↔ n % 2 = 1 ∨ s.sBlkCnt < fsBlkCnt := by
    have hfits : r.DentryFits dir ↔ s.DentryFits dir := by
      simp only [DentryFits, hkept]
    rw [fsAllocateDentry_isSome, hkept, hblks]
    by_cases hodd : n % 2 = 1
    · rw [if_pos (hfits.mpr (h.dentryFits_iff.mpr hodd))]
      exact iff_of_true (h.nonempty (by omega)) (Or.inl hodd)
    · rw [if_neg (fun hf => hodd (h.dentryFits_iff.mp (hfits.mp hf))), or_iff_right hodd]
      exact h.block_iff
  rw [← hplace]
  cases hdentry : r.fsAllocateDentry dir with
  | none => simp
  | some pair =>
      obtain ⟨addr, r₂⟩ := pair
      obtain ⟨sBlkCnt, bitmapBlks, rfl, -⟩ := fsAllocateDentry_cases hdentry
      obtain ⟨list, hlist⟩ := Option.ne_none_iff_exists'.mp h.list
      simp [insertDentry, setDentry, hkept, hlist]

theorem Filling.newFile (h : Filling s dir n) (hnew : NewFile s s' dir ino addr added)
    (hcounted : ∃ ahead, Counted s' ahead) : Filling s' dir (n + 1) := by
  have hcount := countP_range_update hnew.bound hnew.free
  rw [← hnew.bits] at hcount
  obtain ⟨iData, hinode⟩ := hnew.counts
  have hbound := h.bound.trans (inUse_le s)
  have hsize : ((s.inodes dir).iSize + sizeofDentry) % 2 ^ 32 = sizeofDentry * (n + 1) := by
    have hmax : inodeMax = 100 := rfl
    have hdentry : sizeofDentry = 56 := rfl
    rw [h.size, hdentry, Nat.mod_eq_of_lt (by omega)]
    omega
  refine ⟨hcounted, ?_, ?_, ?_, ?_, ?_, fun _ => ?_⟩
  · rw [hnew.bits, Function.update_of_ne hnew.ne]
    exact h.inUse
  · rw [hinode]
    exact Option.some_ne_none _
  · rw [hinode]
    exact hsize
  · rw [hinode]
    show fsCalculateDentryBlocks fsBlkSize
      (((s.inodes dir).iSize + sizeofDentry) % 2 ^ 32 / sizeofDentry) = _
    rw [hsize, Nat.mul_div_cancel_left _ (by decide), fsCalculateDentryBlocks_eq]
  · rw [hcount]
    exact Nat.succ_le_succ h.bound
  · rw [hnew.dentriesOf_dir]
    exact List.append_ne_nil_of_right_ne_nil _ (List.cons_ne_nil addr [])

theorem Filling.fsMountFile (h : Filling s dir n)
    (hmount : s.fsMountFile dir rdev mnt name = some s') :
    (inodeMax ≤ s.sInodeCnt ∧ s' = s) ∨ (s.sInodeCnt < inodeMax ∧ Filling s' dir (n + 1) ∧
      s'.sInodeCnt = s.sInodeCnt + 2 ∧ s'.sBlkCnt = s.sBlkCnt + (n + 1) % 2 ∧
      s'.storages = s.storages) := by
  obtain ⟨ahead, hcounted⟩ := h.counted
  obtain hfull | ⟨hroom, hcounted'⟩ := hcounted.fsMountFile hmount
  · exact Or.inl hfull
  obtain ⟨hfull, -⟩ | ⟨ino, addr, t, htakes, -, -, hlists⟩ := fsMountFile_spec h.inUse hmount
  · omega
  have hnew := htakes.newFile h.inUse hlists
  have hcount := countP_range_update hnew.bound hnew.free
  rw [← hnew.bits] at hcount
  refine Or.inr ⟨hroom, h.newFile hnew ⟨ahead + 1, hcounted'⟩, ?_, ?_, hnew.same.storages⟩
  · rw [hcounted'.inodes, hcounted.inodes, hcount]
    omega
  · rw [hcounted'.blks, hcounted.blks]
    obtain ⟨hfits, hblks, -⟩ | ⟨hfits, k, hk, hfree, -, hblks⟩ := hnew.place
    · rw [h.dentryFits_iff] at hfits
      rw [hblks]
      omega
    · rw [h.dentryFits_iff] at hfits
      rw [hblks, countP_range_update hk hfree]
      omega

theorem Filling.same (h : Filling s dir n) (hcounted : ∃ ahead, Counted t ahead)
    (hbit : t.bitmapInodes dir = true) (hlist : (t.inodes dir).iDentry = (s.inodes dir).iDentry)
    (hsize : (t.inodes dir).iSize = (s.inodes dir).iSize)
    (hblocks : (t.inodes dir).iBlocks = (s.inodes dir).iBlocks)
    (hcount : (List.range inodeMax).countP s.bitmapInodes ≤
      (List.range inodeMax).countP t.bitmapInodes) : Filling t dir n where
  counted := hcounted
  inUse := hbit
  list := by rw [hlist]; exact h.list
  size := hsize.trans h.size
  blocks := hblocks.trans h.blocks
  bound := h.bound.trans hcount
  nonempty hn := by rw [dentriesOf, hlist]; exact h.nonempty hn

theorem Filling.empty (hcounted : ∃ ahead, Counted s ahead) (hbit : s.bitmapInodes dir = true)
    (hlist : (s.inodes dir).iDentry ≠ none) (hsize : (s.inodes dir).iSize = 0)
    (hblocks : (s.inodes dir).iBlocks = 0) : Filling s dir 0 :=
  ⟨hcounted, hbit, hlist, hsize, hblocks, Nat.zero_le _, fun hn => absurd rfl hn⟩

theorem blocksFor_eq : blocksFor n m = (n + m + 1) / 2 - (n + 1) / 2 := by
  rw [blocksFor, fsCalculateDentryBlocks_eq, fsCalculateDentryBlocks_eq]

theorem Filling.blocksLeft_of_none (h : Filling s dir n)
    (hnone : filesMounted s.sInodeCnt files = 0) : s.BlocksLeft m files := by
  obtain ⟨ahead, hcounted⟩ := h.counted
  have hle : (List.range fsBlkCnt).countP s.bitmapBlks ≤ fsBlkCnt :=
    List.countP_le_length.trans_eq List.length_range
  rw [← hcounted.blks] at hle
  rw [BlocksLeft, hnone, blocksFor_eq]
  omega

theorem Filling.blocksLeft_of_full (h : Filling s dir n) (hfull : inodeMax ≤ s.sInodeCnt) :
    s.BlocksLeft m files := by
  refine h.blocksLeft_of_none ?_
  rw [filesMounted]
  omega

theorem blocksLeft_succ (hroom : s.sInodeCnt < inodeMax)
    (hinodes : t.sInodeCnt = s.sInodeCnt + 2) (hblks : t.sBlkCnt = s.sBlkCnt + (n + 1) % 2) :
    s.BlocksLeft n (files + 1) ↔ t.BlocksLeft (n + 1) files := by
  have hmax : inodeMax = 100 := rfl
  have hmore : filesMounted s.sInodeCnt (files + 1) = filesMounted t.sInodeCnt files + 1 := by
    rw [filesMounted, filesMounted, hinodes]
    omega
  rw [BlocksLeft, BlocksLeft, hmore, hblks, blocksFor_eq, blocksFor_eq]
  omega

theorem not_blocksLeft_succ (hnot : ¬ (inodeMax ≤ s.sInodeCnt ∨ n % 2 = 1 ∨ s.sBlkCnt < fsBlkCnt)) :
    ¬ s.BlocksLeft n (files + 1) := by
  have hmax : inodeMax = 100 := rfl
  have hsome : 0 < filesMounted s.sInodeCnt (files + 1) := by
    rw [filesMounted]
    omega
  rw [BlocksLeft, blocksFor_eq]
  omega

/-- The loop of `fs_mount_directory`, in the passes that the list of the dentries takes. -/
theorem Filling.mountLoop_isSome (h : Filling s dir n) :
    (mountLoop rdev dir passes s addr inode).isSome ↔
      ∃ l ∈ (s.storages rdev).entries passes addr,
        (inode.isSome ∨ (s.storages rdev).FirstInode l) ∧ s.BlocksLeft n l.length := by
  induction passes generalizing s addr inode n with
  | zero => simp [mountLoop, Storage.entries]
  | succ passes ih =>
      rw [mountLoop, Storage.entries]
      cases hdentry : (s.storages rdev).dentry addr with
      | none => simp
      | some dentry =>
      -- every list begins with this dentry
      have hfirst : ∀ l, (s.storages rdev).FirstInode (dentry :: l) ↔
          ((s.storages rdev).inode dentry.dInode).isSome := fun l => by
        simp [Storage.FirstInode]
      have hor : ∀ l, (inode.isSome ∨ (s.storages rdev).FirstInode (dentry :: l)) ↔
          (((s.storages rdev).inode dentry.dInode).or inode).isSome := fun l => by
        rw [hfirst]
        cases (s.storages rdev).inode dentry.dInode <;> simp
      have hhead : ∀ l ∈ (if dentry.next < sizeofSuperBlock + sizeofInode * inodeMax then some [dentry]
          else ((s.storages rdev).entries passes (dentry.next - 40)).map (dentry :: ·)),
          ∃ l', l = dentry :: l' := by
        intro l hl
        split at hl
        · exact ⟨[], (Option.some.inj hl).symm⟩
        · obtain ⟨l', -, rfl⟩ := Option.map_eq_some_iff.mp hl
          exact ⟨l', rfl⟩
      simp only [Option.bind_eq_bind, Option.bind_some]
      cases hmnt : ((s.storages rdev).inode dentry.dInode).or inode with
      | none =>
          refine iff_of_false (by simp) ?_
          rintro ⟨l, hl, hread, -⟩
          obtain ⟨l', rfl⟩ := hhead l hl
          rw [hor, hmnt] at hread
          cases hread
      | some mnt =>
      have hread : ∀ l, inode.isSome ∨ (s.storages rdev).FirstInode (dentry :: l) := fun l => by
        rw [hor, hmnt]
        rfl
      have hmounts : (s.fsMountFile dir rdev mnt dentry.dName).isSome ↔
          inodeMax ≤ s.sInodeCnt ∨ n % 2 = 1 ∨ s.sBlkCnt < fsBlkCnt := h.fsMountFile_isSome
      simp only [Option.bind_some]
      cases hmount : s.fsMountFile dir rdev mnt dentry.dName with
      | none =>
          rw [hmount] at hmounts
          refine iff_of_false (by simp) ?_
          rintro ⟨l, hl, -, hblocks⟩
          obtain ⟨l', rfl⟩ := hhead l hl
          exact not_blocksLeft_succ (fun hor => by cases hmounts.mpr hor) hblocks
      | some t =>
      simp only [Option.bind_some]
      obtain ⟨hfull, rfl⟩ | ⟨hroom, ht, hinodes, hblks, hstorages⟩ := h.fsMountFile hmount
      · split
        · exact iff_of_true rfl ⟨[dentry], rfl, hread [], h.blocksLeft_of_full hfull⟩
        · rw [ih h]
          constructor
          · rintro ⟨l, hl, -, -⟩
            exact ⟨dentry :: l, by rw [hl]; rfl, hread l, h.blocksLeft_of_full hfull⟩
          · rintro ⟨l, hl, -, -⟩
            obtain ⟨l', hl', rfl⟩ := Option.map_eq_some_iff.mp hl
            exact ⟨l', hl', Or.inl rfl, h.blocksLeft_of_full hfull⟩
      · have hsucc : ∀ files, s.BlocksLeft n (files + 1) ↔ t.BlocksLeft (n + 1) files :=
          fun _ => blocksLeft_succ hroom hinodes hblks
        split
        · refine iff_of_true rfl ⟨[dentry], rfl, hread [], (hsucc 0).mpr ?_⟩
          exact ht.blocksLeft_of_none (Nat.zero_min _)
        · rw [ih ht, hstorages]
          constructor
          · rintro ⟨l, hl, -, hblocks⟩
            exact ⟨dentry :: l, by rw [hl]; rfl, hread l, (hsucc l.length).mpr hblocks⟩
          · rintro ⟨l, hl, -, hblocks⟩
            obtain ⟨l', hl', rfl⟩ := Option.map_eq_some_iff.mp hl
            exact ⟨l', hl', Or.inl rfl, (hsucc l'.length).mp hblocks⟩

end Rootfs

end Tenok
