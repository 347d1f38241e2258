import Tenok.Fs.Actions
import Tenok.Fs.DirectoryRuns
import Tenok.Fs.FileWrites

/-!
Regular files over whole runs: files are created and written, and storages are mounted, in any
order. Every file keeps its chain of blocks, which only writes to it change.
-/
namespace Tenok

namespace Rootfs

/-- The calls that a regular file sees. -/
inductive FileEvent
  | call (e : RootfsEvent)
  | read (ino size : Nat)
  | write (ino : Nat) (buf : List Byte)
  | lseek (ino : Nat) (offset : Int) (whence : Nat)

def IsFile (s : Rootfs) (ino : Nat) : Prop :=
  s.bitmapInodes ino = true ∧ (s.inodes ino).iMode = sIfreg

instance decidableIsFile (s : Rootfs) (ino : Nat) : Decidable (s.IsFile ino) :=
  inferInstanceAs (Decidable (_ ∧ _))

def fileStep (s : Rootfs) : FileEvent → Option Rootfs
  | .call e => s.step e
  | .read ino size => if s.IsFile ino then some (s.regFileRead ino size).1 else none
  | .write ino buf => if s.IsFile ino then (s.regFileWrite ino buf).map Prod.fst else none
  | .lseek ino offset whence =>
      if s.IsFile ino then some (s.regFileLseek ino offset whence).1 else none

/-- Directories keep their dentries in their own blocks. -/
def CallOk (s : Rootfs) : FileEvent → Prop
  | .call e => s.EntryOk e
  | _ => True

instance decidableCallOk (s : Rootfs) : (e : FileEvent) → Decidable (s.CallOk e)
  | .call e => decidableEntryOk s e
  | .read _ _ | .write _ _ | .lseek _ _ _ => inferInstanceAs (Decidable True)

/-- The links of every file end with NULL, and its size is a `uint32_t`. -/
def Ended (s : Rootfs) : Prop := ∀ i, s.IsRegFile i →
  s.bNext^[(s.inodes i).iBlocks] (s.inodes i).iData = 0 ∧ (s.inodes i).iSize < 2 ^ 32

structure Filed (s : Rootfs) : Prop where
  laid : ∃ own, Laid s own none s.mountCnt
  ended : Ended s
  counted : ∃ ahead, Counted s ahead

/-- A call leaves the files in the root file system as they are, or makes empty ones. -/
structure FilesStay (s t : Rootfs) : Prop where
  memory : t.memory = s.memory
  files : ∀ i, t.IsRegFile i →
    (s.IsRegFile i ∧ (t.inodes i).iData = (s.inodes i).iData ∧
      (t.inodes i).iBlocks = (s.inodes i).iBlocks ∧ (t.inodes i).iSize = (s.inodes i).iSize) ∨
    ((t.inodes i).iData = 0 ∧ (t.inodes i).iBlocks = 0 ∧ (t.inodes i).iSize = 0)

variable {s t u : Rootfs} {own : Nat → List Nat} {dir ino addr devs passes rdev : Nat}
  {inode : Inode} {bs bs' : List Nat} {buf : List Byte}

theorem FilesStay.trans (h : FilesStay s t) (h' : FilesStay t u) : FilesStay s u := by
  refine ⟨h'.memory.trans h.memory, fun i hi => ?_⟩
  obtain ⟨hi', hdata', hblocks', hsize'⟩ | hnew := h'.files i hi
  · rw [hdata', hblocks', hsize']
    exact h.files i hi'
  · exact Or.inr hnew

theorem FilesStay.of_dir (hdir : s.IsDir dir) (hmemory : t.memory = s.memory)
    (hbits : t.bitmapInodes = s.bitmapInodes)
    (hinodes : ∃ inode, inode.iMode = sIfdir ∧ t.inodes = Function.update s.inodes dir inode) :
    FilesStay s t := by
  obtain ⟨inode, hmode, hinodes⟩ := hinodes
  refine ⟨hmemory, fun i hi => Or.inl ?_⟩
  have hne : i ≠ dir := by
    rintro rfl
    have hreg := hi.2.1
    rw [hinodes, Function.update_self, hmode] at hreg
    exact absurd hreg (by decide)
  have hinode : t.inodes i = s.inodes i := by rw [hinodes, Function.update_of_ne hne]
  rw [IsRegFile, hbits, hinode] at hi
  rw [hinode]
  exact ⟨hi, rfl, rfl, rfl⟩

theorem FilesStay.refl (s : Rootfs) : FilesStay s s :=
  ⟨rfl, fun _ hi => Or.inl ⟨hi, rfl, rfl, rfl⟩⟩

theorem Lists.filesStay (h : Lists s t dir addr) (hdir : s.IsDir dir) : FilesStay s t := by
  obtain ⟨_, hinodes⟩ := h.inodes
  refine .of_dir hdir h.same.memory h.bits ⟨_, ?_, hinodes⟩
  exact hdir.2

theorem Takes.filesStay (h : Takes s t dir ino addr inode)
    (hnew : ¬ (inode.iMode = sIfreg ∧ inode.iRdev = rdevRootfs)) : FilesStay s t := by
  refine ⟨h.same.memory, fun i hi => Or.inl ?_⟩
  have hne : i ≠ ino := by
    rintro rfl
    have hreg := hi.2
    rw [h.taken.2] at hreg
    exact hnew hreg
  have hinode : t.inodes i = s.inodes i := by rw [h.inodes, Function.update_of_ne hne]
  have hbit : t.bitmapInodes i = s.bitmapInodes i := by rw [h.bits, Function.update_of_ne hne]
  rw [IsRegFile, hbit, hinode] at hi
  rw [hinode]
  exact ⟨hi, rfl, rfl, rfl⟩

theorem Instantiates.filesStay {fd fileType : Nat} (h : Instantiates s t ino fd fileType) :
    FilesStay s t := by
  obtain ⟨_, -, hinodes⟩ := h.inodes
  refine ⟨h.same.memory, fun i hi => ?_⟩
  by_cases hne : i = ino
  · rw [hinodes, hne, Function.update_self]
    exact Or.inr ⟨rfl, rfl, rfl⟩
  · have hinode : t.inodes i = s.inodes i := by rw [hinodes, Function.update_of_ne hne]
    rw [IsRegFile, h.bits, hinode] at hi
    rw [hinode]
    exact Or.inl ⟨hi, rfl, rfl, rfl⟩

theorem FilesStay.fsAddFile {fileName : List Byte} {fileType : Nat} {memory : Bool} {r : Option Nat}
    (hdir : s.IsDir dir) (hfree : ∀ i, s.bitmapInodes i = false → s.inodes i = {})
    (h : s.fsAddFile dir fileName fileType memory = some (t, r)) : FilesStay s t := by
  obtain ⟨rfl, -⟩ | ⟨ino, addr, v, -, htakes, -, -, hadded⟩ := fsAddFile_spec hdir.1 h
  · exact .refl t
  have hv : FilesStay s v := htakes.filesStay fun hreg => by
    have hmode : (s.inodes ino).iMode = sIfreg := hreg.1
    rw [hfree ino htakes.free] at hmode
    exact absurd hmode (by decide)
  have hdir_v : v.IsDir dir := htakes.keeps.isDir hdir
  obtain ⟨rfl, -⟩ | ⟨w, hinst, -, hlists⟩ := hadded
  · exact hv
  · have hne : dir ≠ ino := by
      rintro rfl
      exact absurd hdir.1 (by simp [htakes.free])
    have hdir_w : w.IsDir dir := by
      obtain ⟨_, -, hinodes⟩ := hinst.inodes
      rw [IsDir, hinst.bits, hinodes, Function.update_of_ne hne]
      exact hdir_v
    have hcnt : FilesStay w { w with fileCnt := w.fileCnt + 1 } :=
      ⟨rfl, fun _ hi => Or.inl ⟨hi, rfl, rfl, rfl⟩⟩
    exact (hv.trans hinst.filesStay).trans (hcnt.trans (hlists.filesStay hdir_w))

theorem FilesStay.fsMountFile {mnt : StoredInode} {name : List Byte} (hdir : s.IsDir dir)
    (hrdev : rdev ≠ rdevRootfs) (h : s.fsMountFile dir rdev mnt name = some t) :
    FilesStay s t ∧ t.IsDir dir := by
  obtain ⟨-, rfl⟩ | ⟨ino, addr, v, htakes, -, -, hlists⟩ := fsMountFile_spec hdir.1 h
  · exact ⟨.refl t, hdir⟩
  · have hdir_v : v.IsDir dir := htakes.keeps.isDir hdir
    have hv : FilesStay s v := htakes.filesStay fun hreg => hrdev hreg.2
    exact ⟨hv.trans (hlists.filesStay hdir_v), hlists.keeps.isDir hdir_v⟩

theorem FilesStay.fsMountDirectory {src : StoredInode} (hdir : s.IsDir dir)
    (hrdev : rdev ≠ rdevRootfs) (h : s.fsMountDirectory passes rdev src dir = some t) :
    FilesStay s t := by
  have hset : ∀ {v : Rootfs} {f : Inode → Inode}, (∀ n, (f n).iMode = n.iMode) → v.IsDir dir →
      FilesStay v (v.setInode dir f) := fun hf hv =>
    .of_dir hv rfl rfl ⟨_, (hf _).trans hv.2, rfl⟩
  obtain ⟨-, rfl⟩ | ⟨-, v, ⟨hv, hdir_v⟩, rfl⟩ :=
    fsMountDirectory_invariant (P := fun v => FilesStay s v ∧ v.IsDir dir)
      (fun hv hfile => by
        obtain ⟨hstay, hdir'⟩ := FilesStay.fsMountFile hv.2 hrdev hfile
        exact ⟨hv.1.trans hstay, hdir'⟩)
      (fun _ => ⟨hset (fun _ => rfl) hdir, hdir.1, by simpa [setInode] using hdir.2⟩)
      (fun _ => ⟨.refl s, hdir⟩) h
  · exact .refl t
  · exact hv.trans (hset (fun _ => rfl) hdir_v)

theorem Ended.stay (h : Ended s) (hstay : FilesStay s t) : Ended t := by
  have hnext : t.bNext = s.bNext := by
    funext a
    rw [bNext, hstay.memory, bNext]
  intro i hi
  obtain ⟨hi', hdata, hblocks, hsize⟩ | ⟨hdata, hblocks, hsize⟩ := hstay.files i hi
  · rw [hnext, hdata, hblocks, hsize]
    exact h i hi'
  · rw [hdata, hblocks, hsize]
    exact ⟨rfl, by decide⟩

theorem Filed.chains (h : Filed s) :
    ∃ own, Laid s own none s.mountCnt ∧ ∀ i, s.IsRegFile i → Chain s i (own i) := by
  obtain ⟨own, hlaid⟩ := h.laid
  refine ⟨own, hlaid, fun i hi => ?_⟩
  obtain ⟨hblocks, hlinked⟩ := (hlaid.inodes i hi.1).file hi.2.1 hi.2.2
  refine ⟨hi, hlaid.blocks.used i, hlaid.blocks.nodup i, hblocks, hlinked.append ?_⟩
  rw [List.length_map, ← hblocks]
  exact (h.ended i hi).1

theorem Filed.blocksOk (h : Filed s) : BlocksOk s := by
  obtain ⟨_, hlaid⟩ := h.laid
  obtain ⟨_, hcounted⟩ := h.counted
  exact ⟨hlaid.fits.1, hlaid.fits.2, hcounted.blks⟩

theorem Laid.wrote (h : Laid s own none devs) (hwrote : Wrote s t ino (own ino) bs')
    (hchain : Chain t ino bs') : Laid t (Function.update own ino bs') none devs := by
  obtain ⟨iData, hinodes⟩ := hwrote.inode
  have hbits : t.bitmapInodes = s.bitmapInodes := by rw [hwrote.rest]
  have hbit : s.bitmapInodes ino = true := hbits ▸ hchain.file.1
  have hsame : SameStore { s with memory := t.memory } t := by
    refine ⟨?_, rfl, ?_, ?_⟩ <;> rw [hwrote.rest]
  have hother : ∀ j ≠ ino, ∀ k ∈ own j, k ∉ bs' := fun j hj k hk hmem =>
    (hwrote.grown k hmem).elim (fun hold => hj (h.blocks.apart j ino k hk hold))
      fun hfresh => hfresh (h.blocks.used j k hk)
  have hmem : ∀ {j k}, k ∈ Function.update own ino bs' j →
      (j = ino ∧ k ∈ bs') ∨ (j ≠ ino ∧ k ∈ own j) := by
    intro j k hk
    by_cases hj : j = ino
    · subst hj
      rw [Function.update_self] at hk
      exact Or.inl ⟨rfl, hk⟩
    · rw [Function.update_of_ne hj] at hk
      exact Or.inr ⟨hj, hk⟩
  refine ⟨?_, h.mounted, ⟨fun j k hk => ?_, fun j => ?_, fun j j' k hk hk' => ?_⟩, fun j hj => ?_,
    fun j hj => ?_⟩
  · rw [hsame.sBlkAddr]
    exact h.fits
  · obtain ⟨-, hk⟩ | ⟨-, hk⟩ := hmem hk
    · exact hchain.used k hk
    · exact hwrote.used (h.blocks.used j k hk)
  · by_cases hj : j = ino
    · subst hj
      rw [Function.update_self]
      exact hchain.nodup
    · rw [Function.update_of_ne hj]
      exact h.blocks.nodup j
  · obtain ⟨hj, hnew⟩ | ⟨hj, hold⟩ := hmem hk
    · obtain ⟨hj', -⟩ | ⟨hj', hold'⟩ := hmem hk'
      · exact hj.trans hj'.symm
      · exact absurd hnew (hother j' hj' k hold')
    · obtain ⟨-, hnew'⟩ | ⟨-, hold'⟩ := hmem hk'
      · exact absurd hnew' (hother j hj k hold)
      · exact h.blocks.apart j j' k hold hold'
  · have hj' : s.bitmapInodes j = false := hbits ▸ hj
    have hne : j ≠ ino := by
      rintro rfl
      exact absurd hbit (by simp [hj'])
    rw [Function.update_of_ne hne, hinodes, Function.update_of_ne hne]
    exact h.unused j hj'
  · have hj' : s.bitmapInodes j = true := hbits ▸ hj
    by_cases hne : j = ino
    · subst hne
      have hrdev := (h.inodes j hj').rdev
      rw [Function.update_self]
      refine ⟨?_, fun hdir => ?_, fun _ _ => ⟨hchain.blocks, hchain.linked.left⟩⟩
      · rw [hinodes, Function.update_self]
        exact hrdev
      · exact absurd (hchain.file.2.1.symm.trans hdir) (by decide)
    · rw [Function.update_of_ne hne, hinodes, Function.update_of_ne hne]
      exact ((h.inodes j hj').memory fun k hk =>
        (hwrote.others k (hother j hne k hk)).bNext).same hsame

theorem Filed.wrote (h : Filed s) (hlaid : Laid s own none s.mountCnt)
    (hchains : ∀ i, s.IsRegFile i → Chain s i (own i)) (hwrote : Wrote s t ino (own ino) bs')
    (hchain : Chain t ino bs') (hblocks : BlocksOk t) : Filed t := by
  obtain ⟨iData, hinodes⟩ := hwrote.inode
  have hbits : t.bitmapInodes = s.bitmapInodes := by rw [hwrote.rest]
  have hmounts : t.mountCnt = s.mountCnt := by rw [hwrote.rest]
  have hended : ∀ {i cs}, Chain t i cs → t.bNext^[(t.inodes i).iBlocks] (t.inodes i).iData = 0 := by
    intro i cs hc
    refine hc.linked.iterate ?_
    rw [hc.blocks, List.getElem?_append_right (by simp)]
    simp
  refine ⟨⟨_, hmounts ▸ hlaid.wrote hwrote hchain⟩, fun i hi => ?_, ?_⟩
  · by_cases hne : i = ino
    · subst hne
      refine ⟨hended hchain, ?_⟩
      have hreg : s.IsRegFile i := by
        have hi' := hi
        rw [IsRegFile, hbits, hinodes, Function.update_self] at hi'
        exact hi'
      rw [hinodes, Function.update_self]
      exact (h.ended i hreg).2
    · have hreg : s.IsRegFile i := by
        have hi' := hi
        rw [IsRegFile, hbits, hinodes, Function.update_of_ne hne] at hi'
        exact hi'
      obtain ⟨hc, -⟩ := hwrote.other hne (hchains i hreg) fun k hk hold =>
        hne (hlaid.blocks.apart i ino k hk hold)
      refine ⟨hended hc, ?_⟩
      rw [hinodes, Function.update_of_ne hne]
      exact (h.ended i hreg).2
  · obtain ⟨ahead, hcounted⟩ := h.counted
    refine ⟨ahead, ⟨?_, hblocks.counted⟩⟩
    rw [hbits, hwrote.rest]
    exact hcounted.inodes

theorem Filed.setPos (h : Filed s) (pos : Nat → Nat) : Filed { s with pos } := by
  obtain ⟨⟨own, hlaid⟩, hended, ⟨ahead, hcounted⟩⟩ := h
  exact ⟨⟨own, hlaid.same ⟨rfl, rfl, rfl, rfl⟩ rfl rfl subset_rfl⟩, hended,
    ⟨ahead, hcounted.same ⟨rfl, rfl, rfl, rfl⟩⟩⟩

theorem Filed.setSize (h : Filed s) (hfile : s.IsRegFile ino) (size : Nat → Nat)
    (hsize : ∀ n, size n < 2 ^ 32) :
    Filed (s.setInode ino fun n => { n with iSize := size n.iSize }) := by
  obtain ⟨⟨own, hlaid⟩, hended, ⟨ahead, hcounted⟩⟩ := h
  have hold := hlaid.inodes ino hfile.1
  refine ⟨⟨own, hlaid.setInode hfile.1 ⟨hold.rdev, fun hdir => ?_, fun hmode hrdev => ?_⟩⟩,
    fun i hi => ?_, ⟨ahead, hcounted.same ⟨rfl, rfl, rfl, rfl⟩⟩⟩
  · have hdir' : (s.inodes ino).iMode = sIfdir := hdir
    exact absurd (hfile.2.1.symm.trans hdir') (by decide)
  · obtain ⟨hblocks, hlinked⟩ := hold.file hmode hrdev
    exact ⟨hblocks, hlinked⟩
  · by_cases hne : i = ino
    · subst hne
      simp only [setInode, Function.update_self]
      exact ⟨(hended i hfile).1, hsize _⟩
    · simp only [IsRegFile, setInode, Function.update_of_ne hne] at hi ⊢
      exact hended i hi

theorem Filed.regFileWrite {n : Nat} (h : Filed s) (hwrite : s.regFileWrite ino buf = some (t, n))
    (hfile : s.IsFile ino) : Filed t := by
  by_cases hrdev : (s.inodes ino).iRdev = rdevRootfs
  · obtain ⟨own, hlaid, hchains⟩ := h.chains
    obtain ⟨t', u, bs', hrun, hwrites, ht'⟩ :=
      (hchains ino ⟨hfile.1, hfile.2, hrdev⟩).regFileWrite h.blocksOk buf
    obtain ⟨rfl, rfl⟩ := Prod.mk.inj (Option.some.inj (hrun.symm.trans hwrite))
    rw [ht']
    exact ((h.wrote hlaid hchains hwrites.wrote hwrites.chain hwrites.blocksOk).setSize
      hwrites.chain.file (fun n => (n + buf.length) % 2 ^ 32)
        fun _ => Nat.mod_lt _ (by decide)).setPos _
  · rw [Rootfs.regFileWrite, if_pos hrdev] at hwrite
    obtain ⟨rfl, -⟩ := Prod.mk.inj (Option.some.inj hwrite)
    exact h

theorem Filed.fsFileAppendBlock {r : Nat} (h : Filed s) (hfile : s.IsRegFile ino)
    (happ : s.fsFileAppendBlock ino = some (t, r)) : Filed t := by
  obtain ⟨own, hlaid, hchains⟩ := h.chains
  obtain hfull | hroom := Nat.lt_or_ge s.sBlkCnt fsBlkCnt |>.symm
  · rw [Rootfs.fsFileAppendBlock, if_neg (not_not.mpr hfile.2.2), if_pos hfull] at happ
    obtain ⟨rfl, -⟩ := Prod.mk.inj (Option.some.inj happ)
    exact h
  · obtain ⟨t', k, happ', hnew⟩ := (hchains ino hfile).append h.blocksOk hroom
    obtain ⟨rfl, -⟩ := Prod.mk.inj (Option.some.inj (happ'.symm.trans happ))
    exact h.wrote hlaid hchains hnew.wrote hnew.chain hnew.blocksOk

theorem Filed.call {e : RootfsEvent} (h : Filed s) (hok : s.EntryOk e) (hstep : s.step e = some t) :
    Filed t := by
  have hlaid' := Laid.step h.laid hok hstep
  obtain ⟨own, hlaid⟩ := h.laid
  obtain ⟨ahead, hcounted⟩ := h.counted
  cases e with
  | addFile dir fileName fileType memory =>
      obtain ⟨hdir, hcall⟩ := Option.ite_none_right_eq_some.mp hstep
      obtain ⟨⟨_, r⟩, hadd, rfl⟩ := Option.map_eq_some_iff.mp hcall
      exact ⟨hlaid', h.ended.stay (.fsAddFile hdir (fun i hi => (hlaid.unused i hi).2) hadd),
        ⟨ahead, hcounted.fsAddFile hadd⟩⟩
  | mountDirectory storage src target passes =>
      obtain ⟨⟨hdir, -⟩, hcall⟩ := Option.ite_none_right_eq_some.mp hstep
      obtain ⟨v, hmount, hs'⟩ := Option.bind_eq_some_iff.mp hcall
      obtain rfl := Option.some.inj hs'
      have hadded : FilesStay s { s with
          storages := Function.update s.storages s.mountCnt storage } :=
        ⟨rfl, fun _ hi => Or.inl ⟨hi, rfl, rfl, rfl⟩⟩
      have hcnt : FilesStay v { v with mountCnt := v.mountCnt + 1 } :=
        ⟨rfl, fun _ hi => Or.inl ⟨hi, rfl, rfl, rfl⟩⟩
      have hmounted : FilesStay { s with
          storages := Function.update s.storages s.mountCnt storage } v :=
        .fsMountDirectory hdir (Nat.ne_of_gt hlaid.mounted) hmount
      have hcounted' : Counted { s with
          storages := Function.update s.storages s.mountCnt storage } ahead :=
        hcounted.same ⟨rfl, rfl, rfl, rfl⟩
      refine ⟨hlaid', h.ended.stay ((hadded.trans hmounted).trans hcnt), ?_⟩
      obtain ⟨-, hsame⟩ | ⟨-, further, -, hmore⟩ := hcounted'.fsMountDirectory hmount
      · exact ⟨ahead, hsame.same ⟨rfl, rfl, rfl, rfl⟩⟩
      · exact ⟨further, hmore.same ⟨rfl, rfl, rfl, rfl⟩⟩
  | syncDirectory dir passes =>
      obtain ⟨⟨hdir, hsync⟩, hcall⟩ := Option.ite_none_right_eq_some.mp hstep
      obtain ⟨_, hstored⟩ := (hlaid.inodes dir hdir.1).dir hdir.2
      have hrdev : (s.inodes dir).iRdev ≠ rdevRootfs :=
        hstored.device.resolve_left (by simp [hsync])
      refine ⟨hlaid', h.ended.stay (.fsMountDirectory hdir hrdev hcall), ?_⟩
      obtain ⟨-, hsame⟩ | ⟨-, further, -, hmore⟩ := hcounted.fsMountDirectory hcall
      · exact ⟨ahead, hsame⟩
      · exact ⟨further, hmore⟩
  | appendBlock ino =>
      obtain ⟨hfile, hcall⟩ := Option.ite_none_right_eq_some.mp hstep
      obtain ⟨⟨_, r⟩, happ, rfl⟩ := Option.map_eq_some_iff.mp hcall
      exact h.fsFileAppendBlock hfile happ

theorem Filed.step {e : FileEvent} (h : Filed s) (hok : s.CallOk e)
    (hstep : s.fileStep e = some t) : Filed t := by
  cases e with
  | call e => exact h.call hok hstep
  | read ino size =>
      obtain ⟨-, hread⟩ := Option.ite_none_right_eq_some.mp hstep
      obtain rfl := Option.some.inj hread
      exact h.setPos _
  | write ino buf =>
      obtain ⟨hfile, hcall⟩ := Option.ite_none_right_eq_some.mp hstep
      obtain ⟨⟨_, n⟩, hwrite, rfl⟩ := Option.map_eq_some_iff.mp hcall
      exact h.regFileWrite hwrite hfile
  | lseek ino offset whence =>
      obtain ⟨-, hseek⟩ := Option.ite_none_right_eq_some.mp hstep
      obtain rfl := Option.some.inj hseek
      obtain ⟨pos, hpos⟩ : ∃ pos, (s.regFileLseek ino offset whence).1 = { s with pos } := by
        rw [regFileLseek]
        split
        · exact ⟨s.pos, rfl⟩
        · split
          · exact ⟨_, rfl⟩
          · exact ⟨s.pos, rfl⟩
      rw [hpos]
      exact h.setPos pos

theorem rootfsInit_filed {sInoAddr sBlkAddr : Nat} (hnull : 0 < sBlkAddr)
    (hend : sBlkAddr + fsBlkSize * fsBlkCnt ≤ 2 ^ 32) : Filed (rootfsInit sInoAddr sBlkAddr) := by
  refine ⟨⟨_, rootfsInit_laid hnull hend⟩, fun i hi => ?_, ⟨0, rootfsInit_counted _ _⟩⟩
  obtain rfl : i = 0 := by simpa [rootfsInit] using hi.1
  exact absurd (show sIfdir = sIfreg from hi.2.1) (by decide)

theorem filed_of_run {sInoAddr sBlkAddr : Nat} {events : List FileEvent} (hnull : 0 < sBlkAddr)
    (hend : sBlkAddr + fsBlkSize * fsBlkCnt ≤ 2 ^ 32)
    (hok : Runs.AllOk CallOk fileStep (rootfsInit sInoAddr sBlkAddr) events)
    (hrun : Runs.exec fileStep (rootfsInit sInoAddr sBlkAddr) events = some s) : Filed s :=
  Runs.exec_invariant (fun _ _ _ h hok hstep => h.step hok hstep) (rootfsInit_filed hnull hend) hok hrun

/-- The size is then the larger one of the old size and of where the write ended, the position is
behind what was written, and the blocks of the file are counted. -/
structure WriteCounts (s : Rootfs) (ino : Nat) (t : Rootfs) (n : Nat) : Prop where
  iSize : (t.inodes ino).iSize = max (s.inodes ino).iSize (s.pos ino + n)
  pos : t.pos ino = s.pos ino + n
  chain : ∃ bs, Chain t ino bs

/-- The write is empty, or it is at the end of the file, there are enough blocks for it, and the
new size is a `uint32_t`. -/
def AppendsAll (s : Rootfs) (ino : Nat) (buf : List Byte) : Prop :=
  buf = [] ∨ (s.pos ino = (s.inodes ino).iSize ∧
    buf.length ≤ s.room (s.inodes ino).iBlocks (s.pos ino) ∧ s.pos ino + buf.length < 2 ^ 32)

instance decidableAppendsAll (s : Rootfs) (ino : Nat) (buf : List Byte) :
    Decidable (s.AppendsAll ino buf) :=
  inferInstanceAs (Decidable (_ ∨ _))

theorem Chain.setSize {i : Nat} (h : Chain s i bs) (size : Nat → Nat) (pos : Nat → Nat) :
    Chain { s.setInode ino (fun n => { n with iSize := size n.iSize }) with pos } i bs := by
  by_cases hne : i = ino
  · subst hne
    refine ⟨⟨h.file.1, ?_, ?_⟩, h.used, h.nodup, ?_, ?_⟩
    all_goals simp only [setInode, Function.update_self]
    · exact h.file.2.1
    · exact h.file.2.2
    · exact h.blocks
    · exact h.linked
  · refine ⟨⟨h.file.1, ?_, ?_⟩, h.used, h.nodup, ?_, ?_⟩
    all_goals simp only [setInode, Function.update_of_ne hne]
    · exact h.file.2.1
    · exact h.file.2.2
    · exact h.blocks
    · exact h.linked

theorem Filed.write_spec (h : Filed s) (hfile : s.IsRegFile ino) (buf : List Byte) :
    ∃ t, s.regFileWrite ino buf =
        some (t, min buf.length (s.room (s.inodes ino).iBlocks (s.pos ino))) ∧
      (t.inodes ino).iSize = ((s.inodes ino).iSize + buf.length) % 2 ^ 32 ∧
      t.pos ino = s.pos ino + min buf.length (s.room (s.inodes ino).iBlocks (s.pos ino)) ∧
      ∃ bs, Chain t ino bs := by
  obtain ⟨own, -, hchains⟩ := h.chains
  obtain ⟨t, u, bs', hrun, hwrites, rfl⟩ := (hchains ino hfile).regFileWrite h.blocksOk buf
  rw [← (hchains ino hfile).blocks] at hrun
  obtain ⟨iData, hinodes⟩ := hwrites.wrote.inode
  refine ⟨_, hrun, ?_, ?_, bs', hwrites.chain.setSize (fun n => (n + buf.length) % 2 ^ 32) _⟩
  · simp only [setInode, Function.update_self, hinodes]
  · simp only [Function.update_self, (hchains ino hfile).blocks]

/-- In every run, a write to a file leaves size, position and blocks as they should be exactly if
it writes everything, at the end of the file. -/
theorem writeCounts_iff {sInoAddr sBlkAddr : Nat} {events : List FileEvent} (buf : List Byte)
    (hnull : 0 < sBlkAddr) (hend : sBlkAddr + fsBlkSize * fsBlkCnt ≤ 2 ^ 32)
    (hok : Runs.AllOk CallOk fileStep (rootfsInit sInoAddr sBlkAddr) events)
    (hrun : Runs.exec fileStep (rootfsInit sInoAddr sBlkAddr) events = some s)
    (hfile : s.IsRegFile ino) (hpos : s.pos ino ≤ (s.inodes ino).iSize)
    (hsize : buf.length < 2 ^ 32) :
    ∃ t n, s.regFileWrite ino buf = some (t, n) ∧ (WriteCounts s ino t n ↔ s.AppendsAll ino buf) := by
  have hs := filed_of_run hnull hend hok hrun
  have hlt := (hs.ended ino hfile).2
  obtain ⟨t, hwrite, hgrown, hmoved, hchain⟩ := hs.write_spec hfile buf
  refine ⟨t, _, hwrite, fun hcounts => ?_, fun hall => ⟨?_, hmoved, hchain⟩⟩
  · have hsame := hcounts.iSize
    rw [hgrown] at hsame
    by_cases hbuf : buf = []
    · exact Or.inl hbuf
    · have hlen := List.length_pos_iff.mpr hbuf
      exact Or.inr (by omega)
  · rw [hgrown]
    obtain rfl | ⟨hat, hroom, hfits⟩ := hall
    · rw [List.length_nil, Nat.zero_min, Nat.add_zero, Nat.add_zero, Nat.mod_eq_of_lt hlt,
        Nat.max_eq_left hpos]
    · rw [Nat.min_eq_left hroom, ← hat, Nat.mod_eq_of_lt hfits]
      exact (Nat.max_eq_right (Nat.le_add_right ..)).symm

def tenBytes : List FileEvent :=
  [.call (.addFile 0 [97#8] sIfreg true), .write 1 (List.replicate 10 1#8)]

theorem tenBytes_run : ∃ s, Runs.exec fileStep (rootfsInit 0x20010000 0x20020000) tenBytes = some s ∧
    s.IsRegFile 1 ∧ s.pos 1 = 10 ∧ (s.inodes 1).iSize = 10 ∧ (s.inodes 1).iBlocks = 1 ∧
    s.sBlkCnt = 2 := by
  have hread : (Runs.exec fileStep (rootfsInit 0x20010000 0x20020000) tenBytes).map (fun s =>
      (decide (s.IsRegFile 1), s.pos 1, (s.inodes 1).iSize, (s.inodes 1).iBlocks, s.sBlkCnt)) =
      some (true, 10, 10, 1, 2) := by decide +kernel
  obtain ⟨s, hrun, hread⟩ := Option.map_eq_some_iff.mp hread
  simp only [Prod.mk.injEq, decide_eq_true_eq] at hread
  exact ⟨s, hrun, hread⟩

theorem tenBytes_appended : ∃ s t n,
    Runs.exec fileStep (rootfsInit 0x20010000 0x20020000) tenBytes = some s ∧
      s.regFileWrite 1 (List.replicate 5 2#8) = some (t, n) ∧ WriteCounts s 1 t n := by
  obtain ⟨s, hrun, hfile, hpos, hsize, hblocks, hcnt⟩ := tenBytes_run
  obtain ⟨t, n, hwrite, hcounts⟩ := writeCounts_iff (List.replicate 5 2#8) (by decide) (by decide)
    (by decide +kernel) hrun hfile (by rw [hpos, hsize]) (by decide)
  refine ⟨s, t, n, hrun, hwrite, hcounts.mpr (Or.inr ⟨by rw [hpos, hsize], ?_, ?_⟩)⟩
  · rw [room, hblocks, hpos, hcnt]
    decide
  · rw [hpos]
    decide

/-- A byte at the start is written again, and the file is said to have eleven. -/
theorem tenBytes_overwritten : ∃ s t n,
    Runs.exec fileStep (rootfsInit 0x20010000 0x20020000) (tenBytes ++ [.lseek 1 0 seekSet]) = some s ∧
      s.IsRegFile 1 ∧ s.pos 1 ≤ (s.inodes 1).iSize ∧ s.regFileWrite 1 [2#8] = some (t, n) ∧
      ¬ WriteCounts s 1 t n := by
  have hread : (Runs.exec fileStep (rootfsInit 0x20010000 0x20020000)
      (tenBytes ++ [.lseek 1 0 seekSet])).map (fun s =>
        (decide (s.IsRegFile 1), s.pos 1, (s.inodes 1).iSize)) = some (true, 0, 10) := by
    decide +kernel
  obtain ⟨s, hrun, hread⟩ := Option.map_eq_some_iff.mp hread
  simp only [Prod.mk.injEq, decide_eq_true_eq] at hread
  obtain ⟨hfile, hpos, hsize⟩ := hread
  have hs := filed_of_run (by decide) (by decide) (by decide +kernel) hrun
  obtain ⟨t, hwrite, hgrown, -⟩ := hs.write_spec hfile [2#8]
  refine ⟨s, t, _, hrun, hfile, by omega, hwrite, fun hcounts => ?_⟩
  have hsame := hcounts.iSize
  rw [hgrown, hsize, hpos, List.length_singleton] at hsame
  omega

end Rootfs

end Tenok
