import Tenok.Fs.FileContents

/-!
What is written to files is read from them again: the writes may be cut into calls in any way and
go to several files in turn, and so may the reads.
-/
namespace Tenok
open Chunks

namespace Rootfs

def writeStep (s : Rootfs) (w : Nat × List Byte) : Option Rootfs :=
  (s.regFileWrite w.1 w.2).map Prod.fst

def HasRoom (s : Rootfs) (w : Nat × List Byte) : Prop :=
  w.2.length ≤ s.room (s.inodes w.1).iBlocks (s.pos w.1)

instance decidableHasRoom (s : Rootfs) (w : Nat × List Byte) : Decidable (s.HasRoom w) :=
  inferInstanceAs (Decidable (_ ≤ _))

def writtenTo (ino : Nat) (writes : List (Nat × List Byte)) : List Byte :=
  ((writes.filter fun w => w.1 = ino).map Prod.snd).flatten

def readCalls (s : Rootfs) (ino : Nat) : List Nat → List FileRead
  | [] => []
  | size :: sizes =>
      let r := s.regFileRead ino size
      r.2 :: r.1.readCalls ino sizes

/-- A file has been written from its start on, up to the position that it has now. -/
structure HasWritten (s : Rootfs) (ino : Nat) (data : List Byte) : Prop where
  pos : s.pos ino = data.length
  content : ∀ bs, Chain s ino bs → data.length ≤ blkFreeSize * bs.length ∧
    (s.content bs).take data.length = data

variable {s t u : Rootfs} {i ino n : Nat} {bs cs : List Nat} {buf data : List Byte}
  {writes : List (Nat × List Byte)}

theorem Chain.unique (h : Chain s ino bs) (h' : Chain s ino cs) : bs = cs := by
  have hmap := h.fileBlocks.symm.trans h'.fileBlocks
  exact List.map_injective_iff.mpr blkAddr_injective hmap

theorem hasWritten_nil (hpos : s.pos ino = 0) : HasWritten s ino [] :=
  ⟨hpos, fun _ _ => ⟨Nat.zero_le _, rfl⟩⟩

theorem Filed.writeStep (h : Filed s) (hi : s.IsRegFile i) (hroom : s.HasRoom (i, buf)) :
    ∃ t, s.writeStep (i, buf) = some t ∧ Filed t ∧ (∀ j, s.IsRegFile j → t.IsRegFile j) ∧
      ∀ j data, s.IsRegFile j → HasWritten s j data →
        HasWritten t j (if i = j then data ++ buf else data) := by
  obtain ⟨own, hlaid, hchains⟩ := h.chains
  obtain ⟨v, u, bs', hrun, hwrites, hv⟩ := (hchains i hi).regFileWrite h.blocksOk buf
  have hall : min buf.length (s.room (own i).length (s.pos i)) = buf.length := by
    rw [← (hchains i hi).blocks]
    exact Nat.min_eq_left hroom
  rw [hall] at hrun hwrites hv
  rw [List.take_length] at hwrites
  have hset : ∀ {j cs}, Chain u j cs → Chain v j cs := fun hc => by
    rw [hv]
    exact hc.setSize (fun n => (n + buf.length) % 2 ^ 32) _
  have hcontent : ∀ cs, v.content cs = u.content cs := fun cs => by
    rw [hv]
    rfl
  have hothers : ∀ j, s.IsRegFile j → j ≠ i → Chain u j (own j) ∧ u.content (own j) =
      s.content (own j) := fun j hj hne =>
    hwrites.wrote.other hne (hchains j hj) fun k hk hold => hne (hlaid.blocks.apart j i k hk hold)
  refine ⟨v, by rw [Rootfs.writeStep, hrun, Option.map_some], h.regFileWrite hrun ⟨hi.1, hi.2.1⟩,
    fun j hj => ?_, fun j data hj hdata => ?_⟩
  · by_cases hne : j = i
    · rw [hne]
      exact (hset hwrites.chain).file
    · exact (hset (hothers j hj hne).1).file
  · by_cases hne : i = j
    · subst hne
      rw [if_pos rfl]
      obtain ⟨hlen, hold⟩ := hdata.content _ (hchains i hi)
      obtain ⟨hlen', hnew⟩ := hwrites.content (hdata.pos ▸ hlen)
      rw [hdata.pos, hold] at hnew
      rw [hdata.pos] at hlen'
      refine ⟨?_, fun cs hc => ?_⟩
      · rw [hv, List.length_append, ← hdata.pos]
        exact Function.update_self ..
      · rw [hc.unique (hset hwrites.chain), hcontent, List.length_append]
        exact ⟨hlen', hnew⟩
    · rw [if_neg hne]
      obtain ⟨hc', hsame⟩ := hothers j hj (Ne.symm hne)
      refine ⟨?_, fun cs hc => ?_⟩
      · rw [hv, ← hdata.pos]
        exact Function.update_of_ne (Ne.symm hne) ..
      · rw [hc.unique (hset hc'), hcontent, hsame]
        exact hdata.content _ (hchains j hj)

theorem writtenTo_cons (i : Nat) (buf : List Byte) : writtenTo ino ((i, buf) :: writes) =
    (if i = ino then buf else []) ++ writtenTo ino writes := by
  rw [writtenTo, List.filter_cons]
  by_cases hi : i = ino
  · simp [hi, writtenTo]
  · simp [hi, writtenTo]

theorem Filed.writeAll (h : Filed s) (hfiles : ∀ w ∈ writes, s.IsRegFile w.1)
    (hroom : Runs.AllOk HasRoom Rootfs.writeStep s writes) :
    ∃ t, Runs.exec Rootfs.writeStep s writes = some t ∧ Filed t ∧
      (∀ j, s.IsRegFile j → t.IsRegFile j) ∧
      ∀ j data, s.IsRegFile j → HasWritten s j data → HasWritten t j (data ++ writtenTo j writes) := by
  induction writes generalizing s with
  | nil =>
      refine ⟨s, rfl, h, fun _ hj => hj, fun j data _ hdata => ?_⟩
      rw [writtenTo, List.filter_nil, List.map_nil, List.flatten_nil, List.append_nil]
      exact hdata
  | cons w writes ih =>
      obtain ⟨i, buf⟩ := w
      obtain ⟨u, hstep, hu, hkept, hwritten⟩ :=
        h.writeStep (hfiles (i, buf) List.mem_cons_self) hroom.1
      obtain ⟨t, hrest, ht, hkept', hwritten'⟩ := ih hu
        (fun w hw => hkept w.1 (hfiles w (List.mem_cons_of_mem _ hw))) (hroom.2 u hstep)
      refine ⟨t, by rw [Runs.exec, hstep, Option.bind_some, hrest], ht,
        fun j hj => hkept' j (hkept j hj), fun j data hj hdata => ?_⟩
      have hfinal := hwritten' j _ (hkept j hj) (hwritten j data hj hdata)
      rw [writtenTo_cons, ← List.append_assoc]
      by_cases hij : i = j
      · rw [if_pos hij] at hfinal ⊢
        exact hfinal
      · rw [if_neg hij] at hfinal ⊢
        rw [List.append_nil]
        exact hfinal

theorem Chain.readCalls (h : Chain s ino bs) (hs : BlocksOk s) (sizes : List Nat)
    (hend : s.pos ino + sizes.sum ≤ blkFreeSize * bs.length) :
    ((s.readCalls ino sizes).map FileRead.data).flatten =
        ((s.content bs).drop (s.pos ino)).take sizes.sum ∧
      (s.readCalls ino sizes).map FileRead.retval = sizes := by
  induction sizes generalizing s with
  | nil => simp [Rootfs.readCalls]
  | cons size sizes ih =>
      rw [List.sum_cons] at hend ⊢
      have hinside : s.pos ino + size ≤ blkFreeSize * (bs.map s.blkAddr).length := by
        rw [List.length_map]
        omega
      obtain ⟨hdata, hretval, hpos, -⟩ :=
        (h.stored hs).readLoop_inside (Nat.le_refl size) hinside
      have hread : (s.regFileRead ino size).2 = readLoop (s.driverRead rdevRootfs)
          (s.inodes ino).iData size (s.pos ino) size := by
        rw [regFileRead, h.file.2.2]
      have hnext : (s.regFileRead ino size).1.pos ino = s.pos ino + size := by
        rw [← hpos, ← hread]
        exact Function.update_self ..
      have hrest : (s.regFileRead ino size).1.pos ino + sizes.sum ≤ blkFreeSize * bs.length := by
        rw [hnext]
        omega
      have hchain : Chain (s.regFileRead ino size).1 ino bs :=
        ⟨h.file, h.used, h.nodup, h.blocks, h.linked⟩
      obtain ⟨hdata', hretval'⟩ := ih hchain ⟨hs.null, hs.fits, hs.counted⟩ hrest
      rw [hnext] at hdata'
      rw [Rootfs.readCalls]
      simp only [List.map_cons, List.flatten_cons, hread, hretval]
      refine ⟨?_, congrArg _ hretval'⟩
      rw [hdata', hdata, ← List.drop_drop]
      exact List.take_add.symm

theorem regFileLseek_start (hsize : (s.inodes ino).iSize ≠ 0) :
    s.regFileLseek ino 0 seekSet = ({ s with pos := Function.update s.pos ino 0 }, 0) := by
  rw [regFileLseek_eq (by decide)]
  exact if_pos (Nat.pos_of_ne_zero hsize)

theorem Filed.read_other {j : Nat} (h : Filed s) (hi : s.IsRegFile i) (hj : s.IsRegFile j)
    (hne : i ≠ j) (hlow : ∀ o < fsBlkSize, rootfsMemCheck s.sInoAddr s.sBlkAddr o = false)
    (hwrite : s.regFileWrite i buf = some (t, n)) (size : Nat) :
    (t.regFileRead j size).2 = (s.regFileRead j size).2 := by
  obtain ⟨own, hlaid, hchains⟩ := h.chains
  obtain ⟨v, u, bs', hrun, hwrites, hv⟩ := (hchains i hi).regFileWrite h.blocksOk buf
  obtain ⟨rfl, -⟩ := Prod.mk.inj (Option.some.inj (hrun.symm.trans hwrite))
  obtain ⟨hc, hsame⟩ := hwrites.wrote.other hne.symm (hchains j hj) fun k hk hold =>
    hne (hlaid.blocks.apart i j k hold hk)
  obtain ⟨iData, hinodes⟩ := hwrites.wrote.inode
  have hinode : v.inodes j = s.inodes j := by
    rw [hv]
    simp only [setInode, hinodes, Function.update_of_ne hne.symm]
  have hpos : v.pos j = s.pos j := by
    rw [hv]
    exact Function.update_of_ne hne.symm ..
  have haddrs : v.sInoAddr = s.sInoAddr ∧ v.sBlkAddr = s.sBlkAddr ∧ v.blkAddr = s.blkAddr := by
    rw [hv, ← hwrites.wrote.blkAddr, hwrites.wrote.rest]
    exact ⟨rfl, rfl, rfl⟩
  have hcontent : v.content (own j) = s.content (own j) := by
    rw [← hsame, hv]
    rfl
  have hc' : Chain v j (own j) := by
    rw [hv]
    exact hc.setSize (fun n => (n + buf.length) % 2 ^ 32) _
  have hstored := hc'.stored (h.regFileWrite hwrite ⟨hi.1, hi.2.1⟩).blocksOk
  rw [hinode, haddrs.2.2] at hstored
  rw [content, haddrs.2.2] at hcontent
  rw [regFileRead, regFileRead, hinode, hpos, hj.2.2]
  refine ((hchains j hj).stored h.blocksOk).readLoop_congr hstored hcontent fun o n ho => ?_
  simp only [driverRead, if_true, rootfsRead, rootfsAccess, haddrs.1, haddrs.2.1, hlow o ho,
    Bool.false_eq_true, if_false, Option.map_none, and_self]

/-- In every state: what files are given from their start on, in any calls, is read from their
start on, in any calls. No file sees what is written to another, and none shares a block. -/
theorem writes_readBack {sInoAddr sBlkAddr : Nat} {events : List FileEvent} (hnull : 0 < sBlkAddr)
    (hend : sBlkAddr + fsBlkSize * fsBlkCnt ≤ 2 ^ 32)
    (hok : Runs.AllOk CallOk fileStep (rootfsInit sInoAddr sBlkAddr) events)
    (hrun : Runs.exec fileStep (rootfsInit sInoAddr sBlkAddr) events = some s)
    (hlow : ∀ o < fsBlkSize, rootfsMemCheck s.sInoAddr s.sBlkAddr o = false) :
    (∀ writes, (∀ w ∈ writes, s.IsRegFile w.1 ∧ s.pos w.1 = 0) →
      Runs.AllOk HasRoom writeStep s writes →
      ∃ t, Runs.exec writeStep s writes = some t ∧
        ∀ w ∈ writes, (t.inodes w.1).iSize ≠ 0 →
        ∀ sizes : List Nat, sizes.sum ≤ (writtenTo w.1 writes).length →
          (t.regFileLseek w.1 0 seekSet).2 = 0 ∧
          (((t.regFileLseek w.1 0 seekSet).1.readCalls w.1 sizes).map FileRead.data).flatten =
            (writtenTo w.1 writes).take sizes.sum ∧
          ((t.regFileLseek w.1 0 seekSet).1.readCalls w.1 sizes).map FileRead.retval = sizes) ∧
    (∀ i j buf t n size, s.IsRegFile i → s.IsRegFile j → i ≠ j →
      s.regFileWrite i buf = some (t, n) →
      (t.regFileRead j size).2 = (s.regFileRead j size).2) ∧
    ∀ i j, s.IsRegFile i → s.IsRegFile j → i ≠ j →
      List.Disjoint (s.fileBlocks i) (s.fileBlocks j) := by
  have hs := filed_of_run hnull hend hok hrun
  refine ⟨fun writes hfiles hroom => ?_, fun i j buf t n size hi hj hne hwrite =>
    hs.read_other hi hj hne hlow hwrite size, fun i j hi hj hne a hai haj => ?_⟩
  · obtain ⟨t, hexec, ht, hkept, hwritten⟩ := hs.writeAll (fun w hw => (hfiles w hw).1) hroom
    refine ⟨t, hexec, fun w hw hsize sizes hsum => ?_⟩
    obtain ⟨hfile, hpos⟩ := hfiles w hw
    obtain ⟨own, -, hchains⟩ := ht.chains
    have hchain := hchains w.1 (hkept w.1 hfile)
    obtain ⟨hlen, htake⟩ := (hwritten w.1 [] hfile (hasWritten_nil hpos)).content _ hchain
    rw [List.nil_append] at hlen htake
    rw [regFileLseek_start hsize]
    have hstart : Function.update t.pos w.1 0 w.1 = 0 := Function.update_self ..
    have hchain' : Chain { t with pos := Function.update t.pos w.1 0 } w.1 (own w.1) :=
      ⟨hchain.file, hchain.used, hchain.nodup, hchain.blocks, hchain.linked⟩
    obtain ⟨hdata, hretval⟩ := hchain'.readCalls
      ⟨ht.blocksOk.null, ht.blocksOk.fits, ht.blocksOk.counted⟩ sizes (by
        simp only [hstart]
        omega)
    refine ⟨rfl, ?_, hretval⟩
    rw [hdata]
    simp only [hstart, List.drop_zero]
    rw [← htake, List.take_take, Nat.min_eq_left hsum]
    rfl
  · obtain ⟨own, hlaid, hchains⟩ := hs.chains
    rw [(hchains i hi).fileBlocks] at hai
    rw [(hchains j hj).fileBlocks] at haj
    obtain ⟨k, hk, rfl⟩ := List.mem_map.mp hai
    obtain ⟨k', hk', heq⟩ := List.mem_map.mp haj
    obtain rfl := blkAddr_injective heq
    exact hne (hlaid.blocks.apart i j _ hk hk')

def twoFiles : List FileEvent :=
  [.call (.addFile 0 [97#8] sIfreg true), .call (.addFile 0 [98#8] sIfreg true)]

/-- They are written in turn, the first one over the end of a block. -/
def twoWrites : List (Nat × List Byte) :=
  [(1, List.replicate 119 1#8), (2, [5#8, 6#8]), (1, [2#8, 3#8])]

theorem twoFiles_readBack : ∃ s t,
    Runs.exec fileStep (rootfsInit 0x20010000 0x20020000) twoFiles = some s ∧
      Runs.exec writeStep s twoWrites = some t ∧
      (((t.regFileLseek 1 0 seekSet).1.readCalls 1 [118, 3]).map FileRead.data).flatten =
        List.replicate 119 1#8 ++ [2#8, 3#8] := by
  have hread : (Runs.exec fileStep (rootfsInit 0x20010000 0x20020000) twoFiles).map (fun s =>
      (decide (∀ w ∈ twoWrites, s.IsRegFile w.1 ∧ s.pos w.1 = 0),
        decide (Runs.AllOk HasRoom writeStep s twoWrites), s.sInoAddr, s.sBlkAddr,
        (Runs.exec writeStep s twoWrites).map fun t => (t.inodes 1).iSize)) =
      some (true, true, 0x20010000, 0x20020000, some 121) := by decide +kernel
  obtain ⟨s, hrun, hread⟩ := Option.map_eq_some_iff.mp hread
  simp only [Prod.mk.injEq, decide_eq_true_eq] at hread
  obtain ⟨hfiles, hroom, hino, hblk, hsize⟩ := hread
  have hlow : ∀ o < fsBlkSize, rootfsMemCheck s.sInoAddr s.sBlkAddr o = false := by
    rw [hino, hblk]
    decide
  obtain ⟨t, hexec, hback⟩ := (writes_readBack (by decide) (by decide) (by decide +kernel) hrun
    hlow).1 twoWrites hfiles hroom
  rw [hexec, Option.map_some, Option.some.injEq] at hsize
  obtain ⟨-, hdata, -⟩ := hback (1, List.replicate 119 1#8) List.mem_cons_self
    (by rw [hsize]; decide) [118, 3] (by decide +kernel)
  exact ⟨s, t, hrun, hexec, hdata.trans (by decide +kernel)⟩

end Rootfs

end Tenok
