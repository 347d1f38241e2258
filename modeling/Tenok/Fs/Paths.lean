import Tenok.Fs.FileBlocks
import Tenok.Kernel.Descriptors

/-!
Paths. `fs_create_file`, `fs_open_file` and `fs_open_directory` walk along a path entry by entry,
from the root directory on. They share `fs_split_path`, which answers NULL at the end of the path.
-/
namespace Tenok

def slash : Byte := 47#8

/-- The first entry and the rest of the path, which is `none` for NULL. At the end of the string
there is nothing to split: the call would read what is behind it. -/
def fsSplitPath : List Byte → Option (List Byte × Option (List Byte))
  | [] => none
  | c :: path =>
      if c = slash then some ([], if path = [] then none else some path)
      else if path = [] then some ([c], none)
      else (fsSplitPath path).map fun split => (c :: split.1, split.2)

/-- What is left of a walk along a path: the answer, where `none` is -1 or NULL, and the modes of
the inodes in which entries were searched. -/
structure Walk where
  rootfs : Rootfs
  result : Option Nat
  searched : List Nat

/-- A loop along a path: what it answers if only slashes are left, and what it does with an entry
that is not empty, which may be the last one. -/
structure PathLoop where
  atEnd : Rootfs → Nat → Option Walk
  visit : (Rootfs → Nat → Option Walk) → Rootfs → Nat → List Byte → Bool → Option Walk

namespace PathLoop

/-- The passes of the loop, at most as many as are given. A path at NULL is not there to split. -/
def run (loop : PathLoop) : Nat → Rootfs → Nat → Option (List Byte) → Option Walk
  | 0, _, _, _ => none
  | n + 1, s, inodeCurr, path => do
      let (entry, path) ← fsSplitPath (← path)
      if entry = [] then
        if path.isNone then loop.atEnd s inodeCurr else loop.run n s inodeCurr path
      else do
        let walk ← loop.visit (fun s inode => loop.run n s inode path) s inodeCurr entry path.isNone
        some { walk with searched := (s.inodes inodeCurr).iMode :: walk.searched }

end PathLoop

namespace Rootfs

/-- `fs_sync_file`. Without memory the new file would be written to at NULL. -/
def fsSyncFile (s : Rootfs) (ino : Nat) (memory : Bool) : Option Rootfs :=
  let inode := s.inodes ino
  if inode.iRdev = rdevRootfs then some s
  else if inode.iMode ≠ sIfreg then some s
  else if inode.iSync then some s
  else if fileMax ≤ s.fileCnt then some s
  else if memory then
    let fd := s.fileCnt + fileReservedNum
    some { s.setInode ino fun n => { n with iFd := fd, iSync := true } with
      fileCnt := s.fileCnt + 1
      files := Function.update s.files fd (some (.regFile ino))
      pos := Function.update s.pos ino 0 }
  else none

/-- The loop of `fs_create_file`, which does not look at the mode of what it comes through. -/
def createLoop (passes fileType : Nat) (memory : Bool) : PathLoop where
  atEnd s _ := some ⟨s, none, []⟩
  visit next s inodeCurr entry last := do
    let (s, inode) ← s.fsSearchFile passes inodeCurr entry
    if last then
      if inode.isSome then some ⟨s, none, []⟩
      else do
        let (s, inode) ← s.fsAddFile inodeCurr (entry.take (nameMax - 1)) fileType memory
        some ⟨s, inode.map fun i => (s.inodes i).iFd, []⟩
    else
      match inode with
      | some inode => next s inode
      | none => do
          let (s, inode) ← s.fsAddFile inodeCurr entry sIfdir memory
          match inode with
          | none => some ⟨s, none, []⟩
          | some inode => next s inode

def fsCreateFile (passes : Nat) (s : Rootfs) (pathname : List Byte) (fileType : Nat)
    (memory : Bool) : Option Walk :=
  if pathname.head? ≠ some slash then some ⟨s, none, []⟩
  else do
    let (_, path) ← fsSplitPath pathname
    (createLoop passes fileType memory).run pathname.length s 0 path

/-- `fs_open_file` synchronizes what it has found on a storage. -/
def syncOpened (s : Rootfs) (inode : Nat) (memory : Bool) : Option Rootfs :=
  if (s.inodes inode).iRdev ≠ rdevRootfs ∧ (s.inodes inode).iSync = false then
    s.fsSyncFile inode memory
  else some s

def openLoop (passes : Nat) (pathname : List Byte) (memory : Bool) : PathLoop where
  atEnd s _ := some ⟨s, none, []⟩
  visit next s inodeCurr entry last := do
    let (s, inode) ← s.fsSearchFile passes inodeCurr entry
    match inode with
    | none => some ⟨s, none, []⟩
    | some inode =>
        if last then
          if pathname.getLast? = some slash then some ⟨s, none, []⟩
          else do
            let s ← s.syncOpened inode memory
            if (s.inodes inode).iMode = sIfdir then some ⟨s, none, []⟩
            else some ⟨s, some (s.inodes inode).iFd, []⟩
        else if (s.inodes inode).iMode ≠ sIfdir then some ⟨s, none, []⟩
        else next s inode

def fsOpenFile (passes : Nat) (s : Rootfs) (pathname : List Byte) (memory : Bool) : Option Walk :=
  if pathname.head? ≠ some slash then some ⟨s, none, []⟩
  else do
    let (_, path) ← fsSplitPath pathname
    (openLoop passes pathname memory).run pathname.length s 0 path

def endDirectory (passes : Nat) (s : Rootfs) (inodeCurr : Nat) : Option Walk :=
  (if (s.inodes inodeCurr).iSync then some s else s.syncDirectory passes inodeCurr).map fun s =>
    ⟨s, some inodeCurr, []⟩

def directoryLoop (passes : Nat) : PathLoop where
  atEnd := endDirectory passes
  visit next s inodeCurr entry last := do
    let (s, inode) ← s.fsSearchFile passes inodeCurr entry
    match inode with
    | none => some ⟨s, none, []⟩
    | some inode =>
        if (s.inodes inode).iMode ≠ sIfdir then some ⟨s, none, []⟩
        else if last then s.endDirectory passes inode
        else next s inode

def fsOpenDirectory (passes : Nat) (s : Rootfs) (pathname : List Byte) : Option Walk :=
  if pathname.head? ≠ some slash then some ⟨s, none, []⟩
  else do
    let (_, path) ← fsSplitPath pathname
    if path.isNone then some ⟨s, some 0, []⟩
    else (directoryLoop passes).run pathname.length s 0 path

/-- `fs_mount` of the storage that the file at `source` reads. -/
def fsMount (passes : Nat) (s : Rootfs) (storage : Storage) (source target : List Byte)
    (memory : Bool) : Option Rootfs := do
  let device ← s.fsOpenFile passes source memory
  match device.result with
  | none => some device.rootfs
  | some sourceFd => do
      let directory ← device.rootfs.fsOpenDirectory passes target
      match directory.result with
      | none => some directory.rootfs
      | some targetInode => do
          let s := directory.rootfs
          if s.files sourceFd = none ∨ mountMax < s.mountCnt then none
          else do
            let inodeRoot ← storage.inode 0
            let s := { s with storages := Function.update s.storages s.mountCnt storage }
            let s ← s.fsMountDirectory passes s.mountCnt inodeRoot targetInode
            some { s with mountCnt := s.mountCnt + 1 }

end Rootfs

/-- The requests to the file system that change it, with bounds for the loops that load
directories. -/
inductive RootfsCall
  | createFile (passes : Nat) (pathname : List Byte) (fileType : Nat) (memory : Bool)
  | openFile (passes : Nat) (pathname : List Byte) (memory : Bool)
  | openDirectory (passes : Nat) (pathname : List Byte)
  | mount (passes : Nat) (storage : Storage) (source target : List Byte) (memory : Bool)
  | appendBlock (ino : Nat)

namespace Rootfs

/-- `none` if the call does not end or accesses what is not there. -/
def call (s : Rootfs) : RootfsCall → Option Rootfs
  | .createFile passes pathname fileType memory =>
      (s.fsCreateFile passes pathname fileType memory).map Walk.rootfs
  | .openFile passes pathname memory => (s.fsOpenFile passes pathname memory).map Walk.rootfs
  | .openDirectory passes pathname => (s.fsOpenDirectory passes pathname).map Walk.rootfs
  | .mount passes storage source target memory => s.fsMount passes storage source target memory
  | .appendBlock ino =>
      if s.IsRegFile ino then (s.fsFileAppendBlock ino).map Prod.fst else none

end Rootfs

/-- The entries of a path, one for each pass of a loop along it. -/
def entries : List Byte → List (List Byte)
  | [] => []
  | c :: path =>
      if c = slash then [] :: entries path
      else (c :: (entries path).headD []) :: (entries path).tail

def PathLoop.along (loop : PathLoop) : List (List Byte) → Rootfs → Nat → Option Walk
  | [], _, _ => none
  | entry :: es, s, inodeCurr =>
      if entry = [] then
        if es = [] then loop.atEnd s inodeCurr else loop.along es s inodeCurr
      else do
        let walk ← loop.visit (fun s inode => loop.along es s inode) s inodeCurr entry (es = [])
        some { walk with searched := (s.inodes inodeCurr).iMode :: walk.searched }

theorem entries_eq_nil {path : List Byte} : entries path = [] ↔ path = [] := by
  cases path with
  | nil => exact iff_of_true rfl rfl
  | cons c path =>
      refine iff_of_false ?_ (List.cons_ne_nil c path)
      rw [entries]
      split <;> exact List.cons_ne_nil _ _

theorem fsSplitPath_spec {path : List Byte} (h : path ≠ []) :
    ∃ entry rest, fsSplitPath path = some (entry, rest) ∧
      entries path = entry :: entries (rest.getD []) ∧
      ∀ r ∈ rest, r ≠ [] ∧ r.length < path.length := by
  induction path with
  | nil => exact absurd rfl h
  | cons c path ih =>
      rw [fsSplitPath, entries]
      by_cases hpath : path = []
      · subst hpath
        by_cases hc : c = slash
        · exact ⟨[], none, by simp [hc], by simp [hc, entries], by simp⟩
        · exact ⟨[c], none, by simp [hc], by simp [hc, entries], by simp⟩
      · by_cases hc : c = slash
        · exact ⟨[], some path, by simp [hc, hpath], by simp [hc], by simp [hpath]⟩
        · obtain ⟨entry, rest, hsplit, hentries, hrest⟩ := ih hpath
          refine ⟨c :: entry, rest, by simp [hc, hpath, hsplit], ?_, fun r hr => ?_⟩
          · rw [if_neg hc, hentries, List.headD_cons, List.tail_cons]
          · obtain ⟨hne, hlt⟩ := hrest r hr
            exact ⟨hne, hlt.trans (Nat.lt_succ_self _)⟩

theorem PathLoop.run_eq_along (loop : PathLoop) {n : Nat} {path : List Byte} (hpath : path ≠ [])
    (hn : path.length ≤ n) (s : Rootfs) (inodeCurr : Nat) :
    loop.run n s inodeCurr (some path) = loop.along (entries path) s inodeCurr := by
  induction n generalizing path s inodeCurr with
  | zero => exact absurd (List.length_eq_zero_iff.mp (Nat.le_zero.mp hn)) hpath
  | succ n ih =>
      obtain ⟨entry, rest, hsplit, hentries, hrest⟩ := fsSplitPath_spec hpath
      have hnext : ∀ s inode, loop.run n s inode rest = loop.along (entries (rest.getD [])) s inode := by
        intro s inode
        cases hr : rest with
        | none => cases n <;> rfl
        | some r =>
            obtain ⟨hne, hlt⟩ := hrest r hr
            exact ih hne (by omega) s inode
      have hlast : rest.isNone = decide (entries (rest.getD []) = []) := by
        cases hr : rest with
        | none => rfl
        | some r => simp [entries_eq_nil, (hrest r hr).1]
      rw [PathLoop.run, hentries, PathLoop.along]
      simp only [Option.bind_eq_bind, Option.bind_some, hsplit, hnext, hlast, decide_eq_true_eq]

end Tenok
