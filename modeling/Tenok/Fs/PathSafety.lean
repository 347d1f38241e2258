import Tenok.Fs.Walks

/-!
When walks along paths are safe: they end, a path at NULL is not split, entries are only searched
in directories, and a path through another file leaves the file system as it is.
-/
namespace Tenok

/-- What a loop along a path depends on to end: at the end of the path, at the inode of its last
entry, and where there is nothing to find; and what it goes through. -/
structure PathEnds where
  atEnd : Rootfs → Nat → Prop
  last : Rootfs → Nat → Prop
  through : Rootfs → Nat → Prop
  missing : (Rootfs → Nat → Prop) → Rootfs → Nat → List Byte → Bool → Prop

namespace PathEnds

/-- A path without an entry does not end: the loop would split it at NULL. -/
def Along (ends : PathEnds) (passes : Nat) : List (List Byte) → Rootfs → Nat → Prop
  | [], _, _ => False
  | entry :: es, s, curr =>
      if entry = [] then if es = [] then ends.atEnd s curr else ends.Along passes es s curr
      else ∃ t r, s.fsSearchFile passes curr entry = some (t, r) ∧
        (r = none → ends.missing (fun u i => ends.Along passes es u i) t curr entry (es = [])) ∧
        ∀ i ∈ r, if es = [] then ends.last t i else ends.through t i → ends.Along passes es t i

/-- What the visits of the loop depend on. -/
def For (ends : PathEnds) (passes : Nat) (loop : PathLoop) : Prop :=
  (∀ s i, (loop.atEnd s i).isSome ↔ ends.atEnd s i) ∧
  ∀ (next : Rootfs → Nat → Option Walk) (Next : Rootfs → Nat → Prop) (s : Rootfs) (curr : Nat)
    (entry : List Byte) (last : Bool), (∀ t i, (next t i).isSome ↔ Next t i) →
    ((loop.visit next s curr entry last).isSome ↔
      ∃ t r, s.fsSearchFile passes curr entry = some (t, r) ∧
        (r = none → ends.missing Next t curr entry last) ∧
        ∀ i ∈ r, if last then ends.last t i else ends.through t i → Next t i)

theorem For.along {ends : PathEnds} {passes : Nat} {loop : PathLoop} (h : ends.For passes loop)
    (es : List (List Byte)) (s : Rootfs) (curr : Nat) :
    (loop.along es s curr).isSome ↔ ends.Along passes es s curr := by
  induction es generalizing s curr with
  | nil => exact iff_of_false (by simp [PathLoop.along]) id
  | cons entry es ih =>
      rw [PathLoop.along, PathEnds.Along]
      by_cases hentry : entry = []
      · rw [if_pos hentry, if_pos hentry]
        by_cases hes : es = []
        · rw [if_pos hes, if_pos hes]
          exact h.1 s curr
        · rw [if_neg hes, if_neg hes]
          exact ih s curr
      · rw [if_neg hentry, if_neg hentry]
        have hvisit := h.2 (fun t i => loop.along es t i) (fun t i => ends.Along passes es t i) s curr
          entry (es = []) ih
        simp only [decide_eq_true_eq] at hvisit
        rw [← hvisit]
        cases loop.visit (fun t i => loop.along es t i) s curr entry (es = []) <;> rfl

end PathEnds

namespace Rootfs
variable {s s' t : Rootfs} {dir i j passes fileType : Nat} {r : Option Nat} {entry : List Byte}
  {es : List (List Byte)} {w : Walk} {p : List (List Byte) → Prop} {pathname : List Byte}
  {memory : Bool} {loop : PathLoop}

def Loads (passes : Nat) (s : Rootfs) (i : Nat) : Prop :=
  (s.inodes i).iSync = true ∨ (s.syncDirectory passes i).isSome

def createEnds (fileType : Nat) (memory : Bool) : PathEnds where
  atEnd _ _ := True
  last _ _ := True
  through _ _ := True
  missing next s curr entry last :=
    if last then (s.fsAddFile curr (entry.take (nameMax - 1)) fileType memory).isSome = true
    else ∃ t r, s.fsAddFile curr entry sIfdir memory = some (t, r) ∧ ∀ i ∈ r, next t i

/-- What is opened must be possible to synchronize. -/
def openEnds (pathname : List Byte) (memory : Bool) : PathEnds where
  atEnd _ _ := True
  last s i := pathname.getLast? = some slash ∨ (s.syncOpened i memory).isSome
  through s i := (s.inodes i).iMode = sIfdir
  missing _ _ _ _ _ := True

def directoryEnds (passes : Nat) : PathEnds where
  atEnd s i := Loads passes s i
  last s i := (s.inodes i).iMode = sIfdir → Loads passes s i
  through s i := (s.inodes i).iMode = sIfdir
  missing _ _ _ _ _ := True

theorem endDirectory_isSome : (s.endDirectory passes i).isSome ↔ Loads passes s i := by
  rw [endDirectory, Loads, Option.isSome_map]
  split
  · next hsync => exact iff_of_true rfl (Or.inl hsync)
  · next hsync => exact (or_iff_right hsync).symm

theorem bind_isSome_iff {α β : Type} {o : Option α} {f : α → Option β} :
    (o >>= f).isSome ↔ ∃ a, o = some a ∧ (f a).isSome := by
  cases o <;> simp

theorem createEnds_for :
    (createEnds fileType memory).For passes (createLoop passes fileType memory) := by
  refine ⟨fun s i => iff_of_true rfl trivial, fun next Next s curr entry last hnext => ?_⟩
  simp only [createLoop, createEnds, bind_isSome_iff, Prod.exists]
  refine exists_congr fun t => exists_congr fun r => and_congr_right fun _ => ?_
  cases r with
  | some i => cases last <;> simp [hnext]
  | none =>
      cases last with
      | true => cases hadd : t.fsAddFile curr (entry.take (nameMax - 1)) fileType memory <;> simp
      | false =>
          cases hadd : t.fsAddFile curr entry sIfdir memory with
          | none => simp
          | some pair =>
              obtain ⟨u, r⟩ := pair
              cases r <;> simp [hnext]

theorem openEnds_for : (openEnds pathname memory).For passes (openLoop passes pathname memory) := by
  refine ⟨fun s i => iff_of_true rfl trivial, fun next Next s curr entry last hnext => ?_⟩
  simp only [openLoop, openEnds, bind_isSome_iff, Prod.exists]
  refine exists_congr fun t => exists_congr fun r => and_congr_right fun _ => ?_
  cases r with
  | none => simp
  | some i =>
      cases last with
      | false => by_cases hdir : (t.inodes i).iMode = sIfdir <;> simp [hdir, hnext]
      | true =>
          by_cases hslash : pathname.getLast? = some slash
          · simp [hslash]
          · cases hsync : t.syncOpened i memory with
            | none => simp [hslash, hsync]
            | some u =>
                by_cases hdir : (u.inodes i).iMode = sIfdir <;> simp [hslash, hsync, hdir]

theorem directoryEnds_for : (directoryEnds passes).For passes (directoryLoop passes) := by
  refine ⟨fun s i => endDirectory_isSome, fun next Next s curr entry last hnext => ?_⟩
  simp only [directoryLoop, directoryEnds, bind_isSome_iff, Prod.exists]
  refine exists_congr fun t => exists_congr fun r => and_congr_right fun _ => ?_
  cases r with
  | none => simp
  | some i =>
      cases last <;> by_cases hdir : (t.inodes i).iMode = sIfdir <;>
        simp [hdir, hnext, endDirectory_isSome]

/-- Searching an entry does not load the directory. -/
def Settled (s : Rootfs) (dir : Nat) (entry : List Byte) : Prop :=
  (s.inodes dir).iSize = 0 ∨ entry = [46#8] ∨ entry = [46#8, 46#8] ∨ (s.inodes dir).iSync = true

/-- No directory is loaded on the way, as far as it leads through directories. -/
def WayLoaded : List (List Byte) → Rootfs → Nat → Prop
  | [], _, _ => True
  | entry :: es, s, curr =>
      if entry = [] then WayLoaded es s curr
      else s.Settled curr entry ∧
        ∀ i, s.Searches curr entry s (some i) → (s.inodes i).iMode = sIfdir → WayLoaded es s i

theorem fsSearchFile_settled (h : s.fsSearchFile passes dir entry = some (s', r)) :
    (s.Settled dir entry ∧ s' = s) ∨ (¬ s.Settled dir entry ∧ (s.inodes dir).iSync = false ∧
      s.syncDirectory passes dir = some s') := by
  rw [Settled]
  by_cases hempty : (s.inodes dir).iSize = 0
  · rw [fsSearchFile, if_pos hempty] at h
    exact Or.inl ⟨Or.inl hempty, (Prod.mk.inj (Option.some.inj h)).1.symm⟩
  by_cases hdot : entry = [46#8]
  · rw [fsSearchFile, if_neg hempty, if_pos hdot] at h
    exact Or.inl ⟨Or.inr (Or.inl hdot), (Prod.mk.inj (Option.some.inj h)).1.symm⟩
  by_cases hdots : entry = [46#8, 46#8]
  · rw [fsSearchFile, if_neg hempty, if_neg hdot, if_pos hdots] at h
    exact Or.inl ⟨Or.inr (Or.inr (Or.inl hdots)), (Prod.mk.inj (Option.some.inj h)).1.symm⟩
  rw [fsSearchFile, if_neg hempty, if_neg hdot, if_neg hdots] at h
  cases hsync : (s.inodes dir).iSync with
  | true =>
      simp only [hsync, if_true] at h
      obtain ⟨t, ht, hfind⟩ := Option.bind_eq_some_iff.mp h
      obtain rfl := Option.some.inj ht
      obtain ⟨list, -, hpair⟩ := Option.bind_eq_some_iff.mp hfind
      exact Or.inl ⟨by simp, (Prod.mk.inj (Option.some.inj hpair)).1.symm⟩
  | false =>
      simp only [hsync, Bool.false_eq_true, if_false] at h
      obtain ⟨t, hload, hfind⟩ := Option.bind_eq_some_iff.mp h
      obtain ⟨list, -, hpair⟩ := Option.bind_eq_some_iff.mp hfind
      obtain ⟨rfl, -⟩ := Prod.mk.inj (Option.some.inj hpair)
      exact Or.inr ⟨by simp [hempty, hdot, hdots], rfl, hload⟩

/-- The visits search the entry, go through directories, and stop at another file in front of
entries like these. -/
structure Follows (loop : PathLoop) (passes : Nat) (p : List (List Byte) → Prop) : Prop where
  nonempty : ∀ es, p es → es ≠ []
  searches : ∀ {next s curr entry last w}, loop.visit next s curr entry last = some w →
    ∃ t r, s.fsSearchFile passes curr entry = some (t, r)
  through : ∀ {next s curr entry t j}, s.fsSearchFile passes curr entry = some (t, some j) →
    (t.inodes j).iMode = sIfdir → loop.visit next s curr entry false = next t j
  stops : ∀ {es s curr entry t j}, p es →
    s.fsSearchFile passes curr entry = some (t, some j) → (t.inodes j).iMode ≠ sIfdir →
    loop.visit (fun u i => loop.along es u i) s curr entry false = some ⟨t, none, []⟩

/-- A path through another file fails, and leaves everything as it is exactly if no directory is
loaded on the way. -/
theorem Follows.unchanged_iff (hloop : Follows loop passes p) (huse : InUse s)
    (hi : s.bitmapInodes i = true) (h : Meets p es s i) (hw : loop.along es s i = some w) :
    w.result = none ∧ Keeps s w.rootfs ∧ (w.rootfs = s ↔ WayLoaded es s i) := by
  induction es generalizing s i w with
  | nil => exact h.elim
  | cons entry es ih =>
      rw [PathLoop.along] at hw
      rw [Meets] at h
      rw [WayLoaded]
      by_cases hentry : entry = []
      · rw [if_pos hentry] at hw h ⊢
        by_cases hes : es = []
        · rw [hes] at h
          exact h.elim
        · rw [if_neg hes] at hw
          exact ih huse hi h hw
      rw [if_neg hentry] at hw h ⊢
      obtain ⟨w', hvisit, hw'⟩ := Option.bind_eq_some_iff.mp hw
      obtain rfl := Option.some.inj hw'
      obtain ⟨t, j, hfound, hmeets⟩ := h
      obtain ⟨u, r, hsearch⟩ := hloop.searches hvisit
      obtain ⟨rfl, rfl⟩ := Searches.unique hfound ⟨passes, hsearch⟩
      have hes : es ≠ [] := by
        rintro rfl
        split at hmeets
        · exact hmeets
        · exact hloop.nonempty _ hmeets rfl
      rw [decide_eq_false hes] at hvisit
      obtain ⟨hacts, hbit, -⟩ := huse.fsSearchFile hi (False.elim : False → _) hsearch
      obtain ⟨ht, hkeeps⟩ := huse.acts hacts
      -- what is loaded stays so, and it was not loaded before
      have hsettled : ∀ {v : Rootfs}, Keeps t v → v = s → s.Settled i entry ∧ t = s := by
        rintro v hkept rfl
        obtain hsame | ⟨hnot, hsync, hload⟩ := fsSearchFile_settled hsearch
        · exact hsame
        · have hsize : (v.inodes i).iSize ≠ 0 := fun hempty => hnot (Or.inl hempty)
          have hsynced := (huse.fsMountDirectory hi hload).2.2 hsize
          exact absurd (hkept.iSync i (hkeeps.bits i hi) hsynced) (by simp [hsync])
      by_cases hdir : (t.inodes j).iMode = sIfdir
      · rw [if_pos hdir] at hmeets
        rw [hloop.through hsearch hdir] at hvisit
        obtain ⟨hresult, hkeeps', hiff⟩ := ih ht (hbit j rfl) hmeets hvisit
        refine ⟨hresult, hkeeps.trans hkeeps', fun heq => ?_, fun hway => ?_⟩
        · obtain ⟨hset, rfl⟩ := hsettled hkeeps' heq
          refine ⟨hset, fun k hk hdir' => ?_⟩
          obtain ⟨-, hk'⟩ := Searches.unique hk hfound
          obtain rfl := Option.some.inj hk'
          exact hiff.mp heq
        · obtain ⟨hset, hway⟩ := hway
          obtain ⟨-, rfl⟩ | ⟨hnot, -⟩ := fsSearchFile_settled hsearch
          · exact hiff.mpr (hway j hfound hdir)
          · exact absurd hset hnot
      · rw [if_neg hdir] at hmeets
        rw [hloop.stops hmeets hsearch hdir] at hvisit
        obtain rfl := Option.some.inj hvisit
        refine ⟨rfl, hkeeps, fun heq => ?_, fun hset => ?_⟩
        · obtain ⟨hset, rfl⟩ := hsettled (.refl t) heq
          refine ⟨hset, fun k hk hdir' => ?_⟩
          obtain ⟨-, hk'⟩ := Searches.unique hk hfound
          obtain rfl := Option.some.inj hk'
          exact absurd hdir' hdir
        · obtain ⟨-, hsame⟩ | ⟨hnot, -⟩ := fsSearchFile_settled hsearch
          · exact hsame
          · exact absurd hset.1 hnot

theorem along_of_not_named (hes : es ≠ []) (h : ¬ Named es) :
    loop.along es s i = loop.atEnd s i := by
  induction es with
  | nil => exact absurd rfl hes
  | cons entry es ih =>
      have hentry : entry = [] := by
        by_contra hne
        exact h ⟨entry, List.mem_cons_self, hne⟩
      rw [PathLoop.along, if_pos hentry]
      split
      · rfl
      · next hes =>
          refine ih hes fun hnamed => h ?_
          obtain ⟨name, hname, hne⟩ := hnamed
          exact ⟨name, List.mem_cons_of_mem entry hname, hne⟩

theorem searched_of_named (h : Named es) (hw : loop.along es s i = some w) :
    (s.inodes i).iMode ∈ w.searched := by
  induction es with
  | nil =>
      obtain ⟨entry, hentry, -⟩ := h
      exact absurd hentry List.not_mem_nil
  | cons entry es ih =>
      rw [PathLoop.along] at hw
      split at hw
      · next hentry =>
          have hes : Named es := by
            obtain ⟨name, hname, hne⟩ := h
            obtain rfl | hname := List.mem_cons.mp hname
            · exact absurd hentry hne
            · exact ⟨name, hname, hne⟩
          have hne : es ≠ [] := by
            rintro rfl
            obtain ⟨name, hname, -⟩ := hes
            exact absurd hname List.not_mem_nil
          rw [if_neg hne] at hw
          exact ih hes hw
      · obtain ⟨w', -, hw'⟩ := Option.bind_eq_some_iff.mp hw
        obtain rfl := Option.some.inj hw'
        exact List.mem_cons_self

theorem openLoop_follows : Follows (openLoop passes pathname memory) passes (· ≠ []) where
  nonempty _ h := h
  searches h := by
    obtain ⟨⟨t, r⟩, hsearch, -⟩ := Option.bind_eq_some_iff.mp h
    exact ⟨t, r, hsearch⟩
  through hsearch hdir := by simp [openLoop, hsearch, hdir]
  stops _ hsearch hdir := by simp [openLoop, hsearch, hdir]

theorem directoryLoop_follows : Follows (directoryLoop passes) passes (· ≠ []) where
  nonempty _ h := h
  searches h := by
    obtain ⟨⟨t, r⟩, hsearch, -⟩ := Option.bind_eq_some_iff.mp h
    exact ⟨t, r, hsearch⟩
  through hsearch hdir := by simp [directoryLoop, hsearch, hdir]
  stops _ hsearch hdir := by simp [directoryLoop, hsearch, hdir]

theorem createLoop_follows : Follows (createLoop passes fileType memory) passes
    (fun es => es ≠ [] ∧ ¬ Named es) where
  nonempty _ h := h.1
  searches h := by
    obtain ⟨⟨t, r⟩, hsearch, -⟩ := Option.bind_eq_some_iff.mp h
    exact ⟨t, r, hsearch⟩
  through hsearch _ := by simp [createLoop, hsearch]
  stops := by
    intro es s curr entry t j hes hsearch _
    have hend : (createLoop passes fileType memory).along es t j = some ⟨t, none, []⟩ :=
      along_of_not_named hes.1 hes.2
    have hnext : (createLoop passes fileType memory).visit
        (fun u i => (createLoop passes fileType memory).along es u i) s curr entry false =
          (createLoop passes fileType memory).along es t j := by
      simp [createLoop, hsearch]
    rw [hnext, hend]

theorem createLoop_leaves (h : Meets Named es s i)
    (hw : (createLoop passes fileType memory).along es s i = some w) : ¬ w.InDirs := by
  induction es generalizing s i w with
  | nil => exact h.elim
  | cons entry es ih =>
      rw [PathLoop.along] at hw
      rw [Meets] at h
      by_cases hentry : entry = []
      · rw [if_pos hentry] at hw h
        by_cases hes : es = []
        · rw [hes] at h
          exact h.elim
        · rw [if_neg hes] at hw
          exact ih h hw
      rw [if_neg hentry] at hw h
      obtain ⟨w', hvisit, hw'⟩ := Option.bind_eq_some_iff.mp hw
      obtain rfl := Option.some.inj hw'
      obtain ⟨t, j, hfound, hmeets⟩ := h
      obtain ⟨u, r, hsearch⟩ := createLoop_follows.searches hvisit
      obtain ⟨rfl, rfl⟩ := Searches.unique hfound ⟨passes, hsearch⟩
      have hes : es ≠ [] := by
        rintro rfl
        split at hmeets
        · exact hmeets
        · obtain ⟨name, hname, -⟩ := hmeets
          exact absurd hname List.not_mem_nil
      have hnext : (createLoop passes fileType memory).along es t j = some w' := by
        rw [decide_eq_false hes] at hvisit
        simpa [createLoop, hsearch] using hvisit
      intro hdirs
      have hdirs' : w'.InDirs := fun m hm => hdirs m (List.mem_cons_of_mem _ hm)
      split at hmeets
      · exact ih hmeets hnext hdirs'
      · next hdir => exact hdir (hdirs' _ (searched_of_named hmeets hnext))

/-- A path that meets another file and no name behind one meets it in front of slashes. -/
theorem Meets.unnamed (h : Meets (· ≠ []) es s i) (hnot : ¬ Meets Named es s i) :
    Meets (fun es => es ≠ [] ∧ ¬ Named es) es s i := by
  induction es generalizing s i with
  | nil => exact h
  | cons entry es ih =>
      rw [Meets] at h hnot ⊢
      split
      · next hentry =>
          rw [if_pos hentry] at h hnot
          exact ih h hnot
      · next hentry =>
          rw [if_neg hentry] at h hnot
          obtain ⟨t, j, hfound, hmeets⟩ := h
          refine ⟨t, j, hfound, ?_⟩
          have hnot' := fun hmeets => hnot ⟨t, j, hfound, hmeets⟩
          by_cases hdir : (t.inodes j).iMode = sIfdir
          · rw [if_pos hdir] at hmeets hnot' ⊢
            exact ih hmeets hnot'
          · rw [if_neg hdir] at hmeets hnot' ⊢
            exact ⟨hmeets, hnot'⟩

/-- The entry of a path that is not the last one is not a directory. -/
def MeetsAny (s : Rootfs) (pathname : List Byte) : Prop :=
  pathname.head? = some slash ∧ Meets (· ≠ []) (entries pathname.tail) s 0

/-- A walk along the path ends and searches in directories only. If the path goes through another
file, it fails and leaves the file system as it is. -/
def Safe (s : Rootfs) (pathname : List Byte) (walk : Nat → Option Walk) : Prop :=
  ∃ passes w, walk passes = some w ∧ w.InDirs ∧
    (s.MeetsAny pathname → w.result = none ∧ w.rootfs = s)

/-- The path is not only a slash, and the searches and additions on the way end. It goes through
no other file in front of a name, and no directory is loaded on the way to another file. -/
def CreateOk (s : Rootfs) (pathname : List Byte) (fileType : Nat) (memory : Bool) : Prop :=
  pathname.head? = some slash →
    (∃ passes, (createEnds fileType memory).Along passes (entries pathname.tail) s 0) ∧
    ¬ s.MeetsFile pathname ∧ (s.MeetsAny pathname → WayLoaded (entries pathname.tail) s 0)

/-- The path is not only a slash, and the searches on the way end. No directory is loaded on the
way to another file. -/
def OpenOk (s : Rootfs) (pathname : List Byte) (memory : Bool) : Prop :=
  pathname.head? = some slash →
    (∃ passes, (openEnds pathname memory).Along passes (entries pathname.tail) s 0) ∧
    (s.MeetsAny pathname → WayLoaded (entries pathname.tail) s 0)

def DirectoryOk (s : Rootfs) (pathname : List Byte) : Prop :=
  pathname.head? = some slash → pathname ≠ [slash] →
    (∃ passes, (directoryEnds passes).Along passes (entries pathname.tail) s 0) ∧
    (s.MeetsAny pathname → WayLoaded (entries pathname.tail) s 0)

/-- What the three loops have in common; they differ in when they only search in directories. -/
theorem safe_along_iff (es : List (List Byte)) {walk : Nat → PathLoop} {ends : Nat → PathEnds} {dirs : Prop}
    (hloop : ∀ passes, Follows (walk passes) passes p)
    (hends : ∀ passes, (ends passes).For passes (walk passes)) (huse : InUse s)
    (hdirs : ∀ passes w, (walk passes).along es s 0 = some w → (w.InDirs ↔ dirs))
    (hp : dirs → Meets (· ≠ []) es s 0 → Meets p es s 0) :
    (∃ passes w, (walk passes).along es s 0 = some w ∧ w.InDirs ∧
      (Meets (· ≠ []) es s 0 → w.result = none ∧ w.rootfs = s)) ↔
    (∃ passes, (ends passes).Along passes es s 0) ∧ dirs ∧
      (Meets (· ≠ []) es s 0 → WayLoaded es s 0) := by
  constructor
  · rintro ⟨passes, w, hw, hindirs, hmeets⟩
    have hd := (hdirs passes w hw).mp hindirs
    refine ⟨⟨passes, ((hends passes).along es s 0).mp (by rw [hw]; rfl)⟩, hd, fun hmeet => ?_⟩
    obtain ⟨-, -, hiff⟩ := (hloop passes).unchanged_iff huse huse.root.1 (hp hd hmeet) hw
    exact hiff.mp (hmeets hmeet).2
  · rintro ⟨⟨passes, halong⟩, hd, hway⟩
    obtain ⟨w, hw⟩ := Option.isSome_iff_exists.mp (((hends passes).along es s 0).mpr halong)
    refine ⟨passes, w, hw, (hdirs passes w hw).mpr hd, fun hmeet => ?_⟩
    obtain ⟨hresult, -, hiff⟩ := (hloop passes).unchanged_iff huse huse.root.1 (hp hd hmeet) hw
    exact ⟨hresult, hiff.mpr (hway hmeet)⟩

theorem InUse.safe_createFile_iff (h : InUse s) :
    Safe s pathname (fun passes => s.fsCreateFile passes pathname fileType memory) ↔
      CreateOk s pathname fileType memory := by
  by_cases hslash : pathname.head? = some slash
  · have hfollows : ∀ passes, Follows (createLoop passes fileType memory) passes
        (fun es => es ≠ [] ∧ ¬ Named es) := fun passes => createLoop_follows
    have hiff := safe_along_iff (entries pathname.tail) hfollows (fun passes => createEnds_for) h
      (fun passes w hw => ?_) (fun hnot hmeet => hmeet.unnamed hnot)
    · simp only [Safe, CreateOk, MeetsAny, MeetsFile, fsCreateFile_eq hslash, hslash, true_and,
        forall_const]
      exact hiff
    · constructor
      · exact fun hdirs hmeet => createLoop_leaves hmeet hw hdirs
      · intro hnot
        have hcreates : CreatesIn True (entries pathname.tail) s 0 :=
          ⟨h, h.root.1, fun _ _ => ⟨h.root.2, hnot⟩⟩
        exact (InUse.createLoop_acts hcreates hw).2 trivial
  · have hw : ∀ passes, s.fsCreateFile passes pathname fileType memory = some ⟨s, none, []⟩ :=
      fun passes => by rw [fsCreateFile, if_pos hslash]
    exact iff_of_true ⟨0, _, hw 0, by simp [Walk.InDirs], fun hmeet => ⟨rfl, rfl⟩⟩ fun h => absurd h hslash

theorem InUse.safe_openFile_iff (h : InUse s) :
    Safe s pathname (fun passes => s.fsOpenFile passes pathname memory) ↔
      OpenOk s pathname memory := by
  by_cases hslash : pathname.head? = some slash
  · have hfollows : ∀ passes, Follows (openLoop passes pathname memory) passes (· ≠ []) :=
      fun passes => openLoop_follows
    have hiff := safe_along_iff (entries pathname.tail) hfollows (fun passes => openEnds_for) h
      (fun passes w hw => iff_of_true (h.openLoop_acts True h.root hw).2 trivial)
      (fun _ hmeet => hmeet)
    simp only [Safe, OpenOk, MeetsAny, fsOpenFile_eq hslash, hslash, true_and, forall_const]
    simpa only [true_and] using hiff
  · have hw : ∀ passes, s.fsOpenFile passes pathname memory = some ⟨s, none, []⟩ :=
      fun passes => by rw [fsOpenFile, if_pos hslash]
    exact iff_of_true ⟨0, _, hw 0, by simp [Walk.InDirs], fun hmeet => ⟨rfl, rfl⟩⟩ fun h => absurd h hslash

theorem InUse.safe_openDirectory_iff (h : InUse s) :
    Safe s pathname (fun passes => s.fsOpenDirectory passes pathname) ↔ DirectoryOk s pathname := by
  by_cases hslash : pathname.head? = some slash
  · by_cases htail : pathname.tail = []
    · have hpath : pathname = [slash] := by
        rw [← List.cons_head?_tail (Option.mem_def.mpr hslash), htail]
      refine iff_of_true ⟨0, ⟨s, some 0, []⟩, ?_, ?_, fun hmeet => ?_⟩
        fun _ hne => absurd hpath hne
      · exact (fsOpenDirectory_eq hslash).trans (if_pos htail)
      · simp [Walk.InDirs]
      · rw [MeetsAny, htail] at hmeet
        exact hmeet.2.elim
    · have hpath : pathname ≠ [slash] := by
        rintro rfl
        exact htail rfl
      have hiff := safe_along_iff (entries pathname.tail) (fun passes => directoryLoop_follows)
        (fun passes => directoryEnds_for) h
        (fun passes w hw => iff_of_true (h.directoryLoop_acts True h.root hw).2.1 trivial)
        (fun _ hmeet => hmeet)
      simp only [Safe, DirectoryOk, MeetsAny, fsOpenDirectory_eq hslash, hslash, htail, hpath,
        if_false, true_and, forall_const, ne_eq, not_false_iff]
      simpa only [true_and] using hiff
  · have hw : ∀ passes, s.fsOpenDirectory passes pathname = some ⟨s, none, []⟩ :=
      fun passes => by rw [fsOpenDirectory, if_pos hslash]
    exact iff_of_true ⟨0, _, hw 0, by simp [Walk.InDirs], fun hmeet => ⟨rfl, rfl⟩⟩ fun h => absurd h hslash

/-- In every reachable state, exactly these walks are safe. -/
theorem safe_iff {sInoAddr sBlkAddr : Nat} {calls : List RootfsCall}
    (hrun : Runs.exec call (rootfsInit sInoAddr sBlkAddr) calls = some s) :
    (Safe s pathname (fun passes => s.fsCreateFile passes pathname fileType memory) ↔
      CreateOk s pathname fileType memory) ∧
    (Safe s pathname (fun passes => s.fsOpenFile passes pathname memory) ↔
      OpenOk s pathname memory) ∧
    (Safe s pathname (fun passes => s.fsOpenDirectory passes pathname) ↔
      DirectoryOk s pathname) := by
  have huse := (acts_of_run hrun).1
  exact ⟨huse.safe_createFile_iff, huse.safe_openFile_iff, huse.safe_openDirectory_iff⟩

/-- A directory with a file in it. -/
def treeCalls : List RootfsCall := [.createFile 0 [slash, 100#8, slash, 101#8] sIfreg true]

/-- A new name in the directory, and a path that goes on behind the file. -/
theorem missing_safe : ∃ s, Runs.exec call (rootfsInit 0x20010000 0x20020000) treeCalls = some s ∧
    Safe s [slash, 100#8, slash, 102#8] (fun passes =>
      s.fsCreateFile passes [slash, 100#8, slash, 102#8] sIfreg true) ∧
    Safe s [slash, 100#8, slash, 101#8, slash, 102#8] (fun passes =>
      s.fsOpenFile passes [slash, 100#8, slash, 101#8, slash, 102#8] true) ∧
    Safe s [slash, 100#8, slash, 101#8, slash, 102#8] (fun passes =>
      s.fsOpenDirectory passes [slash, 100#8, slash, 101#8, slash, 102#8]) := by
  have hread : (Runs.exec call (rootfsInit 0x20010000 0x20020000) treeCalls).any (fun s =>
      (s.inodes 0).iSync = true ∧ (s.inodes 1).iMode = sIfdir ∧ (s.inodes 1).iSync = true ∧
      (s.inodes 2).iMode = sIfreg ∧ (s.fsAddFile 1 [102#8] sIfreg true).isSome ∧
      (s.fsSearchFile 0 0 [100#8]).map Prod.snd = some (some 1) ∧
      (s.fsSearchFile 0 1 [101#8]).map Prod.snd = some (some 2) ∧
      (s.fsSearchFile 0 1 [102#8]).map Prod.snd = some none) = true := by decide +kernel
  obtain ⟨s, hrun, hs⟩ := (Option.any_eq_true ..).mp hread
  obtain ⟨hroot, hdir, hsync, hreg, hadd, hfacts⟩ := of_decide_eq_true hs
  have hsearch : ∀ {d entry r}, (s.inodes d).iSync = true →
      (s.fsSearchFile 0 d entry).map Prod.snd = some r → s.fsSearchFile 0 d entry = some (s, r) := by
    intro d entry r hd hr
    obtain ⟨⟨t, r'⟩, ht, rfl⟩ := Option.map_eq_some_iff.mp hr
    obtain ⟨-, rfl⟩ | ⟨hnot, -⟩ := fsSearchFile_settled ht
    · exact ht
    · exact absurd (Or.inr (Or.inr (Or.inr hd))) hnot
  have hd := hsearch hroot hfacts.1
  have he := hsearch hsync hfacts.2.1
  have hf := hsearch hsync hfacts.2.2
  have hfile : (s.inodes 2).iMode ≠ sIfdir := by
    rw [hreg]
    decide
  have hnew : ∀ p, ¬ Meets p (entries [100#8, slash, 102#8]) s 0 := by
    rintro p ⟨t, i, hfound, hmeets⟩
    obtain ⟨rfl, heq⟩ := Searches.unique hfound ⟨0, hd⟩
    obtain rfl := Option.some.inj heq
    rw [if_pos hdir] at hmeets
    obtain ⟨u, j, hnone, -⟩ := hmeets
    cases (Searches.unique hnone ⟨0, hf⟩).2
  have hway : WayLoaded (entries [100#8, slash, 101#8, slash, 102#8]) s 0 := by
    refine ⟨Or.inr (Or.inr (Or.inr hroot)), fun i hi hmode => ?_⟩
    obtain rfl := Option.some.inj (Searches.unique hi ⟨0, hd⟩).2
    refine ⟨Or.inr (Or.inr (Or.inr hsync)), fun j hj hmode' => ?_⟩
    obtain rfl := Option.some.inj (Searches.unique hj ⟨0, he⟩).2
    exact absurd hmode' hfile
  have hcreate := @safe_iff _ sIfreg [slash, 100#8, slash, 102#8] true _ _ _ hrun
  have hopen := @safe_iff _ sIfreg [slash, 100#8, slash, 101#8, slash, 102#8] true _ _ _ hrun
  refine ⟨s, hrun, hcreate.1.mpr fun _ => ⟨⟨0, s, some 1, hd, nofun, fun i hi => ?_⟩,
    fun h => hnew _ h.2, fun h => absurd h.2 (hnew _)⟩, hopen.2.1.mpr fun _ =>
      ⟨⟨0, s, some 1, hd, nofun, fun i hi _ => ?_⟩, fun _ => hway⟩, hopen.2.2.mpr fun _ _ =>
      ⟨⟨0, s, some 1, hd, nofun, fun i hi _ => ?_⟩, fun _ => hway⟩⟩
  · obtain rfl := Option.some.inj hi
    exact fun _ => ⟨s, none, hf, fun _ => hadd, nofun⟩
  · obtain rfl := Option.some.inj hi
    refine ⟨s, some 2, he, nofun, fun j hj hthrough => ?_⟩
    obtain rfl := Option.some.inj hj
    exact absurd hthrough hfile
  · obtain rfl := Option.some.inj hi
    refine ⟨s, some 2, he, nofun, fun j hj hthrough => ?_⟩
    obtain rfl := Option.some.inj hj
    exact absurd hthrough hfile

/-- The path that is only a slash, and a path through a regular file. -/
theorem slash_not_safe :
    ¬ Safe (rootfsInit 0x20010000 0x20020000) [slash] (fun passes =>
      (rootfsInit 0x20010000 0x20020000).fsOpenFile passes [slash] true) ∧
    ∃ s, Runs.exec call (rootfsInit 0x20010000 0x20020000)
        [.createFile 0 [slash, 97#8] sIfreg true] = some s ∧
      ¬ Safe s [slash, 97#8, slash, 98#8] (fun passes =>
        s.fsCreateFile passes [slash, 97#8, slash, 98#8] sIfreg true) := by
  constructor
  · rintro ⟨passes, w, hw, -⟩
    cases hw
  · have hsome : (Runs.exec call (rootfsInit 0x20010000 0x20020000)
        [.createFile 0 [slash, 97#8] sIfreg true]).any (fun s =>
          ((s.fsSearchFile 0 0 [97#8]).any fun found =>
            found.2 = some 1 ∧ (found.1.inodes 1).iMode = sIfreg)) = true := by decide +kernel
    obtain ⟨s, hrun, hs⟩ := (Option.any_eq_true ..).mp hsome
    obtain ⟨⟨t, r⟩, hsearch, hfound⟩ := (Option.any_eq_true ..).mp hs
    obtain ⟨rfl, hmode⟩ := of_decide_eq_true hfound
    refine ⟨s, hrun, fun hsafe => ?_⟩
    have hok := (acts_of_run hrun).1.safe_createFile_iff.mp hsafe rfl
    refine hok.2.1 ⟨rfl, t, 1, ⟨0, hsearch⟩, ?_⟩
    rw [if_neg (show (t.inodes 1).iMode ≠ sIfdir by rw [hmode]; decide)]
    exact ⟨[98#8], List.mem_cons_self, List.cons_ne_nil _ _⟩

end Rootfs

end Tenok
