import Tenok.Kernel.Filesysd
import Tenok.Kernel.JoinRuns
import Tenok.Kernel.ThreadStack
import Tenok.Mm.PageRuns

/-!
`_task_create` with all that it takes: the slots of a thread and a task, the pages of a stack and an
entry of the file table. It looks for a task ID when it has the thread already.
-/
namespace Tenok

def offsetofPipeFile : Word := 4#32

structure CreateSys where
  kernel : Kernel
  maps : PageBitmap
  /-- The pointers of the file table. -/
  files : Nat → Word

namespace CreateSys

/-- `_task_create`; `none` is a negative result. -/
def taskCreate (cfg : PageSizeSelect) (start : Word) (s : CreateSys) (priority : BitVec 8)
    (stackSize : Word) (kernelThread : Bool) : Option (CreateSys × Option Pid) := do
  let ((maps, k), retval) ← threadCreate cfg start s.maps s.kernel
    { schedPriority := priority.toNat } stackSize kernelThread
  match retval with
  | .error _ => some ({ s with kernel := k, maps }, none)
  | .ok (thread, stack) =>
      let files := Function.update s.files (threadPipeFd thread).toNat
        (stack.pipe + offsetofPipeFile)
      match (List.range taskMax).find? fun p => !k.bitmapTasks p with
      | none => some ({ kernel := k, maps, files }, none)
      | some pid =>
          some ({ kernel := { k.enterTask thread pid [thread] with
                    bitmapTasks := Function.update k.bitmapTasks pid true
                    mainThread := Function.update k.mainThread pid thread
                    tasksList := k.tasksList ++ [pid] }
                  maps, files }, some pid)

/-- The tables and lists of the kernel, the file table and the page bitmaps are the same. -/
structure SameTables (s s' : CreateSys) : Prop where
  bitmapThreads : s'.kernel.bitmapThreads = s.kernel.bitmapThreads
  bitmapTasks : s'.kernel.bitmapTasks = s.kernel.bitmapTasks
  threadsList : s'.kernel.threadsList = s.kernel.threadsList
  sleepList : s'.kernel.members .sleep = s.kernel.members .sleep
  tasksList : s'.kernel.tasksList = s.kernel.tasksList
  files : s'.files = s.files
  maps : s'.maps = s.maps

/-- The order of the pages for a stack; it is out of range for a size that is too large. -/
def stackOrder (cfg : PageSizeSelect) (stackSize : Word) : Nat :=
  (BitVec.ofInt 32 (sizeToPageOrder cfg (align stackSize sizeofLong))).toNat

/-- The reasons of `thread_create` to refuse: a priority out of range, no free thread slot, or no
free page of the order or above. -/
def Refused (cfg : PageSizeSelect) (s : CreateSys) (priority : BitVec 8) (stackSize : Word)
    (kernelThread : Bool) : Prop :=
  ThreadAttr.Bad { schedPriority := priority.toNat } kernelThread ∨
    (∀ t < threadMax, s.kernel.Alive t) ∨
    ∀ o, stackOrder cfg stackSize ≤ o → ∀ i, freeOf s.maps o i = false

variable {cfg : PageSizeSelect} {start stackSize : Word} {s s' : CreateSys} {priority : BitVec 8}
  {kernelThread : Bool} {live : List (Word × Nat)} {r : Option Pid}

theorem threadCreate_kernel {maps maps' : PageBitmap} {k k' : Kernel} {attr : ThreadAttr}
    {r : Except Errno (Tid × ThreadStack)}
    (h : threadCreate cfg start maps k attr stackSize kernelThread = some ((maps', k'), r)) :
    ∃ stack, k.threadCreate attr kernelThread stack = (k', r.map Prod.fst) := by
  rw [threadCreate] at h
  simp only [Kernel.threadCreate]
  split at h
  · next hbad =>
      obtain ⟨hk, rfl⟩ := Prod.mk.inj (Option.some.inj h)
      obtain ⟨-, rfl⟩ := Prod.mk.inj hk
      exact ⟨true, by rw [if_pos hbad]; rfl⟩
  · next hbad =>
      simp only [if_neg hbad]
      cases hfind : (List.range threadMax).find? fun t => !k.bitmapThreads t with
      | none =>
          simp only [hfind] at h
          obtain ⟨hk, rfl⟩ := Prod.mk.inj (Option.some.inj h)
          obtain ⟨-, rfl⟩ := Prod.mk.inj hk
          exact ⟨true, rfl⟩
      | some tid =>
          simp only [hfind] at h
          obtain ⟨⟨maps₁, stack⟩, -, h⟩ := Option.bind_eq_some_iff.mp h
          cases stack with
          | none =>
              obtain ⟨hk, rfl⟩ := Prod.mk.inj (Option.some.inj h)
              obtain ⟨-, rfl⟩ := Prod.mk.inj hk
              exact ⟨false, rfl⟩
          | some stack =>
              obtain ⟨hk, rfl⟩ := Prod.mk.inj (Option.some.inj h)
              obtain ⟨-, rfl⟩ := Prod.mk.inj hk
              exact ⟨true, rfl⟩

theorem taskCreate_kernel
    (h : s.taskCreate cfg start priority stackSize kernelThread = some (s', r)) :
    ∃ stack, s.kernel.taskCreate priority.toNat kernelThread stack = (s'.kernel, r) := by
  obtain ⟨⟨⟨maps, k⟩, retval⟩, hcreate, h⟩ := Option.bind_eq_some_iff.mp h
  obtain ⟨stack, hstack⟩ := threadCreate_kernel hcreate
  refine ⟨stack, ?_⟩
  rw [Kernel.taskCreate, hstack]
  cases retval with
  | error e =>
      obtain ⟨rfl, rfl⟩ := Prod.mk.inj (Option.some.inj h)
      rfl
  | ok thread =>
      dsimp only [Except.map] at h ⊢
      cases hfind : (List.range taskMax).find? fun p => !k.bitmapTasks p with
      | none =>
          simp only [hfind] at h
          obtain ⟨rfl, rfl⟩ := Prod.mk.inj (Option.some.inj h)
          rfl
      | some pid =>
          simp only [hfind] at h
          obtain ⟨rfl, rfl⟩ := Prod.mk.inj (Option.some.inj h)
          rfl

theorem threadCreate_outcome (hpages : PageInv cfg ⟨s.maps, live⟩) (start : Word)
    (priority : BitVec 8) (stackSize : Word) (kernelThread : Bool) :
    (s.Refused cfg priority stackSize kernelThread ∧ ∃ k e,
      threadCreate cfg start s.maps s.kernel { schedPriority := priority.toNat } stackSize
        kernelThread = some ((s.maps, k), .error e) ∧
      (k = s.kernel ∨ ∃ tid, k = s.kernel.setThread tid fun _ => {})) ∨
    (¬ s.Refused cfg priority stackSize kernelThread ∧ ∃ maps k tid stack, ¬ s.kernel.Alive tid ∧
      threadCreate cfg start s.maps s.kernel { schedPriority := priority.toNat } stackSize
        kernelThread = some ((maps, k), .ok (tid, stack)) ∧
      k.bitmapThreads = Function.update s.kernel.bitmapThreads tid true ∧
      k.bitmapTasks = s.kernel.bitmapTasks) := by
  rw [threadCreate]
  split
  · next hbad => exact Or.inl ⟨Or.inl hbad, _, _, rfl, Or.inl rfl⟩
  · next hbad =>
      split
      · next hfind =>
          refine Or.inl ⟨Or.inr (Or.inl fun t ht => ?_), _, _, rfl, Or.inl rfl⟩
          simpa [Kernel.Alive] using List.find?_eq_none.mp hfind t (List.mem_range.mpr ht)
      · next tid hfind =>
          have hfree : ¬ s.kernel.Alive tid := by
            simpa [Kernel.Alive] using List.find?_some hfind
          have hmax : tid < threadMax := List.mem_range.mp (List.mem_of_find?_eq_some hfind)
          obtain ⟨held, hrep, _⟩ := hpages
          obtain ⟨hnull, hnone⟩ | ⟨_, maps, idx, halloc, _⟩ :=
            allocPages_spec hrep start (stackOrder cfg stackSize)
          · refine Or.inl ⟨Or.inr (Or.inr hnone), s.kernel.setThread tid fun _ => {}, .enomem, ?_,
              Or.inr ⟨tid, rfl⟩⟩
            rw [stackOrder] at hnull
            simp only [hnull, Option.bind_eq_bind, Option.bind_some]
          · obtain ⟨o, ho, i, hi⟩ := exists_free_of_allocPages hrep.shape halloc
            have hnot : ¬ s.Refused cfg priority stackSize kernelThread := by
              rintro (h | h | h)
              · exact hbad h
              · exact hfree (h tid hmax)
              · cases (h o ho i).symm.trans hi
            rw [stackOrder] at halloc
            refine Or.inr ⟨hnot, maps, (s.kernel.setThread tid fun _ => {}).setupThread
              { schedPriority := priority.toNat } kernelThread tid, tid,
              .layOut cfg (stackOrder cfg stackSize)
                (pageIdxToAddr start idx (stackOrder cfg stackSize)) (align stackSize sizeofLong),
              hfree, ?_, rfl, rfl⟩
            simp only [halloc, Option.bind_eq_bind, Option.bind_some]
            rfl

theorem sameTables_refused {k : Kernel}
    (h : k = s.kernel ∨ ∃ tid, k = s.kernel.setThread tid fun _ => {}) :
    SameTables s { s with kernel := k } := by
  obtain rfl | ⟨tid, rfl⟩ := h
  · exact ⟨rfl, rfl, rfl, rfl, rfl, rfl, rfl⟩
  · exact ⟨rfl, rfl, rfl, Kernel.members_congr rfl, rfl, rfl, rfl⟩

/-- A call that fails leaves everything as it was exactly if it is `thread_create` that refuses. -/
theorem taskCreate_clean_iff (cfg : PageSizeSelect) (start : Word) (s : CreateSys)
    (live : List (Word × Nat)) (hpages : PageInv cfg ⟨s.maps, live⟩) (priority : BitVec 8)
    (stackSize : Word) (kernelThread : Bool) : ∃ s' r,
      s.taskCreate cfg start priority stackSize kernelThread = some (s', r) ∧
        ((r = none → SameTables s s') ↔ s.Refused cfg priority stackSize kernelThread ∨
          ∃ pid < taskMax, s.kernel.bitmapTasks pid = false) := by
  obtain ⟨hrefused, k, e, hcreate, hk⟩ | ⟨hrefused, maps, k, tid, stack, hfree, hcreate, hbitmap,
    htasks⟩ := threadCreate_outcome hpages start priority stackSize kernelThread
  · refine ⟨{ s with kernel := k }, none, ?_, iff_of_true (fun _ => ?_) (Or.inl hrefused)⟩
    · rw [taskCreate, hcreate]
      rfl
    · exact sameTables_refused hk
  · cases hfind : (List.range taskMax).find? fun p => !s.kernel.bitmapTasks p with
    | none =>
        refine ⟨⟨k, maps, Function.update s.files (threadPipeFd tid).toNat
          (stack.pipe + offsetofPipeFile)⟩, none, ?_, iff_of_false (fun h => ?_) ?_⟩
        · simp only [taskCreate, hcreate, htasks, hfind, Option.bind_eq_bind, Option.bind_some]
        · have hsame := congrFun (h rfl).bitmapThreads tid
          rw [hbitmap, Function.update_self] at hsame
          exact hfree hsame.symm
        · rintro (h | ⟨pid, hpid, hpid'⟩)
          · exact hrefused h
          · simpa [hpid'] using List.find?_eq_none.mp hfind pid (List.mem_range.mpr hpid)
    | some pid =>
        have hsome : ∃ s', s.taskCreate cfg start priority stackSize kernelThread =
            some (s', some pid) := by
          simp only [taskCreate, hcreate, htasks, hfind, Option.bind_eq_bind, Option.bind_some]
          exact ⟨_, rfl⟩
        obtain ⟨s', hs'⟩ := hsome
        refine ⟨s', some pid, hs', iff_of_true (fun h => (by cases h)) (Or.inr ⟨pid, ?_, ?_⟩)⟩
        · exact List.mem_range.mp (List.mem_of_find?_eq_some hfind)
        · simpa using List.find?_some hfind

/-- Stacks take all pages. -/
def allStacks : List PageOp := List.replicate 64 (.alloc 2)

/-- Thread 5 creates as many threads as there can be. -/
def allThreads : List KernelEvent :=
  Kernel.bootRun ++ (List.replicate 59 [.syscallHandler, .call (.pthreadCreate none true),
    .syscallReturn]).flatten

/-- Without a page left, and without a thread. -/
theorem taskCreate_clean_iff_at_full : ∃ k maps live rets s k' s',
    Runs.exec Kernel.step Kernel.schedStart Kernel.bootRun = some k ∧
    pageRun .size64K 0x20000000 (pageInit .size64K) allStacks = some (⟨maps, live⟩, rets) ∧
    taskCreate .size64K 0x20000000 ⟨k, maps, fun _ => 0⟩ 0 1024 false = some (s, none) ∧
    SameTables ⟨k, maps, fun _ => 0⟩ s ∧
    Runs.exec Kernel.step Kernel.schedStart allThreads = some k' ∧
    taskCreate .size64K 0x20000000 ⟨k', pageBitmapInit .size64K, fun _ => 0⟩ 0 1024 false =
      some (s', none) ∧
    SameTables ⟨k', pageBitmapInit .size64K, fun _ => 0⟩ s' := by
  have hpages : ((Runs.exec Kernel.step Kernel.schedStart Kernel.bootRun).bind fun k =>
      (pageRun .size64K 0x20000000 (pageInit .size64K) allStacks).bind fun p =>
        (taskCreate .size64K 0x20000000 ⟨k, p.1.maps, fun _ => 0⟩ 0 1024 false).map fun r =>
          (r.2, k.bitmapTasks 5)) = some (none, false) := by decide +kernel
  have hthreads : ((Runs.exec Kernel.step Kernel.schedStart allThreads).bind fun k =>
      (taskCreate .size64K 0x20000000 ⟨k, pageBitmapInit .size64K, fun _ => 0⟩ 0 1024 false).map
        fun r => (r.2, k.bitmapTasks 5)) = some (none, false) := by decide +kernel
  obtain ⟨k, hk, hpages⟩ := Option.bind_eq_some_iff.mp hpages
  obtain ⟨⟨⟨maps, live⟩, rets⟩, hrun, hpages⟩ := Option.bind_eq_some_iff.mp hpages
  obtain ⟨⟨s, r⟩, hcreate, hfacts⟩ := Option.map_eq_some_iff.mp hpages
  obtain ⟨rfl, hpid⟩ := Prod.mk.inj hfacts
  obtain ⟨k', hk', hthreads⟩ := Option.bind_eq_some_iff.mp hthreads
  obtain ⟨⟨s', r⟩, hcreate', hfacts⟩ := Option.map_eq_some_iff.mp hthreads
  obtain ⟨rfl, hpid'⟩ := Prod.mk.inj hfacts
  have hstart : 2 ^ (pageOrderMax .size64K + 8) ∣ (0x20000000#32).toNat := by decide
  obtain ⟨_, _, hrun', hinv⟩ := pageRun_spec hstart allStacks (pageInv_init .size64K)
    (by decide +kernel)
  obtain ⟨rfl, rfl⟩ := Prod.mk.inj (Option.some.inj (hrun.symm.trans hrun'))
  obtain ⟨_, _, hc, hclean⟩ := taskCreate_clean_iff .size64K 0x20000000 ⟨k, maps, fun _ => 0⟩ live
    hinv 0 1024 false
  obtain ⟨rfl, rfl⟩ := Prod.mk.inj (Option.some.inj (hcreate.symm.trans hc))
  obtain ⟨_, _, hc', hclean'⟩ := taskCreate_clean_iff .size64K 0x20000000
    ⟨k', pageBitmapInit .size64K, fun _ => 0⟩ [] (pageInv_init .size64K) 0 1024 false
  obtain ⟨rfl, rfl⟩ := Prod.mk.inj (Option.some.inj (hcreate'.symm.trans hc'))
  exact ⟨k, maps, live, rets, s, k', s', hk, hrun, hcreate,
    hclean.mpr (Or.inr ⟨5, by decide, hpid⟩) rfl, hk', hcreate',
    hclean'.mpr (Or.inr ⟨5, by decide, hpid'⟩) rfl⟩

/-- Thread 5 creates a task and cancels its thread again and again. The tasks stay. -/
def crowdedRun : List KernelEvent :=
  Kernel.bootRun ++ (List.replicate 59 [.syscallHandler, .call (.taskCreate 0 false true),
    .syscallReturn, .syscallHandler, .call (.pthreadCancel 4), .syscallReturn]).flatten

def fiveStacks : List PageOp := List.replicate 5 (.alloc 2)

/-- Now a call fails and leaves its thread behind. -/
theorem taskCreate_not_clean : ∃ k maps live rets s',
    Runs.exec Kernel.step Kernel.schedStart crowdedRun = some k ∧
    pageRun .size64K 0x20000000 (pageInit .size64K) fiveStacks = some (⟨maps, live⟩, rets) ∧
    taskCreate .size64K 0x20000000 ⟨k, maps, fun _ => 0⟩ 0 1024 false = some (s', none) ∧
    ¬ SameTables ⟨k, maps, fun _ => 0⟩ s' := by
  have hrun : ((Runs.exec Kernel.step Kernel.schedStart crowdedRun).bind fun k =>
      (pageRun .size64K 0x20000000 (pageInit .size64K) fiveStacks).bind fun p =>
        (taskCreate .size64K 0x20000000 ⟨k, p.1.maps, fun _ => 0⟩ 0 1024 false).map fun r =>
          (r.2, k.bitmapThreads 4, r.1.kernel.bitmapThreads 4)) = some (none, false, true) := by
    decide +kernel
  obtain ⟨k, hk, hrun⟩ := Option.bind_eq_some_iff.mp hrun
  obtain ⟨⟨⟨maps, live⟩, rets⟩, hpages, hrun⟩ := Option.bind_eq_some_iff.mp hrun
  obtain ⟨⟨s', r⟩, hcreate, hfacts⟩ := Option.map_eq_some_iff.mp hrun
  obtain ⟨rfl, hbits⟩ := Prod.mk.inj hfacts
  obtain ⟨hbefore, hafter⟩ := Prod.mk.inj hbits
  refine ⟨k, maps, live, rets, s', hk, hpages, hcreate, fun hsame => ?_⟩
  have hbit := congrFun hsame.bitmapThreads 4
  cases hbefore.symm.trans (hbit.symm.trans hafter)

end CreateSys

end Tenok
