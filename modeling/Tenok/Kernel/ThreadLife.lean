import Tenok.Kernel.ThreadLists

/-!
Creation and removal of threads. A removed thread leaves its own list; the threads
on the lists that are part of it are the caller's concern.
-/
namespace Tenok
open Ring Queues

/-- A kernel thread has the privilege of the kernel. -/
def ThreadInfo.Guarded (i : ThreadInfo) : Prop := i.kernelThread = true → i.privilege = .kernelThread

namespace Kernel
variable {k k' : Kernel} {A : Set Tid} {L L' : SchedList → List Tid} {h : SchedList} {t u : Tid}

theorem leaveTask_eq_some (hleave : k.leaveTask t = some k') :
    ∃ task, (k.threads t).task = some task ∧ k' = { k with
      threadsList := k.threadsList.erase t
      taskThreads := Function.update k.taskThreads task ((k.taskThreads task).erase t) } := by
  simp only [leaveTask, Option.bind_eq_bind, Option.bind_eq_some_iff, Option.some.injEq] at hleave
  obtain ⟨task, htask, rfl⟩ := hleave
  exact ⟨task, htask, rfl⟩

theorem alive_terminate : (k.terminate t).Alive u ↔ u ≠ t ∧ k.Alive u := by
  by_cases hut : u = t
  · subst hut
    simp [Alive, terminate]
  · simp [Alive, terminate, setStatus, setThread, hut]

theorem threads_terminate_of_ne (hut : u ≠ t) : (k.terminate t).threads u = k.threads u := by
  simp [terminate, setStatus, setThread, hut]

theorem status_terminate (k : Kernel) (t : Tid) :
    ((k.terminate t).threads t).status = .terminated := by
  simp [terminate, setStatus, setThread]

theorem Threaded.terminate {s : Cells ListNode} (hT : Threaded k A L)
    (hrings : Rings s (inUse A) L') (hothers : ∀ u h, u ≠ t → (u ∈ L' h ↔ u ∈ L h))
    (hgone : ∀ h, t ∉ L' h) : Threaded ({ k with links := s }.terminate t) A L' where
  rings := hrings
  linked_iff u := by
    rw [alive_terminate]
    by_cases hut : u = t
    · simp [hut, hgone]
    · have hmem : (∃ h, u ∈ L' h) ↔ ∃ h, u ∈ L h := exists_congr fun h => hothers u h hut
      rw [hmem, hT.linked_iff u, threads_terminate_of_ne hut, and_iff_right hut]
      rfl
  running u hu := by
    rw [alive_terminate]
    by_cases hut : u = t
    · rw [hut, status_terminate] at hu
      cases hu
    · rw [threads_terminate_of_ne hut] at hu
      exact ⟨(hT.running u hu).1, hut, (hT.running u hu).2⟩
  lt_max u hu := hT.lt_max u (alive_terminate.mp hu).2
  not_self u hu := by
    by_cases hut : u = t
    · exact hgone _ (hut ▸ hu)
    · exact hT.not_self u ((hothers u _ hut).mp hu)

theorem Registered.remove {s : Cells ListNode} (hR : Registered k) (ht : t ∉ k.timeoutList)
    (hleave : k.leaveTask t = some k') : Registered ({ k' with links := s }.terminate t) := by
  obtain ⟨task, htask, rfl⟩ := leaveTask_eq_some hleave
  refine ⟨⟨hR.threadsList.1.erase t, fun u hu => ?_⟩, fun p => ?_, hR.timeoutList.1,
    fun u hu => ?_⟩
  · obtain ⟨hut, hu⟩ := hR.threadsList.1.mem_erase_iff.mp hu
    exact alive_terminate.mpr ⟨hut, hR.threadsList.2 u hu⟩
  · obtain ⟨hnodup, hmem⟩ := hR.taskThreads p
    change (Function.update k.taskThreads task _ p).Nodup ∧
      ∀ u ∈ Function.update k.taskThreads task _ p, _
    by_cases hp : p = task
    · subst hp
      rw [Function.update_self]
      refine ⟨hnodup.erase t, fun u hu => ?_⟩
      obtain ⟨hut, hu⟩ := hnodup.mem_erase_iff.mp hu
      rw [alive_terminate, threads_terminate_of_ne hut]
      exact ⟨⟨hut, (hmem u hu).1⟩, (hmem u hu).2⟩
    · rw [Function.update_of_ne hp]
      refine ⟨hnodup, fun u hu => ?_⟩
      have hut : u ≠ t := by
        rintro rfl
        exact hp (Option.some.inj ((hmem u hu).2.symm.trans htask))
      rw [alive_terminate, threads_terminate_of_ne hut]
      exact ⟨⟨hut, (hmem u hu).1⟩, (hmem u hu).2⟩
  · have hut : u ≠ t := fun hut => ht (hut ▸ hu)
    rw [alive_terminate, threads_terminate_of_ne hut]
    exact ⟨⟨hut, (hR.timeoutList.2 u hu).1⟩, (hR.timeoutList.2 u hu).2⟩

/-- The threads of `T` are removed and nothing else changes place. -/
structure Removed (A : Set Tid) (k : Kernel) (L : SchedList → List Tid) (T : List Tid)
    (k' : Kernel) (L' : SchedList → List Tid) : Prop where
  threaded : Threaded k' A L'
  registered : Registered k'
  mem : ∀ u h, u ∈ L' h ↔ u ∉ T ∧ u ∈ L h
  alive : ∀ u, k'.Alive u ↔ u ∉ T ∧ k.Alive u
  timeoutList : k'.timeoutList = k.timeoutList
  runningThread : k'.runningThread = k.runningThread
  threads : ∀ u, u ∉ T → k'.threads u = k.threads u

namespace Removed
variable {T T' : List Tid} {k'' : Kernel} {L'' : SchedList → List Tid}

theorem nil (hT : Threaded k A L) (hR : Registered k) : Removed A k L [] k L :=
  ⟨hT, hR, by simp, by simp, rfl, rfl, fun _ _ => rfl⟩

theorem append (h : Removed A k L T k' L') (h' : Removed A k' L' T' k'' L'') :
    Removed A k L (T ++ T') k'' L'' where
  threaded := h'.threaded
  registered := h'.registered
  mem u g := by
    rw [h'.mem, h.mem, List.mem_append]
    tauto
  alive u := by
    rw [h'.alive, h.alive, List.mem_append]
    tauto
  timeoutList := h'.timeoutList.trans h.timeoutList
  runningThread := h'.runningThread.trans h.runningThread
  threads u hu := by
    rw [List.mem_append, not_or] at hu
    exact (h'.threads u hu.2).trans (h.threads u hu.1)

theorem foldlM {f : Kernel → Tid → Option Kernel} (hT : Threaded k A L) (hR : Registered k)
    (hstep : ∀ pre t post k₁ L₁ k₂, T = pre ++ t :: post → pre.foldlM f k = some k₁ →
      Removed A k L pre k₁ L₁ → f k₁ t = some k₂ → ∃ L₂, Removed A k₁ L₁ [t] k₂ L₂)
    (hrun : T.foldlM f k = some k') : ∃ L', Removed A k L T k' L' := by
  induction T using List.reverseRecOn generalizing k' with
  | nil =>
      obtain rfl : k = k' := by simpa using hrun
      exact ⟨L, nil hT hR⟩
  | append_singleton T t ih =>
      rw [List.foldlM_append, Option.bind_eq_bind, Option.bind_eq_some_iff] at hrun
      obtain ⟨k₁, hk₁, hlast⟩ := hrun
      obtain ⟨L₁, h₁⟩ := ih (fun pre u post k₂ L₂ k₃ hT₀ => hstep pre u (post ++ [t]) k₂ L₂ k₃
        (by simp [hT₀])) hk₁
      obtain ⟨L₂, h₂⟩ := hstep T t [] k₁ L₁ k' rfl hk₁ h₁ (by simpa using hlast)
      exact ⟨L₂, h₁.append h₂⟩

end Removed

theorem Removed.single {s : Cells ListNode} (hT : Threaded k A L) (hR : Registered k)
    (ht : t ∉ k.timeoutList) (hleave : k.leaveTask t = some k')
    (hrings : Rings s (inUse A) (dequeue L t)) :
    Removed A k L [t] ({ k' with links := s }.terminate t) (dequeue L t) := by
  have hreg := hR.remove (s := s) ht hleave
  obtain ⟨task, -, rfl⟩ := leaveTask_eq_some hleave
  refine ⟨?_, hreg, fun u h => ?_, fun u => ?_, rfl, rfl, fun u hu => ?_⟩
  · exact (hT.terminate hrings (fun u h hut => by simp [hT.rings.mem_dequeue, hut])
      (by simp [hT.rings.mem_dequeue])).of_status rfl rfl rfl fun _ => rfl
  · simp [hT.rings.mem_dequeue]
  · rw [alive_terminate, List.mem_singleton]
    rfl
  · exact threads_terminate_of_ne (by simpa using hu)

theorem Threaded.taskDelete {task : Pid} (hT : Threaded k A L) :
    Threaded (k.taskDelete task) A L :=
  hT.of_status rfl rfl rfl fun _ => rfl

theorem Registered.taskDelete {task : Pid} (hR : Registered k) :
    Registered (k.taskDelete task) :=
  hR.of_same rfl rfl rfl rfl fun _ => ⟨rfl, rfl⟩

theorem dropEmptyTask_eq (k : Kernel) (task : Pid) : k.dropEmptyTask task = { k with
    tasksList := (k.dropEmptyTask task).tasksList
    bitmapTasks := (k.dropEmptyTask task).bitmapTasks } := by
  rw [dropEmptyTask]
  split <;> rfl

theorem Threaded.dropEmptyTask (hT : Threaded k A L) (task : Pid) :
    Threaded (k.dropEmptyTask task) A L := by
  rw [dropEmptyTask_eq]
  exact hT.of_status rfl rfl rfl fun _ => rfl

theorem Registered.dropEmptyTask (hR : Registered k) (task : Pid) :
    Registered (k.dropEmptyTask task) := by
  rw [dropEmptyTask_eq]
  exact hR.of_same rfl rfl rfl rfl fun _ => ⟨rfl, rfl⟩

theorem Removed.dropEmptyTask {T : List Tid} {task : Pid} (h : Removed A k L T k' L') :
    Removed A k L T (k'.dropEmptyTask task) L' := by
  have hT := h.threaded.dropEmptyTask task
  have hR := h.registered.dropEmptyTask task
  rw [dropEmptyTask_eq] at hT hR ⊢
  exact ⟨hT, hR, h.mem, h.alive, h.timeoutList, h.runningThread, h.threads⟩

namespace Threaded

theorem dequeue_eq_self (h : ∀ g, t ∉ L g) : dequeue L t = L :=
  funext fun g => dequeue_of_notMem (h g)

/-- One pass of the loop of `sys_exit`. The thread that calls it is on no list, so its
`list_del` must find the links it left as they were. -/
theorem exitThread (hT : Threaded k A L) (hR : Registered k) (halive : k.Alive t)
    (ht : t ∉ k.timeoutList)
    (hstale : t = k.runningThread → (k.threads t).status = .running →
      listDel k.links (Sum.inr t) = k.links)
    (hexit : k.exitThread t = some k') : ∃ L', Removed A k L [t] k' L' := by
  simp only [Kernel.exitThread, Option.bind_eq_bind, Option.bind_eq_some_iff,
    Option.some.injEq] at hexit
  obtain ⟨k₁, hleave, rfl⟩ := hexit
  have hlinks : k₁.links = k.links := by
    obtain ⟨_, -, rfl⟩ := leaveTask_eq_some hleave
    rfl
  refine ⟨dequeue L t, Removed.single hT hR ht hleave ?_⟩
  rw [hlinks]
  by_cases hst : (k.threads t).status = .running
  · have hfree := hT.notMem_of_running hst
    rw [hstale (hT.running t hst).1 hst, dequeue_eq_self hfree]
    exact hT.rings
  · obtain ⟨g, hg⟩ := (hT.linked_iff t).mpr ⟨halive, hst⟩
    exact listDel_rings hT.rings hg

theorem threadDelete (hT : Threaded k A L) (hR : Registered k) (halive : k.Alive t)
    (ht : t ∉ k.timeoutList)
    (hrun : t = k.runningThread → (k.threads t).status = .running)
    (hdelete : k.threadDelete t = some k') : ∃ L', Removed A k L [t] k' L' := by
  simp only [Kernel.threadDelete, Option.bind_eq_bind, Option.bind_eq_some_iff,
    Option.some.injEq] at hdelete
  obtain ⟨k₁, hleave, task, -, hk'⟩ := hdelete
  have hsame : k₁.links = k.links ∧ k₁.runningThread = k.runningThread := by
    obtain ⟨_, -, rfl⟩ := leaveTask_eq_some hleave
    exact ⟨rfl, rfl⟩
  have hremoved : ∃ L', Removed A k L [t] ((k₁.unlinkOther t).terminate t) L' := by
    rw [unlinkOther]
    by_cases htr : t = k.runningThread
    · rw [if_neg (not_not.mpr (htr.trans hsame.2.symm))]
      have hfree := hT.notMem_of_running (hrun htr)
      refine ⟨_, Removed.single (s := k₁.links) hT hR ht hleave ?_⟩
      rw [hsame.1, dequeue_eq_self hfree]
      exact hT.rings
    · rw [if_pos fun h => htr (h.trans hsame.2)]
      obtain ⟨g, hg⟩ := hT.exists_mem halive htr
      refine ⟨_, Removed.single hT hR ht hleave ?_⟩
      rw [hsame.1]
      exact listDel_rings hT.rings hg
  obtain ⟨L', hL'⟩ := hremoved
  refine ⟨L', ?_⟩
  rw [← hk']
  exact hL'.dropEmptyTask

end Threaded

/-- What the record of a thread says as long as it lives: its task and its kind. -/
structure SameRecord (i j : ThreadInfo) : Prop where
  task : j.task = i.task
  kernelThread : j.kernelThread = i.kernelThread
  guarded : i.Guarded → j.Guarded

namespace SameRecord

theorem refl (i : ThreadInfo) : SameRecord i i := ⟨rfl, rfl, id⟩

theorem trans {i j l : ThreadInfo} (h : SameRecord i j) (h' : SameRecord j l) : SameRecord i l :=
  ⟨h'.task.trans h.task, h'.kernelThread.trans h.kernelThread, h'.guarded ∘ h.guarded⟩

theorem of_eq {i j : ThreadInfo} (htask : j.task = i.task)
    (hkind : j.kernelThread = i.kernelThread) (hprivilege : j.privilege = i.privilege) :
    SameRecord i j :=
  ⟨htask, hkind, fun h hj => by rw [hprivilege]; exact h (hkind ▸ hj)⟩

end SameRecord

/-- Only the links and the entry of one thread change. -/
structure Touched (t : Tid) (k k' : Kernel) : Prop where
  rest : k' = { k with links := k'.links, threads := k'.threads }
  threads : ∀ u, u ≠ t → k'.threads u = k.threads u
  record : SameRecord (k.threads t) (k'.threads t)
  pollTimed : (k'.threads t).pollTimed = (k.threads t).pollTimed

namespace Touched

theorem refl (t : Tid) (k : Kernel) : Touched t k k :=
  ⟨rfl, fun _ _ => rfl, SameRecord.refl _, rfl⟩

theorem trans {k'' : Kernel} (h : Touched t k k') (h' : Touched t k' k'') : Touched t k k'' where
  rest := by rw [h'.rest, h.rest]
  threads u hu := (h'.threads u hu).trans (h.threads u hu)
  record := h.record.trans h'.record
  pollTimed := h'.pollTimed.trans h.pollTimed

theorem setThread (s : Cells ListNode) (f : ThreadInfo → ThreadInfo)
    (hf : ∀ i, SameRecord i (f i) ∧ (f i).pollTimed = i.pollTimed) :
    Touched t k ({ k with links := s }.setThread t f) where
  rest := rfl
  threads u hu := by simp [Kernel.setThread, hu]
  record := by simpa [Kernel.setThread] using (hf _).1
  pollTimed := by simp [Kernel.setThread, hf]

theorem makeReady (t : Tid) (k : Kernel) : Touched t k (k.makeReady t) :=
  setThread _ (fun i => { i with status := .ready }) fun _ => ⟨.of_eq rfl rfl rfl, rfl⟩

theorem prepareToWait (t : Tid) (k : Kernel) (h : SchedList) (state : ThreadStatus) :
    Touched t k (k.prepareToWait h t state) :=
  setThread _ (fun i => { i with status := state }) fun _ => ⟨.of_eq rfl rfl rfl, rfl⟩

theorem finishWait (t : Tid) (k : Kernel) : Touched t k (k.finishWait t) := by
  rw [Kernel.finishWait]
  split
  · exact makeReady t k
  · exact refl t k

theorem endSigwait (t : Tid) (k : Kernel) (sig : Signal) : Touched t k (k.endSigwait t sig) := by
  rw [Kernel.endSigwait]
  split
  · exact (setThread k.links (fun i => { i with waitForSignal := false })
      fun _ => ⟨.of_eq rfl rfl rfl, rfl⟩).trans (finishWait t _)
  · exact refl t k

theorem registered (h : Touched t k k') (hR : Registered k) : Registered k' := by
  have hinfo : ∀ u, (k'.threads u).task = (k.threads u).task ∧
      (k'.threads u).pollTimed = (k.threads u).pollTimed := by
    intro u
    by_cases hu : u = t
    · exact hu ▸ ⟨h.record.task, h.pollTimed⟩
    · rw [h.threads u hu]
      exact ⟨rfl, rfl⟩
  rw [h.rest]
  exact hR.of_same rfl rfl rfl rfl hinfo

theorem alive (h : Touched t k k') : k'.Alive u ↔ k.Alive u := by rw [Alive, h.rest, Alive]

theorem runningThread (h : Touched t k k') : k'.runningThread = k.runningThread := by rw [h.rest]

end Touched

namespace Threaded

theorem endSigwait (hT : Threaded k A L) (ht : k.Alive t) (sig : Signal) :
    ∃ L', Threaded (k.endSigwait t sig) A L' ∧
      (∀ u h, u ≠ t → (u ∈ L' h ↔ u ∈ L h)) ∧ Files k L (k.endSigwait t sig) L' := by
  rw [Kernel.endSigwait]
  split
  · have hT₁ : Threaded (k.setThread t fun i => { i with waitForSignal := false }) A L :=
      hT.setThread fun _ => rfl
    have hfiles : Files k L (k.setThread t fun i => { i with waitForSignal := false }) L :=
      Files.setThread fun _ => ⟨rfl, rfl⟩
    rw [Kernel.finishWait]
    split
    · obtain ⟨g, hg⟩ := hT₁.exists_mem ht ‹_›
      refine ⟨_, hT₁.makeReady hg, fun u h hut => ?_, hfiles.trans (Files.makeReady hT₁ hg)⟩
      simp [hT₁.rings.mem_transfer, hut]
    · exact ⟨L, hT₁, fun _ _ _ => Iff.rfl, hfiles⟩
  · exact ⟨L, hT, fun _ _ _ => Iff.rfl, Files.refl k L⟩

theorem endSigwait_running (sig : Signal) (ht : t = k.runningThread) :
    ((k.endSigwait t sig).threads t).status = (k.threads t).status := by
  subst ht
  rw [Kernel.endSigwait]
  split
  · simp [Kernel.finishWait, Kernel.setThread]
  · rfl

theorem suspend_inUse : SchedList.suspend ∈ inUse A := by simp [inUse, SchedList.owner]

theorem handleSignal_stop (hT : Threaded k A L) (ht : k.Alive t) (hstop : k.Stoppable t) :
    ∃ L', Threaded ((k.endSigwait t .stop).threadSuspend t) A L' ∧
      Files k L ((k.endSigwait t .stop).threadSuspend t) L' := by
  obtain ⟨hrun, hst⟩ | ⟨hst, hwait⟩ := hstop
  · obtain ⟨L', hT', -, hfiles⟩ := hT.endSigwait ht .stop
    have hst' := (endSigwait_running .stop hrun).trans hst
    rw [threadSuspend, if_neg (by simp [hst'])]
    exact ⟨_, hT'.prepareToWait suspend_inUse hst' (by simp) (by simp),
      hfiles.trans (Files.prepareToWait hT' hst' (by simp))⟩
  · rw [Kernel.endSigwait, if_neg hwait, threadSuspend, if_pos hst]
    exact ⟨L, hT, Files.refl k L⟩

theorem handleSignal_cont (hT : Threaded k A L) (ht : k.Alive t) :
    ∃ L', Threaded ((k.endSigwait t .cont).threadResume t) A L' ∧
      Files k L ((k.endSigwait t .cont).threadResume t) L' := by
  obtain ⟨L', hT', -, hfiles⟩ := hT.endSigwait ht .cont
  have ht' := (Touched.endSigwait t k .cont).alive.mpr ht
  rw [threadResume]
  split
  · exact ⟨L', hT', hfiles⟩
  · next hst =>
      obtain ⟨g, hg⟩ := (hT'.linked_iff t).mpr ⟨ht', fun h => hst (by simp [h])⟩
      exact ⟨_, hT'.makeReady hg, hfiles.trans (Files.makeReady hT' hg)⟩

theorem handleSignal_kill (hT : Threaded k A L) (hR : Registered k) (halive : k.Alive t)
    (ht : t ∉ k.timeoutList) (hrun : t = k.runningThread → (k.threads t).status = .running)
    (hkill : (k.endSigwait t .kill).threadDelete t = some k') :
    ∃ L', Removed A k L [t] k' L' := by
  obtain ⟨L₁, hT₁, hL₁, -⟩ := hT.endSigwait halive .kill
  have htouched := Touched.endSigwait t k .kill
  have htimeouts : (k.endSigwait t .kill).timeoutList = k.timeoutList := by rw [htouched.rest]
  obtain ⟨L', hL'⟩ := hT₁.threadDelete (htouched.registered hR) (htouched.alive.mpr halive)
    (htimeouts ▸ ht) (fun h => (endSigwait_running .kill (h.trans htouched.runningThread)).trans
      (hrun (h.trans htouched.runningThread))) hkill
  refine ⟨L', hL'.threaded, hL'.registered, fun u h => ?_, fun u => ?_,
    hL'.timeoutList.trans htimeouts, hL'.runningThread.trans htouched.runningThread,
    fun u hu => ?_⟩
  · rw [hL'.mem, List.mem_singleton]
    exact and_congr_right fun hut => hL₁ u h hut
  · rw [hL'.alive, htouched.alive]
  · exact (hL'.threads u hu).trans (htouched.threads u (by simpa using hu))

theorem foldlM_touched {f : Kernel → Tid → Option Kernel} {T : List Tid} (hT : Threaded k A L)
    (ok : Kernel → Tid → Prop) (hR : Registered k) (hnodup : T.Nodup)
    (halive : ∀ t ∈ T, k.Alive t) (hok : ∀ t ∈ T, ok k t)
    (hframe : ∀ k k' t u, Touched t k k' → u ≠ t → ok k u → ok k' u)
    (hstep : ∀ k L t k', Threaded k A L → k.Alive t → ok k t → f k t = some k' →
      (∃ L', Threaded k' A L' ∧ Files k L k' L') ∧ Touched t k k')
    (hrun : T.foldlM f k = some k') : (∃ L', Threaded k' A L' ∧ Files k L k' L') ∧
      Registered k' ∧ k'.bitmapThreads = k.bitmapThreads := by
  induction T generalizing k L with
  | nil =>
      obtain rfl : k = k' := by simpa using hrun
      exact ⟨⟨L, hT, Files.refl k L⟩, hR, rfl⟩
  | cons t T ih =>
      rw [List.foldlM_cons, Option.bind_eq_bind, Option.bind_eq_some_iff] at hrun
      obtain ⟨k₁, hk₁, hrest⟩ := hrun
      obtain ⟨htT, hnodup⟩ := List.nodup_cons.mp hnodup
      obtain ⟨⟨L₁, hT₁, hfiles₁⟩, htouched⟩ := hstep k L t k₁ hT (halive t List.mem_cons_self)
        (hok t List.mem_cons_self) hk₁
      have hmem : ∀ u ∈ T, u ≠ t := fun u hu hut => htT (hut ▸ hu)
      obtain ⟨⟨L', hT', hfiles⟩, hR', hbitmap⟩ := ih hT₁ (htouched.registered hR) hnodup
        (fun u hu => htouched.alive.mpr (halive u (List.mem_cons_of_mem _ hu)))
        (fun u hu => hframe k k₁ t u htouched (hmem u hu) (hok u (List.mem_cons_of_mem _ hu))) hrest
      exact ⟨⟨L', hT', hfiles₁.trans hfiles⟩, hR', hbitmap.trans (by rw [htouched.rest])⟩

theorem stoppable_frame {k k' : Kernel} (htouched : Touched t k k') (hut : u ≠ t)
    (h : k.Stoppable u) : k'.Stoppable u := by
  simpa only [Stoppable, htouched.threads u hut, htouched.runningThread] using h

theorem threadJoinHandler_wakes (hT : Threaded k A L) (hR : Registered k)
    (hst : (k.threads k.runningThread).status = .running) (hjoin : .join k.runningThread ∈ inUse A)
    (ht : k.runningThread ∉ k.timeoutList) (hhandler : k.threadJoinHandler = some k') :
    ∃ k₁ L', Wakes {.join k.runningThread} k L k₁ L' ∧ L' (.join k.runningThread) = [] ∧
      (∀ t ∈ L (.join k.runningThread),
        (k₁.threads t).status = .ready ∧ ∃ p, t ∈ L' (.ready p)) ∧
      Removed A k₁ L' [k.runningThread] k' L' := by
  have hfree := hT.notMem_of_running hst
  obtain ⟨k₁, L₁, hk₁, hT₁, hW, hL₁, hready, -⟩ := hT.wakeLoop Kernel.finishWait
    (fun t => decide (t ≠ k.runningThread)) hjoin (by simp) fun k' L' t hW => by
      simp [Kernel.finishWait, hW.runningThread]
  have hother : ∀ t ∈ L (.join k.runningThread), t ≠ k.runningThread :=
    fun t ht h => hfree _ (h ▸ ht)
  have hempty : L₁ (.join k.runningThread) = [] := by
    rw [hL₁, List.filter_eq_nil_iff]
    intro t ht
    simpa using hother t ht
  obtain ⟨hfree₁, hinfo⟩ := hW.free k.runningThread hfree
  simp only [Kernel.threadJoinHandler, hk₁, Option.bind_eq_bind, Option.bind_some,
    Option.bind_eq_some_iff, Option.some.injEq] at hhandler
  obtain ⟨task, -, k₂, hleave, rfl⟩ := hhandler
  rw [hW.runningThread] at hleave
  have hrun₂ : k₂.runningThread = k.runningThread := by
    obtain ⟨_, -, rfl⟩ := leaveTask_eq_some hleave
    rw [dropEmptyTask_eq]
    exact hW.runningThread
  have htimeouts : k.runningThread ∉ (k₁.dropEmptyTask task).timeoutList := by
    rw [dropEmptyTask_eq, hW.rest]
    exact ht
  have hlinks : k₂.links = k₁.links := by
    obtain ⟨_, -, rfl⟩ := leaveTask_eq_some hleave
    rw [dropEmptyTask_eq]
  have hremoved := Removed.single (s := k₂.links) (hT₁.dropEmptyTask task)
    ((hW.registered hR).dropEmptyTask task) htimeouts hleave (by
      rw [hlinks, dequeue_eq_self hfree₁]
      exact hT₁.rings)
  rw [dequeue_eq_self hfree₁] at hremoved
  rw [hrun₂]
  have halive := hremoved.alive
  have htimeoutList := hremoved.timeoutList
  have hrunning := hremoved.runningThread
  have hthreads := hremoved.threads
  rw [dropEmptyTask_eq] at halive htimeoutList hrunning hthreads
  exact ⟨k₁, L₁, hW, hempty, fun t ht => hready t ht (by simpa using hother t ht),
    hremoved.threaded, hremoved.registered, hremoved.mem, halive, htimeoutList, hrunning, hthreads⟩

theorem inUse_insert {t : Tid} : inUse (insert t A) = insert (.join t)
    (insert (.wait (.pipeWrite t)) (insert (.wait (.pipeRead t)) (inUse A))) := by
  ext h
  cases h with
  | wait q => cases q <;> simp [inUse, SchedList.owner]
  | _ => simp [inUse, SchedList.owner]

theorem initThreadLists (hT : Threaded k A L) (ht : t ∉ A) :
    Rings (k.initThreadLists t).links (inUse (insert t A)) L := by
  have howner : ∀ h : SchedList, h.owner = some t → h ∉ inUse A := fun h ho hh => ht (hh t ho)
  rw [inUse_insert]
  refine initListHead_rings (initListHead_rings (initListHead_rings hT.rings ?_) ?_) ?_
  · exact howner _ rfl
  · simpa using howner _ rfl
  · simpa using howner _ rfl

theorem create (hT : Threaded k A L) (ht : t ∉ A) (hdead : ¬ k.Alive t) (hmax : t < threadMax)
    (hlinks : k'.links =
      listAdd (k.initThreadLists t).links (Sum.inr t) (Sum.inl SchedList.sleep))
    (hthreads : ∀ u, u ≠ t → k'.threads u = k.threads u) (hst : (k'.threads t).status = .wait)
    (hbitmap : k'.bitmapThreads = Function.update k.bitmapThreads t true)
    (hrun : k'.runningThread = k.runningThread) :
    Threaded k' (insert t A) (enqueue L t .sleep) := by
  have hfree : ∀ h, t ∉ L h := fun h hmem => hdead (hT.alive hmem)
  have halive : ∀ u, k'.Alive u ↔ u = t ∨ k.Alive u := by
    intro u
    by_cases hut : u = t
    · simp [Alive, hbitmap, hut]
    · simp [Alive, hbitmap, hut]
  refine ⟨?_, fun u => ?_, fun u hu => ?_, fun u hu => ?_, fun u hu => ?_⟩
  · rw [hlinks]
    exact listAdd_rings (hT.initThreadLists ht) sleep_inUse hfree
  · rw [halive]
    by_cases hut : u = t
    · subst hut
      simp [hst, mem_enqueue]
    · simp only [mem_enqueue, hut, false_and, or_false, false_or, hthreads u hut]
      exact hT.linked_iff u
  · rw [halive, hrun]
    by_cases hut : u = t
    · rw [hut, hst] at hu
      cases hu
    · rw [hthreads u hut] at hu
      exact ⟨(hT.running u hu).1, Or.inr (hT.running u hu).2⟩
  · obtain rfl | hu := (halive u).mp hu
    · exact hmax
    · exact hT.lt_max u hu
  · rw [mem_enqueue] at hu
    exact hT.not_self u (hu.resolve_right (by simp))

end Threaded

theorem Registered.create (hR : Registered k) (hdead : ¬ k.Alive t)
    (hthreads : ∀ u, u ≠ t → k'.threads u = k.threads u)
    (hbitmap : k'.bitmapThreads = Function.update k.bitmapThreads t true)
    (hlist : k'.threadsList = k.threadsList ++ [t]) (htasks : k'.taskThreads = k.taskThreads)
    (htimeouts : k'.timeoutList = k.timeoutList) : Registered k' := by
  have hother : ∀ u, k.Alive u → u ≠ t ∧ k'.Alive u := by
    intro u hu
    have hut : u ≠ t := fun hut => hdead (hut ▸ hu)
    exact ⟨hut, by simpa [Alive, hbitmap, hut] using hu⟩
  have hself : k'.Alive t := by simp [Alive, hbitmap]
  refine ⟨?_, fun p => ?_, ?_⟩
  · rw [hlist]
    refine ⟨?_, fun u hu => ?_⟩
    · refine hR.threadsList.1.append (List.nodup_singleton t) ?_
      simpa using fun h => hdead (hR.threadsList.2 t h)
    · simp only [List.mem_append, List.mem_singleton] at hu
      obtain hu | rfl := hu
      · exact (hother u (hR.threadsList.2 u hu)).2
      · exact hself
  · rw [htasks]
    refine ⟨(hR.taskThreads p).1, fun u hu => ?_⟩
    obtain ⟨halive, htask⟩ := (hR.taskThreads p).2 u hu
    obtain ⟨hut, hu'⟩ := hother u halive
    exact ⟨hu', by rw [hthreads u hut, htask]⟩
  · rw [htimeouts]
    refine ⟨hR.timeoutList.1, fun u hu => ?_⟩
    obtain ⟨halive, hpoll⟩ := hR.timeoutList.2 u hu
    obtain ⟨hut, hu'⟩ := hother u halive
    exact ⟨hu', by rw [hthreads u hut, hpoll]⟩

theorem Registered.enterTask (hR : Registered k) (task : Pid) {l : List Tid} (ht : k.Alive t)
    (hnew : ∀ p, t ∉ k.taskThreads p) (hnodup : l.Nodup)
    (hl : ∀ u ∈ l, u = t ∨ u ∈ k.taskThreads task) :
    Registered (k.enterTask t task l) := by
  refine ⟨hR.threadsList, fun p => ?_, hR.timeoutList.1, fun u hu => ?_⟩
  · change (Function.update k.taskThreads task l p).Nodup ∧
      ∀ u ∈ Function.update k.taskThreads task l p, _
    by_cases hp : p = task
    · subst hp
      rw [Function.update_self]
      refine ⟨hnodup, fun u hu => ?_⟩
      by_cases hut : u = t
      · subst hut
        exact ⟨ht, by simp [Kernel.enterTask, Kernel.setThread]⟩
      · obtain ⟨halive, htask⟩ := (hR.taskThreads p).2 u ((hl u hu).resolve_left hut)
        exact ⟨halive, by simpa [Kernel.enterTask, Kernel.setThread, hut] using htask⟩
    · rw [Function.update_of_ne hp]
      refine ⟨(hR.taskThreads p).1, fun u hu => ?_⟩
      have hut : u ≠ t := fun hut => hnew p (hut ▸ hu)
      obtain ⟨halive, htask⟩ := (hR.taskThreads p).2 u hu
      exact ⟨halive, by simpa [Kernel.enterTask, Kernel.setThread, hut] using htask⟩
  · obtain ⟨halive, hpoll⟩ := hR.timeoutList.2 u hu
    refine ⟨halive, ?_⟩
    by_cases hut : u = t
    · subst hut
      simpa [Kernel.enterTask, Kernel.setThread] using hpoll
    · simpa [Kernel.enterTask, Kernel.setThread, hut] using hpoll

theorem status_enterTask (task : Pid) (l : List Tid) (u : Tid) :
    ((k.enterTask t task l).threads u).status = (k.threads u).status :=
  Threaded.status_setThread (f := fun i => { i with task := some task }) (fun _ => rfl) u

theorem Threaded.enterTask {task : Pid} {l : List Tid} (hT : Threaded k A L) :
    Threaded (k.enterTask t task l) A L :=
  hT.of_status rfl rfl rfl (status_enterTask task l)

/-- Between two calls: the lists in use are those of the live threads. -/
def Consistent (k : Kernel) : Prop :=
  ∃ L, k.Threaded {t | k.Alive t} L ∧ k.Registered

theorem threadCreate_cases (k : Kernel) (attr : ThreadAttr) (kernelThread stack : Bool) :
    (∃ e, k.threadCreate attr kernelThread stack = (k, .error e)) ∨
    ∃ tid, tid < threadMax ∧ ¬ k.Alive tid ∧
      (k.threadCreate attr kernelThread stack =
          (k.setThread tid fun _ => {}, .error .enomem) ∨
        ∃ k', k.threadCreate attr kernelThread stack = (k', .ok tid) ∧
          k'.links = listAdd (k.initThreadLists tid).links (Sum.inr tid)
            (Sum.inl SchedList.sleep) ∧
          (∀ u, u ≠ tid → k'.threads u = k.threads u) ∧ (k'.threads tid).status = .wait ∧
          k'.bitmapThreads = Function.update k.bitmapThreads tid true ∧
          k'.threadsList = k.threadsList ++ [tid] ∧ k'.taskThreads = k.taskThreads ∧
          k'.timeoutList = k.timeoutList ∧ k'.runningThread = k.runningThread) := by
  simp only [threadCreate]
  split
  · exact Or.inl ⟨_, rfl⟩
  · split
    · exact Or.inl ⟨_, rfl⟩
    · next tid hfind =>
        have hfree := List.find?_some hfind
        have hlt := List.mem_range.mp (List.mem_of_find?_eq_some hfind)
        refine Or.inr ⟨tid, hlt, by simpa [Alive] using hfree, ?_⟩
        split
        · refine Or.inr ⟨_, rfl, rfl, fun u hu => ?_, ?_, rfl, rfl, rfl, rfl, rfl⟩
          · simp [setupThread, setThread, initThreadLists, hu]
          · simp [setupThread, setThread]
        · exact Or.inl rfl

theorem sysPthreadCreate_cases {attr : Option ThreadAttr} {stack : Bool} {r : Except Errno Tid}
    (hcreate : k.sysPthreadCreate attr stack = some (k', r)) : ∃ attr kernelThread,
      (∃ e, k.threadCreate attr kernelThread stack = (k', .error e)) ∨
      ∃ k₁ tid task, k.threadCreate attr kernelThread stack = (k₁, .ok tid) ∧
        k.currentTaskInfo = some task ∧
        k' = k₁.enterTask tid task (k₁.taskThreads task ++ [tid]) := by
  simp only [sysPthreadCreate] at hcreate
  split at hcreate
  · next k₁ e hk₁ =>
      obtain ⟨rfl, -⟩ := Prod.mk.inj (Option.some.inj hcreate)
      exact ⟨_, _, Or.inl ⟨e, hk₁⟩⟩
  · next k₁ tid hk₁ =>
      obtain ⟨task, htask, hcreate⟩ := Option.bind_eq_some_iff.mp hcreate
      obtain ⟨rfl, -⟩ := Prod.mk.inj (Option.some.inj hcreate)
      exact ⟨_, _, Or.inr ⟨k₁, tid, task, hk₁, htask, rfl⟩⟩

theorem taskCreate_cases {priority : Int} {kernelThread stack : Bool} {r : Option Pid}
    (hcreate : k.taskCreate priority kernelThread stack = (k', r)) :
    (∃ r, k.threadCreate { schedPriority := priority } kernelThread stack = (k', r)) ∨
      ∃ k₁ tid pid,
        k.threadCreate { schedPriority := priority } kernelThread stack = (k₁, .ok tid) ∧
          k₁.bitmapTasks pid = false ∧
          k' = { k₁.enterTask tid pid [tid] with
            bitmapTasks := Function.update k₁.bitmapTasks pid true
            mainThread := Function.update k₁.mainThread pid tid
            tasksList := k₁.tasksList ++ [pid] } := by
  simp only [taskCreate] at hcreate
  split at hcreate
  · next k₁ e hk₁ =>
      obtain ⟨rfl, -⟩ := Prod.mk.inj hcreate
      exact Or.inl ⟨_, hk₁⟩
  · next k₁ tid hk₁ =>
      split at hcreate
      · obtain ⟨rfl, -⟩ := Prod.mk.inj hcreate
        exact Or.inl ⟨_, hk₁⟩
      · next pid hpid =>
          obtain ⟨rfl, -⟩ := Prod.mk.inj hcreate
          exact Or.inr ⟨k₁, tid, pid, hk₁, by simpa using List.find?_some hpid, rfl⟩

theorem Threaded.zeroSlot {A : Set Tid} (hT : Threaded k A L) (ht : ¬ k.Alive t) :
    Threaded (k.setThread t fun _ => {}) A L where
  rings := hT.rings
  linked_iff u := by
    by_cases hut : u = t
    · subst hut
      exact iff_of_false (fun ⟨h, hu⟩ => ht (hT.alive hu)) fun h => ht h.1
    · simpa [Alive, Kernel.setThread, hut] using hT.linked_iff u
  running u hu := by
    by_cases hut : u = t
    · simp [Kernel.setThread, hut] at hu
    · exact hT.running u (by simpa [Kernel.setThread, hut] using hu)
  lt_max := hT.lt_max
  not_self := hT.not_self

theorem Registered.zeroSlot (hR : Registered k) (ht : ¬ k.Alive t) :
    Registered (k.setThread t fun _ => {}) := by
  have hother : ∀ u, k.Alive u → (k.setThread t fun _ => {}).threads u = k.threads u :=
    fun u hu => by simp [Kernel.setThread, show u ≠ t from fun hut => ht (hut ▸ hu)]
  refine ⟨hR.threadsList, fun p => ⟨(hR.taskThreads p).1, fun u hu => ?_⟩, hR.timeoutList.1,
    fun u hu => ?_⟩
  · have hu' := (hR.taskThreads p).2 u hu
    rw [hother u hu'.1]
    exact hu'
  · have hu' := hR.timeoutList.2 u hu
    rw [hother u hu'.1]
    exact hu'

theorem threadCreate_spec {attr : ThreadAttr} {kernelThread stack : Bool} {r : Except Errno Tid}
    (hT : Threaded k {t | k.Alive t} L) (hR : Registered k)
    (hcreate : k.threadCreate attr kernelThread stack = (k', r)) :
    Consistent k' ∧ k'.runningThread = k.runningThread ∧
      ((∀ u, (k.threads u).status ≠ .running) → ∀ u, (k'.threads u).status ≠ .running) ∧
      ∀ tid, r = .ok tid → k'.Alive tid ∧ ∀ p, tid ∉ k'.taskThreads p := by
  obtain ⟨e, he⟩ | ⟨tid, hlt, hdead, he | ⟨k₁, he, hlinks, hthreads, hst, hbitmap, hlist, htasks,
    htimeouts, hrun⟩⟩ := threadCreate_cases k attr kernelThread stack
  · obtain ⟨rfl, rfl⟩ := Prod.mk.inj (he.symm.trans hcreate)
    exact ⟨⟨L, hT, hR⟩, rfl, id, by simp⟩
  · obtain ⟨rfl, rfl⟩ := Prod.mk.inj (he.symm.trans hcreate)
    refine ⟨⟨L, hT.zeroSlot hdead, hR.zeroSlot hdead⟩, rfl, fun hidle u => ?_, by simp⟩
    by_cases hut : u = tid
    · simp [setThread, hut]
    · simpa [setThread, hut] using hidle u
  · obtain ⟨rfl, rfl⟩ := Prod.mk.inj (he.symm.trans hcreate)
    have hin : {t | k₁.Alive t} = insert tid {t | k.Alive t} := by
      ext u
      by_cases hut : u = tid
      · simp [Alive, hbitmap, hut]
      · simp [Alive, hbitmap, hut]
    have hT₁ := hT.create hdead hdead hlt hlinks hthreads hst hbitmap hrun
    rw [← hin] at hT₁
    refine ⟨⟨_, hT₁, hR.create hdead hthreads hbitmap hlist htasks htimeouts⟩, hrun,
      fun hidle u => ?_, fun t ht => ?_⟩
    · by_cases hut : u = tid
      · simp [hut, hst]
      · rw [hthreads u hut]
        exact hidle u
    · obtain rfl : tid = t := by simpa using ht
      refine ⟨by simp [Alive, hbitmap], fun p hp => ?_⟩
      rw [htasks] at hp
      exact hdead ((hR.taskThreads p).2 _ hp).1

theorem Consistent.setThread {f : ThreadInfo → ThreadInfo} (h : Consistent k)
    (hf : ∀ i, (f i).status = i.status ∧ (f i).task = i.task ∧ (f i).pollTimed = i.pollTimed) :
    Consistent (k.setThread t f) := by
  obtain ⟨L, hT, hR⟩ := h
  exact ⟨L, hT.setThread fun i => (hf i).1, hR.setThread fun i => (hf i).2⟩

theorem taskCreate_spec {priority : Int} {kernelThread stack : Bool} {r : Option Pid}
    (h : Consistent k) (hcreate : k.taskCreate priority kernelThread stack = (k', r)) :
    Consistent k' ∧ k'.runningThread = k.runningThread ∧
      ((∀ u, (k.threads u).status ≠ .running) → ∀ u, (k'.threads u).status ≠ .running) := by
  obtain ⟨L, hT, hR⟩ := h
  obtain ⟨_, hk₁⟩ | ⟨k₁, tid, pid, hk₁, -, rfl⟩ := taskCreate_cases hcreate
  · obtain ⟨hinv, hrun, hidle, -⟩ := threadCreate_spec hT hR hk₁
    exact ⟨hinv, hrun, hidle⟩
  · obtain ⟨⟨L₁, hT₁, hR₁⟩, hrun, hidle, hnew⟩ := threadCreate_spec hT hR hk₁
    obtain ⟨halive, hfresh⟩ := hnew tid rfl
    have hreg := hR₁.enterTask pid halive hfresh (List.nodup_singleton tid) (by simp)
    have hT₂ : Threaded (k₁.enterTask tid pid [tid]) _ L₁ := hT₁.enterTask
    refine ⟨⟨L₁, hT₂.of_status rfl rfl rfl fun _ => rfl,
      hreg.of_same rfl rfl rfl rfl fun _ => ⟨rfl, rfl⟩⟩, hrun, fun hall u => ?_⟩
    exact (status_enterTask pid [tid] u).trans_ne (hidle hall u)

theorem sysPthreadCreate_spec {attr : Option ThreadAttr} {stack : Bool} {r : Except Errno Tid}
    (h : Consistent k) (hcreate : k.sysPthreadCreate attr stack = some (k', r)) :
    Consistent k' := by
  obtain ⟨L, hT, hR⟩ := h
  obtain ⟨_, _, ⟨_, hk₁⟩ | ⟨k₁, tid, task, hk₁, -, rfl⟩⟩ := sysPthreadCreate_cases hcreate
  · exact (threadCreate_spec hT hR hk₁).1
  · obtain ⟨⟨L₁, hT₁, hR₁⟩, -, -, hnew⟩ := threadCreate_spec hT hR hk₁
    obtain ⟨halive, hfresh⟩ := hnew tid rfl
    refine ⟨L₁, hT₁.enterTask, hR₁.enterTask task halive hfresh ?_ ?_⟩
    · refine (hR₁.taskThreads task).1.append (List.nodup_singleton tid) ?_
      simpa using hfresh task
    · intro u hu
      simpa [or_comm] using hu

/-- The threads of the kernel are there and none executes yet. -/
structure Booting (k : Kernel) : Prop where
  inv : Consistent k
  idle : ∀ u, (k.threads u).status ≠ .running

theorem Booting.kthreadCreate (h : Booting k) (priority : Int) :
    Booting (k.kthreadCreate priority) := by
  obtain ⟨hinv, -, hidle⟩ := taskCreate_spec (r := (k.taskCreate priority true true).2) h.inv rfl
  exact ⟨hinv, hidle h.idle⟩

theorem booting_reset : Booting reset := by
  refine ⟨⟨fun _ => [], ⟨⟨fun h _ => ?_, by simp, by simp⟩, ?_, ?_, ?_, by simp⟩, ?_⟩, ?_⟩
  · exact ⟨⟨rfl, rfl⟩, List.pairwise_singleton ..⟩
  · simp [Alive, reset]
  · simp [reset]
  · simp [Alive, reset]
  · exact ⟨by simp [reset], by simp [reset], by simp [reset]⟩
  · simp [reset]

theorem schedStart_spec : Consistent schedStart := by
  have hboot := (((booting_reset.kthreadCreate 0).kthreadCreate kthreadPriMax).kthreadCreate
    (kthreadPriMax - 1)).kthreadCreate (kthreadPriMax - 1)
  obtain ⟨⟨L, hT, hR⟩, hidle⟩ := hboot
  have halive : Alive ((((reset.kthreadCreate 0).kthreadCreate kthreadPriMax).kthreadCreate
    (kthreadPriMax - 1)).kthreadCreate (kthreadPriMax - 1)) 0 := by
    simp only [Alive]
    decide +kernel
  obtain ⟨h, hmem⟩ := (hT.linked_iff 0).mpr ⟨halive, hidle 0⟩
  exact ⟨_, hT.dispatch hidle hmem, Registered.of_same hR rfl rfl rfl rfl fun t => by
    by_cases ht : t = 0
    · subst ht
      exact ⟨rfl, rfl⟩
    · simp [schedStart, setStatus, setThread, ht]⟩

end Kernel

end Tenok
