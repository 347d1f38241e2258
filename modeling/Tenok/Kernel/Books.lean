import Tenok.Kernel.KernelRuns

/-!
The books of the kernel: which thread and task IDs are taken, which threads a task has and
which tasks there are. Most steps do not touch them, whatever state the scheduling lists
are in; what the others do to them is said here once.
-/
namespace Tenok
open Ring

namespace Kernel
variable {k k' k'' : Kernel} {t u : Tid} {h : SchedList}

theorem forEachSafe_induct {body : Kernel → Tid → Kernel} {P : Kernel → Prop} (hk : P k)
    (hbody : ∀ k t, P k → P (body k t)) (hloop : k.forEachSafe h body = some k') : P k' := by
  refine listForEachSafe_induct (P := P) hk (fun k pos k' hk hk' => ?_) hloop
  obtain ⟨t, -, rfl⟩ := Option.map_eq_some_iff.mp hk'
  exact hbody k t hk

theorem forEachEntry_induct {τ : Type} {body : τ → Tid → τ} {acc r : τ} {P : τ → Prop}
    (hacc : P acc) (hbody : ∀ acc t, P acc → P (body acc t))
    (hloop : k.forEachEntry h body acc = some r) : P r := by
  obtain ⟨o, hscan, hr⟩ := Option.bind_eq_some_iff.mp hloop
  clear hloop
  generalize next k.links (.inl h) = pos at hscan
  generalize loopBound = n at hscan
  induction n generalizing acc pos with
  | zero => cases hscan
  | succ n ih =>
      rw [listForEach] at hscan
      split at hscan
      · obtain rfl := Option.some.inj hscan
        obtain rfl := Option.some.inj hr
        exact hacc
      · split at hscan
        · next acc' heq =>
            rw [onEntry] at heq
            split at heq
            · next t _ =>
                obtain rfl := Sum.inl.inj heq
                exact ih (hbody acc t hacc) _ hscan
            · cases heq
        · obtain rfl := Option.some.inj hscan
          cases hr

structure SameBooks (k k' : Kernel) : Prop where
  bitmapThreads : k'.bitmapThreads = k.bitmapThreads
  threadsList : k'.threadsList = k.threadsList
  bitmapTasks : k'.bitmapTasks = k.bitmapTasks
  tasksList : k'.tasksList = k.tasksList
  taskThreads : k'.taskThreads = k.taskThreads
  record : ∀ t, SameRecord (k.threads t) (k'.threads t)

namespace SameBooks

theorem task (h : SameBooks k k') (t : Tid) : (k'.threads t).task = (k.threads t).task :=
  (h.record t).task

theorem refl (k : Kernel) : SameBooks k k := ⟨rfl, rfl, rfl, rfl, rfl, fun _ => .refl _⟩

theorem trans (h : SameBooks k k') (h' : SameBooks k' k'') : SameBooks k k'' where
  bitmapThreads := h'.bitmapThreads.trans h.bitmapThreads
  threadsList := h'.threadsList.trans h.threadsList
  bitmapTasks := h'.bitmapTasks.trans h.bitmapTasks
  tasksList := h'.tasksList.trans h.tasksList
  taskThreads := h'.taskThreads.trans h.taskThreads
  record t := (h.record t).trans (h'.record t)

theorem of_touched (h : Touched t k k') : SameBooks k k' := by
  have hrecord : ∀ u, SameRecord (k.threads u) (k'.threads u) := fun u => by
    by_cases hu : u = t
    · exact hu ▸ h.record
    · rw [h.threads u hu]
      exact .refl _
  rw [h.rest]
  exact ⟨rfl, rfl, rfl, rfl, rfl, hrecord⟩

theorem setThread {f : ThreadInfo → ThreadInfo} (hf : ∀ i, SameRecord i (f i)) :
    SameBooks k (k.setThread t f) := by
  refine ⟨rfl, rfl, rfl, rfl, rfl, fun u => ?_⟩
  by_cases hu : u = t
  · subst hu
    simpa [Kernel.setThread] using hf _
  · simpa [Kernel.setThread, hu] using SameRecord.refl _

theorem prepareToWait (k : Kernel) (h : SchedList) (t : Tid) (state : ThreadStatus) :
    SameBooks k (k.prepareToWait h t state) :=
  of_touched (Touched.prepareToWait t k h state)

theorem makeReady (k : Kernel) (t : Tid) : SameBooks k (k.makeReady t) :=
  of_touched (Touched.makeReady t k)

theorem finishWait (k : Kernel) (t : Tid) : SameBooks k (k.finishWait t) :=
  of_touched (Touched.finishWait t k)

theorem forEachSafe {body : Kernel → Tid → Kernel} (hbody : ∀ k t, SameBooks k (body k t))
    (hloop : k.forEachSafe h body = some k') : SameBooks k k' :=
  forEachSafe_induct (P := SameBooks k) (refl k) (fun k₁ t hk₁ => hk₁.trans (hbody k₁ t)) hloop

theorem foldl {body : Kernel → Tid → Kernel} (hbody : ∀ k t, SameBooks k (body k t))
    (l : List Tid) : SameBooks k (l.foldl body k) := by
  induction l generalizing k with
  | nil => exact refl k
  | cons t l ih => exact (hbody k t).trans ih

theorem wakeUp (hwake : k.wakeUp h = some k') : SameBooks k k' := by
  rw [Kernel.wakeUp] at hwake
  split at hwake
  · obtain rfl := Option.some.inj hwake
    exact refl k
  · simp only [Option.bind_eq_bind, Option.bind_eq_some_iff, Option.some.injEq] at hwake
    obtain ⟨first, -, highest, -, rfl⟩ := hwake
    exact makeReady k highest

theorem wakeUpAll (hwake : k.wakeUpAll h = some k') : SameBooks k k' :=
  forEachSafe makeReady hwake

theorem fifoWakeUp {availSize : Nat} (hwake : k.fifoWakeUp h availSize = some k') :
    SameBooks k k' := by
  simp only [Kernel.fifoWakeUp, Option.bind_eq_bind, Option.bind_eq_some_iff,
    Option.some.injEq] at hwake
  obtain ⟨highest, -, rfl⟩ := hwake
  cases highest with
  | none => exact refl k
  | some t => exact finishWait k t

theorem pollNotify {polls : Tid → Bool} (hnotify : k.pollNotify polls = some k') :
    SameBooks k k' := by
  refine forEachSafe (fun k t => ?_) hnotify
  split
  · exact finishWait k t
  · exact refl k

theorem schedule (hsched : k.schedule = some k') : SameBooks k k' := by
  simp only [Kernel.schedule, Option.bind_eq_bind, Option.bind_eq_some_iff,
    Option.some.injEq] at hsched
  obtain ⟨k₁, hk₁, pri, -, thread, -, rfl⟩ := hsched
  have hstop : SameBooks k k.stopRunning := by
    rw [stopRunning]
    split
    · exact prepareToWait ..
    · exact refl k
  have hwake : SameBooks k.stopRunning k₁ := by
    refine forEachSafe (fun k t => ?_) hk₁
    split
    · exact makeReady k t
    · exact refl k
  have hrun : SameBooks k₁ ({ k₁ with runningThread := thread }.setStatus thread .running) := by
    have hset : SameBooks { k₁ with runningThread := thread }
      ({ k₁ with runningThread := thread }.setStatus thread .running) :=
      setThread (f := fun i => { i with status := .running }) fun _ => .of_eq rfl rfl rfl
    exact ⟨rfl, rfl, rfl, rfl, rfl, hset.record⟩
  have hall := (hstop.trans hwake).trans hrun
  exact ⟨hall.bitmapThreads, hall.threadsList, hall.bitmapTasks, hall.tasksList, hall.taskThreads,
    hall.record⟩

theorem systemTicks {expired : Tid → Bool} (hticks : k.systemTicksUpdate expired = some k') :
    SameBooks k k' := by
  simp only [systemTicksUpdate, threadsTicksUpdate, Option.bind_eq_bind, Option.bind_eq_some_iff,
    Option.some.injEq] at hticks
  obtain ⟨k₁, ⟨threads, hthreads, rfl⟩, rfl⟩ := hticks
  have hrecord : ∀ t, SameRecord (k.threads t) (threads t) := by
    refine forEachEntry_induct (P := fun threads => ∀ t, SameRecord (k.threads t) (threads t))
      (fun _ => .refl _) (fun acc u hacc t => ?_) hthreads
    by_cases ht : t = u
    · subst ht
      rw [Function.update_self]
      split
      · exact (hacc t).trans (.of_eq rfl rfl rfl)
      · exact hacc t
    · rw [Function.update_of_ne ht]
      exact hacc t
  have hcount : SameBooks k { k with threads } := ⟨rfl, rfl, rfl, rfl, rfl, hrecord⟩
  refine hcount.trans (foldl (fun k t => ?_) _)
  split
  · exact finishWait k t
  · exact refl k

theorem threadInheritPriority {mutex : Mutex} (hinherit : k.threadInheritPriority mutex = some k') :
    SameBooks k k' := by
  simp only [Kernel.threadInheritPriority] at hinherit
  split at hinherit
  · obtain rfl := Option.some.inj hinherit
    exact refl k
  · simp only [Option.bind_eq_bind, Option.bind_eq_some_iff] at hinherit
    obtain ⟨owner, -, hbody⟩ := hinherit
    generalize hk₁ : (if (k.threads owner).priorityInherited = true then k else
      (k.setThread k.runningThread fun i => { i with originalPriority := i.priority }).setThread
        owner fun i => { i with priorityInherited := true }) = k₁ at hbody
    have hfirst : SameBooks k k₁ := by
      subst hk₁
      split
      · exact refl k
      · refine trans (setThread ?_) (setThread ?_) <;> exact fun _ => .of_eq rfl rfl rfl
    split at hbody
    · simp only [Option.bind_eq_some_iff, Option.some.injEq] at hbody
      obtain ⟨k₂, hk₂, rfl⟩ := hbody
      have hloop : SameBooks k₁ k₂ := by
        refine forEachSafe (fun k t => ?_) hk₂
        split
        · exact ⟨rfl, rfl, rfl, rfl, rfl, fun _ => .refl _⟩
        · exact refl k
      exact (hfirst.trans hloop).trans (setThread fun _ => .of_eq rfl rfl rfl)
    · obtain rfl := Option.some.inj hbody
      exact hfirst

theorem sysPthreadJoin {tid : Tid} {r : SysResult} (hjoin : k.sysPthreadJoin tid = some r) :
    SameBooks k r.1 := by
  obtain ⟨-, heq, -⟩ | ⟨-, rfl⟩ := sysPthreadJoin_cases hjoin
  · rw [heq]
    exact refl k
  · exact prepareToWait ..

theorem sysPthreadSetschedparam (k : Kernel) (tid : Tid) (schedPriority : Int) :
    SameBooks k (k.sysPthreadSetschedparam tid schedPriority).1 := by
  obtain ⟨-, _, heq⟩ | ⟨-, heq⟩ := sysPthreadSetschedparam_cases k tid schedPriority
  · rw [heq]
    exact refl k
  · rw [heq]
    dsimp only
    refine setThread fun i => ?_
    split <;> exact .of_eq rfl rfl rfl

theorem handleSignal {sig : Signal} (hsig : sig ≠ .kill) (hk : k.handleSignal t sig = some k') :
    SameBooks k k' := by
  have hend : SameBooks k (k.endSigwait t sig) := of_touched (Touched.endSigwait t k sig)
  refine hend.trans ?_
  cases sig with
  | stop =>
      obtain rfl := Option.some.inj hk
      rw [threadSuspend]
      split
      · exact refl _
      · exact prepareToWait ..
  | cont =>
      obtain rfl := Option.some.inj hk
      rw [threadResume]
      split
      · exact refl _
      · exact makeReady ..
  | kill => exact absurd rfl hsig
  | usr1 | usr2 | poll =>
      obtain rfl := Option.some.inj hk
      exact refl _

theorem signal {l : List Tid} {sig : Signal} (hsig : sig ≠ .kill)
    (hk : l.foldlM (fun k t => k.handleSignal t sig) k = some k') : SameBooks k k' := by
  induction l generalizing k with
  | nil =>
      obtain rfl := Option.some.inj hk
      exact refl k
  | cons t l ih =>
      obtain ⟨k₁, hk₁, hrest⟩ := Option.bind_eq_some_iff.mp hk
      exact (handleSignal hsig hk₁).trans (ih hrest)

end SameBooks

def currentThreads (k : Kernel) : List Tid := (k.currentTaskInfo.map k.taskThreads).getD []

def removes (k : Kernel) : KernelEvent → List Tid
  | .call .pthreadExit => [k.runningThread]
  | .call .exit => k.currentThreads
  | .call (.pthreadCancel tid) => if k.Receives tid then [tid] else []
  | .call (.pthreadKill tid (some .kill)) => if k.Receives tid then [tid] else []
  | .call (.kill pid (some .kill)) => if pid ∈ k.tasksList then k.taskThreads pid else []
  | .call (.raise (some .kill)) => k.currentThreads
  | .threadReturn =>
      if k.currentTaskInfo.map k.mainThread = some k.runningThread then k.currentThreads
      else [k.runningThread]
  | _ => []

inductive BookStep (k : Kernel) (e : KernelEvent) (k' : Kernel) : Prop
  | same (h : SameBooks k k')
  | exit (task : Pid) (htask : k.currentTaskInfo = some task)
      (he : e = .call .exit ∨ e = .threadReturn) (hremoves : k.removes e = k.taskThreads task)
      (h : k.sysExit = some k')
  | joinHandler (he : e = .call .pthreadExit ∨ e = .threadReturn ∧
        k.currentTaskInfo.map k.mainThread ≠ some k.runningThread)
      (hremoves : k.removes e = [k.runningThread]) (h : k.threadJoinHandler = some k')
  /-- `pthread_cancel` and `SIGKILL` for a thread, which may end a `sigwait` first. -/
  | delete (t : Tid) (k₁ : Kernel)
      (he : e = .call (.pthreadCancel t) ∨ e = .call (.pthreadKill t (some .kill)))
      (hreceives : k.Receives t) (hremoves : k.removes e = [t]) (hsame : SameBooks k k₁)
      (hrun : k₁.runningThread = k.runningThread) (h : k₁.threadDelete t = some k')
  | killTask (task : Pid) (he : e = .call (.kill task (some .kill)) ∧ task ∈ k.tasksList ∨
        e = .call (.raise (some .kill)) ∧ k.currentTaskInfo = some task)
      (hremoves : k.removes e = k.taskThreads task) (h : k.signalTask task .kill = some k')
  | create (attr : Option ThreadAttr) (stack : Bool) (r : Except Errno Tid)
      (he : e = .call (.pthreadCreate attr stack))
      (h : k.sysPthreadCreate attr stack = some (k', r))
  | createTask (priority : Int) (kernelThread stack : Bool) (r : Option Pid)
      (he : e = .call (.taskCreate priority kernelThread stack))
      (h : k.taskCreate priority kernelThread stack = (k', r))

theorem currentThreads_eq {task : Pid} (htask : k.currentTaskInfo = some task) :
    k.currentThreads = k.taskThreads task := by
  rw [currentThreads, htask]
  rfl

theorem sysExit_task (hexit : k.sysExit = some k') : ∃ task, k.currentTaskInfo = some task := by
  obtain ⟨task, htask, -⟩ := Option.bind_eq_some_iff.mp hexit
  exact ⟨task, htask⟩

namespace BookStep
variable {tid : Tid} {pid : Pid} {sig : Option Signal} {r : SysResult}

theorem cancel (h : k.sysPthreadCancel tid = some r) :
    BookStep k (.call (.pthreadCancel tid)) r.1 := by
  obtain ⟨-, heq⟩ | ⟨hreceives, hdelete⟩ := sysPthreadCancel_cases h
  · rw [heq]
    exact .same (SameBooks.refl k)
  · exact .delete tid k (Or.inl rfl) hreceives (if_pos hreceives) (SameBooks.refl k) rfl hdelete

theorem pthreadKill (h : k.sysPthreadKill tid sig = some r) :
    BookStep k (.call (.pthreadKill tid sig)) r.1 := by
  obtain ⟨-, heq⟩ | ⟨s, rfl, hreceives, hsig⟩ := sysPthreadKill_cases h
  · rw [heq]
    exact .same (SameBooks.refl k)
  · by_cases hkill : s = .kill
    · subst hkill
      have hend := Touched.endSigwait tid k .kill
      exact .delete tid _ (Or.inr rfl) hreceives (if_pos hreceives) (SameBooks.of_touched hend)
        hend.runningThread hsig
    · exact .same (SameBooks.handleSignal hkill hsig)

theorem kill (h : k.sysKill pid sig = some r) : BookStep k (.call (.kill pid sig)) r.1 := by
  obtain ⟨-, heq⟩ | ⟨s, rfl, hmem, hsig⟩ := sysKill_cases h
  · rw [heq]
    exact .same (SameBooks.refl k)
  · by_cases hkill : s = .kill
    · subst hkill
      exact .killTask pid (Or.inl ⟨rfl, hmem⟩) (if_pos hmem) hsig
    · exact .same (SameBooks.signal hkill hsig)

theorem raise (h : k.sysRaise sig = some r) : BookStep k (.call (.raise sig)) r.1 := by
  obtain ⟨-, heq⟩ | ⟨s, task, rfl, htask, hsig⟩ := sysRaise_cases h
  · rw [heq]
    exact .same (SameBooks.refl k)
  · by_cases hkill : s = .kill
    · subst hkill
      exact .killTask task (Or.inr ⟨rfl, htask⟩) (currentThreads_eq htask) hsig
    · exact .same (SameBooks.signal hkill hsig)

theorem runCall {c : KernelCall} (h : k.runCall c = some k') : BookStep k (.call c) k' := by
  cases c with
  | delayTicks ticks =>
      obtain rfl := Option.some.inj h
      have hset := SameBooks.setThread (k := k) (t := k.runningThread)
        (f := fun i => { i with sleepTicks := ticks }) fun _ => .of_eq rfl rfl rfl
      exact .same (hset.trans (SameBooks.prepareToWait ..))
  | schedYield | wait queue =>
      obtain rfl := Option.some.inj h
      exact .same (SameBooks.prepareToWait ..)
  | fifoWait queue size =>
      obtain rfl := Option.some.inj h
      have hset := SameBooks.setThread (k := k) (t := k.runningThread)
        (f := fun i => { i with fileRequestSize := size }) fun _ => .of_eq rfl rfl rfl
      exact .same (hset.trans (SameBooks.prepareToWait ..))
  | initQueue queue =>
      obtain rfl := Option.some.inj h
      exact .same ⟨rfl, rfl, rfl, rfl, rfl, fun _ => .refl _⟩
  | poll timeout =>
      obtain rfl := Option.some.inj h
      rw [sysPoll]
      split
      · have hwait := SameBooks.prepareToWait k .poll k.runningThread .wait
        have hset := SameBooks.setThread (k := k.prepareToWait .poll k.runningThread .wait)
          (t := k.runningThread) (f := fun i => { i with pollTimed := true })
          fun _ => .of_eq rfl rfl rfl
        have hboth := hwait.trans hset
        exact .same ⟨hboth.bitmapThreads, hboth.threadsList, hboth.bitmapTasks, hboth.tasksList,
          hboth.taskThreads, hboth.record⟩
      · exact .same (SameBooks.prepareToWait ..)
  | sigwait set =>
      obtain rfl := Option.some.inj h
      cases set with
      | none => exact .same (SameBooks.refl k)
      | some set =>
          have hset := SameBooks.setThread (k := k) (t := k.runningThread)
            (f := fun i => { i with sigWaitSet := set, waitForSignal := true })
            fun _ => .of_eq rfl rfl rfl
          exact .same (hset.trans (SameBooks.prepareToWait ..))
  | pthreadJoin tid =>
      obtain ⟨r, hr, rfl⟩ := Option.map_eq_some_iff.mp h
      exact .same (SameBooks.sysPthreadJoin hr)
  | pthreadDetach tid =>
      obtain rfl := Option.some.inj h
      rw [sysPthreadDetach]
      split
      · exact .same (SameBooks.setThread (f := fun i => { i with detached := true })
          fun _ => .of_eq rfl rfl rfl)
      · exact .same (SameBooks.refl k)
  | pthreadExit => exact .joinHandler (Or.inl rfl) rfl h
  | exit =>
      obtain ⟨task, htask⟩ := sysExit_task h
      exact .exit task htask (Or.inl rfl) (currentThreads_eq htask) h
  | pthreadCancel tid =>
      obtain ⟨r, hr, rfl⟩ := Option.map_eq_some_iff.mp h
      exact cancel hr
  | pthreadKill tid sig =>
      obtain ⟨r, hr, rfl⟩ := Option.map_eq_some_iff.mp h
      exact pthreadKill hr
  | kill pid sig =>
      obtain ⟨r, hr, rfl⟩ := Option.map_eq_some_iff.mp h
      exact kill hr
  | raise sig =>
      obtain ⟨r, hr, rfl⟩ := Option.map_eq_some_iff.mp h
      exact raise hr
  | pthreadCreate attr stack =>
      obtain ⟨⟨k₁, r⟩, hr, rfl⟩ := Option.map_eq_some_iff.mp h
      exact .create attr stack r rfl hr
  | taskCreate priority kernelThread stack =>
      obtain rfl := Option.some.inj h
      exact .createTask priority kernelThread stack _ rfl rfl
  | pthreadSetschedparam tid schedPriority =>
      obtain rfl := Option.some.inj h
      exact .same (SameBooks.sysPthreadSetschedparam ..)

theorem threadReturn (h : k.threadReturnEventHandler = some k') : BookStep k .threadReturn k' := by
  obtain ⟨task, htask, h⟩ := Option.bind_eq_some_iff.mp h
  split at h
  · next hmain =>
      refine .exit task htask (Or.inr rfl) ?_ h
      rw [removes, htask, if_pos (by rw [Option.map_some, hmain])]
      exact currentThreads_eq htask
  · next hmain =>
      have hother : k.currentTaskInfo.map k.mainThread ≠ some k.runningThread := fun heq => by
        rw [htask] at heq
        exact hmain (Option.some.inj heq).symm
      exact .joinHandler (Or.inr ⟨rfl, hother⟩) (if_neg hother) h

end BookStep

theorem step_books {e : KernelEvent} (hstep : k.step e = some k') : BookStep k e k' := by
  cases e with
  | call c =>
      simp only [Kernel.step, Option.ite_none_right_eq_some] at hstep
      exact BookStep.runCall hstep.2
  | pollRet =>
      simp only [Kernel.step, Option.ite_none_right_eq_some, Option.some.injEq] at hstep
      obtain ⟨-, rfl⟩ := hstep
      have hset := SameBooks.setThread (k := k) (t := k.runningThread)
        (f := fun i => { i with pollTimed := false }) fun _ => .of_eq rfl rfl rfl
      exact .same ⟨hset.bitmapThreads, hset.threadsList, hset.bitmapTasks, hset.tasksList,
        hset.taskThreads, hset.record⟩
  | syscallHandler =>
      simp only [Kernel.step, Option.ite_none_right_eq_some, Option.some.injEq] at hstep
      obtain ⟨-, rfl⟩ := hstep
      exact .same (SameBooks.setThread fun _ => ⟨rfl, rfl, fun _ _ => rfl⟩)
  | syscallReturn =>
      obtain rfl := Option.some.inj hstep
      exact .same (SameBooks.setThread fun i => ⟨rfl, rfl, fun _ hkernel => if_pos hkernel⟩)
  | threadReturn =>
      simp only [Kernel.step, Option.ite_none_right_eq_some] at hstep
      exact BookStep.threadReturn hstep.2
  | wakeUp queue => exact .same (SameBooks.wakeUp hstep)
  | wakeUpAll queue => exact .same (SameBooks.wakeUpAll hstep)
  | fifoWakeUp queue availSize => exact .same (SameBooks.fifoWakeUp hstep)
  | pollNotify polls => exact .same (SameBooks.pollNotify hstep)
  | taskletSchedule tid =>
      obtain ⟨t, -, rfl⟩ := Option.map_eq_some_iff.mp hstep
      exact .same (SameBooks.finishWait k t)
  | inheritPriority mutex => exact .same (SameBooks.threadInheritPriority hstep)
  | resetInheritedPriority =>
      obtain rfl := Option.some.inj hstep
      refine .same (SameBooks.setThread fun i => ?_)
      split <;> exact .of_eq rfl rfl rfl
  | systemTicks expired => exact .same (SameBooks.systemTicks hstep)
  | schedule => exact .same (SameBooks.schedule hstep)

/-- The thread is off the books of its task. -/
structure Ended (t : Tid) (task : Pid) (k k' : Kernel) : Prop where
  owner : (k.threads t).task = some task
  bitmapThreads : k'.bitmapThreads = Function.update k.bitmapThreads t false
  threadsList : k'.threadsList = k.threadsList.erase t
  bitmapTasks : k'.bitmapTasks = k.bitmapTasks
  tasksList : k'.tasksList = k.tasksList
  taskThreads : k'.taskThreads =
    Function.update k.taskThreads task ((k.taskThreads task).erase t)
  record : ∀ u, SameRecord (k.threads u) (k'.threads u)
  others : ∀ u, u ≠ t → k'.threads u = k.threads u
  runningThread : k'.runningThread = k.runningThread

theorem Ended.task {task : Pid} (h : Ended t task k k') (u : Tid) :
    (k'.threads u).task = (k.threads u).task := (h.record u).task

theorem Ended.alive_iff {task : Pid} (h : Ended t task k k') : k'.Alive u ↔ u ≠ t ∧ k.Alive u := by
  rw [Alive, h.bitmapThreads]
  by_cases hu : u = t
  · simp [hu]
  · simp [hu, Alive]

theorem Ended.current {task : Pid} (h : Ended t task k k') :
    k'.currentTaskInfo = k.currentTaskInfo := by
  rw [currentTaskInfo, h.runningThread, h.task, currentTaskInfo]

theorem ended_terminate {s : Cells ListNode} (hleave : k.leaveTask t = some k') :
    ∃ task, Ended t task k ({ k' with links := s }.terminate t) := by
  obtain ⟨task, htask, rfl⟩ := leaveTask_eq_some hleave
  refine ⟨task, htask, rfl, rfl, rfl, rfl, rfl, fun u => ?_,
    fun u hu => threads_terminate_of_ne hu, rfl⟩
  by_cases hu : u = t
  · subst hu
    simp only [terminate, setStatus, setThread, Function.update_self]
    exact .of_eq rfl rfl rfl
  · rw [threads_terminate_of_ne hu]
    exact .refl _

theorem exitThread_ended (hexit : k.exitThread t = some k') : ∃ task, Ended t task k k' := by
  obtain ⟨k₁, hk₁, hrest⟩ := Option.bind_eq_some_iff.mp hexit
  obtain rfl := Option.some.inj hrest
  exact ended_terminate hk₁

theorem threadDelete_ended (hdelete : k.threadDelete t = some k') :
    ∃ task k₁ current, Ended t task k k₁ ∧ k.currentTaskInfo = some current ∧
      k' = k₁.dropEmptyTask current := by
  simp only [threadDelete, Option.bind_eq_bind, Option.bind_eq_some_iff,
    Option.some.injEq] at hdelete
  obtain ⟨k₁, hk₁, current, hcurrent, rfl⟩ := hdelete
  have hunlink : ∃ s, k₁.unlinkOther t = { k₁ with links := s } := by
    rw [unlinkOther]
    split
    · exact ⟨_, rfl⟩
    · exact ⟨k₁.links, rfl⟩
  obtain ⟨s, hs⟩ := hunlink
  rw [hs] at hcurrent ⊢
  obtain ⟨task, hended⟩ := ended_terminate (s := s) hk₁
  exact ⟨task, _, current, hended, hended.current.symm.trans hcurrent, rfl⟩

theorem threadJoinHandler_ended (hjoin : k.threadJoinHandler = some k') :
    ∃ k₁ current task, SameBooks k k₁ ∧ k.currentTaskInfo = some current ∧
      k₁.runningThread = k.runningThread ∧
      Ended k.runningThread task (k₁.dropEmptyTask current) k' := by
  simp only [threadJoinHandler, Option.bind_eq_bind, Option.bind_eq_some_iff,
    Option.some.injEq] at hjoin
  obtain ⟨k₁, hk₁, current, hcurrent, k₂, hk₂, rfl⟩ := hjoin
  have hsame : SameBooks k k₁ := SameBooks.forEachSafe SameBooks.finishWait hk₁
  have hrun : k₁.runningThread = k.runningThread :=
    forEachSafe_induct (P := fun k' => k'.runningThread = k.runningThread) rfl
      (fun k₁ t hk₁ => (Touched.finishWait t k₁).runningThread.trans hk₁) hk₁
  have hrun₂ : k₂.runningThread = k.runningThread := by
    obtain ⟨task, -, rfl⟩ := leaveTask_eq_some hk₂
    rw [dropEmptyTask_eq]
    exact hrun
  rw [hrun] at hk₂
  rw [hrun₂]
  obtain ⟨task, hended⟩ := ended_terminate (s := k₂.links) hk₂
  refine ⟨k₁, current, task, hsame, ?_, hrun, hended⟩
  rw [currentTaskInfo, ← hrun, ← hsame.task]
  exact hcurrent

theorem alive_dropEmptyTask (task : Pid) : (k.dropEmptyTask task).Alive u ↔ k.Alive u := by
  rw [dropEmptyTask_eq]
  rfl

theorem SameBooks.alive_iff (h : SameBooks k k') : k'.Alive u ↔ k.Alive u := by
  rw [Alive, h.bitmapThreads, Alive]

theorem alive_foldlM {f : Kernel → Tid → Option Kernel} {T : List Tid}
    (hf : ∀ k t k', f k t = some k' → k.Alive u → u ≠ t → k'.Alive u)
    (hloop : T.foldlM f k = some k') (hu : k.Alive u) (hnot : u ∉ T) : k'.Alive u := by
  induction T generalizing k with
  | nil =>
      obtain rfl := Option.some.inj hloop
      exact hu
  | cons t T ih =>
      obtain ⟨k₁, hk₁, hrest⟩ := Option.bind_eq_some_iff.mp hloop
      rw [List.mem_cons, not_or] at hnot
      exact ih hrest (hf k t k₁ hk₁ hu hnot.1) hnot.2

theorem alive_threadDelete (hdelete : k.threadDelete t = some k') (hu : k.Alive u) (hut : u ≠ t) :
    k'.Alive u := by
  obtain ⟨task, k₁, current, hended, -, rfl⟩ := threadDelete_ended hdelete
  rw [alive_dropEmptyTask]
  exact hended.alive_iff.mpr ⟨hut, hu⟩

theorem threadCreate_alive {attr : ThreadAttr} {kernelThread stack : Bool} {r : Except Errno Tid}
    (hcreate : k.threadCreate attr kernelThread stack = (k', r)) (hu : k.Alive u) :
    k'.Alive u := by
  obtain ⟨e, he⟩ | ⟨tid, -, hdead, he | ⟨k₁, he, -, -, -, hbitmap, -⟩⟩ :=
    threadCreate_cases k attr kernelThread stack
  · obtain ⟨rfl, -⟩ := Prod.mk.inj (he.symm.trans hcreate)
    exact hu
  · obtain ⟨rfl, -⟩ := Prod.mk.inj (he.symm.trans hcreate)
    exact hu
  · obtain ⟨rfl, -⟩ := Prod.mk.inj (he.symm.trans hcreate)
    have hne : u ≠ tid := fun h => hdead (h ▸ hu)
    rw [Alive, hbitmap, Function.update_of_ne hne]
    exact hu

theorem alive_step {e : KernelEvent} (hstep : k.step e = some k') (hu : k.Alive u)
    (hnot : u ∉ k.removes e) : k'.Alive u := by
  cases step_books hstep with
  | same h => exact h.alive_iff.mpr hu
  | exit task htask _ hremoves h =>
      rw [hremoves] at hnot
      simp only [sysExit, htask, Option.bind_eq_bind, Option.bind_some, Option.bind_eq_some_iff,
        Option.some.injEq] at h
      obtain ⟨k₁, hk₁, rfl⟩ := h
      change k₁.Alive u
      refine alive_foldlM (fun k t k' ht hu hut => ?_) hk₁ hu hnot
      obtain ⟨task, hended⟩ := exitThread_ended ht
      exact hended.alive_iff.mpr ⟨hut, hu⟩
  | joinHandler _ hremoves h =>
      rw [hremoves, List.mem_singleton] at hnot
      obtain ⟨k₁, current, task, hsame, -, -, hended⟩ := threadJoinHandler_ended h
      refine hended.alive_iff.mpr ⟨hnot, ?_⟩
      rw [alive_dropEmptyTask]
      exact hsame.alive_iff.mpr hu
  | delete t k₁ _ _ hremoves hsame _ h =>
      rw [hremoves, List.mem_singleton] at hnot
      exact alive_threadDelete h (hsame.alive_iff.mpr hu) hnot
  | killTask task _ hremoves h =>
      rw [hremoves] at hnot
      refine alive_foldlM (fun k t k' ht hu hut => ?_) h hu hnot
      exact alive_threadDelete ht ((Touched.endSigwait t k .kill).alive.mpr hu) hut
  | create attr stack r _ h =>
      obtain ⟨_, _, ⟨_, hk₁⟩ | ⟨k₁, tid, task, hk₁, -, rfl⟩⟩ := sysPthreadCreate_cases h
      · exact threadCreate_alive hk₁ hu
      · exact (threadCreate_alive hk₁ hu :)
  | createTask priority kernelThread stack r _ h =>
      obtain ⟨_, hk₁⟩ | ⟨k₁, tid, pid, hk₁, -, rfl⟩ := taskCreate_cases h
      · exact threadCreate_alive hk₁ hu
      · exact (threadCreate_alive hk₁ hu :)

end Kernel

end Tenok
