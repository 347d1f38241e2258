import Tenok.Kernel.Books

/-!
What protects kernel threads from the calls of others. `pthread_cancel`, `pthread_kill` and
`pthread_setschedparam` look at the privilege that the target has at that moment, and a
system call raises it; `kill` looks at nothing.
-/
namespace Tenok

namespace Kernel
variable {k k' : Kernel} {t u : Tid}

/-- The thread that the step creates, with the `kernel_thread` of `thread_create`. -/
def created (k : Kernel) : KernelEvent → Option (Tid × Bool)
  | .call (.pthreadCreate attr stack) =>
      let running := k.threads k.runningThread
      let attr := attr.getD { schedPriority := running.priority.val }
      (k.threadCreate attr running.kernelThread stack).2.toOption.map (·, running.kernelThread)
  | .call (.taskCreate priority kernelThread stack) =>
      (k.threadCreate { schedPriority := priority } kernelThread stack).2.toOption.map
        (·, kernelThread)
  | _ => none

/-- The loop of `sys_kill`, with the threads that it has called `handle_signal` for. -/
def signalLog (k : Kernel) (sig : Signal) : List Tid → Option (Kernel × List Tid)
  | [] => some (k, [])
  | t :: l => do
      let k ← k.handleSignal t sig
      let (k, log) ← k.signalLog sig l
      some (k, t :: log)

def sysKillLog (k : Kernel) (pid : Pid) (sig : Option Signal) : Option (Kernel × List Tid) :=
  match k.acquireTask pid, sig with
  | some task, some sig => k.signalLog sig (k.taskThreads task)
  | _, _ => some (k, [])

theorem signalLog_eq (k : Kernel) (sig : Signal) (l : List Tid) :
    k.signalLog sig l = (l.foldlM (fun (k : Kernel) t => k.handleSignal t sig) k).map (·, l) := by
  induction l generalizing k with
  | nil => rfl
  | cons t l ih =>
      rw [signalLog, List.foldlM_cons]
      cases hk : k.handleSignal t sig with
      | none => rfl
      | some k₁ =>
          simp only [Option.bind_eq_bind, Option.bind_some, ih]
          cases l.foldlM (fun (k : Kernel) t => k.handleSignal t sig) k₁ <;> rfl

theorem sysKillLog_fst (k : Kernel) (pid : Pid) (sig : Option Signal) :
    (k.sysKillLog pid sig).map Prod.fst = (k.sysKill pid sig).map Prod.fst := by
  unfold sysKillLog sysKill
  cases k.acquireTask pid with
  | none => rfl
  | some task =>
      cases sig with
      | none => rfl
      | some s =>
          simp only [signalLog_eq, signalTask, Option.bind_eq_bind]
          cases (k.taskThreads task).foldlM (fun (k : Kernel) t => k.handleSignal t s) k <;> rfl

theorem sysKillLog_cases {pid : Pid} {sig : Option Signal} {log : List Tid}
    (hkill : k.sysKillLog pid sig = some (k', log)) :
    ((pid ∉ k.tasksList ∨ sig = none) ∧ k' = k ∧ log = []) ∨
      ∃ s, sig = some s ∧ pid ∈ k.tasksList ∧ k.signalTask pid s = some k' ∧
        log = k.taskThreads pid := by
  unfold sysKillLog acquireTask at hkill
  by_cases hmem : pid ∈ k.tasksList
  · rw [if_pos hmem] at hkill
    cases sig with
    | none =>
        obtain ⟨rfl, rfl⟩ := Prod.mk.inj (Option.some.inj hkill)
        exact Or.inl ⟨Or.inr rfl, rfl, rfl⟩
    | some s =>
        simp only [signalLog_eq] at hkill
        obtain ⟨k₁, hk₁, heq⟩ := Option.map_eq_some_iff.mp hkill
        obtain ⟨rfl, rfl⟩ := Prod.mk.inj heq
        exact Or.inr ⟨s, rfl, hmem, hk₁, rfl⟩
  · rw [if_neg hmem] at hkill
    obtain ⟨rfl, rfl⟩ := Prod.mk.inj (Option.some.inj hkill)
    exact Or.inl ⟨Or.inl hmem, rfl, rfl⟩

/-- What a thread that is not touched keeps. -/
structure Spared (t : Tid) (k k' : Kernel) : Prop where
  threads : k'.threads t = k.threads t
  mem : t ∈ k.threadsList → t ∈ k'.threadsList

namespace Spared

theorem refl (t : Tid) (k : Kernel) : Spared t k k := ⟨rfl, id⟩

theorem trans {k'' : Kernel} (h : Spared t k k') (h' : Spared t k' k'') : Spared t k k'' :=
  ⟨h'.threads.trans h.threads, h'.mem ∘ h.mem⟩

theorem of_touched (h : Touched u k k') (htu : t ≠ u) : Spared t k k' := by
  refine ⟨h.threads t htu, fun ht => ?_⟩
  rw [h.rest]
  exact ht

theorem threadDelete (hdelete : k.threadDelete u = some k') (htu : t ≠ u) : Spared t k k' := by
  obtain ⟨task, k₁, current, hended, -, rfl⟩ := threadDelete_ended hdelete
  rw [dropEmptyTask_eq]
  refine ⟨hended.others t htu, fun ht => ?_⟩
  change t ∈ k₁.threadsList
  rw [hended.threadsList]
  exact (List.mem_erase_of_ne htu).mpr ht

theorem handleSignal {sig : Signal} (hsig : k.handleSignal u sig = some k') (htu : t ≠ u) :
    Spared t k k' := by
  refine (of_touched (Touched.endSigwait u k sig) htu).trans ?_
  cases sig with
  | stop =>
      obtain rfl := Option.some.inj hsig
      rw [threadSuspend]
      split
      · exact refl t _
      · exact of_touched (Touched.prepareToWait ..) htu
  | cont =>
      obtain rfl := Option.some.inj hsig
      rw [threadResume]
      split
      · exact refl t _
      · exact of_touched (Touched.makeReady ..) htu
  | kill => exact threadDelete hsig htu
  | usr1 | usr2 | poll =>
      obtain rfl := Option.some.inj hsig
      exact refl t _

theorem signalTask {task : Pid} {sig : Signal} (hsig : k.signalTask task sig = some k')
    (ht : t ∉ k.taskThreads task) : Spared t k k' := by
  rw [Kernel.signalTask] at hsig
  generalize k.taskThreads task = l at hsig ht
  induction l generalizing k with
  | nil =>
      obtain rfl := Option.some.inj hsig
      exact refl t k
  | cons u l ih =>
      obtain ⟨k₁, hk₁, hrest⟩ := Option.bind_eq_some_iff.mp hsig
      rw [List.mem_cons, not_or] at ht
      exact (handleSignal hk₁ ht.1).trans (ih hrest ht.2)

end Spared

theorem threadCreate_kind {attr : ThreadAttr} {kernelThread stack : Bool} {tid : Tid}
    (hcreate : k.threadCreate attr kernelThread stack = (k', .ok tid)) :
    (k'.threads tid).kernelThread = kernelThread ∧ (k'.threads tid).Guarded := by
  simp only [threadCreate] at hcreate
  split at hcreate
  · cases (Prod.mk.inj hcreate).2
  · split at hcreate
    · cases (Prod.mk.inj hcreate).2
    · split at hcreate
      · obtain ⟨rfl, heq⟩ := Prod.mk.inj hcreate
        obtain rfl := Except.ok.inj heq
        cases kernelThread <;> simp [setupThread, setThread, ThreadInfo.Guarded]
      · cases (Prod.mk.inj hcreate).2

theorem acquireThread_of_mem {tid : Tid} (htid : tid ∈ k.threadsList) :
    k.acquireThread tid = some tid :=
  acquireThread_eq_some.mpr ⟨htid, rfl⟩

theorem sysPthreadCancel_eperm {tid : Tid} (htid : tid ∈ k.threadsList) :
    (k.sysPthreadCancel tid).map Prod.snd = some (.error .eperm) ↔
      (k.threads tid).privilege = .kernelThread := by
  simp only [sysPthreadCancel, acquireThread_of_mem htid]
  split
  · next hprivilege => simp [hprivilege]
  · next hprivilege => cases k.threadDelete tid <;> simp [hprivilege]

theorem sysPthreadKill_eperm {tid : Tid} (sig : Option Signal) (htid : tid ∈ k.threadsList) :
    (k.sysPthreadKill tid sig).map Prod.snd = some (.error .eperm) ↔
      (k.threads tid).privilege = .kernelThread := by
  simp only [sysPthreadKill, acquireThread_of_mem htid]
  split
  · next hprivilege => simp [hprivilege]
  · next hprivilege =>
      cases sig with
      | none => simp [hprivilege]
      | some s =>
          simp only [Option.bind_eq_bind]
          cases k.handleSignal tid s <;> simp [hprivilege]

theorem sysPthreadSetschedparam_eperm {tid : Tid} (schedPriority : Int)
    (htid : tid ∈ k.threadsList) :
    (k.sysPthreadSetschedparam tid schedPriority).2 = .error .eperm ↔
      (k.threads tid).privilege = .kernelThread := by
  simp only [sysPthreadSetschedparam, acquireThread_of_mem htid]
  split
  · next hprivilege => simp [hprivilege]
  · next hprivilege => split <;> simp [hprivilege]

end Kernel

/-- The kernel, with what each thread of `threads_list` was created as. -/
structure Protection where
  kernel : Kernel
  createdAs : Tid → Bool

namespace Protection
open Kernel (created)
variable {s s' : Protection} {k k' : Kernel} {t : Tid} {b : Tid → Bool}

def recordCreated (s : Protection) (e : KernelEvent) : Tid → Bool :=
  match s.kernel.created e with
  | some (t, kernelThread) => Function.update s.createdAs t kernelThread
  | none => s.createdAs

def step (s : Protection) (e : KernelEvent) : Option Protection :=
  (s.kernel.step e).map fun kernel => { kernel, createdAs := s.recordCreated e }

/-- All threads of `sched_start` are kernel threads. -/
def start : Protection := ⟨Kernel.schedStart, fun _ => true⟩

/-- Every thread of `threads_list` is alive, of the kind it was created as, and has at least
the privilege of that kind. -/
structure Kinds (k : Kernel) (b : Tid → Bool) : Prop where
  nodup : k.threadsList.Nodup
  alive : ∀ t ∈ k.threadsList, k.Alive t
  kind : ∀ t ∈ k.threadsList, (k.threads t).kernelThread = b t
  guarded : ∀ t ∈ k.threadsList, (k.threads t).Guarded

namespace Kinds

theorem of_kind (h : Kinds k b) (hlist : k'.threadsList = k.threadsList)
    (hbitmap : k'.bitmapThreads = k.bitmapThreads)
    (hkind : ∀ t, (k'.threads t).kernelThread = (k.threads t).kernelThread ∧
      ((k.threads t).Guarded → (k'.threads t).Guarded)) : Kinds k' b := by
  refine ⟨?_, fun t ht => ?_, fun t ht => ?_, fun t ht => ?_⟩
  · rw [hlist]
    exact h.nodup
  · rw [Kernel.Alive, hbitmap]
    exact h.alive t (hlist ▸ ht)
  · exact (hkind t).1.trans (h.kind t (hlist ▸ ht))
  · exact (hkind t).2 (h.guarded t (hlist ▸ ht))

theorem same (h : Kinds k b) (hsame : Kernel.SameBooks k k') : Kinds k' b :=
  h.of_kind hsame.threadsList hsame.bitmapThreads fun t =>
    ⟨(hsame.record t).kernelThread, (hsame.record t).guarded⟩

theorem dropEmptyTask (h : Kinds k b) (task : Pid) : Kinds (k.dropEmptyTask task) b := by
  rw [Kernel.dropEmptyTask_eq]
  exact h.of_kind rfl rfl fun _ => ⟨rfl, id⟩

theorem ended {task : Pid} (h : Kinds k b) (hended : Kernel.Ended t task k k') : Kinds k' b := by
  have hmem : ∀ u, u ∈ k'.threadsList ↔ u ≠ t ∧ u ∈ k.threadsList := fun u => by
    rw [hended.threadsList]
    exact h.nodup.mem_erase_iff
  refine ⟨?_, fun u hu => ?_, fun u hu => ?_, fun u hu => ?_⟩
  · rw [hended.threadsList]
    exact h.nodup.erase t
  · obtain ⟨hut, hu⟩ := (hmem u).mp hu
    exact hended.alive_iff.mpr ⟨hut, h.alive u hu⟩
  · exact (hended.record u).kernelThread.trans (h.kind u ((hmem u).mp hu).2)
  · exact (hended.record u).guarded (h.guarded u ((hmem u).mp hu).2)

theorem threadDelete (h : Kinds k b) (hdelete : k.threadDelete t = some k') : Kinds k' b := by
  obtain ⟨task, k₁, current, hended, -, rfl⟩ := Kernel.threadDelete_ended hdelete
  exact (h.ended hended).dropEmptyTask current

theorem foldlM {body : Kernel → Tid → Option Kernel} {T : List Tid}
    (hbody : ∀ k t k', Kinds k b → body k t = some k' → Kinds k' b) (h : Kinds k b)
    (hloop : T.foldlM body k = some k') : Kinds k' b := by
  induction T generalizing k with
  | nil =>
      obtain rfl := Option.some.inj hloop
      exact h
  | cons t T ih =>
      obtain ⟨k₁, hk₁, hrest⟩ := Option.bind_eq_some_iff.mp hloop
      exact ih (hbody k t k₁ h hk₁) hrest

theorem threadCreate {attr : ThreadAttr} {kernelThread stack : Bool} {r : Except Errno Tid}
    (h : Kinds k b) (hcreate : k.threadCreate attr kernelThread stack = (k', r)) :
    ((∃ error, r = .error error) ∧ Kinds k' b) ∨
      ∃ tid, r = .ok tid ∧ Kinds k' (Function.update b tid kernelThread) := by
  obtain ⟨e, he⟩ | ⟨tid, -, hdead, he | ⟨k₁, he, -, hthreads, -, hbitmap, hlist, -⟩⟩ :=
    Kernel.threadCreate_cases k attr kernelThread stack
  · obtain ⟨rfl, rfl⟩ := Prod.mk.inj (he.symm.trans hcreate)
    exact Or.inl ⟨⟨e, rfl⟩, h⟩
  · obtain ⟨rfl, rfl⟩ := Prod.mk.inj (he.symm.trans hcreate)
    have hne : ∀ t ∈ k.threadsList, t ≠ tid := fun t ht heq => hdead (heq ▸ h.alive t ht)
    have hkeep : ∀ t ∈ k.threadsList, (k.setThread tid fun _ => {}).threads t = k.threads t :=
      fun t ht => Function.update_of_ne (hne t ht) _ _
    refine Or.inl ⟨⟨_, rfl⟩, h.nodup, h.alive, fun t ht => ?_, fun t ht => ?_⟩
    · rw [hkeep t ht]
      exact h.kind t ht
    · rw [hkeep t ht]
      exact h.guarded t ht
  · obtain ⟨rfl, rfl⟩ := Prod.mk.inj (he.symm.trans hcreate)
    obtain ⟨hkind, hguarded⟩ := Kernel.threadCreate_kind he
    have hne : ∀ t ∈ k.threadsList, t ≠ tid := fun t ht heq => hdead (heq ▸ h.alive t ht)
    have hmem : ∀ t, t ∈ k₁.threadsList → t ∈ k.threadsList ∨ t = tid := by
      simp [hlist]
    refine Or.inr ⟨tid, rfl, ?_, fun t ht => ?_, fun t ht => ?_, fun t ht => ?_⟩
    · rw [hlist]
      exact List.nodup_append.mpr ⟨h.nodup, List.nodup_singleton tid,
        fun t ht u hu => List.mem_singleton.mp hu ▸ hne t ht⟩
    · rw [Kernel.Alive, hbitmap]
      obtain ht | rfl := hmem t ht
      · rw [Function.update_of_ne (hne t ht)]
        exact h.alive t ht
      · rw [Function.update_self]
    · obtain ht | rfl := hmem t ht
      · rw [hthreads t (hne t ht), Function.update_of_ne (hne t ht)]
        exact h.kind t ht
      · rw [Function.update_self]
        exact hkind
    · obtain ht | rfl := hmem t ht
      · rw [hthreads t (hne t ht)]
        exact h.guarded t ht
      · exact hguarded

theorem enterTask (h : Kinds k b) (t : Tid) (task : Pid) (l : List Tid) :
    Kinds (k.enterTask t task l) b := by
  refine h.of_kind rfl rfl fun u => ?_
  by_cases hu : u = t
  · subst hu
    simp [Kernel.enterTask, Kernel.setThread, ThreadInfo.Guarded]
  · simp [Kernel.enterTask, Kernel.setThread, hu]

theorem sysPthreadCreate {attr : Option ThreadAttr} {stack : Bool} {r : Except Errno Tid}
    (h : Kinds s.kernel s.createdAs) (hcreate : s.kernel.sysPthreadCreate attr stack = some (k, r)) :
    Kinds k (s.recordCreated (.call (.pthreadCreate attr stack))) := by
  simp only [Kernel.sysPthreadCreate] at hcreate
  simp only [recordCreated, created]
  split at hcreate
  · next heq =>
      obtain ⟨rfl, -⟩ := Prod.mk.inj (Option.some.inj hcreate)
      obtain ⟨-, hkinds⟩ | ⟨tid, htid, -⟩ := h.threadCreate heq
      · rw [heq]
        exact hkinds
      · cases htid
  · next heq =>
      obtain ⟨task, -, hcreate⟩ := Option.bind_eq_some_iff.mp hcreate
      obtain ⟨rfl, -⟩ := Prod.mk.inj (Option.some.inj hcreate)
      obtain ⟨⟨error, herror⟩, -⟩ | ⟨tid, htid, hkinds⟩ := h.threadCreate heq
      · cases herror
      · obtain rfl := Except.ok.inj htid
        rw [heq]
        exact hkinds.enterTask _ task _

theorem taskCreate {priority : Int} {kernelThread stack : Bool} {r : Option Pid}
    (h : Kinds s.kernel s.createdAs)
    (hcreate : s.kernel.taskCreate priority kernelThread stack = (k, r)) :
    Kinds k (s.recordCreated (.call (.taskCreate priority kernelThread stack))) := by
  simp only [Kernel.taskCreate] at hcreate
  simp only [recordCreated, created]
  split at hcreate
  · next heq =>
      obtain ⟨rfl, -⟩ := Prod.mk.inj hcreate
      obtain ⟨-, hkinds⟩ | ⟨tid, htid, -⟩ := h.threadCreate heq
      · rw [heq]
        exact hkinds
      · cases htid
  · next k₁ thread heq =>
      obtain ⟨⟨error, herror⟩, -⟩ | ⟨tid, htid, hkinds⟩ := h.threadCreate heq
      · cases herror
      · obtain rfl := Except.ok.inj htid
        rw [heq]
        split at hcreate
        · obtain ⟨rfl, -⟩ := Prod.mk.inj hcreate
          exact hkinds
        · next pid _ =>
            obtain ⟨rfl, -⟩ := Prod.mk.inj hcreate
            exact (hkinds.enterTask thread pid [thread]).of_kind rfl rfl fun _ => ⟨rfl, id⟩

theorem of_step {e : KernelEvent} (h : Kinds k b) (hstep : k.step e = some k')
    (hthread : ∀ attr stack, e ≠ .call (.pthreadCreate attr stack))
    (htask : ∀ priority kernelThread stack, e ≠ .call (.taskCreate priority kernelThread stack)) :
    Kinds k' b := by
  cases Kernel.step_books hstep with
  | same hsame => exact h.same hsame
  | exit task htask _ _ hexit =>
      simp only [Kernel.sysExit, htask, Option.bind_eq_bind, Option.bind_some,
        Option.bind_eq_some_iff, Option.some.injEq] at hexit
      obtain ⟨k₁, hloop, rfl⟩ := hexit
      have hkinds : Kinds k₁ b := h.foldlM (fun k t k' h hk => by
        obtain ⟨task, hended⟩ := Kernel.exitThread_ended hk
        exact h.ended hended) hloop
      exact hkinds.of_kind rfl rfl fun _ => ⟨rfl, id⟩
  | joinHandler _ _ hjoin =>
      obtain ⟨k₁, current, task, hsame, -, -, hended⟩ := Kernel.threadJoinHandler_ended hjoin
      exact ((h.same hsame).dropEmptyTask current).ended hended
  | delete t k₁ _ _ _ hsame _ hdelete => exact (h.same hsame).threadDelete hdelete
  | killTask task _ _ hkill =>
      refine h.foldlM (fun k t k' h hk => ?_) hkill
      have hsame := Kernel.SameBooks.of_touched (Kernel.Touched.endSigwait t k .kill)
      exact (h.same hsame).threadDelete hk
  | create attr stack _ he _ => exact absurd he (hthread attr stack)
  | createTask priority kernelThread stack _ he _ =>
      exact absurd he (htask priority kernelThread stack)

theorem step {e : KernelEvent} (h : Kinds s.kernel s.createdAs) (hstep : s.step e = some s') :
    Kinds s'.kernel s'.createdAs := by
  obtain ⟨k', hk', rfl⟩ := Option.map_eq_some_iff.mp hstep
  cases e with
  | call c =>
      have hrun := (Option.ite_none_right_eq_some.mp hk').2
      cases c with
      | pthreadCreate attr stack =>
          obtain ⟨⟨k₁, r⟩, hr, rfl⟩ := Option.map_eq_some_iff.mp hrun
          exact h.sysPthreadCreate hr
      | taskCreate priority kernelThread stack =>
          obtain rfl := Option.some.inj hrun
          exact h.taskCreate rfl
      | _ => exact h.of_step hk' (by simp) (by simp)
  | _ => exact h.of_step hk' (by simp) (by simp)

theorem schedStart : Kinds Kernel.schedStart fun _ => true where
  nodup := by decide +kernel
  alive := by decide +kernel
  kind := by decide +kernel
  guarded := by
    simp only [ThreadInfo.Guarded]
    decide +kernel

end Kinds

/-- The calls refuse kernel threads only, and `kill` leaves these alone. -/
def Protects (s : Protection) : KernelCall → Prop
  | .pthreadCancel tid => tid ∈ s.kernel.threadsList →
      ((s.kernel.sysPthreadCancel tid).map Prod.snd = some (.error .eperm) ↔
        s.createdAs tid = true)
  | .pthreadKill tid sig => tid ∈ s.kernel.threadsList →
      ((s.kernel.sysPthreadKill tid sig).map Prod.snd = some (.error .eperm) ↔
        s.createdAs tid = true)
  | .pthreadSetschedparam tid schedPriority => tid ∈ s.kernel.threadsList →
      ((s.kernel.sysPthreadSetschedparam tid schedPriority).2 = .error .eperm ↔
        s.createdAs tid = true)
  | .kill pid sig => ∀ k log, s.kernel.sysKillLog pid sig = some (k, log) →
      ∀ t ∈ s.kernel.threadsList, s.createdAs t = true →
        t ∉ log ∧ k.threads t = s.kernel.threads t ∧ t ∈ k.threadsList
  | _ => True

/-- A user thread that the call names is not in a system call, and the task that a `kill`
names has no kernel thread. -/
def ProtectOk (s : Protection) : KernelCall → Prop
  | .pthreadCancel tid | .pthreadKill tid _ | .pthreadSetschedparam tid _ =>
      tid ∈ s.kernel.threadsList → s.createdAs tid = true ∨
        (s.kernel.threads tid).privilege ≠ .kernelThread
  | .kill pid sig => pid ∈ s.kernel.tasksList → sig.isSome →
      ∀ t ∈ s.kernel.taskThreads pid, t ∈ s.kernel.threadsList → s.createdAs t = false
  | _ => True

theorem Kinds.privileged (h : Kinds s.kernel s.createdAs) (ht : t ∈ s.kernel.threadsList)
    (hcreated : s.createdAs t = true) : (s.kernel.threads t).privilege = .kernelThread :=
  h.guarded t ht ((h.kind t ht).trans hcreated)

theorem refuses_iff_of_privilege (h : Kinds s.kernel s.createdAs) {P : Prop}
    (ht : t ∈ s.kernel.threadsList) (hP : P ↔ (s.kernel.threads t).privilege = .kernelThread) :
    (P ↔ s.createdAs t = true) ↔
      (s.createdAs t = true ∨ (s.kernel.threads t).privilege ≠ .kernelThread) := by
  rw [hP]
  by_cases hcreated : s.createdAs t = true
  · simp [hcreated, h.privileged ht hcreated]
  · simp [hcreated]

theorem protects_kill_iff {pid : Pid} {sig : Option Signal} {r : SysResult}
    (hkill : s.kernel.sysKill pid sig = some r) :
    s.Protects (.kill pid sig) ↔ s.ProtectOk (.kill pid sig) := by
  obtain ⟨⟨k, log⟩, hlog⟩ : ∃ p, s.kernel.sysKillLog pid sig = some p := by
    have hfst := Kernel.sysKillLog_fst s.kernel pid sig
    rw [hkill] at hfst
    obtain ⟨p, hp, -⟩ := Option.map_eq_some_iff.mp hfst
    exact ⟨p, hp⟩
  refine ⟨fun h hmem hsig t ht hlist => ?_, fun h k' log' hlog' t ht hcreated => ?_⟩
  · obtain ⟨hnone, -⟩ | ⟨sig', -, -, -, rfl⟩ := Kernel.sysKillLog_cases hlog
    · obtain hmem' | rfl := hnone
      · exact absurd hmem hmem'
      · cases hsig
    · by_contra hcreated
      exact (h k _ hlog t hlist (by simpa using hcreated)).1 ht
  · obtain ⟨-, rfl, rfl⟩ | ⟨sig', rfl, hmem, hsignal, rfl⟩ := Kernel.sysKillLog_cases hlog'
    · exact ⟨List.not_mem_nil, rfl, ht⟩
    · have hother : t ∉ s.kernel.taskThreads pid := fun htask => by
        have hfalse := h hmem rfl t htask ht
        rw [hcreated] at hfalse
        cases hfalse
      have hspared := Kernel.Spared.signalTask hsignal hother
      exact ⟨hother, hspared.threads, hspared.mem ht⟩

/-- In every reachable state, a call that returns spares the kernel threads and serves the
others exactly under the condition. -/
theorem protects_iff_protectOk {es : List KernelEvent} {c : KernelCall}
    (hrun : Runs.exec step start es = some s) (hcall : s.kernel.step (.call c) = some k) :
    s.Protects c ↔ s.ProtectOk c := by
  have hkinds : Kinds s.kernel s.createdAs :=
    Runs.exec_keeps (I := fun s : Protection => Kinds s.kernel s.createdAs)
      (fun _ _ _ h hstep => h.step hstep) Kinds.schedStart hrun
  have hbody := (Option.ite_none_right_eq_some.mp hcall).2
  cases c with
  | pthreadCancel tid =>
      exact imp_congr_right fun htid =>
        refuses_iff_of_privilege hkinds htid (Kernel.sysPthreadCancel_eperm htid)
  | pthreadKill tid sig =>
      exact imp_congr_right fun htid =>
        refuses_iff_of_privilege hkinds htid (Kernel.sysPthreadKill_eperm sig htid)
  | pthreadSetschedparam tid schedPriority =>
      exact imp_congr_right fun htid =>
        refuses_iff_of_privilege hkinds htid
          (Kernel.sysPthreadSetschedparam_eperm schedPriority htid)
  | kill pid sig =>
      obtain ⟨r, hr, -⟩ := Option.map_eq_some_iff.mp hbody
      exact protects_kill_iff hr
  | _ => exact Iff.rfl

def callRun : List KernelEvent := Kernel.bootRun ++ [.syscallHandler]

theorem protects_iff_protectOk_at_call : ∃ s, Runs.exec step start callRun = some s ∧
    s.Protects (.pthreadSetschedparam 2 1) ∧ ¬ s.Protects (.pthreadSetschedparam 5 1) := by
  have hrun : (Runs.exec step start callRun).map (fun s => decide
      (s.kernel.Executing ∧ (s.kernel.threads s.kernel.runningThread).privilege = .kernelThread ∧
        5 ∈ s.kernel.threadsList ∧ s.createdAs 2 = true ∧ s.createdAs 5 = false ∧
        (s.kernel.threads 5).privilege = .kernelThread)) = some true := by decide +kernel
  obtain ⟨s, hs, hfacts⟩ := Option.map_eq_some_iff.mp hrun
  obtain ⟨hexec, hin, hmem, htwo, hfive, hprivilege⟩ := of_decide_eq_true hfacts
  have hcall : ∀ tid, s.kernel.step (.call (.pthreadSetschedparam tid 1)) =
      some (s.kernel.sysPthreadSetschedparam tid 1).1 := fun tid => if_pos ⟨hexec, hin⟩
  refine ⟨s, hs, (protects_iff_protectOk hs (hcall 2)).mpr fun _ => Or.inl htwo, fun h => ?_⟩
  obtain hcreated | hnot := (protects_iff_protectOk hs (hcall 5)).mp h hmem
  · rw [hfive] at hcreated
    cases hcreated
  · exact hnot hprivilege

/-- A user thread can neither cancel itself nor signal itself nor change its own priority,
and `kill` stops the thread of `filesysd`. -/
theorem protects_not_for_self_and_kill : ∃ s, Runs.exec step start callRun = some s ∧
    s.kernel.runningThread = 5 ∧ s.createdAs 5 = false ∧
    (s.kernel.sysPthreadCancel 5).map Prod.snd = some (.error .eperm) ∧
    (s.kernel.sysPthreadKill 5 (some .usr1)).map Prod.snd = some (.error .eperm) ∧
    (s.kernel.sysPthreadSetschedparam 5 1).2 = .error .eperm ∧
    s.createdAs 2 = true ∧ ∃ k, s.kernel.sysKillLog 2 (some .stop) = some (k, [2]) ∧
      (k.threads 2).status = .suspended := by
  have hrun : (Runs.exec step start callRun).map (fun s => decide
      (s.kernel.runningThread = 5 ∧ s.createdAs 5 = false ∧
        (s.kernel.sysPthreadCancel 5).map Prod.snd = some (.error .eperm) ∧
        (s.kernel.sysPthreadKill 5 (some .usr1)).map Prod.snd = some (.error .eperm) ∧
        (s.kernel.sysPthreadSetschedparam 5 1).2 = .error .eperm ∧ s.createdAs 2 = true ∧
        (s.kernel.sysKillLog 2 (some .stop)).map (fun r => (r.2, (r.1.threads 2).status)) =
          some ([2], .suspended))) = some true := by decide +kernel
  obtain ⟨s, hs, hfacts⟩ := Option.map_eq_some_iff.mp hrun
  obtain ⟨hrunning, hfive, hcancel, hsignal, hset, htwo, hkill⟩ := of_decide_eq_true hfacts
  obtain ⟨⟨k, log⟩, hlog, heq⟩ := Option.map_eq_some_iff.mp hkill
  obtain ⟨rfl, hstatus⟩ := Prod.mk.inj heq
  exact ⟨s, hs, hrunning, hfive, hcancel, hsignal, hset, htwo, k, hlog, hstatus⟩

end Protection

end Tenok
