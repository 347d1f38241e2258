import Tenok.Kernel.KernelRuns

/-!
The ready lists. `__schedule` takes the first thread of the highest of them, so a thread
is to be on the list of its priority. What puts threads on these lists and what raises an
owner does so; `pthread_setschedparam` and the end of an inheritance write a priority and
do not look where the thread is.
-/
namespace Tenok
open Ring Queues

namespace Kernel
variable {k k' : Kernel} {A : Set Tid} {L L' : SchedList → List Tid} {h : SchedList} {t u : Tid}
  {T : List Tid} {e : KernelEvent}

/-- Every thread that is linked on a ready list is ready and has the priority of the list. -/
def Filed (k : Kernel) : Prop :=
  ∀ p : Priority, ∀ t ∈ k.members (.ready p),
    (k.threads t).status = .ready ∧ (k.threads t).priority = p

instance decidableFiled (k : Kernel) : Decidable k.Filed :=
  inferInstanceAs (Decidable (∀ _ : Fin _, ∀ _ ∈ _, _ ∧ _))

/-- A thread on a ready list gets no other priority than that of the list. -/
def FileOk (k : Kernel) : KernelEvent → Prop
  | .call (.pthreadSetschedparam tid schedPriority) => k.Settable tid schedPriority →
      (k.threads tid).priorityInherited = false →
        ∀ p, tid ∈ k.members (.ready p) → p = Fin.ofNat _ schedPriority.toNat
  | .resetInheritedPriority => (k.threads k.runningThread).priorityInherited = true →
      ∀ p, k.runningThread ∈ k.members (.ready p) →
        p = (k.threads k.runningThread).originalPriority
  | _ => True

theorem filed_iff (hT : Threaded k A L) : k.Filed ↔ FiledIn k L := by
  have hmembers : ∀ p, k.members (.ready p) = L (.ready p) := fun p =>
    hT.members_eq (Threaded.ready_inUse p)
  simp only [Filed, FiledIn, hmembers]
  exact forall_comm

/-- The kernel after a step, with what the step filed. -/
def Refiled (k : Kernel) (L : SchedList → List Tid) (k' : Kernel) : Prop :=
  ∃ A L', Threaded k' A L' ∧ Files k L k' L'

theorem Refiled.filed (h : Refiled k L k') (hF : FiledIn k L) : k'.Filed := by
  obtain ⟨A, L', hT', hfiles⟩ := h
  exact (filed_iff hT').mpr (hfiles.filedIn hF)

namespace Refiled

theorem of_wakes {S : Set SchedList} (hT' : Threaded k' A L') (hW : Wakes S k L k' L') :
    Refiled k L k' := ⟨A, L', hT', hW.files⟩

theorem same (hT : Threaded k A L) : Refiled k L k := ⟨A, L, hT, Files.refl k L⟩

theorem setThread {f : ThreadInfo → ThreadInfo} (hT : Threaded k A L)
    (hf : ∀ i, (f i).status = i.status ∧ (f i).priority = i.priority) :
    Refiled k L (k.setThread t f) :=
  ⟨A, L, hT.setThread fun i => (hf i).1, Files.setThread hf⟩

theorem congr (h : Refiled k L k') {k'' : Kernel} (hlinks : k''.links = k'.links)
    (hthreads : k''.threads = k'.threads) (hbitmap : k''.bitmapThreads = k'.bitmapThreads)
    (hrun : k''.runningThread = k'.runningThread) : Refiled k L k'' := by
  obtain ⟨A, L', hT', hfiles⟩ := h
  refine ⟨A, L', hT'.of_status hlinks hbitmap hrun fun t => by rw [hthreads], ?_⟩
  simpa only [Files, hthreads] using hfiles

theorem queueSelf {f : ThreadInfo → ThreadInfo} (hT : Threaded k A L) (hst : k.Unqueued)
    (hf : ∀ i, (f i).status = i.status ∧ (f i).priority = i.priority) (hh : h ∈ inUse A)
    (hready : ∀ p, h ≠ .ready p) (hjoin : h ≠ .join k.runningThread) :
    Refiled k L ((k.setThread k.runningThread f).prepareToWait h k.runningThread .wait) := by
  have hT₁ := hT.setThread (t := k.runningThread) fun i => (hf i).1
  have hst₁ := (Threaded.status_setThread (t := k.runningThread) (fun i => (hf i).1)
    k.runningThread).trans hst
  exact ⟨A, _, hT₁.prepareToWait hh hst₁ (by simp) hjoin,
    (Files.setThread hf).trans (Files.prepareToWait hT₁ hst₁ hready)⟩

theorem queue (hT : Threaded k A L) (hst : k.Unqueued) (hh : h ∈ inUse A)
    (hready : ∀ p, h ≠ .ready p) (hjoin : h ≠ .join k.runningThread) :
    Refiled k L (k.prepareToWait h k.runningThread .wait) :=
  ⟨A, _, hT.prepareToWait hh hst (by simp) hjoin, Files.prepareToWait hT hst hready⟩

theorem removed (hrem : Removed A k L T k' L') : Refiled k L k' := by
  refine ⟨A, L', hrem.threaded, Files.of_subset (fun u p hu => ((hrem.mem u _).mp hu).2)
    fun u p hu => ?_⟩
  rw [hrem.threads u ((hrem.mem u _).mp hu).1]
  exact ⟨rfl, rfl⟩

theorem sysExit (hT : Threaded k {t | k.Alive t} L) (hR : Registered k) (hok : k.ExitOk)
    (hexit : k.sysExit = some k') : Refiled k L k' := by
  obtain ⟨task, L', -, hrem⟩ := hT.sysExit hR hok hexit
  exact removed hrem

theorem threadJoinHandler (hT : Threaded k {t | k.Alive t} L) (hR : Registered k)
    (hexec : k.Executing) (hok : k.ThreadExitOk) (hhandler : k.threadJoinHandler = some k') :
    Refiled k L k' := by
  obtain ⟨k₁, L₁, hW, -, hrem, -⟩ := hT.threadExit hR hexec hok hhandler
  obtain ⟨B, L', hT', hfiles⟩ := removed hrem
  exact ⟨B, L', hT', hW.files.trans hfiles⟩

theorem signal {sig : Signal} (hT : Threaded k {t | k.Alive t} L) (hR : Registered k)
    (hnodup : T.Nodup) (halive : ∀ t ∈ T, k.Alive t) (hok : k.SignalOk T (some sig))
    (hsig : T.foldlM (fun k t => k.handleSignal t sig) k = some k') : Refiled k L k' := by
  by_cases hkill : sig = .kill
  · subst hkill
    obtain ⟨L', hrem⟩ := hT.kill hR hnodup halive hok hsig
    exact removed hrem
  · have hstop : ∀ t ∈ T, sig = .stop → k.Stoppable t := by
      rintro t ht rfl
      exact hok t ht
    obtain ⟨⟨L', hT', hfiles⟩, -⟩ := hT.foldlM_touched (fun k t => sig = .stop → k.Stoppable t)
      hR hnodup halive hstop
      (fun k₁ k₂ t u htouched hut hk₁ hs => Threaded.stoppable_frame htouched hut (hk₁ hs))
      (fun k₁ L₁ t k₂ hT₁ ht hk₁ => handleSignal_touched hT₁ ht hk₁ hkill) hsig
    exact ⟨_, L', hT', hfiles⟩

theorem signalTask {task : Pid} {sig : Signal} (hT : Threaded k {t | k.Alive t} L)
    (hR : Registered k) (hok : k.SignalOk (k.taskThreads task) (some sig))
    (hsig : k.signalTask task sig = some k') : Refiled k L k' :=
  signal hT hR (hR.taskThreads task).1 (fun t ht => ((hR.taskThreads task).2 t ht).1) hok hsig

theorem grown (hg : Grown k L k' A L') (hT : Threaded k {t | k.Alive t} L) : Refiled k L k' := by
  have hready : ∀ p, L' (.ready p) = L (.ready p) := fun p => by
    obtain heq | ⟨u, heq⟩ := hg.lists
    · rw [heq]
    · rw [heq, enqueue_of_ne (by simp)]
  refine ⟨A, L', hg.threaded, Files.of_subset (fun u p hu => hready p ▸ hu) fun u p hu => ?_⟩
  rw [hg.threads u (hT.alive (hready p ▸ hu))]
  exact ⟨rfl, rfl⟩

theorem systemTicks {expired : Tid → Bool} (hT : Threaded k {t | k.Alive t} L)
    (hR : Registered k) (hticks : k.systemTicksUpdate expired = some k') : Refiled k L k' := by
  obtain ⟨threads, hupdate, hinfo⟩ := hT.threadsTicksUpdate
  have hsame : ∀ t, (threads t).status = (k.threads t).status ∧
      (threads t).priority = (k.threads t).priority := fun t => by
    rw [(hinfo t).1]
    exact ⟨rfl, rfl⟩
  have hT₁ : Threaded { k with threads } {t | k.Alive t} L :=
    hT.of_status rfl rfl rfl fun t => (hsame t).1
  have hfiles : Files k L { k with threads } L :=
    Files.of_subset (fun _ _ => id) fun t _ _ => hsame t
  obtain ⟨L', hT', hW⟩ := hT₁.foldl_finishWait (c := expired) fun t ht => (hR.timeoutList.2 t ht).1
  rw [Kernel.systemTicksUpdate, hupdate] at hticks
  obtain rfl := Option.some.inj hticks
  exact ⟨_, L', hT', hfiles.trans hW.files⟩

theorem runCall {c : KernelCall} (hT : Threaded k {t | k.Alive t} L) (hR : Registered k)
    (hexec : k.Executing) (hok : k.CallOk c)
    (hset : ∀ tid schedPriority, c ≠ .pthreadSetschedparam tid schedPriority)
    (hcall : k.runCall c = some k') : Refiled k L k' := by
  cases runCall_cases hT hR hok hcall with
  | same _ => exact same hT
  | queues _ _ _ hst hin hready hjoin => exact queueSelf hT hst (fun _ => ⟨rfl, rfl⟩) hin hready hjoin
  | awaits set hst =>
      exact queueSelf hT hst (fun _ => ⟨rfl, rfl⟩) Threaded.suspend_inUse (by simp) (by simp)
  | polls timeout hst =>
      obtain ⟨B, L', hT', hfiles⟩ := queue hT hst poll_inUse (by simp) (by simp)
      rw [Kernel.sysPoll]
      split
      · have hpoll : Refiled k L ((k.prepareToWait .poll k.runningThread .wait).setThread
            k.runningThread fun i => { i with pollTimed := true }) :=
          ⟨B, L', hT'.setThread fun _ => rfl, hfiles.trans (Files.setThread fun _ => ⟨rfl, rfl⟩)⟩
        exact hpoll.congr rfl rfl rfl rfl
      · exact ⟨B, L', hT', hfiles⟩
  | detaches tid => exact setThread hT fun _ => ⟨rfl, rfl⟩
  | setsPriority tid schedPriority => exact absurd rfl (hset tid schedPriority)
  | threadExits hends h => exact threadJoinHandler hT hR hexec hends h
  | exits hends h => exact sysExit hT hR hends h
  | cancels tid hreceives hkillable h =>
      obtain ⟨L', hrem⟩ := hT.deleteKillable hR (hR.threadsList.2 tid hreceives.1) hkillable h
      exact removed hrem
  | signals tid s hreceives hsignal h =>
      exact signal hT hR (List.nodup_singleton tid)
        (by simpa using hR.threadsList.2 tid hreceives.1) hsignal (by simpa using h)
  | kills pid s _ hsignal h => exact signalTask hT hR hsignal h
  | raises task s _ hsignal h => exact signalTask hT hR hsignal h
  | creates attr stack h =>
      obtain ⟨A, L', hg⟩ := hT.sysPthreadCreate h
      exact grown hg hT
  | createsTask priority kernelThread stack =>
      obtain ⟨A, L', hg⟩ := hT.taskCreate rfl
      exact grown hg hT

end Refiled

theorem filed_setPriority {f : ThreadInfo → ThreadInfo} (hT : Threaded k A L) (hF : FiledIn k L)
    (hf : ∀ i, (f i).status = i.status) : (k.setThread t f).Filed ↔
      ∀ p, t ∈ k.members (.ready p) → p = (f (k.threads t)).priority := by
  rw [filed_iff (hT.setThread hf)]
  constructor
  · intro hF' p ht
    rw [hT.members_eq (Threaded.ready_inUse p)] at ht
    simpa [Kernel.setThread] using (hF' t p ht).2.symm
  · intro hlists u p hu
    obtain ⟨hst, hpri⟩ := hF u p hu
    by_cases hut : u = t
    · subst hut
      have hp := hlists p (by rwa [hT.members_eq (Threaded.ready_inUse p)])
      simp [Kernel.setThread, hf, hst, ← hp]
    · simp [Kernel.setThread, hut, hst, hpri]

theorem fileOk_iff_of_setschedparam {tid : Tid} {schedPriority : Int} (hT : Threaded k A L)
    (hF : FiledIn k L) : k.FileOk (.call (.pthreadSetschedparam tid schedPriority)) ↔
      (k.sysPthreadSetschedparam tid schedPriority).1.Filed := by
  have hst : ∀ i : ThreadInfo, (if i.priorityInherited = true then
      { i with originalPriority := Fin.ofNat _ schedPriority.toNat }
      else { i with priority := Fin.ofNat _ schedPriority.toNat }).status = i.status := fun i => by
    split <;> rfl
  obtain ⟨hnot, error, heq⟩ | ⟨hset, heq⟩ := sysPthreadSetschedparam_cases k tid schedPriority
  · rw [heq]
    exact iff_of_true (fun hset => absurd hset hnot) ((filed_iff hT).mpr hF)
  · rw [heq, filed_setPriority hT hF hst]
    cases hi : (k.threads tid).priorityInherited with
    | false => exact ⟨fun hfile => hfile hset hi, fun hlists _ _ => hlists⟩
    | true =>
        refine iff_of_true (fun _ hfalse => by simp [hi] at hfalse) fun p hp => ?_
        rw [hT.members_eq (Threaded.ready_inUse p)] at hp
        exact (hF tid p hp).2.symm

/-- The condition says exactly whether a step leaves every ready thread on its list. -/
theorem fileOk_iff_filed (hinv : Consistent k) (hok : k.EventOk e) (hfiled : k.Filed)
    (hstep : k.step e = some k') : k.FileOk e ↔ k'.Filed := by
  obtain ⟨L, hT, hR⟩ := hinv
  have hF := (filed_iff hT).mp hfiled
  have hkeeps : Refiled k L k' → k'.Filed := fun h => h.filed hF
  have hlists : Refiled k L k' → (True ↔ k'.Filed) := fun h => iff_of_true trivial (hkeeps h)
  cases step_cases hT hok hstep with
  | @call _ c hexec hcall hbody =>
      by_cases hset : ∃ tid schedPriority, c = .pthreadSetschedparam tid schedPriority
      · obtain ⟨tid, schedPriority, rfl⟩ := hset
        obtain rfl := Option.some.inj hbody
        exact fileOk_iff_of_setschedparam hT hF
      · have hother : ∀ tid schedPriority, c ≠ .pthreadSetschedparam tid schedPriority :=
          fun tid schedPriority h => hset ⟨tid, schedPriority, h⟩
        have hfile : k.FileOk (.call c) := by
          cases c with
          | pthreadSetschedparam tid schedPriority => exact absurd rfl (hother tid schedPriority)
          | _ => trivial
        exact iff_of_true hfile (hkeeps (Refiled.runCall hT hR hexec hcall hother hbody))
  | pollRet =>
      exact hlists ((Refiled.setThread (t := k.runningThread)
        (f := fun i => { i with pollTimed := false }) hT fun _ => ⟨rfl, rfl⟩).congr rfl rfl rfl rfl)
  | syscallHandler => exact hlists (Refiled.setThread hT fun _ => ⟨rfl, rfl⟩)
  | syscallReturn => exact hlists (Refiled.setThread hT fun _ => ⟨rfl, rfl⟩)
  | exits _ hends h => exact hlists (Refiled.sysExit hT hR hends h)
  | threadExits hexec hends h => exact hlists (Refiled.threadJoinHandler hT hR hexec hends h)
  | wakeUp _ hT₁ hW | wakeUpAll _ hT₁ hW | fifoWakeUp _ _ hT₁ hW | pollNotify _ hT₁ hW =>
      exact hlists (Refiled.of_wakes hT₁ hW)
  | taskletSchedule tid hmem =>
      obtain ⟨L', hT', hW⟩ := hT.finishWait (hR.threadsList.2 _ hmem)
      exact hlists (Refiled.of_wakes hT' hW)
  | inheritPriority mutex hT' _ hraised =>
      exact iff_of_true trivial ((filed_iff hT').mpr (hraised hF))
  | resetInheritedPriority =>
      have hst : ∀ i : ThreadInfo, (if i.priorityInherited = true then
          { i with priority := i.originalPriority, priorityInherited := false }
          else i).status = i.status := fun i => by split <;> rfl
      rw [threadResetInheritedPriority, filed_setPriority hT hF hst]
      cases hi : (k.threads k.runningThread).priorityInherited with
      | true => exact ⟨fun hfile => hfile hi, fun hlists _ => hlists⟩
      | false =>
          refine iff_of_true (fun h => by simp [hi] at h) fun p hp => ?_
          rw [hT.members_eq (Threaded.ready_inUse p)] at hp
          exact (hF _ p hp).2.symm
  | systemTicks expired h => exact hlists (Refiled.systemTicks hT hR h)
  | schedule _ hT' hD => exact hlists ⟨_, _, hT', hD.files⟩

theorem filed_schedStart : schedStart.Filed := by decide +kernel

/-- In a run that keeps the lists well formed, every ready thread is on the list of its
priority all the time exactly if no step gives a thread on a ready list another priority. -/
theorem filed_iff_fileOk {es : List KernelEvent}
    (hok : Runs.AllOk EventOk Kernel.step schedStart es)
    (hrun : Runs.exec Kernel.step schedStart es = some k) :
    Runs.AllOk FileOk Kernel.step schedStart es ↔
      ∀ n u, Runs.exec Kernel.step schedStart (es.take n) = some u → u.Filed :=
  Runs.allOk_iff_of_allOk (fun _ _ _ hinv hok hstep => Consistent.step hinv hok hstep)
    (fun _ _ _ hinv hok hfiled hstep => fileOk_iff_filed hinv hok hfiled hstep) schedStart_spec
    filed_schedStart hok hrun

instance decidableFileOk (k : Kernel) : (e : KernelEvent) → Decidable (k.FileOk e)
  | .call (.pthreadSetschedparam _ _) => inferInstanceAs (Decidable (_ → _ → ∀ _ : Fin _, _ → _))
  | .resetInheritedPriority => inferInstanceAs (Decidable (_ → ∀ _ : Fin _, _ → _))
  | .call (.delayTicks _) | .call .schedYield | .call (.wait _) | .call (.fifoWait _ _)
  | .call (.initQueue _) | .call (.poll _) | .call (.sigwait _) | .call (.pthreadJoin _)
  | .call (.pthreadDetach _) | .call .pthreadExit | .call .exit | .call (.pthreadCancel _)
  | .call (.pthreadKill _ _) | .call (.kill _ _) | .call (.raise _) | .call (.pthreadCreate _ _)
  | .call (.taskCreate _ _ _) | .pollRet | .syscallHandler | .syscallReturn | .threadReturn
  | .wakeUp _ | .wakeUpAll _ | .fifoWakeUp _ _ | .pollNotify _ | .taskletSchedule _
  | .inheritPriority _ | .systemTicks _ | .schedule => inferInstanceAs (Decidable True)

/-- The first task makes a thread and gives it a higher priority while it sleeps. -/
def promoteRun : List KernelEvent :=
  bootRun ++ [.syscallHandler, .call (.pthreadCreate none true),
    .call (.pthreadSetschedparam 4 3), .syscallReturn, .schedule]

theorem filed_iff_fileOk_at_promote :
    ∃ k, Runs.exec Kernel.step schedStart promoteRun = some k ∧ k.runningThread = 4 ∧ k.Filed := by
  have hrun : (Runs.exec Kernel.step schedStart promoteRun).map Kernel.runningThread =
      some 4 := by decide +kernel
  obtain ⟨k, hk, hrunning⟩ := Option.map_eq_some_iff.mp hrun
  have hend : Runs.exec Kernel.step schedStart (promoteRun.take promoteRun.length) = some k := by
    rw [List.take_length]
    exact hk
  have hfiles : Runs.AllOk FileOk Kernel.step schedStart promoteRun := by decide +kernel
  exact ⟨k, hk, hrunning, (filed_iff_fileOk (by decide +kernel) hk).mp hfiles _ k hend⟩

/-- The new thread gives the task a higher priority while that is on its ready list. -/
def strayRun : List KernelEvent :=
  promoteRun ++ [.syscallHandler, .call (.pthreadSetschedparam 5 4)]

/-- The task has priority 4 and is on the list for 1. -/
theorem filed_not_for_setschedparam : Runs.AllOk EventOk Kernel.step schedStart strayRun ∧
    ∃ k, Runs.exec Kernel.step schedStart strayRun = some k ∧ 5 ∈ k.members (.ready 1) ∧
      (k.threads 5).priority = 4 ∧ ¬ k.Filed := by
  have hrun : (Runs.exec Kernel.step schedStart strayRun).map (fun k =>
      decide (5 ∈ k.members (.ready 1) ∧ (k.threads 5).priority = 4)) = some true := by
    decide +kernel
  obtain ⟨k, hk, hfacts⟩ := Option.map_eq_some_iff.mp hrun
  obtain ⟨hmem, hpri⟩ := of_decide_eq_true hfacts
  refine ⟨by decide +kernel, k, hk, hmem, hpri, fun hfiled => ?_⟩
  have hlist := (hfiled 1 5 hmem).2
  rw [hpri] at hlist
  simp at hlist

end Kernel

end Tenok
