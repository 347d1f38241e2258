import Tenok.Kernel.Dispatch
import Tenok.Kernel.Stops

/-!
Steps that a thread is spared in. What holds between two kernels when a thread is signalled, ended,
created or queued, holds between them after every system call that spares the thread.
-/
namespace Tenok
open Ring Queues

def KernelEvent.daemon : KernelEvent → Option Tid
  | .taskletSchedule tid => some tid
  | _ => none

namespace Kernel

/-- The step sends no signal to the thread that stops, continues or kills it, does not end it in
another way, and does not wake it as the daemon of the tasklets. -/
def Spares (k : Kernel) (t : Tid) (e : KernelEvent) : Prop :=
  t ∉ k.removes e ∧ e.daemon ≠ some t ∧ k.sent e t ≠ some .stop ∧ k.sent e t ≠ some .cont

instance decidableSpares (k : Kernel) (t : Tid) (e : KernelEvent) : Decidable (k.Spares t e) :=
  inferInstanceAs (Decidable (_ ∧ _ ∧ _ ∧ _))

/-- The relation holds across the parts of every call, as far as they are about other threads. -/
structure Carries (t : Tid) (R : Kernel → Kernel → Prop) : Prop where
  refl : ∀ k, R k k
  trans : ∀ {k k' k''}, R k k' → R k' k'' → R k k''
  setThread : ∀ {k A L u} {f : ThreadInfo → ThreadInfo}, Threaded k A L →
    (∀ i, (f i).status = i.status ∧ (f i).sleepTicks = i.sleepTicks ∧
      (f i).pollTimed = i.pollTimed) → R k (k.setThread u f)
  queueSelf : ∀ {k A L h} {f : ThreadInfo → ThreadInfo}, Threaded k A L → k.Unqueued →
    (∀ i, (f i).status = i.status) → h ∈ inUse A → h ≠ .join k.runningThread →
    R k ((k.setThread k.runningThread f).prepareToWait h k.runningThread .wait)
  sysPoll : ∀ {k A L}, Threaded k A L → k.Unqueued → ∀ timeout, R k (k.sysPoll timeout)
  grown : ∀ {k k' A L L'}, Grown k L k' A L' → Threaded k {t | k.Alive t} L → R k k'
  handleSignal : ∀ {k k' L u sig}, Parked k L → Threaded k {t | k.Alive t} L → k.Alive u →
    (sig = .stop → k.Stoppable u) → sig ≠ .kill → (t = u → sig ≠ .stop ∧ sig ≠ .cont) →
    k.handleSignal u sig = some k' → R k k'
  kill : ∀ {k k' L T}, Threaded k {t | k.Alive t} L → Registered k → T.Nodup →
    (∀ u ∈ T, k.Alive u) → k.Killable T → t ∉ T →
    T.foldlM (fun k u => k.handleSignal u .kill) k = some k' → R k k'
  threadDelete : ∀ {k k' L u}, Threaded k {t | k.Alive t} L → Registered k → k.Alive u →
    k.Killable [u] → t ≠ u → k.threadDelete u = some k' → R k k'
  sysExit : ∀ {k k' L}, Threaded k {t | k.Alive t} L → Registered k → k.ExitOk →
    t ∉ k.currentThreads → k.sysExit = some k' → R k k'
  threadJoinHandler : ∀ {k k' L}, Threaded k {t | k.Alive t} L → Registered k → k.Executing →
    k.ThreadExitOk → k.threadJoinHandler = some k' → R k k'

namespace Carries
variable {R : Kernel → Kernel → Prop} {k k' : Kernel} {L : SchedList → List Tid} {t : Tid}
  {e : KernelEvent} {sig : Signal}

theorem signal {T : List Tid} (hc : Carries t R) (hP : Parked k L)
    (hT : Threaded k {t | k.Alive t} L) (hnodup : T.Nodup) (halive : ∀ u ∈ T, k.Alive u)
    (hstop : ∀ u ∈ T, sig = .stop → k.Stoppable u) (hkill : sig ≠ .kill)
    (hspares : t ∈ T → sig ≠ .stop ∧ sig ≠ .cont)
    (hsig : T.foldlM (fun k u => k.handleSignal u sig) k = some k') : R k k' := by
  exact hP.signal_induct hc.refl hc.trans (fun hP hT hmem hu hstop =>
    hc.handleSignal hP hT hu hstop hkill fun htu => hspares (htu ▸ hmem)) hT hnodup halive hstop
    hkill hsig

theorem received {tid : Tid} (hc : Carries t R) (hP : Parked k L)
    (hT : Threaded k {t | k.Alive t} L) (hR : Registered k) (hreceives : k.Receives tid)
    (hsignal : k.SignalOk [tid] (some sig))
    (hspares : k.Spares t (.call (.pthreadKill tid (some sig))))
    (hsig : k.handleSignal tid sig = some k') : R k k' := by
  have halive := hR.threadsList.2 tid hreceives.1
  obtain ⟨hremoves, -, hstop, hcont⟩ := hspares
  by_cases hs : sig = .kill
  · subst hs
    rw [removes, if_pos hreceives] at hremoves
    exact hc.kill hT hR (List.nodup_singleton tid) (by simpa using halive) hsignal hremoves
      (by simpa using hsig)
  · refine hc.handleSignal hP hT halive (fun hs => ?_) hs (fun htid => ?_) hsig
    · subst hs
      exact hsignal tid (List.mem_singleton.mpr rfl)
    · have hsent : k.sent (.call (.pthreadKill tid (some sig))) t = some sig :=
        if_pos ⟨htid, hreceives⟩
      exact ⟨fun h => hstop (h ▸ hsent), fun h => hcont (h ▸ hsent)⟩

theorem signalled {task : Pid} (hc : Carries t R) (hP : Parked k L)
    (hT : Threaded k {t | k.Alive t} L) (hR : Registered k)
    (hok : k.SignalOk (k.taskThreads task) (some sig)) (hspares : k.Spares t e)
    (hsent : t ∈ k.taskThreads task → k.sent e t = some sig)
    (hremoves : sig = .kill → k.removes e = k.taskThreads task)
    (hsig : k.signalTask task sig = some k') : R k k' := by
  obtain ⟨hnodup, hmem⟩ := hR.taskThreads task
  have halive : ∀ u ∈ k.taskThreads task, k.Alive u := fun u hu => (hmem u hu).1
  by_cases hkill : sig = .kill
  · subst hkill
    exact hc.kill hT hR hnodup halive hok (fun ht => hspares.1 ((hremoves rfl).symm ▸ ht)) hsig
  · refine hc.signal hP hT hnodup halive (fun u hu hs => ?_) hkill (fun ht => ⟨fun hs => ?_,
      fun hs => ?_⟩) hsig
    · subst hs
      exact hok u hu
    · exact hspares.2.2.1 (hs ▸ hsent ht)
    · exact hspares.2.2.2 (hs ▸ hsent ht)

theorem runCall {c : KernelCall} (hc : Carries t R) (hP : Parked k L)
    (hT : Threaded k {t | k.Alive t} L) (hR : Registered k) (hexec : k.Executing)
    (hok : k.CallOk c) (hspares : k.Spares t (.call c)) (hcall : k.runCall c = some k') :
    R k k' := by
  cases runCall_cases hT hR hok hcall with
  | same _ => exact hc.refl k
  | queues _ _ _ hst hin _ hjoin => exact hc.queueSelf hT hst (fun _ => rfl) hin hjoin
  | awaits set hst => exact hc.queueSelf hT hst (fun _ => rfl) Threaded.suspend_inUse (by simp)
  | polls timeout hst => exact hc.sysPoll hT hst timeout
  | detaches tid => exact hc.setThread hT fun _ => ⟨rfl, rfl, rfl⟩
  | setsPriority tid schedPriority priority original =>
      exact hc.setThread hT fun _ => ⟨rfl, rfl, rfl⟩
  | threadExits hends h => exact hc.threadJoinHandler hT hR hexec hends h
  | exits hends h => exact hc.sysExit hT hR hends hspares.1 h
  | cancels tid hreceives hkillable h =>
      have hremoves := hspares.1
      rw [removes, if_pos hreceives] at hremoves
      exact hc.threadDelete hT hR (hR.threadsList.2 tid hreceives.1) hkillable
        (by simpa using hremoves) h
  | signals tid s hreceives hsignal h => exact hc.received hP hT hR hreceives hsignal hspares h
  | kills pid s hmem hsignal h =>
      refine hc.signalled hP hT hR hsignal hspares (fun ht => if_pos ⟨hmem, ht⟩) (fun hs => ?_) h
      subst hs
      exact if_pos hmem
  | raises task s htask hsignal h =>
      have hthreads := currentThreads_eq htask
      refine hc.signalled hP hT hR hsignal hspares (fun ht => if_pos (hthreads.symm ▸ ht))
        (fun hs => ?_) h
      subst hs
      exact hthreads
  | creates attr stack h =>
      obtain ⟨A, L', hg⟩ := hT.sysPthreadCreate h
      exact hc.grown hg hT
  | createsTask priority kernelThread stack =>
      obtain ⟨A, L', hg⟩ := hT.taskCreate rfl
      exact hc.grown hg hT

end Carries

end Kernel

end Tenok
