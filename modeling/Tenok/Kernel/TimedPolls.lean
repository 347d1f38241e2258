import Tenok.Kernel.Parked

/-!
Threads blocked in a `sys_poll` with a timeout. The tick and the events of files wake them;
every other step leaves them where they are.
-/
namespace Tenok
open Ring Queues

def KernelEvent.onPolls : KernelEvent → Bool
  | .call (.poll _) | .pollRet | .pollNotify _ | .systemTicks _ => true
  | _ => false

namespace Kernel
variable {k k' k'' : Kernel} {A A' : Set Tid} {L L' : SchedList → List Tid} {h g : SchedList}
  {t : Tid} {S : Set SchedList}

/-- The thread is blocked in `sys_poll` and its deadline is watched. -/
structure PollBlocked (k : Kernel) (t : Tid) : Prop where
  timed : t ∈ k.timeoutList
  polls : t ∈ k.members .poll
  status : (k.threads t).status = .wait

instance decidablePollBlocked (k : Kernel) (t : Tid) : Decidable (k.PollBlocked t) :=
  decidable_of_iff (t ∈ k.timeoutList ∧ t ∈ k.members .poll ∧ (k.threads t).status = .wait)
    ⟨fun h => ⟨h.1, h.2.1, h.2.2⟩, fun h => ⟨h.timed, h.polls, h.status⟩⟩

structure KeepsPolls (k k' : Kernel) : Prop where
  timeoutList : k'.timeoutList = k.timeoutList
  blocked : ∀ t, k.PollBlocked t → k'.PollBlocked t

namespace KeepsPolls

theorem refl (k : Kernel) : KeepsPolls k k := ⟨rfl, fun _ => id⟩

theorem trans (h : KeepsPolls k k') (h' : KeepsPolls k' k'') : KeepsPolls k k'' :=
  ⟨h'.timeoutList.trans h.timeoutList, fun t ht => h'.blocked t (h.blocked t ht)⟩

theorem of_lists (hT : Threaded k A L) (hT' : Threaded k' A' L')
    (htimeouts : k'.timeoutList = k.timeoutList)
    (hlists : ∀ t ∈ L .poll, t ∈ k.timeoutList → (k.threads t).status = .wait →
      t ∈ L' .poll ∧ (k'.threads t).status = .wait) : KeepsPolls k k' := by
  refine ⟨htimeouts, fun t ht => ?_⟩
  obtain ⟨hmem, hst⟩ := hlists t (hT.members_eq poll_inUse ▸ ht.polls) ht.timed ht.status
  exact ⟨htimeouts ▸ ht.timed, hT'.members_eq poll_inUse ▸ hmem, hst⟩

theorem wakes (hT : Threaded k A L) (hT' : Threaded k' A' L') (hW : Wakes S k L k' L')
    (hS : SchedList.poll ∉ S) : KeepsPolls k k' := by
  refine of_lists hT hT' (by rw [hW.rest]) fun t ht _ hst => ⟨?_, ?_⟩
  · rwa [hW.others _ hS (by simp)]
  · rwa [hW.stays _ hS (by simp) t ht]

theorem dispatches (hT : Threaded k A L) (hT' : Threaded k' A' L')
    (hD : Dispatches k L k' L') : KeepsPolls k k' := by
  refine of_lists hT hT' (by rw [hD.rest]) fun t ht _ hst => ⟨?_, ?_⟩
  · rwa [hD.others _ (by simp) (by simp)]
  · rwa [hD.stays _ (by simp) (by simp) t ht]

theorem raised (hT : Threaded k A L) (hT' : Threaded k' A' L') (hR : Raised k L k' L') :
    KeepsPolls k k' := by
  refine of_lists hT hT' (by rw [hR.rest]) fun t ht _ hst => ⟨?_, ?_⟩
  · rwa [hR.others _ (by simp)]
  · rwa [hR.info]

theorem removed {T : List Tid} (hT : Threaded k A L) (hrem : Removed A' k L T k' L')
    (hdel : ∀ t ∈ T, t ∉ k.timeoutList) : KeepsPolls k k' := by
  refine of_lists hT hrem.threaded hrem.timeoutList fun t ht htimed hst => ?_
  have htT : t ∉ T := fun hmem => hdel t hmem htimed
  exact ⟨(hrem.mem t _).mpr ⟨htT, ht⟩, (hrem.threads t htT).symm ▸ hst⟩

theorem setThread {f : ThreadInfo → ThreadInfo} (hT : Threaded k A L)
    (hf : ∀ i, (f i).status = i.status) : KeepsPolls k (k.setThread t f) :=
  of_lists hT (hT.setThread hf) rfl fun u hu _ hst =>
    ⟨hu, (Threaded.status_setThread hf u).trans hst⟩

theorem queueSelf {f : ThreadInfo → ThreadInfo} {state : ThreadStatus} (hT : Threaded k A L)
    (hst : k.Unqueued) (hf : ∀ i, (f i).status = i.status) (hin : h ∈ inUse A)
    (hstate : state ≠ .running) (hjoin : h ≠ .join k.runningThread) :
    KeepsPolls k ((k.setThread k.runningThread f).prepareToWait h k.runningThread state) := by
  have hst' := (Threaded.status_setThread (t := k.runningThread) hf k.runningThread).trans hst
  refine of_lists hT ((hT.setThread hf).prepareToWait hin hst' hstate hjoin) rfl
    fun t ht _ hwait => ⟨mem_enqueue.mpr (Or.inl ht), ?_⟩
  have htr : t ≠ k.runningThread := fun htr => hT.notMem_of_running hst _ (htr ▸ ht)
  simpa [Kernel.prepareToWait, setStatus, Kernel.setThread, htr] using hwait

theorem prepareToWait {state : ThreadStatus} (hT : Threaded k A L) (hst : k.Unqueued)
    (hin : h ∈ inUse A) (hstate : state ≠ .running) (hjoin : h ≠ .join k.runningThread) :
    KeepsPolls k (k.prepareToWait h k.runningThread state) := by
  have hself := queueSelf (f := fun i => i) hT hst (fun _ => rfl) hin hstate hjoin
  rwa [setThread_id] at hself

theorem makeReady (hT : Threaded k A L) (ht : t ∈ L g) (hnot : ¬ k.PollBlocked t) :
    KeepsPolls k (k.makeReady t) := by
  refine of_lists hT (hT.makeReady ht) rfl fun u hu htimed hst => ?_
  have hut : u ≠ t := by
    rintro rfl
    exact hnot ⟨htimed, (hT.members_eq poll_inUse).symm ▸ hu, hst⟩
  refine ⟨hT.rings.mem_transfer.mpr (Or.inl ⟨hut, hu⟩), ?_⟩
  simpa [Kernel.makeReady, setStatus, Kernel.setThread, hut] using hst

theorem finishWait (hT : Threaded k A L) (ht : k.Alive t) (hnot : ¬ k.PollBlocked t) :
    KeepsPolls k (k.finishWait t) := by
  rw [Kernel.finishWait]
  split
  · next hrun =>
      obtain ⟨g, hg⟩ := hT.exists_mem ht hrun
      exact makeReady hT hg hnot
  · exact refl k

/-! ### Signals -/

theorem endSigwait {sig : Signal} (hP : Parked k L) (hT : Threaded k A L) (ht : k.Alive t) :
    KeepsPolls k (k.endSigwait t sig) := by
  rw [Kernel.endSigwait]
  split
  · next hwait =>
      have hset : KeepsPolls k (k.setThread t fun i => { i with waitForSignal := false }) :=
        setThread hT fun _ => rfl
      have hT₁ : Threaded (k.setThread t fun i => { i with waitForSignal := false }) A L :=
        hT.setThread fun _ => rfl
      refine hset.trans (finishWait hT₁ ht fun hblocked => ?_)
      have hpoll := hblocked.polls
      rw [hT₁.members_eq poll_inUse] at hpoll
      cases hT.rings.unique (hP.waiting t ht hwait.1).1 hpoll
  · exact refl k

theorem threadSuspend (hT : Threaded k A L) (hst : k.Unqueued) :
    KeepsPolls k (k.threadSuspend k.runningThread) := by
  have hrunning : (k.threads k.runningThread).status = .running := hst
  rw [Kernel.threadSuspend, if_neg (by simp [hrunning])]
  exact prepareToWait hT hst Threaded.suspend_inUse (by simp) (by simp)

theorem handleSignal {sig : Signal} (hP : Parked k L) (hT : Threaded k {t | k.Alive t} L)
    (ht : k.Alive t) (hstop : sig = .stop → k.Stoppable t) (hkill : sig ≠ .kill)
    (hsig : k.handleSignal t sig = some k') : KeepsPolls k k' := by
  have hend : KeepsPolls k (k.endSigwait t sig) := endSigwait hP hT ht
  obtain ⟨L₁, hT₁, -, -⟩ := hP.endSigwait hT ht sig
  cases sig with
  | kill => exact absurd rfl hkill
  | stop =>
      obtain rfl := Option.some.inj hsig
      refine hend.trans ?_
      obtain ⟨rfl, hst⟩ | ⟨hst, hwait⟩ := hstop rfl
      · have hrun := (Touched.endSigwait k.runningThread k .stop).runningThread
        have hst₁ : (k.endSigwait k.runningThread .stop).Unqueued := by
          rw [Unqueued, hrun]
          exact (Threaded.endSigwait_running .stop rfl).trans hst
        have hsuspend := threadSuspend hT₁ hst₁
        rwa [hrun] at hsuspend
      · rw [Kernel.endSigwait, if_neg hwait, Kernel.threadSuspend, if_pos hst]
        exact refl k
  | cont =>
      obtain rfl := Option.some.inj hsig
      refine hend.trans ?_
      rw [Kernel.threadResume]
      split
      · exact refl _
      · next hst =>
          rw [not_not] at hst
          obtain ⟨g, hg⟩ := (hT₁.linked_iff t).mpr
            ⟨(Touched.endSigwait t k .cont).alive.mpr ht, by simp [hst]⟩
          exact makeReady hT₁ hg fun hblocked => by simpa [hst] using hblocked.status
  | usr1 | usr2 | poll =>
      obtain rfl := Option.some.inj hsig
      exact hend

theorem signal {sig : Signal} {T : List Tid} (hP : Parked k L) (hT : Threaded k {t | k.Alive t} L)
    (hnodup : T.Nodup) (halive : ∀ t ∈ T, k.Alive t) (hstop : ∀ t ∈ T, sig = .stop → k.Stoppable t)
    (hkill : sig ≠ .kill) (hsig : T.foldlM (fun k t => k.handleSignal t sig) k = some k') :
    KeepsPolls k k' :=
  hP.signal_induct refl trans (fun hP hT _ ht hstop => handleSignal hP hT ht hstop hkill) hT hnodup
    halive hstop hkill hsig

theorem signalled {sig : Signal} {T : List Tid} (hP : Parked k L)
    (hT : Threaded k {t | k.Alive t} L) (hR : Registered k) (hnodup : T.Nodup)
    (halive : ∀ t ∈ T, k.Alive t) (hok : k.SignalOk T (some sig))
    (hsig : T.foldlM (fun k t => k.handleSignal t sig) k = some k') : KeepsPolls k k' := by
  by_cases hkill : sig = .kill
  · subst hkill
    obtain ⟨L', hrem⟩ := hT.kill hR hnodup halive hok hsig
    exact removed hT hrem fun t ht => (hok.1 t ht).1
  · refine signal hP hT hnodup halive (fun t ht hs => ?_) hkill hsig
    subst hs
    exact hok t ht

/-! ### Threads that begin and end -/

theorem grown (hg : Grown k L k' A L') (hT : Threaded k {t | k.Alive t} L) : KeepsPolls k k' :=
  of_lists hT hg.threaded hg.timeoutList fun t ht _ hwait =>
    ⟨hg.mem ht, (hg.threads t (hT.alive ht)).symm ▸ hwait⟩

theorem sysExit (hT : Threaded k {t | k.Alive t} L) (hR : Registered k) (hok : k.ExitOk)
    (hexit : k.sysExit = some k') : KeepsPolls k k' := by
  obtain ⟨task, L', htask, hrem⟩ := hT.sysExit hR hok hexit
  exact removed hT hrem fun t ht => ((hok task htask).1 t ht).1

theorem threadJoinHandler (hT : Threaded k {t | k.Alive t} L) (hR : Registered k)
    (hexec : k.Executing) (hok : k.ThreadExitOk) (hhandler : k.threadJoinHandler = some k') :
    KeepsPolls k k' := by
  have htimeout : k.runningThread ∉ k.timeoutList := fun hmem => by
    simpa [hexec.2] using (hR.timeoutList.2 _ hmem).2
  obtain ⟨k₁, L', hW, -, hrem, -⟩ := hT.threadExit hR hexec hok hhandler
  have htimeouts : k₁.timeoutList = k.timeoutList := by rw [hW.rest]
  refine of_lists hT hrem.threaded (hrem.timeoutList.trans htimeouts) fun t ht htimed hwait => ?_
  have htr : t ∉ [k.runningThread] := by
    simpa using fun htr : t = k.runningThread => htimeout (htr ▸ htimed)
  refine ⟨(hrem.mem t _).mpr ⟨htr, ?_⟩, ?_⟩
  · rwa [hW.others _ (by simp) (by simp)]
  · rwa [hrem.threads t htr, hW.stays _ (by simp) (by simp) t ht]

/-! ### All events -/

theorem runCall {c : KernelCall} (hP : Parked k L) (hT : Threaded k {t | k.Alive t} L)
    (hR : Registered k) (hexec : k.Executing) (hok : k.CallOk c)
    (hpoll : (KernelEvent.call c).onPolls = false) (hcall : k.runCall c = some k') :
    KeepsPolls k k' := by
  cases runCall_cases hT hR hok hcall with
  | same _ => exact refl k
  | queues _ _ _ hst hin _ hjoin => exact queueSelf hT hst (fun _ => rfl) hin (by simp) hjoin
  | awaits set hst =>
      exact queueSelf hT hst (fun _ => rfl) Threaded.suspend_inUse (by simp) (by simp)
  | polls timeout => cases hpoll
  | detaches tid => exact setThread hT fun _ => rfl
  | setsPriority tid schedPriority priority original => exact setThread hT fun _ => rfl
  | threadExits hends h => exact threadJoinHandler hT hR hexec hends h
  | exits hends h => exact sysExit hT hR hends h
  | cancels tid hreceives hkillable h =>
      obtain ⟨L', hrem⟩ := hT.deleteKillable hR (hR.threadsList.2 tid hreceives.1) hkillable h
      exact removed hT hrem fun t ht => (hkillable.1 t ht).1
  | signals tid s hreceives hsignal h =>
      have halive := hR.threadsList.2 tid hreceives.1
      exact signalled hP hT hR (List.nodup_singleton tid) (by simpa using halive) hsignal
        (by simpa using h)
  | kills pid s _ hsignal h =>
      obtain ⟨hnodup, hmem⟩ := hR.taskThreads pid
      exact signalled hP hT hR hnodup (fun t ht => (hmem t ht).1) hsignal h
  | raises task s _ hsignal h =>
      obtain ⟨hnodup, hmem⟩ := hR.taskThreads task
      exact signalled hP hT hR hnodup (fun t ht => (hmem t ht).1) hsignal h
  | creates attr stack h =>
      obtain ⟨A, L', hg⟩ := hT.sysPthreadCreate h
      exact grown hg hT
  | createsTask priority kernelThread stack =>
      obtain ⟨A, L', hg⟩ := hT.taskCreate rfl
      exact grown hg hT

theorem step {e : KernelEvent} (hP : Parked k L) (hT : Threaded k {t | k.Alive t} L)
    (hR : Registered k) (hok : k.EventOk e)
    (hdaemon : ∀ tid, e = .taskletSchedule tid → tid ∉ k.timeoutList)
    (hpoll : e.onPolls = false) (hstep : k.step e = some k') : KeepsPolls k k' := by
  cases step_cases hT hok hstep with
  | call hexec hcall h => exact runCall hP hT hR hexec hcall hpoll h
  | pollRet | pollNotify | systemTicks => cases hpoll
  | syscallHandler => exact setThread hT fun _ => rfl
  | syscallReturn => exact setThread hT fun _ => rfl
  | exits _ hends h => exact sysExit hT hR hends h
  | threadExits hexec hends h => exact threadJoinHandler hT hR hexec hends h
  | wakeUp _ hT₁ hW | wakeUpAll _ hT₁ hW | fifoWakeUp _ _ hT₁ hW => exact wakes hT hT₁ hW (by simp)
  | taskletSchedule tid hmem =>
      exact finishWait hT (hR.threadsList.2 _ hmem) fun h => hdaemon _ rfl h.timed
  | inheritPriority mutex hT' hraised => exact raised hT hT' hraised
  | resetInheritedPriority =>
      refine setThread hT fun i => ?_
      split <;> rfl
  | schedule _ hT' hD => exact dispatches hT hT' hD

end KeepsPolls

def Queued (k : Kernel) (t : Tid) : Prop :=
  (k.threads t).status = .ready ∧ ∃ p, t ∈ k.members (.ready p)

/-- The threads of `T` have become ready, but for the running one, and the others are on the
lists they were on. -/
structure Readied (T : Set Tid) (k : Kernel) (L : SchedList → List Tid) (k' : Kernel)
    (L' : SchedList → List Tid) : Prop where
  rest : k' = { k with links := k'.links, threads := k'.threads }
  ready : ∀ t ∈ T, t ≠ k.runningThread →
    (k'.threads t).status = .ready ∧ ∃ p, t ∈ L' (.ready p)
  stays : ∀ t ∉ T, k'.threads t = k.threads t ∧ ∀ g, t ∈ L g → t ∈ L' g

namespace Readied
variable {T T' : Set Tid} {L'' : SchedList → List Tid}

theorem refl (k : Kernel) (L : SchedList → List Tid) : Readied ∅ k L k L :=
  ⟨rfl, fun _ h => absurd h (Set.notMem_empty _), fun _ _ => ⟨rfl, fun _ => id⟩⟩

theorem runningThread (h : Readied T k L k' L') : k'.runningThread = k.runningThread := by
  rw [h.rest]

theorem alive (h : Readied T k L k' L') : k'.Alive t ↔ k.Alive t := by
  rw [Alive, h.rest, Alive]

theorem trans (h : Readied T k L k' L') (h' : Readied T' k' L' k'' L'') :
    Readied (T ∪ T') k L k'' L'' where
  rest := by rw [h'.rest, h.rest]
  ready t ht hrun := by
    by_cases hlast : t ∈ T'
    · exact h'.ready t hlast (h.runningThread ▸ hrun)
    · obtain ⟨hst, p, hp⟩ := h.ready t (ht.resolve_right hlast) hrun
      obtain ⟨hsame, hlists⟩ := h'.stays t hlast
      exact ⟨hsame ▸ hst, p, hlists _ hp⟩
  stays t ht := by
    rw [Set.mem_union, not_or] at ht
    obtain ⟨hsame, hlists⟩ := h.stays t ht.1
    obtain ⟨hsame', hlists'⟩ := h'.stays t ht.2
    exact ⟨hsame'.trans hsame, fun g hg => hlists' g (hlists g hg)⟩

theorem finishWait (hT : Threaded k A L) (ht : k.Alive t) :
    ∃ L', Threaded (k.finishWait t) A L' ∧ Readied {t} k L (k.finishWait t) L' := by
  by_cases hrun : t = k.runningThread
  · rw [Kernel.finishWait, if_neg (not_not.mpr hrun)]
    exact ⟨L, hT, rfl, fun u hu hne => absurd (hu.trans hrun) hne,
      fun _ _ => ⟨rfl, fun _ => id⟩⟩
  · obtain ⟨g, hg⟩ := hT.exists_mem ht hrun
    rw [Kernel.finishWait, if_pos hrun]
    refine ⟨_, hT.makeReady hg, rfl, ?_, fun u hu => ⟨(Touched.makeReady t k).threads u hu, ?_⟩⟩
    · rintro u rfl -
      exact ⟨makeReady_status k u, _, hT.rings.mem_transfer.mpr (Or.inr ⟨rfl, rfl⟩)⟩
    · exact fun g hg => hT.rings.mem_transfer.mpr (Or.inl ⟨hu, hg⟩)

theorem foldl_finishWait {c : Tid → Bool} {l : List Tid} (hT : Threaded k A L)
    (hl : ∀ t ∈ l, k.Alive t) :
    ∃ L', Threaded (l.foldl (fun k t => if c t then k.finishWait t else k) k) A L' ∧
      Readied {t | t ∈ l ∧ c t = true} k L
        (l.foldl (fun k t => if c t then k.finishWait t else k) k) L' := by
  induction l generalizing k L with
  | nil =>
      have hnone : {t | t ∈ ([] : List Tid) ∧ c t = true} = ∅ := by simp
      rw [hnone]
      exact ⟨L, hT, refl k L⟩
  | cons u l ih =>
      rw [List.foldl_cons]
      split
      · next hc =>
          obtain ⟨L₁, hT₁, hR₁⟩ := finishWait hT (hl u List.mem_cons_self)
          obtain ⟨L', hT', hR'⟩ :=
            ih hT₁ fun t ht => hR₁.alive.mpr (hl t (List.mem_cons_of_mem _ ht))
          have hset : {t | t ∈ u :: l ∧ c t = true} = {u} ∪ {t | t ∈ l ∧ c t = true} := by
            ext t
            simp only [List.mem_cons, Set.mem_ofPred_eq, Set.mem_union, Set.mem_singleton_iff]
            constructor
            · rintro ⟨rfl | ht, hct⟩
              · exact Or.inl rfl
              · exact Or.inr ⟨ht, hct⟩
            · rintro (rfl | ⟨ht, hct⟩)
              · exact ⟨Or.inl rfl, hc⟩
              · exact ⟨Or.inr ht, hct⟩
          rw [hset]
          exact ⟨L', hT', hR₁.trans hR'⟩
      · next hc =>
          have hset : {t | t ∈ u :: l ∧ c t = true} = {t | t ∈ l ∧ c t = true} := by
            ext t
            refine ⟨fun ⟨ht, hct⟩ => ⟨?_, hct⟩, fun ht => ⟨List.mem_cons_of_mem _ ht.1, ht.2⟩⟩
            exact (List.mem_cons.mp ht).resolve_left fun htu => hc (htu ▸ hct)
          rw [hset]
          exact ih hT fun t ht => hl t (List.mem_cons_of_mem _ ht)

end Readied

theorem Threaded.ticks {expired : Tid → Bool} (hT : Threaded k {t | k.Alive t} L)
    (hR : Registered k) (hticks : k.systemTicksUpdate expired = some k') :
    k'.timeoutList = k.timeoutList ∧
      (∀ t ∈ k.timeoutList, expired t = true → t ≠ k.runningThread → k'.Queued t) ∧
      ∀ t, k.PollBlocked t → expired t = false → k'.PollBlocked t := by
  obtain ⟨threads, hupdate, hinfo⟩ := hT.threadsTicksUpdate
  have hst : ∀ t, (threads t).status = (k.threads t).status := fun t => by rw [(hinfo t).1]
  have hT₁ : Threaded { k with threads } {t | k.Alive t} L := hT.of_status rfl rfl rfl hst
  rw [Kernel.systemTicksUpdate, hupdate] at hticks
  obtain rfl := Option.some.inj hticks
  obtain ⟨L', hT', hreadied⟩ := Readied.foldl_finishWait (c := expired) hT₁
    fun t ht => (hR.timeoutList.2 t ht).1
  have htimeouts := congrArg Kernel.timeoutList hreadied.rest
  refine ⟨htimeouts, fun t ht hexpired hrun => ?_, fun t ht hexpired => ?_⟩
  · obtain ⟨hstatus, p, hp⟩ := hreadied.ready t ⟨ht, hexpired⟩ hrun
    exact ⟨hstatus, p, (hT'.members_eq (Threaded.ready_inUse p)).symm ▸ hp⟩
  · obtain ⟨hsame, hlists⟩ := hreadied.stays t (by simp [hexpired])
    have hmem := ht.polls
    rw [hT.members_eq poll_inUse] at hmem
    exact ⟨htimeouts.symm ▸ ht.timed, (hT'.members_eq poll_inUse).symm ▸ hlists _ hmem,
      (congrArg ThreadInfo.status hsame).trans ((hst t).trans ht.status)⟩

theorem Threaded.polls (hT : Threaded k A L) (hst : k.Unqueued) (timeout : Int) :
    (k.sysPoll timeout).members .poll = k.members .poll ++ [k.runningThread] ∧
      (k.sysPoll timeout).timeoutList =
        (if 0 < timeout then k.timeoutList ++ [k.runningThread] else k.timeoutList) ∧
      ((k.sysPoll timeout).threads k.runningThread).status = .wait ∧
      ∀ t, t ≠ k.runningThread → (k.sysPoll timeout).threads t = k.threads t := by
  refine ⟨?_, ?_, ?_, fun t ht => ?_⟩
  · rw [(hT.sysPoll hst timeout).members_eq poll_inUse, hT.members_eq poll_inUse]
    exact Function.update_self ..
  · rw [Kernel.sysPoll]
    split <;> rfl
  · rw [Kernel.sysPoll]
    split
    · simp [Kernel.prepareToWait, setStatus, Kernel.setThread]
    · simp [Kernel.prepareToWait, setStatus, Kernel.setThread]
  · rw [Kernel.sysPoll]
    split
    · simp [Kernel.prepareToWait, setStatus, Kernel.setThread, ht]
    · simp [Kernel.prepareToWait, setStatus, Kernel.setThread, ht]

theorem Threaded.sysPollRet (hT : Threaded k A L) :
    k.sysPollRet.members .poll = k.members .poll ∧
      ∀ t, t ≠ k.runningThread → k.sysPollRet.threads t = k.threads t := by
  have hT' : Threaded k.sysPollRet A L :=
    (hT.setThread (t := k.runningThread) (f := fun i => { i with pollTimed := false })
      fun _ => rfl).of_status rfl rfl rfl fun _ => rfl
  refine ⟨by rw [hT'.members_eq poll_inUse, hT.members_eq poll_inUse], fun t ht => ?_⟩
  simp [Kernel.sysPollRet, Kernel.setThread, ht]

end Kernel

end Tenok
