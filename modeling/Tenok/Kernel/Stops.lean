import Tenok.Kernel.TimedPolls

/-!
Stopped threads and threads in `sigwait`. A thread that stops while it executes is on the suspend
list and on no other one, and what is on that list is only looked at by signals.
-/
namespace Tenok
open Ring Queues

namespace Kernel
variable {k k' k'' : Kernel} {A A' : Set Tid} {L L' : SchedList → List Tid} {h g : SchedList}
  {t u : Tid} {S : Set SchedList} {sig : Signal}

/-- The thread is suspended and no timeout wakes it. -/
structure Stopped (k : Kernel) (t : Tid) : Prop where
  status : (k.threads t).status = .suspended
  suspends : t ∈ k.members .suspend
  untimed : (k.threads t).pollTimed = false

def Halted (k : Kernel) : Prop := ∀ t, k.Alive t → (k.threads t).status = .suspended → k.Stopped t

/-- The step has nothing to do with signals of the thread. -/
structure Undisturbed (t : Tid) (k k' : Kernel) : Prop where
  stopped : k.Stopped t → k'.Stopped t
  only : (k'.threads t).status = .suspended → (k.threads t).status = .suspended
  waitForSignal : (k'.threads t).waitForSignal = (k.threads t).waitForSignal
  sigWaitSet : (k'.threads t).sigWaitSet = (k.threads t).sigWaitSet

namespace Undisturbed

theorem refl (t : Tid) (k : Kernel) : Undisturbed t k k := ⟨id, id, rfl, rfl⟩

theorem trans (h : Undisturbed t k k') (h' : Undisturbed t k' k'') : Undisturbed t k k'' where
  stopped := h'.stopped ∘ h.stopped
  only := h.only ∘ h'.only
  waitForSignal := h'.waitForSignal.trans h.waitForSignal
  sigWaitSet := h'.sigWaitSet.trans h.sigWaitSet

theorem of_lists (hT : Threaded k A L) (hT' : Threaded k' A' L')
    (hstays : t ∈ L .suspend → (k.threads t).status = .suspended → t ∈ L' .suspend ∧
      (k'.threads t).status = .suspended ∧ (k'.threads t).pollTimed = (k.threads t).pollTimed)
    (honly : (k'.threads t).status = .suspended → (k.threads t).status = .suspended)
    (hwaits : (k'.threads t).waitForSignal = (k.threads t).waitForSignal)
    (hset : (k'.threads t).sigWaitSet = (k.threads t).sigWaitSet) : Undisturbed t k k' := by
  refine ⟨fun hstopped => ?_, honly, hwaits, hset⟩
  have hmem := hstopped.suspends
  rw [hT.members_eq Threaded.suspend_inUse] at hmem
  obtain ⟨hmem', hst, hpoll⟩ := hstays hmem hstopped.status
  exact ⟨hst, (hT'.members_eq Threaded.suspend_inUse).symm ▸ hmem', hpoll.trans hstopped.untimed⟩

theorem of_same (hT : Threaded k A L) (hT' : Threaded k' A' L')
    (hthreads : k'.threads t = k.threads t) (hlist : t ∈ L .suspend → t ∈ L' .suspend) :
    Undisturbed t k k' := by
  refine of_lists hT hT' (fun hmem hst => ⟨hlist hmem, ?_, ?_⟩) (fun hst => ?_) ?_ ?_
  · rwa [hthreads]
  · rw [hthreads]
  · rwa [hthreads] at hst
  · rw [hthreads]
  · rw [hthreads]

theorem wakes (hT : Threaded k A L) (hT' : Threaded k' A' L') (hW : Wakes S k L k' L')
    (hS : SchedList.suspend ∉ S) : Undisturbed t k k' := by
  refine of_lists hT hT' (fun hmem hst => ?_) (fun hst => ?_) (by rw [hW.info t])
    (by rw [hW.info t])
  · rw [hW.others _ hS (by simp), hW.stays _ hS (by simp) t hmem]
    exact ⟨hmem, hst, rfl⟩
  · obtain hsame | hready := hW.status t
    · rwa [hsame] at hst
    · rw [hready] at hst
      cases hst

theorem raised (hT : Threaded k A L) (hT' : Threaded k' A' L') (hR : Raised k L k' L') :
    Undisturbed t k k' := by
  have hstatus : (k'.threads t).status = (k.threads t).status := by rw [hR.info t]
  refine of_lists hT hT' (fun hmem hst => ⟨?_, hstatus.trans hst, by rw [hR.info t]⟩)
    (fun hst => hstatus ▸ hst) (by rw [hR.info t]) (by rw [hR.info t])
  rwa [hR.others _ (by simp)]

theorem schedule_only (hsched : k.schedule = some k') (hst : (k'.threads t).status = .suspended) :
    (k.threads t).status = .suspended := by
  simp only [Kernel.schedule, Option.bind_eq_bind, Option.bind_eq_some_iff,
    Option.some.injEq] at hsched
  obtain ⟨k₁, hk₁, pri, -, thread, -, rfl⟩ := hsched
  have hrun : (k₁.threads t).status = .suspended := by
    by_cases htt : t = thread
    · subst htt
      simp [setStatus, Kernel.setThread] at hst
    · simpa [setStatus, Kernel.setThread, htt] using hst
  have hwake : (k₁.threads t).status = .suspended →
      (k.stopRunning.threads t).status = .suspended := by
    refine forEachSafe_induct (P := fun k₂ => (k₂.threads t).status = .suspended →
      (k.stopRunning.threads t).status = .suspended) id (fun k₂ u hk₂ hst₂ => hk₂ ?_) hk₁
    split at hst₂
    · by_cases htu : t = u
      · subst htu
        rw [makeReady_status] at hst₂
        cases hst₂
      · rwa [(Touched.makeReady u k₂).threads t htu] at hst₂
    · exact hst₂
  have hstop := hwake hrun
  rw [stopRunning] at hstop
  split at hstop
  · by_cases htr : t = k.runningThread
    · subst htr
      simp [Kernel.prepareToWait, setStatus, Kernel.setThread] at hstop
    · rwa [(Touched.prepareToWait _ k _ _).threads t htr] at hstop
  · exact hstop

theorem schedule (hT : Threaded k A L) (hT' : Threaded k' A' L') (hD : Dispatches k L k' L')
    (hsched : k.schedule = some k') : Undisturbed t k k' := by
  refine of_lists hT hT' (fun hmem hst => ?_) (schedule_only hsched) (by rw [hD.info t])
    (by rw [hD.info t])
  rw [hD.others _ (by simp) (by simp), hD.stays _ (by simp) (by simp) t hmem]
  exact ⟨hmem, hst, rfl⟩

theorem setThread {f : ThreadInfo → ThreadInfo} (hT : Threaded k A L)
    (hf : ∀ i, (f i).status = i.status ∧ (f i).pollTimed = i.pollTimed ∧
      (f i).waitForSignal = i.waitForSignal ∧ (f i).sigWaitSet = i.sigWaitSet) :
    Undisturbed t k (k.setThread u f) := by
  have hinfo : ((k.setThread u f).threads t).status = (k.threads t).status ∧
      ((k.setThread u f).threads t).pollTimed = (k.threads t).pollTimed ∧
      ((k.setThread u f).threads t).waitForSignal = (k.threads t).waitForSignal ∧
      ((k.setThread u f).threads t).sigWaitSet = (k.threads t).sigWaitSet := by
    by_cases htu : t = u
    · subst htu
      simpa [Kernel.setThread] using hf _
    · simp [Kernel.setThread, htu]
  obtain ⟨hst, hpoll, hwaits, hset⟩ := hinfo
  exact of_lists hT (hT.setThread fun i => (hf i).1)
    (fun hmem hsus => ⟨hmem, hst.trans hsus, hpoll⟩) (fun hsus => hst ▸ hsus) hwaits hset

theorem running (hst : k.Unqueued) (hne : (k'.threads k.runningThread).status ≠ .suspended)
    (hwaits : (k'.threads k.runningThread).waitForSignal =
      (k.threads k.runningThread).waitForSignal)
    (hset : (k'.threads k.runningThread).sigWaitSet = (k.threads k.runningThread).sigWaitSet) :
    Undisturbed k.runningThread k k' := by
  refine ⟨fun hstopped => ?_, fun hsus => absurd hsus hne, hwaits, hset⟩
  have hsus := hstopped.status
  rw [show (k.threads k.runningThread).status = .running from hst] at hsus
  cases hsus

theorem others {f : ThreadInfo → ThreadInfo} {state : ThreadStatus} (hT : Threaded k A L)
    (hst : k.Unqueued) (hf : ∀ i, (f i).status = i.status) (hh : h ∈ inUse A)
    (hstate : state ≠ .running) (hjoin : h ≠ .join k.runningThread) (ht : t ≠ k.runningThread) :
    Undisturbed t k ((k.setThread k.runningThread f).prepareToWait h k.runningThread state) := by
  have hst' : ((k.setThread k.runningThread f).threads k.runningThread).status = .running :=
    (Threaded.status_setThread hf k.runningThread).trans hst
  refine of_same hT ((hT.setThread hf).prepareToWait hh hst' hstate hjoin) ?_
    fun hmem => mem_enqueue.mpr (Or.inl hmem)
  simp [Kernel.prepareToWait, setStatus, Kernel.setThread, ht]

theorem queueSelf {f : ThreadInfo → ThreadInfo} (hT : Threaded k A L) (hst : k.Unqueued)
    (hf : ∀ i, (f i).status = i.status ∧ (f i).waitForSignal = i.waitForSignal ∧
      (f i).sigWaitSet = i.sigWaitSet) (hh : h ∈ inUse A) (hjoin : h ≠ .join k.runningThread) :
    Undisturbed t k ((k.setThread k.runningThread f).prepareToWait h k.runningThread .wait) := by
  by_cases ht : t = k.runningThread
  · subst ht
    refine running hst ?_ ?_ ?_
    · simp [Kernel.prepareToWait, setStatus, Kernel.setThread]
    · simp [Kernel.prepareToWait, setStatus, Kernel.setThread, hf]
    · simp [Kernel.prepareToWait, setStatus, Kernel.setThread, hf]
  · exact others hT hst (fun i => (hf i).1) hh (by simp) hjoin ht

theorem sysPoll (hT : Threaded k A L) (hst : k.Unqueued) (timeout : Int) :
    Undisturbed t k (k.sysPoll timeout) := by
  obtain ⟨-, -, hwait, hothers⟩ := hT.polls hst timeout
  by_cases ht : t = k.runningThread
  · subst ht
    refine running hst (by simp [hwait]) ?_ ?_
    all_goals
      rw [Kernel.sysPoll]
      split <;> simp [Kernel.prepareToWait, setStatus, Kernel.setThread]
  · exact of_same hT (hT.sysPoll hst timeout) (hothers t ht) fun hmem =>
      mem_enqueue.mpr (Or.inl hmem)

theorem sysPollRet (hT : Threaded k A L) (hst : k.Unqueued) : Undisturbed t k k.sysPollRet := by
  have hT' : Threaded k.sysPollRet A L :=
    (hT.setThread (t := k.runningThread) (f := fun i => { i with pollTimed := false })
      fun _ => rfl).of_status rfl rfl rfl fun _ => rfl
  by_cases ht : t = k.runningThread
  · subst ht
    have hst' : (k.threads k.runningThread).status = .running := hst
    refine running hst ?_ ?_ ?_ <;> simp [Kernel.sysPollRet, Kernel.setThread, hst']
  · exact of_same hT hT' (hT.sysPollRet.2 t ht) id

theorem finishWait (hT : Threaded k A L) (hu : k.Alive u)
    (hne : t = u → (k.threads u).status ≠ .suspended) : Undisturbed t k (k.finishWait u) := by
  obtain ⟨L', hT', hreadied⟩ := Readied.finishWait hT hu
  by_cases htu : t = u
  · subst htu
    have hnot := hne rfl
    refine ⟨fun hstopped => absurd hstopped.status hnot, fun hst => absurd ?_ hnot, ?_, ?_⟩
    · rw [Kernel.finishWait] at hst
      split at hst
      · rw [makeReady_status] at hst
        cases hst
      · exact hst
    all_goals
      rw [Kernel.finishWait]
      split <;> simp [Kernel.makeReady, setStatus, Kernel.setThread]
  · obtain ⟨hsame, hlists⟩ := hreadied.stays t htu
    exact of_same hT hT' hsame (hlists .suspend)

theorem foldl_finishWait {c : Tid → Bool} {l : List Tid} (hT : Threaded k A L)
    (hl : ∀ u ∈ l, k.Alive u ∧ (k.threads u).pollTimed = true) :
    Undisturbed t k (l.foldl (fun k t => if c t then k.finishWait t else k) k) := by
  obtain ⟨L₂, hT₂, hreadied⟩ := Readied.foldl_finishWait (c := c) hT fun u hu => (hl u hu).1
  obtain ⟨L₃, hT₃, hW⟩ := hT.foldl_finishWait (c := c) fun u hu => (hl u hu).1
  refine ⟨fun hstopped => ?_, fun hst => ?_, by rw [hW.info t], by rw [hW.info t]⟩
  · have huntimed : t ∉ {t | t ∈ l ∧ c t = true} := by
      intro hmem
      have htimed := (hl t hmem.1).2
      rw [hstopped.untimed] at htimed
      cases htimed
    obtain ⟨hsame, hlists⟩ := hreadied.stays t huntimed
    exact (of_same hT hT₂ hsame (hlists .suspend)).stopped hstopped
  · obtain hsame | hready := hW.status t
    · rwa [hsame] at hst
    · rw [hready] at hst
      cases hst

theorem systemTicks {expired : Tid → Bool} (hT : Threaded k {t | k.Alive t} L)
    (hR : Registered k) (hticks : k.systemTicksUpdate expired = some k') : Undisturbed t k k' := by
  obtain ⟨threads, hupdate, hinfo⟩ := hT.threadsTicksUpdate
  have hsame : ∀ u, (threads u).status = (k.threads u).status ∧
      (threads u).pollTimed = (k.threads u).pollTimed ∧
      (threads u).waitForSignal = (k.threads u).waitForSignal ∧
      (threads u).sigWaitSet = (k.threads u).sigWaitSet := fun u => by
    rw [(hinfo u).1]
    exact ⟨rfl, rfl, rfl, rfl⟩
  obtain ⟨hst, hpoll, hwaits, hset⟩ := hsame t
  have hT₁ : Threaded { k with threads } {t | k.Alive t} L :=
    hT.of_status rfl rfl rfl fun u => (hsame u).1
  have hticked : Undisturbed t k { k with threads } :=
    of_lists hT hT₁ (fun hmem hsus => ⟨hmem, hst.trans hsus, hpoll⟩) (fun hsus => hst ▸ hsus) hwaits
      hset
  have hwoken : Undisturbed t { k with threads }
      (k.timeoutList.foldl (fun k t => if expired t then k.finishWait t else k) { k with threads }) :=
    foldl_finishWait hT₁ fun u hu =>
      ⟨(hR.timeoutList.2 u hu).1, (hsame u).2.1.trans (hR.timeoutList.2 u hu).2⟩
  rw [Kernel.systemTicksUpdate, hupdate] at hticks
  exact Option.some.inj hticks ▸ hticked.trans hwoken

theorem removed {T : List Tid} (hT : Threaded k A L) (hrem : Removed A' k L T k' L')
    (ht : t ∉ T) : Undisturbed t k k' :=
  of_same hT hrem.threaded (hrem.threads t ht) fun hmem => (hrem.mem t _).mpr ⟨ht, hmem⟩

theorem touched (hT : Threaded k A L) (hT' : Threaded k' A' L') (htouched : Touched u k k')
    (htu : t ≠ u) (hlists : t ∈ L .suspend → t ∈ L' .suspend) : Undisturbed t k k' :=
  of_same hT hT' (htouched.threads t htu) hlists

end Undisturbed

/-- What `handle_signal` does to the thread that it is called for. -/
structure Handled (t : Tid) (sig : Signal) (k k' : Kernel) : Prop where
  stop : sig = .stop → k'.Stopped t
  cont : sig = .cont → (k'.threads t).status ≠ .suspended
  other : sig ≠ .stop → sig ≠ .cont → (k.Stopped t → k'.Stopped t) ∧
    ((k'.threads t).status = .suspended → (k.threads t).status = .suspended)
  waitForSignal : (k'.threads t).waitForSignal =
    ((k.threads t).waitForSignal && !decide (sig ∈ (k.threads t).sigWaitSet))
  sigWaitSet : (k'.threads t).sigWaitSet = (k.threads t).sigWaitSet

theorem Handled.after (h : Undisturbed t k k') (h' : Handled t sig k' k'') :
    Handled t sig k k'' := by
  refine ⟨h'.stop, h'.cont, fun hstop hcont => ?_, ?_, h'.sigWaitSet.trans h.sigWaitSet⟩
  · obtain ⟨hstays, honly⟩ := h'.other hstop hcont
    exact ⟨hstays ∘ h.stopped, h.only ∘ honly⟩
  · rw [h'.waitForSignal, h.waitForSignal, h.sigWaitSet]

theorem Handled.before (h : Handled t sig k k') (h' : Undisturbed t k' k'') :
    Handled t sig k k'' := by
  refine ⟨h'.stopped ∘ h.stop, fun hcont hst => h.cont hcont (h'.only hst), fun hstop hcont => ?_,
    h'.waitForSignal.trans h.waitForSignal, h'.sigWaitSet.trans h.sigWaitSet⟩
  obtain ⟨hstays, honly⟩ := h.other hstop hcont
  exact ⟨h'.stopped ∘ hstays, honly ∘ h'.only⟩

theorem Handled.halted (h : Handled t sig k k') (hH : (k.threads t).status = .suspended → k.Stopped t)
    (hst : (k'.threads t).status = .suspended) : k'.Stopped t := by
  by_cases hstop : sig = .stop
  · exact h.stop hstop
  · by_cases hcont : sig = .cont
    · exact absurd hst (h.cont hcont)
    · obtain ⟨hstays, honly⟩ := h.other hstop hcont
      exact hstays (hH (honly hst))

theorem Undisturbed.halted (h : Undisturbed t k k')
    (hH : (k.threads t).status = .suspended → k.Stopped t)
    (hst : (k'.threads t).status = .suspended) : k'.Stopped t :=
  h.stopped (hH (h.only hst))

theorem endSigwait_waits (k : Kernel) (t : Tid) (sig : Signal) :
    ((k.endSigwait t sig).threads t).waitForSignal =
        ((k.threads t).waitForSignal && !decide (sig ∈ (k.threads t).sigWaitSet)) ∧
      ((k.endSigwait t sig).threads t).sigWaitSet = (k.threads t).sigWaitSet := by
  rw [endSigwait]
  split
  · next hwait =>
      rw [finishWait]
      split <;> simp [makeReady, setStatus, setThread, hwait.2]
  · next hwait =>
      refine ⟨?_, rfl⟩
      cases hw : (k.threads t).waitForSignal with
      | false => rfl
      | true =>
          have hnot : sig ∉ (k.threads t).sigWaitSet := fun hmem => hwait ⟨hw, hmem⟩
          simp [hnot]

theorem endSigwait_only (hst : ((k.endSigwait t sig).threads t).status = .suspended) :
    (k.threads t).status = .suspended := by
  rw [endSigwait] at hst
  split at hst
  · rw [finishWait] at hst
    split at hst
    · rw [makeReady_status] at hst
      cases hst
    · simpa [setThread] using hst
  · exact hst

theorem Parked.endSigwait_suspended (hP : Parked k L) (ht : k.Alive t)
    (hst : (k.threads t).status = .suspended) : k.endSigwait t sig = k := by
  rw [Kernel.endSigwait, if_neg]
  rintro ⟨hwait, -⟩
  have hst' := (hP.waiting t ht hwait).2.1
  rw [hst] at hst'
  cases hst'

theorem handleSignal_frame (hT : Threaded k A L) (hu : k.Alive u)
    (hstop : sig = .stop → k.Stoppable u) (hkill : sig ≠ .kill)
    (hsig : k.handleSignal u sig = some k') :
    ∃ L', Threaded k' A L' ∧ ∀ t g, t ≠ u → t ∈ L g → t ∈ L' g := by
  obtain ⟨L₁, hT₁, hlists, -⟩ := hT.endSigwait hu sig
  cases sig with
  | kill => exact absurd rfl hkill
  | stop =>
      obtain rfl := Option.some.inj hsig
      obtain ⟨hrun, hst⟩ | ⟨hst, hwait⟩ := hstop rfl
      · have hst₁ := (Threaded.endSigwait_running .stop hrun).trans hst
        rw [Kernel.threadSuspend, if_neg (by simp [hst₁])]
        exact ⟨_, hT₁.prepareToWait Threaded.suspend_inUse hst₁ (by simp) (by simp),
          fun t g htu hmem => mem_enqueue.mpr (Or.inl ((hlists t g htu).mpr hmem))⟩
      · have hsame : k.endSigwait u .stop = k := by rw [Kernel.endSigwait, if_neg hwait]
        rw [Kernel.threadSuspend, hsame, if_pos hst]
        exact ⟨L, hT, fun _ _ _ => id⟩
  | cont =>
      obtain rfl := Option.some.inj hsig
      rw [Kernel.threadResume]
      split
      · exact ⟨L₁, hT₁, fun t g htu => (hlists t g htu).mpr⟩
      · next hst =>
          rw [not_not] at hst
          obtain ⟨g, hg⟩ := (hT₁.linked_iff u).mpr
            ⟨(Touched.endSigwait u k .cont).alive.mpr hu, by simp [hst]⟩
          exact ⟨_, hT₁.makeReady hg, fun t g htu hmem =>
            hT₁.rings.mem_transfer.mpr (Or.inl ⟨htu, (hlists t g htu).mpr hmem⟩)⟩
  | usr1 | usr2 | poll =>
      obtain rfl := Option.some.inj hsig
      exact ⟨L₁, hT₁, fun t g htu => (hlists t g htu).mpr⟩

theorem handleSignal_others (hT : Threaded k A L) (hu : k.Alive u)
    (hstop : sig = .stop → k.Stoppable u) (hkill : sig ≠ .kill)
    (hsig : k.handleSignal u sig = some k') (htu : t ≠ u) : Undisturbed t k k' := by
  obtain ⟨L', hT', hlists⟩ := handleSignal_frame hT hu hstop hkill hsig
  have htouched := (handleSignal_touched hT hu hstop hkill hsig).2
  exact Undisturbed.touched hT hT' htouched htu (hlists t .suspend htu)

theorem handleSignal_handled (hP : Parked k L) (hT : Threaded k {t | k.Alive t} L)
    (hH : k.Halted) (hexec : (k.threads k.runningThread).pollTimed = false) (ht : k.Alive t)
    (hstop : sig = .stop → k.Stoppable t) (hkill : sig ≠ .kill)
    (hsig : k.handleSignal t sig = some k') : Handled t sig k k' := by
  obtain ⟨hwaits, hset⟩ := endSigwait_waits k t sig
  cases sig with
  | kill => exact absurd rfl hkill
  | stop =>
      obtain rfl := Option.some.inj hsig
      have hstops : ((k.endSigwait t .stop).threadSuspend t).Stopped t := by
        obtain ⟨rfl, hst⟩ | ⟨hst, -⟩ := hstop rfl
        · have hsame : k.endSigwait k.runningThread .stop = k := by
            rw [Kernel.endSigwait, if_neg (by simp [hP.not_waiting hT hst])]
          have hT' : Threaded (k.prepareToWait .suspend k.runningThread .suspended)
              {t | k.Alive t} (enqueue L k.runningThread .suspend) :=
            hT.prepareToWait Threaded.suspend_inUse hst (by simp) (by simp)
          rw [hsame, Kernel.threadSuspend, if_neg (by simp [hst])]
          refine ⟨?_, ?_, ?_⟩
          · simp [Kernel.prepareToWait, setStatus, Kernel.setThread]
          · rw [hT'.members_eq Threaded.suspend_inUse]
            exact mem_enqueue.mpr (Or.inr ⟨rfl, rfl⟩)
          · simpa [Kernel.prepareToWait, setStatus, Kernel.setThread] using hexec
        · rw [hP.endSigwait_suspended ht hst, Kernel.threadSuspend, if_pos hst]
          exact hH t ht hst
      refine ⟨fun _ => hstops, by simp, by simp, ?_, ?_⟩
      · rw [← hwaits, Kernel.threadSuspend]
        split <;> simp [Kernel.prepareToWait, setStatus, Kernel.setThread]
      · rw [← hset, Kernel.threadSuspend]
        split <;> simp [Kernel.prepareToWait, setStatus, Kernel.setThread]
  | cont =>
      obtain rfl := Option.some.inj hsig
      refine ⟨by simp, fun _ => ?_, by simp, ?_, ?_⟩
      · rw [Kernel.threadResume]
        split
        · assumption
        · rw [makeReady_status]
          simp
      · rw [← hwaits, Kernel.threadResume]
        split <;> simp [Kernel.makeReady, setStatus, Kernel.setThread]
      · rw [← hset, Kernel.threadResume]
        split <;> simp [Kernel.makeReady, setStatus, Kernel.setThread]
  | usr1 | usr2 | poll =>
      obtain rfl := Option.some.inj hsig
      refine ⟨by simp, by simp, fun _ _ => ⟨fun hstopped => ?_, endSigwait_only⟩, hwaits, hset⟩
      rwa [hP.endSigwait_suspended ht hstopped.status]

theorem signal_handled {T : List Tid} (hP : Parked k L) (hT : Threaded k {t | k.Alive t} L)
    (hH : k.Halted) (hexec : (k.threads k.runningThread).pollTimed = false) (hnodup : T.Nodup)
    (halive : ∀ t ∈ T, k.Alive t) (hstop : ∀ t ∈ T, sig = .stop → k.Stoppable t)
    (hkill : sig ≠ .kill) (hsig : T.foldlM (fun k t => k.handleSignal t sig) k = some k') :
    (∀ t ∈ T, Handled t sig k k') ∧ ∀ t ∉ T, Undisturbed t k k' := by
  induction T generalizing k L with
  | nil =>
      obtain rfl : k = k' := by simpa using hsig
      exact ⟨by simp, fun t _ => Undisturbed.refl t k⟩
  | cons u T ih =>
      rw [List.foldlM_cons, Option.bind_eq_bind, Option.bind_eq_some_iff] at hsig
      obtain ⟨k₁, hk₁, hrest⟩ := hsig
      obtain ⟨huT, hnodup⟩ := List.nodup_cons.mp hnodup
      have hu := halive u List.mem_cons_self
      have hstop₁ := hstop u List.mem_cons_self
      have htouched := (handleSignal_touched hT hu hstop₁ hkill hk₁).2
      have hset : {t | k.Alive t} = {t | k₁.Alive t} := Set.ext fun t => htouched.alive.symm
      obtain ⟨L₁, hT₁, hP₁, -⟩ := hP.handleSignal hT hu hstop₁ hkill hk₁
      have hhandled := handleSignal_handled hP hT hH hexec hu hstop₁ hkill hk₁
      have hothers : ∀ t, t ≠ u → Undisturbed t k k₁ := fun t htu =>
        handleSignal_others hT hu hstop₁ hkill hk₁ htu
      have hH₁ : k₁.Halted := by
        intro t ht hst
        have hHt := hH t (htouched.alive.mp ht)
        by_cases htu : t = u
        · subst htu
          exact hhandled.halted hHt hst
        · exact (hothers t htu).halted hHt hst
      have hexec₁ : (k₁.threads k₁.runningThread).pollTimed = false := by
        rw [htouched.runningThread]
        by_cases hru : k.runningThread = u
        · rw [← hexec, hru, htouched.pollTimed]
        · rw [htouched.threads _ hru, hexec]
      obtain ⟨hin, hout⟩ := ih hP₁ (hset ▸ hT₁) hH₁ hexec₁ hnodup
        (fun t ht => htouched.alive.mpr (halive t (List.mem_cons_of_mem _ ht)))
        (fun t ht hs => Threaded.stoppable_frame htouched (fun htu => huT (htu ▸ ht))
          (hstop t (List.mem_cons_of_mem _ ht) hs)) hrest
      constructor
      · intro t ht
        obtain rfl | ht := List.mem_cons.mp ht
        · exact hhandled.before (hout t huT)
        · exact (hin t ht).after (hothers t fun htu => huT (htu ▸ ht))
      · intro t ht
        rw [List.mem_cons, not_or] at ht
        exact (hothers t ht.1).trans (hout t ht.2)

namespace Undisturbed

theorem grown (hg : Grown k L k' A L') (hT : Threaded k {t | k.Alive t} L) (ht : k.Alive t) :
    Undisturbed t k k' :=
  of_same hT hg.threaded (hg.threads t ht) hg.mem

theorem sysExit (hT : Threaded k {t | k.Alive t} L) (hR : Registered k) (hok : k.ExitOk)
    (hexit : k.sysExit = some k') (ht : k'.Alive t) : Undisturbed t k k' := by
  obtain ⟨task, L', -, hrem⟩ := hT.sysExit hR hok hexit
  exact removed hT hrem ((hrem.alive t).mp ht).1

theorem threadJoinHandler (hT : Threaded k {t | k.Alive t} L) (hR : Registered k)
    (hexec : k.Executing) (hok : k.ThreadExitOk) (hhandler : k.threadJoinHandler = some k')
    (ht : k'.Alive t) : Undisturbed t k k' := by
  obtain ⟨k₁, L', hW, -, hrem, -⟩ := hT.threadExit hR hexec hok hhandler
  have htr : t ∉ [k.runningThread] := ((hrem.alive t).mp ht).1
  refine of_lists hT hrem.threaded (fun hmem hsus => ⟨(hrem.mem t _).mpr ⟨htr, ?_⟩, ?_, ?_⟩)
    (fun hsus => ?_) ?_ ?_
  · rwa [hW.others _ (by simp) (by simp)]
  · rwa [hrem.threads t htr, hW.stays _ (by simp) (by simp) t hmem]
  · rw [hrem.threads t htr, hW.info t]
  · rw [hrem.threads t htr] at hsus
    obtain hsame | hready := hW.status t
    · rwa [hsame] at hsus
    · rw [hready] at hsus
      cases hsus
  · rw [hrem.threads t htr, hW.info t]
  · rw [hrem.threads t htr, hW.info t]

end Undisturbed

/-- The signal that `handle_signal` is called with for the thread. -/
def sent (k : Kernel) (e : KernelEvent) (t : Tid) : Option Signal :=
  match e with
  | .call (.pthreadKill tid sig) => if t = tid ∧ k.Receives tid then sig else none
  | .call (.kill pid sig) => if pid ∈ k.tasksList ∧ t ∈ k.taskThreads pid then sig else none
  | .call (.raise sig) => if t ∈ k.currentThreads then sig else none
  | _ => none

/-- The signals that the thread begins to wait for. -/
def awaits (k : Kernel) (e : KernelEvent) (t : Tid) : Option (List Signal) :=
  match e with
  | .call (.sigwait set) => if t = k.runningThread then set else none
  | _ => none

/-- The daemon that `tasklet_schedule` wakes has not stopped. -/
def DaemonOk (k : Kernel) : KernelEvent → Prop
  | .taskletSchedule tid => (k.threads tid).status ≠ .suspended
  | _ => True

instance decidableDaemonOk (k : Kernel) : (e : KernelEvent) → Decidable (k.DaemonOk e)
  | .taskletSchedule _ => inferInstanceAs (Decidable (_ ≠ _))
  | .call _ | .pollRet | .syscallHandler | .syscallReturn | .threadReturn | .wakeUp _
  | .wakeUpAll _ | .fifoWakeUp _ _ | .pollNotify _ | .inheritPriority _
  | .resetInheritedPriority | .systemTicks _ | .schedule => inferInstanceAs (Decidable True)

/-- What a step does to a thread that lives before and after it. -/
inductive SignalStep (k : Kernel) (e : KernelEvent) (k' : Kernel) (t : Tid) : Prop
  | undisturbed (hsent : k.sent e t = none) (hawaits : k.awaits e t = none)
      (h : Undisturbed t k k')
  | handled (sig : Signal) (hsent : k.sent e t = some sig) (hawaits : k.awaits e t = none)
      (h : Handled t sig k k')
  | awaits (set : List Signal) (hsent : k.sent e t = none) (hawaits : k.awaits e t = some set)
      (hstatus : (k'.threads t).status = .wait)
      (hrunning : (k.threads t).status = .running)
      (hwait : (k'.threads t).waitForSignal = true) (hset : (k'.threads t).sigWaitSet = set)

namespace SignalStep
variable {e : KernelEvent}

theorem signalTask {task : Pid} (hP : Parked k L) (hT : Threaded k {t | k.Alive t} L)
    (hR : Registered k) (hH : k.Halted) (hexec : k.Executing)
    (hok : k.SignalOk (k.taskThreads task) (some sig)) (hsig : k.signalTask task sig = some k')
    (ht : k'.Alive t) (hawaits : k.awaits e t = none)
    (hsent : k.sent e t = if t ∈ k.taskThreads task then some sig else none) :
    SignalStep k e k' t := by
  obtain ⟨hnodup, hmem⟩ := hR.taskThreads task
  have halive : ∀ t ∈ k.taskThreads task, k.Alive t := fun t ht => (hmem t ht).1
  by_cases hkill : sig = .kill
  · subst hkill
    obtain ⟨L', hrem⟩ := hT.kill hR hnodup halive hok hsig
    have hnot : t ∉ k.taskThreads task := ((hrem.alive t).mp ht).1
    rw [if_neg hnot] at hsent
    exact .undisturbed hsent hawaits (.removed hT hrem hnot)
  · have hstop : ∀ t ∈ k.taskThreads task, sig = .stop → k.Stoppable t := by
      intro t ht hs
      subst hs
      exact hok t ht
    obtain ⟨hin, hout⟩ := signal_handled hP hT hH hexec.2 hnodup halive hstop hkill hsig
    by_cases htask : t ∈ k.taskThreads task
    · rw [if_pos htask] at hsent
      exact .handled sig hsent hawaits (hin t htask)
    · rw [if_neg htask] at hsent
      exact .undisturbed hsent hawaits (hout t htask)

theorem received {tid : Tid} (hP : Parked k L) (hT : Threaded k {t | k.Alive t} L)
    (hR : Registered k) (hH : k.Halted) (hexec : k.Executing) (hreceives : k.Receives tid)
    (hsignal : k.SignalOk [tid] (some sig)) (hsig : k.handleSignal tid sig = some k')
    (ht : k'.Alive t) : SignalStep k (.call (.pthreadKill tid (some sig))) k' t := by
  have halive := hR.threadsList.2 tid hreceives.1
  by_cases hs : sig = .kill
  · subst hs
    obtain ⟨L', hrem⟩ := hT.kill hR (List.nodup_singleton tid) (by simpa using halive)
      hsignal (by simpa using hsig)
    have hnot : t ∉ [tid] := ((hrem.alive t).mp ht).1
    exact .undisturbed (if_neg fun h => hnot (List.mem_singleton.mpr h.1)) rfl
      (.removed hT hrem hnot)
  · have hstop : sig = .stop → k.Stoppable tid := by
      intro hstop
      subst hstop
      exact hsignal tid (List.mem_singleton.mpr rfl)
    by_cases htid : t = tid
    · subst htid
      exact .handled sig (if_pos ⟨rfl, hreceives⟩) rfl
        (handleSignal_handled hP hT hH hexec.2 halive hstop hs hsig)
    · exact .undisturbed (if_neg fun h => htid h.1) rfl
        (handleSignal_others hT halive hstop hs hsig htid)

theorem silent {c : KernelCall} (hc : k.Silent c) (h : Undisturbed t k k') :
    SignalStep k (.call c) k' t := by
  refine .undisturbed ?_ ?_ h
  · cases c with
    | pthreadKill tid sig =>
        rcases hc with rfl | hnot
        · exact ite_self none
        · exact if_neg fun h => hnot h.2
    | kill pid sig =>
        rcases hc with rfl | hnot
        · exact ite_self none
        · exact if_neg fun h => hnot h.1
    | raise sig =>
        rcases hc with rfl | hnot
        · exact ite_self none
        · simp [sent, currentThreads, hnot]
    | _ => rfl
  · cases c with
    | sigwait set =>
        cases hc
        exact ite_self none
    | _ => rfl

theorem runCall {c : KernelCall} (hP : Parked k L) (hT : Threaded k {t | k.Alive t} L)
    (hR : Registered k) (hH : k.Halted) (hexec : k.Executing) (hok : k.CallOk c)
    (hcall : k.runCall c = some k') (ht : k.Alive t) (ht' : k'.Alive t) :
    SignalStep k (.call c) k' t := by
  cases runCall_cases hT hR hok hcall with
  | same hc => exact silent hc (.refl t k)
  | queues hc _ _ hst hin _ hjoin =>
      exact silent hc (.queueSelf hT hst (fun _ => ⟨rfl, rfl, rfl⟩) hin hjoin)
  | awaits set hst =>
      by_cases htr : t = k.runningThread
      · subst htr
        refine .awaits set rfl (if_pos rfl) ?_ hst ?_ ?_ <;>
          simp [sysSigwait, prepareToWait, setStatus, setThread]
      · exact .undisturbed rfl (if_neg htr)
          (.others hT hst (fun _ => rfl) Threaded.suspend_inUse (by simp) (by simp) htr)
  | polls timeout hst => exact .undisturbed rfl rfl (.sysPoll hT hst timeout)
  | detaches tid => exact .undisturbed rfl rfl (.setThread hT fun _ => ⟨rfl, rfl, rfl, rfl⟩)
  | setsPriority tid schedPriority priority original =>
      exact .undisturbed rfl rfl (.setThread hT fun _ => ⟨rfl, rfl, rfl, rfl⟩)
  | threadExits hends h => exact .undisturbed rfl rfl (.threadJoinHandler hT hR hexec hends h ht')
  | exits hends h => exact .undisturbed rfl rfl (.sysExit hT hR hends h ht')
  | cancels tid hreceives hkillable h =>
      obtain ⟨L', hrem⟩ := hT.deleteKillable hR (hR.threadsList.2 tid hreceives.1) hkillable h
      exact .undisturbed rfl rfl (.removed hT hrem ((hrem.alive t).mp ht').1)
  | signals tid s hreceives hsignal h => exact received hP hT hR hH hexec hreceives hsignal h ht'
  | kills pid s hmem hsignal h =>
      refine signalTask hP hT hR hH hexec hsignal h ht' rfl ?_
      simp only [sent, hmem, true_and]
  | raises task s htask hsignal h =>
      refine signalTask hP hT hR hH hexec hsignal h ht' rfl ?_
      simp only [sent, currentThreads_eq htask]
  | creates attr stack h =>
      obtain ⟨A, L', hg⟩ := hT.sysPthreadCreate h
      exact .undisturbed rfl rfl (.grown hg hT ht)
  | createsTask priority kernelThread stack =>
      obtain ⟨A, L', hg⟩ := hT.taskCreate rfl
      exact .undisturbed rfl rfl (.grown hg hT ht)

theorem step (hP : Parked k L) (hT : Threaded k {t | k.Alive t} L) (hR : Registered k)
    (hH : k.Halted) (hok : k.EventOk e) (hdaemon : k.DaemonOk e) (hstep : k.step e = some k')
    (ht : k.Alive t) (ht' : k'.Alive t) : SignalStep k e k' t := by
  cases step_cases hT hok hstep with
  | call hexec hcall h => exact runCall hP hT hR hH hexec hcall h ht ht'
  | pollRet hst => exact .undisturbed rfl rfl (.sysPollRet hT hst)
  | syscallHandler => exact .undisturbed rfl rfl (.setThread hT fun _ => ⟨rfl, rfl, rfl, rfl⟩)
  | syscallReturn => exact .undisturbed rfl rfl (.setThread hT fun _ => ⟨rfl, rfl, rfl, rfl⟩)
  | exits _ hends h => exact .undisturbed rfl rfl (.sysExit hT hR hends h ht')
  | threadExits hexec hends h =>
      exact .undisturbed rfl rfl (.threadJoinHandler hT hR hexec hends h ht')
  | wakeUp _ hT₁ hW | wakeUpAll _ hT₁ hW | fifoWakeUp _ _ hT₁ hW | pollNotify _ hT₁ hW =>
      exact .undisturbed rfl rfl (.wakes hT hT₁ hW (by simp))
  | taskletSchedule tid hmem =>
      exact .undisturbed rfl rfl (.finishWait hT (hR.threadsList.2 _ hmem) fun _ => hdaemon)
  | inheritPriority mutex hT' hraised => exact .undisturbed rfl rfl (.raised hT hT' hraised)
  | resetInheritedPriority =>
      refine .undisturbed rfl rfl (.setThread hT fun i => ?_)
      split <;> exact ⟨rfl, rfl, rfl, rfl⟩
  | systemTicks expired h => exact .undisturbed rfl rfl (.systemTicks hT hR h)
  | schedule hsched hT' hD => exact .undisturbed rfl rfl (.schedule hT hT' hD hsched)

end SignalStep

end Kernel

end Tenok
