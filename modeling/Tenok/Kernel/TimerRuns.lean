import Tenok.Kernel.Steady
import Tenok.Kernel.Timers

/-!
Timers over whole runs: when no thread ends with a timer or a timeout left, nothing refers
to the threads that are gone.
-/
namespace Tenok
namespace TimerSys
open Kernel (Consistent)
variable {s s' s'' : TimerSys} {k k' : Kernel} {t : Tid} {addr : Nat}

theorem notMem_ready (hinv : Consistent k) (ht : ¬ k.Alive t) (p : Priority) :
    t ∉ k.members (.ready p) := by
  obtain ⟨L, hT, -⟩ := hinv
  rw [hT.members_eq (Kernel.Threaded.ready_inUse p)]
  exact fun hmem => ht (hT.alive hmem)

theorem wakeup_free {e : KernelEvent} (hinv : Consistent k) (he : Wakeup e)
    (hstep : k.step e = some k') (ht : ¬ k.Alive t) :
    k'.threads t = k.threads t ∧ k'.bitmapThreads = k.bitmapThreads := by
  obtain ⟨L, hT, hR⟩ := hinv
  have hfree : ∀ h, t ∉ L h := fun h hmem => ht (hT.alive hmem)
  cases he with
  | tick expired =>
      obtain ⟨threads, hticks, hinfo⟩ := hT.threadsTicksUpdate
      have hsame : ∀ u, (threads u).status = (k.threads u).status ∧
          (threads u).task = (k.threads u).task ∧
          (threads u).pollTimed = (k.threads u).pollTimed := fun u => by
        rw [(hinfo u).1]
        exact ⟨rfl, rfl, rfl⟩
      have hT₁ : Kernel.Threaded { k with threads } _ L :=
        hT.of_status rfl rfl rfl fun u => (hsame u).1
      obtain ⟨L', -, hW⟩ := hT₁.foldl_finishWait (c := expired)
        fun u hu => (hR.timeoutList.2 u hu).1
      rw [Kernel.step, Kernel.systemTicksUpdate, hticks] at hstep
      obtain rfl := Option.some.inj hstep
      refine ⟨(hW.free t hfree).2.trans ((hinfo t).2 (Or.inl (hfree .sleep))), ?_⟩
      rw [Kernel.syscallTimeoutUpdate, hW.rest]
  | poll polls =>
      obtain ⟨k₁, L₁, hk₁, -, hW, -⟩ := hT.wakeLoop (h := .poll)
        (fun k t => if polls t then k.finishWait t else k)
        (fun t => polls t && decide (t ≠ k.runningThread)) Kernel.poll_inUse (by simp)
        fun k₁ L₁ t hW => by
          by_cases hp : polls t = true
          · simp [hp, Kernel.finishWait, hW.runningThread]
          · simp [hp]
      obtain rfl : k₁ = k' := Option.some.inj (hk₁.symm.trans hstep)
      exact ⟨(hW.free t hfree).2, by rw [hW.rest]⟩

/-- Neither the timers nor the threads that they are for change. -/
structure SameTimers (s s' : TimerSys) : Prop where
  kernel : s'.kernel = s.kernel
  timersList : s'.timersList = s.timersList
  thread : ∀ addr, (s'.timer addr).thread = (s.timer addr).thread

namespace SameTimers

theorem refl (s : TimerSys) : SameTimers s s := ⟨rfl, rfl, fun _ => rfl⟩

theorem trans (h : SameTimers s s') (h' : SameTimers s' s'') : SameTimers s s'' :=
  ⟨h'.kernel.trans h.kernel, h'.timersList.trans h.timersList,
    fun addr => (h'.thread addr).trans (h.thread addr)⟩

theorem setInfo (s : TimerSys) (t : Tid) (f : SignalInfo → SignalInfo) :
    SameTimers s (s.setInfo t f) :=
  ⟨rfl, rfl, fun _ => rfl⟩

theorem setTimer {f : Timer → Timer} (hf : (f (s.timer addr)).thread = (s.timer addr).thread) :
    SameTimers s (s.setTimer addr f) := by
  refine ⟨rfl, rfl, fun a => ?_⟩
  by_cases ha : a = addr
  · subst ha
    simpa [TimerSys.setTimer] using hf
  · simp [TimerSys.setTimer, ha]

theorem foldl {α : Type} {f : TimerSys → α → TimerSys} (hf : ∀ s a, SameTimers s (f s a))
    (l : List α) : SameTimers s (l.foldl f s) := by
  induction l generalizing s with
  | nil => exact refl s
  | cons a l ih => exact (hf s a).trans ih

theorem checkPendingSignals (s : TimerSys) : SameTimers s s.checkPendingSignals := by
  rw [TimerSys.checkPendingSignals]
  split
  · exact refl s
  · exact setInfo ..

theorem stageHandler (s : TimerSys) (t : Tid) (sig : Signal) :
    SameTimers s (s.stageHandler t sig) := by
  rw [TimerSys.stageHandler]
  split
  · exact refl s
  · split
    · exact refl s
    · exact refl s
    · exact setInfo ..

theorem timerUpdate (s : TimerSys) (addr : Nat) : SameTimers s (s.timerUpdate addr) := by
  simp only [TimerSys.timerUpdate, timerUpdateBy]
  split
  · exact refl s
  · split
    · exact setTimer rfl
    · split
      · exact (setTimer rfl).trans (setInfo ..)
      · exact setTimer rfl

theorem restarted {s s' : TimerSys} (h : SameTimers s s') (slot : Option Tid) :
    SameTimers s (slot.elim s' fun t => s'.setInfo t fun _ => {}) := by
  cases slot with
  | none => exact h
  | some t => exact h.trans (setInfo s' t fun _ => {})

theorem afterKernel (s : TimerSys) (k : Kernel) (e : KernelEvent) :
    SameTimers { s with kernel := k } (s.afterKernel k e) := by
  cases e with
  | systemTicks expired => exact foldl timerUpdate _
  | schedule => exact checkPendingSignals _
  | _ =>
      simp only [TimerSys.afterKernel]
      exact restarted (foldl (fun s (p : Tid × Signal) => stageHandler s p.1 p.2) _) _

end SameTimers

theorem info_timerUpdate (hne : (s.timer addr).thread ≠ t) :
    (s.timerUpdate addr).info t = s.info t := by
  simp only [timerUpdate, timerUpdateBy]
  split
  · rfl
  · split
    · rfl
    · split
      · exact Function.update_of_ne hne.symm ..
      · rfl

theorem info_timersUpdate {l : List Nat} (hne : ∀ addr ∈ l, (s.timer addr).thread ≠ t) :
    (l.foldl timerUpdate s).info t = s.info t := by
  induction l generalizing s with
  | nil => rfl
  | cons addr l ih =>
      refine (ih fun a ha => ?_).trans (info_timerUpdate (hne addr List.mem_cons_self))
      rw [(SameTimers.timerUpdate s addr).thread]
      exact hne a (List.mem_cons_of_mem addr ha)

/-- What holds between any two events when no thread ends with a timer left. -/
structure Tended (s : TimerSys) : Prop where
  consistent : Consistent s.kernel
  alive : ∀ addr ∈ s.timersList, s.kernel.Alive (s.timer addr).thread

namespace Tended

theorem start : TimerSys.start.Tended :=
  ⟨Kernel.schedStart_spec, fun _ h => nomatch h⟩

theorem same (h : s.Tended) (hsame : SameTimers s s') : s'.Tended where
  consistent := by
    rw [hsame.kernel]
    exact h.consistent
  alive addr haddr := by
    rw [hsame.kernel, hsame.thread]
    exact h.alive addr (hsame.timersList ▸ haddr)

theorem timerCreate {clockid : Int} {sevp : Sigevent} {memory : Option (Nat × Timer)}
    (h : s.Tended) (halive : s.kernel.Alive s.running) :
    (s.sysTimerCreate clockid sevp memory).1.Tended := by
  simp only [sysTimerCreate]
  split
  · exact h
  · split
    · exact h
    · split
      · exact h
      · next a old =>
          refine ⟨h.consistent, fun addr haddr => ?_⟩
          by_cases ha : addr = a
          · subst ha
            simpa [setInfo, setTimer] using halive
          · have hmem : addr ∈ s.timersList := by simpa [setInfo, setTimer, ha] using haddr
            simpa [setInfo, setTimer, ha] using h.alive addr hmem

theorem timerDelete {timerid : Int} {r : TimerSys × Except Errno Unit} (h : s.Tended)
    (hdelete : s.sysTimerDelete timerid = some r) : r.1.Tended := by
  simp only [sysTimerDelete, Option.bind_eq_bind, Option.bind_eq_some_iff] at hdelete
  obtain ⟨found, -, hdelete⟩ := hdelete
  split at hdelete
  · obtain rfl := Option.some.inj hdelete
    exact h
  · obtain rfl := Option.some.inj hdelete
    exact ⟨h.consistent, fun a ha => h.alive a (List.mem_of_mem_erase ha)⟩

theorem timerSettime {timerid : Int} {newValue : Itimerspec}
    {r : TimerSys × Except Errno Itimerspec} (h : s.Tended)
    (hset : s.sysTimerSettime timerid newValue = some r) : r.1.Tended := by
  simp only [sysTimerSettime] at hset
  split at hset
  · obtain rfl := Option.some.inj hset
    exact h
  · split at hset
    · obtain rfl := Option.some.inj hset
      exact h
    · simp only [Option.bind_eq_bind, Option.bind_eq_some_iff] at hset
      obtain ⟨found, -, hset⟩ := hset
      split at hset
      · obtain rfl := Option.some.inj hset
        exact h
      · obtain rfl := Option.some.inj hset
        dsimp only
        exact h.same (SameTimers.setTimer rfl)

theorem call {e : TimerEvent} (h : s.Tended) (hok : s.TimerOk e) (hcall : s.call e = some s') :
    s'.Tended := by
  cases e with
  | kernel e => cases hcall
  | timerCreate clockid sevp memory =>
      simp only [TimerSys.call, Option.ite_none_right_eq_some, Option.some.injEq] at hcall
      exact hcall.2 ▸ h.timerCreate hok
  | timerDelete timerid =>
      obtain ⟨r, hr, rfl⟩ := Option.map_eq_some_iff.mp hcall
      exact h.timerDelete hr
  | timerSettime timerid newValue =>
      obtain ⟨r, hr, rfl⟩ := Option.map_eq_some_iff.mp hcall
      exact h.timerSettime hr
  | sigaction signum handler memory =>
      obtain rfl := Option.some.inj hcall
      simp only [sysSigaction]
      split
      · exact h
      · split
        · exact h
        · dsimp only
          exact h.same (SameTimers.setInfo ..)
  | once =>
      obtain rfl := Option.some.inj hcall
      exact h.same (SameTimers.setInfo ..)
  | handlerReturn => cases hcall

theorem step {e : TimerEvent} (h : s.Tended) (hok : s.TimerOk e) (hstep : s.step e = some s') :
    s'.Tended := by
  cases e with
  | kernel e =>
      obtain ⟨k, hk, rfl⟩ := Option.map_eq_some_iff.mp hstep
      have hkept : Tended { s with kernel := k } :=
        ⟨h.consistent.step hok.1 hk, fun addr haddr =>
          Kernel.alive_step hk (h.alive addr haddr) (hok.2 addr haddr)⟩
      exact hkept.same (SameTimers.afterKernel s k e)
  | handlerReturn =>
      simp only [TimerSys.step, Option.ite_none_right_eq_some, Option.some.injEq] at hstep
      exact hstep.2 ▸ h.same (SameTimers.setInfo ..)
  | _ =>
      simp only [TimerSys.step, Option.ite_none_right_eq_some] at hstep
      exact h.call hok hstep.2

theorem untouched {e : KernelEvent} (h : s.Tended) (he : Wakeup e) (ht : ¬ s.kernel.Alive t)
    (hstep : s.step (.kernel e) = some s') :
    s'.kernel.threads t = s.kernel.threads t ∧ (s'.info t).signalQueue = (s.info t).signalQueue ∧
      ∀ p, t ∉ s'.kernel.members (.ready p) := by
  obtain ⟨k, hk, rfl⟩ := Option.map_eq_some_iff.mp hstep
  obtain ⟨hinfo, hbitmap⟩ := wakeup_free h.consistent he hk ht
  have hdead : ¬ k.Alive t := by
    rw [Kernel.Alive, hbitmap]
    exact ht
  have hok : s.kernel.EventOk e := by
    cases he with
    | tick expired => trivial
    | poll polls => trivial
  have hconsistent := h.consistent.step hok hk
  rw [(SameTimers.afterKernel s k e).kernel]
  refine ⟨hinfo, ?_, notMem_ready hconsistent hdead⟩
  cases he with
  | tick expired =>
      have hothers : ∀ addr ∈ s.timersList, (s.timer addr).thread ≠ t :=
        fun addr haddr hthread => ht (hthread ▸ h.alive addr haddr)
      exact congrArg SignalInfo.signalQueue
        (info_timersUpdate (s := { s with kernel := k }) hothers)
  | poll polls => rfl

theorem staysDead (h : s.Tended) : s.StaysDead := by
  intro t ht
  refine ⟨notMem_ready h.consistent ht, fun hmem => ?_, fun addr haddr hthread => ?_,
    fun e s' he hstep => h.untouched he ht hstep⟩
  · obtain ⟨L, -, hR⟩ := h.consistent
    exact ht (hR.timeoutList.2 t hmem).1
  · exact ht (hthread ▸ h.alive addr haddr)

end Tended

/-- In every run whose steps meet their condition, the slots without a thread stay dead. -/
theorem staysDead_of_timerOk {es : List TimerEvent} (hok : Runs.AllOk TimerOk step start es)
    (hrun : Runs.exec step start es = some s) : s.StaysDead :=
  (Runs.exec_invariant (fun _ _ _ hinv hok hstep => Tended.step hinv hok hstep)
    Tended.start hok hrun).staysDead

/-- Thread 5, one of the two threads of a task, creates a timer for a single signal after
the next tick. -/
def timerRun : List TimerEvent :=
  Kernel.userRun.map .kernel ++ [.kernel .syscallHandler,
    .timerCreate clockMonotonic ⟨sigevSignal, 100⟩ (some (0, start.timer 0)),
    .timerSettime 0 ⟨⟨0, 1⟩, ⟨0, 0⟩⟩]

def tidyRun : List TimerEvent :=
  timerRun ++ [.timerDelete 0, .kernel (.call .pthreadExit)]

theorem staysDead_of_timerOk_at_exit :
    ∃ s, Runs.exec step start tidyRun = some s ∧ ¬ s.kernel.Alive 5 ∧ s.StaysDead := by
  have hrun : (Runs.exec step start tidyRun).map (fun s => s.kernel.bitmapThreads 5) =
      some false := by decide +kernel
  obtain ⟨s, hs, hdead⟩ := Option.map_eq_some_iff.mp hrun
  exact ⟨s, hs, by simp [Kernel.Alive, hdead], staysDead_of_timerOk (by decide +kernel) hs⟩

/-- Without that the timer goes on, and the next tick queues its signal for a thread that is
gone. -/
theorem staysDead_not_with_timer :
    ∃ s, Runs.exec step start (timerRun ++ [.kernel (.call .pthreadExit)]) = some s ∧
      ¬ s.StaysDead := by
  have hrun : (Runs.exec step start (timerRun ++ [.kernel (.call .pthreadExit)])).map (fun s =>
      (s.kernel.bitmapThreads 5, s.timersList, (s.timer 0).thread)) = some (false, [0], 5) := by
    decide +kernel
  obtain ⟨s, hs, hfacts⟩ := Option.map_eq_some_iff.mp hrun
  obtain ⟨hdead, htimers, hthread⟩ : s.kernel.bitmapThreads 5 = false ∧ s.timersList = [0] ∧
      (s.timer 0).thread = 5 := by simpa using hfacts
  refine ⟨s, hs, fun hstays => ?_⟩
  have hnone := (hstays 5 (by simp [Kernel.Alive, hdead])).timer 0 (by simp [htimers])
  exact hnone hthread

/-- Thread 4 polls with a timeout when the other thread of its task exits. -/
def pollRun : List TimerEvent :=
  (Kernel.userRun ++ [KernelEvent.syscallHandler, .call .schedYield, .syscallReturn, .schedule,
    .syscallHandler, .call (.poll 5), .schedule, .syscallHandler, .call .exit]).map .kernel

/-- The entry for the timeout stays, and the tick at which it is over makes the thread
ready again. -/
theorem staysDead_not_in_poll :
    ∃ s, Runs.exec step start pollRun = some s ∧ ¬ s.StaysDead ∧
      ∃ s', s.step (.kernel (.systemTicks fun _ => true)) = some s' ∧ ¬ s'.kernel.Alive 4 ∧
        (s'.kernel.threads 4).status = .ready := by
  have hrun : (Runs.exec step start pollRun).map (fun s => (s.kernel.bitmapThreads 4,
      s.kernel.timeoutList, (s.step (.kernel (.systemTicks fun _ => true))).map fun s' =>
        (s'.kernel.bitmapThreads 4, (s'.kernel.threads 4).status))) =
      some (false, [4], some (false, .ready)) := by decide +kernel
  obtain ⟨s, hs, hfacts⟩ := Option.map_eq_some_iff.mp hrun
  obtain ⟨hdead, htimeout, htick⟩ : s.kernel.bitmapThreads 4 = false ∧
      s.kernel.timeoutList = [4] ∧ (s.step (.kernel (.systemTicks fun _ => true))).map (fun s' =>
        (s'.kernel.bitmapThreads 4, (s'.kernel.threads 4).status)) = some (false, .ready) := by
    simpa only [Prod.mk.injEq] using hfacts
  obtain ⟨s', hs', hafter⟩ := Option.map_eq_some_iff.mp htick
  obtain ⟨hdead', hstatus⟩ : s'.kernel.bitmapThreads 4 = false ∧
      (s'.kernel.threads 4).status = .ready := by simpa only [Prod.mk.injEq] using hafter
  refine ⟨s, hs, fun hstays => ?_, s', hs', by simp [Kernel.Alive, hdead'], hstatus⟩
  have hnone := (hstays 4 (by simp [Kernel.Alive, hdead])).timeout
  exact hnone (by simp [htimeout])

end TimerSys

end Tenok
