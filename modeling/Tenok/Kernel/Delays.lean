import Tenok.Kernel.Spared

/-!
Threads in `delay_ticks`. The sleep list also takes threads that yield, that are preempted and
that are new; whatever these do, a thread that sleeps loses one tick with each tick of the system,
and the scheduler passes it over until it has none left.
-/
namespace Tenok
open Ring Queues

namespace Kernel
variable {k k' k'' : Kernel} {A A' : Set Tid} {L L' : SchedList → List Tid} {h g : SchedList}
  {t u : Tid} {S : Set SchedList} {sig : Signal} {m : Nat}

/-- The thread sleeps, with so many ticks to go. -/
structure Delayed (k : Kernel) (t : Tid) (m : Nat) : Prop where
  sleeps : t ∈ k.members .sleep
  status : (k.threads t).status = .wait
  ticks : (k.threads t).sleepTicks.toNat = m
  untimed : (k.threads t).pollTimed = false

/-- The step leaves the thread asleep and takes no tick from it. -/
def KeepsDelay (t : Tid) (k k' : Kernel) : Prop := ∀ m, k.Delayed t m → k'.Delayed t m

theorem Delayed.mem (h : k.Delayed t m) (hT : Threaded k A L) : t ∈ L .sleep :=
  hT.members_eq Threaded.sleep_inUse ▸ h.sleeps

theorem Delayed.ne_of_unqueued (h : k.Delayed t m) (hst : k.Unqueued) : t ≠ k.runningThread := by
  rintro rfl
  have hwait := h.status
  rw [show (k.threads k.runningThread).status = .running from hst] at hwait
  cases hwait

namespace KeepsDelay

theorem refl (t : Tid) (k : Kernel) : KeepsDelay t k k := fun _ => id

theorem trans (h : KeepsDelay t k k') (h' : KeepsDelay t k' k'') : KeepsDelay t k k'' :=
  fun m hm => h' m (h m hm)

theorem of_lists (hT : Threaded k A L) (hT' : Threaded k' A' L')
    (hlist : t ∈ L .sleep → (k.threads t).status = .wait → (k.threads t).pollTimed = false →
      t ∈ L' .sleep ∧ (k'.threads t).status = (k.threads t).status ∧
      (k'.threads t).sleepTicks = (k.threads t).sleepTicks ∧
      (k'.threads t).pollTimed = (k.threads t).pollTimed) : KeepsDelay t k k' := by
  intro m hm
  obtain ⟨hmem, hst, hticks, hpoll⟩ := hlist (hm.mem hT) hm.status hm.untimed
  exact ⟨(hT'.members_eq Threaded.sleep_inUse).symm ▸ hmem, hst.trans hm.status,
    hticks ▸ hm.ticks, hpoll.trans hm.untimed⟩

theorem of_same (hT : Threaded k A L) (hT' : Threaded k' A' L')
    (hlist : t ∈ L .sleep → (k.threads t).status = .wait → (k.threads t).pollTimed = false →
      k'.threads t = k.threads t ∧ t ∈ L' .sleep) : KeepsDelay t k k' := by
  refine of_lists hT hT' fun hmem hst hpoll => ?_
  obtain ⟨hsame, hmem'⟩ := hlist hmem hst hpoll
  rw [hsame]
  exact ⟨hmem', rfl, rfl, rfl⟩

theorem wakes (hT : Threaded k A L) (hT' : Threaded k' A' L') (hW : Wakes S k L k' L')
    (hS : SchedList.sleep ∉ S) : KeepsDelay t k k' :=
  of_same hT hT' fun hmem _ _ =>
    ⟨hW.stays _ hS (by simp) t hmem, (hW.others _ hS (by simp)).symm ▸ hmem⟩

theorem raised (hT : Threaded k A L) (hT' : Threaded k' A' L') (hR : Raised k L k' L') :
    KeepsDelay t k k' := by
  refine of_lists hT hT' fun hmem _ _ => ?_
  rw [hR.others _ (by simp), hR.info t]
  exact ⟨hmem, rfl, rfl, rfl⟩

theorem removed {T : List Tid} (hT : Threaded k A L) (hrem : Removed A' k L T k' L')
    (ht : t ∉ T) : KeepsDelay t k k' :=
  of_same hT hrem.threaded fun hmem _ _ => ⟨hrem.threads t ht, (hrem.mem t _).mpr ⟨ht, hmem⟩⟩

theorem setThread {f : ThreadInfo → ThreadInfo} (hT : Threaded k A L)
    (hf : ∀ i, (f i).status = i.status ∧ (f i).sleepTicks = i.sleepTicks ∧
      (f i).pollTimed = i.pollTimed) : KeepsDelay t k (k.setThread u f) := by
  refine of_lists hT (hT.setThread fun i => (hf i).1) fun hmem _ _ => ⟨hmem, ?_⟩
  by_cases htu : t = u
  · subst htu
    simpa [Kernel.setThread] using hf _
  · simp [Kernel.setThread, htu]

theorem queueSelf {f : ThreadInfo → ThreadInfo} (hT : Threaded k A L) (hst : k.Unqueued)
    (hf : ∀ i, (f i).status = i.status) (hh : h ∈ inUse A) (hjoin : h ≠ .join k.runningThread) :
    KeepsDelay t k ((k.setThread k.runningThread f).prepareToWait h k.runningThread .wait) := by
  intro m hm
  have ht := hm.ne_of_unqueued hst
  have hst' : ((k.setThread k.runningThread f).threads k.runningThread).status = .running :=
    (Threaded.status_setThread hf k.runningThread).trans hst
  refine of_same hT ((hT.setThread hf).prepareToWait hh hst' (by simp) hjoin)
    (fun hmem _ _ => ⟨?_, mem_enqueue.mpr (Or.inl hmem)⟩) m hm
  simp [Kernel.prepareToWait, setStatus, Kernel.setThread, ht]

theorem sysPoll (hT : Threaded k A L) (hst : k.Unqueued) (timeout : Int) :
    KeepsDelay t k (k.sysPoll timeout) := by
  intro m hm
  obtain ⟨-, -, -, hothers⟩ := hT.polls hst timeout
  exact of_same hT (hT.sysPoll hst timeout) (fun hmem _ _ =>
    ⟨hothers t (hm.ne_of_unqueued hst), mem_enqueue.mpr (Or.inl hmem)⟩) m hm

theorem sysPollRet (hT : Threaded k A L) (hst : k.Unqueued) : KeepsDelay t k k.sysPollRet := by
  intro m hm
  have hT' : Threaded k.sysPollRet A L :=
    (hT.setThread (t := k.runningThread) (f := fun i => { i with pollTimed := false })
      fun _ => rfl).of_status rfl rfl rfl fun _ => rfl
  exact of_same hT hT' (fun hmem _ _ =>
    ⟨hT.sysPollRet.2 t (hm.ne_of_unqueued hst), hmem⟩) m hm

theorem finishWait (hT : Threaded k A L) (hu : k.Alive u) (htu : t ≠ u) :
    KeepsDelay t k (k.finishWait u) := by
  obtain ⟨L', hT', hreadied⟩ := Readied.finishWait hT hu
  obtain ⟨hsame, hlists⟩ := hreadied.stays t htu
  exact of_same hT hT' fun hmem _ _ => ⟨hsame, hlists _ hmem⟩

/-! ### Signals -/

theorem handleSignal_self (hP : Parked k L) (hT : Threaded k {t | k.Alive t} L)
    (hstop : sig ≠ .stop) (hcont : sig ≠ .cont) (hkill : sig ≠ .kill)
    (hsig : k.handleSignal t sig = some k') : KeepsDelay t k k' := by
  intro m hm
  have hmem := hm.mem hT
  have hwaits : (k.threads t).waitForSignal ≠ true := fun hw => by
    cases hT.rings.unique (hP.waiting t (hT.alive hmem) hw).1 hmem
  have hsame : k.endSigwait t sig = k := by
    rw [Kernel.endSigwait, if_neg]
    exact fun h => hwaits h.1
  cases sig with
  | stop => exact absurd rfl hstop
  | cont => exact absurd rfl hcont
  | kill => exact absurd rfl hkill
  | usr1 | usr2 | poll =>
      obtain rfl := Option.some.inj hsig
      rwa [hsame]

theorem handleSignal (hP : Parked k L) (hT : Threaded k {t | k.Alive t} L) (hu : k.Alive u)
    (hstop : sig = .stop → k.Stoppable u) (hkill : sig ≠ .kill)
    (hspares : t = u → sig ≠ .stop ∧ sig ≠ .cont) (hsig : k.handleSignal u sig = some k') :
    KeepsDelay t k k' := by
  by_cases htu : t = u
  · subst htu
    exact handleSignal_self hP hT (hspares rfl).1 (hspares rfl).2 hkill hsig
  · obtain ⟨L', hT', hlists⟩ := handleSignal_frame hT hu hstop hkill hsig
    have htouched := (handleSignal_touched hT hu hstop hkill hsig).2
    exact of_same hT hT' fun hmem _ _ => ⟨htouched.threads t htu, hlists t _ htu hmem⟩

/-! ### Threads that begin and end -/

theorem grown (hg : Grown k L k' A L') (hT : Threaded k {t | k.Alive t} L) : KeepsDelay t k k' :=
  of_same hT hg.threaded fun hmem _ _ => ⟨hg.threads t (hT.alive hmem), hg.mem hmem⟩

theorem sysExit (hT : Threaded k {t | k.Alive t} L) (hR : Registered k) (hok : k.ExitOk)
    (hexit : k.sysExit = some k') (ht : t ∉ k.currentThreads) : KeepsDelay t k k' := by
  obtain ⟨task, L', htask, hrem⟩ := hT.sysExit hR hok hexit
  rw [currentThreads_eq htask] at ht
  exact removed hT hrem ht

theorem threadJoinHandler (hT : Threaded k {t | k.Alive t} L) (hR : Registered k)
    (hexec : k.Executing) (hok : k.ThreadExitOk) (hhandler : k.threadJoinHandler = some k') :
    KeepsDelay t k k' := by
  intro m hm
  obtain ⟨k₁, L', hW, -, hrem, -⟩ := hT.threadExit hR hexec hok hhandler
  have htr : t ∉ [k.runningThread] := by simpa using hm.ne_of_unqueued hok.1
  refine of_same hT hrem.threaded (fun hmem _ _ => ⟨?_, (hrem.mem t _).mpr ⟨htr, ?_⟩⟩) m hm
  · rw [hrem.threads t htr, hW.stays _ (by simp) (by simp) t hmem]
  · rwa [hW.others _ (by simp) (by simp)]

theorem carries (t : Tid) : Carries t (KeepsDelay t) where
  refl := refl t
  trans := trans
  setThread := setThread
  queueSelf := queueSelf
  sysPoll := sysPoll
  grown := grown
  handleSignal := handleSignal
  kill hT hR hnodup halive hok ht hsig :=
    have ⟨_, hrem⟩ := hT.kill hR hnodup halive hok hsig
    removed hT hrem ht
  threadDelete hT hR halive hok htu hdelete :=
    have ⟨_, hrem⟩ := hT.deleteKillable hR halive hok hdelete
    removed hT hrem (by simpa using htu)
  sysExit hT hR hok ht hexit := sysExit hT hR hok hexit ht
  threadJoinHandler := threadJoinHandler

end KeepsDelay

end Kernel

def KernelEvent.ticks : KernelEvent → Nat
  | .systemTicks _ => 1
  | _ => 0

def ticksOf : List KernelEvent → Nat
  | [] => 0
  | e :: es => e.ticks + ticksOf es

def KernelEvent.isSchedule : KernelEvent → Bool
  | .schedule => true
  | _ => false

namespace Kernel
variable {k k' : Kernel} {A : Set Tid} {L L' : SchedList → List Tid} {t : Tid} {m : Nat}
  {e : KernelEvent}

/-! ### Ticks and the scheduler -/

theorem foldl_update {f : ThreadInfo → ThreadInfo} {l : List Tid} (hl : l.Nodup)
    (threads : Tid → ThreadInfo) (t : Tid) :
    l.foldl (fun threads u => Function.update threads u (f (threads u))) threads t =
      if t ∈ l then f (threads t) else threads t := by
  induction l generalizing threads with
  | nil => rfl
  | cons u l ih =>
      obtain ⟨hul, hl⟩ := List.nodup_cons.mp hl
      rw [List.foldl_cons, ih hl]
      by_cases htu : t = u
      · subst htu
        rw [if_neg hul, Function.update_self, if_pos List.mem_cons_self]
      · rw [Function.update_of_ne htu]
        simp [htu]

theorem Delayed.threadsTicksUpdate (hm : k.Delayed t m) (hT : Threaded k A L)
    (hupdate : k.threadsTicksUpdate = some k') : k'.Delayed t (m - 1) := by
  have hmem := hm.mem hT
  obtain ⟨threads, hthreads, hinfo⟩ := hT.threadsTicksUpdate
  obtain rfl := Option.some.inj (hthreads.symm.trans hupdate)
  have hst : ∀ u, (threads u).status = (k.threads u).status := fun u => by rw [(hinfo u).1]
  have hpoll : (threads t).pollTimed = (k.threads t).pollTimed := by rw [(hinfo t).1]
  have hT' : Threaded { k with threads } A L := hT.of_status rfl rfl rfl hst
  have hticks : (threads t).sleepTicks =
      if 0#32 < (k.threads t).sleepTicks then (k.threads t).sleepTicks - 1#32
      else (k.threads t).sleepTicks := by
    rw [Kernel.threadsTicksUpdate, hT.forEachEntry_eq Threaded.sleep_inUse] at hupdate
    have heq := congrArg Kernel.threads (Option.some.inj hupdate)
    rw [show threads t = _ from (congrFun heq t).symm]
    dsimp only
    rw [foldl_update (f := fun i =>
      if 0#32 < i.sleepTicks then { i with sleepTicks := i.sleepTicks - 1#32 } else i)
      (hT.rings.nodup _), if_pos hmem]
    split <;> rfl
  refine ⟨(hT'.members_eq Threaded.sleep_inUse).symm ▸ hmem, (hst t).trans hm.status, ?_,
    hpoll.trans hm.untimed⟩
  dsimp only
  rw [hticks, ← hm.ticks]
  split
  · next hpos => bv_omega
  · next hzero => bv_omega

theorem Delayed.systemTicks {expired : Tid → Bool} (hm : k.Delayed t m)
    (hT : Threaded k {t | k.Alive t} L) (hR : Registered k)
    (hticks : k.systemTicksUpdate expired = some k') : k'.Delayed t (m - 1) := by
  obtain ⟨threads, hupdate, hinfo⟩ := hT.threadsTicksUpdate
  have hticked := hm.threadsTicksUpdate hT hupdate
  have hst : ∀ u, (threads u).status = (k.threads u).status := fun u => by rw [(hinfo u).1]
  have hT₁ : Threaded { k with threads } {t | k.Alive t} L := hT.of_status rfl rfl rfl hst
  obtain ⟨L₂, hT₂, hreadied⟩ := Readied.foldl_finishWait (c := expired) hT₁
    fun u hu => (hR.timeoutList.2 u hu).1
  have huntimed : t ∉ {t | t ∈ k.timeoutList ∧ expired t = true} := by
    intro hmem
    have htimed := (hR.timeoutList.2 t hmem.1).2
    rw [hm.untimed] at htimed
    cases htimed
  obtain ⟨hsame, hlists⟩ := hreadied.stays t huntimed
  rw [Kernel.systemTicksUpdate, hupdate] at hticks
  obtain rfl := Option.some.inj hticks
  exact KeepsDelay.of_same hT₁ hT₂ (fun hmem _ _ => ⟨hsame, hlists _ hmem⟩) _ hticked

theorem wakeSleepers_threads (ht : (k.threads t).sleepTicks ≠ 0#32)
    (hwake : k.wakeSleepers = some k') : k'.threads t = k.threads t := by
  refine forEachSafe_induct (P := fun k₁ => k₁.threads t = k.threads t) rfl
    (fun k₁ u hk₁ => ?_) hwake
  split
  · next hzero =>
      have htu : t ≠ u := by
        rintro rfl
        exact ht (hk₁ ▸ hzero)
      exact ((Touched.makeReady u k₁).threads t htu).trans hk₁
  · exact hk₁

theorem sleepTicks_ne (hm : k.Delayed t m) (hne : m ≠ 0) : (k.threads t).sleepTicks ≠ 0#32 := by
  intro hzero
  rw [← hm.ticks, hzero] at hne
  exact hne rfl

theorem Delayed.schedule (hm : k.Delayed t m) (hne : m ≠ 0) (hT : Threaded k A L)
    (hsched : k.schedule = some k') : k'.Delayed t m := by
  have hticks := sleepTicks_ne hm hne
  obtain ⟨L', hT', hD⟩ := hT.schedule hsched
  have hmem := hD.sleeps t (hm.mem hT) hticks
  have hrun : t ≠ k'.runningThread := fun h => hT'.notMem_of_running hD.status _ (h ▸ hmem)
  obtain ⟨L₁, -, -, -, -, hstopped⟩ := hT.stopRunning
  have hstop := hstopped t _ (hm.mem hT)
  have hsame : k'.threads t = k.threads t := by
    simp only [Kernel.schedule, Option.bind_eq_bind, Option.bind_eq_some_iff,
      Option.some.injEq] at hsched
    obtain ⟨k₁, hk₁, pri, -, thread, -, rfl⟩ := hsched
    have hwoken := wakeSleepers_threads (hstop.symm ▸ hticks) hk₁
    simpa [setStatus, Kernel.setThread, show t ≠ thread from hrun] using hwoken.trans hstop
  refine ⟨(hT'.members_eq Threaded.sleep_inUse).symm ▸ hmem, ?_, ?_, ?_⟩
  · exact hsame ▸ hm.status
  · exact hsame ▸ hm.ticks
  · exact hsame ▸ hm.untimed

theorem Delayed.step (hm : k.Delayed t m) (hP : Parked k L) (hT : Threaded k {t | k.Alive t} L)
    (hR : Registered k) (hok : k.EventOk e) (hspares : k.Spares t e)
    (hdue : e.isSchedule = true → m ≠ 0) (hstep : k.step e = some k') :
    k'.Delayed t (m - e.ticks) := by
  have hkeeps : KeepsDelay t k k' → k'.Delayed t m := fun h => h m hm
  cases step_cases hT hok hstep with
  | call hexec hcall h =>
      exact hkeeps ((KeepsDelay.carries t).runCall hP hT hR hexec hcall hspares h)
  | pollRet hst => exact hkeeps (.sysPollRet hT hst)
  | syscallHandler => exact hkeeps (.setThread hT fun _ => ⟨rfl, rfl, rfl⟩)
  | syscallReturn => exact hkeeps (.setThread hT fun _ => ⟨rfl, rfl, rfl⟩)
  | exits hmain hends h =>
      have hremoves := hspares.1
      rw [removes, if_pos hmain] at hremoves
      exact hkeeps (.sysExit hT hR hends h hremoves)
  | threadExits hexec hends h => exact hkeeps (.threadJoinHandler hT hR hexec hends h)
  | wakeUp _ hT₁ hW | wakeUpAll _ hT₁ hW | fifoWakeUp _ _ hT₁ hW | pollNotify _ hT₁ hW =>
      exact hkeeps (.wakes hT hT₁ hW (by simp))
  | taskletSchedule tid hmem =>
      refine hkeeps (.finishWait hT (hR.threadsList.2 _ hmem) fun htu => ?_)
      exact hspares.2.1 (congrArg some htu.symm)
  | inheritPriority mutex hT' hraised => exact hkeeps (.raised hT hT' hraised)
  | resetInheritedPriority =>
      refine hkeeps (.setThread hT fun i => ?_)
      split <;> exact ⟨rfl, rfl, rfl⟩
  | systemTicks expired h => exact hm.systemTicks hT hR h
  | schedule hsched => exact hm.schedule (hdue rfl) hT hsched

theorem delayed_delayTicks {ticks : BitVec 32} (hT : Threaded k A L) (hst : k.Unqueued)
    (hstep : k.step (.call (.delayTicks ticks)) = some k') :
    k'.Delayed k.runningThread ticks.toNat := by
  simp only [Kernel.step, Option.ite_none_right_eq_some] at hstep
  obtain ⟨⟨⟨-, huntimed⟩, -⟩, hcall⟩ := hstep
  obtain rfl := Option.some.inj hcall
  have hset : Threaded (k.setThread k.runningThread fun i => { i with sleepTicks := ticks }) A L :=
    hT.setThread fun _ => rfl
  have hst' : ((k.setThread k.runningThread fun i => { i with sleepTicks := ticks }).threads
      k.runningThread).status = .running := by
    have hrun : (k.threads k.runningThread).status = .running := hst
    simpa [setThread] using hrun
  have hT' : Threaded (k.sysDelayTicks ticks).1 A (enqueue L k.runningThread .sleep) :=
    hset.prepareToWait Threaded.sleep_inUse hst' (by simp) (by simp)
  refine ⟨?_, ?_, ?_, ?_⟩
  · exact (hT'.members_eq Threaded.sleep_inUse).symm ▸ mem_enqueue.mpr (Or.inr ⟨rfl, rfl⟩)
  · simp [sysDelayTicks, prepareToWait, setStatus, setThread]
  · simp [sysDelayTicks, prepareToWait, setStatus, setThread]
  · simpa [sysDelayTicks, prepareToWait, setStatus, setThread] using huntimed

/-! ### Runs -/

/-- No `schedule` comes when so many ticks have been processed. -/
def Pending : Nat → List KernelEvent → Prop
  | _, [] => True
  | m, e :: es => (e.isSchedule = true → m ≠ 0) ∧ Pending (m - e.ticks) es

instance decidablePending : (m : Nat) → (es : List KernelEvent) → Decidable (Pending m es)
  | _, [] => inferInstanceAs (Decidable True)
  | m, e :: es =>
      have : Decidable (Pending (m - e.ticks) es) := decidablePending _ es
      inferInstanceAs (Decidable ((_ → _) ∧ Pending (m - e.ticks) es))

/-- What a thread in `delay_ticks` relies on with so many ticks to go: it is on no ready list, every
tick is processed, and `__schedule` puts it on the ready list of its priority when no ticks are
left and not before. -/
structure DelayKept (k : Kernel) (t : Tid) (m : Nat) : Prop where
  off : ∀ p, t ∉ k.members (.ready p)
  ticks : ∀ expired, ∃ k', k.systemTicksUpdate expired = some k'
  early : m ≠ 0 → ∀ k', k.schedule = some k' →
    t ≠ k'.runningThread ∧ ∀ p, t ∉ k'.members (.ready p)
  due : m = 0 → ∃ k₁ k', k.stopRunning.wakeSleepers = some k₁ ∧
    t ∈ k₁.members (.ready (k.threads t).priority) ∧ k.schedule = some k' ∧
      (t = k'.runningThread ∨ t ∈ k'.members (.ready (k.threads t).priority))

theorem Delayed.off (hm : k.Delayed t m) (hT : Threaded k A L) (p : Priority) :
    t ∉ k.members (.ready p) := by
  intro hmem
  rw [hT.members_eq (Threaded.ready_inUse p)] at hmem
  cases hT.rings.unique hmem (hm.mem hT)

theorem Delayed.due (hm : k.Delayed t 0) (hT : Threaded k {t | k.Alive t} L) :
    ∃ k₁ k', k.stopRunning.wakeSleepers = some k₁ ∧
      t ∈ k₁.members (.ready (k.threads t).priority) ∧ k.schedule = some k' ∧
        (t = k'.runningThread ∨ t ∈ k'.members (.ready (k.threads t).priority)) := by
  have hzero : (k.threads t).sleepTicks = 0#32 := BitVec.eq_of_toNat_eq hm.ticks
  have hcontends : t ∈ k.contenders (k.threads t).priority :=
    List.mem_append_right _ (List.mem_filter.mpr
      ⟨List.mem_append_left _ hm.sleeps, by simp [hzero]⟩)
  obtain ⟨k₁, L₁, hk₁, hT₁, -, -, hready₁, -, -⟩ := wakeSleepers_stopRunning hT
  obtain ⟨k', L', p, l, hsched, hT', -, -, -, hready, -, -⟩ :=
    schedule_takes hT ⟨_, List.ne_nil_of_mem hcontends⟩
  refine ⟨k₁, k', hk₁, ?_, hsched, ?_⟩
  · rw [hT₁.members_eq (Threaded.ready_inUse _), hready₁]
    exact hcontends
  · rw [hT'.members_eq (Threaded.ready_inUse _), hready]
    by_cases htr : t = k'.runningThread
    · exact Or.inl htr
    · exact Or.inr ((List.mem_erase_of_ne htr).mpr hcontends)

theorem Delayed.kept (hm : k.Delayed t m) (hT : Threaded k {t | k.Alive t} L)
    (hR : Registered k) : k.DelayKept t m := by
  refine ⟨hm.off hT, fun expired => ?_, fun hne k' hsched => ?_, fun hzero => ?_⟩
  · obtain ⟨k', -, hticks, -⟩ := hT.systemTicksUpdate hR expired
    exact ⟨k', hticks⟩
  · obtain ⟨L', hT', hD⟩ := hT.schedule hsched
    have hm' := hm.schedule hne hT hsched
    exact ⟨fun h => hT'.notMem_of_running hD.status _ (h ▸ hm'.mem hT'), hm'.off hT'⟩
  · subst hzero
    exact hm.due hT

def DelayOk (k : Kernel) (e : KernelEvent) : Prop := k.EventOk e ∧ k.TaskletOk e

instance decidableDelayOk (k : Kernel) (e : KernelEvent) : Decidable (k.DelayOk e) :=
  inferInstanceAs (Decidable (_ ∧ _))

def Delays (k : Kernel) (t : Tid) (m : Nat) : Prop :=
  ∃ L, Threaded k {t | k.Alive t} L ∧ Registered k ∧ Parked k L ∧ k.Delayed t m

theorem Delays.run {es : List KernelEvent} (h : k.Delays t m)
    (hok : Runs.AllOk (fun k e => k.DelayOk e ∧ k.Spares t e) Kernel.step k es)
    (hpending : Pending m es) (hrun : Runs.exec Kernel.step k es = some k') :
    k'.Delays t (m - ticksOf es) := by
  induction es generalizing k m with
  | nil =>
      obtain rfl := Option.some.inj hrun
      exact h
  | cons e es ih =>
      obtain ⟨k₁, hk₁, hrest⟩ := Option.bind_eq_some_iff.mp hrun
      obtain ⟨L, hT, hR, hP, hm⟩ := h
      obtain ⟨⟨heok, htasklet⟩, hspares⟩ := hok.1
      obtain ⟨L₁, hT₁, hR₁, hjoins⟩ := hP.step hT hR heok htasklet hk₁
      have hm₁ := hm.step hP hT hR heok hspares hpending.1 hk₁
      have hafter := ih ⟨L₁, hT₁, hR₁, hjoins.parked, hm₁⟩ (hok.2 k₁ hk₁) hpending.2 hrest
      rwa [ticksOf, ← Nat.sub_sub]

/-- In every run in which the lists stay well formed, a thread that has called `delay_ticks` and is
spared sleeps for as many ticks as it has asked for. -/
theorem delayKept_of_delayOk {es₀ es : List KernelEvent} {k₀ k₁ : Kernel} {n : BitVec 32}
    (hok₀ : Runs.AllOk DelayOk Kernel.step schedStart es₀)
    (hrun₀ : Runs.exec Kernel.step schedStart es₀ = some k₀)
    (hcall : k₀.DelayOk (.call (.delayTicks n)))
    (hdelay : k₀.step (.call (.delayTicks n)) = some k₁)
    (hok : Runs.AllOk DelayOk Kernel.step k₁ es)
    (hspares : Runs.AllOk (fun k e => k.Spares k₀.runningThread e) Kernel.step k₁ es)
    (hpending : Pending n.toNat es) (hrun : Runs.exec Kernel.step k₁ es = some k) :
    k.DelayKept k₀.runningThread (n.toNat - ticksOf es) := by
  have hstep : ∀ k e k', (∃ L, Threaded k {t | k.Alive t} L ∧ Registered k ∧ Parked k L) →
      k.DelayOk e → k.step e = some k' →
      ∃ L, Threaded k' {t | k'.Alive t} L ∧ Registered k' ∧ Parked k' L := by
    rintro k e k' ⟨L, hT, hR, hP⟩ ⟨heok, htasklet⟩ hk'
    obtain ⟨L', hT', hR', hjoins⟩ := hP.step hT hR heok htasklet hk'
    exact ⟨L', hT', hR', hjoins.parked⟩
  obtain ⟨L₀, hT₀, hR₀, hP₀⟩ := Runs.exec_invariant hstep parked_schedStart hok₀ hrun₀
  obtain ⟨L₁, hT₁, hR₁, hP₁⟩ := hstep k₀ _ k₁ ⟨L₀, hT₀, hR₀, hP₀⟩ hcall hdelay
  have hm₁ := delayed_delayTicks hT₀ hcall.1 hdelay
  obtain ⟨L, hT, hR, -, hm⟩ := Delays.run ⟨L₁, hT₁, hR₁, hP₁, hm₁⟩
    (Runs.allOk_and hok hspares) hpending hrun
  exact hm.kept hT hR

/-- Threads 4, 5 and 6 of one task; 5 sleeps for three ticks and 4 runs. -/
def napRun : List KernelEvent :=
  crowdRun ++ [.syscallHandler, .call (.delayTicks 3#32), .syscallReturn, .schedule,
    .syscallHandler]

def napKernel : Kernel := (Runs.exec Kernel.step schedStart napRun).getD schedStart

theorem napRun_ok : Runs.AllOk DelayOk Kernel.step schedStart napRun ∧
    Runs.exec Kernel.step schedStart napRun = some napKernel := by
  have hsome : (Runs.exec Kernel.step schedStart napRun).isSome = true := by decide +kernel
  refine ⟨by decide +kernel, (Option.some_get hsome).symm.trans ?_⟩
  rw [napKernel, Option.get_eq_getD]

def wakeRun : List KernelEvent :=
  [.syscallReturn, .schedule, .systemTicks fun _ => false, .syscallHandler, .call .schedYield,
    .syscallReturn, .schedule, .systemTicks fun _ => false]

theorem delayKept_of_delayOk_at_nap : ∃ k₁ k, napKernel.step (.call (.delayTicks 2#32)) = some k₁ ∧
    Runs.exec Kernel.step k₁ wakeRun = some k ∧ napKernel.runningThread = 4 ∧ k.DelayKept 4 0 := by
  have hrunning : napKernel.runningThread = 4 := by decide +kernel
  have hafter : ∃ k₁, napKernel.step (.call (.delayTicks 2#32)) = some k₁ ∧
      Runs.AllOk DelayOk Kernel.step k₁ wakeRun ∧
      Runs.AllOk (fun k e => k.Spares 4 e) Kernel.step k₁ wakeRun ∧
      (Runs.exec Kernel.step k₁ wakeRun).isSome = true := by
    refine ⟨_, Option.eq_some_of_isSome (by decide +kernel), ?_, ?_, ?_⟩
    all_goals decide +kernel
  obtain ⟨k₁, hdelay, hok, hspares, hsome⟩ := hafter
  obtain ⟨k, hk⟩ := Option.isSome_iff_exists.mp hsome
  refine ⟨k₁, k, hdelay, hk, hrunning, ?_⟩
  have hkept := delayKept_of_delayOk (n := 2#32) napRun_ok.1 napRun_ok.2 (by decide +kernel)
    hdelay hok (hrunning.symm ▸ hspares) (by decide) hk
  rwa [hrunning] at hkept

/-- 4 sleeps for one tick, and after the tick 6 stops thread 5, which stays on the sleep list. -/
def strandRun : List KernelEvent :=
  [.syscallReturn, .schedule, .systemTicks fun _ => false, .syscallHandler,
    .call (.pthreadKill 5 (some .stop))]

/-- The loop of `__schedule` goes from thread 5 on to the suspend list, and does not come to 4. -/
theorem delayKept_not_for_stop : ¬ ∀ es₀ es k₀ k₁ k n,
    Runs.exec Kernel.step schedStart es₀ = some k₀ → k₀.Unqueued →
    k₀.step (.call (.delayTicks n)) = some k₁ →
    Runs.AllOk (fun k e => k.Spares k₀.runningThread e) Kernel.step k₁ es →
    Pending n.toNat es → Runs.exec Kernel.step k₁ es = some k →
    k.DelayKept k₀.runningThread (n.toNat - ticksOf es) := by
  intro hclaim
  have hafter : ∃ k₁ k, napKernel.step (.call (.delayTicks 1#32)) = some k₁ ∧
      Runs.AllOk (fun k e => k.Spares napKernel.runningThread e) Kernel.step k₁ strandRun ∧
      Runs.exec Kernel.step k₁ strandRun = some k ∧ k.schedule.isSome = false := by
    refine ⟨_, _, Option.eq_some_of_isSome (by decide +kernel), ?_,
      Option.eq_some_of_isSome (by decide +kernel), ?_⟩
    all_goals decide +kernel
  obtain ⟨k₁, k, hdelay, hspares, hk, hstuck⟩ := hafter
  have hkept := hclaim napRun strandRun _ k₁ k 1#32 napRun_ok.2 (by decide +kernel) hdelay hspares
    (by decide) hk
  obtain ⟨-, k', -, -, hsched, -⟩ := hkept.due rfl
  rw [hsched] at hstuck
  cases hstuck

end Kernel

end Tenok
