import Mathlib.Data.Set.Image
import Tenok.Kernel.KernelRuns

/-!
A kernel whose threads use wait queues and sleep. What a step does to the lists is said
once, for the thread that takes it and for all others; the objects that threads wait for
have their invariants on top of that.
-/
namespace Tenok
open Ring Queues

namespace Kernel
variable {k k' : Kernel} {L L' : SchedList → List Tid} {t u : Tid} {h : SchedList}

/-- A kernel whose lists are well formed and where only sleeping threads have ticks left
to sleep. -/
structure Steady (k : Kernel) (L : SchedList → List Tid) : Prop where
  threaded : Threaded k {t | k.Alive t} L
  timeoutList : k.timeoutList = []
  awake : ∀ t, k.Alive t → t ∉ L .sleep → (k.threads t).sleepTicks = 0#32

/-- The thread is on a ready list or has the CPU. -/
def RunnableIn (k : Kernel) (L : SchedList → List Tid) (t : Tid) : Prop :=
  (∃ p, t ∈ L (.ready p)) ∨ (t = k.runningThread ∧ k.Unqueued)

/-- A step of the running thread: the other threads that can run still can, the queues
outside `Q` stay as they are, and so do the requests of threads on queues. -/
structure Kept (Q : Set WaitQueue) (k : Kernel) (L : SchedList → List Tid) (k' : Kernel)
    (L' : SchedList → List Tid) : Prop where
  steady : Steady k' L'
  runnable : ∀ t, t ≠ k.runningThread → RunnableIn k L t → RunnableIn k' L' t
  queues : ∀ q, q ∉ Q → L' (.wait q) = L (.wait q)
  bitmap : k'.bitmapThreads = k.bitmapThreads
  requests : ∀ q, ∀ t ∈ L (.wait q),
    (k'.threads t).fileRequestSize = (k.threads t).fileRequestSize

theorem Kept.mono {Q Q' : Set WaitQueue} (hK : Kept Q k L k' L') (hQ : Q ⊆ Q') :
    Kept Q' k L k' L' :=
  ⟨hK.steady, hK.runnable, fun q hq => hK.queues q fun h => hq (hQ h), hK.bitmap, hK.requests⟩

namespace Steady

theorem refl (hS : Steady k L) (Q : Set WaitQueue) : Kept Q k L k L :=
  ⟨hS, fun _ _ h => h, fun _ _ => rfl, rfl, fun _ _ _ => rfl⟩

theorem ready_of_runnable (hrun : RunnableIn k L t) (ht : t ≠ k.runningThread) :
    ∃ p, t ∈ L (.ready p) :=
  hrun.resolve_right fun h => ht h.1

theorem queueSelf {f : ThreadInfo → ThreadInfo} {Q : Set WaitQueue} (hS : Steady k L)
    (hst : k.Unqueued) (hf : ∀ i, (f i).status = i.status)
    (hticks : h = .sleep ∨ ∀ i, (f i).sleepTicks = i.sleepTicks)
    (hin : h ∈ inUse {t | k.Alive t}) (hjoin : h ≠ .join k.runningThread)
    (hQ : ∀ q, q ∉ Q → h ≠ .wait q) :
    Kept Q k L ((k.setThread k.runningThread f).prepareToWait h k.runningThread .wait)
      (enqueue L k.runningThread h) := by
  have hT := hS.threaded.setThread (t := k.runningThread) hf
  have hst' := (Threaded.status_setThread (t := k.runningThread) hf k.runningThread).trans hst
  refine ⟨⟨hT.prepareToWait hin hst' (by simp) hjoin, hS.timeoutList, fun t ht hsleep => ?_⟩,
    fun t htr hrun => ?_, fun q hq => enqueue_of_ne (hQ q hq).symm, rfl, fun q t ht => ?_⟩
  · rw [mem_enqueue, not_or] at hsleep
    have hz := hS.awake t ht hsleep.1
    by_cases htr : t = k.runningThread
    · subst htr
      have hne : h ≠ .sleep := fun hh => hsleep.2 ⟨rfl, hh.symm⟩
      simpa [Kernel.prepareToWait, setStatus, Kernel.setThread, hticks.resolve_left hne] using hz
    · simpa [Kernel.prepareToWait, setStatus, Kernel.setThread, htr] using hz
  · obtain ⟨p, hp⟩ := ready_of_runnable hrun htr
    exact Or.inl ⟨p, mem_enqueue.mpr (Or.inl hp)⟩
  · have htr : t ≠ k.runningThread := fun h => hS.threaded.notMem_of_running hst _ (h ▸ ht)
    simp [Kernel.prepareToWait, setStatus, Kernel.setThread, htr]

theorem prepareToWait {Q : Set WaitQueue} (hS : Steady k L) (hst : k.Unqueued)
    (hh : h.owner = none) (hQ : ∀ q, q ∉ Q → h ≠ .wait q) :
    Kept Q k L (k.prepareToWait h k.runningThread .wait) (enqueue L k.runningThread h) := by
  have hjoin : h ≠ .join k.runningThread := by
    rintro rfl
    cases hh
  have hK := hS.queueSelf (f := fun i => i) hst (fun _ => rfl) (Or.inr fun _ => rfl)
    (by simp [inUse, hh]) hjoin hQ
  rwa [setThread_id] at hK

theorem waitOn {q : WaitQueue} (hS : Steady k L) (hst : k.Unqueued)
    (hq : (SchedList.wait q).owner = none) :
    Kept {q} k L (k.prepareToWait (.wait q) k.runningThread .wait)
      (enqueue L k.runningThread (.wait q)) :=
  hS.prepareToWait hst hq fun _ hne h => hne (SchedList.wait.inj h).symm

theorem delayTicks (hS : Steady k L) (hst : k.Unqueued) (ticks : BitVec 32) :
    Kept ∅ k L (k.sysDelayTicks ticks).1 (enqueue L k.runningThread .sleep) :=
  hS.queueSelf (f := fun i => { i with sleepTicks := ticks }) hst (fun _ => rfl) (Or.inl rfl)
    Threaded.sleep_inUse (by simp) (by simp)

theorem schedYield (hS : Steady k L) (hst : k.Unqueued) :
    Kept ∅ k L k.sysSchedYield.1 (enqueue L k.runningThread .sleep) :=
  hS.prepareToWait hst rfl (by simp)

theorem wakes {Q : Set WaitQueue} (hS : Steady k L) (hT : Threaded k' {t | k.Alive t} L')
    (hW : Wakes (SchedList.wait '' Q) k L k' L') : Kept Q k L k' L' := by
  have hbitmap : k'.bitmapThreads = k.bitmapThreads := by rw [hW.rest]
  refine ⟨⟨by simpa only [Alive, hbitmap] using hT, by rw [hW.rest]; exact hS.timeoutList,
    fun t ht hsleep => ?_⟩, fun t htr hrun => ?_, fun q hq => hW.others _ ?_ (by simp), hbitmap,
    fun q t _ => by rw [hW.info t]⟩
  · rw [hW.others .sleep (by simp) (by simp)] at hsleep
    rw [hW.info t]
    exact hS.awake t (by simpa only [Alive, hbitmap] using ht) hsleep
  · obtain ⟨p, hp⟩ := ready_of_runnable hrun htr
    exact Or.inl (hW.ready t p hp)
  · simpa using hq

/-- A wake-up of a thread whose list does not matter, if it has no ticks left to sleep. -/
theorem makeReady (hS : Steady k L) (ht : t ∈ L h) (hz : (k.threads t).sleepTicks = 0#32) :
    Steady (k.makeReady t) (transfer L t (.ready (k.threads t).priority)) where
  threaded := hS.threaded.makeReady ht
  timeoutList := hS.timeoutList
  awake u hu hsleep := by
    rw [(Wakes.makeReady hS.threaded ht (Set.mem_univ h)).info u]
    rw [hS.threaded.rings.mem_transfer] at hsleep
    by_cases hut : u = t
    · exact hut ▸ hz
    · exact hS.awake u hu fun hmem => hsleep (Or.inl ⟨hut, hmem⟩)

theorem raised (hS : Steady k L) (hT : Threaded k' {t | k.Alive t} L') (hR : Raised k L k' L') :
    Kept ∅ k L k' L' ∧ ∀ t, RunnableIn k L t → RunnableIn k' L' t := by
  have hbitmap : k'.bitmapThreads = k.bitmapThreads := by rw [hR.rest]
  have hrun : k'.runningThread = k.runningThread := by rw [hR.rest]
  have hrunnable : ∀ t, RunnableIn k L t → RunnableIn k' L' t := by
    rintro t (⟨p, hp⟩ | ⟨rfl, hst⟩)
    · exact Or.inl (hR.ready t p hp)
    · refine Or.inr ⟨hrun.symm, ?_⟩
      rw [Unqueued, hrun, hR.info]
      exact hst
  refine ⟨⟨⟨by simpa only [Alive, hbitmap] using hT, by rw [hR.rest]; exact hS.timeoutList,
    fun t ht hsleep => ?_⟩, fun t _ => hrunnable t, fun q hq => hR.others _ (by simp), hbitmap,
    fun q t _ => by rw [hR.info t]⟩, hrunnable⟩
  rw [hR.others .sleep (by simp)] at hsleep
  rw [hR.info t]
  exact hS.awake t (by simpa only [Alive, hbitmap] using ht) hsleep

theorem setPriority {f : ThreadInfo → ThreadInfo} (hS : Steady k L) (hf : ∀ i, f i = { i with
      priority := (f i).priority
      originalPriority := (f i).originalPriority
      priorityInherited := (f i).priorityInherited }) :
    Kept ∅ k L (k.setThread t f) L ∧ ∀ u, RunnableIn k L u → RunnableIn (k.setThread t f) L u :=
  hS.raised (hS.threaded.setThread fun i => by rw [hf i]) (Raised.setThread hf)

theorem resetInheritedPriority (hS : Steady k L) :
    Kept ∅ k L k.threadResetInheritedPriority L ∧
      ∀ t, RunnableIn k L t → RunnableIn k.threadResetInheritedPriority L t :=
  hS.setPriority (t := k.runningThread) (f := fun i =>
    if i.priorityInherited then
      { i with priority := i.originalPriority, priorityInherited := false }
    else i) fun i => by split <;> rfl

theorem inheritPriority {mutex : Mutex} (hS : Steady k L)
    (hk : k.threadInheritPriority mutex = some k') : ∃ L', Kept ∅ k L k' L' ∧
      (∀ t, RunnableIn k L t → RunnableIn k' L' t) ∧ k'.runningThread = k.runningThread := by
  obtain ⟨L', hT, hR, -⟩ := hS.threaded.threadInheritPriority hk
  obtain ⟨hK, hrun⟩ := hS.raised hT hR
  exact ⟨L', hK, hrun, by rw [hR.rest]⟩

theorem wakeUp {q : WaitQueue} (hS : Steady k L) (hq : (SchedList.wait q).owner = none)
    (hwake : k.wakeUp (.wait q) = some k') : ∃ L', Kept {q} k L k' L' ∧
      ((L (.wait q) = [] ∧ L' = L ∧ k' = k) ∨
        ∃ first l, L (.wait q) = first :: l ∧ k' = k.makeReady (l.foldl k.higher first) ∧
          L' = transfer L (l.foldl k.higher first)
            (.ready (k.threads (l.foldl k.higher first)).priority)) := by
  have hin : SchedList.wait q ∈ inUse {t | k.Alive t} := by simp [inUse, hq]
  obtain ⟨hempty, heq⟩ | ⟨pre, t, post, hl, -, -, ⟨first, l, hfirst, rfl⟩, heq⟩ :=
    hS.threaded.wakeUp hin
  · obtain rfl : k = k' := Option.some.inj (heq.symm.trans hwake)
    exact ⟨L, hS.refl _, Or.inl ⟨hempty, rfl, rfl⟩⟩
  · obtain rfl := Option.some.inj (heq.symm.trans hwake)
    have ht := hl ▸ List.mem_append_right pre (List.mem_cons_self (l := post))
    refine ⟨_, hS.wakes (hS.threaded.makeReady ht) (Wakes.makeReady hS.threaded ht ?_),
      Or.inr ⟨first, l, hfirst, rfl, rfl⟩⟩
    exact ⟨q, Set.mem_singleton q, rfl⟩

theorem wakeUpAll {q : WaitQueue} (hS : Steady k L) (hq : (SchedList.wait q).owner = none)
    (hwake : k.wakeUpAll (.wait q) = some k') : ∃ L', Kept {q} k L k' L' ∧
      (∀ t, (k'.threads t).sleepTicks = (k.threads t).sleepTicks) ∧ L' (.wait q) = [] := by
  have hin : SchedList.wait q ∈ inUse {t | k.Alive t} := by simp [inUse, hq]
  obtain ⟨k₁, L', hk₁, hT, hW, hempty, -⟩ := hS.threaded.wakeUpAll hin (by simp)
  obtain rfl : k₁ = k' := Option.some.inj (hk₁.symm.trans hwake)
  refine ⟨L', hS.wakes hT ?_, fun t => by rw [hW.info t], hempty⟩
  rwa [Set.image_singleton]

theorem wakeUp_running {q : WaitQueue} (hS : Steady k L) (hq : (SchedList.wait q).owner = none)
    (hwake : k.wakeUp (.wait q) = some k') : k'.runningThread = k.runningThread := by
  obtain ⟨-, -, ⟨-, -, rfl⟩ | ⟨_, _, -, rfl, -⟩⟩ := hS.wakeUp hq hwake
  · rfl
  · rfl

theorem wakeUpAll_running {q : WaitQueue} (hS : Steady k L) (hq : (SchedList.wait q).owner = none)
    (hwake : k.wakeUpAll (.wait q) = some k') : k'.runningThread = k.runningThread := by
  obtain ⟨k₁, L', hk₁, -, hW, -⟩ := hS.threaded.wakeUpAll (h := .wait q) (by simp [inUse, hq])
    (by simp)
  obtain rfl : k₁ = k' := Option.some.inj (hk₁.symm.trans hwake)
  exact hW.runningThread

theorem fifoWakeUp {q : WaitQueue} {availSize : Nat} (hS : Steady k L) (hst : k.Unqueued)
    (hin : SchedList.wait q ∈ inUse {t | k.Alive t})
    (hwake : k.fifoWakeUp (.wait q) availSize = some k') : ∃ L', Kept {q} k L k' L' ∧
      ((L' = L ∧ ∀ t ∈ L (.wait q), availSize < (k.threads t).fileRequestSize) ∨
        ∃ t ∈ L (.wait q), L' = transfer L t (.ready (k.threads t).priority)) := by
  rw [Kernel.fifoWakeUp, hS.threaded.forEachEntry_eq hin] at hwake
  cases hres : (L (.wait q)).foldl (k.fifoHigher availSize) none with
  | none =>
      obtain rfl : k = k' := by simpa [hres] using hwake
      exact ⟨L, hS.refl _, Or.inl ⟨rfl, Threaded.foldl_fifoHigher_eq_none hres⟩⟩
  | some t =>
      have ht : t ∈ L (.wait q) := (Threaded.mem_of_foldl_fifoHigher hres).resolve_left (by simp)
      have htr : t ≠ k.runningThread := fun h => hS.threaded.notMem_of_running hst _ (h ▸ ht)
      obtain rfl : k.makeReady t = k' := by simpa [hres, Kernel.finishWait, htr] using hwake
      refine ⟨_, hS.wakes (hS.threaded.makeReady ht) (Wakes.makeReady hS.threaded ht ?_),
        Or.inr ⟨t, ht, rfl⟩⟩
      exact ⟨q, Set.mem_singleton q, rfl⟩

theorem schedule (hS : Steady k L) (hsched : k.schedule = some k') :
    ∃ L', Kept ∅ k L k' L' ∧ ∀ t, RunnableIn k L t → RunnableIn k' L' t := by
  obtain ⟨L', hT, hD⟩ := hS.threaded.schedule hsched
  have hbitmap : k'.bitmapThreads = k.bitmapThreads := by rw [hD.rest]
  have hrunnable : ∀ t, RunnableIn k L t → RunnableIn k' L' t := by
    rintro t (⟨p, hp⟩ | ⟨rfl, hst⟩)
    · exact (hD.ready t p hp).elim (fun h => Or.inr ⟨h, hD.status⟩) Or.inl
    · have hticks := hS.awake _ (hS.threaded.running _ hst).2 (hS.threaded.notMem_of_running hst _)
      exact (hD.yields hst hticks).elim (fun h => Or.inr ⟨h, hD.status⟩) Or.inl
  refine ⟨L', ⟨⟨by simpa only [Alive, hbitmap] using hT, by rw [hD.rest]; exact hS.timeoutList,
    fun t ht hsleep => ?_⟩, fun t _ => hrunnable t, fun q _ => hD.others _ (by simp) (by simp),
    hbitmap, fun q t _ => by rw [hD.info t]⟩, hrunnable⟩
  rw [hD.info t]
  by_cases hmem : t ∈ L .sleep
  · by_contra hticks
    exact hsleep (hD.sleeps t hmem hticks)
  · exact hS.awake t (by simpa only [Alive, hbitmap] using ht) hmem

theorem systemTicks {expired : Tid → Bool} (hS : Steady k L)
    (hticks : k.systemTicksUpdate expired = some k') :
    Kept ∅ k L k' L ∧ ∀ t, RunnableIn k L t → RunnableIn k' L t := by
  obtain ⟨threads, hk, hinfo⟩ := hS.threaded.threadsTicksUpdate
  obtain rfl : { k with threads } = k' := by
    simpa [systemTicksUpdate, hk, syscallTimeoutUpdate, hS.timeoutList] using hticks
  have hstatus : ∀ t, (threads t).status = (k.threads t).status := fun t => by rw [(hinfo t).1]
  have hrunnable : ∀ t, RunnableIn k L t → RunnableIn { k with threads } L t := by
    rintro t (hp | ⟨rfl, hst⟩)
    · exact Or.inl hp
    · exact Or.inr ⟨rfl, (hstatus _).trans hst⟩
  refine ⟨⟨⟨?_, hS.timeoutList, fun t ht hsleep => ?_⟩, fun t _ => hrunnable t, fun _ _ => rfl,
    rfl, fun q t ht => ?_⟩, hrunnable⟩
  · exact hS.threaded.of_status rfl rfl rfl hstatus
  · change (threads t).sleepTicks = 0#32
    rw [(hinfo t).2 (Or.inl hsleep)]
    exact hS.awake t ht hsleep
  · change (threads t).fileRequestSize = (k.threads t).fileRequestSize
    have hsleep : t ∉ L .sleep := fun h => by cases hS.threaded.rings.unique h ht
    rw [(hinfo t).2 (Or.inl hsleep)]

theorem schedule_unqueued (hS : Steady k L) (hsched : k.schedule = some k') : k'.Unqueued := by
  obtain ⟨_, -, hD⟩ := hS.threaded.schedule hsched
  exact hD.status

theorem systemTicks_running {expired : Tid → Bool} (hS : Steady k L)
    (hticks : k.systemTicksUpdate expired = some k') : k'.runningThread = k.runningThread := by
  obtain ⟨threads, hk, -⟩ := hS.threaded.threadsTicksUpdate
  obtain rfl : { k with threads } = k' := by
    simpa [systemTicksUpdate, hk, syscallTimeoutUpdate, hS.timeoutList] using hticks
  rfl

end Steady

/-- A kernel in any state it can be in, where no thread is in a `poll` with a timeout. -/
structure Settled (k : Kernel) : Prop where
  consistent : ∃ es, Runs.AllOk EventOk Kernel.step schedStart es ∧
    Runs.exec Kernel.step schedStart es = some k
  timeoutList : k.timeoutList = []
  awake : ∀ t < threadMax, t ∈ k.members .sleep ∨ (k.threads t).sleepTicks = 0#32

theorem Settled.steady (h : Settled k) : ∃ L, k.Steady L := by
  obtain ⟨es, hok, hrun⟩ := h.consistent
  obtain ⟨L, hT, -⟩ := Runs.exec_invariant
    (fun _ _ _ hinv hok hstep => Consistent.step hinv hok hstep) schedStart_spec hok hrun
  refine ⟨L, hT, h.timeoutList, fun t ht hsleep => ?_⟩
  rw [← hT.members_eq Threaded.sleep_inUse] at hsleep
  exact (h.awake t (hT.lt_max t ht)).resolve_left hsleep

/-- What goes on beside the calls on an object that threads wait for. -/
inductive Background
  | delayTicks (ticks : BitVec 32)
  | schedYield
  | systemTicks (expired : Tid → Bool)
  /-- A pass of the scheduler, for a tick or at the return of a call. -/
  | schedule

/-- A background step; `free` tells that the running thread can make another call. -/
def background (k : Kernel) (free : Bool) : Background → Option Kernel
  | .delayTicks ticks => if k.Unqueued ∧ free = true then some (k.sysDelayTicks ticks).1 else none
  | .schedYield => if k.Unqueued ∧ free = true then some k.sysSchedYield.1 else none
  | .systemTicks expired => k.systemTicksUpdate expired
  | .schedule => k.schedule

theorem prepareToWait_awake (k : Kernel) (h : SchedList) (u : Tid) (state : ThreadStatus)
    (t : Tid) : ((k.prepareToWait h u state).threads t).sleepTicks = (k.threads t).sleepTicks := by
  by_cases htu : t = u
  · subst htu
    simp [Kernel.prepareToWait, setStatus, Kernel.setThread]
  · simp [Kernel.prepareToWait, setStatus, Kernel.setThread, htu]

theorem Steady.background {free : Bool} {b : Background} (hS : Steady k L)
    (hb : k.background free b = some k') : ∃ L', Kept ∅ k L k' L' := by
  cases b with
  | delayTicks ticks =>
      obtain ⟨⟨hst, -⟩, rfl⟩ : (k.Unqueued ∧ free = true) ∧ _ = k' := by
        simpa [Kernel.background] using hb
      exact ⟨_, hS.delayTicks hst ticks⟩
  | schedYield =>
      obtain ⟨⟨hst, -⟩, rfl⟩ : (k.Unqueued ∧ free = true) ∧ _ = k' := by
        simpa [Kernel.background] using hb
      exact ⟨_, hS.schedYield hst⟩
  | systemTicks expired => exact ⟨L, (hS.systemTicks hb).1⟩
  | schedule =>
      obtain ⟨L', hK, -⟩ := hS.schedule hb
      exact ⟨L', hK⟩

theorem Steady.background_awake {free : Bool} {b : Background} (hS : Steady k L)
    (hb : k.background free b = some k') (hfree : free = true → t ≠ k.runningThread)
    (hz : (k.threads t).sleepTicks = 0#32) : (k'.threads t).sleepTicks = 0#32 := by
  cases b with
  | delayTicks ticks =>
      obtain ⟨⟨-, hf⟩, rfl⟩ : (k.Unqueued ∧ free = true) ∧ _ = k' := by
        simpa [Kernel.background] using hb
      simpa [sysDelayTicks, Kernel.prepareToWait, setStatus, Kernel.setThread, hfree hf] using hz
  | schedYield =>
      obtain ⟨-, rfl⟩ : (k.Unqueued ∧ free = true) ∧ _ = k' := by
        simpa [Kernel.background] using hb
      exact (prepareToWait_awake ..).trans hz
  | systemTicks expired =>
      obtain ⟨threads, hk, hinfo⟩ := hS.threaded.threadsTicksUpdate
      have hticks : k.systemTicksUpdate expired = some k' := hb
      obtain rfl : { k with threads } = k' := by
        simpa [systemTicksUpdate, hk, syscallTimeoutUpdate, hS.timeoutList] using hticks
      change (threads t).sleepTicks = 0#32
      rw [(hinfo t).2 (Or.inr hz), hz]
  | schedule =>
      obtain ⟨L', -, hD⟩ := hS.threaded.schedule hb
      rw [hD.info, hz]

theorem queue_empty_of_elsewhere {k : Kernel} {q : WaitQueue} (lists : List SchedList)
    (hT : k.Threaded {t | k.Alive t} L) (hq : (SchedList.wait q).owner = none)
    (hlists : ∀ g ∈ lists, g ≠ .wait q ∧ g.owner = none)
    (helse : ∀ t < threadMax, k.Alive t →
      (t = k.runningThread ∧ k.Unqueued) ∨ ∃ g ∈ lists, t ∈ k.members g) :
    listEmpty k.links (.inl (.wait q)) = true := by
  have hring := hT.rings.ring (.wait q) (by simp [inUse, hq])
  refine (listEmpty_iff hring).mpr (List.map_eq_nil_iff.mpr ?_)
  refine List.eq_nil_iff_forall_not_mem.mpr fun t ht => ?_
  have halive := hT.alive ht
  obtain ⟨rfl, hst⟩ | ⟨g, hg, hmem⟩ := helse t (hT.lt_max t halive) halive
  · exact hT.notMem_of_running hst _ ht
  · rw [hT.members_eq (by simp [inUse, (hlists g hg).2])] at hmem
    exact (hlists g hg).1 (hT.rings.unique hmem ht)

/-- The start of the system, after which the first user task creates a thread. -/
def userRun : List KernelEvent :=
  Kernel.bootRun ++ [.syscallHandler, .call (.pthreadCreate none true), .syscallReturn]

/-- Threads 4 and 5 of one task, the latter running. -/
def userKernel : Kernel := (Runs.exec Kernel.step schedStart userRun).getD schedStart

theorem userRun_ok : Runs.AllOk EventOk Kernel.step schedStart userRun ∧
    Runs.exec Kernel.step schedStart userRun = some userKernel := by
  have hsome : (Runs.exec Kernel.step schedStart userRun).isSome = true := by decide +kernel
  refine ⟨by decide +kernel, (Option.some_get hsome).symm.trans ?_⟩
  rw [userKernel, Option.get_eq_getD]

theorem userKernel_settled : Settled userKernel :=
  ⟨⟨userRun, userRun_ok⟩, by decide +kernel, by decide +kernel⟩

/-- The lists that threads are on after the start of the system. -/
def bootLists : List SchedList :=
  [.ready 0, .sleep, .wait (.driver 0), .wait (.driver 1), .wait (.fifoRead 0)]

/-- Every thread but the running one is on one of these lists. -/
def AtBoot (k : Kernel) : Prop :=
  ∀ t < threadMax, k.Alive t → (t = k.runningThread ∧ k.Unqueued) ∨
    ∃ g ∈ bootLists, t ∈ k.members g

instance decidableAtBoot (k : Kernel) : Decidable k.AtBoot :=
  inferInstanceAs (Decidable (∀ t < threadMax, _ → _ ∨ ∃ g ∈ bootLists, _))

theorem AtBoot.queue {q : WaitQueue} (hboot : k.AtBoot) (hk : Settled k)
    (hq : (SchedList.wait q).owner = none) (hne : SchedList.wait q ∉ bootLists) :
    listEmpty k.links (.inl (.wait q)) = true := by
  obtain ⟨L, hS⟩ := hk.steady
  have hlists : ∀ g ∈ bootLists, g.owner = none := by simp [bootLists, SchedList.owner]
  exact queue_empty_of_elsewhere _ hS.threaded hq
    (fun g hg => ⟨fun h => hne (h ▸ hg), hlists g hg⟩) hboot

theorem userKernel_queue {q : WaitQueue} (hq : (SchedList.wait q).owner = none)
    (hne : SchedList.wait q ∉ bootLists) : listEmpty userKernel.links (.inl (.wait q)) = true :=
  AtBoot.queue (by decide +kernel) userKernel_settled hq hne

def crowdRun : List KernelEvent :=
  userRun ++ [.syscallHandler, .call (.pthreadCreate none true), .syscallReturn]

def crowdKernel : Kernel := (Runs.exec Kernel.step schedStart crowdRun).getD schedStart

theorem crowdRun_ok : Runs.AllOk EventOk Kernel.step schedStart crowdRun ∧
    Runs.exec Kernel.step schedStart crowdRun = some crowdKernel := by
  have hsome : (Runs.exec Kernel.step schedStart crowdRun).isSome = true := by decide +kernel
  refine ⟨by decide +kernel, (Option.some_get hsome).symm.trans ?_⟩
  rw [crowdKernel, Option.get_eq_getD]

theorem crowdKernel_settled : Settled crowdKernel :=
  ⟨⟨crowdRun, crowdRun_ok⟩, by decide +kernel, by decide +kernel⟩

theorem crowdKernel_queue {q : WaitQueue} (hq : (SchedList.wait q).owner = none)
    (hne : SchedList.wait q ∉ bootLists) : listEmpty crowdKernel.links (.inl (.wait q)) = true :=
  AtBoot.queue (by decide +kernel) crowdKernel_settled hq hne

end Kernel

end Tenok
