import Tenok.Kernel.MutexSteps

/-!
Mutexes over whole runs: mutual exclusion and the hand-over of a mutex are invariants on
top of what a step does to the lists of the kernel.
-/
namespace Tenok
open Ring Queues

namespace MutexSys
open Kernel
variable {s s' : MutexSys} {L L' : SchedList → List Tid} {k' : Kernel} {Q : Set WaitQueue}
  {m c : Nat} {t : Tid} {e : MutexEvent}

def ownQueues : Set WaitQueue := {q | (∃ m, q = .mutex m) ∨ ∃ c, q = .cond c}

theorem mutex_subset (m : Nat) : {.mutex m} ⊆ ownQueues :=
  Set.singleton_subset_iff.mpr (Or.inl ⟨m, rfl⟩)

theorem cond_subset (c : Nat) : {.cond c} ⊆ ownQueues :=
  Set.singleton_subset_iff.mpr (Or.inr ⟨c, rfl⟩)

/-- The thread has taken the mutex and not given it back. -/
def Holds (s : MutexSys) (m : Nat) (t : Tid) : Prop :=
  s.inside m t = true ∨ s.pc t = .lockReset m ∨ s.pc t = .lockReturn m

/-- Who has taken a mutex owns it, and whoever is in `pthread_cond_wait` is queued there. -/
structure Sound (s : MutexSys) (L : SchedList → List Tid) : Prop where
  steady : s.kernel.Steady L
  owns : ∀ m t, s.Holds m t → s.owner m = some t
  waits : ∀ c m t, s.pc t = .condReturn c m → t ∈ L (.wait (.cond c))

namespace Sound

theorem kernel (hs : Sound s L) (hK : Kept Q s.kernel L k' L')
    (hcond : ∀ c t, t ∈ L (.wait (.cond c)) → t ∈ L' (.wait (.cond c))) :
    Sound { s with kernel := k' } L' :=
  ⟨hK.steady, hs.owns, fun c m t h => hcond c t (hs.waits c m t h)⟩

theorem quiet (hs : Sound s L) (hK : Kept Q s.kernel L k' L') (hQ : ∀ c, .cond c ∉ Q) :
    Sound { s with kernel := k' } L' :=
  hs.kernel hK fun c t h => by rwa [hK.queues _ (hQ c)]

theorem setPc {pc : MutexPc} (hs : Sound s L)
    (howns : ∀ m, pc = .lockReset m ∨ pc = .lockReturn m → s.owner m = some s.running)
    (hwaits : ∀ c m, pc = .condReturn c m → s.running ∈ L (.wait (.cond c))) :
    Sound (s.setPc pc) L := by
  refine ⟨hs.steady, fun m t h => ?_, fun c m t h => ?_⟩
  · simp only [Holds, pc_setPc] at h
    split at h
    · next ht =>
        subst ht
        obtain h | h := h
        · exact hs.owns m _ (Or.inl h)
        · exact howns m h
    · exact hs.owns m t h
  · rw [pc_setPc] at h
    split at h
    · next ht =>
        subst ht
        exact hwaits c m h
    · exact hs.waits c m t h

theorem goTo {pc : MutexPc} (hs : Sound s L)
    (hpc : ∀ m, pc ≠ .lockReset m ∧ pc ≠ .lockReturn m ∧ ∀ c, pc ≠ .condReturn c m) :
    Sound (s.setPc pc) L :=
  hs.setPc (fun m h => (h.elim (hpc m).1 (hpc m).2.1).elim)
    fun c m h => ((hpc m).2.2 c h).elim

theorem take (hs : Sound s L) (hfree : s.owner m = none) :
    Sound (s.setOwner m s.running) L := by
  refine ⟨hs.steady, fun m' t h => ?_, hs.waits⟩
  have howner := hs.owns m' t h
  rw [owner_setOwner]
  split
  · next hm =>
      subst hm
      rw [hfree] at howner
      cases howner
  · exact howner

theorem leave (hs : Sound s L) (m : Nat) : Sound (s.setInside m false) L := by
  refine ⟨hs.steady, fun m' t h => hs.owns m' t ?_, hs.waits⟩
  simp only [Holds, inside_setInside] at h
  refine h.imp_left fun h => ?_
  split at h
  · cases h
  · exact h

theorem release (hs : Sound s L) (howner : s.owner m = some s.running)
    (hout : s.pc s.running = .outside) :
    Sound ((s.setInside m false).setOwner m none) L := by
  refine ⟨hs.steady, fun m' t h => ?_, hs.waits⟩
  have hleft := hs.leave m
  rw [owner_setOwner]
  split
  · next hm =>
      subst hm
      have ht : t = s.running := by
        have := hleft.owns m' t h
        rw [owner_setInside, howner] at this
        exact (Option.some.inj this).symm
      subst ht
      have hpc : ((s.setInside m' false).setOwner m' none).pc s.running = .outside := hout
      have hinside : ((s.setInside m' false).setOwner m' none).inside m' s.running = false :=
        (inside_setInside false m' s.running).trans (if_pos ⟨rfl, rfl⟩)
      simp [Holds, hpc, hinside] at h
  · exact hleft.owns m' t h

theorem enter (hs : Sound s L) (hpc : s.pc s.running = .lockReturn m) :
    Sound ((s.setInside m true).setPc .outside) L := by
  have howner := hs.owns m s.running (Or.inr (Or.inr hpc))
  have hinside : Sound (s.setInside m true) L := by
    refine ⟨hs.steady, fun m' t h => ?_, hs.waits⟩
    simp only [Holds, inside_setInside] at h
    split at h
    · next heq =>
        obtain ⟨rfl, rfl⟩ := heq
        exact howner
    · exact hs.owns m' t h
  exact hinside.goTo (by simp)

theorem takeTo {pc : MutexPc} (hs : Sound s L) (hfree : s.owner m = none)
    (hpc : pc = .lockReset m ∨ pc = .lockReturn m) :
    Sound ((s.setOwner m s.running).setPc pc) L := by
  refine (hs.take hfree).setPc (fun m' h => ?_) fun c m' h => ?_
  · obtain rfl : m = m' := by
      obtain rfl | rfl := hpc
      · simpa using h
      · simpa using h
    rw [owner_setOwner, if_pos rfl]
    rfl
  · obtain rfl | rfl := hpc
    · cases h
    · cases h

theorem condWake (hs : Sound s L) (hempty : s.kernel.members (.wait (.cond c)) = [])
    (hK : Kept {.cond c} s.kernel L k' L') : Sound { s with kernel := k' } L' := by
  refine hs.kernel hK fun c' t h => ?_
  by_cases hc : c' = c
  · subst hc
    rw [hs.steady.threaded.members_eq (by simp [inUse, SchedList.owner])] at hempty
    simp [hempty] at h
  · rwa [hK.queues _ (by simpa using hc)]

theorem clock (hs : Sound s L) (he : e = .schedule ∨ ∃ expired, e = .systemTicks expired)
    (hstep : s.step e = some s') :
    ∃ L', Sound s' L' ∧ Kept ownQueues s.kernel L s'.kernel L' ∧
      ∀ t, RunnableIn s.kernel L t → RunnableIn s'.kernel L' t := by
  obtain rfl | ⟨expired, rfl⟩ := he
  · obtain ⟨k₁, hk₁, rfl⟩ := Option.map_eq_some_iff.mp hstep
    obtain ⟨L', hK, hrun⟩ := hs.steady.schedule hk₁
    exact ⟨L', hs.quiet hK (by simp), hK.mono (Set.empty_subset _), hrun⟩
  · obtain ⟨k₁, hk₁, rfl⟩ := Option.map_eq_some_iff.mp hstep
    obtain ⟨hK, hrun⟩ := hs.steady.systemTicks hk₁
    exact ⟨L, hs.quiet hK (by simp), hK.mono (Set.empty_subset _), hrun⟩

theorem step (hs : Sound s L) (hok : s.CondOk e) (hstep : s.step e = some s') :
    ∃ L', Sound s' L' ∧ Kept ownQueues s.kernel L s'.kernel L' := by
  cases step_cases hstep with
  | queue m hpc hst howned =>
      have hK := hs.steady.waitOn (q := .mutex m) hst rfl
      exact ⟨_, (hs.quiet hK (by simp)).goTo (by simp), hK.mono (mutex_subset m)⟩
  | take m hpc hst hfree => exact ⟨L, hs.takeTo hfree (Or.inl rfl), hs.steady.refl _⟩
  | inherit m k hpc hin hk =>
      obtain ⟨L', hK, -⟩ := hs.steady.inheritPriority hk
      exact ⟨L', (hs.quiet hK (by simp)).goTo (by simp), hK.mono (Set.empty_subset _)⟩
  | park m k hpc hin hk =>
      obtain ⟨L', hK, -⟩ := hs.steady.schedule hk
      have hmoved : Sound (s.setPc (.lockRetry m)) L := hs.goTo (by simp)
      exact ⟨L', hmoved.quiet hK (by simp), hK.mono (Set.empty_subset _)⟩
  | reset m hpc hst =>
      have hK := hs.steady.resetInheritedPriority.1
      refine ⟨L, (hs.quiet hK (by simp)).setPc (fun m' h => ?_) (by simp),
        hK.mono (Set.empty_subset _)⟩
      obtain rfl : m = m' := by simpa using h
      exact hs.owns m _ (Or.inr (Or.inl hpc))
  | enter m hpc hst =>
      obtain hpc | ⟨c, hpc⟩ := hpc
      · exact ⟨L, hs.enter hpc, hs.steady.refl _⟩
      · -- a thread that waits for a condition is on a list and does not execute
        exact absurd (hs.waits c m _ hpc) (hs.steady.threaded.notMem_of_running hst _)
  | lock m hst hout => exact ⟨L, hs.goTo (by simp), hs.steady.refl _⟩
  | busy m hst hout howned =>
      have hK := hs.steady.waitOn (q := .mutex m) hst rfl
      exact ⟨_, hs.quiet hK (by simp), hK.mono (mutex_subset m)⟩
  | got m hst hout hfree => exact ⟨L, hs.takeTo hfree (Or.inr rfl), hs.steady.refl _⟩
  | refused m hst hout hother => exact ⟨L, hs.leave m, hs.steady.refl _⟩
  | unlock m k hst hout howner hk =>
      obtain ⟨L', hK, -⟩ := hs.steady.wakeUp rfl hk
      exact ⟨L', (hs.release howner hout).quiet hK (by simp), hK.mono (mutex_subset m)⟩
  | condWait c m hst hout howned =>
      have hK := hs.steady.waitOn (q := .cond c) hst rfl
      have hqueued := (hs.release hok hout).kernel hK fun _ _ h => mem_enqueue.mpr (Or.inl h)
      refine ⟨_, hqueued.setPc (by simp) fun c' m' h => ?_, hK.mono (cond_subset c)⟩
      obtain ⟨rfl, rfl⟩ : c = c' ∧ m = m' := by simpa using h
      exact mem_enqueue.mpr (Or.inr ⟨rfl, rfl⟩)
  | condPass c m hst hout hfree => cases hfree.symm.trans hok
  | condSignal c k hst hout hk =>
      obtain ⟨L', hK, -⟩ := hs.steady.wakeUp rfl hk
      exact ⟨L', hs.condWake hok hK, hK.mono (cond_subset c)⟩
  | condBroadcast c k hst hout hk =>
      obtain ⟨L', hK, -⟩ := hs.steady.wakeUpAll rfl hk
      exact ⟨L', hs.condWake hok hK, hK.mono (cond_subset c)⟩
  | delayTicks ticks hst hout =>
      have hK := hs.steady.delayTicks hst ticks
      exact ⟨_, hs.quiet hK (by simp), hK.mono (Set.empty_subset _)⟩
  | schedYield hst hout =>
      have hK := hs.steady.schedYield hst
      exact ⟨_, hs.quiet hK (by simp), hK.mono (Set.empty_subset _)⟩
  | systemTicks expired k hk =>
      obtain ⟨L', hs', hK, -⟩ := hs.clock (Or.inr ⟨expired, rfl⟩) hstep
      exact ⟨L', hs', hK⟩
  | schedule k hk =>
      obtain ⟨L', hs', hK, -⟩ := hs.clock (Or.inl rfl) hstep
      exact ⟨L', hs', hK⟩

theorem exclusive (hs : Sound s L) : s.Exclusive := by
  refine ⟨fun m t u ht hu => ?_, fun m t ht => hs.owns m t (Or.inl ht)⟩
  have htu := (hs.owns m t (Or.inl ht)).symm.trans (hs.owns m u (Or.inl hu))
  exact Option.some.inj htu

end Sound

theorem inside_step (hstep : s.step e = some s') (hin : s.inside m t = true)
    (hstay : t = s.running → e ≠ .unlock m ∧ ∀ c, e ≠ .condWait c m) : s'.inside m t = true := by
  have hleave : ∀ m', (m = m' → t ≠ s.running) → (s.setInside m' false).inside m t = true := by
    intro m' hne
    rw [inside_setInside, if_neg fun h => hne h.1 h.2]
    exact hin
  cases step_cases hstep with
  | queue | take | inherit | park | reset | lock | busy | got | condSignal | condBroadcast
  | delayTicks | schedYield | systemTicks | schedule => exact hin
  | enter m' hpc hst =>
      rw [setPc, inside_setInside, hin, ite_self]
  | refused m' hst hout hother =>
      exact hleave m' fun hm ht => (hstay ht).1 (congrArg MutexEvent.unlock hm.symm)
  | unlock m' k hst hout howner hk =>
      exact hleave m' fun hm ht => (hstay ht).1 (congrArg MutexEvent.unlock hm.symm)
  | condWait c m' hst hout howned =>
      exact hleave m' fun hm ht => (hstay ht).2 c (congrArg (MutexEvent.condWait c) hm.symm)
  | condPass c m' hst hout hfree =>
      exact hleave m' fun hm ht => (hstay ht).2 c (congrArg (MutexEvent.condWait c) hm.symm)

theorem inside_of_lockReturn (hpc : s.pc s.running = .lockReturn m)
    (hstep : s.step .advance = some s') : s'.inside m s.running = true := by
  simp only [step, MutexSys.advance, hpc, Option.ite_none_right_eq_some, Option.some.injEq] at hstep
  obtain ⟨-, rfl⟩ := hstep
  rw [setPc, inside_setInside, if_pos ⟨rfl, rfl⟩]

theorem ownerKept_take (hfree : s.owner m = none) (pc : MutexPc) :
    OwnerKept s ((s.setOwner m s.running).setPc pc) := by
  intro m' u howner _
  rw [owner_setPc, owner_setOwner]
  split
  · next hm =>
      subst hm
      rw [hfree] at howner
      cases howner
  · exact howner

theorem ownerKept_release (howner : s.owner m = some s.running) :
    OwnerKept s ((s.setInside m false).setOwner m none) := by
  intro m' u hu hne
  rw [owner_setOwner]
  split
  · next hm =>
      subst hm
      exact absurd (Option.some.inj (hu.symm.trans howner)) hne
  · exact hu

theorem ownerKept_of_condOk (hok : s.CondOk e) (hstep : s.step e = some s') :
    OwnerKept s s' := by
  cases step_cases hstep with
  | take m hpc hst hfree => exact ownerKept_take hfree _
  | got m hst hout hfree => exact ownerKept_take hfree _
  | unlock m k hst hout howner hk => exact ownerKept_release howner
  | condWait c m hst hout howned => exact ownerKept_release hok
  | queue | inherit | park | reset | enter | lock | busy | refused | condPass | condSignal
  | condBroadcast | delayTicks | schedYield | systemTicks | schedule => exact fun _ _ h _ => h

namespace Started

theorem steady (h : Started s) : ∃ L, s.kernel.Steady L :=
  Settled.steady ⟨h.consistent, h.timeoutList, h.awake⟩

theorem sound (h : Started s) : ∃ L, Sound s L := by
  obtain ⟨L, hS⟩ := h.steady
  refine ⟨L, hS, fun m t ht => ?_, fun c m t ht => ?_⟩
  · simp [Holds, (h.outside t).1, (h.outside t).2] at ht
  · rw [(h.outside t).1] at ht
    cases ht

theorem queue_empty {L : SchedList → List Tid} (hT : s.kernel.Threaded {t | s.kernel.Alive t} L)
    {q : WaitQueue} (hq : (SchedList.wait q).owner = none)
    (hempty : listEmpty s.kernel.links (.inl (.wait q)) = true) : L (.wait q) = [] := by
  have hring := hT.rings.ring (.wait q) (by simp [inUse, hq])
  exact List.map_eq_nil_iff.mp ((listEmpty_iff hring).mp hempty)

end Started

/-- Threads 4 and 5 of one task, the latter running, and mutexes with priority inheritance. -/
def userSystem : MutexSys where
  kernel := (Runs.exec Kernel.step Kernel.schedStart userRun).getD Kernel.schedStart
  mutexes _ := { protocol := .prioInherit }
  pc _ := .outside
  inside _ _ := false

theorem userSystem_started : userSystem.Started := by
  have hkernel : userSystem.kernel = userKernel := by rw [userSystem, userKernel]
  have hsettled : userSystem.kernel.Settled := hkernel ▸ userKernel_settled
  have hqueue : ∀ q, (SchedList.wait q).owner = none → SchedList.wait q ∉ bootLists →
      listEmpty userSystem.kernel.links (.inl (.wait q)) = true := by
    rw [hkernel]
    exact fun q => userKernel_queue
  exact ⟨hsettled.consistent, hsettled.timeoutList, hsettled.awake,
    fun m => ⟨rfl, hqueue (.mutex m) rfl (by simp [bootLists])⟩,
    fun c => hqueue (.cond c) rfl (by simp [bootLists]),
    fun _ => ⟨rfl, fun _ => rfl⟩⟩

/-- In every run whose steps meet the condition, at most one thread is in a critical
section of a mutex, it is the owner, and no step of another thread changes that. -/
theorem exclusive_of_condOk {s₀ s : MutexSys} {es : List MutexEvent} (hstart : Started s₀)
    (hok : Runs.AllOk CondOk step s₀ es) (hrun : Runs.exec step s₀ es = some s) :
    s.Exclusive ∧ ∀ e s', s.CondOk e → s.step e = some s' → OwnerKept s s' := by
  have hkeep : ∀ s e s', (∃ L, Sound s L) → s.CondOk e → s.step e = some s' → ∃ L, Sound s' L :=
    fun _ _ _ ⟨_, hs⟩ hok hstep => (hs.step hok hstep).imp fun _ h => h.1
  obtain ⟨L, hs⟩ := Runs.exec_invariant hkeep hstart.sound hok hrun
  exact ⟨hs.exclusive, fun e s' => ownerKept_of_condOk⟩

/-- Thread 5 locks mutex 0, thread 4 waits for it and gets it after the unlock. -/
def handoverRun : List MutexEvent :=
  [.lock 0, .advance, .advance, .advance, .schedule,
    .lock 0, .advance, .advance, .advance,
    .unlock 0, .schedule, .advance, .advance, .advance]

theorem exclusive_of_condOk_at_handover :
    ∃ s, Runs.exec step userSystem handoverRun = some s ∧ s.inside 0 4 = true ∧ s.Exclusive := by
  have hrun : (Runs.exec step userSystem handoverRun).map (fun s => s.inside 0 4) = some true := by
    decide +kernel
  obtain ⟨s, hs, hinside⟩ := Option.map_eq_some_iff.mp hrun
  exact ⟨s, hs, hinside, (exclusive_of_condOk userSystem_started (by decide +kernel) hs).1⟩

/-- Thread 5 waits for a condition inside its critical section; thread 4 enters one,
signals the condition and is preempted inside it. -/
def condRun : List MutexEvent :=
  [.lock 0, .advance, .advance, .advance, .condWait 0 0, .schedule,
    .lock 0, .advance, .advance, .advance, .condSignal 0, .schedule, .advance]

/-- `pthread_cond_wait` returns 0 to a thread that does not own the mutex, while the
owner is inside. -/
theorem exclusive_not_for_condWait : userSystem.Started ∧
    ∃ s, Runs.exec step userSystem condRun = some s ∧ s.owner 0 = some 4 ∧ ¬ s.Exclusive := by
  have hrun : (Runs.exec step userSystem condRun).map (fun s =>
      (s.owner 0, s.inside 0 4, s.inside 0 5)) = some (some 4, true, true) := by decide +kernel
  obtain ⟨s, hs, hfacts⟩ := Option.map_eq_some_iff.mp hrun
  obtain ⟨howner, h₄, h₅⟩ : s.owner 0 = some 4 ∧ s.inside 0 4 = true ∧ s.inside 0 5 = true := by
    simpa using hfacts
  refine ⟨userSystem_started, s, hs, howner, fun hex => ?_⟩
  have hsame := hex.atMostOne 0 4 5 h₄ h₅
  cases hsame

/-- A free mutex that threads wait for has a thread on its way to take it. -/
def Waited (s : MutexSys) (L : SchedList → List Tid) (m : Nat) : Prop :=
  s.owner m = none → L (.wait (.mutex m)) ≠ [] →
    ∃ t, s.Retries m t ∧ RunnableIn s.kernel L t

structure Handed (s : MutexSys) (L : SchedList → List Tid) : Prop where
  steady : s.kernel.Steady L
  waited : ∀ m, s.Waited L m

theorem runnable_iff (hS : s.kernel.Steady L) (t : Tid) :
    s.Runnable t ↔ RunnableIn s.kernel L t := by
  have hmem : ∀ p, s.kernel.members (.ready p) = L (.ready p) := fun p =>
    hS.threaded.members_eq (Threaded.ready_inUse p)
  simp only [Runnable, RunnableIn, hmem]
  rfl

theorem mutex_members (hS : s.kernel.Steady L) (m : Nat) :
    s.kernel.members (.wait (.mutex m)) = L (.wait (.mutex m)) :=
  hS.threaded.members_eq (by simp [inUse, SchedList.owner])

theorem retries_setOwner {o : Option Tid} {m' : Nat} :
    (s.setOwner m o).Retries m' t ↔ s.Retries m' t := by
  rw [Retries, protocol_setOwner]
  rfl

theorem eq_of_retries {m' : Nat} (hpc : s.pc t = .lockEnter m ∨ s.pc t = .lockRetry m)
    (hr : s.Retries m' t) : m' = m := by
  obtain hpc | hpc := hpc
  · simp [Retries, hpc] at hr
  · simpa [Retries, hpc, eq_comm] using hr

theorem not_retries_of_outside (hout : s.pc t = .outside) : ¬ s.Retries m t := by
  simp [Retries, hout]

/-- A step that frees no mutex. The running thread may be the one on its way; then the
step has to say what becomes of it. -/
theorem Waited.keep (hW : s.Waited L m) (hK : Kept Q s.kernel L s'.kernel L')
    (howner : s'.owner m = none → s.owner m = none)
    (hqueue : s'.owner m = none → L' (.wait (.mutex m)) ≠ [] → L (.wait (.mutex m)) ≠ [])
    (hpc : ∀ t, t ≠ s.running → s'.pc t = s.pc t)
    (hprotocol : (s'.mutexes m).protocol = (s.mutexes m).protocol)
    (hself : s'.owner m = none → s.Retries m s.running → RunnableIn s.kernel L s.running →
      s'.Retries m s.running ∧ RunnableIn s'.kernel L' s.running) : s'.Waited L' m := by
  intro hfree hne
  obtain ⟨t, hretries, hrun⟩ := hW (howner hfree) (hqueue hfree hne)
  by_cases ht : t = s.running
  · subst ht
    exact ⟨_, hself hfree hretries hrun⟩
  · refine ⟨t, ?_, hK.runnable t ht hrun⟩
    rwa [Retries, hpc t ht, hprotocol]

namespace Handed

theorem quiet (hs : Handed s L) (hK : Kept Q s.kernel L k' L') (hQ : ∀ m, .mutex m ∉ Q)
    (hself : ∀ m, s.Retries m s.running → RunnableIn s.kernel L s.running →
      RunnableIn k' L' s.running) : Handed { s with kernel := k' } L' := by
  refine ⟨hK.steady, fun m => (hs.waited m).keep hK id (fun _ h => ?_) (fun _ _ => rfl) rfl
    fun _ hr hrun => ⟨hr, hself m hr hrun⟩⟩
  rwa [← hK.queues _ (hQ m)]

theorem setPc {pc : MutexPc} (hs : Handed s L)
    (hself : ∀ m, s.owner m = none → s.Retries m s.running → (s.setPc pc).Retries m s.running) :
    Handed (s.setPc pc) L := by
  refine ⟨hs.steady, fun m => (hs.waited m).keep (hs.steady.refl ∅) id (fun _ h => h)
    (fun t ht => ?_) rfl fun hfree hr hrun => ⟨hself m hfree hr, hrun⟩⟩
  rw [pc_setPc, if_neg ht]

theorem setInside (hs : Handed s L) (m : Nat) (b : Bool) : Handed (s.setInside m b) L :=
  ⟨hs.steady, hs.waited⟩

/-- The thread queues itself behind the owner; it was on its way to this mutex at most. -/
theorem queueBehind (hs : Handed s L) (hst : s.Executing) (howned : s.owner m ≠ none)
    (hself : ∀ m', s.Retries m' s.running → m' = m) :
    Handed (s.waitOn (.mutex m)) (enqueue L s.running (.wait (.mutex m))) := by
  have hK := hs.steady.waitOn (q := .mutex m) hst rfl
  refine ⟨hK.steady, fun m' => (hs.waited m').keep hK id (fun hfree h => ?_)
    (fun _ _ => rfl) rfl fun hfree hr _ => ?_⟩
  · have hm : m' ≠ m := fun hm => howned (hm ▸ hfree)
    rwa [← hK.queues _ (by simpa using hm)]
  · exact absurd (hself m' hr ▸ hfree) howned

theorem take (hs : Handed s L) (hself : ∀ m', s.Retries m' s.running → m' = m) (pc : MutexPc) :
    Handed ((s.setOwner m s.running).setPc pc) L := by
  have hnone : ∀ m', (s.setOwner m s.running).owner m' = none → ¬ s.Retries m' s.running := by
    intro m' hfree hr
    rw [owner_setOwner, if_pos (hself m' hr)] at hfree
    cases hfree
  have htaken : Handed (s.setOwner m s.running) L := by
    refine ⟨hs.steady, fun m' => (hs.waited m').keep (hs.steady.refl ∅) (fun hfree => ?_)
      (fun _ h => h) (fun _ _ => rfl) (protocol_setOwner _ _)
      fun hfree hr _ => absurd hr (hnone m' hfree)⟩
    rw [owner_setOwner] at hfree
    split at hfree
    · cases hfree
    · exact hfree
  exact htaken.setPc fun m' hfree hr => absurd (retries_setOwner.mp hr) (hnone m' hfree)

theorem release (hs : Handed s L) (hout : s.pc s.running = .outside)
    (hK : Kept Q s.kernel L k' L') (hQ : ∀ m', m' ≠ m → .mutex m' ∉ Q)
    (hlast : L' (.wait (.mutex m)) ≠ [] → ∃ t, s.Retries m t ∧ RunnableIn k' L' t) :
    Handed { s.setOwner m none with kernel := k' } L' := by
  refine ⟨hK.steady, fun m' => ?_⟩
  by_cases hm : m' = m
  · subst hm
    intro _ hne
    obtain ⟨t, hr, hrun⟩ := hlast hne
    exact ⟨t, (retries_setOwner (s := s)).mpr hr, hrun⟩
  · refine (hs.waited m').keep hK (fun hfree => ?_) (fun _ h => ?_) (fun _ _ => rfl) ?_
      fun _ hr => absurd hr (not_retries_of_outside hout)
    · change (s.setOwner m none).owner m' = none at hfree
      rwa [owner_setOwner, if_neg hm] at hfree
    · rwa [← hK.queues _ (hQ m' hm)]
    · simp [setOwner, hm]

/-- A thread that is on its way already stays so while the running one frees the mutex. -/
theorem pending (hs : Handed s L) (hout : s.pc s.running = .outside)
    (hK : Kept Q s.kernel L k' L') (hpending : s.Pending m) :
    ∃ t, s.Retries m t ∧ RunnableIn k' L' t := by
  obtain ⟨t, -, hr, hrun⟩ := hpending
  have ht : t ≠ s.running := fun ht => not_retries_of_outside (ht ▸ hout) hr
  exact ⟨t, hr, hK.runnable t ht ((runnable_iff hs.steady t).mp hrun)⟩

/-- `mutex_unlock` hands the mutex over to a thread that tries again, or leaves nobody. -/
theorem unlock (hs : Handed s L) (hout : s.pc s.running = .outside)
    (hok : s.HandoffOk (.unlock m)) (howner : s.owner m = some s.running)
    (hwake : s.kernel.wakeUp (.wait (.mutex m)) = some k') :
    ∃ L', Handed { (s.setInside m false).setOwner m none with kernel := k' } L' := by
  obtain ⟨L', hK, hcases⟩ := hs.steady.wakeUp rfl hwake
  have hother : ∀ m', m' ≠ m → WaitQueue.mutex m' ∉ ({.mutex m} : Set WaitQueue) := by simp
  refine ⟨L', (hs.setInside m false).release (s := s.setInside m false) hout hK hother
    fun hne => ?_⟩
  obtain ⟨hempty, rfl, -⟩ | ⟨first, l, hl, rfl, rfl⟩ := hcases
  · exact absurd hempty hne
  · have hmembers := mutex_members hs.steady m
    obtain hlen | hpending | hretries := hok howner
    · -- the only waiter is the one that is woken
      obtain rfl : l = [] := by
        rw [hmembers, hl] at hlen
        simpa using hlen
      have hsplit : L (.wait (.mutex m)) = [] ++ first :: [] := hl
      exact absurd (hs.steady.threaded.transfer_suffix hsplit (by simp)) hne
    · exact hs.pending hout hK hpending
    · refine ⟨_, hretries (l.foldl s.kernel.higher first) ?_, Or.inl ⟨?_, ?_⟩⟩
      · simp [wakeTarget, hmembers, hl]
      · exact (s.kernel.threads (l.foldl s.kernel.higher first)).priority
      · exact hs.steady.threaded.rings.mem_transfer.mpr (Or.inr ⟨rfl, rfl⟩)

/-- Nobody is left on the list of a mutex that is given up for a condition, or somebody tries. -/
theorem condWait (hs : Handed s L) (hst : s.Executing) (hout : s.pc s.running = .outside)
    (hok : s.HandoffOk (.condWait c m)) (howned : s.owner m ≠ none) :
    ∃ L', Handed (((s.setInside m false).setOwner m none).waitOn (.cond c)) L' := by
  have hK := hs.steady.waitOn (q := .cond c) hst rfl
  refine ⟨_, (hs.setInside m false).release (s := s.setInside m false) (m := m) hout hK (by simp)
    fun hne => ?_⟩
  obtain hempty | hpending := hok howned
  · rw [hK.queues _ (by simp), ← mutex_members hs.steady] at hne
    exact absurd hempty hne
  · exact hs.pending hout hK hpending

theorem step (hs : Handed s L) (hok : s.HandoffOk e) (hstep : s.step e = some s') :
    ∃ L', Handed s' L' := by
  cases step_cases hstep with
  | queue m hpc hst howned =>
      have hqueued := hs.queueBehind hst howned fun _ => eq_of_retries hpc
      exact ⟨_, hqueued.setPc fun m' hfree hr => absurd (eq_of_retries hpc hr ▸ hfree) howned⟩
  | take m hpc hst hfree => exact ⟨L, hs.take (fun _ => eq_of_retries hpc) _⟩
  | inherit m k hpc hin hk =>
      obtain ⟨L', hK, hrun, hsame⟩ := hs.steady.inheritPriority hk
      have hkept : Handed { s with kernel := k } L' :=
        hs.quiet hK (by simp) fun _ _ => hrun s.running
      have hpc' : s.pc { s with kernel := k }.running = .lockInherit m := by
        change s.pc k.runningThread = _
        rw [hsame]
        exact hpc
      refine ⟨L', hkept.setPc fun m' _ hr => ?_⟩
      obtain rfl : m' = m := by
        simp only [Retries, hpc', MutexPc.lockInherit.injEq, reduceCtorEq, false_or] at hr
        exact hr.1.symm
      exact Or.inl (by simp [pc_setPc])
  | park m k hpc hin hk =>
      obtain ⟨L', hK, hrun⟩ := hs.steady.schedule hk
      have hmoved : Handed (s.setPc (.lockRetry m)) L := by
        refine hs.setPc fun m' _ hr => ?_
        obtain rfl : m' = m := by simpa [Retries, hpc, eq_comm] using hr
        exact Or.inr (Or.inl (by simp [pc_setPc]))
      exact ⟨L', hmoved.quiet hK (by simp) fun _ _ => hrun s.running⟩
  | reset m hpc hst =>
      obtain ⟨hK, hrun⟩ := hs.steady.resetInheritedPriority
      have hkept : Handed { s with kernel := s.kernel.threadResetInheritedPriority } L :=
        hs.quiet hK (by simp) fun _ _ => hrun s.running
      refine ⟨L, hkept.setPc fun m' _ hr => ?_⟩
      have hpc' : s.pc { s with kernel := s.kernel.threadResetInheritedPriority }.running =
        .lockReset m := hpc
      simp [Retries, hpc'] at hr
  | enter m hpc hst =>
      refine ⟨L, (hs.setInside m true).setPc fun m' _ hr => ?_⟩
      obtain hpc | ⟨c, hpc⟩ := hpc
      · have hpc' : (s.setInside m true).pc (s.setInside m true).running = .lockReturn m := hpc
        simp [Retries, hpc'] at hr
      · have hpc' : (s.setInside m true).pc (s.setInside m true).running = .condReturn c m := hpc
        simp [Retries, hpc'] at hr
  | lock m hst hout => exact ⟨L, hs.setPc fun _ _ hr => absurd hr (not_retries_of_outside hout)⟩
  | busy m hst hout howned =>
      exact ⟨_, hs.queueBehind hst howned fun _ hr => absurd hr (not_retries_of_outside hout)⟩
  | got m hst hout hfree => exact ⟨L, hs.take (fun _ hr => absurd hr (not_retries_of_outside hout)) _⟩
  | refused m hst hout hother => exact ⟨L, hs.setInside m false⟩
  | unlock m k hst hout howner hk => exact hs.unlock hout hok howner hk
  | condWait c m hst hout howned =>
      obtain ⟨L', hwaits⟩ := hs.condWait hst hout hok howned
      exact ⟨L', hwaits.setPc fun _ _ hr => absurd hr (not_retries_of_outside hout)⟩
  | condPass c m hst hout hfree =>
      exact ⟨L, (hs.setInside m false).setPc fun _ _ hr => absurd hr (not_retries_of_outside hout)⟩
  | condSignal c k hst hout hk =>
      obtain ⟨L', hK, -⟩ := hs.steady.wakeUp rfl hk
      exact ⟨L', hs.quiet hK (by simp) fun _ hr => absurd hr (not_retries_of_outside hout)⟩
  | condBroadcast c k hst hout hk =>
      obtain ⟨L', hK, -⟩ := hs.steady.wakeUpAll rfl hk
      exact ⟨L', hs.quiet hK (by simp) fun _ hr => absurd hr (not_retries_of_outside hout)⟩
  | delayTicks ticks hst hout =>
      have hK := hs.steady.delayTicks hst ticks
      exact ⟨_, hs.quiet hK (by simp) fun _ hr => absurd hr (not_retries_of_outside hout)⟩
  | schedYield hst hout =>
      have hK := hs.steady.schedYield hst
      exact ⟨_, hs.quiet hK (by simp) fun _ hr => absurd hr (not_retries_of_outside hout)⟩
  | systemTicks expired k hk =>
      obtain ⟨hK, hrun⟩ := hs.steady.systemTicks hk
      exact ⟨L, hs.quiet hK (by simp) fun _ _ => hrun s.running⟩
  | schedule k hk =>
      obtain ⟨L', hK, hrun⟩ := hs.steady.schedule hk
      exact ⟨L', hs.quiet hK (by simp) fun _ _ => hrun s.running⟩

theorem noLostWakeup (hs : Handed s L) : s.NoLostWakeup := by
  intro m hfree hne
  rw [mutex_members hs.steady] at hne
  obtain ⟨t, hr, hrun⟩ := hs.waited m hfree hne
  have halive : s.kernel.Alive t := by
    obtain ⟨p, hp⟩ | ⟨rfl, hst⟩ := hrun
    · exact hs.steady.threaded.alive hp
    · exact (hs.steady.threaded.running _ hst).2
  exact ⟨t, hs.steady.threaded.lt_max t halive, hr, (runnable_iff hs.steady t).mpr hrun⟩

end Handed

theorem Started.handed (h : Started s) : ∃ L, Handed s L := by
  obtain ⟨L, hS⟩ := h.steady
  refine ⟨L, hS, fun m _ hne => ?_⟩
  exact absurd (Started.queue_empty hS.threaded rfl (h.mutexes m).2) hne

/-- In every run whose steps meet the condition, a free mutex with waiters has a thread
that was taken off its list and tries again. -/
theorem noLostWakeup_of_handoffOk {s₀ s : MutexSys} {es : List MutexEvent} (hstart : Started s₀)
    (hok : Runs.AllOk HandoffOk step s₀ es) (hrun : Runs.exec step s₀ es = some s) :
    s.NoLostWakeup := by
  have hkeep : ∀ s e s', (∃ L, Handed s L) → s.HandoffOk e → s.step e = some s' →
      ∃ L, Handed s' L := fun _ _ _ ⟨_, hs⟩ hok hstep => hs.step hok hstep
  obtain ⟨L, hs⟩ := Runs.exec_invariant hkeep hstart.handed hok hrun
  exact hs.noLostWakeup

theorem noLostWakeup_of_handoffOk_at_handover :
    ∃ s, Runs.exec step userSystem handoverRun = some s ∧ s.NoLostWakeup := by
  have hrun : (Runs.exec step userSystem handoverRun).isSome = true := by decide +kernel
  obtain ⟨s, hs⟩ := Option.isSome_iff_exists.mp hrun
  exact ⟨s, hs, noLostWakeup_of_handoffOk userSystem_started (by decide +kernel) hs⟩

/-- Thread 5 locks mutex 0, thread 4 waits for it, and thread 5 waits for a condition. -/
def lostRun : List MutexEvent :=
  [.lock 0, .advance, .advance, .advance, .schedule,
    .lock 0, .advance, .advance, .advance, .condWait 0 0]

/-- `pthread_cond_wait` frees the mutex without a wake-up: thread 4 stays on its list. -/
theorem noLostWakeup_not_for_condWait : userSystem.Started ∧
    ∃ s, Runs.exec step userSystem lostRun = some s ∧ ¬ s.NoLostWakeup := by
  have hrun : (Runs.exec step userSystem lostRun).map (fun s =>
      (s.owner 0, s.kernel.members (.wait (.mutex 0)), decide (s.Pending 0))) =
      some (none, [4], false) := by decide +kernel
  obtain ⟨s, hs, hfacts⟩ := Option.map_eq_some_iff.mp hrun
  obtain ⟨howner, hmembers, hnobody⟩ : s.owner 0 = none ∧
      s.kernel.members (.wait (.mutex 0)) = [4] ∧ ¬ s.Pending 0 := by simpa using hfacts
  exact ⟨userSystem_started, s, hs, fun hno => hnobody (hno 0 howner (by simp [hmembers]))⟩

end MutexSys

end Tenok
