import Tenok.Kernel.MutexRuns

/-!
The owner that `thread_inherit_priority` reads. `mutex_trylock` queues the thread behind
the owner and enables preemption; the owner can then give the mutex back before the
thread comes to read it. Until then the thread is on the list of the mutex, unless it is
the one that the owner wakes.
-/
namespace Tenok
open Ring Queues

namespace MutexSys
open Kernel

/-- The thread reads the owner next. -/
def Inherits (s : MutexSys) (m : Nat) (t : Tid) : Prop :=
  s.pc t = .lockInherit m ∧ (s.mutexes m).protocol = .prioInherit

instance (s : MutexSys) (m : Nat) (t : Tid) : Decidable (s.Inherits m t) :=
  inferInstanceAs (Decidable (_ ∧ _))

def OwnerPresent (s : MutexSys) : Prop := ∀ m, s.Inherits m s.running → s.owner m ≠ none

/-- The owner does not wake a thread that has not read it yet. -/
def AwaitRead (s : MutexSys) : MutexEvent → Prop
  | .unlock m => s.owner m = some s.running → ∀ t ∈ s.wakeTarget m, ¬ s.Inherits m t
  | _ => True

instance decidableAwaitRead (s : MutexSys) : (e : MutexEvent) → Decidable (s.AwaitRead e)
  | .unlock _ => inferInstanceAs (Decidable (_ → ∀ t ∈ _, ¬ _))
  | .lock _ | .trylock _ | .condWait _ _ | .condSignal _ | .condBroadcast _ | .advance
  | .delayTicks _ | .schedYield | .systemTicks _ | .schedule => inferInstanceAs (Decidable True)

/-- Who is to read the owner of a mutex is on its list, and finds an owner when it runs. -/
structure Attended (s : MutexSys) (L : SchedList → List Tid) : Prop where
  steady : s.kernel.Steady L
  queued : ∀ m t, s.Inherits m t → t ∈ L (.wait (.mutex m))
  present : s.OwnerPresent

variable {s s' : MutexSys} {L L' : SchedList → List Tid} {k' : Kernel} {Q : Set WaitQueue}
  {m : Nat} {t : Tid} {e : MutexEvent} {pc : MutexPc}

theorem inherits_setPc (hpc : ∀ m, pc ≠ .lockInherit m) :
    (s.setPc pc).Inherits m t ↔ t ≠ s.running ∧ s.Inherits m t := by
  rw [Inherits, pc_setPc]
  split
  · next ht => exact iff_of_false (fun h => hpc m h.1) fun h => h.1 ht
  · next ht => exact (and_iff_right ht).symm

theorem inherits_of_setPc_lockInherit {m' : Nat} (h : (s.setPc (.lockInherit m)).Inherits m' t) :
    (t = s.running ∧ m' = m) ∨ s.Inherits m' t := by
  obtain ⟨hpc, hprotocol⟩ := h
  rw [pc_setPc] at hpc
  split at hpc
  · next ht => exact Or.inl ⟨ht, (MutexPc.lockInherit.inj hpc).symm⟩
  · exact Or.inr ⟨hpc, hprotocol⟩

theorem not_inherits_of_outside (hout : s.pc s.running = .outside) : ¬ s.Inherits m s.running := by
  rintro ⟨hpc, -⟩
  rw [hout] at hpc
  cases hpc

theorem inherits_setOwner (o : Option Tid) (m' : Nat) :
    (s.setOwner m o).Inherits m' t ↔ s.Inherits m' t := by
  rw [Inherits, protocol_setOwner]
  rfl

namespace Attended

theorem of_executing (hS' : s'.kernel.Steady L') (hst : s'.Executing)
    (hqueued : ∀ m t, s'.Inherits m t → t ∈ L' (.wait (.mutex m))) : Attended s' L' := by
  refine ⟨hS', hqueued, fun m hm => ?_⟩
  exact absurd (hqueued m _ hm) (hS'.threaded.notMem_of_running hst _)

theorem kernel (hs : Attended s L) (hS' : k'.Steady L')
    (hmem : ∀ m t, s.Inherits m t → t ∈ L (.wait (.mutex m)) → t ∈ L' (.wait (.mutex m)))
    (hrun : k'.runningThread = s.running ∨ k'.Unqueued) :
    Attended { s with kernel := k' } L' := by
  have hqueued : ∀ m t, s.Inherits m t → t ∈ L' (.wait (.mutex m)) := fun m t h =>
    hmem m t h (hs.queued m t h)
  obtain hrun | hst := hrun
  · refine ⟨hS', hqueued, fun m hm => hs.present m ?_⟩
    exact hrun ▸ hm
  · exact of_executing hS' hst hqueued

theorem quiet (hs : Attended s L) (hK : Kept Q s.kernel L k' L') (hQ : ∀ m, .mutex m ∉ Q)
    (hrun : k'.runningThread = s.running ∨ k'.Unqueued) :
    Attended { s with kernel := k' } L' := by
  refine hs.kernel hK.steady (fun m t _ ht => ?_) hrun
  rwa [hK.queues _ (hQ m)]

theorem setPc (hs : Attended s L) (hpc : ∀ m, pc ≠ .lockInherit m) :
    Attended (s.setPc pc) L := by
  refine ⟨hs.steady, fun m t h => hs.queued m t ((inherits_setPc hpc).mp h).2, fun m h => ?_⟩
  exact absurd rfl ((inherits_setPc hpc).mp h).1

theorem toInherit (hs : Attended s L) (hmem : s.running ∈ L (.wait (.mutex m)))
    (howned : s.owner m ≠ none) : Attended (s.setPc (.lockInherit m)) L := by
  refine ⟨hs.steady, fun m' t h => ?_, fun m' h => ?_⟩
  · obtain ⟨rfl, rfl⟩ | h := inherits_of_setPc_lockInherit h
    · exact hmem
    · exact hs.queued m' t h
  · obtain ⟨-, rfl⟩ | h := inherits_of_setPc_lockInherit h
    · exact howned
    · exact hs.present m' h

theorem setInside (hs : Attended s L) (m : Nat) (b : Bool) : Attended (s.setInside m b) L :=
  ⟨hs.steady, hs.queued, hs.present⟩

theorem setOwner (hs : Attended s L) (hself : ∀ m, ¬ s.Inherits m s.running) (m : Nat)
    (o : Option Tid) : Attended (s.setOwner m o) L :=
  ⟨hs.steady, fun m' t h => hs.queued m' t ((inherits_setOwner o m').mp h),
    fun m' h => absurd ((inherits_setOwner o m').mp h) (hself m')⟩

/-- The thread queues itself and loses its place at the owner it may have been about to read. -/
theorem waitOn (hs : Attended s L) (hst : s.Executing) {q : WaitQueue}
    (hq : (SchedList.wait q).owner = none) :
    Attended (s.waitOn q) (enqueue L s.running (.wait q)) := by
  have hK := hs.steady.waitOn hst hq
  exact hs.kernel hK.steady (fun m t _ ht => mem_enqueue.mpr (Or.inl ht)) (Or.inl rfl)

theorem not_inherits_of_executing (hs : Attended s L) (hst : s.Executing) (m : Nat) :
    ¬ s.Inherits m s.running := fun h =>
  hs.steady.threaded.notMem_of_running hst _ (hs.queued m _ h)

theorem unlock (hs : Attended s L) (hout : s.pc s.running = .outside)
    (hok : s.AwaitRead (.unlock m)) (howner : s.owner m = some s.running)
    (hwake : s.kernel.wakeUp (.wait (.mutex m)) = some k') :
    ∃ L', Attended { (s.setInside m false).setOwner m none with kernel := k' } L' := by
  have hfreed : Attended ((s.setInside m false).setOwner m none) L :=
    (hs.setInside m false).setOwner (fun _ => not_inherits_of_outside hout) m none
  obtain ⟨L', hK, ⟨-, rfl, rfl⟩ | ⟨first, l, hl, rfl, rfl⟩⟩ := hs.steady.wakeUp rfl hwake
  · exact ⟨_, hfreed⟩
  · have htarget : l.foldl s.kernel.higher first ∈ s.wakeTarget m := by
      simp [wakeTarget, mutex_members hs.steady, hl]
    have hread := hok howner _ htarget
    refine ⟨_, hfreed.kernel hK.steady (fun m' t h ht => ?_) (Or.inl rfl)⟩
    have hinherits : s.Inherits m' t := (inherits_setOwner (s := s.setInside m false) _ m').mp h
    refine hs.steady.threaded.rings.mem_transfer.mpr (Or.inl ⟨?_, ht⟩)
    rintro rfl
    -- the woken thread was on this list, so this is the mutex it would read the owner of
    have hwoken : l.foldl s.kernel.higher first ∈ L (.wait (.mutex m)) := by
      rw [hl]
      exact Threaded.foldl_higher_mem s.kernel first l
    obtain rfl : m' = m := by
      simpa using hs.steady.threaded.rings.unique ht hwoken
    exact hread hinherits

theorem step (hs : Attended s L) (hok : s.AwaitRead e) (hstep : s.step e = some s') :
    ∃ L', Attended s' L' := by
  cases step_cases hstep with
  | queue m hpc hst howned =>
      exact ⟨_, (hs.waitOn (q := .mutex m) hst rfl).toInherit
        (mem_enqueue.mpr (Or.inr ⟨rfl, rfl⟩)) howned⟩
  | take m hpc hst hfree =>
      exact ⟨L, (hs.setOwner (hs.not_inherits_of_executing hst) m _).setPc (by simp)⟩
  | inherit m k hpc hin hk =>
      obtain ⟨L', hK, -, hrun⟩ := hs.steady.inheritPriority hk
      exact ⟨L', (hs.quiet hK (by simp) (Or.inl hrun)).setPc (by simp)⟩
  | park m k hpc hin hk =>
      obtain ⟨L', hK, -⟩ := hs.steady.schedule hk
      have hmoved : Attended (s.setPc (.lockRetry m)) L := hs.setPc (by simp)
      exact ⟨L', hmoved.quiet hK (by simp) (Or.inr (hs.steady.schedule_unqueued hk))⟩
  | reset m hpc hst =>
      have hK := hs.steady.resetInheritedPriority.1
      exact ⟨L, (hs.quiet hK (by simp) (Or.inl rfl)).setPc (by simp)⟩
  | enter m hpc hst => exact ⟨L, (hs.setInside m true).setPc (by simp)⟩
  | lock m hst hout => exact ⟨L, hs.setPc (by simp)⟩
  | busy m hst hout howned => exact ⟨_, hs.waitOn hst rfl⟩
  | got m hst hout hfree =>
      exact ⟨L, (hs.setOwner (fun _ => not_inherits_of_outside hout) m _).setPc (by simp)⟩
  | refused m hst hout hother => exact ⟨L, hs.setInside m false⟩
  | unlock m k hst hout howner hk => exact hs.unlock hout hok howner hk
  | condWait c m hst hout howned =>
      have hfreed := (hs.setInside m false).setOwner (fun _ => not_inherits_of_outside hout) m none
      exact ⟨_, (hfreed.waitOn (q := .cond c) hst rfl).setPc (by simp)⟩
  | condPass c m hst hout hfree => exact ⟨L, (hs.setInside m false).setPc (by simp)⟩
  | condSignal c k hst hout hk =>
      obtain ⟨L', hK, -⟩ := hs.steady.wakeUp rfl hk
      exact ⟨L', hs.quiet hK (by simp) (Or.inl (hs.steady.wakeUp_running rfl hk))⟩
  | condBroadcast c k hst hout hk =>
      obtain ⟨L', hK, -⟩ := hs.steady.wakeUpAll rfl hk
      exact ⟨L', hs.quiet hK (by simp) (Or.inl (hs.steady.wakeUpAll_running rfl hk))⟩
  | delayTicks ticks hst hout =>
      exact ⟨_, hs.quiet (hs.steady.delayTicks hst ticks) (by simp) (Or.inl rfl)⟩
  | schedYield hst hout =>
      exact ⟨_, hs.quiet (hs.steady.schedYield hst) (by simp) (Or.inl rfl)⟩
  | systemTicks expired k hk =>
      have hK := (hs.steady.systemTicks hk).1
      exact ⟨L, hs.quiet hK (by simp) (Or.inl (hs.steady.systemTicks_running hk))⟩
  | schedule k hk =>
      obtain ⟨L', hK, -⟩ := hs.steady.schedule hk
      exact ⟨L', hs.quiet hK (by simp) (Or.inr (hs.steady.schedule_unqueued hk))⟩

end Attended

theorem Started.attended (h : Started s) : ∃ L, Attended s L := by
  obtain ⟨L, hS⟩ := h.steady
  have hnot : ∀ m t, ¬ s.Inherits m t := by
    rintro m t ⟨hpc, -⟩
    rw [(h.outside t).1] at hpc
    cases hpc
  exact ⟨L, hS, fun m t ht => absurd ht (hnot m t), fun m hm => absurd hm (hnot m _)⟩

/-- In every run whose owners wake no thread that has not read them yet, there is an owner
whenever `thread_inherit_priority` reads it. -/
theorem ownerPresent_of_awaitRead {s₀ s : MutexSys} {es : List MutexEvent} (hstart : Started s₀)
    (hok : Runs.AllOk AwaitRead step s₀ es) (hrun : Runs.exec step s₀ es = some s) :
    s.OwnerPresent := by
  have hkeep : ∀ s e s', (∃ L, Attended s L) → s.AwaitRead e → s.step e = some s' →
      ∃ L, Attended s' L := fun _ _ _ ⟨_, hs⟩ hok hstep => hs.step hok hstep
  obtain ⟨L, hs⟩ := Runs.exec_invariant hkeep hstart.attended hok hrun
  exact hs.present

/-- Thread 5 locks mutex 0, and thread 4 is queued behind it and about to read the owner. -/
def queuedRun : List MutexEvent :=
  [.lock 0, .advance, .advance, .advance, .schedule, .lock 0, .advance]

theorem ownerPresent_of_awaitRead_at_queued :
    ∃ s, Runs.exec step userSystem queuedRun = some s ∧ s.Inherits 0 4 ∧ s.running = 4 ∧
      s.OwnerPresent := by
  have hrun : (Runs.exec step userSystem queuedRun).map (fun s =>
      decide (s.Inherits 0 4 ∧ s.running = 4)) = some true := by decide +kernel
  obtain ⟨s, hs, hfacts⟩ := Option.map_eq_some_iff.mp hrun
  obtain ⟨hinherits, hrunning⟩ := of_decide_eq_true hfacts
  exact ⟨s, hs, hinherits, hrunning,
    ownerPresent_of_awaitRead userSystem_started (by decide +kernel) hs⟩

/-- Thread 4 loses the CPU before it reads the owner; thread 5 gives the mutex back. -/
theorem ownerPresent_not_for_preempted : userSystem.Started ∧
    ∃ s, Runs.exec step userSystem (queuedRun ++ [.schedule, .unlock 0, .schedule]) = some s ∧
      ¬ s.OwnerPresent := by
  have hrun : (Runs.exec step userSystem (queuedRun ++ [.schedule, .unlock 0, .schedule])).map
      (fun s => decide (s.Inherits 0 s.running ∧ s.owner 0 = none)) = some true := by
    decide +kernel
  obtain ⟨s, hs, hfacts⟩ := Option.map_eq_some_iff.mp hrun
  obtain ⟨hinherits, hfree⟩ := of_decide_eq_true hfacts
  exact ⟨userSystem_started, s, hs, fun hpresent => hpresent 0 hinherits hfree⟩

end MutexSys

end Tenok
