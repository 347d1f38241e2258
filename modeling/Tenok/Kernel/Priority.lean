import Tenok.Kernel.MutexRuns

/-!
Priority inheritance (`thread_inherit_priority` and `thread_reset_inherited_priority`).
What a step does to the owners, the priorities and the threads blocked in `mutex_lock` is
said once; the invariants of priorities are derived from it.
-/
namespace Tenok
open Ring Queues

namespace MutexSys
open Kernel

def priority (s : MutexSys) (t : Tid) : Priority := (s.kernel.threads t).priority

def originalPriority (s : MutexSys) (t : Tid) : Priority := (s.kernel.threads t).originalPriority

def priorityInherited (s : MutexSys) (t : Tid) : Bool := (s.kernel.threads t).priorityInherited

/-- The mutex that the thread is blocked on: it is on the `wait_list`, has executed
`thread_inherit_priority` and called `schedule`. -/
def blockedOn (s : MutexSys) (t : Tid) : Option Nat :=
  match s.pc t with
  | .lockRetry m => if t ∈ s.kernel.members (.wait (.mutex m)) then some m else none
  | _ => none

/-- The owner of a mutex has at least the priority of every thread blocked on it. -/
def Protected (s : MutexSys) : Prop :=
  ∀ t m u, s.blockedOn t = some m → s.owner m = some u → s.priority t ≤ s.priority u

/-- A free mutex goes to a thread that has at least the priority of those blocked on it. -/
def TakeOk (s : MutexSys) (m : Nat) : Prop :=
  s.owner m = none → ∀ t < threadMax, s.blockedOn t = some m → s.priority t ≤ s.priority s.running

/-- An owner that is raised is not blocked itself on the mutex of a lower owner. -/
def LendOk (s : MutexSys) (m : Nat) : Prop :=
  ∀ u ∈ s.owner m, s.priority u < s.priority s.running →
    ∀ m' ∈ s.blockedOn u, ∀ w ∈ s.owner m', w ≠ u → s.priority s.running ≤ s.priority w

/-- A thread that gets another mutex falls back to a priority that protects those blocked
on the mutexes it has. -/
def ResetOk (s : MutexSys) : Prop :=
  s.priorityInherited s.running = true → ∀ t < threadMax, ∀ m ∈ s.blockedOn t,
    s.owner m = some s.running → s.priority t ≤ s.originalPriority s.running

/-- The condition at the next step of the running thread inside `mutex_lock`. -/
def AdvanceOk (s : MutexSys) : MutexPc → Prop
  | .lockEnter m | .lockRetry m => s.TakeOk m
  | .lockInherit m => s.LendOk m
  | .lockReset _ => s.ResetOk
  | .outside | .lockSchedule _ | .lockReturn _ | .condReturn _ _ => True

/-- The steps at which a priority or an owner changes keep the waiters protected. -/
def InheritOk (s : MutexSys) : MutexEvent → Prop
  | .trylock m => s.TakeOk m
  | .advance => s.AdvanceOk (s.pc s.running)
  | _ => True

instance decidableAdvanceOk (s : MutexSys) : (pc : MutexPc) → Decidable (s.AdvanceOk pc)
  | .lockEnter _ | .lockRetry _ => inferInstanceAs (Decidable (_ → ∀ t < threadMax, _))
  | .lockInherit _ => inferInstanceAs (Decidable (∀ u ∈ _, _ → ∀ m' ∈ _, ∀ w ∈ _, _))
  | .lockReset _ => inferInstanceAs (Decidable (_ → ∀ t < threadMax, ∀ m ∈ _, _))
  | .outside | .lockSchedule _ | .lockReturn _ | .condReturn _ _ =>
      inferInstanceAs (Decidable True)

instance decidableInheritOk (s : MutexSys) : (e : MutexEvent) → Decidable (s.InheritOk e)
  | .trylock _ => inferInstanceAs (Decidable (_ → ∀ t < threadMax, _))
  | .advance => s.decidableAdvanceOk (s.pc s.running)
  | .lock _ | .unlock _ | .condWait _ _ | .condSignal _ | .condBroadcast _ | .delayTicks _
  | .schedYield | .systemTicks _ | .schedule => inferInstanceAs (Decidable True)

/-- The two places between `thread_inherit_priority` and the next `mutex_trylock`. -/
def Parked : MutexPc → Prop
  | .lockSchedule _ | .lockRetry _ => True
  | _ => False

/-- The thread is on the list of the mutex and has called `schedule` in `mutex_lock`. -/
def Blocked (s : MutexSys) (L : SchedList → List Tid) (m : Nat) (t : Tid) : Prop :=
  t ∈ L (.wait (.mutex m)) ∧ s.pc t = .lockRetry m

/-- The running thread is still on the list of the mutex and calls `schedule` next. -/
def Poised (s : MutexSys) (L : SchedList → List Tid) (m : Nat) (t : Tid) : Prop :=
  t = s.running ∧ t ∈ L (.wait (.mutex m)) ∧ s.pc t = .lockSchedule m

variable {s s' : MutexSys} {L L' : SchedList → List Tid} {k k' : Kernel} {Q : Set WaitQueue}
  {m c : Nat} {t u : Tid} {e : MutexEvent}

theorem blockedOn_eq_some (hS : s.kernel.Steady L) :
    s.blockedOn t = some m ↔ Blocked s L m t := by
  have hmembers : ∀ m, s.kernel.members (.wait (.mutex m)) = L (.wait (.mutex m)) := fun m =>
    hS.threaded.members_eq (by simp [inUse, SchedList.owner])
  rw [blockedOn, Blocked]
  split
  · next m' hpc =>
      rw [hmembers]
      split
      · next hmem =>
          refine ⟨fun h => ?_, fun h => ?_⟩
          · obtain rfl := Option.some.inj h
            exact ⟨hmem, hpc⟩
          · rw [MutexPc.lockRetry.inj (hpc.symm.trans h.2)]
      · next hmem =>
          refine iff_of_false (by simp) fun h => hmem ?_
          rw [MutexPc.lockRetry.inj (hpc.symm.trans h.2)]
          exact h.1
  · next hpc => exact iff_of_false (by simp) fun h => hpc m h.2

/-- No thread gets blocked. -/
structure Fewer (s : MutexSys) (L : SchedList → List Tid) (s' : MutexSys)
    (L' : SchedList → List Tid) : Prop where
  blocked : ∀ m t, Blocked s' L' m t → Blocked s L m t
  poised : ∀ m t, Poised s' L' m t → Poised s L m t

namespace Fewer

theorem trans {s'' : MutexSys} {L'' : SchedList → List Tid} (h : Fewer s L s' L')
    (h' : Fewer s' L' s'' L'') : Fewer s L s'' L'' :=
  ⟨fun m t hb => h.blocked m t (h'.blocked m t hb), fun m t hp => h.poised m t (h'.poised m t hp)⟩

theorem of_same (hpc : s'.pc = s.pc) (hrun : s'.running = s.running) : Fewer s L s' L :=
  ⟨fun _ _ h => ⟨h.1, hpc ▸ h.2⟩, fun _ _ h => ⟨hrun ▸ h.1, h.2.1, hpc ▸ h.2.2⟩⟩

theorem setPc {pc : MutexPc} (hpc : ¬ Parked pc) : Fewer s L (s.setPc pc) L := by
  refine ⟨fun m t h => ?_, fun m t h => ?_⟩
  · obtain ⟨hmem, h⟩ := h
    rw [pc_setPc] at h
    split at h
    · subst h
      exact absurd trivial hpc
    · exact ⟨hmem, h⟩
  · obtain ⟨hrun, -, h⟩ := h
    rw [pc_setPc, if_pos (show t = s.running from hrun)] at h
    subst h
    exact absurd trivial hpc

theorem goTo {s₁ : MutexSys} {pc : MutexPc} (hpc : s₁.pc = s.pc) (hrun : s₁.running = s.running)
    (hplace : ¬ Parked pc) : Fewer s L (s₁.setPc pc) L :=
  (of_same (s := s) hpc hrun).trans (setPc hplace)

theorem kernel (hmem : ∀ m t, t ∈ L' (.wait (.mutex m)) →
      t ∈ L (.wait (.mutex m)) ∨ ¬ Parked (s.pc t))
    (hrun : k'.runningThread = s.running ∨ ∀ m, k'.runningThread ∉ L' (.wait (.mutex m))) :
    Fewer s L { s with kernel := k' } L' := by
  have hstays : ∀ m t, t ∈ L' (.wait (.mutex m)) → Parked (s.pc t) → t ∈ L (.wait (.mutex m)) :=
    fun m t h hparked => (hmem m t h).resolve_right fun hn => hn hparked
  refine ⟨fun m t ⟨h, hpc⟩ => ⟨hstays m t h ?_, hpc⟩, fun m t ⟨hself, h, hpc⟩ => ?_⟩
  · change s.pc t = _ at hpc
    rw [hpc]
    trivial
  · have ht : t = k'.runningThread := hself
    change s.pc t = _ at hpc
    obtain hrun | hrun := hrun
    · exact ⟨ht.trans hrun, hstays m t h (by rw [hpc]; trivial), hpc⟩
    · exact absurd (ht ▸ h) (hrun m)

theorem kept (hK : Kept Q s.kernel L k' L') (hQ : ∀ m, .mutex m ∉ Q)
    (hrun : k'.runningThread = s.running ∨ k'.Unqueued) : Fewer s L { s with kernel := k' } L' :=
  kernel (fun m t h => Or.inl (by rwa [hK.queues _ (hQ m)] at h)) <| hrun.imp_right fun hst m =>
    hK.steady.threaded.notMem_of_running hst _

end Fewer

theorem blocked_iff_of_executing (hS : s.kernel.Steady L) (hst : s.Executing)
    (hpc : ∀ t, t ≠ s.running → s'.pc t = s.pc t) :
    ∀ m t, Blocked s' L m t ↔ Blocked s L m t := by
  intro m t
  by_cases ht : t = s.running
  · have hnot : t ∉ L (.wait (.mutex m)) := ht ▸ hS.threaded.notMem_of_running hst _
    exact iff_of_false (fun h => hnot h.1) fun h => hnot h.1
  · rw [Blocked, Blocked, hpc t ht]

theorem not_poised_of_executing (hS : s.kernel.Steady L) (hst : s.Executing)
    (hrun : s'.running = s.running) : ∀ m t, ¬ Poised s' L m t := by
  rintro m t ⟨rfl, hmem, -⟩
  exact hS.threaded.notMem_of_running hst _ (hrun ▸ hmem)

/-- The step writes none of the fields that priority inheritance works on. -/
structure SamePriorities (k k' : Kernel) : Prop where
  priority : ∀ t, (k'.threads t).priority = (k.threads t).priority
  original : ∀ t, (k'.threads t).originalPriority = (k.threads t).originalPriority
  inherited : ∀ t, (k'.threads t).priorityInherited = (k.threads t).priorityInherited

namespace SamePriorities

theorem refl (k : Kernel) : SamePriorities k k := ⟨fun _ => rfl, fun _ => rfl, fun _ => rfl⟩

theorem of_status (h : ∀ t, k'.threads t =
    { k.threads t with status := (k'.threads t).status }) : SamePriorities k k' :=
  ⟨fun t => by rw [h t], fun t => by rw [h t], fun t => by rw [h t]⟩

theorem setThread {f : ThreadInfo → ThreadInfo} (hf : ∀ i, f i = { i with
      status := (f i).status, sleepTicks := (f i).sleepTicks, privilege := (f i).privilege }) :
    SamePriorities k (k.setThread t f) := by
  refine ⟨fun u => ?_, fun u => ?_, fun u => ?_⟩
  all_goals
    by_cases hu : u = t
    · subst hu
      simp only [Kernel.setThread, Function.update_self]
      rw [hf]
    · simp only [Kernel.setThread, Function.update_of_ne hu]

theorem trans {k'' : Kernel} (h : SamePriorities k k') (h' : SamePriorities k' k'') :
    SamePriorities k k'' where
  priority t := (h'.priority t).trans (h.priority t)
  original t := (h'.original t).trans (h.original t)
  inherited t := (h'.inherited t).trans (h.inherited t)

theorem relink (k : Kernel) (links : Cells ListNode) (t : Tid) (state : ThreadStatus) :
    SamePriorities k ({ k with links }.setStatus t state) := by
  have h : SamePriorities { k with links } ({ k with links }.setStatus t state) :=
    setThread (f := fun i => { i with status := state }) fun _ => rfl
  exact ⟨h.priority, h.original, h.inherited⟩

theorem wakeUp {q : WaitQueue} (hS : k.Steady L) (hq : (SchedList.wait q).owner = none)
    (hwake : k.wakeUp (.wait q) = some k') : SamePriorities k k' := by
  obtain ⟨-, -, ⟨-, -, rfl⟩ | ⟨first, l, -, rfl, -⟩⟩ := hS.wakeUp hq hwake
  · exact refl _
  · exact relink ..

theorem wakeUpAll {q : WaitQueue} (hS : k.Steady L) (hq : (SchedList.wait q).owner = none)
    (hwake : k.wakeUpAll (.wait q) = some k') : SamePriorities k k' := by
  have hin : SchedList.wait q ∈ inUse {t | k.Alive t} := by simp [inUse, hq]
  obtain ⟨k₁, L₁, hk₁, -, hW, -⟩ := hS.threaded.wakeUpAll hin (by simp)
  obtain rfl : k₁ = k' := Option.some.inj (hk₁.symm.trans hwake)
  exact of_status hW.info

theorem schedule (hS : k.Steady L) (hsched : k.schedule = some k') : SamePriorities k k' := by
  obtain ⟨L₁, -, hD⟩ := hS.threaded.schedule hsched
  exact of_status hD.info

theorem systemTicks {expired : Tid → Bool} (hS : k.Steady L)
    (hticks : k.systemTicksUpdate expired = some k') : SamePriorities k k' := by
  obtain ⟨threads, hk, hinfo⟩ := hS.threaded.threadsTicksUpdate
  obtain rfl : { k with threads } = k' := by
    simpa [systemTicksUpdate, hk, syscallTimeoutUpdate, hS.timeoutList] using hticks
  have hsame : ∀ t, (threads t).priority = (k.threads t).priority ∧
      (threads t).originalPriority = (k.threads t).originalPriority ∧
      (threads t).priorityInherited = (k.threads t).priorityInherited := fun t => by
    rw [(hinfo t).1]
    exact ⟨rfl, rfl, rfl⟩
  exact ⟨fun t => (hsame t).1, fun t => (hsame t).2.1, fun t => (hsame t).2.2⟩

end SamePriorities

/-- The event is a call or a pass of `mutex_lock` that gets the mutex if it is free. -/
def Takes (s : MutexSys) (e : MutexEvent) (m : Nat) : Prop :=
  e = .trylock m ∨
    e = .advance ∧ (s.pc s.running = .lockEnter m ∨ s.pc s.running = .lockRetry m)

/-- The event frees the mutex, which the thread has. -/
def Gives (s : MutexSys) (e : MutexEvent) (m : Nat) (u : Tid) : Prop :=
  s.owner m = some u ∧ (e = .unlock m ∧ u = s.running ∨ ∃ c, e = .condWait c m)

/-- What a step does to the owners, to the priorities and to the blocked threads. -/
inductive Effect (s : MutexSys) (L : SchedList → List Tid) (e : MutexEvent) (s' : MutexSys)
    (L' : SchedList → List Tid) : Prop
  | quiet (hok : s.InheritOk e) (hmutexes : s'.mutexes = s.mutexes)
      (hsame : SamePriorities s.kernel s'.kernel) (hfewer : Fewer s L s' L')
  | release (m : Nat) (u : Tid) (hgives : s.Gives e m u)
      (hmutexes : s'.mutexes = (s.setOwner m none).mutexes)
      (hsame : SamePriorities s.kernel s'.kernel) (hfewer : Fewer s L s' L')
  | take (m : Nat) (htakes : s.Takes e m) (hfree : s.owner m = none)
      (hmutexes : s'.mutexes = (s.setOwner m s.running).mutexes)
      (hsame : SamePriorities s.kernel s'.kernel)
      (hblocked : ∀ m t, Blocked s' L' m t ↔ Blocked s L m t) (hpoised : ∀ m t, ¬ Poised s' L' m t)
  /-- `thread_inherit_priority` for a mutex of another protocol. -/
  | skip (m : Nat) (he : e = .advance) (hpc : s.pc s.running = .lockInherit m)
      (hprotocol : (s.mutexes m).protocol ≠ .prioInherit) (hmutexes : s'.mutexes = s.mutexes)
      (hsame : SamePriorities s.kernel s'.kernel)
  | lend (m : Nat) (u : Tid) (he : e = .advance) (hpc : s.pc s.running = .lockInherit m)
      (hprotocol : (s.mutexes m).protocol = .prioInherit)
      (hu : s.owner m = some u) (hmutexes : s'.mutexes = s.mutexes)
      (hlends : Lends s.kernel u s'.kernel)
      (hblocked : ∀ m t, Blocked s' L' m t ↔ Blocked s L m t)
      (hpoised : ∀ m' t, Poised s' L' m' t → m' = m ∧ t = s.running)
  /-- The thread calls `schedule`. -/
  | park (m : Nat) (he : e = .advance) (hpc : s.pc s.running = .lockSchedule m)
      (hmutexes : s'.mutexes = s.mutexes) (hsame : SamePriorities s.kernel s'.kernel)
      (hblocked : ∀ m t, Blocked s' L' m t → Blocked s L m t ∨ Poised s L m t)
      (hpoised : ∀ m t, ¬ Poised s' L' m t)
  | reset (m : Nat) (he : e = .advance) (hpc : s.pc s.running = .lockReset m)
      (hmutexes : s'.mutexes = s.mutexes)
      (hreset : s'.kernel = s.kernel.threadResetInheritedPriority)
      (hblocked : ∀ m t, Blocked s' L' m t ↔ Blocked s L m t) (hpoised : ∀ m t, ¬ Poised s' L' m t)

theorem Effect.kept (hok : s.InheritOk e) (hK : Kept Q s.kernel L k' L') (hQ : ∀ m, .mutex m ∉ Q)
    (hrun : k'.runningThread = s.running ∨ k'.Unqueued) (hsame : SamePriorities s.kernel k') :
    ∃ L', k'.Steady L' ∧ Effect s L e { s with kernel := k' } L' :=
  ⟨L', hK.steady, .quiet hok rfl hsame (Fewer.kept hK hQ hrun)⟩

theorem Fewer.queueBehind {pc : MutexPc} (hS : s.kernel.Steady L) (hst : s.Executing)
    (hpc : ¬ Parked pc) :
    (s.kernel.prepareToWait (.wait (.mutex m)) s.running .wait).Steady
      (enqueue L s.running (.wait (.mutex m))) ∧
    Fewer s L { s.setPc pc with
      kernel := s.kernel.prepareToWait (.wait (.mutex m)) s.running .wait }
      (enqueue L s.running (.wait (.mutex m))) := by
  have hK := hS.waitOn (q := .mutex m) hst rfl
  refine ⟨hK.steady, (Fewer.setPc hpc).trans (Fewer.kernel (fun m' t h => ?_) (Or.inl rfl))⟩
  refine (mem_enqueue.mp h).imp_right fun ht => ?_
  rw [ht.1, pc_setPc, if_pos rfl]
  exact hpc

theorem Effect.trylock (got queued : MutexPc) (hS : s.kernel.Steady L) (hst : s.Executing)
    (htakes : s.Takes e m) (hqueued : ¬ Parked queued) :
    (s.owner m = none ∧ Effect s L e ((s.setOwner m s.running).setPc got) L) ∨
    (s.owner m ≠ none ∧ ∃ L', (s.kernel.prepareToWait (.wait (.mutex m)) s.running .wait).Steady L' ∧
      Effect s L e { s.setPc queued with
        kernel := s.kernel.prepareToWait (.wait (.mutex m)) s.running .wait } L') := by
  by_cases hfree : s.owner m = none
  · refine Or.inl ⟨hfree, .take m htakes hfree rfl (SamePriorities.refl _)
      (blocked_iff_of_executing hS hst fun t ht => ?_) (not_poised_of_executing hS hst rfl)⟩
    exact (pc_setPc got t).trans (if_neg ht)
  · obtain ⟨hS', hfewer⟩ := Fewer.queueBehind (m := m) hS hst hqueued
    refine Or.inr ⟨hfree, _, hS', .quiet ?_ rfl (SamePriorities.relink ..) hfewer⟩
    obtain rfl | ⟨rfl, hpc | hpc⟩ := htakes
    · exact fun h => absurd h hfree
    · simp only [InheritOk, hpc, AdvanceOk]
      exact fun h => absurd h hfree
    · simp only [InheritOk, hpc, AdvanceOk]
      exact fun h => absurd h hfree

theorem setPc_self (s : MutexSys) : s.setPc (s.pc s.running) = s := by simp [setPc]

theorem Effect.inherit (hS : s.kernel.Steady L) (hpc : s.pc s.running = .lockInherit m)
    (hk : s.kernel.threadInheritPriority (s.mutexes m) = some k') :
    ∃ L', k'.Steady L' ∧
      Effect s L .advance (setPc { s with kernel := k' } (.lockSchedule m)) L' := by
  obtain ⟨L', hT, hR, -, hcases⟩ := hS.threaded.threadInheritPriority hk
  have hK := (hS.raised hT hR).1
  have hrun : k'.runningThread = s.running := by rw [hR.rest]; rfl
  have hpc' : ∀ t, ({ s with kernel := k' }.setPc (.lockSchedule m)).pc t =
      if t = s.running then .lockSchedule m else s.pc t := fun t => by
    rw [← hrun]
    exact pc_setPc _ t
  refine ⟨L', hK.steady, ?_⟩
  obtain ⟨hprotocol, rfl⟩ | ⟨u, hprotocol, hu, hlends⟩ := hcases
  · exact .skip m rfl hpc hprotocol rfl (SamePriorities.refl _)
  · refine .lend m u rfl hpc hprotocol hu rfl hlends (fun m' t => ?_) fun m' t h => ?_
    · rw [Blocked, Blocked, hK.queues _ (by simp), hpc']
      split
      · next ht => simp [ht, hpc]
      · rfl
    · have ht : t = s.running := h.1.trans hrun
      have hplace := (hpc' t).symm.trans h.2.2
      rw [if_pos ht] at hplace
      exact ⟨(MutexPc.lockSchedule.inj hplace).symm, ht⟩

theorem Effect.parks (hS : s.kernel.Steady L) (hpc : s.pc s.running = .lockSchedule m)
    (hk : s.kernel.schedule = some k') :
    ∃ L', k'.Steady L' ∧ Effect s L .advance { s.setPc (.lockRetry m) with kernel := k' } L' := by
  have hst := hS.schedule_unqueued hk
  obtain ⟨L', hK, -⟩ := hS.schedule hk
  refine ⟨L', hK.steady, .park m rfl hpc rfl (SamePriorities.schedule hS hk)
    (fun m' t h => ?_) fun m' t h => hK.steady.threaded.notMem_of_running hst _ (h.1 ▸ h.2.1)⟩
  obtain ⟨hmem, hplace⟩ := h
  rw [hK.queues _ (by simp)] at hmem
  change (s.setPc _).pc t = _ at hplace
  rw [pc_setPc] at hplace
  split at hplace
  · next ht =>
      obtain rfl := MutexPc.lockRetry.inj hplace
      exact Or.inr ⟨ht, hmem, ht ▸ hpc⟩
  · exact Or.inl ⟨hmem, hplace⟩

theorem Effect.unlock (hS : s.kernel.Steady L) (howner : s.owner m = some s.running)
    (hk : s.kernel.wakeUp (.wait (.mutex m)) = some k') :
    ∃ L', k'.Steady L' ∧ Effect s L (.unlock m)
      { (s.setInside m false).setOwner m none with kernel := k' } L' := by
  have hrun : k'.runningThread = s.running := hS.wakeUp_running rfl hk
  obtain ⟨L', hK, hcases⟩ := hS.wakeUp rfl hk
  refine ⟨L', hK.steady, .release m s.running ⟨howner, Or.inl ⟨rfl, rfl⟩⟩
    rfl (SamePriorities.wakeUp hS rfl hk)
    ((Fewer.kernel (fun m' t h => Or.inl ?_) (Or.inl hrun)).trans (Fewer.of_same rfl rfl))⟩
  obtain ⟨-, rfl, -⟩ | ⟨first, l, -, -, rfl⟩ := hcases
  · exact h
  · exact ((hS.threaded.rings.mem_transfer.mp h).resolve_right fun hr => by cases hr.2).2

theorem step_effect (hS : s.kernel.Steady L) (hstep : s.step e = some s') :
    ∃ L', s'.kernel.Steady L' ∧ Effect s L e s' L' := by
  cases step_cases hstep with
  | queue m hpc hst howned =>
      obtain ⟨hfree, -⟩ | ⟨-, hqueued⟩ :=
        Effect.trylock (.lockReset m) (.lockInherit m) hS hst (Or.inr ⟨rfl, hpc⟩) id
      · exact absurd hfree howned
      · exact hqueued
  | take m hpc hst hfree =>
      obtain ⟨-, htaken⟩ | ⟨howned, -⟩ :=
        Effect.trylock (.lockReset m) (.lockInherit m) hS hst (Or.inr ⟨rfl, hpc⟩) id
      · exact ⟨L, hS, htaken⟩
      · exact absurd hfree howned
  | inherit m k hpc hin hk => exact Effect.inherit hS hpc hk
  | park m k hpc hin hk => exact Effect.parks hS hpc hk
  | reset m hpc hst =>
      have hK := hS.resetInheritedPriority.1
      exact ⟨L, hK.steady, .reset m rfl hpc rfl rfl
        (blocked_iff_of_executing hS hst fun t ht => (pc_setPc _ t).trans (if_neg ht))
        (not_poised_of_executing hS hst rfl)⟩
  | enter m hpc hst =>
      refine ⟨L, hS, .quiet ?_ rfl (SamePriorities.refl _) (Fewer.goTo rfl rfl id)⟩
      obtain hpc | ⟨c, hpc⟩ := hpc
      · simp [InheritOk, hpc, AdvanceOk]
      · simp [InheritOk, hpc, AdvanceOk]
  | lock m hst hout =>
      exact ⟨L, hS, .quiet trivial rfl (SamePriorities.refl _) (Fewer.setPc id)⟩
  | busy m hst hout howned =>
      obtain ⟨hfree, -⟩ | ⟨-, hqueued⟩ := Effect.trylock (.lockReturn m) (s.pc s.running) hS hst
        (Or.inl (rfl : MutexEvent.trylock m = .trylock m)) (by simp [hout, Parked])
      · exact absurd hfree howned
      · rwa [setPc_self] at hqueued
  | got m hst hout hfree =>
      obtain ⟨-, htaken⟩ | ⟨howned, -⟩ := Effect.trylock (.lockReturn m) (s.pc s.running) hS hst
        (Or.inl (rfl : MutexEvent.trylock m = .trylock m)) (by simp [hout, Parked])
      · exact ⟨L, hS, htaken⟩
      · exact absurd hfree howned
  | refused m hst hout hother =>
      exact ⟨L, hS, .quiet trivial rfl (SamePriorities.refl _) (Fewer.of_same rfl rfl)⟩
  | unlock m k hst hout howner hk => exact Effect.unlock hS howner hk
  | condWait c m hst hout howned =>
      obtain ⟨u, hu⟩ := Option.ne_none_iff_exists'.mp howned
      have hK := hS.waitOn (q := .cond c) hst rfl
      exact ⟨_, hK.steady, .release m u ⟨hu, Or.inr ⟨c, rfl⟩⟩ rfl (SamePriorities.relink ..)
        ((Fewer.kept hK (by simp) (Or.inl rfl)).trans (Fewer.goTo rfl rfl id))⟩
  | condPass c m hst hout hfree =>
      exact ⟨L, hS, .quiet trivial rfl (SamePriorities.refl _) (Fewer.goTo rfl rfl id)⟩
  | condSignal c k hst hout hk =>
      obtain ⟨L', hK, -⟩ := hS.wakeUp rfl hk
      exact Effect.kept trivial hK (by simp) (Or.inl (hS.wakeUp_running rfl hk))
        (SamePriorities.wakeUp hS rfl hk)
  | condBroadcast c k hst hout hk =>
      obtain ⟨L', hK, -⟩ := hS.wakeUpAll rfl hk
      exact Effect.kept trivial hK (by simp) (Or.inl (hS.wakeUpAll_running rfl hk))
        (SamePriorities.wakeUpAll hS rfl hk)
  | delayTicks ticks hst hout =>
      exact Effect.kept trivial (hS.delayTicks hst ticks) (by simp) (Or.inl rfl)
        ((SamePriorities.setThread fun _ => rfl).trans (SamePriorities.relink ..))
  | schedYield hst hout =>
      exact Effect.kept trivial (hS.schedYield hst) (by simp) (Or.inl rfl)
        (SamePriorities.relink ..)
  | systemTicks expired k hk =>
      exact Effect.kept trivial (hS.systemTicks hk).1 (by simp)
        (Or.inl (hS.systemTicks_running hk)) (SamePriorities.systemTicks hS hk)
  | schedule k hk =>
      obtain ⟨L', hK, -⟩ := hS.schedule hk
      exact Effect.kept trivial hK (by simp) (Or.inr (hS.schedule_unqueued hk))
        (SamePriorities.schedule hS hk)

end MutexSys

end Tenok
