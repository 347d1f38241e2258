import Tenok.Kernel.PriorityRuns

/-!
Threads that use mutexes and set priorities. The base priority of a thread is not a field
of the source; whether the saved one can stand for it is the question here.
-/
namespace Tenok
open Ring Queues

/-- Mutexes and the priority each thread was given last, at its creation or by a
successful `pthread_setschedparam`. -/
structure PrioSys where
  sys : MutexSys
  base : Tid → Priority

inductive PrioEvent
  | mutex (e : MutexEvent)
  | setschedparam (tid : Tid) (schedPriority : Int)

namespace PrioSys
open Kernel MutexSys

def setschedparam (s : PrioSys) (tid : Tid) (schedPriority : Int) : PrioSys :=
  match s.sys.kernel.syscallHandler.sysPthreadSetschedparam tid schedPriority with
  | (k, .error _) => { s with sys := { s.sys with kernel := k.syscallReturnEventHandler } }
  | (k, .ok _) =>
      { sys := { s.sys with kernel := k.syscallReturnEventHandler }
        base := Function.update s.base tid (Fin.ofNat _ schedPriority.toNat) }

def step (s : PrioSys) : PrioEvent → Option PrioSys
  | .mutex e => (s.sys.step e).map fun sys => { s with sys }
  | .setschedparam tid schedPriority =>
      if s.sys.Executing ∧ s.sys.pc s.sys.running = .outside then
        some (s.setschedparam tid schedPriority)
      else none

/-- No mutex was used yet and no priority is inherited. -/
structure Started (s : PrioSys) : Prop where
  sys : s.sys.Started
  base : ∀ t < threadMax, s.sys.priority t = s.base t ∧ s.sys.priorityInherited t = false

/-- A thread that owns no mutex has its base priority. -/
def GivenBack (s : PrioSys) : Prop :=
  ∀ t < threadMax, (∀ m, s.sys.owner m ≠ some t) → s.sys.priority t = s.base t

/-- The save of `thread_inherit_priority` is for the caller instead of the owner. Here it
does no harm: the owner's saved priority is right already, and so is the caller's. -/
def SaveOk (s : MutexSys) (m : Nat) : Prop :=
  (s.mutexes m).protocol = .prioInherit → ∀ u ∈ s.owner m, s.priorityInherited u = false →
    (u ≠ s.running → s.originalPriority u = s.priority u) ∧
    (s.priorityInherited s.running = true → s.originalPriority s.running = s.priority s.running)

/-- A thread that gives its last mutex back is not above its saved priority: nothing of
`mutex_unlock` would take it down. -/
def ReleaseOk (s : MutexSys) (m : Nat) (u : Tid) : Prop :=
  (∀ m', s.owner m' = some u → m' = m) → s.priorityInherited u = true →
    s.priority u = s.originalPriority u

/-- A thread that is still marked after its last mutex gets the priority it has: any other
would go to the saved one only. -/
def SetOk (s : MutexSys) (tid : Tid) (schedPriority : Int) : Prop :=
  Settable s.kernel.syscallHandler tid schedPriority → s.priorityInherited tid = true →
    (∀ m, s.owner m ≠ some tid) → s.priority tid = Fin.ofNat _ schedPriority.toNat

def RestoreOk (s : PrioSys) : PrioEvent → Prop
  | .mutex .advance => ∀ m, s.sys.pc s.sys.running = .lockInherit m → SaveOk s.sys m
  | .mutex (.unlock m) => s.sys.owner m = some s.sys.running → ReleaseOk s.sys m s.sys.running
  | .mutex (.condWait _ m) => ∀ u ∈ s.sys.owner m, ReleaseOk s.sys m u
  | .setschedparam tid schedPriority => SetOk s.sys tid schedPriority
  | .mutex _ => True

variable {s s' : PrioSys} {L L' : SchedList → List Tid} {k : Kernel} {m : Nat} {t tid u : Tid}
  {e : MutexEvent} {schedPriority : Int}

/-- The saved priority of a marked thread is its base, and so is the priority of every
thread that is not marked or owns no mutex. -/
structure Booked (s : PrioSys) (L : SchedList → List Tid) : Prop where
  steady : s.sys.kernel.Steady L
  unmarked : ∀ t < threadMax, s.sys.priorityInherited t = false → s.sys.priority t = s.base t
  saved : ∀ t < threadMax, s.sys.priorityInherited t = true → s.sys.originalPriority t = s.base t
  free : s.GivenBack

namespace Booked

/-- A step that leaves the priorities as they are and frees no last mutex of a raised thread. -/
theorem keep {sys : MutexSys} (hs : Booked s L) (hS' : sys.kernel.Steady L')
    (hsame : SamePriorities s.sys.kernel sys.kernel)
    (hfree : ∀ t < threadMax, (∀ m, sys.owner m ≠ some t) → s.sys.priority t = s.base t) :
    Booked { s with sys } L' where
  steady := hS'
  unmarked t hlt h :=
    (hsame.priority t).trans (hs.unmarked t hlt ((hsame.inherited t).symm.trans h))
  saved t hlt h := (hsame.original t).trans (hs.saved t hlt ((hsame.inherited t).symm.trans h))
  free t hlt h := (hsame.priority t).trans (hfree t hlt h)

theorem priority_of_saved (hs : Booked s L) (hlt : t < threadMax)
    (h : s.sys.priorityInherited t = true → s.sys.priority t = s.sys.originalPriority t) :
    s.sys.priority t = s.base t := by
  cases hi : s.sys.priorityInherited t with
  | false => exact hs.unmarked t hlt hi
  | true => exact (h hi).trans (hs.saved t hlt hi)

theorem release {sys : MutexSys} (hs : Booked s L) (hS' : sys.kernel.Steady L')
    (hsame : SamePriorities s.sys.kernel sys.kernel)
    (hmutexes : sys.mutexes = (s.sys.setOwner m none).mutexes) (hu : s.sys.owner m = some u)
    (hok : ReleaseOk s.sys m u) : Booked { s with sys } L' := by
  refine hs.keep hS' hsame fun t hlt ht => ?_
  have hothers : ∀ m', s.sys.owner m' = some t → m' = m := fun m' hm' => by
    by_contra hne
    exact ht m' (by rw [owner_of_setOwner hmutexes, if_neg hne, hm'])
  by_cases htu : t = u
  · subst htu
    exact hs.priority_of_saved hlt (hok hothers)
  · refine hs.free t hlt fun m' hm' => htu ?_
    rw [hothers m' hm', hu] at hm'
    exact (Option.some.inj hm').symm

theorem lend {sys : MutexSys} (hs : Booked s L) (hS' : sys.kernel.Steady L')
    (hprotocol : (s.sys.mutexes m).protocol = .prioInherit) (hu : s.sys.owner m = some u)
    (howner : sys.owner = s.sys.owner) (hlends : Lends s.sys.kernel u sys.kernel)
    (hok : SaveOk s.sys m) : Booked { s with sys } L' := by
  have hpriority : ∀ t, sys.priority t = if t = u then
      max (s.sys.priority u) (s.sys.priority s.sys.running) else s.sys.priority t :=
    priority_of_lends hlends
  have hmarked : ∀ t, sys.priorityInherited t =
      (decide (t = u) || s.sys.priorityInherited t) := hlends.inherited
  refine ⟨hS', fun t hlt ht => ?_, fun t hlt ht => ?_, fun t hlt ht => ?_⟩
  · rw [hmarked, Bool.or_eq_false_iff, decide_eq_false_iff_not] at ht
    rw [hpriority, if_neg ht.1]
    exact hs.unmarked t hlt ht.2
  · have horiginal : sys.originalPriority t = if t = s.sys.running ∧
        s.sys.priorityInherited u = false then s.sys.priority t else s.sys.originalPriority t :=
      hlends.original t
    rw [hmarked, Bool.or_eq_true, decide_eq_true_eq] at ht
    rw [horiginal]
    cases hi : s.sys.priorityInherited u with
    | true =>
        rw [if_neg (by simp)]
        obtain rfl | ht := ht
        · exact hs.saved t hlt hi
        · exact hs.saved t hlt ht
    | false =>
        obtain ⟨howner', hcaller⟩ := hok hprotocol u hu hi
        split
        · next hself =>
            -- the caller's saved priority is overwritten
            obtain ⟨rfl, -⟩ := hself
            exact hs.priority_of_saved hlt fun h => (hcaller h).symm
        · next hself =>
            obtain rfl | ht := ht
            · rw [howner' fun h => hself ⟨h, rfl⟩]
              exact hs.unmarked t hlt hi
            · exact hs.saved t hlt ht
  · change ∀ m, sys.owner m ≠ some t at ht
    rw [howner] at ht
    have htu : t ≠ u := fun h => ht m (h ▸ hu)
    rw [hpriority, if_neg htu]
    exact hs.free t hlt ht

theorem reset {sys : MutexSys} (hs : Booked s L) (hS' : sys.kernel.Steady L')
    (howner : sys.owner = s.sys.owner)
    (hreset : sys.kernel = s.sys.kernel.threadResetInheritedPriority) :
    Booked { s with sys } L' := by
  have hpriority : ∀ t, sys.priority t =
      if t = s.sys.running ∧ s.sys.priorityInherited t = true then s.sys.originalPriority t
      else s.sys.priority t := priority_of_reset hreset
  have hfields : ∀ t, sys.originalPriority t = s.sys.originalPriority t ∧
      sys.priorityInherited t = (decide (t ≠ s.sys.running) && s.sys.priorityInherited t) := by
    intro t
    rw [originalPriority, priorityInherited, hreset, threadResetInheritedPriority]
    by_cases ht : t = s.sys.kernel.runningThread
    · subst ht
      by_cases hi : (s.sys.kernel.threads s.sys.kernel.runningThread).priorityInherited = true
      · simp [Kernel.setThread, hi, originalPriority, running]
      · simp [Kernel.setThread, hi, originalPriority, running]
    · simp [Kernel.setThread, ht, originalPriority, priorityInherited, running]
  have hall : ∀ t < threadMax, s.sys.priority t = s.base t → sys.priority t = s.base t := by
    intro t hlt ht
    rw [hpriority]
    split
    · next h => exact hs.saved t hlt h.2
    · exact ht
  refine ⟨hS', fun t hlt ht => ?_, fun t hlt ht => ?_,
    fun t hlt ht => hall t hlt (hs.free t hlt ?_)⟩
  · by_cases hi : s.sys.priorityInherited t = true
    · have hself : t = s.sys.running := by
        by_contra hne
        rw [(hfields t).2, hi] at ht
        simp [hne] at ht
      rw [hpriority, if_pos ⟨hself, hi⟩]
      exact hs.saved t hlt hi
    · exact hall t hlt (hs.unmarked t hlt (Bool.eq_false_iff.mpr hi))
  · rw [(hfields t).2, Bool.and_eq_true] at ht
    rw [(hfields t).1]
    exact hs.saved t hlt ht.2
  · change ∀ m, sys.owner m ≠ some t at ht
    rwa [howner] at ht

theorem mutex {sys : MutexSys} (hs : Booked s L) (hok : s.RestoreOk (.mutex e))
    (hS' : sys.kernel.Steady L') (h : Effect s.sys L e sys L') : Booked { s with sys } L' := by
  cases h with
  | quiet _ hmutexes hsame | skip _ _ _ _ hmutexes hsame | park _ _ _ hmutexes hsame =>
      refine hs.keep hS' hsame fun t hlt ht => hs.free t hlt ?_
      rwa [owner_of_mutexes hmutexes] at ht
  | release m u hgives hmutexes hsame =>
      refine hs.release hS' hsame hmutexes hgives.1 ?_
      obtain ⟨hu, ⟨rfl, rfl⟩ | ⟨c, rfl⟩⟩ := hgives
      · exact hok hu
      · exact hok u hu
  | take m _ hfree hmutexes hsame =>
      refine hs.keep hS' hsame fun t hlt ht => hs.free t hlt fun m' hm' => ?_
      have hne : m' ≠ m := fun h => by
        rw [h, hfree] at hm'
        cases hm'
      exact ht m' (by rw [owner_of_setOwner hmutexes, if_neg hne, hm'])
  | lend m u he hpc hprotocol hu hmutexes hlends =>
      subst he
      exact hs.lend hS' hprotocol hu (owner_of_mutexes hmutexes) hlends (hok m hpc)
  | reset m _ _ hmutexes hreset => exact hs.reset hS' (owner_of_mutexes hmutexes) hreset

theorem steady_setThread {f : ThreadInfo → ThreadInfo} (hS : k.Steady L)
    (hf : ∀ i, (f i).status = i.status ∧ (f i).sleepTicks = i.sleepTicks) :
    (k.setThread t f).Steady L := by
  refine ⟨hS.threaded.setThread fun i => (hf i).1, hS.timeoutList, fun u hu hsleep => ?_⟩
  have hticks := hS.awake u hu hsleep
  by_cases hut : u = t
  · subst hut
    simpa [Kernel.setThread, (hf _).2] using hticks
  · simpa [Kernel.setThread, hut] using hticks

theorem syscall (hS : k.Steady L) :
    (k.syscallHandler.Steady L ∧ SamePriorities k k.syscallHandler) ∧
    k.syscallReturnEventHandler.Steady L ∧ SamePriorities k k.syscallReturnEventHandler := by
  refine ⟨⟨steady_setThread hS fun _ => ?_, SamePriorities.setThread fun _ => ?_⟩,
    steady_setThread hS fun _ => ?_, SamePriorities.setThread fun _ => ?_⟩
  all_goals first | exact ⟨rfl, rfl⟩ | rfl

/-- The setting goes to the saved priority of a marked thread, else to its priority. -/
theorem setting_fields (k : Kernel) (tid : Tid) (p : Priority) (t : Tid) :
    let i := (k.setThread tid fun i => if i.priorityInherited then { i with originalPriority := p }
      else { i with priority := p }).threads t
    i.priorityInherited = (k.threads t).priorityInherited ∧
    i.priority = (if t = tid ∧ (k.threads t).priorityInherited = false then p
      else (k.threads t).priority) ∧
    i.originalPriority = if t = tid ∧ (k.threads t).priorityInherited = true then p
      else (k.threads t).originalPriority := by
  by_cases ht : t = tid
  · subst ht
    cases hi : (k.threads t).priorityInherited with
    | false => simp [Kernel.setThread, hi]
    | true => simp [Kernel.setThread, hi]
  · simp [Kernel.setThread, ht]

theorem setschedparam (hs : Booked s L) (hok : SetOk s.sys tid schedPriority) :
    Booked (s.setschedparam tid schedPriority) L := by
  obtain ⟨⟨hS₁, hsame₁⟩, -⟩ := syscall hs.steady
  rw [PrioSys.setschedparam]
  obtain ⟨-, error, heq⟩ | ⟨hsettable, heq⟩ :=
    sysPthreadSetschedparam_cases s.sys.kernel.syscallHandler tid schedPriority
  · rw [heq]
    obtain ⟨-, hS₂, hsame₂⟩ := syscall hS₁
    have hkept : Booked { s with sys := { s.sys with kernel := _ } } L :=
      hs.keep hS₂ (hsame₁.trans hsame₂) hs.free
    exact hkept
  · rw [heq]
    have hfields := setting_fields s.sys.kernel.syscallHandler tid
      (Fin.ofNat _ schedPriority.toNat)
    have hok := hok hsettable
    generalize (Fin.ofNat _ schedPriority.toNat : Priority) = p at hfields hok
    generalize hk₂ : (s.sys.kernel.syscallHandler.setThread tid fun i =>
      if i.priorityInherited then { i with originalPriority := p }
      else { i with priority := p }) = k₂ at hfields
    have hS₂ : k₂.Steady L := hk₂ ▸ steady_setThread hS₁ fun i => by split <;> exact ⟨rfl, rfl⟩
    obtain ⟨-, hS₃, hsame₃⟩ := syscall hS₂
    have hmarked : ∀ t, (k₂.syscallReturnEventHandler.threads t).priorityInherited =
        s.sys.priorityInherited t := fun t =>
      ((hsame₃.inherited t).trans (hfields t).1).trans (hsame₁.inherited t)
    have hpriority : ∀ t, (k₂.syscallReturnEventHandler.threads t).priority =
        if t = tid ∧ s.sys.priorityInherited t = false then p else s.sys.priority t := fun t => by
      rw [hsame₃.priority, (hfields t).2.1, hsame₁.inherited, hsame₁.priority]
      rfl
    have horiginal : ∀ t, (k₂.syscallReturnEventHandler.threads t).originalPriority =
        if t = tid ∧ s.sys.priorityInherited t = true then p else s.sys.originalPriority t :=
      fun t => by
        rw [hsame₃.original, (hfields t).2.2, hsame₁.inherited, hsame₁.original]
        rfl
    refine ⟨hS₃, fun t hlt ht => (hpriority t).trans ?_, fun t hlt ht => (horiginal t).trans ?_,
      fun t hlt ht => (hpriority t).trans ?_⟩
    · replace ht := (hmarked t).symm.trans ht
      by_cases htid : t = tid
      · subst htid
        simp [ht]
      · simp [htid, hs.unmarked t hlt ht]
    · replace ht := (hmarked t).symm.trans ht
      by_cases htid : t = tid
      · subst htid
        simp [ht]
      · simp [htid, hs.saved t hlt ht]
    · change ∀ m, s.sys.owner m ≠ some t at ht
      by_cases htid : t = tid
      · subst htid
        cases hi : s.sys.priorityInherited t with
        | false => simp
        | true => simp [hok hi ht]
      · simp [htid, hs.free t hlt ht]

theorem step {e : PrioEvent} (hs : Booked s L) (hok : s.RestoreOk e)
    (hstep : s.step e = some s') : ∃ L', Booked s' L' := by
  cases e with
  | mutex e =>
      obtain ⟨sys, hsys, rfl⟩ := Option.map_eq_some_iff.mp hstep
      obtain ⟨L', hS', heffect⟩ := step_effect hs.steady hsys
      exact ⟨L', hs.mutex hok hS' heffect⟩
  | setschedparam tid schedPriority =>
      simp only [PrioSys.step, Option.ite_none_right_eq_some, Option.some.injEq] at hstep
      obtain ⟨-, rfl⟩ := hstep
      exact ⟨L, hs.setschedparam hok⟩

end Booked

/-- In every run whose steps meet the condition, a thread that owns no mutex has the
priority it was given last. -/
theorem givenBack_of_restoreOk {s₀ s : PrioSys} {es : List PrioEvent} (hstart : Started s₀)
    (hok : Runs.AllOk RestoreOk step s₀ es) (hrun : Runs.exec step s₀ es = some s) :
    s.GivenBack := by
  obtain ⟨L, hS⟩ := hstart.sys.steady
  have hbooked : Booked s₀ L := by
    refine ⟨hS, fun t hlt _ => (hstart.base t hlt).1, fun t hlt ht => ?_,
      fun t hlt _ => (hstart.base t hlt).1⟩
    rw [(hstart.base t hlt).2] at ht
    cases ht
  obtain ⟨L', hs⟩ := Runs.exec_invariant (I := fun s => ∃ L, Booked s L)
    (fun _ _ _ ⟨_, hs⟩ hok hstep => hs.step hok hstep) ⟨L, hbooked⟩ hok hrun
  exact hs.free

/-- Mutexes that nobody has used, and threads with their base priority. -/
def givenOn (k : Kernel) : PrioSys := ⟨inheritOn k, (inheritOn k).priority⟩

theorem givenOn_started {k : Kernel} (hk : k.Settled) (hboot : k.AtBoot)
    (hmarked : ∀ t < threadMax, (k.threads t).priorityInherited = false) : (givenOn k).Started :=
  ⟨inheritOn_started hk hboot, fun t hlt => ⟨rfl, hmarked t hlt⟩⟩

theorem userKernel_given : (givenOn userKernel).Started :=
  givenOn_started userKernel_settled (by decide +kernel) (by decide +kernel)

theorem liftKernel_given : (givenOn liftKernel).Started :=
  givenOn_started liftKernel_settled (by decide +kernel) (by decide +kernel)

/-- The condition with the mutexes below 2 in place of all, for threads that do not wait
for conditions. It can be evaluated and is the stronger one. -/
def RestoreOkBelowTwo (s : PrioSys) : PrioEvent → Prop
  | .mutex .advance =>
      match s.sys.pc s.sys.running with
      | .lockInherit m => SaveOk s.sys m
      | _ => True
  | .mutex (.unlock m) => (∀ m' < 2, s.sys.owner m' = some s.sys.running → m' = m) →
      s.sys.priorityInherited s.sys.running = true →
      s.sys.priority s.sys.running = s.sys.originalPriority s.sys.running
  | .mutex (.condWait _ _) => False
  | .setschedparam tid _ => s.sys.priorityInherited tid = false
  | .mutex _ => True

instance decidableRestoreOkBelowTwo (s : PrioSys) : (e : PrioEvent) →
    Decidable (s.RestoreOkBelowTwo e)
  | .mutex .advance =>
      match h : s.sys.pc s.sys.running with
      | .lockInherit m => decidable_of_iff
          ((s.sys.mutexes m).protocol = .prioInherit → ∀ u ∈ s.sys.owner m,
            s.sys.priorityInherited u = false →
            (u ≠ s.sys.running → s.sys.originalPriority u = s.sys.priority u) ∧
            (s.sys.priorityInherited s.sys.running = true →
              s.sys.originalPriority s.sys.running = s.sys.priority s.sys.running))
          (by simp only [RestoreOkBelowTwo, h, SaveOk])
      | .outside | .lockEnter _ | .lockSchedule _ | .lockRetry _ | .lockReset _ | .lockReturn _
      | .condReturn _ _ => .isTrue (by simp only [RestoreOkBelowTwo, h])
  | .mutex (.unlock _) => inferInstanceAs (Decidable ((∀ m' < 2, _) → _ → _))
  | .mutex (.condWait _ _) => inferInstanceAs (Decidable False)
  | .setschedparam _ _ => inferInstanceAs (Decidable (_ = _))
  | .mutex (.lock _) | .mutex (.trylock _) | .mutex (.condSignal _) | .mutex (.condBroadcast _)
  | .mutex (.delayTicks _) | .mutex .schedYield | .mutex (.systemTicks _) | .mutex .schedule =>
      inferInstanceAs (Decidable True)

theorem RestoreOkBelowTwo.restoreOk (s : PrioSys) (e : PrioEvent) (h : s.RestoreOkBelowTwo e) :
    s.RestoreOk e := by
  cases e with
  | setschedparam tid schedPriority =>
      intro _ hi
      rw [show s.sys.priorityInherited tid = false from h] at hi
      cases hi
  | mutex e =>
      cases e with
      | advance =>
          intro m hpc
          simpa only [RestoreOkBelowTwo, hpc] using h
      | unlock m => exact fun _ hlast => h fun m' _ => hlast m'
      | condWait c m => exact h.elim
      | _ => trivial

/-- Thread 5 gives thread 4 the lowest priority and waits for the mutex that it has locked.
Thread 4 is raised, locks a second mutex and is back at its priority. -/
def restoreRun : List PrioEvent :=
  [.setschedparam 4 0, .mutex (.delayTicks 1), .mutex .schedule, .mutex .schedule,
    .mutex (.lock 0), .mutex .advance, .mutex .advance, .mutex .advance,
    .mutex (.systemTicks fun _ => false), .mutex .schedule,
    .mutex (.lock 0), .mutex .advance, .mutex .advance, .mutex .advance,
    .mutex (.lock 1), .mutex .advance, .mutex .advance, .mutex .advance,
    .mutex (.unlock 0), .mutex (.unlock 1)]

theorem givenBack_of_restoreOk_at_restore :
    ∃ s, Runs.exec step (givenOn userKernel) restoreRun = some s ∧ s.base 4 = 0 ∧ s.GivenBack := by
  have hrun : (Runs.exec step (givenOn userKernel) restoreRun).map (fun s => s.base 4) =
      some 0 := by decide +kernel
  obtain ⟨s, hs, hbase⟩ := Option.map_eq_some_iff.mp hrun
  have hok : Runs.AllOk RestoreOkBelowTwo step (givenOn userKernel) restoreRun := by
    decide +kernel
  exact ⟨s, hs, hbase, givenBack_of_restoreOk userKernel_given
    (Runs.allOk_mono RestoreOkBelowTwo.restoreOk hok) hs⟩

def placeMutex : MutexPc → Option Nat
  | .lockEnter m | .lockInherit m | .lockSchedule m | .lockRetry m | .lockReset m | .lockReturn m
  | .condReturn _ m => some m
  | .outside => none

def eventMutex : MutexEvent → Option Nat
  | .lock m | .trylock m | .unlock m | .condWait _ m => some m
  | _ => none

/-- No thread has the mutex or is in a call for it. -/
def Unused (m : Nat) (s : MutexSys) : Prop :=
  s.owner m = none ∧ ∀ t, placeMutex (s.pc t) ≠ some m

namespace Unused
variable {s s' : MutexSys} {m' : Nat} {o : Option Tid} {pc : MutexPc}

theorem setPc (h : Unused m s) (hpc : placeMutex pc ≠ some m) : Unused m (s.setPc pc) := by
  refine ⟨h.1, fun t => ?_⟩
  rw [pc_setPc]
  split
  · exact hpc
  · exact h.2 t

theorem setOwner (h : Unused m s) (hm : m' ≠ m) : Unused m (s.setOwner m' o) := by
  refine ⟨?_, h.2⟩
  rw [owner_setOwner, if_neg hm.symm]
  exact h.1

theorem ne_of_place (h : Unused m s) {t : Tid} (hpc : placeMutex (s.pc t) = some m') : m' ≠ m := by
  rintro rfl
  exact h.2 t hpc

theorem step (h : Unused m s) (he : eventMutex e ≠ some m) (hstep : s.step e = some s') :
    Unused m s' := by
  have hlock : ∀ m', s.pc s.running = .lockEnter m' ∨ s.pc s.running = .lockRetry m' → m' ≠ m := by
    rintro m' (hpc | hpc)
    · exact h.ne_of_place (congrArg placeMutex hpc)
    · exact h.ne_of_place (congrArg placeMutex hpc)
  have hcall : ∀ m', eventMutex e = some m' → m' ≠ m := fun m' hm' hm => he (hm ▸ hm')
  cases step_cases hstep with
  | queue m' hpc hst howned =>
      exact setPc (s := s.waitOn _) h (by simpa [placeMutex] using hlock m' hpc)
  | take m' hpc hst hfree =>
      exact (h.setOwner (hlock m' hpc)).setPc (by simpa [placeMutex] using hlock m' hpc)
  | inherit m' k hpc hin hk =>
      have hm := h.ne_of_place (congrArg placeMutex hpc)
      exact setPc (s := { s with kernel := k }) h (by simpa [placeMutex] using hm)
  | park m' k hpc hin hk =>
      have hm := h.ne_of_place (congrArg placeMutex hpc)
      exact h.setPc (by simpa [placeMutex] using hm)
  | reset m' hpc hst =>
      have hm := h.ne_of_place (congrArg placeMutex hpc)
      exact setPc (s := { s with kernel := _ }) h (by simpa [placeMutex] using hm)
  | enter m' hpc hst => exact setPc (s := s.setInside _ true) h (by simp [placeMutex])
  | lock m' hst hout => exact h.setPc (by simpa [placeMutex] using hcall m' rfl)
  | got m' hst hout hfree =>
      exact (h.setOwner (hcall m' rfl)).setPc (by simpa [placeMutex] using hcall m' rfl)
  | unlock m' k hst hout howner hk =>
      exact setOwner (s := s.setInside m' false) h (hcall m' rfl)
  | condWait c m' hst hout howned =>
      have hfreed := setOwner (s := s.setInside m' false) (o := none) h (hcall m' rfl)
      exact setPc (s := waitOn _ _) hfreed (by simpa [placeMutex] using hcall m' rfl)
  | condPass c m' hst hout hfree =>
      exact setPc (s := s.setInside m' false) h (by simpa [placeMutex] using hcall m' rfl)
  | busy | refused | condSignal | condBroadcast | delayTicks | schedYield | systemTicks
  | schedule => exact h

end Unused

theorem givenOn_unused (k : Kernel) (m : Nat) : Unused m (givenOn k).sys :=
  ⟨rfl, fun _ => by simp [givenOn, inheritOn, placeMutex]⟩

theorem Unused.prioStep {e : PrioEvent} (h : Unused m s.sys)
    (he : ∀ e', e = .mutex e' → eventMutex e' ≠ some m) (hstep : s.step e = some s') :
    Unused m s'.sys := by
  cases e with
  | mutex e =>
      obtain ⟨sys, hsys, rfl⟩ := Option.map_eq_some_iff.mp hstep
      exact h.step (he e rfl) hsys
  | setschedparam tid schedPriority =>
      simp only [PrioSys.step, Option.ite_none_right_eq_some, Option.some.injEq] at hstep
      obtain ⟨-, rfl⟩ := hstep
      rw [PrioSys.setschedparam]
      split <;> exact h

/-- Thread 5 is raised by thread 4 and unlocks the only mutex it has. -/
def keepRun : List PrioEvent := lendRun.map .mutex ++ [.mutex (.unlock 0)]

/-- Nothing in `mutex_unlock` takes the raised priority back. -/
theorem givenBack_not_after_unlock : (givenOn liftKernel).Started ∧
    ∃ s, Runs.exec step (givenOn liftKernel) keepRun = some s ∧ ¬ s.GivenBack := by
  have hrun : (Runs.exec step (givenOn liftKernel) keepRun).map (fun s =>
      (s.sys.owner 0, s.sys.priority 5, s.base 5)) = some (none, 8, 1) := by decide +kernel
  obtain ⟨s, hs, hfacts⟩ := Option.map_eq_some_iff.mp hrun
  obtain ⟨howner, hpriority, hbase⟩ : s.sys.owner 0 = none ∧ s.sys.priority 5 = 8 ∧
      s.base 5 = 1 := by simpa using hfacts
  have hnames : ∀ e ∈ keepRun, ∀ e', e = .mutex e' →
      eventMutex e' = none ∨ eventMutex e' = some 0 := by
    simp [keepRun, lendRun, eventMutex]
  have hfree : ∀ m, s.sys.owner m = none := fun m => by
    by_cases hm : m = 0
    · exact hm ▸ howner
    · have hok : Runs.AllOk (fun _ e => ∀ e', e = PrioEvent.mutex e' → eventMutex e' ≠ some m) step
          (givenOn liftKernel) keepRun := by
        refine Runs.allOk_of_forall fun e he _ e' heq => ?_
        obtain h | h := hnames e he e' heq
        · simp [h]
        · simpa [h] using fun h0 => hm h0.symm
      exact (Runs.exec_invariant (fun _ _ _ => Unused.prioStep)
        (givenOn_unused liftKernel m) hok hs).1
  refine ⟨liftKernel_given, s, hs, fun hback => ?_⟩
  have heq := hback 5 (by decide) fun m => by simp [hfree m]
  rw [hpriority, hbase] at heq
  exact absurd heq (by decide)

end PrioSys

end Tenok
