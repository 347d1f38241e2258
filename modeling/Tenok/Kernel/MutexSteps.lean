import Tenok.Kernel.Mutex
import Tenok.Kernel.Steady

/-!
What a step of `MutexSys` can be: one case for each way through the code, with its guards.
The invariants of the mutexes are proved by these cases.
-/
namespace Tenok

namespace MutexSys
variable {s s' : MutexSys} {m : Nat} {e : MutexEvent}

@[simp]
theorem owner_setPc (pc : MutexPc) : (s.setPc pc).owner = s.owner := rfl

@[simp]
theorem owner_setInside (b : Bool) : (s.setInside m b).owner = s.owner := rfl

theorem owner_setOwner (o : Option Tid) (m' : Nat) :
    (s.setOwner m o).owner m' = if m' = m then o else s.owner m' := by
  by_cases h : m' = m
  · simp [owner, setOwner, h]
  · simp [owner, setOwner, h]

theorem pc_setPc (pc : MutexPc) (t : Tid) :
    (s.setPc pc).pc t = if t = s.running then pc else s.pc t := by
  by_cases h : t = s.running
  · simp [setPc, h]
  · simp [setPc, h]

theorem inside_setInside (b : Bool) (m' : Nat) (t : Tid) :
    (s.setInside m b).inside m' t = if m' = m ∧ t = s.running then b else s.inside m' t := by
  by_cases hm : m' = m
  · subst hm
    by_cases ht : t = s.running
    · simp [setInside, ht]
    · simp [setInside, ht]
  · simp [setInside, hm]

theorem protocol_setOwner (o : Option Tid) (m' : Nat) :
    ((s.setOwner m o).mutexes m').protocol = (s.mutexes m').protocol := by
  by_cases hm : m' = m
  · simp [setOwner, hm]
  · simp [setOwner, hm]

def waitOn (s : MutexSys) (queue : WaitQueue) : MutexSys :=
  { s with kernel := s.kernel.prepareToWait (.wait queue) s.running .wait }

inductive Step (s : MutexSys) : MutexEvent → MutexSys → Prop
  /-- `mutex_trylock` inside `mutex_lock`, of a mutex that has an owner. -/
  | queue (m : Nat) (hpc : s.pc s.running = .lockEnter m ∨ s.pc s.running = .lockRetry m)
      (hst : s.Executing) (howned : s.owner m ≠ none) :
      Step s .advance ((s.waitOn (.mutex m)).setPc (.lockInherit m))
  | take (m : Nat) (hpc : s.pc s.running = .lockEnter m ∨ s.pc s.running = .lockRetry m)
      (hst : s.Executing) (hfree : s.owner m = none) :
      Step s .advance ((s.setOwner m s.running).setPc (.lockReset m))
  | inherit (m : Nat) (k : Kernel) (hpc : s.pc s.running = .lockInherit m) (hin : s.InLoop)
      (hk : s.kernel.threadInheritPriority (s.mutexes m) = some k) :
      Step s .advance (setPc { s with kernel := k } (.lockSchedule m))
  | park (m : Nat) (k : Kernel) (hpc : s.pc s.running = .lockSchedule m) (hin : s.InLoop)
      (hk : s.kernel.schedule = some k) :
      Step s .advance { s.setPc (.lockRetry m) with kernel := k }
  | reset (m : Nat) (hpc : s.pc s.running = .lockReset m) (hst : s.Executing) :
      Step s .advance
        (setPc { s with kernel := s.kernel.threadResetInheritedPriority } (.lockReturn m))
  | enter (m : Nat)
      (hpc : s.pc s.running = .lockReturn m ∨ ∃ c, s.pc s.running = .condReturn c m)
      (hst : s.Executing) : Step s .advance ((s.setInside m true).setPc .outside)
  | lock (m : Nat) (hst : s.Executing) (hout : s.pc s.running = .outside) :
      Step s (.lock m) (s.setPc (.lockEnter m))
  /-- `mutex_trylock` returns `-EBUSY`. -/
  | busy (m : Nat) (hst : s.Executing) (hout : s.pc s.running = .outside)
      (howned : s.owner m ≠ none) : Step s (.trylock m) (s.waitOn (.mutex m))
  | got (m : Nat) (hst : s.Executing) (hout : s.pc s.running = .outside)
      (hfree : s.owner m = none) :
      Step s (.trylock m) ((s.setOwner m s.running).setPc (.lockReturn m))
  /-- `mutex_unlock` returns `-EPERM`. -/
  | refused (m : Nat) (hst : s.Executing) (hout : s.pc s.running = .outside)
      (hother : s.owner m ≠ some s.running) : Step s (.unlock m) (s.setInside m false)
  | unlock (m : Nat) (k : Kernel) (hst : s.Executing) (hout : s.pc s.running = .outside)
      (howner : s.owner m = some s.running) (hk : s.kernel.wakeUp (.wait (.mutex m)) = some k) :
      Step s (.unlock m) { (s.setInside m false).setOwner m none with kernel := k }
  | condWait (c m : Nat) (hst : s.Executing) (hout : s.pc s.running = .outside)
      (howned : s.owner m ≠ none) :
      Step s (.condWait c m)
        ((((s.setInside m false).setOwner m none).waitOn (.cond c)).setPc (.condReturn c m))
  /-- A mutex that nobody has is not waited for. -/
  | condPass (c m : Nat) (hst : s.Executing) (hout : s.pc s.running = .outside)
      (hfree : s.owner m = none) :
      Step s (.condWait c m) ((s.setInside m false).setPc (.condReturn c m))
  | condSignal (c : Nat) (k : Kernel) (hst : s.Executing) (hout : s.pc s.running = .outside)
      (hk : s.kernel.wakeUp (.wait (.cond c)) = some k) :
      Step s (.condSignal c) { s with kernel := k }
  | condBroadcast (c : Nat) (k : Kernel) (hst : s.Executing) (hout : s.pc s.running = .outside)
      (hk : s.kernel.wakeUpAll (.wait (.cond c)) = some k) :
      Step s (.condBroadcast c) { s with kernel := k }
  | delayTicks (ticks : BitVec 32) (hst : s.Executing) (hout : s.pc s.running = .outside) :
      Step s (.delayTicks ticks) { s with kernel := (s.kernel.sysDelayTicks ticks).1 }
  | schedYield (hst : s.Executing) (hout : s.pc s.running = .outside) :
      Step s .schedYield { s with kernel := s.kernel.sysSchedYield.1 }
  | systemTicks (expired : Tid → Bool) (k : Kernel)
      (hk : s.kernel.systemTicksUpdate expired = some k) :
      Step s (.systemTicks expired) { s with kernel := k }
  | schedule (k : Kernel) (hk : s.kernel.schedule = some k) :
      Step s .schedule { s with kernel := k }

theorem lockPass_owned (howned : s.owner m ≠ none) :
    s.lockPass m = (s.waitOn (.mutex m)).setPc (.lockInherit m) := by
  rw [lockPass, mutexTrylock, if_pos howned, waitOn]

theorem lockPass_free (hfree : s.owner m = none) :
    s.lockPass m = (s.setOwner m s.running).setPc (.lockReset m) := by
  rw [lockPass, mutexTrylock, if_neg (not_not.mpr hfree)]

theorem step_lockPass (hpc : s.pc s.running = .lockEnter m ∨ s.pc s.running = .lockRetry m)
    (hst : s.Executing) : Step s .advance (s.lockPass m) := by
  by_cases hfree : s.owner m = none
  · rw [lockPass_free hfree]
    exact .take m hpc hst hfree
  · rw [lockPass_owned hfree]
    exact .queue m hpc hst hfree

theorem advance_cases (hstep : s.advance = some s') : Step s .advance s' := by
  simp only [advance] at hstep
  split at hstep
  · cases hstep
  · next m hpc =>
      obtain ⟨hst, rfl⟩ : s.Executing ∧ s.lockPass m = s' := by simpa using hstep
      exact step_lockPass (Or.inl hpc) hst
  · next m hpc =>
      obtain ⟨hst, rfl⟩ : s.Executing ∧ s.lockPass m = s' := by simpa using hstep
      exact step_lockPass (Or.inr hpc) hst
  · next m hpc =>
      obtain ⟨hin, hstep⟩ := (Option.ite_none_right_eq_some ..).mp hstep
      obtain ⟨k, hk, heq⟩ := Option.bind_eq_some_iff.mp hstep
      obtain rfl := Option.some.inj heq
      exact .inherit m k hpc hin hk
  · next m hpc =>
      obtain ⟨hin, hstep⟩ := (Option.ite_none_right_eq_some ..).mp hstep
      obtain ⟨k, hk, heq⟩ := Option.bind_eq_some_iff.mp hstep
      obtain rfl := Option.some.inj heq
      exact .park m k hpc hin hk
  · next m hpc =>
      obtain ⟨hst, rfl⟩ : s.Executing ∧ _ = s' := by simpa using hstep
      exact .reset m hpc hst
  · next m hpc =>
      obtain ⟨hst, rfl⟩ : s.Executing ∧ _ = s' := by simpa using hstep
      exact .enter m (Or.inl hpc) hst
  · next c m hpc =>
      obtain ⟨hst, rfl⟩ : s.Executing ∧ _ = s' := by simpa using hstep
      exact .enter m (Or.inr ⟨c, hpc⟩) hst

theorem call_cases (hst : s.Executing) (hout : s.pc s.running = .outside)
    (hcall : s.call e = some s') : Step s e s' := by
  cases e with
  | lock m =>
      obtain rfl := Option.some.inj hcall
      exact .lock m hst hout
  | trylock m =>
      simp only [call, mutexTrylock] at hcall
      by_cases howned : s.owner m ≠ none
      · rw [if_pos howned] at hcall
        obtain rfl := Option.some.inj hcall
        exact .busy m hst hout howned
      · rw [if_neg howned] at hcall
        obtain rfl := Option.some.inj hcall
        exact .got m hst hout (not_not.mp howned)
  | unlock m =>
      obtain ⟨r, hr, rfl⟩ := Option.map_eq_some_iff.mp hcall
      rw [mutexUnlock] at hr
      split at hr
      · next hother =>
          obtain rfl := Option.some.inj hr
          exact .refused m hst hout hother
      · next howner =>
          obtain ⟨k, hk, heq⟩ := Option.bind_eq_some_iff.mp hr
          obtain rfl := Option.some.inj heq
          exact .unlock m k hst hout (not_not.mp howner) hk
  | condWait c m =>
      obtain rfl := Option.some.inj hcall
      rw [sysPthreadCondWait]
      split
      · next howned => exact .condWait c m hst hout howned
      · next hfree => exact .condPass c m hst hout (not_not.mp hfree)
  | condSignal c =>
      obtain ⟨k, hk, heq⟩ := Option.bind_eq_some_iff.mp hcall
      obtain rfl := Option.some.inj heq
      exact .condSignal c k hst hout hk
  | condBroadcast c =>
      obtain ⟨k, hk, heq⟩ := Option.bind_eq_some_iff.mp hcall
      obtain rfl := Option.some.inj heq
      exact .condBroadcast c k hst hout hk
  | delayTicks ticks =>
      obtain rfl := Option.some.inj hcall
      exact .delayTicks ticks hst hout
  | schedYield =>
      obtain rfl := Option.some.inj hcall
      exact .schedYield hst hout
  | advance | systemTicks _ | schedule => cases hcall

theorem step_cases (hstep : s.step e = some s') : Step s e s' := by
  cases e with
  | advance => exact advance_cases hstep
  | systemTicks expired =>
      obtain ⟨k, hk, rfl⟩ := Option.map_eq_some_iff.mp hstep
      exact .systemTicks expired k hk
  | schedule =>
      obtain ⟨k, hk, rfl⟩ := Option.map_eq_some_iff.mp hstep
      exact .schedule k hk
  | lock _ | trylock _ | unlock _ | condWait _ _ | condSignal _ | condBroadcast _ | delayTicks _
  | schedYield =>
      obtain ⟨⟨hst, hout⟩, hcall⟩ := (Option.ite_none_right_eq_some ..).mp hstep
      exact call_cases hst hout hcall

end MutexSys

end Tenok
