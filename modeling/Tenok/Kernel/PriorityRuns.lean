import Tenok.Kernel.Priority

/-!
Priority inheritance over whole runs: whether the owner of a mutex protects the threads
blocked on it, and whether an inherited priority is given back.
-/
namespace Tenok
open Ring Queues

namespace MutexSys
open Kernel
variable {s s' : MutexSys} {L L' : SchedList → List Tid} {m : Nat} {t u : Tid} {e : MutexEvent}

theorem owner_of_mutexes (h : s'.mutexes = s.mutexes) : s'.owner = s.owner := by
  funext m
  rw [owner, owner, h]

theorem owner_of_setOwner {o : Option Tid} (h : s'.mutexes = (s.setOwner m o).mutexes) (m' : Nat) :
    s'.owner m' = if m' = m then o else s.owner m' := by
  rw [owner_of_mutexes h, owner_setOwner]

theorem Effect.protocol (h : Effect s L e s' L') (m : Nat) :
    (s'.mutexes m).protocol = (s.mutexes m).protocol := by
  have hset : ∀ m' o, ((s.setOwner m' o).mutexes m).protocol = (s.mutexes m).protocol := by
    intro m' o
    by_cases hm : m = m'
    · simp [setOwner, hm]
    · simp [setOwner, hm]
  cases h with
  | release m' _ _ hmutexes => rw [hmutexes, hset]
  | take m' _ _ hmutexes => rw [hmutexes, hset]
  | quiet _ hmutexes | skip _ _ _ _ hmutexes | lend _ _ _ _ _ _ hmutexes | park _ _ _ hmutexes
  | reset _ _ _ hmutexes => rw [hmutexes]

theorem SamePriorities.priority_eq (h : SamePriorities s.kernel s'.kernel) :
    s'.priority = s.priority :=
  funext h.priority

/-- Only mutexes with priority inheritance, and the thread that is about to call `schedule`
has raised the owner it waits for. -/
structure Ranked (s : MutexSys) (L : SchedList → List Tid) : Prop where
  steady : s.kernel.Steady L
  protocol : ∀ m, (s.mutexes m).protocol = .prioInherit
  poised : ∀ m t u, Poised s L m t → s.owner m = some u → s.priority t ≤ s.priority u

/-- What `Protected` says, in terms of the lists. -/
def ProtectedIn (s : MutexSys) (L : SchedList → List Tid) : Prop :=
  ∀ m t u, Blocked s L m t → s.owner m = some u → s.priority t ≤ s.priority u

theorem protected_iff (hS : s.kernel.Steady L) : s.Protected ↔ ProtectedIn s L :=
  ⟨fun h m t u hb => h t m u ((blockedOn_eq_some hS).mpr hb),
    fun h t m u hb => h m t u ((blockedOn_eq_some hS).mp hb)⟩

theorem lt_threadMax_of_blocked (hS : s.kernel.Steady L) (h : Blocked s L m t) : t < threadMax :=
  hS.threaded.lt_max t (hS.threaded.alive h.1)

theorem Takes.inheritOk_iff (h : s.Takes e m) : s.InheritOk e ↔ s.TakeOk m := by
  obtain rfl | ⟨rfl, hpc | hpc⟩ := h
  · rfl
  · simp only [InheritOk, hpc, AdvanceOk]
  · simp only [InheritOk, hpc, AdvanceOk]

theorem Gives.inheritOk (h : s.Gives e m u) : s.InheritOk e := by
  obtain ⟨-, ⟨rfl, -⟩ | ⟨c, rfl⟩⟩ := h <;> trivial

theorem priority_of_lends (h : Lends s.kernel u s'.kernel) (t : Tid) :
    s'.priority t = if t = u then max (s.priority u) (s.priority s.running) else s.priority t :=
  h.priority t

theorem le_priority_of_lends (h : Lends s.kernel u s'.kernel) (t : Tid) :
    s.priority t ≤ s'.priority t := by
  rw [priority_of_lends h]
  split
  · next ht =>
      subst ht
      exact le_max_left ..
  · exact le_refl _

theorem priority_of_reset (h : s'.kernel = s.kernel.threadResetInheritedPriority) (t : Tid) :
    s'.priority t = if t = s.running ∧ s.priorityInherited t = true then s.originalPriority t
      else s.priority t := by
  rw [priority, h, threadResetInheritedPriority]
  by_cases ht : t = s.running
  · subst ht
    by_cases hi : s.priorityInherited s.running = true
    · have hi' : (s.kernel.threads s.kernel.runningThread).priorityInherited = true := hi
      simp [Kernel.setThread, running, priorityInherited, hi', originalPriority]
    · have hi' : ¬ (s.kernel.threads s.kernel.runningThread).priorityInherited = true := hi
      simp [Kernel.setThread, hi', priority, hi]
  · have ht' : t ≠ s.kernel.runningThread := ht
    simp [Kernel.setThread, ht', ht, priority]

namespace ProtectedIn

theorem fewer (hP : ProtectedIn s L) (hsame : SamePriorities s.kernel s'.kernel)
    (howner : ∀ m u, s'.owner m = some u → s.owner m = some u)
    (hblocked : ∀ m t, Blocked s' L' m t → Blocked s L m t) : ProtectedIn s' L' := by
  intro m t u hb hu
  rw [hsame.priority_eq]
  exact hP m t u (hblocked m t hb) (howner m u hu)

theorem take_iff (hP : ProtectedIn s L) (hS : s.kernel.Steady L) (hfree : s.owner m = none)
    (hmutexes : s'.mutexes = (s.setOwner m s.running).mutexes)
    (hsame : SamePriorities s.kernel s'.kernel)
    (hblocked : ∀ m t, Blocked s' L' m t ↔ Blocked s L m t) :
    s.TakeOk m ↔ ProtectedIn s' L' := by
  have howner := owner_of_setOwner hmutexes
  refine ⟨fun hok m' t u hb hu => ?_, fun h _ t _ hb => ?_⟩
  · rw [hsame.priority_eq]
    rw [hblocked] at hb
    rw [howner] at hu
    split at hu
    · next hm =>
        subst hm
        obtain rfl := Option.some.inj hu
        exact hok hfree t (lt_threadMax_of_blocked hS hb) ((blockedOn_eq_some hS).mpr hb)
    · exact hP m' t u hb hu
  · have hb' := (hblocked m t).mpr ((blockedOn_eq_some hS).mp hb)
    have hle := h m t s.running hb' (by rw [howner, if_pos rfl])
    rwa [hsame.priority_eq] at hle

theorem lend_iff (hP : ProtectedIn s L) (hS : s.kernel.Steady L) (hu : s.owner m = some u)
    (howner : s'.owner = s.owner) (hlends : Lends s.kernel u s'.kernel)
    (hblocked : ∀ m t, Blocked s' L' m t ↔ Blocked s L m t) :
    s.LendOk m ↔ ProtectedIn s' L' := by
  refine ⟨fun hok m' t w hb hw => ?_, fun h u' hu' hlt m' hm' w hw hne => ?_⟩
  · rw [hblocked] at hb
    rw [howner] at hw
    by_cases ht : t = u
    · subst ht
      by_cases hwt : w = t
      · rw [hwt]
      · -- the owner that was raised is blocked on the mutex of a third thread
        rw [priority_of_lends hlends, if_pos rfl, priority_of_lends hlends, if_neg hwt]
        refine max_le (hP m' t w hb hw) ?_
        by_cases hlt : s.priority t < s.priority s.running
        · exact hok t hu hlt m' ((blockedOn_eq_some hS).mpr hb) w hw hwt
        · exact (not_lt.mp hlt).trans (hP m' t w hb hw)
    · rw [priority_of_lends hlends, if_neg ht]
      exact (hP m' t w hb hw).trans (le_priority_of_lends hlends w)
  · obtain rfl : u' = u := Option.some.inj (hu'.symm.trans hu)
    have hb := (hblocked m' u').mpr ((blockedOn_eq_some hS).mp hm')
    have hle := h m' u' w hb (by rw [howner]; exact hw)
    rw [priority_of_lends hlends, if_pos rfl, priority_of_lends hlends, if_neg hne] at hle
    exact (le_max_right ..).trans hle

theorem reset_iff {m₀ : Nat} (hP : ProtectedIn s L) (hS : s.kernel.Steady L)
    (hpc : s.pc s.running = .lockReset m₀) (howner : s'.owner = s.owner)
    (hreset : s'.kernel = s.kernel.threadResetInheritedPriority)
    (hblocked : ∀ m t, Blocked s' L' m t ↔ Blocked s L m t) :
    s.ResetOk ↔ ProtectedIn s' L' := by
  have hother : ∀ m t, Blocked s L m t → t ≠ s.running := by
    rintro m t hb rfl
    cases hpc.symm.trans hb.2
  refine ⟨fun hok m t w hb hw => ?_, fun h hi t _ m hm hown => ?_⟩
  · rw [hblocked] at hb
    rw [howner] at hw
    rw [priority_of_reset hreset, if_neg fun h => hother m t hb h.1, priority_of_reset hreset]
    split
    · next hreset =>
        obtain ⟨rfl, hi⟩ := hreset
        exact hok hi t (lt_threadMax_of_blocked hS hb) m ((blockedOn_eq_some hS).mpr hb) hw
    · exact hP m t w hb hw
  · have hb := (blockedOn_eq_some hS).mp hm
    have hle := h m t s.running ((hblocked m t).mpr hb) (by rw [howner]; exact hown)
    rwa [priority_of_reset hreset, if_neg fun h => hother m t hb h.1, priority_of_reset hreset,
      if_pos ⟨rfl, hi⟩] at hle

end ProtectedIn

/-- The condition on a step says exactly whether the blocked threads stay protected. -/
theorem Effect.inheritOk_iff (h : Effect s L e s' L') (hs : Ranked s L) (hP : ProtectedIn s L) :
    s.InheritOk e ↔ ProtectedIn s' L' := by
  cases h with
  | quiet hok hmutexes hsame hfewer =>
      refine iff_of_true hok (hP.fewer hsame (fun m u hu => ?_) hfewer.blocked)
      rwa [owner_of_mutexes hmutexes] at hu
  | release m u hgives hmutexes hsame hfewer =>
      refine iff_of_true hgives.inheritOk (hP.fewer hsame (fun m' u hu => ?_) hfewer.blocked)
      rw [owner_of_setOwner hmutexes] at hu
      split at hu
      · cases hu
      · exact hu
  | take m htakes hfree hmutexes hsame hblocked =>
      exact htakes.inheritOk_iff.trans (hP.take_iff hs.steady hfree hmutexes hsame hblocked)
  | skip m _ _ hprotocol => exact absurd (hs.protocol m) hprotocol
  | lend m u he hpc _ hu hmutexes hlends hblocked =>
      subst he
      simp only [InheritOk, hpc, AdvanceOk]
      exact hP.lend_iff hs.steady hu (owner_of_mutexes hmutexes) hlends hblocked
  | park m he hpc hmutexes hsame hblocked =>
      subst he
      refine iff_of_true (by simp only [InheritOk, hpc, AdvanceOk]) fun m' t u hb hu => ?_
      rw [owner_of_mutexes hmutexes] at hu
      rw [hsame.priority_eq]
      obtain hb | hp := hblocked m' t hb
      · exact hP m' t u hb hu
      · exact hs.poised m' t u hp hu
  | reset m he hpc hmutexes hreset hblocked =>
      subst he
      simp only [InheritOk, hpc, AdvanceOk]
      exact hP.reset_iff hs.steady hpc (owner_of_mutexes hmutexes) hreset hblocked

theorem Ranked.step (hs : Ranked s L) (hS' : s'.kernel.Steady L') (h : Effect s L e s' L') :
    Ranked s' L' := by
  refine ⟨hS', fun m => (h.protocol m).trans (hs.protocol m), fun m t u hp hu => ?_⟩
  cases h with
  | quiet _ hmutexes hsame hfewer =>
      rw [owner_of_mutexes hmutexes] at hu
      rw [hsame.priority_eq]
      exact hs.poised m t u (hfewer.poised m t hp) hu
  | release m' _ _ hmutexes hsame hfewer =>
      rw [owner_of_setOwner hmutexes] at hu
      split at hu
      · cases hu
      · rw [hsame.priority_eq]
        exact hs.poised m t u (hfewer.poised m t hp) hu
  | skip m' _ _ hprotocol => exact absurd (hs.protocol m') hprotocol
  | lend m' u' _ _ _ hu' hmutexes hlends _ hpoised =>
      obtain ⟨rfl, rfl⟩ := hpoised m t hp
      rw [owner_of_mutexes hmutexes, hu'] at hu
      obtain rfl := Option.some.inj hu
      rw [priority_of_lends hlends u', if_pos rfl, priority_of_lends hlends]
      split
      · exact le_refl _
      · exact le_max_right ..
  | take _ _ _ _ _ _ hpoised => exact absurd hp (hpoised m t)
  | park _ _ _ _ _ _ hpoised => exact absurd hp (hpoised m t)
  | reset _ _ _ _ _ _ hpoised => exact absurd hp (hpoised m t)

/-- In a run of threads that lock and unlock mutexes with priority inheritance, the owners
protect the blocked threads in every state exactly when all steps meet the condition. -/
theorem inheritOk_iff_protected {s₀ s : MutexSys} {es : List MutexEvent} (hstart : Started s₀)
    (hinherit : ∀ m, (s₀.mutexes m).protocol = .prioInherit)
    (hrun : Runs.exec step s₀ es = some s) :
    Runs.AllOk InheritOk step s₀ es ↔
      ∀ n s', Runs.exec step s₀ (es.take n) = some s' → s'.Protected := by
  obtain ⟨L, hS⟩ := hstart.steady
  have hpoised : ∀ m t, ¬ Poised s₀ L m t := fun m t h => by
    have hout := (hstart.outside t).1
    rw [h.2.2] at hout
    cases hout
  have hranked : Ranked s₀ L := ⟨hS, hinherit, fun m t u h => absurd h (hpoised m t)⟩
  have hP : s₀.Protected := fun t m u _ hu => by
    rw [(hstart.mutexes m).1] at hu
    cases hu
  refine Runs.allOk_iff_forall_take (I := fun s => ∃ L, Ranked s L) ?_ ?_ ⟨L, hranked⟩ hP hrun
  · rintro s e s' ⟨L, hs⟩ hstep
    obtain ⟨L', hS', heffect⟩ := step_effect hs.steady hstep
    exact ⟨L', hs.step hS' heffect⟩
  · rintro s e s' ⟨L, hs⟩ hP hstep
    obtain ⟨L', hS', heffect⟩ := step_effect hs.steady hstep
    rw [protected_iff hS']
    exact heffect.inheritOk_iff hs ((protected_iff hs.steady).mp hP)

def inheritOn (k : Kernel) : MutexSys where
  kernel := k
  mutexes _ := { protocol := .prioInherit }
  pc _ := .outside
  inside _ _ := false

theorem inheritOn_started {k : Kernel} (hk : k.Settled) (hboot : k.AtBoot) :
    (inheritOn k).Started :=
  ⟨hk.consistent, hk.timeoutList, hk.awake,
    fun m => ⟨rfl, hboot.queue (q := .mutex m) hk rfl (by simp [bootLists])⟩,
    fun c => hboot.queue (q := .cond c) hk rfl (by simp [bootLists]), fun _ => ⟨rfl, fun _ => rfl⟩⟩

theorem inheritOn_protocol (k : Kernel) (m : Nat) :
    ((inheritOn k).mutexes m).protocol = .prioInherit := rfl

/-- Thread 5 gives thread 4 the highest priority that user threads can have. -/
def liftRun : List KernelEvent :=
  userRun ++ [.syscallHandler, .call (.pthreadSetschedparam 4 8), .syscallReturn]

def liftKernel : Kernel := (Runs.exec Kernel.step schedStart liftRun).getD schedStart

theorem liftRun_ok : Runs.AllOk EventOk Kernel.step schedStart liftRun ∧
    Runs.exec Kernel.step schedStart liftRun = some liftKernel := by
  have hsome : (Runs.exec Kernel.step schedStart liftRun).isSome = true := by decide +kernel
  refine ⟨by decide +kernel, (Option.some_get hsome).symm.trans ?_⟩
  rw [liftKernel, Option.get_eq_getD]

theorem liftKernel_settled : liftKernel.Settled :=
  ⟨⟨liftRun, liftRun_ok⟩, by decide +kernel, by decide +kernel⟩

theorem liftKernel_started : (inheritOn liftKernel).Started :=
  inheritOn_started liftKernel_settled (by decide +kernel)

def lendRun : List MutexEvent :=
  [.lock 0, .advance, .advance, .advance, .schedule, .lock 0, .advance, .advance, .advance]

theorem inheritOk_iff_protected_at_lend :
    ∃ s, Runs.exec step (inheritOn liftKernel) lendRun = some s ∧
      s.blockedOn 4 = some 0 ∧ s.Protected := by
  have hrun : (Runs.exec step (inheritOn liftKernel) lendRun).map (fun s => s.blockedOn 4) =
      some (some 0) := by decide +kernel
  obtain ⟨s, hs, hblocked⟩ := Option.map_eq_some_iff.mp hrun
  have hall := (inheritOk_iff_protected liftKernel_started (inheritOn_protocol _) hs).mp
    (by decide +kernel)
  exact ⟨s, hs, hblocked, hall lendRun.length s (by simpa only [List.take_length] using hs)⟩

/-- Thread 5 goes on to lock mutex 1 and falls back to the priority 0, which nobody has
preserved for it, while thread 4 is still blocked. -/
theorem protected_not_for_two_mutexes : (inheritOn liftKernel).Started ∧
    (∀ m, ((inheritOn liftKernel).mutexes m).protocol = .prioInherit) ∧
    ∃ s, Runs.exec step (inheritOn liftKernel)
      (lendRun ++ [.lock 1, .advance, .advance, .advance]) = some s ∧ ¬ s.Protected := by
  have hrun : (Runs.exec step (inheritOn liftKernel)
      (lendRun ++ [.lock 1, .advance, .advance, .advance])).map (fun s =>
        (s.blockedOn 4, s.owner 0, s.priority 4, s.priority 5)) =
      some (some 0, some 5, 8, 0) := by decide +kernel
  obtain ⟨s, hs, hfacts⟩ := Option.map_eq_some_iff.mp hrun
  obtain ⟨hblocked, howner, hhigh, hlow⟩ : s.blockedOn 4 = some 0 ∧ s.owner 0 = some 5 ∧
      s.priority 4 = 8 ∧ s.priority 5 = 0 := by simpa using hfacts
  refine ⟨liftKernel_started, inheritOn_protocol _, s, hs, fun hP => ?_⟩
  have hle := hP 4 0 5 hblocked howner
  rw [hhigh, hlow] at hle
  exact absurd hle (by decide)

end MutexSys

end Tenok
