import Tenok.Kernel.MutexRuns

/-!
Calls of a driver that take its mutex first, and wait on its wait list while they have it. At most one
of them is past the mutex, and it alone can be on the list.
-/
namespace Tenok
open Queues Kernel

/-- The call that a thread is in, at a place of its function. -/
abbrev DriverCalls (P J : Type) := Tid → Option (P × J)

namespace DriverCalls
variable {P J : Type} {calls : DriverCalls P J} {x : Option (P × J)} {p p' : P} {j j' : J}
  {t u : Tid}

theorem update_cases (h : Function.update calls u x t = some (p, j)) :
    (t = u ∧ x = some (p, j)) ∨ (t ≠ u ∧ calls t = some (p, j)) := by
  by_cases ht : t = u
  · rw [ht, Function.update_self] at h
    exact Or.inl ⟨ht, h⟩
  · rw [Function.update_of_ne ht] at h
    exact Or.inr ⟨ht, h⟩

theorem unique (h : calls t = some (p, j)) (h' : calls t = some (p', j')) : p = p' ∧ j = j' :=
  Prod.mk.inj (Option.some.inj (h.symm.trans h'))

end DriverCalls

namespace MutexSys

/-- Threads that are in no call of the driver use other mutexes and sleep; the tick and the scheduler
come when they are allowed. -/
def Beside (m : Nat) (idle allowed : Prop) : MutexEvent → Prop
  | .lock m' | .trylock m' | .unlock m' => m' ≠ m ∧ idle
  | .advance | .delayTicks _ | .schedYield => idle
  | .systemTicks _ | .schedule => allowed
  | .condWait _ _ | .condSignal _ | .condBroadcast _ => False

instance decidableBeside (m : Nat) (idle allowed : Prop) [Decidable idle] [Decidable allowed] :
    (e : MutexEvent) → Decidable (Beside m idle allowed e)
  | .lock _ | .trylock _ | .unlock _ => inferInstanceAs (Decidable (_ ∧ idle))
  | .advance | .delayTicks _ | .schedYield => inferInstanceAs (Decidable idle)
  | .systemTicks _ | .schedule => inferInstanceAs (Decidable allowed)
  | .condWait _ _ | .condSignal _ | .condBroadcast _ => inferInstanceAs (Decidable False)

/-- The threads past the mutex own it, and no other thread is on the wait list. -/
structure Guards (s : MutexSys) (L : SchedList → List Tid) (m : Nat) (q : WaitQueue)
    (Past : Tid → Prop) : Prop where
  sound : s.Sound L
  inside : ∀ t, Past t → s.inside m t = true
  listed : ∀ t ∈ L (.wait q), Past t

variable {s s' : MutexSys} {L : SchedList → List Tid} {m : Nat} {q : WaitQueue}
  {Past : Tid → Prop} {idle allowed : Prop} {e : MutexEvent} {t u : Tid}

theorem Beside.allows (h : Beside m idle allowed e) (hidle : idle → allowed) : allowed := by
  cases e with
  | lock _ | trylock _ | unlock _ => exact hidle h.2
  | advance | delayTicks _ | schedYield => exact hidle h
  | systemTicks _ | schedule => exact h
  | condWait _ _ | condSignal _ | condBroadcast _ => exact h.elim

namespace Guards

theorem alone (hg : Guards s L m q Past) (ht : Past t) (hu : Past u) : t = u :=
  hg.sound.exclusive.atMostOne m t u (hg.inside t ht) (hg.inside u hu)

theorem queue_empty (hg : Guards s L m q Past) (hself : Past s.running) (hex : s.Executing) :
    L (.wait q) = [] := by
  refine List.eq_nil_iff_forall_not_mem.mpr fun t ht => ?_
  obtain rfl := hg.alone (hg.listed t ht) hself
  exact hg.sound.steady.threaded.notMem_of_running hex _ ht

/-- Nobody is past the mutex when the running thread has just got it. -/
theorem none_of_lockReturn (hg : Guards s L m q Past) (hpc : s.pc s.running = .lockReturn m)
    (hself : ¬ Past s.running) : (∀ t, ¬ Past t) ∧ L (.wait q) = [] := by
  have hnone : ∀ t, ¬ Past t := by
    intro t ht
    have howns := hg.sound.owns m t (Or.inl (hg.inside t ht))
    have hlock := hg.sound.owns m s.running (Or.inr (Or.inr hpc))
    obtain rfl : t = s.running := Option.some.inj (howns.symm.trans hlock)
    exact hself ht
  exact ⟨hnone, List.eq_nil_iff_forall_not_mem.mpr fun t ht => hnone t (hg.listed t ht)⟩

theorem wake {k' : Kernel} (hg : Guards s L m q Past) (hq : (SchedList.wait q).owner = none)
    (hwake : s.kernel.wakeUp (.wait q) = some k') : ∃ L', Kept {q} s.kernel L k' L' ∧
      L' (.wait q) = [] ∧
      ∀ t, Past t → t ∈ L (.wait q) ∨ RunnableIn s.kernel L t → RunnableIn k' L' t := by
  obtain ⟨L', hK, ⟨hempty, rfl, rfl⟩ | ⟨first, l, hl, rfl, rfl⟩⟩ :=
    hg.sound.steady.wakeUp hq hwake
  · refine ⟨L', hK, hempty, fun t _ h => h.resolve_left ?_⟩
    rw [hempty]
    exact List.not_mem_nil
  · have hrings := hg.sound.steady.threaded.rings
    have hw : l.foldl s.kernel.higher first ∈ L (.wait q) :=
      hl ▸ Threaded.foldl_higher_mem s.kernel first l
    refine ⟨_, hK, List.eq_nil_iff_forall_not_mem.mpr fun t ht => ?_, fun t ht _ => ?_⟩
    · obtain ⟨hne, ht⟩ | ⟨-, hg'⟩ := hrings.mem_transfer.mp ht
      · exact hne (hg.alone (hg.listed t ht) (hg.listed _ hw))
      · cases hg'
    · have heq := hg.alone ht (hg.listed _ hw)
      exact Or.inl ⟨_, hrings.mem_transfer.mpr (Or.inr ⟨heq, rfl⟩)⟩

theorem beside (hg : Guards s L m q Past) (hbeside : Beside m idle allowed e)
    (hidle : idle → ¬ Past s.running) (hstep : s.step e = some s') :
    ∃ L', Sound s' L' ∧ Kept ownQueues s.kernel L s'.kernel L' ∧
      ∀ t, Past t → s'.inside m t = true ∧
        (RunnableIn s.kernel L t → RunnableIn s'.kernel L' t) := by
  have hinside : ∀ t, Past t → s'.inside m t = true := by
    refine fun t ht => inside_step hstep (hg.inside t ht) fun _ => ⟨?_, ?_⟩
    · rintro rfl
      exact hbeside.1 rfl
    · rintro c rfl
      exact hbeside
  by_cases hclock : e = .schedule ∨ ∃ expired, e = .systemTicks expired
  · obtain ⟨L', hs', hK, hrun⟩ := hg.sound.clock hclock hstep
    exact ⟨L', hs', hK, fun t ht => ⟨hinside t ht, hrun t⟩⟩
  · have hout : ¬ Past s.running ∧ s.CondOk e := by
      cases e with
      | lock _ | trylock _ | unlock _ => exact ⟨hidle hbeside.2, trivial⟩
      | advance | delayTicks _ | schedYield => exact ⟨hidle hbeside, trivial⟩
      | condWait _ _ | condSignal _ | condBroadcast _ => exact hbeside.elim
      | systemTicks expired => exact absurd (Or.inr ⟨expired, rfl⟩) hclock
      | schedule => exact absurd (Or.inl rfl) hclock
    obtain ⟨L', hs', hK⟩ := hg.sound.step hout.2 hstep
    refine ⟨L', hs', hK, fun t ht => ⟨hinside t ht, hK.runnable t ?_⟩⟩
    rintro rfl
    exact hout.1 ht

end Guards

end MutexSys

end Tenok
