import Tenok.Kernel.Daemons

/-!
`kernel/softirq.c`: the tasklets that wait for `softirqd`. `tasklet_init` leaves the links of a
tasklet as they are, and so does `list_del` when `softirqd` takes it off the list, but
`tasklet_schedule` unlinks a tasklet wherever its links lead.
-/
namespace Tenok
open Ring

structure TaskletSys where
  links : Tasklets
  /-- What has been scheduled since it was last executed, in the order of the last time. -/
  pending : List Nat

inductive TaskletEvent
  | schedule (t : Nat)
  /-- `softirqd` looks at the list and executes the first tasklet if there is one. -/
  | execute

namespace TaskletSys

/-- `LIST_HEAD(tasklet_list)`. Nothing is known of the links of the tasklets. -/
def start (links : Tasklets) : TaskletSys where
  links := initListHead links (Sum.inl ())
  pending := []

def first (s : TaskletSys) : Option Nat :=
  if listEmpty s.links (.inl ()) then none else taskletEntry (next s.links (.inl ()))

def step (s : TaskletSys) : TaskletEvent → Option TaskletSys
  | .schedule t => some
      { links := listMove s.links (Sum.inr t) (Sum.inl ()), pending := s.pending.erase t ++ [t] }
  | .execute => match s.first with
      | none => some s
      | some t => some { links := listDel s.links (Sum.inr t), pending := s.pending.erase t }

/-- The list is made of the pending tasklets, and the first of them is the next. -/
structure Sound (s : TaskletSys) : Prop where
  ring : IsRing s.links (.inl ()) (s.pending.map .inr)
  first : s.first = s.pending.head?

/-- The tasklet is in the list, or the links that it has fit the list. -/
def Fits (s : TaskletSys) : TaskletEvent → Prop
  | .schedule t =>
      t ∈ s.pending ∨ LinksFit s.links (.inl ()) (s.pending.map .inr) (.inr t)
  | .execute => True

theorem sound_iff {s : TaskletSys} : s.Sound ↔ IsRing s.links (.inl ()) (s.pending.map .inr) := by
  constructor
  · intro hs
    exact hs.ring
  · intro hring
    refine ⟨hring, ?_⟩
    have hnext := hring.next_head
    have hempty := listEmpty_iff hring
    cases hp : s.pending with
    | nil =>
        rw [TaskletSys.first, if_pos (hempty.mpr (by rw [hp, List.map_nil])), List.head?_nil]
    | cons t pending =>
        rw [hp, List.map_cons, List.headD_cons] at hnext
        rw [TaskletSys.first, if_neg (by simp [hempty, hp]), hnext]
        rfl

theorem sound_start (links : Tasklets) : (start links).Sound :=
  sound_iff.mpr (initListHead_isRing links (Sum.inl ()))

theorem sound_reschedule {s u : TaskletSys} {t : Nat} (hs : s.Sound) (ht : t ∈ s.pending)
    (hstep : s.step (.schedule t) = some u) : u.Sound := by
  obtain rfl := Option.some.inj hstep
  obtain ⟨l, l', hl, hnotin⟩ := List.eq_append_cons_of_mem ht
  have hring := hs.ring
  rw [hl, List.map_append, List.map_cons] at hring
  have hdel := listDel_isRing hring
  have hnodup := hring.nodup
  have hnew : ∀ x ∈ Sum.inl () :: (l.map Sum.inr ++ l'.map Sum.inr), (Sum.inr t : Unit ⊕ Nat) ≠ x := by
    rw [List.nodup_cons, List.nodup_middle, List.nodup_cons] at hnodup
    intro x hx hxt
    subst hxt
    rw [List.mem_cons] at hx
    exact hx.elim (fun h => by cases h) hnodup.2.1
  have herase : s.pending.erase t = l ++ l' := by
    rw [hl, List.erase_append_right _ hnotin, List.erase_cons_head]
  rw [sound_iff]
  simp only [herase, List.map_append, List.map_cons, List.map_nil]
  exact listAdd_isRing hdel hnew

/-- After a step from a list of the pending tasklets it is one again exactly if the links fit. -/
theorem fits_iff {s u : TaskletSys} {e : TaskletEvent} (hs : s.Sound) (hstep : s.step e = some u) :
    s.Fits e ↔ u.Sound := by
  cases e with
  | schedule t =>
      by_cases ht : t ∈ s.pending
      · exact iff_of_true (Or.inl ht) (sound_reschedule hs ht hstep)
      · obtain rfl := Option.some.inj hstep
        have hnotin : (Sum.inr t : Unit ⊕ Nat) ∉ Sum.inl () :: s.pending.map Sum.inr := by
          simpa using ht
        rw [Fits, or_iff_right ht, ← listMove_isRing_iff hs.ring hnotin, sound_iff]
        simp only [List.erase_of_not_mem ht, List.map_append, List.map_cons, List.map_nil]
  | execute =>
      refine iff_of_true trivial ?_
      cases hp : s.pending with
      | nil =>
          have hnone : s.first = none := by rw [hs.first, hp, List.head?_nil]
          obtain rfl : s = u := by simpa [step, hnone] using hstep
          exact hs
      | cons t pending =>
          have hsome : s.first = some t := by rw [hs.first, hp, List.head?_cons]
          have hring := hs.ring
          simp only [step, hsome, Option.some.injEq] at hstep
          subst hstep
          rw [hp] at hring
          rw [sound_iff]
          simp only [hp, List.erase_cons_head]
          exact listDel_isRing (l := []) hring

theorem step_enabled (s : TaskletSys) (e : TaskletEvent) : ∃ u, s.step e = some u := by
  cases e with
  | schedule t => exact ⟨_, rfl⟩
  | execute =>
      simp only [step]
      split
      · exact ⟨_, rfl⟩
      · exact ⟨_, rfl⟩

theorem step_of_softirqd {tid : Tid} {s s' : DaemonSys Tasklets} {e : DaemonEvent Nat}
    (hstep : (softirqd tid).step s e = some s') (pending : List Nat) :
    s'.data = s.data ∨ ∃ event u, step ⟨s.data, pending⟩ event = some u ∧ u.links = s'.data := by
  cases e with
  | produce t =>
      simp only [DaemonCode.step, softirqd, Option.bind_some, Option.map_eq_some_iff] at hstep
      obtain ⟨kernel, _, rfl⟩ := hstep
      exact Or.inr ⟨.schedule t, _, rfl, rfl⟩
  | around e =>
      obtain ⟨kernel, _, rfl⟩ := Option.map_eq_some_iff.mp hstep
      exact Or.inl rfl
  | run =>
      obtain ⟨_, hrun⟩ : s.kernel.runningThread = (softirqd tid).tid ∧
          (softirqd tid).run s = some s' := by
        simpa [DaemonCode.step] using hstep
      cases hph : s.phase with
      | sched =>
          rw [DaemonCode.run, hph] at hrun
          obtain ⟨kernel, _, rfl⟩ := Option.map_eq_some_iff.mp hrun
          exact Or.inl rfl
      | sleep =>
          rw [DaemonCode.run, hph] at hrun
          dsimp only at hrun
          split at hrun
          · obtain rfl := Option.some.inj hrun
            exact Or.inl rfl
          · cases hrun
      | test =>
          obtain ⟨_, _, hnext⟩ := DaemonCode.run_next hph (by simp) (by simp) hrun
          simp only [DaemonCode.next, Option.some.injEq, Prod.mk.injEq] at hnext
          exact Or.inl hnext.2.symm
      | work n =>
          obtain ⟨_, _, hnext⟩ := DaemonCode.run_next hph (by simp) (by simp) hrun
          cases n with
          | zero => exact Or.inl (congrArg Prod.snd (Option.some.inj hnext)).symm
          | succ n => cases hnext
      | take =>
          obtain ⟨_, _, hnext⟩ := DaemonCode.run_next hph (by simp) (by simp) hrun
          simp only [DaemonCode.next, softirqd, Option.map_map, Option.map_eq_some_iff,
            Function.comp_apply, Prod.mk.injEq] at hnext
          obtain ⟨t, hentry, _, hlinks⟩ := hnext
          have hfirst : first ⟨s.data, pending⟩ = some t := by
            have hne : listEmpty s.data (.inl ()) = false := by
              rw [listEmpty, decide_eq_false_iff_not]
              intro hself
              rw [hself] at hentry
              cases hentry
            rw [first, hne]
            exact hentry
          refine Or.inr ⟨.execute, ⟨s'.data, pending.erase t⟩, ?_, rfl⟩
          rw [step, hfirst, ← hlinks]

/-- Every run of the daemon and of what is around it is a run of these events on its list. -/
theorem exec_of_softirqd {tid : Tid} {s s' : DaemonSys Tasklets} {es : List (DaemonEvent Nat)}
    (hrun : Runs.exec (softirqd tid).step s es = some s') (pending : List Nat) :
    ∃ events u, Runs.exec step ⟨s.data, pending⟩ events = some u ∧ u.links = s'.data := by
  induction es generalizing s pending with
  | nil =>
      obtain rfl := Option.some.inj hrun
      exact ⟨[], _, rfl, rfl⟩
  | cons e es ih =>
      obtain ⟨t, hstep, hrest⟩ := Option.bind_eq_some_iff.mp hrun
      obtain hsame | ⟨event, u, hu, hlinks⟩ := step_of_softirqd hstep pending
      · obtain ⟨events, v, hv, hdata⟩ := ih hrest pending
        exact ⟨events, v, hsame ▸ hv, hdata⟩
      · obtain ⟨events, v, hv, hdata⟩ := ih hrest u.pending
        refine ⟨event :: events, v, ?_, hdata⟩
        rw [Runs.exec, hu, Option.bind_some, ← hv, ← hlinks]

end TaskletSys

/-- Whatever the links of the tasklets were, the list is made of the pending tasklets all through a
run if and only if every tasklet that is scheduled is in the list or has links that fit it. -/
theorem taskletList_iff (links : Tasklets) (es : List TaskletEvent) :
    Runs.AllOk TaskletSys.Fits TaskletSys.step (.start links) es ↔
      ∀ n u, Runs.exec TaskletSys.step (.start links) (es.take n) = some u → u.Sound := by
  obtain ⟨t, hrun⟩ := Runs.exec_total TaskletSys.step_enabled (.start links) es
  exact Runs.allOk_iff_forall_take (I := fun _ => True) (fun _ _ _ _ _ => trivial)
    (fun _ _ _ _ hs hstep => TaskletSys.fits_iff hs hstep) trivial (TaskletSys.sound_start links)
    hrun

/-- The first of two tasklets that have been executed takes the other one back with it into the list:
it is executed again without being scheduled. -/
theorem taskletList_stale :
    ∃ links es u, Runs.exec TaskletSys.step (.start links) es = some u ∧ u.pending = [2, 0] ∧
      u.first = some 1 ∧ ¬ u.Sound := by
  let links : Tasklets := ⟨id, id⟩
  let es : List TaskletEvent :=
    [.schedule 0, .schedule 1, .schedule 2, .execute, .execute, .schedule 0]
  have hrun : (Runs.exec TaskletSys.step (.start links) es).map (fun u => (u.pending, u.first)) =
      some ([2, 0], some 1) := by decide
  obtain ⟨u, hu, hpair⟩ := Option.map_eq_some_iff.mp hrun
  obtain ⟨hpending, hfirst⟩ := Prod.mk.inj hpair
  refine ⟨links, es, u, hu, hpending, hfirst, fun hsound => ?_⟩
  have hnext := hsound.first
  rw [hpending, hfirst] at hnext
  cases hnext

end Tenok
