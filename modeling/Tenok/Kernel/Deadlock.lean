import Tenok.Kernel.JoinRuns
import Tenok.Lib.Acyclic

/-!
Which threads wait in `pthread_join` for which. The check for a deadlock looks at the
threads that join the caller, so it finds a cycle of two; the caller itself and a thread
that joins the caller through others are not on that list.
-/
namespace Tenok
open Ring Queues Relation

/-- The kernel and, for each thread, the one that it is blocked in `pthread_join` on. -/
structure JoinGraph where
  kernel : Kernel
  joined : Tid → Option Tid

/-- The thread that a call of `pthread_join` names. -/
def KernelEvent.joinTid : KernelEvent → Option Tid
  | .call (.pthreadJoin tid) => some tid
  | _ => none

namespace Kernel
variable {k k' : Kernel} {L L' : SchedList → List Tid} {t u tid : Tid} {h : SchedList}

/-- The thread has not been made ready again, and the other one has not ended. -/
def StillJoins (k : Kernel) (t u : Tid) : Prop :=
  ((k.threads t).status = .wait ∨ (k.threads t).status = .suspended) ∧ u ∈ k.threadsList

instance decidableStillJoins (k : Kernel) (t u : Tid) : Decidable (k.StillJoins t u) :=
  inferInstanceAs (Decidable (_ ∧ _))

/-- `pthread_join` comes to its check for a deadlock. -/
def Joinable (k : Kernel) (tid : Tid) : Prop :=
  tid ∈ k.threadsList ∧ (k.threads tid).detached = false ∧ (k.threads tid).joinable = true

instance decidableJoinable (k : Kernel) (tid : Tid) : Decidable (k.Joinable tid) :=
  inferInstanceAs (Decidable (_ ∧ _ ∧ _))

theorem forEachEntry_eq_foldl {τ : Type} {body : τ → Tid → τ} {acc r : τ}
    (hloop : k.forEachEntry h body acc = some r) : r = (k.members h).foldl body acc := by
  obtain ⟨o, hscan, hr⟩ := Option.bind_eq_some_iff.mp hloop
  have hboth : ∀ (n : Nat) (pos : ListNode) (acc : τ) (l : List Tid),
      listForEach (fun _ => k.links) (.inl h) (onEntry body) n acc pos = some o →
      ∃ l', listForEach (fun _ => k.links) (.inl h) (onEntry fun l t => l ++ [t]) n l pos =
        some (.inl (l ++ l')) ∧ r = l'.foldl body acc := by
    intro n
    induction n with
    | zero => intro pos acc l hscan; cases hscan
    | succ n ih =>
        intro pos acc l hscan
        rw [listForEach] at hscan ⊢
        split at hscan
        · next hhead =>
            obtain rfl := Option.some.inj hscan
            obtain rfl := Option.some.inj hr
            exact ⟨[], by rw [if_pos hhead, List.append_nil], rfl⟩
        · next hhead =>
            rw [if_neg hhead]
            cases pos with
            | inl g =>
                obtain rfl := Option.some.inj hscan
                cases hr
            | inr t =>
                obtain ⟨l', hl', hr'⟩ := ih _ (body acc t) (l ++ [t]) hscan
                exact ⟨t :: l', by simpa [onEntry, listEntry] using hl', hr'⟩
  obtain ⟨l', hl', hr'⟩ := hboth _ _ acc [] hscan
  rw [members, forEachEntry, hl']
  exact hr'

theorem joinDeadlock_iff {deadlock : Bool} (h : k.joinDeadlock tid = some deadlock) :
    deadlock = true ↔ tid ∈ k.members (.join k.runningThread) := by
  rw [joinDeadlock] at h
  rw [forEachEntry_eq_foldl h]
  generalize k.members (.join k.runningThread) = l
  suffices ∀ found : Bool, (l.foldl (fun found check => found || decide (check = tid)) found) =
      true ↔ found = true ∨ tid ∈ l by simpa using this false
  induction l with
  | nil => simp
  | cons t l ih =>
      intro found
      rw [List.foldl_cons, ih, Bool.or_eq_true, decide_eq_true_iff, List.mem_cons, or_assoc,
        eq_comm (a := t)]

theorem Joins.joinable (h : k.Joins tid) : k.Joinable tid := ⟨h.1, h.2.1, h.2.2.1⟩

theorem joins_iff {r : SysResult} (hjoin : k.sysPthreadJoin tid = some r)
    (hjoinable : k.Joinable tid) :
    k.Joins tid ↔ tid ∉ k.members (.join k.runningThread) := by
  have hbody := hjoin
  simp only [sysPthreadJoin, acquireThread, if_pos hjoinable.1, hjoinable.2.1, hjoinable.2.2,
    Bool.false_eq_true, Bool.true_eq_false, or_self, if_false] at hbody
  obtain ⟨deadlock, hdeadlock, -⟩ := Option.bind_eq_some_iff.mp hbody
  rw [← joinDeadlock_iff hdeadlock, Bool.not_eq_true]
  constructor
  · exact fun hjoins => Option.some.inj (hdeadlock.symm.trans hjoins.2.2.2)
  · rintro rfl
    exact ⟨hjoinable.1, hjoinable.2.1, hjoinable.2.2, hdeadlock⟩

end Kernel

namespace JoinGraph

/-- The join that the event makes, if the call returns 0. -/
def called (s : JoinGraph) : KernelEvent → Tid → Option Tid
  | .call (.pthreadJoin tid) =>
      match s.kernel.sysPthreadJoin tid with
      | some (_, .ok ()) => Function.update s.joined s.kernel.runningThread (some tid)
      | _ => s.joined
  | _ => s.joined

def step (s : JoinGraph) (e : KernelEvent) : Option JoinGraph :=
  (s.kernel.step e).map fun k =>
    { kernel := k, joined := fun t => (s.called e t).filter fun u => decide (k.StillJoins t u) }

def start : JoinGraph where
  kernel := Kernel.schedStart
  joined _ := none

/-- Thread `t` is blocked in `pthread_join` on thread `u`. -/
def Blocked (s : JoinGraph) (t u : Tid) : Prop := s.joined t = some u

/-- A thread that waits for the caller, directly or through others, or is the caller, can
only be joined if it is on the join list of the caller. -/
def JoinOk (s : JoinGraph) (e : KernelEvent) : Prop :=
  ∀ tid ∈ e.joinTid, s.kernel.Joinable tid →
    ReflTransGen s.Blocked tid s.kernel.runningThread →
      tid ∈ s.kernel.members (.join s.kernel.runningThread)

def Inv (s : JoinGraph) : Prop := ∀ t u, s.Blocked t u → s.kernel.StillJoins t u

variable {s s' : JoinGraph} {e : KernelEvent} {t u tid : Tid}

theorem step_eq_some (hstep : s.step e = some s') : s.kernel.step e = some s'.kernel ∧
    ∀ t u, s'.Blocked t u ↔ s.called e t = some u ∧ s'.kernel.StillJoins t u := by
  obtain ⟨k, hk, rfl⟩ := Option.map_eq_some_iff.mp hstep
  exact ⟨hk, fun t u => by simp [Blocked, Option.filter_eq_some_iff]⟩

theorem inv_step (hstep : s.step e = some s') : Inv s' :=
  fun t u h => (((step_eq_some hstep).2 t u).mp h).2

theorem Inv.not_running (hinv : Inv s) (hexec : s.kernel.Executing) :
    s.joined s.kernel.runningThread = none := by
  cases hjoined : s.joined s.kernel.runningThread with
  | none => rfl
  | some u =>
      obtain ⟨hstatus, -⟩ := hinv _ u hjoined
      obtain hst | hst := hexec.1
      · simp [hst] at hstatus
      · simp [hst] at hstatus

theorem blocked_of_called (hstep : s.step e = some s') (hcalled : s.called e = s.joined)
    (h : s'.Blocked t u) : s.Blocked t u := by
  have hbefore := (((step_eq_some hstep).2 t u).mp h).1
  rw [hcalled] at hbefore
  exact hbefore

theorem blocked_of_joins (hinv : Inv s) (hstep : s.step (.call (.pthreadJoin tid)) = some s')
    (hjoins : s.kernel.Joins tid) (t u : Tid) :
    s'.Blocked t u ↔ s.Blocked t u ∨ (t = s.kernel.runningThread ∧ u = tid) := by
  obtain ⟨hkernel, hblocked⟩ := step_eq_some hstep
  obtain ⟨hcall, hbody⟩ := Option.ite_none_right_eq_some.mp hkernel
  obtain ⟨r, hr, hk'⟩ := Option.map_eq_some_iff.mp hbody
  obtain ⟨hnot, -⟩ | ⟨-, rfl⟩ := Kernel.sysPthreadJoin_cases hr
  · exact absurd hjoins hnot
  have hcalled : s.called (.call (.pthreadJoin tid)) =
      Function.update s.joined s.kernel.runningThread (some tid) := by simp only [called, hr]
  have hstill : ∀ t u, s'.kernel.StillJoins t u ↔
      (t = s.kernel.runningThread ∨ (s.kernel.threads t).status = .wait ∨
        (s.kernel.threads t).status = .suspended) ∧ u ∈ s.kernel.threadsList := by
    intro t u
    rw [← hk', Kernel.StillJoins]
    by_cases ht : t = s.kernel.runningThread
    · simp [Kernel.prepareToWait, Kernel.setStatus, Kernel.setThread, ht]
    · simp [Kernel.prepareToWait, Kernel.setStatus, Kernel.setThread, ht]
  rw [hblocked, hcalled, hstill]
  by_cases ht : t = s.kernel.runningThread
  · subst ht
    have hfree := hinv.not_running hcall.1
    rw [Function.update_self]
    constructor
    · rintro ⟨hu, -⟩
      exact Or.inr ⟨rfl, (Option.some.inj hu).symm⟩
    · rintro (hold | ⟨-, rfl⟩)
      · cases hfree.symm.trans hold
      · exact ⟨rfl, Or.inl rfl, hjoins.1⟩
  · rw [Function.update_of_ne ht]
    constructor
    · exact fun h => Or.inl h.1
    · rintro (hold | ⟨h, -⟩)
      · exact ⟨hold, Or.inr (hinv t u hold).1, (hinv t u hold).2⟩
      · exact absurd h ht

theorem joinOk_iff_acyclic (hinv : Inv s) (hacyclic : Acyclic s.Blocked)
    (hstep : s.step e = some s') : s.JoinOk e ↔ Acyclic s'.Blocked := by
  have hrest : s.called e = s.joined → Acyclic s'.Blocked := fun hcalled =>
    hacyclic.mono fun _ _ => blocked_of_called hstep hcalled
  cases e with
  | call c =>
      cases c with
      | pthreadJoin tid =>
          obtain ⟨hkernel, -⟩ := step_eq_some hstep
          obtain ⟨-, hbody⟩ := Option.ite_none_right_eq_some.mp hkernel
          obtain ⟨r, hr, -⟩ := Option.map_eq_some_iff.mp hbody
          by_cases hjoins : s.kernel.Joins tid
          · have hmembers := (Kernel.joins_iff hr hjoins.joinable).mp hjoins
            rw [acyclic_insert_iff (blocked_of_joins hinv hstep hjoins) hacyclic]
            constructor
            · exact fun hok hback => hmembers (hok tid rfl hjoins.joinable hback)
            · rintro hback _ ⟨⟩ _ h
              exact absurd h hback
          · refine iff_of_true ?_ (hrest ?_)
            · rintro _ ⟨⟩ hjoinable -
              by_contra hmembers
              exact hjoins ((Kernel.joins_iff hr hjoinable).mpr hmembers)
            · obtain ⟨-, -, err, herr⟩ | ⟨h, -⟩ := Kernel.sysPthreadJoin_cases hr
              · obtain ⟨k, result⟩ := r
                obtain rfl : result = .error err := herr
                simp only [called, hr]
              · exact absurd h hjoins
      | _ => exact iff_of_true (fun _ h => by cases h) (hrest rfl)
  | _ => exact iff_of_true (fun _ h => by cases h) (hrest rfl)

theorem inv_start : Inv start := fun _ _ h => by cases h

theorem acyclic_start : Acyclic start.Blocked := fun t hcycle => by
  obtain ⟨u, hfirst, -⟩ := TransGen.head'_iff.mp hcycle
  cases hfirst

/-- A run closes no cycle of joins, of any length, exactly if every call of `pthread_join`
for a thread that waits for the caller finds it on the join list of the caller. -/
theorem noJoinCycle_iff_joinOk {es : List KernelEvent}
    (hrun : Runs.exec step start es = some s) : Runs.AllOk JoinOk step start es ↔
      ∀ n u, Runs.exec step start (es.take n) = some u → Acyclic u.Blocked :=
  Runs.allOk_iff_forall_take (fun _ _ _ _ hstep => inv_step hstep)
    (fun _ _ _ hinv hacyclic hstep => joinOk_iff_acyclic hinv hacyclic hstep) inv_start
    acyclic_start hrun

/-- Enough for the condition, and it can be evaluated: nobody joins a thread that joins
another, or itself. -/
def JoinsRunnable (s : JoinGraph) (e : KernelEvent) : Prop :=
  ∀ tid ∈ e.joinTid, s.joined tid = none ∧ tid ≠ s.kernel.runningThread

instance decidableJoinsRunnable (s : JoinGraph) (e : KernelEvent) : Decidable (s.JoinsRunnable e) :=
  inferInstanceAs (Decidable (∀ tid ∈ _, _))

theorem JoinsRunnable.joinOk (s : JoinGraph) (e : KernelEvent) (h : s.JoinsRunnable e) :
    s.JoinOk e := by
  intro tid htid _ hpath
  obtain ⟨hfree, hne⟩ := h tid htid
  obtain heq | ⟨u, hfirst, -⟩ := hpath.cases_head
  · exact absurd heq hne
  · cases hfree.symm.trans hfirst

/-- A system call of the thread that runs, which then gives up the CPU. -/
def callAndYield (c : KernelCall) : List KernelEvent := [.syscallHandler, .call c, .schedule]

/-- The first task makes two more threads; it joins the first, which joins the second. -/
def chainRun : List KernelEvent :=
  Kernel.bootRun ++ [.syscallHandler, .call (.pthreadCreate none true),
    .call (.pthreadCreate none true), .call (.pthreadJoin 4), .schedule] ++
    callAndYield (.pthreadJoin 6)

theorem noJoinCycle_iff_joinOk_at_chain : ∃ s, Runs.exec step start chainRun = some s ∧
    s.Blocked 5 4 ∧ s.Blocked 4 6 ∧ Acyclic s.Blocked := by
  have hrun : (Runs.exec step start chainRun).map (fun s => (s.joined 5, s.joined 4)) =
      some (some 4, some 6) := by decide +kernel
  obtain ⟨s, hs, hfacts⟩ := Option.map_eq_some_iff.mp hrun
  obtain ⟨h₅, h₄⟩ := Prod.mk.inj hfacts
  have hok : Runs.AllOk JoinsRunnable step start chainRun := by decide +kernel
  have hend : Runs.exec step start (chainRun.take chainRun.length) = some s := by
    rw [List.take_length]
    exact hs
  exact ⟨s, hs, h₅, h₄, (noJoinCycle_iff_joinOk hs).mp (Runs.allOk_mono JoinsRunnable.joinOk hok)
    _ s hend⟩

/-- A thread that joins itself, and three threads that join each other in a circle. -/
theorem joinCycle_of_self_and_three :
    (∃ s, Runs.exec step start (Kernel.bootRun ++ callAndYield (.pthreadJoin 5)) = some s ∧
      ¬ Acyclic s.Blocked) ∧
    ∃ s, Runs.exec step start (chainRun ++ callAndYield (.pthreadJoin 5)) = some s ∧
      s.Blocked 5 4 ∧ s.Blocked 4 6 ∧ s.Blocked 6 5 ∧ ¬ Acyclic s.Blocked := by
  have hself : (Runs.exec step start (Kernel.bootRun ++ callAndYield (.pthreadJoin 5))).map
      (fun s => s.joined 5) = some (some 5) := by decide +kernel
  have hthree : (Runs.exec step start (chainRun ++ callAndYield (.pthreadJoin 5))).map
      (fun s => (s.joined 5, s.joined 4, s.joined 6)) = some (some 4, some 6, some 5) := by
    decide +kernel
  obtain ⟨s, hs, h₅⟩ := Option.map_eq_some_iff.mp hself
  obtain ⟨s', hs', hfacts⟩ := Option.map_eq_some_iff.mp hthree
  obtain ⟨h₅₄, h₄₆, h₆₅⟩ : s'.Blocked 5 4 ∧ s'.Blocked 4 6 ∧ s'.Blocked 6 5 := by
    simpa [Blocked] using hfacts
  exact ⟨⟨s, hs, fun h => h 5 (.single h₅)⟩, s', hs', h₅₄, h₄₆, h₆₅,
    fun h => h 5 (((TransGen.single h₅₄).tail h₄₆).tail h₆₅)⟩

end JoinGraph

end Tenok
