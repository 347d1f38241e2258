import Tenok.Kernel.Join

/-!
What becomes of the threads that join a thread when it ends. Only the thread that ends
by itself looks at its join list; who joins a thread that is cancelled, killed or ended
by its task stays linked to a control block that is free.
-/
namespace Tenok
open Ring Queues

namespace Kernel
variable {k k' : Kernel} {A : Set Tid} {L L' : SchedList → List Tid} {h : SchedList} {t u : Tid}
  {T : List Tid} {e : KernelEvent}

theorem members_congr (hlinks : k'.links = k.links) : k'.members h = k.members h := by
  rw [members, members, forEachEntry, forEachEntry, hlinks]

/-- The event is the end of a thread by `thread_join_handler`. -/
def ByHandler (k : Kernel) : KernelEvent → Prop
  | .call .pthreadExit => True
  | .threadReturn => k.currentTaskInfo.map k.mainThread ≠ some k.runningThread
  | _ => False

def Exits (k : Kernel) : KernelEvent → Prop
  | .call .exit => True
  | .threadReturn => k.currentTaskInfo.map k.mainThread = some k.runningThread
  | _ => False

/-- No thread that stays joins one that ends in another way. -/
def JoinersOk (k : Kernel) (e : KernelEvent) : Prop :=
  k.ByHandler e ∨ ∀ t ∈ k.removes e, ∀ u ∈ k.members (.join t), u ∈ k.removes e

/-- The threads of `T` end and the others do not change. -/
structure Ends (T : List Tid) (k k' : Kernel) : Prop where
  threads : ∀ u, u ∉ T → k'.threads u = k.threads u
  dead : ∀ t ∈ T, ¬ k'.Alive t
  terminated : ∀ t ∈ T, (k'.threads t).status = .terminated
  alive : ∀ u, k'.Alive u → k.Alive u

namespace Ends

theorem foldlM {f : Kernel → Tid → Option Kernel} (hf : ∀ k t k', f k t = some k' → Ends [t] k k')
    (hloop : T.foldlM f k = some k') : Ends T k k' := by
  induction T generalizing k with
  | nil =>
      obtain rfl : k = k' := by simpa using hloop
      exact ⟨fun _ _ => rfl, by simp, by simp, fun _ => id⟩
  | cons t T ih =>
      obtain ⟨k₁, hk₁, hrest⟩ := Option.bind_eq_some_iff.mp hloop
      have hfirst := hf k t k₁ hk₁
      have hothers := ih hrest
      refine ⟨fun u hu => ?_, fun u hu => ?_, fun u hu => ?_,
        fun u hu => hfirst.alive u (hothers.alive u hu)⟩
      · rw [List.mem_cons, not_or] at hu
        rw [hothers.threads u hu.2, hfirst.threads u (by simpa using hu.1)]
      · obtain rfl | hu := List.mem_cons.mp hu
        · exact fun halive => hfirst.dead u List.mem_cons_self (hothers.alive u halive)
        · exact hothers.dead u hu
      · by_cases huT : u ∈ T
        · exact hothers.terminated u huT
        · rw [hothers.threads u huT]
          exact hfirst.terminated u (by simpa [huT] using hu)

theorem terminate {s : Cells ListNode} (hleave : k.leaveTask t = some k') :
    Ends [t] k ({ k' with links := s }.terminate t) := by
  obtain ⟨task, -, rfl⟩ := leaveTask_eq_some hleave
  refine ⟨fun u hu => ?_, fun u hu => ?_, fun u hu => ?_, fun u hu => (alive_terminate.mp hu).2⟩
  · exact threads_terminate_of_ne (by simpa using hu)
  · obtain rfl := List.mem_singleton.mp hu
    exact fun halive => (alive_terminate.mp halive).1 rfl
  · obtain rfl := List.mem_singleton.mp hu
    exact status_terminate ..

theorem exitThread (hexit : k.exitThread t = some k') : Ends [t] k k' := by
  obtain ⟨k₁, hleave, hk'⟩ := Option.bind_eq_some_iff.mp hexit
  obtain rfl := Option.some.inj hk'
  exact terminate hleave

theorem threadDelete (hdelete : k.threadDelete t = some k') : Ends [t] k k' := by
  simp only [Kernel.threadDelete, Option.bind_eq_bind, Option.bind_eq_some_iff,
    Option.some.injEq] at hdelete
  obtain ⟨k₁, hleave, task, -, rfl⟩ := hdelete
  have hends : Ends [t] k ((k₁.unlinkOther t).terminate t) := by
    rw [unlinkOther]
    split
    · exact terminate hleave
    · exact terminate (s := k₁.links) hleave
  rw [dropEmptyTask_eq]
  exact ⟨hends.threads, hends.dead, hends.terminated, hends.alive⟩

theorem handleSignal (hsig : k.handleSignal t .kill = some k') : Ends [t] k k' := by
  have htouched := Touched.endSigwait t k .kill
  have hends := threadDelete hsig
  refine ⟨fun u hu => ?_, hends.dead, hends.terminated,
    fun u hu => htouched.alive.mp (hends.alive u hu)⟩
  rw [hends.threads u hu, htouched.threads u (by simpa using hu)]

theorem sysExit {task : Pid} (htask : k.currentTaskInfo = some task)
    (hexit : k.sysExit = some k') : Ends (k.taskThreads task) k k' := by
  simp only [Kernel.sysExit, htask, Option.bind_eq_bind, Option.bind_some, Option.bind_eq_some_iff,
    Option.some.injEq] at hexit
  obtain ⟨k₁, hloop, rfl⟩ := hexit
  have hends : Ends (k.taskThreads task) k k₁ := foldlM (fun _ _ _ => exitThread) hloop
  exact ⟨hends.threads, hends.dead, hends.terminated, hends.alive⟩

end Ends

theorem alive_of_threadJoinHandler (hjoin : k.threadJoinHandler = some k') (ht : k'.Alive t) :
    k.Alive t := by
  obtain ⟨k₁, current, task, hsame, -, -, hended⟩ := threadJoinHandler_ended hjoin
  have hafter := (hended.alive_iff.mp ht).2
  rw [alive_dropEmptyTask] at hafter
  exact hsame.alive_iff.mp hafter

theorem born_of_threadCreate {attr : ThreadAttr} {kernelThread stack : Bool}
    {r : Except Errno Tid} (hcreate : k.threadCreate attr kernelThread stack = (k', r))
    (ht : k'.Alive t) : k.Alive t ∨ t < threadMax ∧ (k'.threads t).status = .wait := by
  obtain ⟨e, he⟩ | ⟨tid, hlt, -, he | ⟨k₁, he, -, -, hst, hbitmap, -⟩⟩ :=
    threadCreate_cases k attr kernelThread stack
  · obtain ⟨rfl, -⟩ := Prod.mk.inj (he.symm.trans hcreate)
    exact Or.inl ht
  · obtain ⟨rfl, -⟩ := Prod.mk.inj (he.symm.trans hcreate)
    exact Or.inl ht
  · obtain ⟨rfl, -⟩ := Prod.mk.inj (he.symm.trans hcreate)
    by_cases htid : t = tid
    · subst htid
      exact Or.inr ⟨hlt, hst⟩
    · rw [Alive, hbitmap, Function.update_of_ne htid] at ht
      exact Or.inl ht

theorem born_of_step (hstep : k.step e = some k') (ht : k'.Alive t) :
    k.Alive t ∨ t < threadMax ∧ (k'.threads t).status = .wait := by
  cases step_books hstep with
  | same h => exact Or.inl (h.alive_iff.mp ht)
  | exit task htask _ _ h => exact Or.inl ((Ends.sysExit htask h).alive t ht)
  | joinHandler _ _ h => exact Or.inl (alive_of_threadJoinHandler h ht)
  | delete u k₁ _ _ _ hsame _ h =>
      exact Or.inl (hsame.alive_iff.mp ((Ends.threadDelete h).alive t ht))
  | killTask task _ _ h =>
      exact Or.inl ((Ends.foldlM (fun _ _ _ => Ends.handleSignal) h).alive t ht)
  | create attr stack r _ h =>
      obtain ⟨_, _, ⟨_, hk₁⟩ | ⟨k₁, tid, task, hk₁, -, rfl⟩⟩ := sysPthreadCreate_cases h
      · exact born_of_threadCreate hk₁ ht
      · rw [status_enterTask]
        exact born_of_threadCreate hk₁ ht
  | createTask priority kernelThread stack r _ h =>
      obtain ⟨_, hk₁⟩ | ⟨k₁, tid, pid, hk₁, -, rfl⟩ := taskCreate_cases h
      · exact born_of_threadCreate hk₁ ht
      · obtain hold | ⟨hlt, hst⟩ := born_of_threadCreate hk₁ ht
        · exact Or.inl hold
        · exact Or.inr ⟨hlt, (status_enterTask pid [tid] t).trans hst⟩

theorem ends_step (hstep : k.step e = some k') (hhandler : ¬ k.ByHandler e)
    (ht : t ∈ k.removes e) : Ends (k.removes e) k k' := by
  cases e with
  | call c =>
      simp only [Kernel.step, Option.ite_none_right_eq_some] at hstep
      obtain ⟨-, hcall⟩ := hstep
      cases c with
      | exit =>
          obtain ⟨task, htask⟩ := sysExit_task hcall
          rw [show k.removes (.call .exit) = k.taskThreads task from currentThreads_eq htask]
          exact Ends.sysExit htask hcall
      | pthreadExit => exact absurd trivial hhandler
      | pthreadCancel tid =>
          obtain ⟨r, hr, rfl⟩ := Option.map_eq_some_iff.mp hcall
          rw [removes, List.mem_ite_nil_right] at ht
          rw [removes, if_pos ht.1]
          obtain ⟨hnot, -⟩ | ⟨-, hdelete⟩ := sysPthreadCancel_cases hr
          · exact absurd ht.1 hnot
          · exact Ends.threadDelete hdelete
      | pthreadKill tid sig =>
          obtain ⟨r, hr, rfl⟩ := Option.map_eq_some_iff.mp hcall
          rcases sig with _ | (_ | _ | _ | _ | _ | _)
          case some.kill =>
            rw [removes, List.mem_ite_nil_right] at ht
            rw [removes, if_pos ht.1]
            obtain ⟨hnot, -⟩ | ⟨s, hs, -, hsig⟩ := sysPthreadKill_cases hr
            · simp [ht.1] at hnot
            · obtain rfl := Option.some.inj hs
              exact Ends.handleSignal hsig
          all_goals simp [removes] at ht
      | kill pid sig =>
          obtain ⟨r, hr, rfl⟩ := Option.map_eq_some_iff.mp hcall
          rcases sig with _ | (_ | _ | _ | _ | _ | _)
          case some.kill =>
            rw [removes, List.mem_ite_nil_right] at ht
            rw [removes, if_pos ht.1]
            obtain ⟨hnot, -⟩ | ⟨s, hs, -, hsig⟩ := sysKill_cases hr
            · simp [ht.1] at hnot
            · obtain rfl := Option.some.inj hs
              exact Ends.foldlM (fun _ _ _ => Ends.handleSignal) hsig
          all_goals simp [removes] at ht
      | raise sig =>
          obtain ⟨r, hr, rfl⟩ := Option.map_eq_some_iff.mp hcall
          rcases sig with _ | (_ | _ | _ | _ | _ | _)
          case some.kill =>
            obtain ⟨hnot, -⟩ | ⟨s, task, hs, htask, hsig⟩ := sysRaise_cases hr
            · have hnone : k.currentTaskInfo = none := by simpa using hnot
              simp [removes, currentThreads, hnone] at ht
            · obtain rfl := Option.some.inj hs
              rw [removes, currentThreads_eq htask]
              exact Ends.foldlM (fun _ _ _ => Ends.handleSignal) hsig
          all_goals simp [removes] at ht
      | _ => simp [removes] at ht
  | threadReturn =>
      simp only [Kernel.step, Option.ite_none_right_eq_some] at hstep
      obtain ⟨task, htask, hret⟩ := Option.bind_eq_some_iff.mp hstep.2
      have hmain : k.currentTaskInfo.map k.mainThread = some k.runningThread := not_not.mp hhandler
      rw [htask, Option.map_some, Option.some.injEq] at hmain
      rw [if_pos hmain.symm] at hret
      rw [removes, if_pos (by rw [htask, Option.map_some, hmain]), currentThreads_eq htask]
      exact Ends.sysExit htask hret
  | _ => simp [removes] at ht

theorem unqueued_of_handler (hhandler : k.ByHandler e) (hok : k.EventOk e) : k.Unqueued := by
  cases e with
  | call c =>
      cases c with
      | pthreadExit => exact hok.1
      | _ => cases hhandler
  | threadReturn =>
      rw [EventOk, if_neg hhandler] at hok
      exact hok.1
  | _ => cases hhandler

theorem removes_of_exits (hexits : k.Exits e) : k.removes e = k.currentThreads := by
  cases e with
  | call c => cases c <;> first | rfl | cases hexits
  | threadReturn => exact if_pos hexits
  | _ => cases hexits

theorem alive_currentThreads (hR : Registered k) (ht : t ∈ k.currentThreads) : k.Alive t := by
  cases htask : k.currentTaskInfo with
  | none => simp [currentThreads, htask] at ht
  | some task =>
      rw [currentThreads_eq htask] at ht
      exact ((hR.taskThreads task).2 t ht).1

theorem alive_of_removes (hR : Registered k) (hhandler : ¬ k.ByHandler e)
    (ht : t ∈ k.removes e) : k.Alive t := by
  rw [removes.eq_def] at ht
  split at ht
  · exact absurd trivial hhandler
  · exact alive_currentThreads hR ht
  · rw [List.mem_ite_nil_right, List.mem_singleton] at ht
    exact ht.2 ▸ hR.threadsList.2 _ ht.1.1
  · rw [List.mem_ite_nil_right, List.mem_singleton] at ht
    exact ht.2 ▸ hR.threadsList.2 _ ht.1.1
  · rw [List.mem_ite_nil_right] at ht
    exact ((hR.taskThreads _).2 t ht.2).1
  · exact alive_currentThreads hR ht
  · rw [if_pos (not_not.mp hhandler)] at ht
    exact alive_currentThreads hR ht
  · cases ht

/-- The links after `SIGKILL` for a thread: it is off its list unless it has the CPU. -/
theorem handleSignal_rings {V : Set SchedList} (hr : Rings k.links V L)
    (hready : ∀ p, SchedList.ready p ∈ V) (hlinked : t ≠ k.runningThread → ∃ g, t ∈ L g)
    (hsig : k.handleSignal t .kill = some k') : k'.runningThread = k.runningThread ∧
      ∃ L', Rings k'.links V L' ∧ ∀ u g, u ∈ L' g ↔ u ∈ L g ∧ (u = t → t = k.runningThread) := by
  have htouched := Touched.endSigwait t k .kill
  simp only [handleSignal, threadDelete, Option.bind_eq_bind, Option.bind_eq_some_iff,
    Option.some.injEq] at hsig
  obtain ⟨k₁, hleave, task, -, rfl⟩ := hsig
  rw [dropEmptyTask_eq]
  have hsame : k₁.links = (k.endSigwait t .kill).links ∧ k₁.runningThread = k.runningThread := by
    obtain ⟨_, -, rfl⟩ := leaveTask_eq_some hleave
    exact ⟨rfl, htouched.runningThread⟩
  have hend : ∃ L₁, Rings (k.endSigwait t .kill).links V L₁ ∧
      (∀ u g, u ≠ t → (u ∈ L₁ g ↔ u ∈ L g)) ∧ (t ≠ k.runningThread → ∃ g, t ∈ L₁ g) ∧
      (t = k.runningThread → L₁ = L) := by
    rw [endSigwait]
    split
    · rw [finishWait]
      split
      · next hrun =>
          obtain ⟨g, hg⟩ := hlinked hrun
          refine ⟨_, listMove_rings hr hg (hready _), fun u g hut => ?_, fun _ => ?_,
            fun h => absurd h hrun⟩
          · simp [hr.mem_transfer, hut]
          · exact ⟨_, hr.mem_transfer.mpr (Or.inr ⟨rfl, rfl⟩)⟩
      · exact ⟨L, hr, fun _ _ _ => Iff.rfl, hlinked, fun _ => rfl⟩
    · exact ⟨L, hr, fun _ _ _ => Iff.rfl, hlinked, fun _ => rfl⟩
  obtain ⟨L₁, hr₁, hothers, hlinked₁, hrunning⟩ := hend
  by_cases hrun : t = k.runningThread
  · have hspared : k₁.unlinkOther t = k₁ := if_neg (not_not.mpr (hrun.trans hsame.2.symm))
    rw [hspared]
    refine ⟨hsame.2, L₁, hsame.1 ▸ hr₁, fun u g => ?_⟩
    rw [hrunning hrun]
    exact ⟨fun hu => ⟨hu, fun _ => hrun⟩, fun hu => hu.1⟩
  · have hunlinked : k₁.unlinkOther t = { k₁ with links := listDel k₁.links (Sum.inr t) } :=
      if_pos fun h => hrun (h.trans hsame.2)
    rw [hunlinked]
    obtain ⟨g, hg⟩ := hlinked₁ hrun
    refine ⟨hsame.2, _, hsame.1 ▸ listDel_rings hr₁ hg, fun u g => ?_⟩
    rw [hr₁.mem_dequeue]
    constructor
    · rintro ⟨hut, hu⟩
      exact ⟨(hothers u g hut).mp hu, fun h => absurd h hut⟩
    · rintro ⟨hu, hut⟩
      have hne : u ≠ t := fun h => hrun (hut h)
      exact ⟨hne, (hothers u g hne).mpr hu⟩

theorem kill_rings {V : Set SchedList} (hr : Rings k.links V L)
    (hready : ∀ p, SchedList.ready p ∈ V) (hnodup : T.Nodup)
    (hlinked : ∀ t ∈ T, t ≠ k.runningThread → ∃ g, t ∈ L g)
    (hloop : T.foldlM (fun k t => k.handleSignal t .kill) k = some k') :
    ∃ L', Rings k'.links V L' ∧
      ∀ u g, u ∈ L' g ↔ u ∈ L g ∧ (u ∈ T → u = k.runningThread) := by
  induction T generalizing k L with
  | nil =>
      obtain rfl : k = k' := by simpa using hloop
      exact ⟨L, hr, by simp⟩
  | cons t T ih =>
      obtain ⟨k₁, hk₁, hrest⟩ := Option.bind_eq_some_iff.mp hloop
      obtain ⟨htT, hnodup⟩ := List.nodup_cons.mp hnodup
      obtain ⟨hrun₁, L₁, hr₁, hL₁⟩ :=
        handleSignal_rings hr hready (hlinked t List.mem_cons_self) hk₁
      obtain ⟨L', hr', hL'⟩ := ih hr₁ hnodup (fun u hu hne => by
        rw [hrun₁] at hne
        obtain ⟨g, hg⟩ := hlinked u (List.mem_cons_of_mem _ hu) hne
        exact ⟨g, (hL₁ u g).mpr ⟨hg, fun hut => absurd hu (hut ▸ htT)⟩⟩) hrest
      refine ⟨L', hr', fun u g => ?_⟩
      rw [hL', hL₁, hrun₁, List.mem_cons]
      grind

theorem Parked.joining_ne_running (hP : Parked k L) (hT : Threaded k A L) (hexec : k.Executing)
    (hA : A = {t | k.Alive t}) (hu : u ∈ L (.join t)) : u ≠ k.runningThread := by
  rintro rfl
  have ht : t ∈ A := hT.rings.inUse hu t rfl
  rw [hA] at ht
  have hst := (hP.joining t ht _ hu).1
  obtain h | h := hexec.1
  · cases hst.symm.trans h
  · cases hst.symm.trans h

theorem unlinked_step (hT : Threaded k {t | k.Alive t} L) (hR : Registered k) (hP : Parked k L)
    (hstep : k.step e = some k') (hhandler : ¬ k.ByHandler e) (hexits : ¬ k.Exits e)
    (ht : t ∈ k.removes e) (hjoin : u ∈ L (.join t)) (hu : u ∈ k.removes e) :
    u ∉ k'.members (.join t) := by
  cases step_books hstep with
  | same h =>
      have halive := alive_of_removes hR hhandler ht
      exact absurd (h.alive_iff.mpr halive) ((ends_step hstep hhandler ht).dead t ht)
  | exit task htask he hremoves h =>
      obtain rfl | rfl := he
      · exact absurd trivial hexits
      · exact absurd (not_not.mp hhandler) hexits
  | joinHandler he hremoves h =>
      obtain rfl | ⟨rfl, hother⟩ := he
      · exact absurd trivial hhandler
      · exact absurd hother hhandler
  | delete t' k₁ he hreceives hremoves hsame hrun h =>
      rw [hremoves, List.mem_singleton] at ht hu
      rw [ht, hu] at hjoin
      exact absurd hjoin (hT.not_self t')
  | killTask task he hremoves h =>
      rw [hremoves] at hu
      have hexec : k.Executing := by
        obtain ⟨rfl, -⟩ | ⟨rfl, -⟩ := he
        all_goals
          simp only [Kernel.step, Option.ite_none_right_eq_some] at hstep
          exact hstep.1.1
      have hin := hT.rings.inUse hjoin
      obtain ⟨L', hr', hL'⟩ := kill_rings hT.rings Threaded.ready_inUse (hR.taskThreads task).1
        (fun v hv hne => hT.exists_mem ((hR.taskThreads task).2 v hv).1 hne) h
      have hlen : (L' (.join t)).length < loopBound := by
        have hsub : L' (.join t) ⊆ L (.join t) := fun v hv => ((hL' v _).mp hv).1
        have hle := (List.subperm_of_subset (hr'.nodup _) hsub).length_le
        exact Nat.lt_of_le_of_lt hle (hT.length_lt _)
      rw [members_of_ring (hr'.ring _ hin) hlen, hL']
      exact fun h => hP.joining_ne_running hT hexec rfl hjoin (h.2 hu)
  | create attr stack r he h =>
      rw [he] at ht
      cases ht
  | createTask priority kernelThread stack r he h =>
      rw [he] at ht
      cases ht

end Kernel

namespace JoinSys
open Kernel
variable {s s' : JoinSys} {A : Set Tid} {L : SchedList → List Tid} {e : JoinEvent} {t u : Tid}

/-- What a thread that joins one that ends has a right to. -/
structure Released (s : JoinSys) (e : JoinEvent) (s' : JoinSys) (t u : Tid) : Prop where
  unlinked : u ∉ s'.kernel.members (.join t)
  ready : s'.kernel.Alive u → (s'.kernel.threads u).status = .ready ∧
    ∃ p, u ∈ s'.kernel.members (.ready p)
  value : s'.kernel.Alive u → ∀ v ∈ e.value, ∀ p ∈ s.retvalJoin u, s'.memory p = v

/-- The thread has been released with the value of the running one. -/
def Served (s : JoinSys) (s₁ : JoinSys) (L₁ : SchedList → List Tid) (t : Tid) : Prop :=
  ((s₁.kernel.threads t).status = .ready ∧ ∃ p, t ∈ L₁ (.ready p)) ∧
    ∀ p ∈ s.retvalJoin t, s₁.memory p = s.retval s.kernel.runningThread

/-- In the loop of `thread_join_handler` the threads `l` are still to come. -/
structure Releasing (A : Set Tid) (s : JoinSys) (L : SchedList → List Tid) (s₁ : JoinSys)
    (L₁ : SchedList → List Tid) (l : List Tid) : Prop where
  threaded : Threaded s₁.kernel A L₁
  wakes : Wakes {.join s.kernel.runningThread} s.kernel L s₁.kernel L₁
  rest : L₁ (.join s.kernel.runningThread) = l
  values : s₁.retval = s.retval ∧ s₁.retvalJoin = s.retvalJoin
  served : ∀ t ∈ L (.join s.kernel.runningThread), t ∈ l ∨ Served s s₁ L₁ t

theorem Releasing.step {s₁ : JoinSys} {L₁ : SchedList → List Tid} {l : List Tid}
    (h : Releasing A s L s₁ L₁ (t :: l)) : ∃ L₂, Releasing A s L (s₁.releaseJoiner t) L₂ l := by
  have hT := h.threaded
  have ht : t ∈ L₁ (.join s.kernel.runningThread) := h.rest ▸ List.mem_cons_self
  have hrun : s₁.kernel.runningThread = s.kernel.runningThread := h.wakes.runningThread
  have hother : t ≠ s₁.kernel.runningThread := by
    rintro rfl
    rw [← hrun] at ht
    exact hT.not_self _ ht
  have hkernel : (s₁.releaseJoiner t).kernel = s₁.kernel.makeReady t := if_pos hother
  have hl : L₁ (.join s.kernel.runningThread) = [] ++ t :: l := h.rest
  have hW := Wakes.makeReady hT ht (Set.mem_singleton _)
  have hmemory : ∀ p, (s₁.releaseJoiner t).memory p = s.retval s.kernel.runningThread ∨
      (s₁.releaseJoiner t).memory p = s₁.memory p := fun p => by
    simp only [releaseJoiner, h.values.1, hrun]
    split
    · next a _ =>
        by_cases hp : p = a
        · simp [hp]
        · simp [hp]
    · exact Or.inr rfl
  refine ⟨transfer L₁ t (.ready (s₁.kernel.threads t).priority), ?_, ?_,
    hT.transfer_suffix hl (by simp), h.values, fun u hu => ?_⟩
  · rw [hkernel]
    exact hT.makeReady ht
  · rw [hkernel]
    exact h.wakes.trans hW
  · obtain hl | hserved := h.served u hu
    · obtain rfl | hl := List.mem_cons.mp hl
      · refine Or.inr ⟨⟨?_, _, hT.rings.mem_transfer.mpr (Or.inr ⟨rfl, rfl⟩)⟩, fun p hp => ?_⟩
        · rw [hkernel]
          exact makeReady_status ..
        · rw [← h.values.2] at hp
          simp only [Option.mem_def] at hp
          simp [releaseJoiner, hp, h.values.1, hrun]
      · exact Or.inl hl
    · obtain ⟨⟨hst, p, hp⟩, hvalue⟩ := hserved
      refine Or.inr ⟨⟨?_, hW.ready u p hp⟩, fun p hp => ?_⟩
      · rw [hkernel]
        exact (hW.status u).elim (fun heq => heq.trans hst) id
      · exact (hmemory p).elim id fun heq => heq.trans (hvalue p hp)

/-- The loop of `thread_join_handler`: every thread of the list becomes ready and gets
the value. -/
theorem releaseJoiners_spec (hT : Threaded s.kernel A L)
    (hin : SchedList.join s.kernel.runningThread ∈ inUse A) :
    ∃ s₁ L₁, s.releaseJoiners = some s₁ ∧ Releasing A s L s₁ L₁ [] := by
  have hloop : ∃ s₁, s.releaseJoiners = some s₁ ∧
      ∃ l : List Tid, [] = l.map (Sum.inr : Tid → ListNode) ∧
        ∃ L₁, Releasing A s L s₁ L₁ l := by
    rw [releaseJoiners, hT.next_head hin]
    refine listForEachSafe_rule (fun s₁ nodes => ∃ l : List Tid, nodes = l.map Sum.inr ∧
      ∃ L₁, Releasing A s L s₁ L₁ l) ?_ ?_ (by simpa using hT.length_lt _)
      ⟨_, rfl, L, hT, Wakes.refl .., rfl, ⟨rfl, rfl⟩, fun t ht => Or.inl ht⟩
    · rintro s₁ x nodes ⟨l, hl, L₁, h⟩
      cases l with
      | nil => cases hl
      | cons t l =>
          obtain ⟨rfl, rfl⟩ := List.cons.inj hl
          have hl : L₁ (.join s.kernel.runningThread) = [] ++ t :: l := h.rest
          exact ⟨Sum.inr_ne_inl, h.threaded.next_thread hl⟩
    · rintro s₁ x nodes ⟨l, hl, L₁, h⟩
      cases l with
      | nil => cases hl
      | cons t l =>
          obtain ⟨rfl, rfl⟩ := List.cons.inj hl
          exact ⟨s₁.releaseJoiner t, rfl, l, rfl, h.step⟩
  obtain ⟨s₁, hs₁, l, hl, L₁, h⟩ := hloop
  obtain rfl : l = [] := by simpa using hl.symm
  exact ⟨s₁, L₁, hs₁, h⟩

theorem released_of_handler {value : Word} (hT : Threaded s.kernel {t | s.kernel.Alive t} L)
    (halive : s.kernel.Alive s.kernel.runningThread) (h : s.sysPthreadExit value = some s')
    (hvalue : e.value = some value) (hu : u ∈ L (.join s.kernel.runningThread)) :
    Released s e s' s.kernel.runningThread u := by
  have hin : SchedList.join s.kernel.runningThread ∈ inUse {t | s.kernel.Alive t} := fun v hv => by
    obtain rfl : s.kernel.runningThread = v := Option.some.inj hv
    exact halive
  simp only [sysPthreadExit, threadJoinHandler, Option.bind_eq_bind, Option.bind_eq_some_iff,
    Option.some.injEq] at h
  obtain ⟨s₁, hs₁, task, -, k, hleave, rfl⟩ := h
  obtain ⟨s₂, L₁, hs₂, hrel⟩ := releaseJoiners_spec
    (s := { s with retval := Function.update s.retval s.kernel.runningThread value }) hT hin
  obtain rfl : s₂ = s₁ := Option.some.inj (hs₂.symm.trans hs₁)
  have hrun : s₂.kernel.runningThread = s.kernel.runningThread := hrel.wakes.runningThread
  have hother : u ≠ s.kernel.runningThread := fun h => hT.not_self _ (h ▸ hu)
  have hk : k.links = s₂.kernel.links ∧ k.threads = s₂.kernel.threads ∧
      k.runningThread = s.kernel.runningThread := by
    obtain ⟨_, -, rfl⟩ := leaveTask_eq_some hleave
    rw [dropEmptyTask_eq]
    exact ⟨rfl, rfl, hrun⟩
  have hmembers : ∀ h, (k.terminate k.runningThread).members h = s₂.kernel.members h :=
    fun h => members_congr hk.1
  have hthreads : (k.terminate k.runningThread).threads u = s₂.kernel.threads u := by
    rw [hk.2.2, threads_terminate_of_ne hother, hk.2.1]
  obtain ⟨⟨hst, p, hp⟩, hmemory⟩ := (hrel.served u hu).resolve_left (by simp)
  refine ⟨?_, fun _ => ⟨?_, p, ?_⟩, fun _ v hv p hp => ?_⟩
  · rw [hmembers, hrel.threaded.members_eq hin, hrel.rest]
    exact List.not_mem_nil
  · rw [hthreads]
    exact hst
  · rwa [hmembers, hrel.threaded.members_eq (Threaded.ready_inUse p)]
  · obtain rfl : value = v := by simpa [hvalue] using hv
    simpa using hmemory p hp

/-- No thread that joins one that ends in the step stays behind. Those that `exit` ends with the
thread they join are not asked about. -/
def JoinersReleased (s : JoinSys) (e : JoinEvent) (s' : JoinSys) : Prop :=
  ∀ t, s.kernel.Alive t → ¬ s'.kernel.Alive t → ∀ u ∈ s.kernel.members (.join t),
    (∀ k ∈ e.kernelEvent, s.kernel.Exits k → u ∉ s.kernel.currentThreads) →
    Released s e s' t u

/-- The lists of the kernel are well formed and its joining threads are parked. -/
def Inv (s : JoinSys) : Prop :=
  ∃ L, Threaded s.kernel {t | s.kernel.Alive t} L ∧ Registered s.kernel ∧ Parked s.kernel L

theorem Inv.step (hinv : Inv s) (hok : s.EventOk e) (hstep : s.step e = some s') : Inv s' := by
  obtain ⟨L, hT, hR, hP⟩ := hinv
  obtain ⟨-, hsame⟩ | ⟨k, hk, hkstep⟩ := kernel_step hstep
  · rw [Inv, hsame]
    exact ⟨L, hT, hR, hP⟩
  · obtain ⟨heok, htasklet⟩ := hok k hk
    obtain ⟨L', hT', hR', hjoin⟩ := hP.step hT hR heok htasklet hkstep
    exact ⟨L', hT', hR', hjoin.parked⟩

theorem inv_of_run {memory : Word → Word} {es : List JoinEvent}
    (hok : Runs.AllOk EventOk step (start memory) es)
    (hrun : Runs.exec step (start memory) es = some s) : Inv s := by
  have hstart : Inv (start memory) := parked_schedStart
  exact Runs.exec_invariant (fun _ _ _ hinv hok hstep => Inv.step hinv hok hstep) hstart hok hrun

theorem handler_step {k : KernelEvent} (hstep : s.step e = some s') (hk : e.kernelEvent = some k)
    (hhandler : s.kernel.ByHandler k) : s.kernel.removes k = [s.kernel.runningThread] ∧
      ∃ value, e.value = some value ∧ s.sysPthreadExit value = some s' := by
  cases e with
  | pthreadExit value =>
      obtain rfl := Option.some.inj hk
      exact ⟨rfl, value, rfl, (Option.ite_none_right_eq_some.mp hstep).2⟩
  | threadReturn value =>
      obtain rfl := Option.some.inj hk
      obtain ⟨task, htask, hret⟩ :=
        Option.bind_eq_some_iff.mp (Option.ite_none_right_eq_some.mp hstep).2
      have hmain : s.kernel.runningThread ≠ s.kernel.mainThread task := by
        rintro hmain
        exact hhandler (by rw [htask, Option.map_some, hmain])
      rw [if_neg hmain] at hret
      exact ⟨if_neg hhandler, value, rfl, hret⟩
  | pthreadJoin tid p =>
      obtain rfl := Option.some.inj hk
      cases hhandler
  | store address value => cases hk
  | kernel k' =>
      obtain rfl : k' = k := Option.some.inj hk
      obtain ⟨hvalue, -⟩ := Option.ite_none_left_eq_some.mp hstep
      exfalso
      cases k' with
      | call c => cases c <;> simp [KernelEvent.hasValue, ByHandler] at hvalue hhandler
      | threadReturn => simp [KernelEvent.hasValue] at hvalue
      | _ => cases hhandler

theorem Inv.released_iff (hinv : Inv s) (hstep : s.step e = some s') :
    JoinersReleased s e s' ↔ ∀ k ∈ e.kernelEvent, s.kernel.JoinersOk k := by
  obtain ⟨L, hT, hR, hP⟩ := hinv
  obtain ⟨hk, hsame⟩ | ⟨k, hk, hkstep⟩ := kernel_step hstep
  · refine iff_of_true (fun t ht hdead => absurd ht (hsame ▸ hdead)) fun k hk' => ?_
    simp [hk] at hk'
  have hjoin : ∀ {t}, s.kernel.Alive t → s.kernel.members (.join t) = L (.join t) := fun ht =>
    hT.members_eq fun v hv => by
      obtain rfl := Option.some.inj hv
      exact ht
  simp only [hk, Option.mem_some_iff, forall_eq']
  constructor
  · intro hreleased
    by_contra hnot
    rw [JoinersOk, not_or] at hnot
    obtain ⟨hhandler, hnot⟩ := hnot
    simp only [not_forall] at hnot
    obtain ⟨t, ht, u, hu, hstays⟩ := hnot
    have hends := ends_step hkstep hhandler ht
    have halive := alive_of_removes hR hhandler ht
    have huL : u ∈ L (.join t) := hjoin halive ▸ hu
    have hr := hreleased t halive (hends.dead t ht) u hu fun k' hk' hexits => by
      obtain rfl : k = k' := by simpa [hk] using hk'
      rwa [← removes_of_exits hexits]
    -- nothing has made the joining thread ready
    have hst := (hr.ready (alive_step hkstep (hT.alive huL) hstays)).1
    rw [hends.threads u hstays, (hP.joining t halive u huL).1] at hst
    cases hst
  · intro hok t ht hdead u hu hexits
    have htr : t ∈ s.kernel.removes k := by
      by_contra hnot
      exact hdead (alive_step hkstep ht hnot)
    have huL : u ∈ L (.join t) := hjoin ht ▸ hu
    by_cases hhandler : s.kernel.ByHandler k
    · obtain ⟨hremoves, value, hvalue, hexit⟩ := handler_step hstep hk hhandler
      rw [hremoves, List.mem_singleton] at htr
      subst htr
      exact released_of_handler hT ht hexit hvalue huL
    · have hur := hok.resolve_left hhandler t htr u hu
      have hends := ends_step hkstep hhandler htr
      refine ⟨?_, fun h => absurd h (hends.dead u hur), fun h => absurd h (hends.dead u hur)⟩
      by_cases hexit : s.kernel.Exits k
      · exact absurd (removes_of_exits hexit ▸ hur) (hexits k hk hexit)
      · exact unlinked_step hT hR hP hkstep hhandler hexit htr huL hur

/-- After any run that keeps the lists well formed, a step releases all that join a thread
that it ends if and only if the thread ends by return or `pthread_exit` or nobody that
stays joins it. -/
theorem joinersReleased_iff {memory : Word → Word} {es : List JoinEvent}
    (hok : Runs.AllOk EventOk step (start memory) es)
    (hrun : Runs.exec step (start memory) es = some s) (hstep : s.step e = some s') :
    JoinersReleased s e s' ↔ ∀ k ∈ e.kernelEvent, s.kernel.JoinersOk k :=
  (inv_of_run hok hrun).released_iff hstep

def ofKernel : KernelEvent → JoinEvent
  | .call (.pthreadJoin tid) => .pthreadJoin tid none
  | .call .pthreadExit => .pthreadExit 0#32
  | .threadReturn => .threadReturn 0#32
  | e => .kernel e

def call (c : KernelCall) : List JoinEvent :=
  [.kernel .syscallHandler, ofKernel (.call c), .kernel .syscallReturn]

def createRun : List JoinEvent := bootRun.map ofKernel ++ call (.pthreadCreate none true)

/-- The main thread of a task creates two threads; the first joins the second. -/
def cancelRun : List JoinEvent :=
  createRun ++ call (.pthreadCreate none true) ++ [.kernel .schedule, .kernel .syscallHandler,
    .pthreadJoin 6 (some 16#32), .kernel .schedule, .kernel .schedule, .kernel .syscallHandler]

/-- The main thread joins the second too, which returns 7. -/
theorem joinersReleased_iff_at_return : ∃ s s',
    Runs.exec step (start fun _ => 0#32) (cancelRun ++ [.pthreadJoin 6 none, .kernel .schedule]) =
        some s ∧
      s.step (.threadReturn 7#32) = some s' ∧ s.kernel.members (.join 6) = [4, 5] ∧
      JoinersReleased s (.threadReturn 7#32) s' := by
  have hrun : ((Runs.exec step (start fun _ => 0#32)
      (cancelRun ++ [.pthreadJoin 6 none, .kernel .schedule])).map fun s =>
        ((s.step (.threadReturn 7#32)).isSome, s.kernel.members (.join 6),
          s.kernel.runningThread, s.kernel.currentTaskInfo.map s.kernel.mainThread)) =
      some (true, [4, 5], 6, some 5) := by decide +kernel
  obtain ⟨s, hs, hfacts⟩ := Option.map_eq_some_iff.mp hrun
  simp only [Prod.mk.injEq] at hfacts
  obtain ⟨hstep, hmembers, hrunning, hmain⟩ := hfacts
  obtain ⟨s', hs'⟩ := Option.isSome_iff_exists.mp hstep
  refine ⟨s, s', hs, hs', hmembers,
    (joinersReleased_iff (by decide +kernel) hs hs').mpr fun k hk => Or.inl ?_⟩
  obtain rfl : KernelEvent.threadReturn = k := Option.some.inj hk
  simp [ByHandler, hrunning, hmain]

/-- The main thread cancels the second: the first stays on the list of a thread that is gone. -/
theorem joinersReleased_not_after_cancel : ∃ s s',
    Runs.AllOk EventOk step (start fun _ => 0#32) cancelRun ∧
      Runs.exec step (start fun _ => 0#32) cancelRun = some s ∧
      s.step (.kernel (.call (.pthreadCancel 6))) = some s' ∧
      ¬ JoinersReleased s (.kernel (.call (.pthreadCancel 6))) s' := by
  have hrun : ((Runs.exec step (start fun _ => 0#32) cancelRun).map fun s =>
      (s.kernel.bitmapThreads 6, s.kernel.members (.join 6),
        (s.step (.kernel (.call (.pthreadCancel 6)))).map fun s' =>
          (s'.kernel.bitmapThreads 6, s'.kernel.members (.join 6)))) =
      some (true, [4], some (false, [4])) := by decide +kernel
  obtain ⟨s, hs, hfacts⟩ := Option.map_eq_some_iff.mp hrun
  simp only [Prod.mk.injEq, Option.map_eq_some_iff] at hfacts
  obtain ⟨halive, hmembers, s', hs', hdead, hmembers'⟩ := hfacts
  refine ⟨s, s', by decide +kernel, hs, hs', fun hreleased => ?_⟩
  have hdead' : ¬ s'.kernel.Alive 6 := by simp [Alive, hdead]
  have hr := hreleased 6 halive hdead' 4 (by simp [hmembers]) fun k hk hexits => by
    obtain rfl := Option.some.inj hk
    cases hexits
  exact hr.unlinked (by simp [hmembers'])

/-- The thread that was the `n`-th to get this ID has not ended. -/
def Exists (s : JoinSys) (tid : Tid) (n : Nat) : Prop := s.kernel.Alive tid ∧ s.created tid = n

/-- This thread ends with a value in the step. -/
structure EndsWith (s : JoinSys) (tid : Tid) (n : Nat) (e : JoinEvent) (value : Word) : Prop where
  runs : s.kernel.runningThread = tid
  number : s.created tid = n
  value : e.value = some value
  handler : ∀ k ∈ e.kernelEvent, s.kernel.ByHandler k

/-- A call of `pthread_join` in `s` for the `n`-th thread with this ID: it succeeds, it is
that thread that the caller waits for, and whatever happens until it ends, the caller gets
its value then. -/
structure JoinWorks (s : JoinSys) (tid : Tid) (n : Nat) (address : Option Word) (s₁ : JoinSys) :
    Prop where
  success : s.sysPthreadJoin tid address = some (s₁, .ok ())
  target : s₁.Exists tid n ∧ s.kernel.runningThread ∈ s₁.kernel.members (.join tid)
  value : ∀ es s₂ e v s₃, Runs.AllOk EventOk step s₁ es → Runs.exec step s₁ es = some s₂ →
    s₂.EndsWith tid n e v → s₂.EventOk e → s₂.step e = some s₃ →
    s₃.Exists s.kernel.runningThread (s.created s.kernel.runningThread) →
    (s₃.kernel.threads s.kernel.runningThread).status = .ready ∧ ∀ a ∈ address, s₃.memory a = v

/-- The thread has not ended and does not wait to join the caller. -/
def JoinInTime (s : JoinSys) (tid : Tid) (n : Nat) : Prop :=
  (tid ∈ s.kernel.threadsList ∧ s.created tid = n) ∧ s.kernel.joinDeadlock tid = some false

theorem releaseJoiners_keeps (h : s.releaseJoiners = some s') :
    s'.created = s.created ∧ s'.retvalJoin = s.retvalJoin := by
  refine listForEachSafe_induct
    (P := fun s₁ : JoinSys => s₁.created = s.created ∧ s₁.retvalJoin = s.retvalJoin)
    ⟨rfl, rfl⟩ (fun s₁ pos s₂ hs₁ hs₂ => ?_) h
  obtain ⟨t, -, rfl⟩ := Option.map_eq_some_iff.mp hs₂
  exact hs₁

theorem sysPthreadExit_keeps {value : Word} (h : s.sysPthreadExit value = some s') :
    s'.created = s.created ∧ s'.retvalJoin = s.retvalJoin ∧
      ∀ t, s'.kernel.Alive t → s.kernel.Alive t := by
  have hkernel := kernel_sysPthreadExit h
  simp only [sysPthreadExit, threadJoinHandler, Option.bind_eq_bind, Option.bind_eq_some_iff,
    Option.some.injEq] at h
  obtain ⟨s₁, hs₁, task, -, k, -, rfl⟩ := h
  obtain ⟨hcreated, hretvalJoin⟩ := releaseJoiners_keeps hs₁
  exact ⟨hcreated, hretvalJoin, fun t => Kernel.alive_of_threadJoinHandler hkernel⟩

theorem sysPthreadJoin_keeps {tid : Tid} {p : Option Word} {r : JoinSys × Except Errno Unit}
    (h : s.sysPthreadJoin tid p = some r) : r.1.created = s.created ∧
      ∀ t, r.1.kernel.Alive t ↔ s.kernel.Alive t := by
  have hbooks := SameBooks.sysPthreadJoin (kernel_sysPthreadJoin h)
  obtain ⟨kr, -, h⟩ := Option.bind_eq_some_iff.mp h
  obtain rfl := Option.some.inj h
  exact ⟨rfl, fun t => hbooks.alive_iff⟩

theorem created_step (hstep : s.step e = some s') (t : Tid) :
    (s'.created t = s.created t ∧ (s'.kernel.Alive t → s.kernel.Alive t)) ∨
      s'.created t = s.created t + 1 := by
  cases e with
  | pthreadJoin tid p =>
      obtain ⟨r, hr, rfl⟩ :=
        Option.map_eq_some_iff.mp (Option.ite_none_right_eq_some.mp hstep).2
      obtain ⟨hcreated, halive⟩ := sysPthreadJoin_keeps hr
      exact Or.inl ⟨congrFun hcreated t, (halive t).mp⟩
  | pthreadExit value =>
      obtain ⟨hcreated, -, halive⟩ :=
        sysPthreadExit_keeps (Option.ite_none_right_eq_some.mp hstep).2
      exact Or.inl ⟨congrFun hcreated t, halive t⟩
  | threadReturn value =>
      obtain ⟨task, htask, hret⟩ :=
        Option.bind_eq_some_iff.mp (Option.ite_none_right_eq_some.mp hstep).2
      split at hret
      · obtain ⟨k, hk, rfl⟩ := Option.map_eq_some_iff.mp hret
        exact Or.inl ⟨rfl, (Ends.sysExit htask hk).alive t⟩
      · obtain ⟨hcreated, -, halive⟩ := sysPthreadExit_keeps hret
        exact Or.inl ⟨congrFun hcreated t, halive t⟩
  | store address value =>
      obtain rfl := Option.some.inj hstep
      exact Or.inl ⟨rfl, id⟩
  | kernel k =>
      obtain ⟨-, hmap⟩ := Option.ite_none_left_eq_some.mp hstep
      obtain ⟨k', hk', rfl⟩ := Option.map_eq_some_iff.mp hmap
      simp only [runKernel]
      split
      · exact Or.inr rfl
      · next hold =>
          refine Or.inl ⟨rfl, fun halive => ?_⟩
          have hnew : k'.bitmapThreads t = true := halive
          have hthere : s.kernel.bitmapThreads t = true := by simpa [hnew] using hold
          exact hthere

theorem exists_before {n : Nat} (hstep : s.step e = some s') (hn : n ≤ s.created t)
    (hex : s'.Exists t n) : s.Exists t n := by
  obtain ⟨hsame, halive⟩ | hnext := created_step hstep t
  · exact ⟨halive hex.1, hsame ▸ hex.2⟩
  · have hcreated := hex.2
    omega

theorem zeroedSlot_dead {k : Kernel} {ke : KernelEvent} (h : k.zeroedSlot ke = some t) :
    ¬ k.Alive t := by
  have hfree : ∀ {attr : ThreadAttr} {kernelThread : Bool},
      k.freeSlot attr kernelThread = some t → ¬ k.Alive t := by
    intro attr kernelThread hfree
    rw [freeSlot] at hfree
    split at hfree
    · cases hfree
    · simpa [Alive] using List.find?_some hfree
  cases ke with
  | call c =>
      cases c with
      | pthreadCreate attr stack => exact hfree h
      | taskCreate priority kernelThread stack => exact hfree h
      | _ => cases h
  | _ => cases h

theorem retvalJoin_step (hstep : s.step e = some s') (ht : s.kernel.Alive t)
    (hrun : s.kernel.Executing → t ≠ s.kernel.runningThread) :
    s'.retvalJoin t = s.retvalJoin t := by
  cases e with
  | pthreadJoin tid p =>
      obtain ⟨hcall, hmap⟩ := Option.ite_none_right_eq_some.mp hstep
      obtain ⟨r, hr, rfl⟩ := Option.map_eq_some_iff.mp hmap
      obtain ⟨⟨k, result⟩, -, h⟩ := Option.bind_eq_some_iff.mp hr
      obtain rfl := Option.some.inj h
      cases result with
      | ok u => exact Function.update_of_ne (hrun hcall.1) ..
      | error err => rfl
  | pthreadExit value =>
      obtain ⟨-, hsame, -⟩ := sysPthreadExit_keeps (Option.ite_none_right_eq_some.mp hstep).2
      exact congrFun hsame t
  | threadReturn value =>
      obtain ⟨task, -, hret⟩ :=
        Option.bind_eq_some_iff.mp (Option.ite_none_right_eq_some.mp hstep).2
      split at hret
      · obtain ⟨k, -, rfl⟩ := Option.map_eq_some_iff.mp hret
        rfl
      · obtain ⟨-, hsame, -⟩ := sysPthreadExit_keeps hret
        exact congrFun hsame t
  | store address value =>
      obtain rfl := Option.some.inj hstep
      rfl
  | kernel k =>
      obtain ⟨-, hmap⟩ := Option.ite_none_left_eq_some.mp hstep
      obtain ⟨k', hk', rfl⟩ := Option.map_eq_some_iff.mp hmap
      exact if_neg fun hslot => zeroedSlot_dead hslot ht

/-- While both exist, the `m`-th thread `j` is on the join list of the `n`-th thread `tid`,
and these are not threads to come. -/
structure Waits (s : JoinSys) (tid : Tid) (n : Nat) (j : Tid) (m : Nat) (address : Option Word) :
    Prop where
  inv : Inv s
  numbers : n ≤ s.created tid ∧ m ≤ s.created j
  waiting : s.Exists tid n → s.Exists j m →
    j ∈ s.kernel.members (.join tid) ∧ s.retvalJoin j = address

theorem Waits.step {tid j : Tid} {n m : Nat} {address : Option Word}
    (h : Waits s tid n j m address) (hok : s.EventOk e) (hstep : s.step e = some s') :
    Waits s' tid n j m address := by
  have hmono : ∀ t, s.created t ≤ s'.created t := fun t => by
    obtain ⟨hsame, -⟩ | hnext := created_step hstep t
    · exact hsame.ge
    · omega
  refine ⟨h.inv.step hok hstep, ⟨h.numbers.1.trans (hmono tid), h.numbers.2.trans (hmono j)⟩,
    fun htid hj => ?_⟩
  have htid₀ := exists_before hstep h.numbers.1 htid
  have hj₀ := exists_before hstep h.numbers.2 hj
  obtain ⟨hmem, haddress⟩ := h.waiting htid₀ hj₀
  obtain ⟨L, hT, hR, hP⟩ := h.inv
  have hin : ∀ {k : Kernel} {t}, k.Alive t → SchedList.join t ∈ inUse {u | k.Alive u} :=
    fun ht u hu => by
      obtain rfl := Option.some.inj hu
      exact ht
  rw [hT.members_eq (hin htid₀.1)] at hmem
  refine ⟨?_, (retvalJoin_step hstep hj₀.1 fun hexec =>
    hP.joining_ne_running hT hexec rfl hmem).trans haddress⟩
  obtain ⟨-, hsame⟩ | ⟨k, hk, hkstep⟩ := kernel_step hstep
  · rwa [hsame, hT.members_eq (hin htid₀.1)]
  · obtain ⟨heok, htasklet⟩ := hok k hk
    obtain ⟨L', hT', -, hjoin⟩ := hP.step hT hR heok htasklet hkstep
    rw [hT'.members_eq (hin htid.1)]
    exact (hjoin.joins tid htid₀.1 htid.1 j).mpr (Or.inl ⟨hmem, hj.1⟩)

theorem Waits.run {tid j : Tid} {n m : Nat} {address : Option Word} {es : List JoinEvent}
    (h : Waits s tid n j m address) (hok : Runs.AllOk EventOk JoinSys.step s es)
    (hrun : Runs.exec JoinSys.step s es = some s') : Waits s' tid n j m address :=
  Runs.exec_invariant (fun _ _ _ h hok hstep => Waits.step h hok hstep) h hok hrun

theorem Waits.served {tid j : Tid} {n m : Nat} {address : Option Word} {value : Word}
    (h : Waits s tid n j m address) (hends : s.EndsWith tid n e value) (hok : s.EventOk e)
    (hstep : s.step e = some s') (hj : s'.Exists j m) :
    (s'.kernel.threads j).status = .ready ∧ ∀ a ∈ address, s'.memory a = value := by
  obtain ⟨L, hT, -, -⟩ := h.inv
  obtain ⟨k, hk⟩ : ∃ k, e.kernelEvent = some k := by
    cases e with
    | store address value => cases hends.value
    | _ => exact ⟨_, rfl⟩
  have hhandler := hends.handler k hk
  have halive : s.kernel.Alive s.kernel.runningThread :=
    (hT.running _ (unqueued_of_handler hhandler (hok k hk).1)).2
  obtain ⟨-, v, hv, hexit⟩ := handler_step hstep hk hhandler
  obtain rfl : value = v := Option.some.inj (hends.value.symm.trans hv)
  obtain ⟨hmem, haddress⟩ := h.waiting ⟨hends.runs ▸ halive, hends.number⟩
    (exists_before hstep h.numbers.2 hj)
  have hin : SchedList.join s.kernel.runningThread ∈ inUse {t | s.kernel.Alive t} := fun u hu => by
    obtain rfl := Option.some.inj hu
    exact halive
  rw [← hends.runs, hT.members_eq hin] at hmem
  have hr := released_of_handler hT halive hexit hv hmem
  exact ⟨(hr.ready hj.1).1, fun a ha => hr.value hj.1 value hv a (haddress ▸ ha)⟩

theorem Inv.works_iff {s₁ : JoinSys} {tid : Tid} {n : Nat} {address : Option Word}
    (hinv : Inv s) (hcall : s.EventOk (.pthreadJoin tid address))
    (hstep : s.step (.pthreadJoin tid address) = some s₁)
    (hjoinable : tid ∈ s.kernel.threadsList → s.created tid = n →
      (s.kernel.threads tid).detached = false ∧ (s.kernel.threads tid).joinable = true) :
    JoinWorks s tid n address s₁ ↔ JoinInTime s tid n := by
  obtain ⟨⟨s₂, result⟩, hjoin, heq⟩ :=
    Option.map_eq_some_iff.mp (Option.ite_none_right_eq_some.mp hstep).2
  obtain rfl : s₂ = s₁ := heq
  have hkernel := kernel_sysPthreadJoin hjoin
  obtain ⟨hcreated, halive⟩ := sysPthreadJoin_keeps hjoin
  constructor
  · intro hworks
    have hok : result = .ok () := by simpa [hjoin] using hworks.success
    obtain ⟨-, -, err, herr⟩ | ⟨hjoins, -⟩ := sysPthreadJoin_cases hkernel
    · cases herr.symm.trans hok
    · exact ⟨⟨hjoins.1, hcreated ▸ hworks.target.1.2⟩, hjoins.2.2.2⟩
  · rintro ⟨⟨hmem, hnumber⟩, hdeadlock⟩
    obtain ⟨hdetached, hjoinable⟩ := hjoinable hmem hnumber
    have hjoins : s.kernel.Joins tid := ⟨hmem, hdetached, hjoinable, hdeadlock⟩
    obtain ⟨hnot, -⟩ | ⟨-, hr⟩ := sysPthreadJoin_cases hkernel
    · exact absurd hjoins hnot
    obtain rfl : result = .ok () := (Prod.mk.inj hr).2
    have haddress : s₂.retvalJoin s.kernel.runningThread = address := by
      simp only [sysPthreadJoin, hkernel, Option.bind_eq_bind, Option.bind_some, Option.some.injEq,
        Prod.mk.injEq] at hjoin
      rw [← hjoin.1]
      exact Function.update_self ..
    obtain ⟨L, hT, hR, hP⟩ := hinv
    have hexists : s₂.Exists tid n :=
      ⟨(halive tid).mpr (hR.threadsList.2 tid hmem), by rw [hcreated, hnumber]⟩
    obtain ⟨heok, htasklet⟩ := hcall _ rfl
    obtain ⟨hk, -⟩ | ⟨k, hk, hkstep⟩ := kernel_step hstep
    · cases hk
    obtain rfl := Option.some.inj hk
    obtain ⟨L', hT', hR', hparked⟩ := hP.step hT hR heok htasklet hkstep
    have hqueued : s.kernel.runningThread ∈ s₂.kernel.members (.join tid) := by
      rw [hT'.members_eq fun u hu => by
        obtain rfl := Option.some.inj hu
        exact hexists.1]
      exact (hparked.joins tid (hR.threadsList.2 tid hmem) hexists.1 _).mpr
        (Or.inr ⟨rfl, hjoins, rfl⟩)
    have hwaits : Waits s₂ tid n s.kernel.runningThread (s.created s.kernel.runningThread)
        address :=
      ⟨⟨L', hT', hR', hparked.parked⟩, ⟨hexists.2.ge, by rw [hcreated]⟩,
        fun _ _ => ⟨hqueued, haddress⟩⟩
    exact ⟨hjoin, ⟨hexists, hqueued⟩, fun es s₃ e v s₄ hok hrun hends heok hend hj =>
      (hwaits.run hok hrun).served hends heok hend hj⟩

/-- After any run that keeps the lists well formed, a call of `pthread_join` for a joinable
thread gets the value with which that thread will end if and only if the thread has not
ended yet and does not wait for the caller. -/
theorem joinWorks_iff {memory : Word → Word} {es : List JoinEvent} {s₁ : JoinSys} {tid : Tid}
    {n : Nat} {address : Option Word} (hok : Runs.AllOk EventOk step (start memory) es)
    (hrun : Runs.exec step (start memory) es = some s)
    (hcall : s.EventOk (.pthreadJoin tid address))
    (hstep : s.step (.pthreadJoin tid address) = some s₁)
    (hjoinable : tid ∈ s.kernel.threadsList → s.created tid = n →
      (s.kernel.threads tid).detached = false ∧ (s.kernel.threads tid).joinable = true) :
    JoinWorks s tid n address s₁ ↔ JoinInTime s tid n :=
  (inv_of_run hok hrun).works_iff hcall hstep hjoinable

/-- The new thread has not run yet. -/
theorem joinWorks_iff_at_create : ∃ s s₁,
    Runs.exec step (start fun _ => 0#32) (createRun ++ [.kernel .syscallHandler]) = some s ∧
      s.step (.pthreadJoin 4 (some 16#32)) = some s₁ ∧ JoinWorks s 4 2 (some 16#32) s₁ := by
  have hrun : ((Runs.exec step (start fun _ => 0#32) (createRun ++ [.kernel .syscallHandler])).map
      fun s => ((s.step (.pthreadJoin 4 (some 16#32))).isSome &&
        decide (s.EventOk (.pthreadJoin 4 (some 16#32))) && decide (4 ∈ s.kernel.threadsList) &&
        !(s.kernel.threads 4).detached && (s.kernel.threads 4).joinable,
        s.created 4, s.kernel.joinDeadlock 4)) = some (true, 2, some false) := by decide +kernel
  obtain ⟨s, hs, hfacts⟩ := Option.map_eq_some_iff.mp hrun
  simp only [Prod.mk.injEq, Bool.and_eq_true, decide_eq_true_eq, Bool.not_eq_true'] at hfacts
  obtain ⟨⟨⟨⟨⟨hstep, hcall⟩, hmem⟩, hdetached⟩, hjoinable⟩, hcreated, hdeadlock⟩ := hfacts
  obtain ⟨s₁, hs₁⟩ := Option.isSome_iff_exists.mp hstep
  exact ⟨s, s₁, hs, hs₁, (joinWorks_iff (by decide +kernel) hs hcall hs₁ fun _ _ =>
    ⟨hdetached, hjoinable⟩).mpr ⟨⟨hmem, hcreated⟩, hdeadlock⟩⟩

/-- The new thread returns 7 and its creator makes another one before the join. -/
def reuseRun : List JoinEvent :=
  createRun ++ [.kernel .schedule, .threadReturn 7#32, .kernel .schedule] ++
    call (.pthreadCreate none true) ++ [.kernel .syscallHandler]

/-- The caller now waits for the third thread with this ID. -/
theorem joinWorks_not_after_return : ∃ s s₁,
    Runs.AllOk EventOk step (start fun _ => 0#32) reuseRun ∧
      Runs.exec step (start fun _ => 0#32) reuseRun = some s ∧
      s.step (.pthreadJoin 4 (some 16#32)) = some s₁ ∧
      s₁.kernel.members (.join 4) = [5] ∧ ¬ JoinWorks s 4 2 (some 16#32) s₁ := by
  have hrun : ((Runs.exec step (start fun _ => 0#32) reuseRun).map fun s =>
      (s.step (.pthreadJoin 4 (some 16#32))).map fun s₁ =>
        (s₁.kernel.members (.join 4), s₁.created 4)) = some (some ([5], 3)) := by decide +kernel
  obtain ⟨s, hs, hfacts⟩ := Option.map_eq_some_iff.mp hrun
  obtain ⟨s₁, hs₁, hfacts⟩ := Option.map_eq_some_iff.mp hfacts
  simp only [Prod.mk.injEq] at hfacts
  refine ⟨s, s₁, by decide +kernel, hs, hs₁, hfacts.1, fun hworks => ?_⟩
  have hnumber := hworks.target.1.2
  rw [hfacts.2] at hnumber
  cases hnumber

end JoinSys

end Tenok
