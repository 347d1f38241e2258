import Tenok.Kernel.Tasks

/-!
Tasks over whole runs: when every task that lost its last thread is removed with its
descriptors. Nothing here depends on the scheduling lists.
-/
namespace Tenok
open Ring

namespace Kernel
variable {k k' : Kernel} {E : Set Pid} {t : Tid} {task : Pid}

/-- The books of the tasks outside `E` are right, and those of `E` are still marked. -/
structure TaskBooks (E : Set Pid) (k : Kernel) : Prop where
  threadsList : k.threadsList.Nodup ∧ ∀ t ∈ k.threadsList, k.Alive t
  members : ∀ p, (k.taskThreads p).Nodup ∧
    ∀ t ∈ k.taskThreads p, k.Alive t ∧ (k.threads t).task = some p
  listed : ∀ t p, k.Alive t → (k.threads t).task = some p → t ∈ k.taskThreads p
  marked : ∀ p ∉ E, (k.bitmapTasks p = true ↔ k.taskThreads p ≠ [])
  open_ : ∀ p ∈ E, k.bitmapTasks p = true
  tasksList : k.tasksList.Nodup ∧ ∀ p, p ∈ k.tasksList ↔ k.bitmapTasks p = true

theorem LastOk.callerAlive {e : KernelEvent} (h : k.LastOk e) : k.CallerAlive e := by
  cases e with
  | call c => exact h.1
  | threadReturn => exact h.1
  | _ => trivial

namespace TaskBooks

theorem same (h : TaskBooks E k) (hsame : SameBooks k k') : TaskBooks E k' := by
  refine ⟨?_, fun p => ?_, fun t p ht htask => ?_, fun p hp => ?_, fun p hp => ?_, ?_⟩
  · simpa only [Alive, hsame.bitmapThreads, hsame.threadsList] using h.threadsList
  · simpa only [Alive, hsame.bitmapThreads, hsame.taskThreads, hsame.task] using h.members p
  · rw [hsame.taskThreads]
    exact h.listed t p (hsame.alive_iff.mp ht) ((hsame.task t).symm.trans htask)
  · rw [hsame.bitmapTasks, hsame.taskThreads]
    exact h.marked p hp
  · rw [hsame.bitmapTasks]
    exact h.open_ p hp
  · rw [hsame.bitmapTasks, hsame.tasksList]
    exact h.tasksList

theorem marked_of_mem (h : TaskBooks E k) (ht : t ∈ k.taskThreads task) :
    k.bitmapTasks task = true := by
  by_cases htask : task ∈ E
  · exact h.open_ task htask
  · exact (h.marked task htask).mpr (List.ne_nil_of_mem ht)

theorem reopen (h : TaskBooks E k) (htask : k.bitmapTasks task = true) :
    TaskBooks (insert task E) k where
  threadsList := h.threadsList
  members := h.members
  listed := h.listed
  marked p hp := h.marked p fun hpE => hp (Or.inr hpE)
  open_ p hp := by
    obtain rfl | hp := hp
    · exact htask
    · exact h.open_ p hp
  tasksList := h.tasksList

theorem close (h : TaskBooks (insert task E) k) (hne : k.taskThreads task ≠ []) :
    TaskBooks (E \ {task}) k where
  threadsList := h.threadsList
  members := h.members
  listed := h.listed
  marked p hp := by
    by_cases hpt : p = task
    · exact hpt ▸ iff_of_true (h.open_ task (Or.inl rfl)) hne
    · exact h.marked p (by rintro (hpt' | hpE); exacts [hpt hpt', hp ⟨hpE, hpt⟩])
  open_ p hp := h.open_ p (Or.inr hp.1)
  tasksList := h.tasksList

theorem delete (h : TaskBooks (insert task E) k) (hempty : k.taskThreads task = []) :
    TaskBooks (E \ {task}) (k.taskDelete task) where
  threadsList := h.threadsList
  members := h.members
  listed := h.listed
  marked p hp := by
    by_cases hpt : p = task
    · subst hpt
      simp [taskDelete, hempty]
    · have hpE : p ∉ insert task E := by
        rintro (hpt' | hpE)
        · exact hpt hpt'
        · exact hp ⟨hpE, hpt⟩
      simpa [taskDelete, hpt] using h.marked p hpE
  open_ p hp := by
    have hpt : p ≠ task := hp.2
    simpa [taskDelete, hpt] using h.open_ p (Or.inr hp.1)
  tasksList := by
    refine ⟨h.tasksList.1.erase task, fun p => ?_⟩
    by_cases hp : p = task
    · subst hp
      simp [taskDelete, h.tasksList.1.mem_erase_iff]
    · simpa [taskDelete, hp] using h.tasksList.2 p

theorem dropEmptyTask (h : TaskBooks (insert task E) k) :
    TaskBooks (E \ {task}) (k.dropEmptyTask task) := by
  rw [Kernel.dropEmptyTask]
  split
  · next hempty => exact h.delete hempty
  · next hne => exact h.close hne

theorem dropEmptyTask_of_ne (hne : k.taskThreads task ≠ []) : k.dropEmptyTask task = k :=
  if_neg hne

theorem ended (h : TaskBooks E k) (hended : Ended t task k k') (halive : k.Alive t) :
    TaskBooks (insert task E) k' := by
  have hmem := h.listed t task halive hended.owner
  have hlist : ∀ p, k'.taskThreads p = (k.taskThreads p).erase t := fun p => by
    rw [hended.taskThreads]
    by_cases hp : p = task
    · rw [hp, Function.update_self]
    · rw [Function.update_of_ne hp, List.erase_of_not_mem fun ht => hp ?_]
      exact Option.some.inj (((h.members p).2 t ht).2.symm.trans hended.owner)
  have hsub : ∀ p u, u ∈ k'.taskThreads p ↔ u ≠ t ∧ u ∈ k.taskThreads p := fun p u => by
    rw [hlist]
    exact (h.members p).1.mem_erase_iff
  refine ⟨?_, fun p => ⟨?_, fun u hu => ?_⟩, fun u p hu hp => ?_, fun p hp => ?_, fun p hp => ?_, ?_⟩
  · rw [hended.threadsList]
    refine ⟨h.threadsList.1.erase t, fun u hu => ?_⟩
    rw [h.threadsList.1.mem_erase_iff] at hu
    exact hended.alive_iff.mpr ⟨hu.1, h.threadsList.2 u hu.2⟩
  · rw [hlist]
    exact (h.members p).1.erase t
  · obtain ⟨hut, hu⟩ := (hsub p u).mp hu
    rw [hended.task]
    exact ⟨hended.alive_iff.mpr ⟨hut, ((h.members p).2 u hu).1⟩, ((h.members p).2 u hu).2⟩
  · obtain ⟨hut, hu⟩ := hended.alive_iff.mp hu
    rw [hended.task] at hp
    exact (hsub p u).mpr ⟨hut, h.listed u p hu hp⟩
  · have hother : k'.taskThreads p = k.taskThreads p := by
      rw [hended.taskThreads, Function.update_of_ne fun hpt => hp (Or.inl hpt)]
    rw [hended.bitmapTasks, hother]
    exact h.marked p fun hpE => hp (Or.inr hpE)
  · rw [hended.bitmapTasks]
    obtain rfl | hp := hp
    · exact h.marked_of_mem hmem
    · exact h.open_ p hp
  · rw [hended.bitmapTasks, hended.tasksList]
    exact h.tasksList

theorem current (h : TaskBooks E k) (halive : k.Alive k.runningThread)
    (htask : k.currentTaskInfo = some task) : k.runningThread ∈ k.taskThreads task :=
  h.listed _ _ halive htask

/-- `thread_delete` is given a thread that is on the list of a task. It leaves nothing
behind if a thread remains there, or if the task is the caller's. -/
theorem threadDelete {current : Pid} (h : TaskBooks E k) (hdelete : k.threadDelete t = some k')
    (halive : k.Alive t) (hcurrent : k.currentTaskInfo = some current)
    (hmarked : k.bitmapTasks current = true) :
    ∃ E', TaskBooks E' k' ∧ (E = ∅ → ((k.threads t).task = some current ∨
      ∀ p, (k.threads t).task = some p → k.taskThreads p ≠ [t]) → E' = ∅) := by
  obtain ⟨task, k₁, current', hended, hcurrent', rfl⟩ := threadDelete_ended hdelete
  obtain rfl : current' = current := Option.some.inj (hcurrent'.symm.trans hcurrent)
  have h₁ := h.ended hended halive
  by_cases htask : task = current'
  · subst htask
    exact ⟨_, h₁.dropEmptyTask, fun hE _ => by simp [hE]⟩
  · have hmarked₁ : k₁.bitmapTasks current' = true := by
      rw [hended.bitmapTasks]
      exact hmarked
    by_cases hremains : k₁.taskThreads task = []
    · refine ⟨_, (h₁.reopen hmarked₁).dropEmptyTask, fun hE hok => ?_⟩
      have hne : k.taskThreads task ≠ [t] := hok.resolve_left (fun hown => htask
        (Option.some.inj (hended.owner.symm.trans hown))) task hended.owner
      rw [hended.taskThreads, Function.update_self, List.erase_eq_nil_iff] at hremains
      exact absurd (hremains.resolve_right hne)
        (List.ne_nil_of_mem (h.listed t task halive hended.owner))
    · have h₂ := h₁.close hremains
      exact ⟨_, (h₂.reopen hmarked₁).dropEmptyTask, fun hE _ => by simp [hE]⟩

/-- The loop that kills the threads of a task. Of the caller's own task nothing is left. -/
theorem killLoop {T : List Tid} (h : TaskBooks E k) (hT : k.taskThreads task = T)
    (hcaller : ∀ current, k.currentTaskInfo = some current → task ≠ current →
      k.taskThreads current ≠ [])
    (hloop : T.foldlM (fun k t => k.handleSignal t .kill) k = some k') :
    ∃ E', TaskBooks E' k' ∧ (E = ∅ → k.currentTaskInfo = some task → E' = ∅) := by
  induction T generalizing k E with
  | nil =>
      obtain rfl := Option.some.inj hloop
      exact ⟨E, h, fun hE _ => hE⟩
  | cons t T ih =>
      obtain ⟨k₂, hk₂, hrest⟩ := Option.bind_eq_some_iff.mp hloop
      have htouched := Touched.endSigwait t k .kill
      have hsame := SameBooks.of_touched htouched
      have h₁ := h.same hsame
      have hT₁ : (k.endSigwait t .kill).taskThreads task = t :: T := by
        rw [hsame.taskThreads, hT]
      obtain ⟨halive, howner⟩ := (h₁.members task).2 t (hT₁ ▸ List.mem_cons_self)
      obtain ⟨task', k₃, current, hended, hcurrent₁, heq⟩ := threadDelete_ended hk₂
      obtain rfl : task' = task := Option.some.inj (hended.owner.symm.trans howner)
      have hcurrent : k.currentTaskInfo = some current := by
        rw [currentTaskInfo, htouched.runningThread, hsame.task] at hcurrent₁
        exact hcurrent₁
      have hmarked : (k.endSigwait t .kill).bitmapTasks current = true := by
        by_cases htask : task' = current
        · exact htask ▸ h₁.marked_of_mem (hT₁ ▸ List.mem_cons_self : t ∈ _)
        · obtain ⟨u, hu⟩ := List.exists_mem_of_ne_nil _ (hcaller current hcurrent htask)
          rw [hsame.bitmapTasks]
          exact h.marked_of_mem hu
      obtain ⟨E₂, h₂, hE₂⟩ := h₁.threadDelete hk₂ halive hcurrent₁ hmarked
      rw [dropEmptyTask_eq] at heq
      subst heq
      have hcurrent₃ : k₃.currentTaskInfo = some current := hended.current.trans hcurrent₁
      obtain ⟨E', h', hE'⟩ := ih h₂ (by
        change k₃.taskThreads task' = T
        rw [hended.taskThreads, Function.update_self, hT₁, List.erase_cons_head]) (by
        intro current' hcurrent' htask
        obtain rfl : current' = current := Option.some.inj (hcurrent'.symm.trans hcurrent₃)
        change k₃.taskThreads current' ≠ []
        rw [hended.taskThreads, Function.update_of_ne (Ne.symm htask), hsame.taskThreads]
        exact hcaller current' hcurrent htask) hrest
      refine ⟨E', h', fun hE htask => hE' (hE₂ hE (Or.inl ?_)) ?_⟩
      · rw [howner, ← htask, hcurrent]
      · exact hcurrent₃.trans (hcurrent.symm.trans htask)

theorem exitLoop {T : List Tid} (h : TaskBooks (insert task E) k) (hT : k.taskThreads task = T)
    (hloop : T.foldlM Kernel.exitThread k = some k') :
    TaskBooks (insert task E) k' ∧ k'.taskThreads task = [] := by
  induction T generalizing k with
  | nil =>
      obtain rfl := Option.some.inj hloop
      exact ⟨h, hT⟩
  | cons t T ih =>
      obtain ⟨k₁, hk₁, hrest⟩ := Option.bind_eq_some_iff.mp hloop
      obtain ⟨halive, howner⟩ := (h.members task).2 t (hT ▸ List.mem_cons_self)
      obtain ⟨task', hended⟩ := exitThread_ended hk₁
      obtain rfl : task' = task := Option.some.inj (hended.owner.symm.trans howner)
      have h₁ := h.ended hended halive
      rw [Set.insert_idem] at h₁
      refine ih h₁ ?_ hrest
      rw [hended.taskThreads, Function.update_self, hT, List.erase_cons_head]

theorem sysExit (h : TaskBooks E k) (halive : k.Alive k.runningThread)
    (htask : k.currentTaskInfo = some task) (hexit : k.sysExit = some k') :
    TaskBooks (E \ {task}) k' := by
  simp only [Kernel.sysExit, htask, Option.bind_eq_bind, Option.bind_some, Option.bind_eq_some_iff,
    Option.some.injEq] at hexit
  obtain ⟨k₁, hk₁, rfl⟩ := hexit
  have hmarked := h.marked_of_mem (h.current halive htask)
  obtain ⟨h₁, hempty⟩ := (h.reopen hmarked).exitLoop rfl hk₁
  exact h₁.delete hempty

theorem threadJoinHandler (h : TaskBooks E k) (halive : k.Alive k.runningThread)
    (hjoin : k.threadJoinHandler = some k') :
    ∃ E', TaskBooks E' k' ∧ (E = ∅ → k.JoinHandlerOk → E' = ∅) := by
  obtain ⟨k₁, current, task, hsame, hcurrent, hrun, hended⟩ := threadJoinHandler_ended hjoin
  have hself := h.current halive hcurrent
  have hne : k₁.taskThreads current ≠ [] := by
    rw [hsame.taskThreads]
    exact List.ne_nil_of_mem hself
  -- the caller is still on the list, so nothing is deleted here
  rw [dropEmptyTask_of_ne hne] at hended
  have h₁ := h.same hsame
  have halive₁ : k₁.Alive k.runningThread := hsame.alive_iff.mpr halive
  obtain rfl : task = current := by
    refine Option.some.inj (hended.owner.symm.trans ?_)
    rw [hsame.task]
    exact hcurrent
  have h₂ := h₁.ended hended halive₁
  by_cases hlast : k'.taskThreads task = []
  · refine ⟨_, h₂, fun _ hok => ?_⟩
    rw [hended.taskThreads, Function.update_self, hsame.taskThreads,
      List.erase_eq_nil_iff] at hlast
    exact absurd (hlast.resolve_right (hok task hcurrent)) (List.ne_nil_of_mem hself)
  · exact ⟨_, h₂.close hlast, fun hE _ => by simp [hE]⟩

theorem threadCreate {attr : ThreadAttr} {kernelThread stack : Bool} {r : Except Errno Tid}
    (h : TaskBooks E k) (hcreate : k.threadCreate attr kernelThread stack = (k', r)) :
    TaskBooks E k' ∧ k'.taskThreads = k.taskThreads ∧ k'.bitmapTasks = k.bitmapTasks ∧
      k'.tasksList = k.tasksList ∧
      ∀ tid, r = .ok tid → k'.Alive tid ∧ (k'.threads tid).task = none := by
  have hrest : k'.bitmapTasks = k.bitmapTasks ∧ k'.tasksList = k.tasksList ∧
      ∀ tid, r = .ok tid → (k'.threads tid).task = none := by
    simp only [Kernel.threadCreate] at hcreate
    split at hcreate
    · obtain ⟨rfl, rfl⟩ := Prod.mk.inj hcreate
      exact ⟨rfl, rfl, by simp⟩
    · split at hcreate
      · obtain ⟨rfl, rfl⟩ := Prod.mk.inj hcreate
        exact ⟨rfl, rfl, by simp⟩
      · split at hcreate
        · obtain ⟨rfl, rfl⟩ := Prod.mk.inj hcreate
          exact ⟨rfl, rfl, fun tid htid => by
            obtain rfl := Except.ok.inj htid
            simp [setupThread, setThread]⟩
        · obtain ⟨rfl, rfl⟩ := Prod.mk.inj hcreate
          exact ⟨rfl, rfl, by simp⟩
  obtain ⟨hbitmapTasks, htasksList, htask⟩ := hrest
  obtain ⟨e, he⟩ | ⟨tid, -, hdead, he | ⟨k₁, he, -, hthreads, -, hbitmap, hlist, htasks, -, -⟩⟩ :=
    threadCreate_cases k attr kernelThread stack
  · obtain ⟨rfl, rfl⟩ := Prod.mk.inj (he.symm.trans hcreate)
    exact ⟨h, rfl, rfl, rfl, by simp⟩
  · obtain ⟨rfl, rfl⟩ := Prod.mk.inj (he.symm.trans hcreate)
    have hother : ∀ u, k.Alive u → (k.setThread tid fun _ => {}).threads u = k.threads u :=
      fun u hu => by simp [setThread, show u ≠ tid from fun hut => hdead (hut ▸ hu)]
    refine ⟨⟨h.threadsList, fun p => ⟨(h.members p).1, fun u hu => ?_⟩, fun u p hu hp => ?_,
      h.marked, h.open_, h.tasksList⟩, rfl, rfl, rfl, by simp⟩
    · rw [hother u ((h.members p).2 u hu).1]
      exact (h.members p).2 u hu
    · rw [hother u hu] at hp
      exact h.listed u p hu hp
  · obtain ⟨rfl, rfl⟩ := Prod.mk.inj (he.symm.trans hcreate)
    have halive : ∀ u, k₁.Alive u ↔ u = tid ∨ k.Alive u := fun u => by
      by_cases hut : u = tid
      · simp [Alive, hbitmap, hut]
      · simp [Alive, hbitmap, hut]
    have hold : ∀ u, k.Alive u → u ≠ tid := fun u hu hut => hdead (hut ▸ hu)
    refine ⟨⟨?_, fun p => ⟨?_, fun u hu => ?_⟩, fun u p hu hp => ?_, fun p hp => ?_,
      fun p hp => ?_, ?_⟩, htasks, hbitmapTasks, htasksList, fun t ht => ?_⟩
    · rw [hlist]
      refine ⟨List.nodup_append.mpr ⟨h.threadsList.1, List.nodup_singleton tid, ?_⟩, fun u hu => ?_⟩
      · rintro u hu v hv rfl
        exact hold u (h.threadsList.2 u hu) (List.mem_singleton.mp hv)
      · rw [List.mem_append, List.mem_singleton] at hu
        exact (halive u).mpr (hu.symm.imp_right (h.threadsList.2 u))
    · rw [htasks]
      exact (h.members p).1
    · rw [htasks] at hu
      have hu' := (h.members p).2 u hu
      rw [hthreads u (hold u hu'.1)]
      exact ⟨(halive u).mpr (Or.inr hu'.1), hu'.2⟩
    · rw [htasks]
      obtain rfl | hu := (halive u).mp hu
      · rw [htask u rfl] at hp
        cases hp
      · rw [hthreads u (hold u hu)] at hp
        exact h.listed u p hu hp
    · rw [htasks, hbitmapTasks]
      exact h.marked p hp
    · rw [hbitmapTasks]
      exact h.open_ p hp
    · rw [hbitmapTasks, htasksList]
      exact h.tasksList
    · obtain rfl := Except.ok.inj ht
      exact ⟨(halive tid).mpr (Or.inl rfl), htask tid rfl⟩

theorem enterTask {l : List Tid} (h : TaskBooks E k) (halive : k.Alive t)
    (hnone : (k.threads t).task = none) (hl : l.Perm (t :: k.taskThreads task))
    (hk' : k'.bitmapThreads = k.bitmapThreads ∧ k'.threadsList = k.threadsList ∧
      k'.threads = (k.enterTask t task l).threads ∧
      k'.taskThreads = (k.enterTask t task l).taskThreads)
    (hmarked : ∀ p, k'.bitmapTasks p = true ↔ p = task ∨ k.bitmapTasks p = true)
    (htasks : k'.tasksList.Nodup ∧ ∀ p, p ∈ k'.tasksList ↔ k'.bitmapTasks p = true) :
    TaskBooks E k' := by
  obtain ⟨hbitmap, hlist, hthreads, htaskThreads⟩ := hk'
  have hfree : ∀ p, t ∉ k.taskThreads p := fun p ht => by
    have := ((h.members p).2 t ht).2
    rw [hnone] at this
    cases this
  have hmem : ∀ p u, u ∈ k'.taskThreads p ↔ (u = t ∧ p = task) ∨ u ∈ k.taskThreads p := by
    intro p u
    rw [htaskThreads]
    by_cases hp : p = task
    · subst hp
      simp [Kernel.enterTask, hl.mem_iff]
    · simp [Kernel.enterTask, hp]
  have htask : ∀ u, (k'.threads u).task = if u = t then some task else (k.threads u).task := by
    intro u
    rw [hthreads]
    by_cases hu : u = t
    · subst hu
      simp [Kernel.enterTask, setThread]
    · simp [Kernel.enterTask, setThread, hu]
  refine ⟨?_, fun p => ⟨?_, fun u hu => ?_⟩, fun u p hu hp => ?_, fun p hpE => ?_,
    fun p hp => ?_, htasks⟩
  · simpa only [Alive, hbitmap, hlist] using h.threadsList
  · rw [htaskThreads]
    by_cases hp : p = task
    · subst hp
      simpa [Kernel.enterTask] using hl.nodup_iff.mpr
        (List.nodup_cons.mpr ⟨hfree p, (h.members p).1⟩)
    · simpa [Kernel.enterTask, hp] using (h.members p).1
  · rw [htask, Alive, hbitmap]
    obtain ⟨rfl, rfl⟩ | hu := (hmem p u).mp hu
    · exact ⟨halive, if_pos rfl⟩
    · have hut : u ≠ t := fun hut => hfree p (hut ▸ hu)
      rw [if_neg hut]
      exact (h.members p).2 u hu
  · rw [Alive, hbitmap] at hu
    rw [htask] at hp
    rw [hmem]
    split at hp
    · next hut => exact Or.inl ⟨hut, (Option.some.inj hp).symm⟩
    · exact Or.inr (h.listed u p hu hp)
  · rw [hmarked]
    by_cases hp : p = task
    · exact iff_of_true (Or.inl hp) (List.ne_nil_of_mem ((hmem p t).mpr (Or.inl ⟨rfl, hp⟩)))
    · have hsame : k'.taskThreads p = k.taskThreads p := by
        rw [htaskThreads]
        exact Function.update_of_ne hp ..
      rw [hsame, ← h.marked p hpE]
      exact or_iff_right hp
  · exact (hmarked p).mpr (Or.inr (h.open_ p hp))

theorem sysPthreadCreate {attr : Option ThreadAttr} {stack : Bool} {r : Except Errno Tid}
    (h : TaskBooks E k) (halive : k.Alive k.runningThread)
    (hcreate : k.sysPthreadCreate attr stack = some (k', r)) : TaskBooks E k' := by
  obtain ⟨_, _, ⟨_, hk₁⟩ | ⟨k₁, thread, task, hk₁, htask, rfl⟩⟩ := sysPthreadCreate_cases hcreate
  · exact (h.threadCreate hk₁).1
  · obtain ⟨h₁, htasks, hbitmap, hlist, hnew⟩ := h.threadCreate hk₁
    obtain ⟨hnewAlive, hnone⟩ := hnew thread rfl
    have hmarked : k₁.bitmapTasks task = true := by
      rw [hbitmap]
      exact h.marked_of_mem (h.current halive htask)
    refine h₁.enterTask hnewAlive hnone (List.perm_append_singleton ..) ⟨rfl, rfl, rfl, rfl⟩
      (fun p => ?_) h₁.tasksList
    refine ⟨Or.inr, fun hp => ?_⟩
    obtain rfl | hp := hp
    · exact hmarked
    · exact hp

theorem taskCreate {priority : Int} {kernelThread stack : Bool} {r : Option Pid}
    (h : TaskBooks E k) (hcreate : k.taskCreate priority kernelThread stack = (k', r)) :
    TaskBooks E k' := by
  obtain ⟨_, hk₁⟩ | ⟨k₁, thread, pid, hk₁, hfree, rfl⟩ := taskCreate_cases hcreate
  · exact (h.threadCreate hk₁).1
  · obtain ⟨h₁, -, -, -, hnew⟩ := h.threadCreate hk₁
    obtain ⟨hnewAlive, hnone⟩ := hnew thread rfl
    have hempty : k₁.taskThreads pid = [] := by
      by_contra hne
      obtain ⟨u, hu⟩ := List.exists_mem_of_ne_nil _ hne
      have hmarked := h₁.marked_of_mem hu
      rw [hfree] at hmarked
      cases hmarked
    have hnotMem : pid ∉ k₁.tasksList := fun hmem => by
      rw [h₁.tasksList.2, hfree] at hmem
      cases hmem
    have hmarked : ∀ p, Function.update k₁.bitmapTasks pid true p = true ↔
        p = pid ∨ k₁.bitmapTasks p = true := fun p => by
      by_cases hp : p = pid
      · simp [hp]
      · simp [hp]
    refine h₁.enterTask hnewAlive hnone (by rw [hempty]) ⟨rfl, rfl, rfl, rfl⟩ hmarked
      ⟨List.nodup_append.mpr ⟨h₁.tasksList.1, List.nodup_singleton pid, ?_⟩, fun p => ?_⟩
    · rintro p hp q hq rfl
      exact hnotMem (List.mem_singleton.mp hq ▸ hp)
    · refine Iff.trans ?_ (hmarked p).symm
      rw [List.mem_append, List.mem_singleton, h₁.tasksList.2, or_comm]

theorem step {e : KernelEvent} (h : TaskBooks E k) (hcaller : k.CallerAlive e)
    (hstep : k.step e = some k') :
    ∃ E', TaskBooks E' k' ∧ (E = ∅ → k.LastOk e → E' = ∅) := by
  cases step_books hstep with
  | same hsame => exact ⟨E, h.same hsame, fun hE _ => hE⟩
  | exit task htask he _ hexit =>
      have halive : k.Alive k.runningThread := by
        obtain rfl | rfl := he
        · exact hcaller
        · exact hcaller
      exact ⟨_, h.sysExit halive htask hexit, fun hE _ => by simp [hE]⟩
  | joinHandler he _ hjoin =>
      have halive : k.Alive k.runningThread := by
        obtain rfl | ⟨rfl, -⟩ := he
        · exact hcaller
        · exact hcaller
      obtain ⟨E', h', hE'⟩ := h.threadJoinHandler halive hjoin
      refine ⟨E', h', fun hE hok => hE' hE ?_⟩
      obtain rfl | ⟨rfl, hmain⟩ := he
      · exact hok.2
      · exact hok.2.resolve_left hmain
  | delete t k₁ he hreceives _ hsame hrun hdelete =>
      have halive : k.Alive k.runningThread := by
        obtain rfl | rfl := he
        · exact hcaller
        · exact hcaller
      have h₁ := h.same hsame
      obtain ⟨-, -, current, -, hcurrent, -⟩ := threadDelete_ended hdelete
      have hcurrent' : k.currentTaskInfo = some current := by
        rw [currentTaskInfo, hrun, hsame.task] at hcurrent
        exact hcurrent
      have hmarked : k₁.bitmapTasks current = true := by
        rw [hsame.bitmapTasks]
        exact h.marked_of_mem (h.current halive hcurrent')
      have htarget : k₁.Alive t := hsame.alive_iff.mpr (h.threadsList.2 t hreceives.1)
      obtain ⟨E', h', hE'⟩ := h₁.threadDelete hdelete htarget hcurrent hmarked
      refine ⟨E', h', fun hE hok => hE' hE ?_⟩
      have hdeleteOk : k.DeleteOk t := by
        obtain rfl | rfl := he
        · exact hok.2
        · exact hok.2
      rw [hsame.task]
      by_cases hown : (k.threads t).task = some current
      · exact Or.inl hown
      · refine Or.inr fun p hp hlast => hown ?_
        rw [hsame.taskThreads] at hlast
        rw [hp, ← hdeleteOk hreceives p hp hlast, hcurrent']
  | killTask task he _ hkill =>
      have halive : k.Alive k.runningThread := by
        obtain ⟨rfl, -⟩ | ⟨rfl, -⟩ := he
        · exact hcaller
        · exact hcaller
      obtain ⟨E', h', hE'⟩ := h.killLoop rfl (fun current hcurrent _ =>
        List.ne_nil_of_mem (h.current halive hcurrent)) hkill
      refine ⟨E', h', fun hE hok => hE' hE ?_⟩
      obtain ⟨rfl, hmem⟩ | ⟨-, hcurrent⟩ := he
      · exact hok.2 hmem
      · exact hcurrent
  | create attr stack r he hcreate =>
      subst he
      exact ⟨E, h.sysPthreadCreate hcaller hcreate, fun hE _ => hE⟩
  | createTask priority kernelThread stack r _ hcreate =>
      exact ⟨E, h.taskCreate hcreate, fun hE _ => hE⟩

theorem live_iff (h : TaskBooks ∅ k) (pid : Pid) :
    k.bitmapTasks pid = true ↔ ∃ t ∈ k.taskThreads pid, k.Alive t := by
  refine (h.marked pid (Set.notMem_empty pid)).trans ⟨fun hne => ?_, fun ⟨t, ht, _⟩ => ?_⟩
  · obtain ⟨t, ht⟩ := List.exists_mem_of_ne_nil _ hne
    exact ⟨t, ht, ((h.members pid).2 t ht).1⟩
  · exact List.ne_nil_of_mem ht

theorem reset : TaskBooks ∅ Kernel.reset where
  threadsList := ⟨List.nodup_nil, by simp [Kernel.reset]⟩
  members p := ⟨List.nodup_nil, by simp [Kernel.reset]⟩
  listed t p ht := by simp [Alive, Kernel.reset] at ht
  marked p _ := by simp [Kernel.reset]
  open_ p hp := hp.elim
  tasksList := ⟨List.nodup_nil, by simp [Kernel.reset]⟩

theorem kthreadCreate (h : TaskBooks ∅ k) (priority : Int) :
    TaskBooks ∅ (k.kthreadCreate priority) :=
  h.taskCreate (r := (k.taskCreate priority true true).2) rfl

theorem schedStart : TaskBooks ∅ Kernel.schedStart := by
  have hcreated := (((reset.kthreadCreate 0).kthreadCreate kthreadPriMax).kthreadCreate
    (kthreadPriMax - 1)).kthreadCreate (kthreadPriMax - 1)
  refine hcreated.same ?_
  have hset := SameBooks.setThread (k := ((((Kernel.reset.kthreadCreate 0).kthreadCreate
    kthreadPriMax).kthreadCreate (kthreadPriMax - 1)).kthreadCreate (kthreadPriMax - 1)))
    (t := 0) (f := fun i => { i with status := .running }) fun _ => .of_eq rfl rfl rfl
  exact ⟨rfl, rfl, rfl, rfl, rfl, hset.record⟩

end TaskBooks

end Kernel

namespace DescTable
variable {t : DescTable} {S : Set Pid} {p : Pid} {d : Nat}

@[simp] theorem setBit_bitmap (t : DescTable) (p : Pid) (d : Nat) (b : Bool) :
    (t.setBit p d b).bitmap = Function.update t.bitmap d b :=
  rfl

theorem setBit_held (t : DescTable) (p q : Pid) (d e : Nat) (b : Bool) :
    (t.setBit p d b).held q e = if q = p ∧ e = d then b else t.held q e := by
  by_cases hq : q = p
  · subst hq
    by_cases he : e = d
    · simp [setBit, he]
    · simp [setBit, he]
  · simp [setBit, hq]

theorem firstZero_free {max : Nat} (h : t.firstZero max = some d) : t.bitmap d = false := by
  simpa using List.find?_some h

theorem valid_iff : t.valid p d = true ↔ t.bitmap d = true ∧ t.held p d = true := by
  rw [valid, Bool.and_eq_true]

namespace Owned

theorem empty (S : Set Pid) :
    DescTable.Owned { bitmap := fun _ => false, held := fun _ _ => false } S where
  holder _ hd := nomatch hd
  unique _ _ _ _ _ hd := nomatch hd
  inUse _ _ _ hd := nomatch hd

theorem acquire (h : t.Owned S) (hp : p ∈ S) (hfree : t.bitmap d = false) :
    (t.setBit p d true).Owned S := by
  have hnone : ∀ q ∈ S, t.held q d = false := fun q hq => by
    by_contra hheld
    rw [h.inUse q hq d (by simpa using hheld)] at hfree
    cases hfree
  refine ⟨fun e he => ?_, fun q hq r hr e hqe hre => ?_, fun q hq e he => ?_⟩
  · by_cases hed : e = d
    · exact ⟨p, hp, by rw [setBit_held, if_pos ⟨rfl, hed⟩]⟩
    · obtain ⟨q, hq, hheld⟩ := h.holder e (by simpa [hed] using he)
      exact ⟨q, hq, by rw [setBit_held, if_neg fun hc => hed hc.2, hheld]⟩
  · rw [setBit_held] at hqe hre
    by_cases hed : e = d
    · subst hed
      simp only [and_true, hnone q hq, hnone r hr] at hqe hre
      have hqp : q = p := by simpa using hqe
      have hrp : r = p := by simpa using hre
      exact hqp.trans hrp.symm
    · simp only [hed, and_false, if_false] at hqe hre
      exact h.unique q hq r hr e hqe hre
  · by_cases hed : e = d
    · simp [hed]
    · rw [setBit_held, if_neg fun hc => hed hc.2] at he
      simpa [hed] using h.inUse q hq e he

theorem release (h : t.Owned S) (hp : p ∈ S) (hheld : t.held p d = true) :
    (t.setBit p d false).Owned S := by
  have hkept : ∀ q e, (t.setBit p d false).held q e = true → t.held q e = true := by
    intro q e he
    rw [setBit_held] at he
    split at he
    · cases he
    · exact he
  refine ⟨fun e he => ?_, fun q hq r hr e hqe hre => ?_, fun q hq e he => ?_⟩
  · have hed : e ≠ d := fun hed => by simp [hed] at he
    obtain ⟨q, hq, hqe⟩ := h.holder e (by simpa [hed] using he)
    exact ⟨q, hq, by rw [setBit_held, if_neg fun hc => hed hc.2, hqe]⟩
  · exact h.unique q hq r hr e (hkept q e hqe) (hkept r e hre)
  · have hed : e ≠ d := fun hed => by
      subst hed
      have hqp := h.unique q hq p hp e (hkept q e he) hheld
      rw [setBit_held, if_pos ⟨hqp, rfl⟩] at he
      cases he
    simpa [hed] using h.inUse q hq e (hkept q e he)

theorem taskDelete (h : t.Owned S) (hp : p ∈ S) : (t.taskDelete p).Owned (S \ {p}) where
  holder d hd := by
    simp only [DescTable.taskDelete, Bool.and_eq_true, Bool.not_eq_true'] at hd
    obtain ⟨q, hq, hheld⟩ := h.holder d hd.1
    refine ⟨q, ⟨hq, fun hqp => ?_⟩, hheld⟩
    obtain rfl : q = p := hqp
    rw [hheld] at hd
    exact absurd hd.2 (by decide)
  unique q hq r hr d hqd hrd := h.unique q hq.1 r hr.1 d hqd hrd
  inUse q hq d hd := by
    have hother : t.held p d = false := by
      by_contra hheld
      exact hq.2 (h.unique q hq.1 p hp d hd (by simpa using hheld))
    simp only [DescTable.taskDelete, hother, h.inUse q hq.1 d hd]
    rfl

theorem taskCreate (h : t.Owned S) (hp : p ∉ S) : (t.taskCreate p).Owned (insert p S) := by
  have hheld : ∀ q d, (t.taskCreate p).held q d = if q = p then false else t.held q d := by
    intro q d
    by_cases hq : q = p
    · simp [DescTable.taskCreate, hq]
    · simp [DescTable.taskCreate, hq]
  have hold : ∀ q ∈ insert p S, ∀ d, (t.taskCreate p).held q d = true →
      q ∈ S ∧ t.held q d = true := by
    intro q hq d hd
    rw [hheld] at hd
    split at hd
    · cases hd
    · next hqp => exact ⟨hq.resolve_left hqp, hd⟩
  refine ⟨fun d hd => ?_, fun q hq r hr d hqd hrd => ?_, fun q hq d hd => ?_⟩
  · obtain ⟨q, hq, hqd⟩ := h.holder d hd
    have hqp : q ≠ p := fun hqp => hp (hqp ▸ hq)
    exact ⟨q, Or.inr hq, by rw [hheld, if_neg hqp, hqd]⟩
  · exact h.unique q (hold q hq d hqd).1 r (hold r hr d hrd).1 d (hold q hq d hqd).2
      (hold r hr d hrd).2
  · exact h.inUse q (hold q hq d hd).1 d (hold q hq d hd).2

theorem deleteAll {l : List Pid} (h : t.Owned S) (hl : l.Nodup) (hmem : ∀ p ∈ l, p ∈ S) :
    (l.foldl DescTable.taskDelete t).Owned (S \ {p | p ∈ l}) := by
  induction l generalizing t S with
  | nil => simpa using h
  | cons p l ih =>
      obtain ⟨hp, hl⟩ := List.nodup_cons.mp hl
      have hrest : ∀ q ∈ l, q ∈ S \ {p} := fun q hq =>
        ⟨hmem q (List.mem_cons_of_mem p hq), fun hqp => hp (Set.mem_singleton_iff.mp hqp ▸ hq)⟩
      have hset : S \ {q | q ∈ p :: l} = (S \ {p}) \ {q | q ∈ l} := by
        ext q
        simp [and_assoc]
      rw [hset]
      exact ih (h.taskDelete (hmem p List.mem_cons_self)) hl hrest

theorem createAll {l : List Pid} (h : t.Owned S) (hl : l.Nodup) (hmem : ∀ p ∈ l, p ∉ S) :
    (l.foldl DescTable.taskCreate t).Owned (S ∪ {p | p ∈ l}) := by
  induction l generalizing t S with
  | nil => simpa using h
  | cons p l ih =>
      obtain ⟨hp, hl⟩ := List.nodup_cons.mp hl
      have hrest : ∀ q ∈ l, q ∉ insert p S := by
        rintro q hq (rfl | hqS)
        · exact hp hq
        · exact hmem q (List.mem_cons_of_mem p hq) hqS
      have hset : S ∪ {q | q ∈ p :: l} = insert p S ∪ {q | q ∈ l} := by
        ext q
        simp [or_left_comm, or_assoc]
      rw [hset]
      exact ih (h.taskCreate (hmem p List.mem_cons_self)) hl hrest

end Owned

theorem foldl_taskDelete_bitmap (l : List Pid) (t : DescTable) (d : Nat) :
    (l.foldl taskDelete t).bitmap d = (t.bitmap d && l.all fun p => !t.held p d) := by
  induction l generalizing t with
  | nil => simp
  | cons p l ih => simp [ih, taskDelete, Bool.and_assoc]

theorem foldl_taskCreate_bitmap (l : List Pid) (t : DescTable) :
    (l.foldl taskCreate t).bitmap = t.bitmap := by
  induction l generalizing t with
  | nil => rfl
  | cons p l ih => exact ih (t.taskCreate p)

end DescTable

namespace TaskSys
open Kernel (TaskBooks)
variable {s s' : TaskSys} {k k' : Kernel} {t : DescTable} {task : Pid}

theorem tables_owned {E E' : Set Pid} (h : TaskBooks E k) (h' : TaskBooks E' k')
    (ht : t.Owned {p | p ∈ k.tasksList}) : (tables k k' t).Owned {p | p ∈ k'.tasksList} := by
  have hgone := ht.deleteAll (h.tasksList.1.filter (· ∉ k'.tasksList))
    fun p hp => List.mem_of_mem_filter hp
  have hcreated := hgone.createAll (h'.tasksList.1.filter (· ∉ k.tasksList)) fun p hp hpS => by
    have hnew : p ∉ k.tasksList := by simpa using (List.mem_filter.mp hp).2
    exact hnew hpS.1
  have hset : {p | p ∈ k'.tasksList} = ({p | p ∈ k.tasksList} \ {p | p ∈ k.tasksList.filter
      (· ∉ k'.tasksList)}) ∪ {p | p ∈ k'.tasksList.filter (· ∉ k.tasksList)} := by
    ext p
    by_cases hp : p ∈ k.tasksList
    · simp [hp]
    · simp [hp]
  rw [hset]
  exact hcreated

theorem tables_cleared {d : Nat} (hp : task ∈ k.tasksList) (hp' : task ∉ k'.tasksList)
    (hheld : t.held task d = true) : (tables k k' t).bitmap d = false := by
  have hgone : task ∈ k.tasksList.filter (· ∉ k'.tasksList) :=
    List.mem_filter.mpr ⟨hp, by simpa using hp'⟩
  rw [tables, DescTable.foldl_taskCreate_bitmap, DescTable.foldl_taskDelete_bitmap]
  refine Bool.and_eq_false_imp.mpr fun _ => ?_
  refine List.all_eq_false.mpr ⟨task, hgone, ?_⟩
  simp [hheld]

theorem sysMqOpen_mqds (s : TaskSys) (task : Pid) (found memory : Bool) (oflag : Word) :
    ∃ mqds, (s.sysMqOpen task found memory oflag).1 = { s with mqds } ∧ (mqds = s.mqds ∨
      ∃ d, s.mqds.firstZero mqueueMax = some d ∧ mqds = s.mqds.setBit task d true) := by
  simp only [sysMqOpen]
  split
  · exact ⟨s.mqds, rfl, Or.inl rfl⟩
  · next d hd =>
      have hopen : ∃ e, s.mqds.firstZero mqueueMax = some e ∧
          s.mqds.setBit task d true = s.mqds.setBit task e true := ⟨d, hd, rfl⟩
      split
      · split
        · exact ⟨s.mqds, rfl, Or.inl rfl⟩
        · exact ⟨_, rfl, Or.inr hopen⟩
      · split
        · exact ⟨s.mqds, rfl, Or.inl rfl⟩
        · split
          · exact ⟨s.mqds, rfl, Or.inl rfl⟩
          · exact ⟨_, rfl, Or.inr hopen⟩

/-- `MqTable` has the queues behind the descriptors. -/
theorem sysMqOpen_table {t t' : MqTable} {task : Pid} {name : List Byte} {oflag : Word}
    {attr : Option MqAttr} {newMq buf : Option Word} {links : Cells (MqList ⊕ Nat)}
    {elements : Nat → MqData} {r : Except Errno Nat} (hmqds : s.mqds = ⟨t.bitmapMqds, t.taskMqds⟩)
    (h : t.sysMqOpen task name oflag attr newMq buf links elements = some (t', r)) : ∃ memory,
    s.sysMqOpen task (t.acquireMqueue name).isSome memory oflag =
      ({ s with mqds := ⟨t'.bitmapMqds, t'.taskMqds⟩ }, r) := by
  have hfirst : s.mqds.firstZero mqueueMax = (List.range mqueueMax).find? fun d => !t.bitmapMqds d := by
    rw [hmqds]
    rfl
  rw [MqTable.sysMqOpen] at h
  simp only [sysMqOpen, hfirst]
  cases hd : (List.range mqueueMax).find? fun d => !t.bitmapMqds d with
  | none =>
      simp only [hd] at h
      obtain ⟨rfl, rfl⟩ := Prod.mk.inj (Option.some.inj h)
      exact ⟨true, by rw [← hmqds]⟩
  | some d =>
      have hset : s.mqds.setBit task d true = ⟨Function.update t.bitmapMqds d true,
          Function.update t.taskMqds task (Function.update (t.taskMqds task) d true)⟩ := by
        rw [hmqds]
        rfl
      simp only [hd] at h
      simp only [hset]
      cases hname : t.acquireMqueue name with
      | some mq =>
          simp only [hname] at h
          by_cases hexcl : oflag &&& oCreat ≠ 0#32 ∧ oflag &&& oExcl ≠ 0#32
          · rw [if_pos hexcl] at h
            obtain ⟨rfl, rfl⟩ := Prod.mk.inj (Option.some.inj h)
            exact ⟨true, by rw [if_pos Option.isSome_some, if_pos hexcl, ← hmqds]⟩
          · rw [if_neg hexcl] at h
            obtain ⟨rfl, rfl⟩ := Prod.mk.inj (Option.some.inj h)
            exact ⟨true, by rw [if_pos Option.isSome_some, if_neg hexcl]; rfl⟩
      | none =>
          simp only [hname] at h
          by_cases hcreat : oflag &&& oCreat = 0#32
          · rw [if_pos hcreat] at h
            obtain ⟨rfl, rfl⟩ := Prod.mk.inj (Option.some.inj h)
            exact ⟨true, by rw [if_neg (by simp), if_pos hcreat, ← hmqds]⟩
          · rw [if_neg hcreat] at h
            obtain ⟨mq, -, h⟩ := Option.bind_eq_some_iff.mp h
            refine ⟨mq.isSome, ?_⟩
            rw [if_neg (by simp), if_neg hcreat]
            cases mq with
            | none =>
                obtain ⟨rfl, rfl⟩ := Prod.mk.inj (Option.some.inj h)
                rw [← hmqds]
                rfl
            | some mq =>
                obtain ⟨rfl, rfl⟩ := Prod.mk.inj (Option.some.inj h)
                rfl

theorem sysMqOpen_owned {S : Set Pid} (found memory : Bool) (oflag : Word) (h : s.mqds.Owned S)
    (htask : task ∈ S) : ∃ mqds, (s.sysMqOpen task found memory oflag).1 = { s with mqds } ∧
      mqds.Owned S := by
  obtain ⟨mqds, heq, rfl | ⟨d, hd, rfl⟩⟩ := s.sysMqOpen_mqds task found memory oflag
  · exact ⟨s.mqds, heq, h⟩
  · exact ⟨_, heq, h.acquire htask (DescTable.firstZero_free hd)⟩

theorem call_owned {e : TaskEvent} (hfds : s.fds.Owned {p | p ∈ s.kernel.tasksList})
    (hmqds : s.mqds.Owned {p | p ∈ s.kernel.tasksList}) (htask : task ∈ s.kernel.tasksList)
    (hcall : s.call task e = some s') :
    s'.kernel = s.kernel ∧ s'.fds.Owned {p | p ∈ s.kernel.tasksList} ∧
      s'.mqds.Owned {p | p ∈ s.kernel.tasksList} := by
  cases e with
  | kernel e => cases hcall
  | openFile found hasOpen =>
      obtain rfl := Option.some.inj hcall
      simp only [sysOpen]
      split
      · exact ⟨rfl, hfds, hmqds⟩
      · split
        · exact ⟨rfl, hfds, hmqds⟩
        · next d hd =>
            have hopen := hfds.acquire htask (DescTable.firstZero_free hd)
            split
            · exact ⟨rfl, hopen.release htask (by simp [DescTable.setBit]), hmqds⟩
            · exact ⟨rfl, hopen, hmqds⟩
  | close fd =>
      obtain rfl := Option.some.inj hcall
      simp only [sysClose]
      split
      · exact ⟨rfl, hfds, hmqds⟩
      · split
        · exact ⟨rfl, hfds, hmqds⟩
        · next hvalid =>
            have hheld := (DescTable.valid_iff.mp (by simpa using hvalid)).2
            exact ⟨rfl, hfds.release htask hheld, hmqds⟩
  | dup oldfd =>
      obtain rfl := Option.some.inj hcall
      simp only [sysDup]
      split
      · exact ⟨rfl, hfds, hmqds⟩
      · split
        · exact ⟨rfl, hfds, hmqds⟩
        · split
          · exact ⟨rfl, hfds, hmqds⟩
          · next hd => exact ⟨rfl, hfds.acquire htask (DescTable.firstZero_free hd), hmqds⟩
  | mqOpen found memory oflag =>
      obtain rfl := Option.some.inj hcall
      obtain ⟨mqds, heq, hopen⟩ := sysMqOpen_owned found memory oflag hmqds htask
      rw [heq]
      exact ⟨rfl, hfds, hopen⟩
  | mqClose mqdes =>
      obtain rfl := Option.some.inj hcall
      simp only [sysMqClose]
      split
      · exact ⟨rfl, hfds, hmqds⟩
      · next hvalid =>
          have hheld := (DescTable.valid_iff.mp (by simpa using hvalid)).2
          exact ⟨rfl, hfds, hmqds.release htask hheld⟩

/-- What is right about the tasks and their descriptors between any two events. -/
structure Booked (s : TaskSys) : Prop where
  books : TaskBooks ∅ s.kernel
  fds : s.fds.Owned {p | p ∈ s.kernel.tasksList}
  mqds : s.mqds.Owned {p | p ∈ s.kernel.tasksList}

theorem Booked.step {e : TaskEvent} (h : s.Booked) (hok : s.TaskOk e)
    (hstep : s.step e = some s') : s'.Booked ∧ Cleared s s' := by
  have hcall : ∀ e, s.kernel.Alive s.kernel.runningThread →
      (s.kernel.currentTaskInfo.bind fun task => s.call task e) = some s' →
      s'.Booked ∧ Cleared s s' := by
    intro e halive hcall
    obtain ⟨task, htask, hcall⟩ := Option.bind_eq_some_iff.mp hcall
    have hmem : task ∈ s.kernel.tasksList := (h.books.tasksList.2 task).mpr
      (h.books.marked_of_mem (h.books.current halive htask))
    obtain ⟨hkernel, hfds, hmqds⟩ := call_owned h.fds h.mqds hmem hcall
    refine ⟨⟨hkernel ▸ h.books, hkernel ▸ hfds, hkernel ▸ hmqds⟩, fun pid hpid hgone => ?_⟩
    exact absurd (hkernel ▸ hpid) hgone
  cases e with
  | kernel e =>
      obtain ⟨k', hk', rfl⟩ := Option.map_eq_some_iff.mp hstep
      obtain ⟨E, hbooks, hE⟩ := h.books.step (Kernel.LastOk.callerAlive hok) hk'
      obtain rfl := hE rfl hok
      refine ⟨⟨hbooks, tables_owned h.books hbooks h.fds, tables_owned h.books hbooks h.mqds⟩, ?_⟩
      exact fun pid hp hp' d => ⟨tables_cleared hp hp', tables_cleared hp hp'⟩
  | openFile _ _ | close _ | dup _ | mqOpen _ _ _ | mqClose _ =>
      simp only [TaskSys.step] at hstep
      split at hstep
      · exact hcall _ hok hstep
      · cases hstep

theorem Booked.start : TaskSys.start.Booked where
  books := TaskBooks.schedStart
  fds := DescTable.Owned.empty _
  mqds := DescTable.Owned.empty _

theorem Booked.reclaimed (h : s.Booked) : s.Reclaimed :=
  ⟨h.books.live_iff, h.books.tasksList.2, h.fds, h.mqds⟩

/-- In every run whose steps meet their condition the tasks are marked while they have live
threads, and a step that removes one frees the descriptors it held. -/
theorem reclaimed_of_taskOk {es : List TaskEvent} (hok : Runs.AllOk TaskOk step start es)
    (hrun : Runs.exec step start es = some s) :
    s.Reclaimed ∧ ∀ e s', s.TaskOk e → s.step e = some s' → Cleared s s' := by
  have hbooked : s.Booked :=
    Runs.exec_invariant (fun _ _ _ hinv hok hstep => (Booked.step hinv hok hstep).1)
      Booked.start hok hrun
  exact ⟨hbooked.reclaimed, fun e s' hok hstep => (hbooked.step hok hstep).2⟩

def openRun : List TaskEvent :=
  Kernel.bootRun.map .kernel ++
    [.kernel .syscallHandler, .openFile true true, .mqOpen false true oCreat]

/-- Its only thread exits. -/
theorem reclaimed_of_taskOk_at_exit :
    ∃ s, Runs.exec step start (openRun ++ [.kernel (.call .exit)]) = some s ∧
      (s.Reclaimed ∧ ∀ e s', s.TaskOk e → s.step e = some s' → Cleared s s') ∧
      4 ∉ s.kernel.tasksList ∧ s.fds.bitmap 0 = false ∧ s.mqds.bitmap 0 = false := by
  have hrun : (Runs.exec step start (openRun ++ [.kernel (.call .exit)])).map (fun s =>
      (decide (4 ∈ s.kernel.tasksList), s.fds.bitmap 0, s.mqds.bitmap 0)) =
      some (false, false, false) := by decide +kernel
  obtain ⟨s, hs, hfacts⟩ := Option.map_eq_some_iff.mp hrun
  refine ⟨s, hs, reclaimed_of_taskOk (by decide +kernel) hs, ?_⟩
  simpa using hfacts

/-- The thread ends itself instead: `thread_join_handler` still finds it on the list of the
task, so the task stays, and so do its descriptors. -/
theorem reclaimed_not_after_pthreadExit :
    ∃ s, Runs.exec step start (openRun ++ [.kernel (.call .pthreadExit)]) = some s ∧
      ¬ s.Reclaimed ∧ s.fds.bitmap 0 = true ∧ s.mqds.bitmap 0 = true := by
  have hrun : (Runs.exec step start (openRun ++ [.kernel (.call .pthreadExit)])).map (fun s =>
      (s.kernel.bitmapTasks 4, s.kernel.taskThreads 4, s.fds.bitmap 0, s.mqds.bitmap 0)) =
      some (true, [], true, true) := by decide +kernel
  obtain ⟨s, hs, hfacts⟩ := Option.map_eq_some_iff.mp hrun
  obtain ⟨hmarked, hempty, hopen⟩ : s.kernel.bitmapTasks 4 = true ∧
      s.kernel.taskThreads 4 = [] ∧ s.fds.bitmap 0 = true ∧ s.mqds.bitmap 0 = true := by
    simpa using hfacts
  refine ⟨s, hs, fun hreclaimed => ?_, hopen⟩
  obtain ⟨t, ht, -⟩ := (hreclaimed.marked 4).mp hmarked
  rw [hempty] at ht
  cases ht

end TaskSys

end Tenok
