import Tenok.Kernel.Descriptors
import Tenok.Kernel.TaskRuns

/-!
Who holds a descriptor, over whole runs. A task can stay on `tasks_list` when its last
thread has ended; its descriptors stay with it then, so they are nobody else's either.
-/
namespace Tenok
open Ring

namespace Kernel
variable {k k' : Kernel} {t : Tid}

theorem task_threadCreate {attr : ThreadAttr} {kernelThread stack : Bool} {r : Except Errno Tid}
    (hcreate : k.threadCreate attr kernelThread stack = (k', r)) (ht : k.Alive t) :
    (k'.threads t).task = (k.threads t).task ∧ ∀ tid, r = .ok tid → t ≠ tid := by
  obtain ⟨e, he⟩ | ⟨tid, -, hdead, he | ⟨k₁, he, -, hthreads, -⟩⟩ :=
    threadCreate_cases k attr kernelThread stack
  · obtain ⟨rfl, rfl⟩ := Prod.mk.inj (he.symm.trans hcreate)
    exact ⟨rfl, by simp⟩
  · obtain ⟨rfl, rfl⟩ := Prod.mk.inj (he.symm.trans hcreate)
    have htid : t ≠ tid := fun h => hdead (h ▸ ht)
    exact ⟨by simp [setThread, htid], by simp⟩
  · obtain ⟨rfl, rfl⟩ := Prod.mk.inj (he.symm.trans hcreate)
    have htid : t ≠ tid := fun h => hdead (h ▸ ht)
    exact ⟨by rw [hthreads t htid], fun u hu => Except.ok.inj hu ▸ htid⟩

theorem task_foldlM {body : Kernel → Tid → Option Kernel} {T : List Tid}
    (hbody : ∀ k t k', body k t = some k' → ∀ u, (k'.threads u).task = (k.threads u).task)
    (hloop : T.foldlM body k = some k') (u : Tid) :
    (k'.threads u).task = (k.threads u).task := by
  induction T generalizing k with
  | nil =>
      obtain rfl := Option.some.inj hloop
      rfl
  | cons t T ih =>
      obtain ⟨k₁, hk₁, hrest⟩ := Option.bind_eq_some_iff.mp hloop
      exact (ih hrest).trans (hbody k t k₁ hk₁ u)

theorem task_threadDelete (hdelete : k.threadDelete t = some k') (u : Tid) :
    (k'.threads u).task = (k.threads u).task := by
  obtain ⟨task, k₁, current, hended, -, rfl⟩ := threadDelete_ended hdelete
  rw [dropEmptyTask_eq]
  exact hended.task u

theorem task_step {e : KernelEvent} (hstep : k.step e = some k') (ht : k.Alive t) :
    (k'.threads t).task = (k.threads t).task := by
  cases step_books hstep with
  | same h => exact h.task t
  | exit task htask _ _ h =>
      simp only [sysExit, htask, Option.bind_eq_bind, Option.bind_some, Option.bind_eq_some_iff,
        Option.some.injEq] at h
      obtain ⟨k₁, hk₁, rfl⟩ := h
      refine (task_foldlM (fun k t k' hk u => ?_) hk₁ t :)
      obtain ⟨task, hended⟩ := exitThread_ended hk
      exact hended.task u
  | joinHandler _ _ h =>
      obtain ⟨k₁, current, task, hsame, -, -, hended⟩ := threadJoinHandler_ended h
      rw [hended.task, dropEmptyTask_eq]
      exact hsame.task t
  | delete u k₁ _ _ _ hsame _ h => exact (task_threadDelete h t).trans (hsame.task t)
  | killTask task _ _ h =>
      refine task_foldlM (fun k t k' hk u => ?_) h t
      have hsame := SameBooks.of_touched (Touched.endSigwait t k .kill)
      exact (task_threadDelete hk u).trans (hsame.task u)
  | create attr stack r _ h =>
      obtain ⟨_, _, ⟨_, hk₁⟩ | ⟨k₁, tid, task, hk₁, -, rfl⟩⟩ := sysPthreadCreate_cases h
      · exact (task_threadCreate hk₁ ht).1
      · obtain ⟨htask, hne⟩ := task_threadCreate hk₁ ht
        simpa [enterTask, setThread, hne _ rfl] using htask
  | createTask priority kernelThread stack r _ h =>
      obtain ⟨_, hk₁⟩ | ⟨k₁, tid, pid, hk₁, -, rfl⟩ := taskCreate_cases h
      · exact (task_threadCreate hk₁ ht).1
      · obtain ⟨htask, hne⟩ := task_threadCreate hk₁ ht
        simpa [enterTask, setThread, hne _ rfl] using htask

end Kernel

namespace DescTable
variable {t : DescTable} {task : Pid} {max d : Nat} {S : Set Pid}

theorem getBit_eq_some {d : Int} {b : Bool} (h : t.getBit task max d = some b) :
    0 ≤ d ∧ d < bitmapBits max ∧ b = t.valid task d.toNat := by
  obtain ⟨hd, hb⟩ := Option.ite_none_right_eq_some.mp h
  exact ⟨hd.1, hd.2, (Option.some.inj hb).symm⟩

theorem firstZero_lt (h : t.firstZero max = some d) : d < max :=
  List.mem_range.mp (List.mem_of_find?_eq_some h)

theorem lt_max_setBit {b : Bool} (h : ∀ d, t.bitmap d = true → d < max) (hd : b = true → d < max) :
    ∀ e, (t.setBit task d b).bitmap e = true → e < max := by
  intro e he
  by_cases hed : e = d
  · subst hed
    exact hd (by simpa [setBit] using he)
  · exact h e (by simpa [setBit, hed] using he)

theorem Owned.not_valid {other : Pid} (h : t.Owned S) (htask : task ∈ S) (hother : other ∈ S)
    (hne : task ≠ other) (hheld : t.held other d = true) : t.valid task d = false := by
  by_contra hvalid
  have hown := (valid_iff.mp (by simpa using hvalid)).2
  exact hne (h.unique task htask other hother d hown hheld)

theorem le_bitmapBits (max : Nat) : max ≤ bitmapBits max := by
  rw [bitmapBits]
  omega

end DescTable

namespace DescSys
open Kernel (TaskBooks)
variable {s s' : DescSys} {task : Pid} {S : Set Pid} {k : Kernel} {e : DescEvent}

/-- On the bitmaps, the calls are those of `TaskSys`. -/
theorem sysOpenReply_tasks {flags : Word} {fileIdx : Option Nat} {r : Reply Nat}
    (h : s.sysOpenReply task flags fileIdx = some r) : ∃ hasOpen,
    s.toTaskSys.sysOpen task fileIdx.isSome hasOpen = (r.1.toTaskSys, r.2) := by
  cases fileIdx with
  | none =>
      obtain rfl := Option.some.inj h
      exact ⟨true, rfl⟩
  | some fileIdx =>
      rw [sysOpenReply.eq_2] at h
      cases hd : s.fds.firstZero openMax with
      | none =>
          simp only [hd] at h
          obtain rfl := Option.some.inj h
          exact ⟨true, by simp [TaskSys.sysOpen, hd]⟩
      | some d =>
          simp only [hd] at h
          obtain ⟨filp, -, h⟩ := Option.bind_eq_some_iff.mp h
          refine ⟨(s.ops filp).open', ?_⟩
          cases hopen : (s.ops filp).open' with
          | false =>
              rw [hopen] at h
              obtain rfl := Option.some.inj h
              simp [TaskSys.sysOpen, hd]
          | true =>
              rw [hopen] at h
              obtain rfl := Option.some.inj h
              simp [TaskSys.sysOpen, hd]

theorem own_bit {fd : Nat} {own : Bool} (hfd : ¬ (fd : Int) < fileReservedNum)
    (hown : s.fds.getBit task openMax (fd - fileReservedNum) = some own) :
    ¬ fd < fileReservedNum ∧ ((fd : Int) - fileReservedNum).toNat = fd - fileReservedNum ∧
      own = s.fds.valid task (fd - fileReservedNum) := by
  obtain ⟨-, -, rfl⟩ := DescTable.getBit_eq_some hown
  have hidx : ((fd : Int) - fileReservedNum).toNat = fd - fileReservedNum := by omega
  exact ⟨by omega, hidx, by rw [hidx]⟩

theorem sysClose_tasks {fd : Nat} {r : Reply Unit} (h : s.sysClose task fd = some r) :
    s.toTaskSys.sysClose task fd = (r.1.toTaskSys, r.2) := by
  rw [sysClose] at h
  rw [TaskSys.sysClose]
  split at h
  · next hfd =>
      obtain rfl := Option.some.inj h
      rw [if_pos (by omega)]
  · next hfd =>
      obtain ⟨own, hown, h⟩ := Option.bind_eq_some_iff.mp h
      obtain ⟨hfd', hidx, rfl⟩ := own_bit hfd hown
      rw [if_neg hfd']
      rw [hidx] at h
      split at h <;> next hvalid => obtain rfl := Option.some.inj h; simp only [hvalid]; rfl

theorem sysDup_tasks {oldfd : Nat} {r : Reply Nat} (h : s.sysDup task oldfd = some r) :
    s.toTaskSys.sysDup task oldfd = (r.1.toTaskSys, r.2) := by
  rw [sysDup] at h
  rw [TaskSys.sysDup]
  split at h
  · next hfd =>
      obtain rfl := Option.some.inj h
      rw [if_pos (by omega)]
  · next hfd =>
      obtain ⟨own, hown, h⟩ := Option.bind_eq_some_iff.mp h
      obtain ⟨hfd', -, rfl⟩ := own_bit hfd hown
      rw [if_neg hfd']
      split at h
      · next hvalid =>
          obtain rfl := Option.some.inj h
          rw [if_pos hvalid]
      · next hvalid =>
          rw [if_neg hvalid]
          cases hd : s.fds.firstZero openMax with
          | none | some d =>
              simp only [hd] at h
              obtain rfl := Option.some.inj h
              rfl

theorem sysMqClose_tasks {mqdes : Nat} {r : Reply Unit} (h : s.sysMqClose task mqdes = some r) :
    s.toTaskSys.sysMqClose task mqdes = (r.1.toTaskSys, r.2) := by
  obtain ⟨own, hown, h⟩ := Option.bind_eq_some_iff.mp h
  obtain ⟨-, -, rfl⟩ := DescTable.getBit_eq_some hown
  rw [TaskSys.sysMqClose]
  rw [Int.toNat_natCast] at h
  split at h
  · next hvalid =>
      obtain rfl := Option.some.inj h
      rw [if_pos hvalid]
  · next hvalid =>
      obtain rfl := Option.some.inj h
      rw [if_neg hvalid]

structure Bitmaps (s : DescSys) (S : Set Pid) : Prop where
  fds : s.fds.Owned S
  mqds : s.mqds.Owned S
  lt_max : ∀ d, s.fds.bitmap d = true → d < openMax
  mqds_lt_max : ∀ d, s.mqds.bitmap d = true → d < mqueueMax

/-- A call that keeps the bitmaps right and concerns no thread. -/
structure Keeps (s : DescSys) (S : Set Pid) (s' : DescSys) : Prop where
  bitmaps : Bitmaps s' S
  kernel : s'.kernel = s.kernel
  opening : s'.opening = s.opening

namespace Bitmaps

theorem refl (h : Bitmaps s S) : Keeps s S s := ⟨h, rfl, rfl⟩

theorem acquire {d : Nat} (h : Bitmaps s S) (fdtable : Nat → Fdtable) (htask : task ∈ S)
    (hd : s.fds.firstZero openMax = some d) :
    Keeps s S { s with fds := s.fds.setBit task d true, fdtable := fdtable } := by
  refine ⟨⟨h.fds.acquire htask (DescTable.firstZero_free hd), h.mqds, ?_, h.mqds_lt_max⟩, rfl, rfl⟩
  exact DescTable.lt_max_setBit h.lt_max fun _ => DescTable.firstZero_lt hd

theorem release {d : Nat} (h : Bitmaps s S) (htask : task ∈ S) (hheld : s.fds.held task d = true) :
    Keeps s S { s with fds := s.fds.setBit task d false } := by
  refine ⟨⟨h.fds.release htask hheld, h.mqds, ?_, h.mqds_lt_max⟩, rfl, rfl⟩
  exact DescTable.lt_max_setBit h.lt_max nofun

theorem sysOpenReply {flags : Word} {fileIdx : Option Nat} {r : Reply Nat} (h : Bitmaps s S)
    (htask : task ∈ S) (hopen : s.sysOpenReply task flags fileIdx = some r) : Keeps s S r.1 := by
  cases fileIdx with
  | none =>
      obtain rfl := Option.some.inj hopen
      exact h.refl
  | some fileIdx =>
      simp only [DescSys.sysOpenReply] at hopen
      split at hopen
      · obtain rfl := Option.some.inj hopen
        exact h.refl
      · next d hd =>
          obtain ⟨filp, -, hopen⟩ := Option.bind_eq_some_iff.mp hopen
          have hset := h.acquire (Function.update s.fdtable d { file := filp, flags := flags })
            htask hd
          split at hopen
          · obtain rfl := Option.some.inj hopen
            have hheld : (s.fds.setBit task d true).held task d = true := by
              simp [DescTable.setBit]
            have hclear := hset.bitmaps.release htask hheld
            exact ⟨hclear.bitmaps, rfl, rfl⟩
          · obtain rfl := Option.some.inj hopen
            exact hset

theorem sysClose {fd : Int} {r : Reply Unit} (h : Bitmaps s S) (htask : task ∈ S)
    (hclose : s.sysClose task fd = some r) : Keeps s S r.1 := by
  rw [DescSys.sysClose] at hclose
  split at hclose
  · obtain rfl := Option.some.inj hclose
    exact h.refl
  · obtain ⟨own, hown, hclose⟩ := Option.bind_eq_some_iff.mp hclose
    obtain ⟨-, -, rfl⟩ := DescTable.getBit_eq_some hown
    split at hclose
    · obtain rfl := Option.some.inj hclose
      exact h.refl
    · next hvalid =>
        obtain rfl := Option.some.inj hclose
        exact h.release htask (DescTable.valid_iff.mp (by simpa using hvalid)).2

theorem sysDup {oldfd : Int} {r : Reply Nat} (h : Bitmaps s S) (htask : task ∈ S)
    (hdup : s.sysDup task oldfd = some r) : Keeps s S r.1 := by
  rw [DescSys.sysDup] at hdup
  split at hdup
  · obtain rfl := Option.some.inj hdup
    exact h.refl
  · obtain ⟨own, -, hdup⟩ := Option.bind_eq_some_iff.mp hdup
    split at hdup
    · obtain rfl := Option.some.inj hdup
      exact h.refl
    · split at hdup
      · obtain rfl := Option.some.inj hdup
        exact h.refl
      · next d hd =>
          obtain rfl := Option.some.inj hdup
          exact h.acquire _ htask hd

theorem sysDup2 {oldfd newfd : Int} {r : Reply Int} (h : Bitmaps s S)
    (hdup : s.sysDup2 task oldfd newfd = some r) : Keeps s S r.1 := by
  rw [DescSys.sysDup2] at hdup
  split at hdup
  · obtain rfl := Option.some.inj hdup
    exact h.refl
  · obtain ⟨usedOld, -, hdup⟩ := Option.bind_eq_some_iff.mp hdup
    split at hdup
    · obtain rfl := Option.some.inj hdup
      exact h.refl
    · obtain ⟨usedNew, -, hdup⟩ := Option.bind_eq_some_iff.mp hdup
      split at hdup
      · obtain rfl := Option.some.inj hdup
        exact h.refl
      · obtain rfl := Option.some.inj hdup
        exact ⟨⟨h.fds, h.mqds, h.lt_max, h.mqds_lt_max⟩, rfl, rfl⟩

theorem fileCall {defined : FileOps → Bool} {setsFlags : Bool} {fd : Int} {r : Reply File}
    (h : Bitmaps s S) (hcall : fileCall defined setsFlags s task fd = some r) : Keeps s S r.1 := by
  rw [DescSys.fileCall] at hcall
  split at hcall
  · obtain ⟨filp, -, hcall⟩ := Option.bind_eq_some_iff.mp hcall
    split at hcall <;> (obtain rfl := Option.some.inj hcall; exact h.refl)
  · obtain ⟨own, -, hcall⟩ := Option.bind_eq_some_iff.mp hcall
    split at hcall
    · obtain rfl := Option.some.inj hcall
      exact h.refl
    · have hset : ∀ fFlags, Keeps s S { s with fFlags } :=
        fun _ => ⟨⟨h.fds, h.mqds, h.lt_max, h.mqds_lt_max⟩, rfl, rfl⟩
      cases setsFlags with
      | false =>
          simp only [Bool.false_eq_true, if_false] at hcall
          split at hcall <;> (obtain rfl := Option.some.inj hcall; exact h.refl)
      | true =>
          simp only [if_true] at hcall
          split at hcall <;> (obtain rfl := Option.some.inj hcall; exact hset _)

theorem sysFstat {fd : Int} {r : Reply (Option Stat)} (h : Bitmaps s S)
    (hcall : s.sysFstat task fd = some r) : Keeps s S r.1 := by
  rw [DescSys.sysFstat] at hcall
  split at hcall
  · obtain rfl := Option.some.inj hcall
    exact h.refl
  · obtain ⟨own, -, hcall⟩ := Option.bind_eq_some_iff.mp hcall
    split at hcall <;> (obtain rfl := Option.some.inj hcall; exact h.refl)

theorem sysMqOpen {found memory : Bool} {oflag : Word} (h : Bitmaps s S) (htask : task ∈ S) :
    Keeps s S (s.sysMqOpen task found memory oflag).1 := by
  obtain ⟨mqds, heq, rfl | ⟨d, hd, rfl⟩⟩ := s.toTaskSys.sysMqOpen_mqds task found memory oflag
  · rw [DescSys.sysMqOpen, heq]
    exact h.refl
  · rw [DescSys.sysMqOpen, heq]
    refine ⟨⟨h.fds, h.mqds.acquire htask (DescTable.firstZero_free hd), h.lt_max, ?_⟩, rfl, rfl⟩
    exact DescTable.lt_max_setBit h.mqds_lt_max fun _ => DescTable.firstZero_lt hd

theorem sysMqClose {mqdes : Int} {r : Reply Unit} (h : Bitmaps s S) (htask : task ∈ S)
    (hclose : s.sysMqClose task mqdes = some r) : Keeps s S r.1 := by
  obtain ⟨own, hown, hclose⟩ := Option.bind_eq_some_iff.mp hclose
  obtain ⟨-, -, rfl⟩ := DescTable.getBit_eq_some hown
  split at hclose
  · obtain rfl := Option.some.inj hclose
    exact h.refl
  · next hvalid =>
      obtain rfl := Option.some.inj hclose
      have hheld := (DescTable.valid_iff.mp (by simpa using hvalid)).2
      exact ⟨⟨h.fds, h.mqds.release htask hheld, h.lt_max,
        DescTable.lt_max_setBit h.mqds_lt_max nofun⟩, rfl, rfl⟩

theorem call (h : Bitmaps s S) (htask : task ∈ S) (he : ∀ p f, e ≠ .openFile p f)
    (hcall : s.call task e = some s') : Keeps s S s' := by
  cases e with
  | openFile pathname flags => exact absurd rfl (he pathname flags)
  | close fd =>
      obtain ⟨r, hr, rfl⟩ := Option.map_eq_some_iff.mp hcall
      exact h.sysClose htask hr
  | dup oldfd =>
      obtain ⟨r, hr, rfl⟩ := Option.map_eq_some_iff.mp hcall
      exact h.sysDup htask hr
  | dup2 oldfd newfd =>
      obtain ⟨r, hr, rfl⟩ := Option.map_eq_some_iff.mp hcall
      exact h.sysDup2 hr
  | read fd | write fd | ioctl fd | lseek fd =>
      obtain ⟨r, hr, rfl⟩ := Option.map_eq_some_iff.mp hcall
      exact h.fileCall hr
  | fstat fd =>
      obtain ⟨r, hr, rfl⟩ := Option.map_eq_some_iff.mp hcall
      exact h.sysFstat hr
  | mqOpen found memory oflag =>
      obtain rfl := Option.some.inj hcall
      exact h.sysMqOpen htask
  | mqClose mqdes =>
      obtain ⟨r, hr, rfl⟩ := Option.map_eq_some_iff.mp hcall
      exact h.sysMqClose htask hr
  | openReply _ | setFile _ _ _ _ | kernel _ => cases hcall

end Bitmaps

structure Inv (s : DescSys) : Prop where
  books : ∃ E, TaskBooks E s.kernel
  bitmaps : Bitmaps s {p | p ∈ s.kernel.tasksList}
  opening : ∀ t p f, s.opening t = some (p, f) → s.kernel.Alive t ∧
    (s.kernel.threads t).task = some p

namespace Inv

theorem mem_tasksList (h : Inv s) {t : Tid} (ht : s.kernel.Alive t)
    (htask : (s.kernel.threads t).task = some task) : task ∈ s.kernel.tasksList := by
  obtain ⟨E, hbooks⟩ := h.books
  exact (hbooks.tasksList.2 task).mpr (hbooks.marked_of_mem (hbooks.listed t task ht htask))

theorem keeps (h : Inv s) (hk : Keeps s {p | p ∈ s.kernel.tasksList} s') : Inv s' := by
  refine ⟨?_, ?_, fun t p f ht => ?_⟩
  · rw [hk.kernel]
    exact h.books
  · rw [hk.kernel]
    exact hk.bitmaps
  · rw [hk.kernel]
    exact h.opening t p f (hk.opening ▸ ht)

theorem sysOpen {pathname : List Byte} {flags : Word} {r : Reply Unit} (h : Inv s)
    (halive : s.kernel.Alive s.kernel.runningThread) (htask : s.kernel.currentTaskInfo = some task)
    (hopen : s.sysOpen task pathname flags = some r) : Inv r.1 := by
  rw [DescSys.sysOpen] at hopen
  split at hopen
  · obtain rfl := Option.some.inj hopen
    exact h
  · obtain rfl := Option.some.inj hopen
    refine ⟨h.books, ⟨h.bitmaps.fds, h.bitmaps.mqds, h.bitmaps.lt_max, h.bitmaps.mqds_lt_max⟩,
      fun t p f ht => ?_⟩
    by_cases htr : t = s.kernel.runningThread
    · subst htr
      simp only [Function.update_self, Option.some.injEq, Prod.mk.injEq] at ht
      exact ⟨halive, ht.1 ▸ htask⟩
    · exact h.opening t p f (by simpa [htr] using ht)

theorem tables_bitmap {t : DescTable} {d : Nat}
    (h : (TaskSys.tables s.kernel k t).bitmap d = true) : t.bitmap d = true := by
  rw [TaskSys.tables, DescTable.foldl_taskCreate_bitmap, DescTable.foldl_taskDelete_bitmap,
    Bool.and_eq_true] at h
  exact h.1

theorem runKernel {ke : KernelEvent} (h : Inv s) (hcaller : s.kernel.CallerAlive ke)
    (hstep : s.kernel.step ke = some k) : Inv (s.runKernel k) := by
  obtain ⟨E, hbooks⟩ := h.books
  obtain ⟨E', hbooks', -⟩ := hbooks.step hcaller hstep
  refine ⟨⟨E', hbooks'⟩, ⟨TaskSys.tables_owned hbooks hbooks' h.bitmaps.fds,
    TaskSys.tables_owned hbooks hbooks' h.bitmaps.mqds,
    fun d hd => h.bitmaps.lt_max d (tables_bitmap hd),
    fun d hd => h.bitmaps.mqds_lt_max d (tables_bitmap hd)⟩, fun t p f ht => ?_⟩
  · simp only [DescSys.runKernel, Option.ite_none_right_eq_some] at ht
    obtain ⟨halive, htask⟩ := h.opening t p f ht.2
    exact ⟨ht.1, (Kernel.task_step hstep halive).trans htask⟩

theorem step (h : Inv s) (hstep : s.step e = some s') : Inv s' := by
  have hcall : ∀ e, (∀ p f, e ≠ .openFile p f) → s.InCall →
      (s.kernel.currentTaskInfo.bind fun task => s.call task e) = some s' → Inv s' := by
    intro e he hin hcall
    obtain ⟨task, htask, hcall⟩ := Option.bind_eq_some_iff.mp hcall
    exact h.keeps (h.bitmaps.call (h.mem_tasksList hin.2 htask) he hcall)
  cases e with
  | openFile pathname flags =>
      obtain ⟨hin, hstep⟩ := Option.ite_none_right_eq_some.mp hstep
      obtain ⟨task, htask, hstep⟩ := Option.bind_eq_some_iff.mp hstep
      obtain ⟨r, hr, rfl⟩ := Option.map_eq_some_iff.mp hstep
      exact h.sysOpen hin.1.2 htask hr
  | openReply fileIdx =>
      obtain ⟨hin, hstep⟩ := Option.ite_none_right_eq_some.mp hstep
      obtain ⟨⟨task, flags⟩, hopening, hstep⟩ := Option.bind_eq_some_iff.mp hstep
      obtain ⟨r, hr, hstep⟩ := Option.bind_eq_some_iff.mp hstep
      obtain rfl := Option.some.inj hstep
      obtain ⟨halive, htask⟩ := h.opening _ _ _ hopening
      have hopen := h.keeps (h.bitmaps.sysOpenReply (h.mem_tasksList halive htask) hr)
      refine ⟨hopen.books, ⟨hopen.bitmaps.fds, hopen.bitmaps.mqds, hopen.bitmaps.lt_max,
        hopen.bitmaps.mqds_lt_max⟩, fun t p f ht => hopen.opening t p f ?_⟩
      by_cases htr : t = r.1.kernel.runningThread
      · simp [htr] at ht
      · simpa [htr] using ht
  | setFile fd filp ops inode =>
      obtain rfl := Option.some.inj hstep
      exact ⟨h.books, ⟨h.bitmaps.fds, h.bitmaps.mqds, h.bitmaps.lt_max, h.bitmaps.mqds_lt_max⟩,
        h.opening⟩
  | kernel ke =>
      obtain ⟨hcaller, hstep⟩ := Option.ite_none_right_eq_some.mp hstep
      obtain ⟨k, hk, rfl⟩ := Option.map_eq_some_iff.mp hstep
      exact h.runKernel hcaller hk
  | close _ | dup _ | dup2 _ _ | read _ | write _ | ioctl _ | lseek _ | fstat _ | mqOpen _ _ _
  | mqClose _ =>
      obtain ⟨hin, hstep⟩ := Option.ite_none_right_eq_some.mp hstep
      exact hcall _ (by simp) hin.1 hstep

theorem start (files : Int → Option File) (ops : File → FileOps) (inode : File → Option Stat) :
    Inv (start files ops inode) where
  books := ⟨∅, TaskBooks.schedStart⟩
  bitmaps := ⟨DescTable.Owned.empty _, DescTable.Owned.empty _, fun _ => Bool.noConfusion,
    fun _ => Bool.noConfusion⟩
  opening _ _ _ ht := nomatch ht

/-- Both bitmaps are looked at before anything is done with the descriptor of another task. -/
theorem refused {other : Pid} {d : Nat} (h : Inv s) (htask : task ∈ s.kernel.tasksList)
    (hother : other ∈ s.kernel.tasksList) (hne : task ≠ other) (hheld : s.fds.held other d = true) :
    s.Refused task ((d + fileReservedNum : Nat) : Int) := by
  have hvalid := h.bitmaps.fds.not_valid htask hother hne hheld
  have hused := h.bitmaps.fds.inUse other hother d hheld
  have hown : s.fds.held task d = false := by
    simpa [DescTable.valid, hused] using hvalid
  have hlt : d < bitmapBits openMax := Nat.lt_of_lt_of_le
    (h.bitmaps.lt_max d hused) (DescTable.le_bitmapBits _)
  have hidx : ((d + fileReservedNum : Nat) : Int) - fileReservedNum = d := by omega
  have hfd : ¬ ((d + fileReservedNum : Nat) : Int) < fileReservedNum := by omega
  have hbit : s.fds.getBit task openMax d = some false := by
    rw [DescTable.getBit, if_pos (by omega), Int.toNat_natCast, hvalid]
  have husedBit : s.fds.usedBit openMax d = some true := by
    rw [DescTable.usedBit, if_pos (by omega), Int.toNat_natCast, hused]
  generalize ((d + fileReservedNum : Nat) : Int) = fd at hidx hfd
  have hcall : ∀ defined setsFlags,
      fileCall defined setsFlags s task fd = some (s, .error .ebadf) := by
    intro defined setsFlags
    simp [fileCall, hfd, hidx, hbit]
  refine ⟨hcall _ _, hcall _ _, hcall _ _, hcall _ _, ?_, ?_, ?_, fun newfd hnew => ?_,
    fun oldfd hold => ?_⟩
  · simp [sysFstat, hfd, hidx, hbit]
  · simp [sysClose, hfd, hidx, hbit]
  · simp [sysDup, hfd, hidx, hbit]
  · by_cases hlow : newfd < fileReservedNum
    · simp [sysDup2, hlow]
    · have hnewbit : s.fds.usedBit openMax (newfd - fileReservedNum) =
          some (s.fds.bitmap (newfd - fileReservedNum).toNat) := if_pos (by omega)
      simp [sysDup2, hfd, hlow, hidx, husedBit, hnewbit, hown]
  · by_cases hlow : oldfd < fileReservedNum
    · simp [sysDup2, hlow]
    · have holdbit : s.fds.usedBit openMax (oldfd - fileReservedNum) =
          some (s.fds.bitmap (oldfd - fileReservedNum).toNat) := if_pos (by omega)
      simp [sysDup2, hfd, hlow, hidx, husedBit, holdbit, hown]

end Inv

def openRun : List DescEvent :=
  Kernel.bootRun.map .kernel ++
    [.kernel .syscallHandler, .openFile [0x2f#8, 0x66#8] 0#32, .openReply (some fileReservedNum)]

end DescSys

end Tenok
