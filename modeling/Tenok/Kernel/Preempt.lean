import Mathlib.Logic.Function.Basic
import Tenok.Lib.Runs

/-!
Preemption nesting across `schedule`. A thread calls it at some level of
`preempt_disable`; `jump_to_kernel` parks the level in the thread, zeroes the
counter, opens interrupts for PendSV and reads the level back once the kernel
loop has resumed the thread. Every instruction that reads or writes the counter,
the parked level or BASEPRI is a step of its own, and SysTick can come between
any two of them.
-/
namespace Tenok

/-- What called `preempt_disable` or `preempt_enable`: code of the thread, or
`schedule` entered at a nesting level. -/
inductive PreemptCaller
  | thread
  | schedule (n : BitVec 32)
  deriving DecidableEq, Repr

/-- Where a thread is in `preempt_disable`, `preempt_enable`, `schedule` and
`jump_to_kernel`. The level is the one `schedule` was entered at. -/
inductive PreemptPc
  | outside
  | disableTest (k : PreemptCaller)
  | disableMask (k : PreemptCaller)
  | disableInc (k : PreemptCaller)
  | setNeedResched (n : BitVec 32)
  | enableDec (k : PreemptCaller)
  | enableTest (k : PreemptCaller)
  | enableUnmask (k : PreemptCaller)
  | jumpMask (n : BitVec 32)
  | jumpPark (n : BitVec 32)
  | jumpReset (n : BitVec 32)
  | jumpPendsv (n : BitVec 32)
  | jumpUnmask (n : BitVec 32)
  | jumpLoad (n : BitVec 32)
  | jumpRestore (n r : BitVec 32)
  | jumpTest (n : BitVec 32)
  | jumpRemask (n : BitVec 32)
  | scheduleRet (n : BitVec 32)
  deriving DecidableEq, Repr

/-- `entry` is PendSV_Handler or SVC_Handler before `irq_disable`, `exit` is
`jump_to_thread` after `irq_enable`. -/
inductive CpuMode
  | thread
  | entry
  | kernel
  | exit
  deriving DecidableEq, Repr

structure PreemptState where
  mode : CpuMode
  /-- BASEPRI is at the threshold, which holds back SysTick, PendSV and SVCall. -/
  basepri : Bool
  preemptCnt : BitVec 32
  pendsv : Bool
  needResched : Bool
  runningThread : Nat
  threadPreemptCnt : Nat → BitVec 32
  pc : Nat → PreemptPc

namespace PreemptState

def preemptCountInc (s : PreemptState) : PreemptState :=
  { s with preemptCnt := s.preemptCnt + 1#32 }

def preemptCountDec (s : PreemptState) : PreemptState :=
  { s with preemptCnt :=
      if 0#32 < s.preemptCnt then s.preemptCnt - 1#32 else s.preemptCnt }

def preemptCountSet (s : PreemptState) (count : BitVec 32) : PreemptState :=
  { s with preemptCnt := count }

/-- `__preempt_disable`: the `set_basepri` of v7m_entry.S. -/
def setBasepri (s : PreemptState) : PreemptState := { s with basepri := true }

/-- `__preempt_enable`: the `reset_basepri` of v7m_entry.S. -/
def resetBasepri (s : PreemptState) : PreemptState := { s with basepri := false }

/-- `curr_thread->preempt_cnt = preempt_count()`. -/
def park (s : PreemptState) : PreemptState :=
  { s with threadPreemptCnt :=
      Function.update s.threadPreemptCnt s.runningThread s.preemptCnt }

def setPendsv (s : PreemptState) : PreemptState := { s with pendsv := true }

def goto (s : PreemptState) (pc : PreemptPc) : PreemptState :=
  { s with pc := Function.update s.pc s.runningThread pc }

/-- `jump_to_kernel` with nothing in between, as it runs inside a handler. -/
def jumpToKernel (s : PreemptState) : PreemptState :=
  let s := ((s.setBasepri.park.preemptCountSet 0#32).setPendsv).resetBasepri
  let s := s.preemptCountSet (s.threadPreemptCnt s.runningThread)
  if s.preemptCnt ≠ 0#32 then s.setBasepri else s

/-- `SysTick_Handler`: the two masks of `system_ticks_update` bracket its work,
of which only the rescheduling request reaches this state. -/
def sysTickHandler (s : PreemptState) : PreemptState :=
  jumpToKernel { s.setBasepri with needResched := true }.resetBasepri

/-- Where the thread goes on after `preempt_disable`. -/
def disableRet : PreemptCaller → PreemptPc
  | .thread => .outside
  | .schedule n => .setNeedResched n

/-- Where the thread goes on after `preempt_enable`. -/
def enableRet : PreemptCaller → PreemptPc
  | .thread => .outside
  | .schedule n => .jumpMask n

/-- The next instruction of the running thread inside the modelled functions. -/
def instr (s : PreemptState) : Option PreemptState :=
  match s.pc s.runningThread with
  | .outside => none
  | .disableTest k =>
      some (s.goto (if s.preemptCnt = 0#32 then .disableMask k else .disableInc k))
  | .disableMask k => some (s.setBasepri.goto (.disableInc k))
  | .disableInc k => some (s.preemptCountInc.goto (disableRet k))
  | .setNeedResched n =>
      some ({ s with needResched := true }.goto (.enableDec (.schedule n)))
  | .enableDec k => some (s.preemptCountDec.goto (.enableTest k))
  | .enableTest k =>
      some (s.goto (if s.preemptCnt = 0#32 then .enableUnmask k else enableRet k))
  | .enableUnmask k => some (s.resetBasepri.goto (enableRet k))
  | .jumpMask n => some (s.setBasepri.goto (.jumpPark n))
  | .jumpPark n => some (s.park.goto (.jumpReset n))
  | .jumpReset n => some ((s.preemptCountSet 0#32).goto (.jumpPendsv n))
  | .jumpPendsv n => some (s.setPendsv.goto (.jumpUnmask n))
  | .jumpUnmask n => some (s.resetBasepri.goto (.jumpLoad n))
  | .jumpLoad n => some (s.goto (.jumpRestore n (s.threadPreemptCnt s.runningThread)))
  | .jumpRestore n r => some ((s.preemptCountSet r).goto (.jumpTest n))
  | .jumpTest n =>
      some (s.goto (if s.preemptCnt ≠ 0#32 then .jumpRemask n else .scheduleRet n))
  | .jumpRemask n => some (s.setBasepri.goto (.scheduleRet n))
  | .scheduleRet _ => some (s.goto .outside)

end PreemptState

inductive PreemptEvent
  /-- The running thread calls one of the three from its own code. -/
  | preemptDisable
  | preemptEnable
  | schedule
  | svc
  | instr
  | sysTick
  | pendsv
  /-- `irq_disable` of a handler and the switch to the kernel loop. -/
  | enterKernel
  /-- A system call served by the kernel loop asks for rescheduling. -/
  | setNeedResched
  /-- The rest of the kernel loop and `jump_to_thread` with its `irq_enable`. -/
  | jumpToThread (next : Nat)
  | exceptionReturn
  /-- A thread slot is filled: its thread starts outside of these functions. -/
  | threadCreate (thread : Nat)
  deriving DecidableEq, Repr

namespace PreemptState

/-- The thread can execute: a pending PendSV comes first unless it is masked. -/
def ThreadRuns (s : PreemptState) : Prop :=
  s.mode = .thread ∧ ¬ (s.pendsv = true ∧ s.basepri = false)

instance ThreadRuns.decidable (s : PreemptState) : Decidable s.ThreadRuns :=
  inferInstanceAs (Decidable (_ ∧ _))

/-- The running thread executes code of its own. -/
def InThreadCode (s : PreemptState) : Prop :=
  s.ThreadRuns ∧ s.pc s.runningThread = .outside

instance InThreadCode.decidable (s : PreemptState) : Decidable s.InThreadCode :=
  inferInstanceAs (Decidable (_ ∧ _))

/-- One event. SysTick comes wherever BASEPRI lets it through: `__platform_init`
puts it above PendSV, so that it also enters the two handler windows, before
`SysTick_Config` lowers it again and closes them. -/
def step (s : PreemptState) : PreemptEvent → Option PreemptState
  | .preemptDisable => if s.InThreadCode then some (s.goto (.disableTest .thread)) else none
  | .preemptEnable => if s.InThreadCode then some (s.goto (.enableDec .thread)) else none
  | .schedule =>
      if s.InThreadCode then some (s.goto (.disableTest (.schedule s.preemptCnt))) else none
  | .svc =>
      if s.InThreadCode ∧ s.basepri = false then some { s with mode := .entry } else none
  | .instr => if s.ThreadRuns then s.instr else none
  | .sysTick =>
      if s.mode ≠ .kernel ∧ s.basepri = false then some s.sysTickHandler else none
  | .pendsv =>
      if s.mode = .thread ∧ s.pendsv = true ∧ s.basepri = false then
        some { s with pendsv := false, mode := .entry }
      else none
  | .enterKernel =>
      if s.mode = .entry then some { s.setBasepri.preemptCountInc with mode := .kernel }
      else none
  | .setNeedResched =>
      if s.mode = .kernel then some { s with needResched := true } else none
  | .jumpToThread next =>
      if s.mode = .kernel ∧ (next = s.runningThread ∨ s.needResched = true) then
        some { s.preemptCountDec.resetBasepri with
          needResched := false, runningThread := next, mode := .exit }
      else none
  | .exceptionReturn =>
      if s.mode = .exit then some { s with mode := .thread } else none
  | .threadCreate t =>
      if s.InThreadCode ∧ t ≠ s.runningThread then
        some { s with pc := Function.update s.pc t .outside }
      else none

/-- The first pass of the kernel loop: `os_env_init` has left interrupts masked
at level 1 and no thread has run. -/
structure Booted (s : PreemptState) : Prop where
  mode : s.mode = .kernel
  basepri : s.basepri = true
  preemptCnt : s.preemptCnt = 1#32
  pc : ∀ t, s.pc t = .outside

/-- The level that a thread has parked and is yet to read back. -/
def unread : PreemptPc → BitVec 32
  | .jumpLoad n => n
  | _ => 0#32

/-- The steps that leave a parked level alone: no SysTick while the running
thread has yet to read a level other than 0 back, and no `schedule` at the level
whose increment wraps. -/
def LevelUndisturbed (s : PreemptState) : PreemptEvent → Prop
  | .sysTick => unread (s.pc s.runningThread) = 0#32
  | .schedule => s.preemptCnt ≠ BitVec.allOnes 32
  | _ => True

instance LevelUndisturbed.decidable (s : PreemptState) :
    (e : PreemptEvent) → Decidable (s.LevelUndisturbed e)
  | .sysTick => inferInstanceAs (Decidable (_ = _))
  | .schedule => inferInstanceAs (Decidable (_ ≠ _))
  | .preemptDisable | .preemptEnable | .svc | .instr | .pendsv | .enterKernel
  | .setNeedResched | .jumpToThread _ | .exceptionReturn | .threadCreate _ =>
      inferInstanceAs (Decidable True)

/-- When `schedule` returns, the counter is back at the level it was entered at
and interrupts are masked exactly above level 0. -/
def NestingKept (s : PreemptState) : Prop :=
  match s.mode, s.pc s.runningThread with
  | .thread, .scheduleRet n => s.preemptCnt = n ∧ (s.basepri = true ↔ 0#32 < n)
  | _, _ => True

/-- What the counter, BASEPRI, a pending PendSV and the parked level are at each
place of a thread that has the CPU. -/
def Synced (pc : PreemptPc) (cnt : BitVec 32) (masked pending : Bool) (parked : BitVec 32) :
    Prop :=
  match pc with
  | .outside | .disableTest .thread | .enableDec .thread | .enableTest .thread =>
      cnt ≠ 0#32 → masked = true
  | .disableMask .thread | .enableUnmask .thread => cnt = 0#32
  | .disableInc .thread => masked = true
  | .disableTest (.schedule n) =>
      cnt = n ∧ n ≠ BitVec.allOnes 32 ∧ (n ≠ 0#32 → masked = true)
  | .disableMask (.schedule n) => cnt = n ∧ n = 0#32
  | .disableInc (.schedule n) => cnt = n ∧ n ≠ BitVec.allOnes 32 ∧ masked = true
  | .setNeedResched n | .enableDec (.schedule n) =>
      cnt = n + 1#32 ∧ n ≠ BitVec.allOnes 32 ∧ masked = true
  | .enableTest (.schedule n) | .jumpPark n => cnt = n ∧ masked = true
  | .enableUnmask (.schedule n) => cnt = n ∧ n = 0#32
  | .jumpMask n => cnt = n ∧ (n ≠ 0#32 → masked = true)
  | .jumpReset n => parked = n ∧ masked = true
  | .jumpPendsv n | .jumpUnmask n => parked = n ∧ cnt = 0#32 ∧ masked = true
  | .jumpLoad n => parked = n ∧ cnt = 0#32 ∧ masked = false
  | .jumpRestore n r => r = n ∧ cnt = 0#32 ∧ masked = false
  -- the one place with a level and open interrupts: SysTick masks them again here
  | .jumpTest n =>
      cnt = n ∧ (masked = true → n ≠ 0#32) ∧ (masked = false → pending = true → n = 0#32)
  | .jumpRemask n =>
      cnt = n ∧ n ≠ 0#32 ∧ (masked = false → pending = false)
  | .scheduleRet n => cnt = n ∧ (masked = true ↔ n ≠ 0#32)

/-- A thread without the CPU gave it up, and gets it back, at level 0 unmasked. -/
def Suspended (pc : PreemptPc) (parked : BitVec 32) : Prop := Synced pc 0#32 false false parked

def SyncedAll (s : PreemptState) : Prop :=
  match s.mode with
  | .thread =>
      Synced (s.pc s.runningThread) s.preemptCnt s.basepri s.pendsv
          (s.threadPreemptCnt s.runningThread) ∧
        ∀ t, t ≠ s.runningThread → Suspended (s.pc t) (s.threadPreemptCnt t)
  | .entry | .exit =>
      s.preemptCnt = 0#32 ∧ s.basepri = false ∧
        ∀ t, Suspended (s.pc t) (s.threadPreemptCnt t)
  | .kernel =>
      s.preemptCnt = 1#32 ∧ s.basepri = true ∧
        ∀ t, Suspended (s.pc t) (s.threadPreemptCnt t)

theorem Synced.suspended {pc : PreemptPc} {cnt parked : BitVec 32}
    (h : Synced pc cnt false true parked) : cnt = 0#32 ∧ Suspended pc parked := by
  cases pc with
  | disableTest k | disableMask k | disableInc k | enableDec k | enableTest k | enableUnmask k =>
      cases k <;> simp_all [Synced, Suspended]
  | _ => simp_all [Synced, Suspended]

theorem Suspended.synced {pc : PreemptPc} {parked : BitVec 32} (h : Suspended pc parked)
    (pending : Bool) : Synced pc 0#32 false pending parked := by
  cases pc with
  | disableTest k | disableMask k | disableInc k | enableDec k | enableTest k | enableUnmask k =>
      cases k <;> grind [Synced, Suspended]
  | _ => grind [Synced, Suspended]

@[simp]
theorem sysTickHandler_eq (s : PreemptState) : s.sysTickHandler =
    { s.park with
      basepri := decide (s.preemptCnt ≠ 0#32), pendsv := true, needResched := true } := by
  by_cases hcnt : s.preemptCnt = 0#32 <;>
    simp [sysTickHandler, jumpToKernel, park, setBasepri, resetBasepri, preemptCountSet,
      setPendsv, hcnt]

/-- SysTick on the running thread parks its level, which is right everywhere but
before `jump_to_kernel` has read an earlier one back. -/
theorem Synced.sysTick {pc : PreemptPc} {cnt parked : BitVec 32} {pending : Bool}
    (h : Synced pc cnt false pending parked) (hload : unread pc = 0#32) :
    Synced pc cnt (decide (cnt ≠ 0#32)) true cnt := by
  cases pc with
  | disableTest k | disableMask k | disableInc k | enableDec k | enableTest k | enableUnmask k =>
      cases k <;> simp_all [Synced]
  | _ => simp_all [Synced, unread]

theorem syncedAll_sysTick {s : PreemptState} (h : s.SyncedAll) (hok : s.LevelUndisturbed .sysTick)
    (hmode : s.mode ≠ .kernel) (hopen : s.basepri = false) : s.sysTickHandler.SyncedAll := by
  rw [sysTickHandler_eq]
  cases hm : s.mode with
  | kernel => exact absurd hm hmode
  | thread =>
      simp only [SyncedAll, hm, hopen] at h
      simp only [SyncedAll, park, hm, Function.update_self]
      refine ⟨h.1.sysTick hok, fun t ht => ?_⟩
      rw [Function.update_of_ne ht]
      exact h.2 t ht
  | entry | exit =>
      simp only [SyncedAll, hm] at h
      obtain ⟨hcnt, -, hall⟩ := h
      simp only [SyncedAll, park, hm, hcnt, ne_eq, not_true_eq_false, decide_false, true_and]
      intro t
      by_cases ht : t = s.runningThread
      · subst ht
        have hrunning := ((hall s.runningThread).synced false).sysTick hok
        rw [Function.update_self]
        exact hrunning.suspended.2
      · rw [Function.update_of_ne ht]
        exact hall t

theorem preemptCountDec_add_one {s : PreemptState} {n : BitVec 32}
    (hcnt : s.preemptCnt = n + 1#32) (hn : n ≠ BitVec.allOnes 32) :
    s.preemptCountDec = { s with preemptCnt := n } := by
  have hlast : (BitVec.allOnes 32).toNat = 2 ^ 32 - 1 := by decide
  have hpos : 0#32 < n + 1#32 := by bv_omega
  have hsub : n + 1#32 - 1#32 = n := by bv_omega
  simp only [preemptCountDec, hcnt, hpos, if_true, hsub]

theorem syncedAll_goto {s : PreemptState} {pc : PreemptPc} (hmode : s.mode = .thread)
    (hrest : ∀ t, t ≠ s.runningThread → Suspended (s.pc t) (s.threadPreemptCnt t))
    (hpc : Synced pc s.preemptCnt s.basepri s.pendsv (s.threadPreemptCnt s.runningThread)) :
    (s.goto pc).SyncedAll := by
  simp only [SyncedAll, goto, hmode, Function.update_self]
  refine ⟨hpc, fun t ht => ?_⟩
  rw [Function.update_of_ne ht]
  exact hrest t ht

/-- One instruction of the running thread keeps it in step, and touches neither
the place nor the parked level of any other thread. -/
theorem syncedAll_instr {s t : PreemptState} (h : s.SyncedAll) (hruns : s.ThreadRuns)
    (hstep : s.instr = some t) : t.SyncedAll := by
  obtain ⟨hm, hpend⟩ := hruns
  simp only [SyncedAll, hm] at h
  obtain ⟨hrun, hrest⟩ := h
  cases hpc : s.pc s.runningThread with
  | outside => simp [instr, hpc] at hstep
  | disableTest k =>
      simp only [instr, hpc, Option.some.injEq] at hstep
      subst hstep
      refine syncedAll_goto hm hrest ?_
      cases k <;> grind [Synced]
  | disableMask k =>
      simp only [instr, hpc, Option.some.injEq] at hstep
      subst hstep
      refine syncedAll_goto hm hrest ?_
      cases k <;> grind [Synced, setBasepri]
  | disableInc k =>
      simp only [instr, hpc, Option.some.injEq] at hstep
      subst hstep
      refine syncedAll_goto hm hrest ?_
      cases k <;> grind [Synced, preemptCountInc, disableRet]
  | setNeedResched n =>
      simp only [instr, hpc, Option.some.injEq] at hstep
      subst hstep
      refine syncedAll_goto hm hrest ?_
      grind [Synced]
  | enableDec k =>
      simp only [instr, hpc, Option.some.injEq] at hstep
      subst hstep
      cases k with
      | thread =>
          refine syncedAll_goto hm hrest ?_
          have hmasked : s.preemptCnt ≠ 0#32 → s.basepri = true := by simpa [hpc, Synced] using hrun
          intro hcnt
          refine hmasked fun hzero => hcnt ?_
          simp [preemptCountDec, hzero]
      | schedule n =>
          rw [hpc] at hrun
          rw [preemptCountDec_add_one hrun.1 hrun.2.1]
          exact syncedAll_goto hm hrest ⟨rfl, hrun.2.2⟩
  | enableTest k =>
      simp only [instr, hpc, Option.some.injEq] at hstep
      subst hstep
      refine syncedAll_goto hm hrest ?_
      cases k <;> grind [Synced, enableRet]
  | enableUnmask k =>
      simp only [instr, hpc, Option.some.injEq] at hstep
      subst hstep
      refine syncedAll_goto hm hrest ?_
      cases k <;> grind [Synced, resetBasepri, enableRet]
  | jumpPark n =>
      simp only [instr, hpc, Option.some.injEq] at hstep
      subst hstep
      refine syncedAll_goto hm (fun t ht => ?_) ?_
      · change t ≠ s.runningThread at ht
        simpa only [park, Function.update_of_ne ht] using hrest t ht
      · simpa [hpc, Synced, park] using hrun
  | _ =>
      simp only [instr, hpc, Option.some.injEq] at hstep
      subst hstep
      refine syncedAll_goto hm hrest ?_
      grind [Synced, setBasepri, resetBasepri, preemptCountSet, setPendsv]

theorem syncedAll_call {s : PreemptState} {pc : PreemptPc} (h : s.SyncedAll)
    (hcode : s.InThreadCode)
    (hpc : (s.preemptCnt ≠ 0#32 → s.basepri = true) →
      Synced pc s.preemptCnt s.basepri s.pendsv (s.threadPreemptCnt s.runningThread)) :
    (s.goto pc).SyncedAll := by
  obtain ⟨⟨hm, -⟩, houtside⟩ := hcode
  simp only [SyncedAll, hm, houtside] at h
  exact syncedAll_goto hm h.2 (hpc h.1)

theorem syncedAll_entry {s : PreemptState} (h : s.SyncedAll) (hm : s.mode = .thread)
    (hopen : s.basepri = false)
    (hsuspended : s.preemptCnt = 0#32 ∧
      Suspended (s.pc s.runningThread) (s.threadPreemptCnt s.runningThread)) (pending : Bool) :
    SyncedAll { s with pendsv := pending, mode := .entry } := by
  simp only [SyncedAll, hm] at h
  refine ⟨hsuspended.1, hopen, fun t => ?_⟩
  by_cases ht : t = s.runningThread
  · rw [ht]
    exact hsuspended.2
  · exact h.2 t ht

theorem syncedAll_threadCreate {s : PreemptState} {t : Nat} (h : s.SyncedAll)
    (hm : s.mode = .thread) (ht : t ≠ s.runningThread) :
    SyncedAll { s with pc := Function.update s.pc t .outside } := by
  simp only [SyncedAll, hm] at h ⊢
  rw [Function.update_of_ne ht.symm]
  refine ⟨h.1, fun u hu => ?_⟩
  by_cases hut : u = t
  · simp [hut, Suspended, Synced]
  · rw [Function.update_of_ne hut]
    exact h.2 u hu

theorem syncedAll_step {s t : PreemptState} {e : PreemptEvent} (h : s.SyncedAll)
    (hok : s.LevelUndisturbed e) (hstep : s.step e = some t) : t.SyncedAll := by
  cases e with
  | preemptDisable | preemptEnable =>
      simp only [step, Option.ite_none_right_eq_some, Option.some.injEq] at hstep
      obtain ⟨hcode, rfl⟩ := hstep
      exact syncedAll_call h hcode id
  | schedule =>
      simp only [step, Option.ite_none_right_eq_some, Option.some.injEq] at hstep
      obtain ⟨hcode, rfl⟩ := hstep
      exact syncedAll_call h hcode fun hmasked => ⟨rfl, hok, hmasked⟩
  | svc =>
      simp only [step, Option.ite_none_right_eq_some, Option.some.injEq] at hstep
      obtain ⟨⟨hcode, hopen⟩, rfl⟩ := hstep
      obtain ⟨⟨hm, -⟩, houtside⟩ := hcode
      have hrun := h
      simp only [SyncedAll, hm, houtside, hopen] at hrun
      refine syncedAll_entry h hm hopen ⟨?_, by simp [houtside, Suspended, Synced]⟩ s.pendsv
      by_contra hcnt
      exact Bool.false_ne_true (hrun.1 hcnt)
  | instr =>
      simp only [step, Option.ite_none_right_eq_some] at hstep
      exact syncedAll_instr h hstep.1 hstep.2
  | sysTick =>
      simp only [step, Option.ite_none_right_eq_some, Option.some.injEq] at hstep
      obtain ⟨⟨hmode, hopen⟩, rfl⟩ := hstep
      exact syncedAll_sysTick h hok hmode hopen
  | pendsv =>
      simp only [step, Option.ite_none_right_eq_some, Option.some.injEq] at hstep
      obtain ⟨⟨hm, hpending, hopen⟩, rfl⟩ := hstep
      have hrun := h
      simp only [SyncedAll, hm, hpending, hopen] at hrun
      exact syncedAll_entry h hm hopen hrun.1.suspended false
  | enterKernel =>
      simp only [step, Option.ite_none_right_eq_some, Option.some.injEq] at hstep
      obtain ⟨hm, rfl⟩ := hstep
      simp only [SyncedAll, hm] at h
      exact ⟨by simp [preemptCountInc, setBasepri, h.1], rfl, h.2.2⟩
  | setNeedResched =>
      simp only [step, Option.ite_none_right_eq_some, Option.some.injEq] at hstep
      obtain ⟨hm, rfl⟩ := hstep
      simpa only [SyncedAll, hm] using h
  | jumpToThread next =>
      simp only [step, Option.ite_none_right_eq_some, Option.some.injEq] at hstep
      obtain ⟨⟨hm, -⟩, rfl⟩ := hstep
      simp only [SyncedAll, hm] at h
      exact ⟨by simp [preemptCountDec, resetBasepri, h.1], rfl, h.2.2⟩
  | exceptionReturn =>
      simp only [step, Option.ite_none_right_eq_some, Option.some.injEq] at hstep
      obtain ⟨hm, rfl⟩ := hstep
      simp only [SyncedAll, hm] at h
      obtain ⟨hcnt, hopen, hall⟩ := h
      refine ⟨?_, fun t _ => hall t⟩
      simpa only [hcnt, hopen] using (hall s.runningThread).synced s.pendsv
  | threadCreate t =>
      simp only [step, Option.ite_none_right_eq_some, Option.some.injEq] at hstep
      obtain ⟨⟨⟨⟨hm, -⟩, -⟩, ht⟩, rfl⟩ := hstep
      exact syncedAll_threadCreate h hm ht

theorem Booted.syncedAll {s : PreemptState} (h : s.Booted) : s.SyncedAll := by
  simp only [SyncedAll, h.mode]
  exact ⟨h.preemptCnt, h.basepri, fun t => by simp [h.pc t, Suspended, Synced]⟩

theorem SyncedAll.nestingKept {s : PreemptState} (h : s.SyncedAll) : s.NestingKept := by
  cases hm : s.mode with
  | thread =>
      simp only [SyncedAll, hm] at h
      cases hpc : s.pc s.runningThread with
      | scheduleRet n =>
          simp only [hpc, Synced] at h
          simp only [NestingKept, hm, hpc]
          exact ⟨h.1.1, h.1.2.trans (BitVec.pos_iff_ne_zero n).symm⟩
      | _ => simp [NestingKept, hm, hpc]
  | _ => simp [NestingKept, hm]

/-- In every run from boot whose ticks leave parked levels alone, whenever
`schedule` returns the level and the masking of its call are back. -/
theorem schedule_keeps_nesting {boot s : PreemptState} {events : List PreemptEvent}
    (hboot : boot.Booted) (hok : Runs.AllOk LevelUndisturbed step boot events)
    (hrun : Runs.exec step boot events = some s) : s.NestingKept :=
  (Runs.exec_invariant (fun _ _ _ => syncedAll_step) hboot.syncedAll hok hrun).nestingKept

def boot : PreemptState where
  mode := .kernel
  basepri := true
  preemptCnt := 1#32
  pendsv := false
  needResched := false
  runningThread := 0
  threadPreemptCnt _ := 0#32
  pc _ := .outside

theorem boot_booted : boot.Booted := ⟨rfl, rfl, rfl, fun _ => rfl⟩

/-- Thread 0 disables preemption once, as `down` does, and calls `schedule`; the
events end as `jump_to_kernel` is about to open interrupts. -/
def blockAtLevelOne : List PreemptEvent :=
  [.jumpToThread 0, .exceptionReturn, .preemptDisable, .instr, .instr, .instr, .schedule] ++
    List.replicate 9 .instr

/-- PendSV and a pass of the kernel loop that resumes the same thread. -/
def kernelPass : List PreemptEvent :=
  [.pendsv, .enterKernel, .jumpToThread 0, .exceptionReturn]

/-- The run with one tick after the level has been read back. -/
def tickAfterLoad : List PreemptEvent :=
  blockAtLevelOne ++ .instr :: kernelPass ++ [.instr, .instr, .sysTick, .instr, .instr]

theorem schedule_keeps_nesting_at_level_one :
    ∃ s, Runs.exec step boot tickAfterLoad = some s ∧
      s.pc s.runningThread = .scheduleRet 1#32 ∧ s.NestingKept := by
  have hany : (Runs.exec step boot tickAfterLoad).any
      (fun s => decide (s.pc s.runningThread = .scheduleRet 1#32)) = true := by decide +kernel
  obtain ⟨s, hrun, hpc⟩ := (Option.any_eq_true _ _).mp hany
  exact ⟨s, hrun, of_decide_eq_true hpc, schedule_keeps_nesting boot_booted (by decide +kernel) hrun⟩

/-- SysTick, pending while the kernel loop ran, is taken as the thread resumes
and parks level 0 over the level 1 that is still to be read back. -/
def tickBeforeLoad : List PreemptEvent :=
  blockAtLevelOne ++ .instr :: kernelPass ++ .sysTick :: kernelPass ++ [.instr, .instr, .instr]

theorem schedule_loses_nesting :
    ¬ ∀ (boot s : PreemptState) (events : List PreemptEvent), boot.Booted →
      Runs.exec step boot events = some s → s.NestingKept := by
  intro h
  have hany : (Runs.exec step boot tickBeforeLoad).any (fun s => decide (s.mode = .thread ∧
      s.pc s.runningThread = .scheduleRet 1#32 ∧ s.preemptCnt = 0#32)) = true := by
    decide +kernel
  obtain ⟨s, hrun, hs⟩ := (Option.any_eq_true _ _).mp hany
  obtain ⟨hmode, hpc, hcnt⟩ := of_decide_eq_true hs
  have hkept := h boot s tickBeforeLoad boot_booted hrun
  simp [NestingKept, hmode, hpc, hcnt] at hkept

end PreemptState

end Tenok
