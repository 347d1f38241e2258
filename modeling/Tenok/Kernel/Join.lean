import Tenok.Kernel.Parked

/-!
`pthread_join` with the values that threads leave. A thread that ends by itself stores
its value for all that join it; the four other ways in which a thread can end do not
look at its join list. On the kernel come the two fields of the control blocks that carry
the value and the memory that the joining threads have it written to.
-/
namespace Tenok
open Ring

structure JoinSys where
  kernel : Kernel
  retval : Tid → Word
  /-- `none` is NULL. -/
  retvalJoin : Tid → Option Word
  memory : Word → Word
  /-- How many threads have got this ID so far, the present one included. -/
  created : Tid → Nat

inductive JoinEvent
  | pthreadJoin (tid : Tid) (pthreadRetval : Option Word)
  | pthreadExit (retval : Word)
  | threadReturn (value : Word)
  /-- A thread writes to its memory. -/
  | store (address value : Word)
  | kernel (e : KernelEvent)

namespace Kernel

/-- The slot that `thread_create` zeroes. -/
def freeSlot (k : Kernel) (attr : ThreadAttr) (kernelThread : Bool) : Option Tid :=
  if attr.Bad kernelThread then none
  else (List.range threadMax).find? fun t => !k.bitmapThreads t

def zeroedSlot (k : Kernel) : KernelEvent → Option Tid
  | .call (.pthreadCreate attr _) =>
      let running := k.threads k.runningThread
      k.freeSlot (attr.getD { schedPriority := running.priority.val }) running.kernelThread
  | .call (.taskCreate priority kernelThread _) =>
      k.freeSlot { schedPriority := priority } kernelThread
  | _ => none

end Kernel

def KernelEvent.hasValue : KernelEvent → Bool
  | .call (.pthreadJoin _) | .call .pthreadExit | .threadReturn => true
  | _ => false

def JoinEvent.kernelEvent : JoinEvent → Option KernelEvent
  | .pthreadJoin tid _ => some (.call (.pthreadJoin tid))
  | .pthreadExit _ => some (.call .pthreadExit)
  | .threadReturn _ => some .threadReturn
  | .store _ _ => none
  | .kernel e => some e

def JoinEvent.value : JoinEvent → Option Word
  | .pthreadExit value | .threadReturn value => some value
  | _ => none

namespace JoinSys

def sysPthreadJoin (s : JoinSys) (tid : Tid) (pthreadRetval : Option Word) :
    Option (JoinSys × Except Errno Unit) := do
  let (k, r) ← s.kernel.sysPthreadJoin tid
  let retvalJoin := match r with
    | .ok () => Function.update s.retvalJoin s.kernel.runningThread pthreadRetval
    | .error _ => s.retvalJoin
  some ({ s with kernel := k, retvalJoin }, r)

def releaseJoiner (s : JoinSys) (thread : Tid) : JoinSys :=
  let memory := match s.retvalJoin thread with
    | some address => Function.update s.memory address (s.retval s.kernel.runningThread)
    | none => s.memory
  { s with memory, kernel := s.kernel.finishWait thread }

def releaseJoiners (s : JoinSys) : Option JoinSys :=
  let head : ListNode := .inl (.join s.kernel.runningThread)
  let first := next s.kernel.links head
  listForEachSafe (fun s => s.kernel.links) head
    (fun s pos => (Kernel.listEntry pos).map s.releaseJoiner) Kernel.loopBound s
    first (next s.kernel.links first)

def threadJoinHandler (s : JoinSys) : Option JoinSys := do
  let s ← s.releaseJoiners
  let task ← s.kernel.currentTaskInfo
  let k ← (s.kernel.dropEmptyTask task).leaveTask s.kernel.runningThread
  some { s with kernel := k.terminate k.runningThread }

def sysPthreadExit (s : JoinSys) (retval : Word) : Option JoinSys :=
  { s with
    retval := Function.update s.retval s.kernel.runningThread retval }.threadJoinHandler

def threadReturnEventHandler (s : JoinSys) (value : Word) : Option JoinSys := do
  let task ← s.kernel.currentTaskInfo
  if s.kernel.runningThread = s.kernel.mainThread task then
    s.kernel.sysExit.map fun k => { s with kernel := k }
  else s.sysPthreadExit value

/-- A step of the kernel that concerns no join. New threads start with zeroed fields. -/
def runKernel (s : JoinSys) (e : KernelEvent) (k : Kernel) : JoinSys where
  kernel := k
  retval t := if s.kernel.zeroedSlot e = some t then 0#32 else s.retval t
  retvalJoin t := if s.kernel.zeroedSlot e = some t then none else s.retvalJoin t
  memory := s.memory
  created t := if !s.kernel.bitmapThreads t && k.bitmapThreads t then s.created t + 1
    else s.created t

def step (s : JoinSys) : JoinEvent → Option JoinSys
  | .pthreadJoin tid pthreadRetval =>
      if s.kernel.InCall then (s.sysPthreadJoin tid pthreadRetval).map Prod.fst else none
  | .pthreadExit retval => if s.kernel.InCall then s.sysPthreadExit retval else none
  | .threadReturn value =>
      if s.kernel.Executing then s.threadReturnEventHandler value else none
  | .store address value => some { s with memory := Function.update s.memory address value }
  | .kernel e => if e.hasValue then none else (s.kernel.step e).map (s.runKernel e)

/-- The lists stay well formed and `tasklet_schedule` wakes its daemon. -/
def EventOk (s : JoinSys) (e : JoinEvent) : Prop :=
  ∀ k ∈ e.kernelEvent, s.kernel.EventOk k ∧ s.kernel.TaskletOk k

instance decidableEventOk (s : JoinSys) (e : JoinEvent) : Decidable (s.EventOk e) :=
  inferInstanceAs (Decidable (∀ k ∈ _, _ ∧ _))

/-- The kernel threads that `sched_start` creates, and memory with anything in it. -/
def start (memory : Word → Word) : JoinSys where
  kernel := Kernel.schedStart
  retval _ := 0#32
  retvalJoin _ := none
  memory := memory
  created t := if Kernel.schedStart.bitmapThreads t then 1 else 0

variable {s s' : JoinSys} {e : JoinEvent} {k k' : Kernel}

theorem kernel_releaseJoiners (s : JoinSys) : s.releaseJoiners.map JoinSys.kernel =
    s.kernel.forEachSafe (.join s.kernel.runningThread) Kernel.finishWait := by
  rw [releaseJoiners, Kernel.forEachSafe]
  refine listForEachSafe_map JoinSys.kernel (fun _ => rfl) (fun t pos => ?_) _ _ _ _
  cases pos with
  | inl h => rfl
  | inr u => rfl

theorem kernel_threadJoinHandler (h : s.threadJoinHandler = some s') :
    s.kernel.threadJoinHandler = some s'.kernel := by
  simp only [threadJoinHandler, Option.bind_eq_bind, Option.bind_eq_some_iff,
    Option.some.injEq] at h
  obtain ⟨s₁, hs₁, task, htask, k, hk, rfl⟩ := h
  have hloop := s.kernel_releaseJoiners
  rw [hs₁, Option.map_some] at hloop
  simp only [Kernel.threadJoinHandler, ← hloop, Option.bind_eq_bind, Option.bind_some, htask, hk]

theorem kernel_sysPthreadExit {value : Word} (h : s.sysPthreadExit value = some s') :
    s.kernel.threadJoinHandler = some s'.kernel := by
  have hkernel := kernel_threadJoinHandler h
  exact hkernel

theorem kernel_sysPthreadJoin {tid : Tid} {p : Option Word} {r : JoinSys × Except Errno Unit}
    (h : s.sysPthreadJoin tid p = some r) :
    s.kernel.sysPthreadJoin tid = some (r.1.kernel, r.2) := by
  obtain ⟨⟨k, r⟩, hr, h⟩ := Option.bind_eq_some_iff.mp h
  obtain rfl := Option.some.inj h
  exact hr

theorem kernel_step (h : s.step e = some s') :
    (e.kernelEvent = none ∧ s'.kernel = s.kernel) ∨
      ∃ k, e.kernelEvent = some k ∧ s.kernel.step k = some s'.kernel := by
  cases e with
  | pthreadJoin tid p =>
      obtain ⟨hcall, h⟩ := Option.ite_none_right_eq_some.mp h
      obtain ⟨r, hr, rfl⟩ := Option.map_eq_some_iff.mp h
      refine Or.inr ⟨_, rfl, (if_pos hcall).trans ?_⟩
      rw [Kernel.runCall, kernel_sysPthreadJoin hr]
      rfl
  | pthreadExit value =>
      obtain ⟨hcall, h⟩ := Option.ite_none_right_eq_some.mp h
      exact Or.inr ⟨_, rfl, (if_pos hcall).trans (kernel_sysPthreadExit h)⟩
  | threadReturn value =>
      obtain ⟨hexec, h⟩ := Option.ite_none_right_eq_some.mp h
      obtain ⟨task, htask, h⟩ := Option.bind_eq_some_iff.mp h
      refine Or.inr ⟨_, rfl, ?_⟩
      rw [Kernel.step, if_pos hexec, Kernel.threadReturnEventHandler, htask, Option.bind_eq_bind,
        Option.bind_some]
      split at h
      · next hmain =>
          obtain ⟨k, hk, rfl⟩ := Option.map_eq_some_iff.mp h
          rwa [if_pos hmain]
      · next hmain =>
          rw [if_neg hmain]
          exact kernel_sysPthreadExit h
  | store address value =>
      obtain rfl := Option.some.inj h
      exact Or.inl ⟨rfl, rfl⟩
  | kernel e =>
      simp only [step, Option.ite_none_left_eq_some, Option.map_eq_some_iff] at h
      obtain ⟨-, k, hk, rfl⟩ := h
      exact Or.inr ⟨e, rfl, hk⟩

end JoinSys

end Tenok
