import Tenok.Kernel.Thread
import Tenok.Lib.Runs

/-!
`pthread_once` and the stack pointers of its callers. The first caller stages the routine by
writing `stack_top` inside of its system call. The kernel loop writes it too, with what
`jump_to_thread` returns, and so does the event at the end of the system call. Signals, which use
the preserved stack pointer as well, are left out.
-/
namespace Tenok

/-- Where a thread goes on when it is jumped to. A function that is under way is not its start. -/
inductive OnceFrame
  /-- The thread's own code, behind as many calls of `pthread_once`. -/
  | user (calls : Nat)
  | sysPthreadOnce
  | syscallReturnHandler
  | initRoutine
  | inInitRoutine
  | threadOnceReturnHandler
  deriving DecidableEq, Repr

structure OnceThread where
  stackTop : Nat
  stackTopPreserved : Nat
  syscallStackTop : Nat
  syscallMode : Bool
  status : ThreadStatus
  /-- What is on the stack at an address. -/
  frames : Nat → OnceFrame
  /-- The calls of `pthread_once` that have returned. -/
  returned : Nat

namespace OnceThread

/-- `__stack_init` takes 18 words of the stack. -/
def frameSize : Nat := 72

def stackInit (t : OnceThread) (func : OnceFrame) : OnceThread :=
  { t with
    stackTop := t.stackTop - frameSize
    frames := Function.update t.frames (t.stackTop - frameSize) func }

def stageTemporaryHandler (t : OnceThread) (func : OnceFrame) : OnceThread :=
  { t with stackTopPreserved := t.stackTop }.stackInit func

def setupSyscall (t : OnceThread) (func : OnceFrame) : OnceThread :=
  { { t with syscallStackTop := t.stackTop }.stackInit func with syscallMode := true }

def syscallReturnEventHandler (t : OnceThread) : OnceThread :=
  { t with stackTop := t.syscallStackTop, syscallMode := false }

/-- `pthread_once_event_handler` restores the stack. -/
def restoreStack (t : OnceThread) : OnceThread :=
  { t with stackTop := t.stackTopPreserved, stackTopPreserved := 0 }

def yield (t : OnceThread) : OnceThread :=
  if t.status = .running then { t with status := .ready } else t

/-- The thread is interrupted, and `jump_to_thread` returns where it has saved it. -/
def save (t : OnceThread) (sp : Nat) (pc : OnceFrame) : OnceThread :=
  { t with stackTop := sp, frames := Function.update t.frames sp pc }

end OnceThread

/-- `struct thread_once`. The list head is not initialized at first. -/
structure ThreadOnce where
  waitList : Option (List Tid)
  finished : Bool

/-- All threads and the control that they share. -/
structure OnceSys where
  runningThread : Tid
  /-- What the running thread is executing. -/
  pc : OnceFrame
  threads : Tid → OnceThread
  control : ThreadOnce
  /-- The thread that has staged the routine. -/
  first : Option Tid
  initRuns : Nat
  initDone : Bool

/-- The requests with which a thread enters the kernel. -/
inductive OnceTrap
  | pthreadOnce
  | syscallReturn
  | threadOnce
  deriving DecidableEq, Repr

inductive OnceEvent
  /-- The running thread comes to the end of what it is executing. -/
  | run
  /-- It enters the kernel, is interrupted if it has no request, and `__schedule` picks a thread if
  it is called. -/
  | enter (sp : Nat) (request : Option OnceTrap) (next : Option Tid)
  deriving DecidableEq, Repr

namespace OnceSys

def setThread (s : OnceSys) (t : Tid) (f : OnceThread → OnceThread) : OnceSys :=
  { s with threads := Function.update s.threads t (f (s.threads t)) }

def sysPthreadOnce (s : OnceSys) : OnceSys :=
  if s.control.finished then s
  else
    match s.control.waitList with
    | none =>
        { s.setThread s.runningThread (·.stageTemporaryHandler .initRoutine) with
          control := { s.control with waitList := some [] }
          first := some s.runningThread }
    | some l =>
        { s.setThread s.runningThread fun t => { t with status := .wait } with
          control := { s.control with waitList := some (l ++ [s.runningThread]) } }

def pthreadOnceEventHandler (s : OnceSys) : OnceSys :=
  let s := s.setThread s.runningThread (·.restoreStack)
  let l := s.control.waitList.getD []
  { s with
    control := ⟨some [], true⟩
    threads := fun t => if t ∈ l then { s.threads t with status := .ready } else s.threads t }

/-- `syscall_handler`. A request comes from the code that makes it. -/
def syscallHandler (s : OnceSys) : OnceTrap → Option OnceSys
  | .pthreadOnce =>
      match s.pc with
      | .user n =>
          if (s.threads s.runningThread).syscallMode then some s
          else if OnceThread.frameSize ≤ (s.threads s.runningThread).stackTop then
            some (s.setThread s.runningThread fun t =>
              (t.save t.stackTop (.user (n + 1))).setupSyscall .sysPthreadOnce)
          else none
      | _ => none
  | .syscallReturn =>
      if s.pc = .syscallReturnHandler then
        some (s.setThread s.runningThread (·.syscallReturnEventHandler))
      else none
  | .threadOnce =>
      if s.pc = .threadOnceReturnHandler then some s.pthreadOnceEventHandler else none

/-- `__schedule`. A thread that was running can be picked again. -/
def schedule (s : OnceSys) (next : Tid) : Option OnceSys :=
  let s := s.setThread s.runningThread (·.yield)
  if (s.threads next).status = .ready then
    some { s.setThread next fun t => { t with status := .running } with runningThread := next }
  else none

/-- What the kernel loop does if a request is made. -/
def serve (s : OnceSys) : Option OnceTrap → Option OnceSys
  | none => some s
  | some trap => s.syscallHandler trap

def reschedule (s : OnceSys) : Option Tid → Option OnceSys
  | none => some s
  | some next => s.schedule next

def jumpToThread (s : OnceSys) : OnceSys :=
  let t := s.threads s.runningThread
  match t.frames t.stackTop with
  | .initRoutine => { s with pc := .inInitRoutine, initRuns := s.initRuns + 1 }
  | .user n => { s.setThread s.runningThread fun t => { t with returned := n } with pc := .user n }
  | f => { s with pc := f }

/-- Inside of a system call the stack is below where the call was made. -/
def SpOk (s : OnceSys) (sp : Nat) : Prop :=
  s.pc = .sysPthreadOnce ∨ s.pc = .syscallReturnHandler →
    sp < (s.threads s.runningThread).syscallStackTop

instance decidableSpOk (s : OnceSys) (sp : Nat) : Decidable (s.SpOk sp) :=
  inferInstanceAs (Decidable (_ ∨ _ → _))

/-- Both return handlers make the kernel reschedule: the status of a running thread is not
`THREAD_READY`. -/
def Reschedules (request : Option OnceTrap) (next : Option Tid) : Prop :=
  request = some .syscallReturn ∨ request = some .threadOnce → next ≠ none

instance decidableReschedules (request : Option OnceTrap) (next : Option Tid) :
    Decidable (Reschedules request next) :=
  inferInstanceAs (Decidable (_ ∨ _ → _))

def step (s : OnceSys) : OnceEvent → Option OnceSys
  | .run =>
      match s.pc with
      | .sysPthreadOnce => some { s.sysPthreadOnce with pc := .syscallReturnHandler }
      | .inInitRoutine => some { s with pc := .threadOnceReturnHandler, initDone := true }
      | _ => none
  | .enter sp request next =>
      if s.SpOk sp ∧ Reschedules request next then do
        let s ← (s.setThread s.runningThread (·.save sp s.pc)).serve request
        let s ← s.reschedule next
        some s.jumpToThread
      else none

/-- Nobody has called `pthread_once`, and the control is zero. -/
structure Fresh (s : OnceSys) : Prop where
  pc : s.pc = .user 0
  statuses : ∀ t, (s.threads t).status = if t = s.runningThread then .running else .ready
  threads : ∀ t, (s.threads t).frames (s.threads t).stackTop = .user 0 ∧
    (s.threads t).syscallMode = false ∧ (s.threads t).returned = 0
  control : s.control = ⟨none, false⟩
  first : s.first = none
  initRuns : s.initRuns = 0
  initDone : s.initDone = false

/-- When a call has returned, the routine was executed, once and to its end. -/
structure OnceOk (s : OnceSys) : Prop where
  once : ∀ t, 0 < (s.threads t).returned → s.initRuns = 1
  completed : ∀ t, 0 < (s.threads t).returned → s.initDone = true

/-- The stack of a thread in a system call, to the end of which it returns. -/
structure InCall (t : OnceThread) : Prop where
  syscallMode : t.syscallMode = true
  below : t.stackTop < t.syscallStackTop
  caller : ∃ n, t.frames t.syscallStackTop = .user (n + 1)

/-- What a frame says about the thread that goes on with it. All but the first caller wait from
their call on. -/
def FrameOk (first : Option Tid) (u : Tid) (t : OnceThread) : OnceFrame → Prop
  | .user n => t.syscallMode = false ∧ (first ≠ some u → n = 0 ∨ t.status = .wait) ∧
      (first = some u → 0 < n)
  | .sysPthreadOnce => InCall t ∧ t.status ≠ .wait ∧ (first = some u → 0 < t.returned)
  | .syscallReturnHandler => InCall t ∧ first ≠ none ∧ (first ≠ some u → t.status = .wait)
  | _ => False

/-- And about the calls that have returned. -/
structure ThreadOk (first : Option Tid) (u : Tid) (t : OnceThread) (pc : OnceFrame) : Prop where
  frame : FrameOk first u t pc
  others : first ≠ some u → t.returned = 0
  awake : first = some u → t.returned = 0 → t.status ≠ .wait

/-- No one executes the routine or has done so. -/
structure Unserved (s : OnceSys) : Prop where
  finished : s.control.finished = false
  initRuns : s.initRuns = 0
  initDone : s.initDone = false
  waitList : s.control.waitList = none ↔ s.first = none
  statuses : ∀ u, (s.threads u).status = .wait ∨
    (s.threads u).status = if u = s.runningThread then .running else .ready

/-- All threads are on their stacks. -/
structure Saved (s : OnceSys) : Prop extends Unserved s where
  threads : ∀ u, ThreadOk s.first u (s.threads u) ((s.threads u).frames (s.threads u).stackTop)

structure OnceInv (s : OnceSys) : Prop extends Unserved s where
  others : ∀ u ≠ s.runningThread,
    ThreadOk s.first u (s.threads u) ((s.threads u).frames (s.threads u).stackTop)
  running : ThreadOk s.first s.runningThread (s.threads s.runningThread) s.pc
  back : ∀ n, s.pc = .user n → (s.threads s.runningThread).status ≠ .wait ∧
    (s.threads s.runningThread).returned = n

variable {s s' : OnceSys} {t u next : Tid} {sp n : Nat} {request : Option OnceTrap}
  {thread : OnceThread} {first : Option Tid} {pc : OnceFrame}

theorem Fresh.inv (h : Fresh s) : OnceInv s where
  finished := by rw [h.control]
  initRuns := h.initRuns
  initDone := h.initDone
  waitList := by simp [h.control, h.first]
  statuses u := Or.inr (h.statuses u)
  others u _ := by
    obtain ⟨hframe, hmode, hreturned⟩ := h.threads u
    rw [hframe, h.first]
    exact ⟨⟨hmode, fun _ => Or.inl rfl, fun heq => by cases heq⟩, fun _ => hreturned,
      fun heq => by cases heq⟩
  running := by
    obtain ⟨-, hmode, hreturned⟩ := h.threads s.runningThread
    rw [h.pc, h.first]
    exact ⟨⟨hmode, fun _ => Or.inl rfl, fun heq => by cases heq⟩, fun _ => hreturned,
      fun heq => by cases heq⟩
  back n hpc := by
    obtain ⟨-, -, hreturned⟩ := h.threads s.runningThread
    rw [h.pc] at hpc
    cases hpc
    refine ⟨?_, hreturned⟩
    rw [h.statuses, if_pos rfl]
    decide

theorem ThreadOk.setStatus {status : ThreadStatus} (h : ThreadOk first u thread pc)
    (hold : thread.status ≠ .wait) (hnew : status ≠ .wait) :
    ThreadOk first u { thread with status } pc := by
  refine ⟨?_, h.others, fun _ _ => hnew⟩
  have hframe := h.frame
  cases pc with
  | user n =>
      obtain ⟨hmode, hothers, hfirst⟩ := hframe
      exact ⟨hmode, fun hne => Or.inl ((hothers hne).resolve_right hold), hfirst⟩
  | sysPthreadOnce =>
      obtain ⟨⟨hmode, hbelow, hcaller⟩, -, hfirst⟩ := hframe
      exact ⟨⟨hmode, hbelow, hcaller⟩, hnew, hfirst⟩
  | syscallReturnHandler =>
      obtain ⟨⟨hmode, hbelow, hcaller⟩, hsome, hothers⟩ := hframe
      exact ⟨⟨hmode, hbelow, hcaller⟩, hsome, fun hne => absurd (hothers hne) hold⟩
  | initRoutine | inInitRoutine | threadOnceReturnHandler => exact hframe

theorem OnceInv.save (h : OnceInv s) (hsp : s.SpOk sp) :
    Saved (s.setThread s.runningThread (·.save sp s.pc)) where
  finished := h.finished
  initRuns := h.initRuns
  initDone := h.initDone
  waitList := h.waitList
  statuses u := by
    by_cases hu : u = s.runningThread
    · subst hu
      simpa [setThread, OnceThread.save] using h.statuses s.runningThread
    · simpa [setThread, hu] using h.statuses u
  threads u := by
    by_cases hu : u = s.runningThread
    · subst hu
      obtain ⟨hframe, hothers, hawake⟩ := h.running
      simp only [setThread, Function.update_self, OnceThread.save]
      refine ⟨?_, hothers, hawake⟩
      have hcall : s.pc = .sysPthreadOnce ∨ s.pc = .syscallReturnHandler →
          InCall (s.threads s.runningThread) →
          InCall ((s.threads s.runningThread).save sp s.pc) := by
        intro hpc hin
        obtain ⟨n, hcaller⟩ := hin.caller
        refine ⟨hin.syscallMode, hsp hpc, n, ?_⟩
        exact (Function.update_of_ne (Nat.ne_of_gt (hsp hpc)) ..).trans hcaller
      revert hframe hcall
      cases s.pc with
      | user n => exact fun hframe _ => hframe
      | sysPthreadOnce => exact fun hframe hcall => ⟨hcall (Or.inl rfl) hframe.1, hframe.2⟩
      | syscallReturnHandler => exact fun hframe hcall => ⟨hcall (Or.inr rfl) hframe.1, hframe.2⟩
      | initRoutine | inInitRoutine | threadOnceReturnHandler => exact fun hframe _ => hframe
    · simpa [setThread, hu] using h.others u hu

theorem OnceInv.pthreadOnce (h : OnceInv s) (hsp : s.SpOk sp)
    (hserve : (s.setThread s.runningThread (·.save sp s.pc)).syscallHandler .pthreadOnce = some s') :
    Saved s' ∧ s'.runningThread = s.runningThread ∧ s'.first = s.first ∧
      (s'.threads s'.runningThread).frames (s'.threads s'.runningThread).stackTop =
        .sysPthreadOnce := by
  have hsaved := h.save hsp
  have hself := hsaved.threads s.runningThread
  simp only [syscallHandler] at hserve
  split at hserve
  · next n hpc =>
      have hpc' : s.pc = .user n := hpc
      obtain ⟨hawake, hreturned⟩ := h.back n hpc'
      have hrunning := h.running
      rw [hpc'] at hrunning
      obtain ⟨⟨hmode, -, hfirst⟩, hothers, -⟩ := hrunning
      split at hserve
      · next hin => simp [setThread, OnceThread.save, hmode] at hin
      obtain ⟨hroom, hs'⟩ := Option.ite_none_right_eq_some.mp hserve
      have hroom' : OnceThread.frameSize ≤ sp := by
        simpa [setThread, OnceThread.save] using hroom
      have hsize : OnceThread.frameSize = 72 := rfl
      obtain rfl := Option.some.inj hs'
      refine ⟨⟨⟨hsaved.finished, hsaved.initRuns, hsaved.initDone, hsaved.waitList, fun u => ?_⟩,
        fun u => ?_⟩, rfl, rfl, ?_⟩
      · by_cases hu : u = s.runningThread
        · subst hu
          simpa [setThread, OnceThread.save, OnceThread.setupSyscall, OnceThread.stackInit] using
            h.statuses s.runningThread
        · simpa [setThread, hu] using h.statuses u
      · by_cases hu : u = s.runningThread
        · subst hu
          simp only [setThread, Function.update_self, OnceThread.save, OnceThread.setupSyscall,
            OnceThread.stackInit]
          refine ⟨⟨⟨rfl, ?_, n, ?_⟩, hawake, fun heq => ?_⟩, hothers, fun _ _ => hawake⟩
          · show sp - OnceThread.frameSize < sp
            omega
          · show Function.update _ _ _ sp = _
            rw [Function.update_of_ne (by omega), Function.update_self]
          · show 0 < (s.threads s.runningThread).returned
            rw [hreturned]
            exact hfirst heq
        · simpa [setThread, hu] using h.others u hu
      · simp [setThread, OnceThread.save, OnceThread.setupSyscall, OnceThread.stackInit]
  · cases hserve

/-- The end of a system call takes the stack pointer from before it, whatever was staged. -/
theorem OnceInv.syscallReturn (h : OnceInv s) (hsp : s.SpOk sp)
    (hserve : (s.setThread s.runningThread (·.save sp s.pc)).syscallHandler .syscallReturn =
      some s') :
    Saved s' ∧ s'.runningThread = s.runningThread ∧ s'.first = s.first := by
  have hsaved := h.save hsp
  obtain ⟨hpc, hs'⟩ := Option.ite_none_right_eq_some.mp hserve
  have hpc' : s.pc = .syscallReturnHandler := hpc
  have hrunning := h.running
  rw [hpc'] at hrunning
  obtain ⟨⟨hcall, -, hwait⟩, hothers, hawake⟩ := hrunning
  obtain ⟨n, hcaller⟩ := hcall.caller
  obtain rfl := Option.some.inj hs'
  refine ⟨⟨⟨hsaved.finished, hsaved.initRuns, hsaved.initDone, hsaved.waitList, fun u => ?_⟩,
    fun u => ?_⟩, rfl, rfl⟩
  · by_cases hu : u = s.runningThread
    · subst hu
      simpa [setThread, OnceThread.save, OnceThread.syscallReturnEventHandler] using
        h.statuses s.runningThread
    · simpa [setThread, hu] using h.statuses u
  · by_cases hu : u = s.runningThread
    · subst hu
      simp only [setThread, Function.update_self, OnceThread.save,
        OnceThread.syscallReturnEventHandler]
      rw [Function.update_of_ne (Nat.ne_of_gt (hsp (Or.inr hpc'))), hcaller]
      exact ⟨⟨rfl, fun hne => Or.inr (hwait hne), fun _ => Nat.succ_pos n⟩, hothers, hawake⟩
    · simpa [setThread, hu] using h.others u hu

theorem OnceInv.not_threadOnce (h : OnceInv s) :
    (s.setThread s.runningThread (·.save sp s.pc)).syscallHandler .threadOnce = none := by
  refine if_neg fun hpc => ?_
  have hpc' : s.pc = .threadOnceReturnHandler := hpc
  have hrunning := h.running.frame
  rw [hpc'] at hrunning
  exact hrunning

theorem ThreadOk.yield (h : ThreadOk first u thread pc) : ThreadOk first u thread.yield pc := by
  rw [OnceThread.yield]
  split
  · next hrunning => exact h.setStatus (by rw [hrunning]; decide) (by decide)
  · exact h

theorem yield_stack : thread.yield.frames thread.yield.stackTop = thread.frames thread.stackTop := by
  rw [OnceThread.yield]
  split <;> rfl

theorem Saved.yield (h : Saved s) (u : Tid) :
    ThreadOk s.first u ((s.setThread s.runningThread (·.yield)).threads u)
      (((s.setThread s.runningThread (·.yield)).threads u).frames
        ((s.setThread s.runningThread (·.yield)).threads u).stackTop) ∧
    (((s.setThread s.runningThread (·.yield)).threads u).status = .wait ∨
      ((s.setThread s.runningThread (·.yield)).threads u).status = .ready) := by
  by_cases hu : u = s.runningThread
  · subst hu
    simp only [setThread, Function.update_self]
    refine ⟨?_, ?_⟩
    · rw [yield_stack]
      exact (h.threads _).yield
    · rw [OnceThread.yield]
      split
      · exact Or.inr rfl
      · next hnot =>
          have hstatus := h.statuses s.runningThread
          rw [if_pos rfl] at hstatus
          exact Or.inl (hstatus.resolve_right hnot)
  · simp only [setThread, Function.update_of_ne hu]
    have hstatus := h.statuses u
    rw [if_neg hu] at hstatus
    exact ⟨h.threads u, hstatus⟩

theorem Saved.schedule (h : Saved s) (hsched : s.schedule next = some s') :
    Saved s' ∧ s'.runningThread = next ∧ s'.first = s.first ∧
      (s'.threads next).status ≠ .wait := by
  obtain ⟨hready, hs'⟩ := Option.ite_none_right_eq_some.mp hsched
  obtain rfl := Option.some.inj hs'
  refine ⟨⟨⟨h.finished, h.initRuns, h.initDone, h.waitList, fun u => ?_⟩, fun u => ?_⟩, rfl, rfl, ?_⟩
  · by_cases hu : u = next
    · subst hu
      simp [setThread]
    · have hstatus := (h.yield u).2
      rw [setThread, if_neg hu]
      simpa only [Function.update_of_ne hu] using hstatus
  · by_cases hu : u = next
    · subst hu
      rw [setThread]
      simp only [Function.update_self]
      exact (h.yield u).1.setStatus (by rw [hready]; decide) (by decide)
    · rw [setThread]
      simp only [Function.update_of_ne hu]
      exact (h.yield u).1
  · simp [setThread]

theorem Saved.jumpToThread (h : Saved s) (hawake : ∀ n,
    (s.threads s.runningThread).frames (s.threads s.runningThread).stackTop = .user n →
      (s.threads s.runningThread).status ≠ .wait) :
    OnceInv s.jumpToThread ∧ s.jumpToThread.first = s.first ∧
      s.jumpToThread.runningThread = s.runningThread ∧
      s.jumpToThread.pc =
        (s.threads s.runningThread).frames (s.threads s.runningThread).stackTop := by
  have hself := h.threads s.runningThread
  rw [OnceSys.jumpToThread]
  cases hframe : (s.threads s.runningThread).frames (s.threads s.runningThread).stackTop with
  | user n =>
      have hrunning := hawake n hframe
      rw [hframe] at hself
      obtain ⟨⟨hmode, hothers, hfirst⟩, -, -⟩ := hself
      have hzero : s.first ≠ some s.runningThread → n = 0 := fun hne =>
        (hothers hne).resolve_right hrunning
      refine ⟨⟨⟨h.finished, h.initRuns, h.initDone, h.waitList, fun u => ?_⟩, fun u hu => ?_, ?_,
        fun m hm => ?_⟩, rfl, rfl, rfl⟩
      · by_cases hu : u = s.runningThread
        · subst hu
          simpa [setThread] using h.statuses s.runningThread
        · simpa [setThread, hu] using h.statuses u
      · have hne : u ≠ s.runningThread := hu
        simp only [setThread, Function.update_of_ne hne]
        exact h.threads u
      · simp only [setThread, Function.update_self]
        exact ⟨⟨hmode, fun hne => Or.inl (hzero hne), hfirst⟩, hzero, fun _ _ => hrunning⟩
      · obtain rfl := OnceFrame.user.inj hm
        refine ⟨?_, ?_⟩ <;> simp only [setThread, Function.update_self]
        exact hrunning
  | sysPthreadOnce | syscallReturnHandler =>
      rw [hframe] at hself
      exact ⟨⟨⟨h.finished, h.initRuns, h.initDone, h.waitList, h.statuses⟩, fun u _ => h.threads u,
        hself, fun m hm => by cases hm⟩, rfl, rfl, rfl⟩
  | initRoutine | inInitRoutine | threadOnceReturnHandler =>
      rw [hframe] at hself
      exact hself.frame.elim

/-- The system call stages the routine for the first caller and lets all others wait. -/
theorem OnceInv.sysPthreadOnce (h : OnceInv s) (hpc : s.pc = .sysPthreadOnce) :
    OnceInv { s.sysPthreadOnce with pc := .syscallReturnHandler } ∧
      ∀ t, s.first = some t → s.sysPthreadOnce.first = some t := by
  have hrunning := h.running
  rw [hpc] at hrunning
  obtain ⟨⟨⟨hmode, hbelow, n, hcaller⟩, hawake, hreturned⟩, hothers, -⟩ := hrunning
  rw [OnceSys.sysPthreadOnce, if_neg (by rw [h.finished]; decide)]
  cases hlist : s.control.waitList with
  | none =>
      have hnone := h.waitList.mp hlist
      have hsize : OnceThread.frameSize = 72 := rfl
      refine ⟨⟨⟨h.finished, h.initRuns, h.initDone, by simp, fun u => ?_⟩, fun u hu => ?_, ?_,
        fun m hm => by cases hm⟩, fun t ht => ?_⟩
      · by_cases hu : u = s.runningThread
        · subst hu
          simpa [setThread, OnceThread.stageTemporaryHandler, OnceThread.stackInit] using
            h.statuses s.runningThread
        · simpa [setThread, hu] using h.statuses u
      · have hne' : u ≠ s.runningThread := hu
        simp only [setThread, Function.update_of_ne hne']
        obtain ⟨hframe, hother, -⟩ := h.others u hu
        have hne : some s.runningThread ≠ some u := fun heq => hu (Option.some.inj heq).symm
        refine ⟨?_, fun _ => hother (by rw [hnone]; exact Option.some_ne_none u |>.symm),
          fun heq => absurd heq hne⟩
        rw [hnone] at hframe
        revert hframe
        cases (s.threads u).frames (s.threads u).stackTop with
        | user m => exact fun hframe => ⟨hframe.1, fun _ => hframe.2.1 (by simp),
            fun heq => absurd heq hne⟩
        | sysPthreadOnce => exact fun hframe => ⟨hframe.1, hframe.2.1, fun heq => absurd heq hne⟩
        | syscallReturnHandler => exact fun hframe => absurd rfl hframe.2.1
        | initRoutine | inInitRoutine | threadOnceReturnHandler => exact fun hframe => hframe
      · simp only [setThread, Function.update_self, OnceThread.stageTemporaryHandler,
          OnceThread.stackInit]
        refine ⟨⟨⟨hmode, ?_, n, ?_⟩, Option.some_ne_none _, fun hne => absurd rfl hne⟩,
          fun hne => absurd rfl hne, fun _ _ => hawake⟩
        · show (s.threads s.runningThread).stackTop - OnceThread.frameSize <
            (s.threads s.runningThread).syscallStackTop
          omega
        · show Function.update _ _ _ (s.threads s.runningThread).syscallStackTop = _
          rw [Function.update_of_ne (by omega)]
          exact hcaller
      · rw [hnone] at ht
        cases ht
  | some l =>
      have hsome : s.first ≠ none := fun hnone => by
        rw [h.waitList.mpr hnone] at hlist
        cases hlist
      refine ⟨⟨⟨h.finished, h.initRuns, h.initDone, by simpa [setThread] using hsome,
        fun u => ?_⟩, fun u hu => ?_, ?_, fun m hm => by cases hm⟩, fun t ht => ht⟩
      · by_cases hu : u = s.runningThread
        · subst hu
          simp [setThread]
        · simpa [setThread, hu] using h.statuses u
      · have hne : u ≠ s.runningThread := hu
        simp only [setThread, Function.update_of_ne hne]
        exact h.others u hu
      · simp only [setThread, Function.update_self]
        exact ⟨⟨⟨hmode, hbelow, n, hcaller⟩, hsome, fun _ => rfl⟩, hothers,
          fun heq hzero => absurd hzero (Nat.ne_of_gt (hreturned heq))⟩

theorem OnceInv.step {e : OnceEvent} (h : OnceInv s) (hstep : s.step e = some s') :
    OnceInv s' ∧ ∀ t, s.first = some t → s'.first = some t := by
  cases e with
  | run =>
      rw [OnceSys.step] at hstep
      split at hstep
      · next hpc =>
          obtain rfl := Option.some.inj hstep
          exact h.sysPthreadOnce hpc
      · next hpc =>
          have hrunning := h.running.frame
          rw [hpc] at hrunning
          exact hrunning.elim
      · cases hstep
  | enter sp request next =>
      obtain ⟨⟨hsp, hresched⟩, hcall⟩ := Option.ite_none_right_eq_some.mp hstep
      obtain ⟨s₁, hserve, hcall⟩ := Option.bind_eq_some_iff.mp hcall
      obtain ⟨s₂, hsched, hjump⟩ := Option.bind_eq_some_iff.mp hcall
      obtain rfl := Option.some.inj hjump
      -- after the request all threads are saved, and a thread that goes on does not wait
      obtain ⟨hsaved, hfirst, hawake⟩ : Saved s₁ ∧ s₁.first = s.first ∧ (next = none → ∀ n,
          (s₁.threads s₁.runningThread).frames (s₁.threads s₁.runningThread).stackTop = .user n →
            (s₁.threads s₁.runningThread).status ≠ .wait) := by
        cases request with
        | none =>
            obtain rfl := Option.some.inj hserve
            refine ⟨h.save hsp, rfl, fun _ n hframe => ?_⟩
            simp only [setThread, Function.update_self, OnceThread.save] at hframe ⊢
            exact (h.back n hframe).1
        | some trap =>
            cases trap with
            | pthreadOnce =>
                obtain ⟨hsaved, -, hfirst, hcall⟩ := h.pthreadOnce hsp hserve
                refine ⟨hsaved, hfirst, fun _ n hframe => ?_⟩
                rw [hcall] at hframe
                cases hframe
            | syscallReturn =>
                obtain ⟨hsaved, -, hfirst⟩ := h.syscallReturn hsp hserve
                exact ⟨hsaved, hfirst, fun hnone => absurd hnone (hresched (Or.inl rfl))⟩
            | threadOnce =>
                rw [serve, h.not_threadOnce] at hserve
                cases hserve
      cases next with
      | none =>
          obtain rfl := Option.some.inj hsched
          obtain ⟨hinv, hfirst', -⟩ := hsaved.jumpToThread (hawake rfl)
          exact ⟨hinv, fun t ht => by rw [hfirst', hfirst, ht]⟩
      | some next =>
          obtain ⟨hsaved', rfl, hfirst₂, hstatus⟩ := hsaved.schedule hsched
          obtain ⟨hinv, hfirst', -⟩ := hsaved'.jumpToThread fun _ _ => hstatus
          exact ⟨hinv, fun t ht => by rw [hfirst', hfirst₂, hfirst, ht]⟩

theorem OnceInv.switchTo (h : OnceInv s) (hne : t ≠ s.runningThread)
    (hawake : (s.threads t).status ≠ .wait) :
    ∃ e s', s.step e = some s' ∧ s'.runningThread = t := by
  have hsp : s.SpOk (s.threads s.runningThread).stackTop := fun hpc => by
    have hframe := h.running.frame
    obtain hpc | hpc := hpc <;> rw [hpc] at hframe <;> exact hframe.1.below
  have hready : (s.threads t).status = .ready := by
    have hstatus := h.statuses t
    rw [if_neg hne] at hstatus
    exact hstatus.resolve_left hawake
  -- the running thread is interrupted where its stack already ends
  obtain ⟨s', hsched⟩ : ∃ s', (s.setThread s.runningThread
      (·.save (s.threads s.runningThread).stackTop s.pc)).schedule t = some s' := by
    refine ⟨_, if_pos ?_⟩
    simp only [setThread, Function.update_of_ne hne, hready]
  obtain ⟨hsaved, hrunning, -, hstatus⟩ := (h.save hsp).schedule hsched
  obtain ⟨-, -, hsame, -⟩ := hsaved.jumpToThread fun _ _ => by rwa [hrunning]
  refine ⟨.enter (s.threads s.runningThread).stackTop none (some t), s'.jumpToThread, ?_,
    hsame.trans hrunning⟩
  have hresched : Reschedules none (some t) := fun _ => Option.some_ne_none t
  rw [OnceSys.step, if_pos ⟨hsp, hresched⟩, serve]
  show (OnceSys.schedule _ t).bind _ = _
  rw [hsched]
  rfl

theorem schedule_self (h : (s.threads s.runningThread).status = .running) :
    ∃ s', s.schedule s.runningThread = some s' ∧ s'.runningThread = s.runningThread ∧
      (s'.threads s'.runningThread).frames (s'.threads s'.runningThread).stackTop =
        (s.threads s.runningThread).frames (s.threads s.runningThread).stackTop := by
  have hready : (s.threads s.runningThread).yield.status = .ready := by
    rw [OnceThread.yield, if_pos h]
  refine ⟨_, if_pos ?_, rfl, ?_⟩
  · simp only [setThread, Function.update_self]
    exact hready
  · simp only [setThread, Function.update_self]
    exact yield_stack

theorem jumpToThread_user
    (h : (s.threads s.runningThread).frames (s.threads s.runningThread).stackTop = .user n) :
    s.jumpToThread.runningThread = s.runningThread ∧
      (s.jumpToThread.threads s.runningThread).returned = n := by
  simp [OnceSys.jumpToThread, h, setThread]

theorem OnceInv.firstReturns (h : OnceInv s) (hfirst : s.first = some s.runningThread)
    (hzero : (s.threads s.runningThread).returned = 0) :
    ∃ e s', s.step e = some s' ∧ s'.runningThread = s.runningThread ∧
      0 < (s'.threads s.runningThread).returned := by
  obtain ⟨hframe, -, hawake⟩ := h.running
  cases hpc : s.pc with
  | user n =>
      rw [hpc] at hframe
      have hpos := hframe.2.2 hfirst
      rw [(h.back n hpc).2] at hzero
      omega
  | sysPthreadOnce =>
      rw [hpc] at hframe
      exact absurd hzero (Nat.ne_of_gt (hframe.2.2 hfirst))
  | syscallReturnHandler =>
      rw [hpc] at hframe
      have hsp : s.SpOk (s.threads s.runningThread).stackTop := fun _ => hframe.1.below
      obtain ⟨n, hcaller⟩ := hframe.1.caller
      have hrunning : (s.threads s.runningThread).status = .running := by
        have hstatus := h.statuses s.runningThread
        rw [if_pos rfl] at hstatus
        exact hstatus.resolve_left (hawake hfirst hzero)
      have hresched : Reschedules (some .syscallReturn) (some s.runningThread) :=
        fun _ => Option.some_ne_none s.runningThread
      -- the stack pointer is the one from before the call, and the call goes on from there
      obtain ⟨s₁, hserve, hsame, hstatus, hback⟩ : ∃ s₁,
          (s.setThread s.runningThread (·.save (s.threads s.runningThread).stackTop s.pc)).serve
            (some .syscallReturn) = some s₁ ∧
          s₁.runningThread = s.runningThread ∧
          (s₁.threads s₁.runningThread).status = .running ∧
          (s₁.threads s₁.runningThread).frames (s₁.threads s₁.runningThread).stackTop =
            .user (n + 1) := by
        refine ⟨_, if_pos hpc, rfl, ?_⟩
        simp only [setThread, Function.update_self, OnceThread.save,
          OnceThread.syscallReturnEventHandler]
        rw [Function.update_of_ne (Nat.ne_of_gt hframe.1.below)]
        exact ⟨hrunning, hcaller⟩
      obtain ⟨s₂, hsched, hsame', hback'⟩ := schedule_self hstatus
      rw [hback] at hback'
      refine ⟨.enter (s.threads s.runningThread).stackTop (some .syscallReturn)
        (some s.runningThread), s₂.jumpToThread, ?_, ?_⟩
      · rw [OnceSys.step, if_pos ⟨hsp, hresched⟩, hserve]
        rw [hsame] at hsched
        show (s₁.schedule s.runningThread).bind _ = _
        rw [hsched]
        rfl
      · obtain ⟨hjump, hreturned⟩ := jumpToThread_user hback'
        rw [hsame', hsame] at hjump hreturned
        rw [hreturned]
        exact ⟨hjump, Nat.succ_pos n⟩
  | initRoutine | inInitRoutine | threadOnceReturnHandler =>
      rw [hpc] at hframe
      exact hframe.elim

theorem OnceInv.exec {more : List OnceEvent} (h : OnceInv s) (hfirst : s.first = some t)
    (hrun : Runs.exec OnceSys.step s more = some s') : OnceInv s' ∧ s'.first = some t :=
  Runs.exec_keeps (I := fun s => OnceInv s ∧ s.first = some t)
    (fun _ _ _ hinv hstep => ⟨(hinv.1.step hstep).1, (hinv.1.step hstep).2 t hinv.2⟩)
    ⟨h, hfirst⟩ hrun

theorem OnceInv.firstCanReturn (h : OnceInv s) (hfirst : s.first = some t) :
    ∃ more s', Runs.exec OnceSys.step s more = some s' ∧ 0 < (s'.threads t).returned := by
  rcases Nat.eq_zero_or_pos (s.threads t).returned with hzero | hpos
  · by_cases hne : t = s.runningThread
    · subst hne
      obtain ⟨e, s', hstep, -, hpos⟩ := h.firstReturns hfirst hzero
      exact ⟨[e], s', by rw [Runs.exec, hstep]; rfl, hpos⟩
    · obtain ⟨e, s₁, hstep, rfl⟩ := h.switchTo hne ((h.others t hne).awake hfirst hzero)
      obtain ⟨h₁, hkeep⟩ := h.step hstep
      have hfirst₁ := hkeep _ hfirst
      rcases Nat.eq_zero_or_pos (s₁.threads s₁.runningThread).returned with hzero₁ | hpos₁
      · obtain ⟨e', s', hstep', -, hpos⟩ := h₁.firstReturns hfirst₁ hzero₁
        exact ⟨[e, e'], s', by simp [Runs.exec, hstep, hstep'], hpos⟩
      · exact ⟨[e], s₁, by rw [Runs.exec, hstep]; rfl, hpos₁⟩
  · exact ⟨[], s, rfl, hpos⟩

/-- Once a thread has staged the routine nobody executes it: what is staged is lost at the end of
the system call, so the first caller can return without it, and no other caller ever returns. -/
theorem not_onceOk {s₀ : OnceSys} {events : List OnceEvent} (hfresh : Fresh s₀)
    (hrun : Runs.exec OnceSys.step s₀ events = some s) (hfirst : s.first = some t) :
    (∃ more s', Runs.exec OnceSys.step s more = some s' ∧ 0 < (s'.threads t).returned ∧ ¬OnceOk s') ∧
      ∀ more s', Runs.exec OnceSys.step s more = some s' →
        s'.initRuns = 0 ∧ s'.initDone = false ∧ ∀ u ≠ t, (s'.threads u).returned = 0 := by
  have hinv : OnceInv s :=
    Runs.exec_keeps (fun _ _ _ h hstep => (h.step hstep).1) hfresh.inv hrun
  refine ⟨?_, fun more s' hmore => ?_⟩
  · obtain ⟨more, s', hmore, hpos⟩ := hinv.firstCanReturn hfirst
    refine ⟨more, s', hmore, hpos, fun hok => ?_⟩
    have hnever := (hinv.exec hfirst hmore).1.initRuns
    rw [hok.once t hpos] at hnever
    cases hnever
  · obtain ⟨hinv', hfirst'⟩ := hinv.exec hfirst hmore
    refine ⟨hinv'.initRuns, hinv'.initDone, fun u hu => ?_⟩
    have hne : s'.first ≠ some u := fun heq => hu (Option.some.inj (heq.symm.trans hfirst'))
    by_cases hrunning : u = s'.runningThread
    · rw [hrunning] at hne ⊢
      exact hinv'.running.others hne
    · exact (hinv'.others u hrunning).others hne

/-- All threads are in their own code, thread 0 is running. -/
def freshThreads : OnceSys where
  runningThread := 0
  pc := .user 0
  threads t := ⟨1000, 0, 0, false, if t = 0 then .running else .ready, fun _ => .user 0, 0⟩
  control := ⟨none, false⟩
  first := none
  initRuns := 0
  initDone := false

theorem freshThreads_fresh : Fresh freshThreads where
  pc := rfl
  statuses _ := rfl
  threads _ := ⟨rfl, rfl, rfl⟩
  control := rfl
  first := rfl
  initRuns := rfl
  initDone := rfl

def calls : List OnceEvent := [.enter 1000 (some .pthreadOnce) none, .run]

theorem calls_run : ∃ s, Runs.exec step freshThreads calls = some s ∧ s.first = some 0 := by
  have hread : (Runs.exec step freshThreads calls).map (·.first) = some (some 0) := by decide
  obtain ⟨s, hrun, hfirst⟩ := Option.map_eq_some_iff.mp hread
  exact ⟨s, hrun, hfirst⟩

theorem calls_not_onceOk : ∃ s, Runs.exec step freshThreads calls = some s ∧
    (∃ more s', Runs.exec OnceSys.step s more = some s' ∧ 0 < (s'.threads 0).returned ∧ ¬OnceOk s') ∧
      ∀ more s', Runs.exec OnceSys.step s more = some s' →
        s'.initRuns = 0 ∧ s'.initDone = false ∧ ∀ u ≠ 0, (s'.threads u).returned = 0 := by
  obtain ⟨s, hrun, hfirst⟩ := calls_run
  exact ⟨s, hrun, not_onceOk freshThreads_fresh hrun hfirst⟩

/-- The call is over at once, in a run without any other thread. -/
theorem returns_not_onceOk : ∃ s,
    Runs.exec step freshThreads (calls ++ [.enter 900 (some .syscallReturn) (some 0)]) = some s ∧
      (s.threads 0).returned = 1 ∧ s.initRuns = 0 ∧ ¬OnceOk s := by
  have hread : (Runs.exec step freshThreads
      (calls ++ [.enter 900 (some .syscallReturn) (some 0)])).map
        (fun s => ((s.threads 0).returned, s.initRuns)) = some (1, 0) := by decide
  obtain ⟨s, hrun, hs⟩ := Option.map_eq_some_iff.mp hread
  obtain ⟨hreturned, hnever⟩ := Prod.mk.inj hs
  refine ⟨s, hrun, hreturned, hnever, fun hok => ?_⟩
  have honce := hok.once 0 (by rw [hreturned]; decide)
  rw [hnever] at honce
  cases honce

end OnceSys

end Tenok
