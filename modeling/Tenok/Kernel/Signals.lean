import Tenok.Kernel.Kfifo
import Tenok.Kernel.Thread
import Tenok.Lib.LittleEndian
import Tenok.Lib.Mailbox
import Tenok.Lib.Runs

/-!
Pending signals. A signal with a handler is pushed into the queue of the thread, and the
scheduler stages the handler of the oldest one on the stack of the thread that it picks; a
preserved stack pointer says that a handler is staged already. `pthread_once`, which uses
the same pointer, is left out, and the memory of the queue is as large as it has to be.
-/
namespace Tenok

structure StagedHandlerInfo where
  func : Word
  args : Fin 4 → Word

def stagedHandlerInfoSize : Nat := 20

namespace StagedHandlerInfo

def word (info : StagedHandlerInfo) (i : Nat) : Word :=
  if i = 0 then info.func else info.args (Fin.ofNat 4 (i - 1))

def ptr (info : StagedHandlerInfo) : Nat → Byte := fun i =>
  (info.word (i / 4)).extractLsb' (8 * (i % 4)) 8

def ofPtr (ptr : Nat → Byte) : StagedHandlerInfo where
  func := LittleEndian.value 32 (bytesAt ptr 4)
  args i := LittleEndian.value 32 (bytesAt (ptrAdd ptr (4 * (i + 1))) 4)

theorem bytesAt_ptr (info : StagedHandlerInfo) (i : Nat) :
    bytesAt (ptrAdd info.ptr (4 * i)) 4 = LittleEndian.bytes 4 (info.word i) := by
  refine List.map_congr_left fun j hj => ?_
  have hlt := List.mem_range.mp hj
  have hdiv : (4 * i + j) / 4 = i := by omega
  have hmod : (4 * i + j) % 4 = j := by omega
  rw [ptrAdd, ptr, hdiv, hmod]

theorem ofPtr_copy {info : StagedHandlerInfo} {copy : Nat → Byte}
    (hcopy : bytesAt copy stagedHandlerInfoSize = bytesAt info.ptr stagedHandlerInfoSize) :
    ofPtr copy = info := by
  have hbyte : ∀ i < 20, copy i = info.ptr i := fun i hi =>
    List.map_inj_left.mp hcopy i (List.mem_range.mpr hi)
  have hword : ∀ i < 5, LittleEndian.value 32 (bytesAt (ptrAdd copy (4 * i)) 4) = info.word i := by
    intro i hi
    have hbytes : bytesAt (ptrAdd copy (4 * i)) 4 = bytesAt (ptrAdd info.ptr (4 * i)) 4 :=
      List.map_congr_left fun j hj => hbyte _ (by have := List.mem_range.mp hj; omega)
    rw [hbytes, bytesAt_ptr]
    exact LittleEndian.value_bytes (by decide) _
  cases info with
  | mk func args =>
      have hzero : ptrAdd copy 0 = copy := funext fun i => congrArg copy (Nat.zero_add i)
      have hfunc : LittleEndian.value 32 (bytesAt (ptrAdd copy 0) 4) = func :=
        hword 0 (by decide)
      have hargs : ∀ i : Fin 4, LittleEndian.value 32 (bytesAt (ptrAdd copy (4 * (i + 1))) 4) =
          args i := fun i => by
        have hi := hword (i + 1) (by omega)
        simpa [word] using hi
      rw [hzero] at hfunc
      simp only [ofPtr, mk.injEq]
      exact ⟨hfunc, funext hargs⟩

end StagedHandlerInfo

structure SignalThread where
  stackTop : Word
  stackTopPreserved : Word
  syscallStackTop : Word
  syscallMode : Bool
  signalQueue : Kfifo
  signalCnt : Nat
  /-- The handler on top of the stack, which returns to `signal_cleanup_handler`. -/
  handler : Option StagedHandlerInfo
  /-- The handlers staged so far. -/
  staged : List StagedHandlerInfo

namespace SignalThread

/-- `__stack_init` takes 18 words of the stack. -/
def stackFrameSize : Word := 72#32

def stageTemporaryHandler (t : SignalThread) (info : StagedHandlerInfo) : SignalThread :=
  { t with
    stackTopPreserved := t.stackTop
    stackTop := t.stackTop - stackFrameSize
    handler := some info
    staged := t.staged ++ [info] }

def enqueuePendingSignal (t : SignalThread) (info : StagedHandlerInfo) : SignalThread :=
  let signalQueue := t.signalQueue.kfifoIn info.ptr stagedHandlerInfoSize
  { t with signalQueue, signalCnt := signalQueue.kfifoLen }

def checkPendingSignals (t : SignalThread) : SignalThread :=
  if t.signalCnt = 0 ∨ t.stackTopPreserved ≠ 0#32 then t
  else
    let (signalQueue, info) := t.signalQueue.kfifoOut (fun _ => 0#8) 0 stagedHandlerInfoSize
    let t := { t with signalQueue }.stageTemporaryHandler (StagedHandlerInfo.ofPtr info)
    { t with signalCnt := signalQueue.kfifoLen }

def signalCleanupEventHandler (t : SignalThread) : SignalThread :=
  { t with stackTop := t.stackTopPreserved, stackTopPreserved := 0#32, handler := none }

/-- `syscall_handler` for a system call; one inside a system call is not served. -/
def setupSyscall (t : SignalThread) : SignalThread :=
  if t.syscallMode then t
  else { t with
    syscallStackTop := t.stackTop
    stackTop := t.stackTop - stackFrameSize
    syscallMode := true }

def syscallReturnEventHandler (t : SignalThread) : SignalThread :=
  { t with stackTop := t.syscallStackTop, syscallMode := false }

/-- A thread that `thread_create` has made, with its stack anywhere but at `NULL`. -/
structure Fresh (t : SignalThread) : Prop where
  stackTop : t.stackTop ≠ 0#32
  stackTopPreserved : t.stackTopPreserved = 0#32
  syscallMode : t.syscallMode = false
  signalQueue : ∃ data, t.signalQueue =
    Kfifo.kfifoInit data (kfifoHdrSize + stagedHandlerInfoSize) signalQueueSize
  signalCnt : t.signalCnt = 0
  handler : t.handler = none
  staged : t.staged = []

end SignalThread

/-- The request with which a thread enters the kernel. -/
inductive Trap
  | syscall
  | syscallReturn
  | signalCleanup

structure SignalSys where
  runningThread : Tid
  threads : Tid → SignalThread

inductive SignalEvent
  /-- `enqueue_pending_signal`, for a signal or a timer. -/
  | enqueue (t : Tid) (info : StagedHandlerInfo)
  /-- `jump_to_thread` returns, and the request of the thread is served if there is one. -/
  | trap (sp : Word) (request : Option Trap)
  /-- `__schedule` picks the thread. -/
  | schedule (t : Tid)

namespace SignalSys

def setThread (s : SignalSys) (t : Tid) (f : SignalThread → SignalThread) : SignalSys :=
  { s with threads := Function.update s.threads t (f (s.threads t)) }

/-- The two return handlers are reached from the end of what returns to them only. -/
def serve (t : SignalThread) : Option Trap → Option SignalThread
  | none => some t
  | some .syscall => some t.setupSyscall
  | some .syscallReturn => if t.syscallMode then some t.syscallReturnEventHandler else none
  | some .signalCleanup => if t.handler.isSome then some t.signalCleanupEventHandler else none

def step (s : SignalSys) : SignalEvent → Option SignalSys
  | .enqueue t info => some (s.setThread t (·.enqueuePendingSignal info))
  | .trap sp request =>
      if sp = 0#32 then none
      else (serve { s.threads s.runningThread with stackTop := sp } request).map fun t =>
        s.setThread s.runningThread fun _ => t
  | .schedule t =>
      let s := { s with runningThread := t }
      some (if (s.threads t).syscallMode then s else s.setThread t (·.checkPendingSignals))

end SignalSys

/-- The purpose of it all: a mailbox for each thread, attended to when the thread is picked
outside of a system call. -/
structure SignalSpec where
  runningThread : Tid
  inSyscall : Tid → Bool
  mailbox : Tid → Mailbox StagedHandlerInfo

namespace SignalSpec

def setMailbox (a : SignalSpec) (t : Tid)
    (f : Mailbox StagedHandlerInfo → Mailbox StagedHandlerInfo) : SignalSpec :=
  { a with mailbox := Function.update a.mailbox t (f (a.mailbox t)) }

def setInSyscall (a : SignalSpec) (b : Bool) : SignalSpec :=
  { a with inSyscall := Function.update a.inSyscall a.runningThread b }

def step (a : SignalSpec) : SignalEvent → SignalSpec
  | .enqueue t info => a.setMailbox t fun m => m.arrive signalQueueSize info
  | .trap _ none => a
  | .trap _ (some .syscall) => a.setInSyscall true
  | .trap _ (some .syscallReturn) => a.setInSyscall false
  | .trap _ (some .signalCleanup) => a.setMailbox a.runningThread Mailbox.finish
  | .schedule t =>
      let a := { a with runningThread := t }
      if a.inSyscall t then a else a.setMailbox t Mailbox.attend

def start (t : Tid) : SignalSpec := ⟨t, fun _ => false, fun _ => {}⟩

end SignalSpec

/-- The thread is at what its mailbox says. -/
structure Refines (t : SignalThread) (inSyscall : Bool) (m : Mailbox StagedHandlerInfo) : Prop where
  signalQueue : t.signalQueue.records stagedHandlerInfoSize =
    m.pending.map fun info => bytesAt info.ptr stagedHandlerInfoSize
  signalCnt : t.signalCnt = m.pending.length ∧ t.signalCnt = t.signalQueue.kfifoLen
  handler : t.handler = m.active
  staged : t.staged = m.served
  stackTopPreserved : t.stackTopPreserved ≠ 0#32 ↔ m.active.isSome
  syscallMode : t.syscallMode = inSyscall

/-- What the steps rely on. -/
structure SignalThread.Sound (t : SignalThread) (inSyscall : Bool)
    (m : Mailbox StagedHandlerInfo) : Prop extends Refines t inSyscall m where
  structured : t.signalQueue.Structured stagedHandlerInfoSize
  size : t.signalQueue.size = signalQueueSize
  accounted : m.Accounted signalQueueSize
  -- a stack pointer that will be preserved was saved when the thread was left
  stackTop : inSyscall = false → m.active = none → t.stackTop ≠ 0#32
  syscallStackTop : inSyscall = true → t.syscallStackTop ≠ 0#32

namespace SignalThread.Sound
variable {t t' : SignalThread} {b : Bool} {m : Mailbox StagedHandlerInfo} {sp : Word}

theorem enqueue (h : Sound t b m) (info : StagedHandlerInfo) :
    Sound (t.enqueuePendingSignal info) b (m.arrive signalQueueSize info) := by
  obtain ⟨hstructured, hsize, hrecords⟩ := h.structured.kfifoIn info.ptr
  obtain ⟨hactive, hserved, -⟩ := m.arrive_eq signalQueueSize info
  have hcount : t.signalQueue.count = m.pending.length := h.signalCnt.2.symm.trans h.signalCnt.1
  have hqueue : (t.enqueuePendingSignal info).signalQueue.records stagedHandlerInfoSize =
      (m.arrive signalQueueSize info).pending.map
        fun info => bytesAt info.ptr stagedHandlerInfoSize := by
    refine hrecords.trans ?_
    rw [h.size, hcount, h.signalQueue, Mailbox.pending_arrive, List.map_append]
    split
    · rfl
    · rw [List.map_tail]
      rfl
  have hlen := congrArg List.length hqueue
  rw [Kfifo.Structured.length_records, List.length_map] at hlen
  exact {
    signalQueue := hqueue
    signalCnt := ⟨hlen, rfl⟩
    handler := h.handler.trans hactive.symm
    staged := h.staged.trans hserved.symm
    stackTopPreserved := hactive ▸ h.stackTopPreserved
    syscallMode := h.syscallMode
    structured := hstructured
    size := hsize.trans h.size
    accounted := h.accounted.arrive (by decide) info
    stackTop := fun hb hfree => h.stackTop hb (hactive ▸ hfree)
    syscallStackTop := h.syscallStackTop }

theorem check (h : Sound t false m) : Sound t.checkPendingSignals false m.attend := by
  rw [SignalThread.checkPendingSignals]
  split
  · next hskip =>
      have hbusy : m.active ≠ none ∨ m.pending = [] := by
        obtain hcnt | hpreserved := hskip
        · exact Or.inr (List.length_eq_zero_iff.mp (h.signalCnt.1.symm.trans hcnt))
        · exact Or.inl (Option.isSome_iff_ne_none.mp (h.stackTopPreserved.mp hpreserved))
      rw [Mailbox.attend_of_busy hbusy]
      exact h
  · next hgo =>
      rw [not_or, not_not] at hgo
      have hfree : m.active = none := by
        rw [← Option.not_isSome_iff_eq_none, ← h.stackTopPreserved, not_not]
        exact hgo.2
      have hcount : 0 < t.signalQueue.count := by
        have hcnt := h.signalCnt.2
        rw [Kfifo.kfifoLen] at hcnt
        omega
      obtain ⟨hstructured, hsize, hrecords⟩ := h.structured.kfifoOut hcount fun _ => 0#8
      rw [h.signalQueue] at hrecords
      obtain ⟨next, rest, hpending, hnext, hrest⟩ := List.map_eq_cons_iff.mp hrecords
      have hinfo := StagedHandlerInfo.ofPtr_copy hnext.symm
      have hlen := congrArg List.length hrest
      rw [Kfifo.Structured.length_records, List.length_map] at hlen
      rw [Mailbox.attend_of_free hfree hpending]
      have haccounted := h.accounted.attend
      rw [Mailbox.attend_of_free hfree hpending] at haccounted
      exact {
        signalQueue := hrest.symm
        signalCnt := ⟨hlen.symm, rfl⟩
        handler := congrArg some hinfo
        staged := by
          have hserved : Mailbox.served { m with
              pending := rest, active := some next, settled := m.settled ++ [(next, true)] } =
              m.served ++ [next] := by simp [Mailbox.served]
          rw [hserved, ← h.staged, ← hinfo]
          rfl
        stackTopPreserved := iff_of_true (h.stackTop rfl hfree) rfl
        syscallMode := h.syscallMode
        structured := hstructured
        size := hsize.trans h.size
        accounted := haccounted
        stackTop := fun _ hnone => nomatch hnone
        syscallStackTop := fun hb => nomatch hb }

theorem finish (h : Sound t b m) (hhandler : t.handler.isSome) :
    Sound t.signalCleanupEventHandler b m.finish where
  signalQueue := h.signalQueue
  signalCnt := h.signalCnt
  handler := rfl
  staged := h.staged
  stackTopPreserved := iff_of_false (fun hne => hne rfl) (by simp [Mailbox.finish])
  syscallMode := h.syscallMode
  structured := h.structured
  size := h.size
  accounted := h.accounted.finish
  stackTop _ _ := h.stackTopPreserved.mpr (h.handler ▸ hhandler)
  syscallStackTop := h.syscallStackTop

theorem setStackTop (h : Sound t b m) (hsp : sp ≠ 0#32) : Sound { t with stackTop := sp } b m where
  signalQueue := h.signalQueue
  signalCnt := h.signalCnt
  handler := h.handler
  staged := h.staged
  stackTopPreserved := h.stackTopPreserved
  syscallMode := h.syscallMode
  structured := h.structured
  size := h.size
  accounted := h.accounted
  stackTop _ _ := hsp
  syscallStackTop := h.syscallStackTop

theorem setupSyscall (h : Sound t b m) (hsp : t.stackTop ≠ 0#32) :
    Sound t.setupSyscall true m := by
  rw [SignalThread.setupSyscall]
  split
  · next hmode =>
      obtain rfl : b = true := h.syscallMode.symm.trans hmode
      exact h
  · exact {
      signalQueue := h.signalQueue
      signalCnt := h.signalCnt
      handler := h.handler
      staged := h.staged
      stackTopPreserved := h.stackTopPreserved
      syscallMode := rfl
      structured := h.structured
      size := h.size
      accounted := h.accounted
      stackTop := fun hb => nomatch hb
      syscallStackTop := fun _ => hsp }

theorem syscallReturn (h : Sound t true m) : Sound t.syscallReturnEventHandler false m where
  signalQueue := h.signalQueue
  signalCnt := h.signalCnt
  handler := h.handler
  staged := h.staged
  stackTopPreserved := h.stackTopPreserved
  syscallMode := rfl
  structured := h.structured
  size := h.size
  accounted := h.accounted
  stackTop _ _ := h.syscallStackTop rfl
  syscallStackTop hb := nomatch hb

end SignalThread.Sound

namespace SignalSys
variable {s s' : SignalSys} {a : SignalSpec} {e : SignalEvent}

/-- All threads are at what the specification says. -/
structure Sound (s : SignalSys) (a : SignalSpec) : Prop where
  runningThread : s.runningThread = a.runningThread
  threads : ∀ t, (s.threads t).Sound (a.inSyscall t) (a.mailbox t)

theorem Sound.update {t : Tid} {x : SignalThread} {b : Bool} {m : Mailbox StagedHandlerInfo}
    {a' : SignalSpec} (h : Sound s a) (hx : x.Sound b m)
    (hrunning : a'.runningThread = a.runningThread)
    (hinSyscall : a'.inSyscall = Function.update a.inSyscall t b)
    (hmailbox : a'.mailbox = Function.update a.mailbox t m) :
    Sound (s.setThread t fun _ => x) a' where
  runningThread := h.runningThread.trans hrunning.symm
  threads u := by
    rw [hinSyscall, hmailbox]
    by_cases hu : u = t
    · subst hu
      simpa [setThread] using hx
    · simpa [setThread, hu] using h.threads u

theorem Sound.step (h : Sound s a) (hstep : s.step e = some s') : Sound s' (a.step e) := by
  cases e with
  | enqueue t info =>
      obtain rfl := Option.some.inj hstep
      exact h.update ((h.threads t).enqueue info) rfl (Function.update_eq_self t _).symm rfl
  | trap sp request =>
      obtain ⟨hsp, hstep⟩ := Option.ite_none_left_eq_some.mp hstep
      obtain ⟨x, hx, rfl⟩ := Option.map_eq_some_iff.mp hstep
      have hrun := (h.threads s.runningThread).setStackTop hsp
      have hself : ∀ {β : Type} (f : Tid → β), f = Function.update f s.runningThread
          (f s.runningThread) := fun f => (Function.update_eq_self _ f).symm
      cases request with
      | none =>
          obtain rfl := Option.some.inj hx
          exact h.update hrun rfl (hself _) (hself _)
      | some trap =>
          cases trap with
          | syscall =>
              obtain rfl := Option.some.inj hx
              refine h.update (hrun.setupSyscall hsp) rfl ?_ (hself _)
              rw [h.runningThread]
              rfl
          | syscallReturn =>
              obtain ⟨hmode, hx⟩ := Option.ite_none_right_eq_some.mp hx
              obtain rfl := Option.some.inj hx
              have hin : a.inSyscall s.runningThread = true := hrun.syscallMode.symm.trans hmode
              rw [hin] at hrun
              refine h.update hrun.syscallReturn rfl ?_ (hself _)
              rw [h.runningThread]
              rfl
          | signalCleanup =>
              obtain ⟨hhandler, hx⟩ := Option.ite_none_right_eq_some.mp hx
              obtain rfl := Option.some.inj hx
              refine h.update (hrun.finish hhandler) rfl (hself _) ?_
              rw [h.runningThread]
              rfl
  | schedule t =>
      obtain rfl := Option.some.inj hstep
      have hpicked : Sound { s with runningThread := t } { a with runningThread := t } :=
        ⟨rfl, h.threads⟩
      have hmode := (h.threads t).syscallMode
      have ht := h.threads t
      cases hin : a.inSyscall t with
      | true =>
          have hspec : a.step (.schedule t) = { a with runningThread := t } := if_pos hin
          rw [hin] at hmode
          rw [hspec, if_pos hmode]
          exact hpicked
      | false =>
          have hspec : a.step (.schedule t) =
              { a with runningThread := t }.setMailbox t Mailbox.attend := if_neg (by simp [hin])
          rw [hin] at hmode ht
          rw [hspec, if_neg (by simp [hmode])]
          refine hpicked.update ht.check rfl ?_ rfl
          rw [← hin, Function.update_eq_self]
          rfl

theorem Sound.start {t : Tid} {threads : Tid → SignalThread}
    (hfresh : ∀ t, (threads t).Fresh) : Sound ⟨t, threads⟩ (SignalSpec.start t) where
  runningThread := rfl
  threads u := by
    have h := hfresh u
    obtain ⟨data, hqueue⟩ := h.signalQueue
    exact {
      signalQueue := by rw [hqueue]; rfl
      signalCnt := ⟨h.signalCnt, by rw [h.signalCnt, hqueue]; rfl⟩
      handler := h.handler
      staged := h.staged
      stackTopPreserved := by simp [h.stackTopPreserved, SignalSpec.start]
      syscallMode := h.syscallMode
      structured := by
        rw [hqueue]
        exact Kfifo.structured_init data (by decide) (by decide) (by decide)
      size := by rw [hqueue]; rfl
      accounted := Mailbox.Accounted.empty signalQueueSize
      stackTop := fun _ _ => h.stackTop
      syscallStackTop := fun hb => nomatch hb }

/-- The signals queued for a thread, in this order. -/
def queued (t : Tid) (es : List SignalEvent) : List StagedHandlerInfo :=
  es.filterMap fun e => match e with
    | .enqueue u info => if u = t then some info else none
    | _ => none

theorem arrived_setMailbox {f : Mailbox StagedHandlerInfo → Mailbox StagedHandlerInfo}
    (hf : ∀ m, (f m).arrived = m.arrived) (a : SignalSpec) (t u : Tid) :
    ((a.setMailbox t f).mailbox u).arrived = (a.mailbox u).arrived := by
  by_cases hu : u = t
  · subst hu
    simp [SignalSpec.setMailbox, hf]
  · simp [SignalSpec.setMailbox, hu]

theorem arrived_step (t : Tid) (e : SignalEvent) (a : SignalSpec) :
    ((a.step e).mailbox t).arrived = (a.mailbox t).arrived ++ queued t [e] := by
  cases e with
  | enqueue u info =>
      by_cases hu : u = t
      · subst hu
        simp [SignalSpec.step, SignalSpec.setMailbox, queued, Mailbox.arrive_eq]
      · simp [SignalSpec.step, SignalSpec.setMailbox, queued, hu, Ne.symm hu]
  | trap sp request =>
      have hnone : queued t [.trap sp request] = [] := rfl
      rw [hnone, List.append_nil]
      cases request with
      | none => rfl
      | some trap =>
          cases trap with
          | syscall | syscallReturn => rfl
          | signalCleanup => exact arrived_setMailbox (f := Mailbox.finish) (fun _ => rfl) a _ t
  | schedule u =>
      have hnone : queued t [.schedule u] = [] := rfl
      rw [hnone, List.append_nil, SignalSpec.step]
      split
      · rfl
      · exact arrived_setMailbox Mailbox.arrived_attend { a with runningThread := u } u t

theorem arrived_foldl (t : Tid) (es : List SignalEvent) (a : SignalSpec) :
    ((es.foldl SignalSpec.step a).mailbox t).arrived = (a.mailbox t).arrived ++ queued t es := by
  induction es generalizing a with
  | nil => exact (List.append_nil _).symm
  | cons e es ih =>
      have hcons : queued t (e :: es) = queued t [e] ++ queued t es :=
        List.filterMap_append (l := [e])
      rw [List.foldl_cons, ih, arrived_step, hcons, List.append_assoc]

theorem Sound.exec {es : List SignalEvent} (h : Sound s a)
    (hrun : Runs.exec SignalSys.step s es = some s') :
    Sound s' (es.foldl SignalSpec.step a) := by
  induction es generalizing s a with
  | nil =>
      obtain rfl := Option.some.inj hrun
      exact h
  | cons e es ih =>
      obtain ⟨s₁, hs₁, hrest⟩ := Option.bind_eq_some_iff.mp hrun
      exact ih (h.step hs₁) hrest

/-- In every run each thread is at what the mailbox of its signals says, where each signal
that was queued for it is staged, pending, or dropped by a signal that found the queue full. -/
theorem signals_refine {t : Tid} {threads : Tid → SignalThread} {es : List SignalEvent}
    (hfresh : ∀ t, (threads t).Fresh) (hrun : Runs.exec step ⟨t, threads⟩ es = some s) (u : Tid) :
    let a := es.foldl SignalSpec.step (SignalSpec.start t)
    Refines (s.threads u) (a.inSyscall u) (a.mailbox u) ∧
      (a.mailbox u).Accounted signalQueueSize ∧ (a.mailbox u).arrived = queued u es := by
  have hsound := ((Sound.start hfresh).exec hrun).threads u
  exact ⟨hsound.toRefines, hsound.accounted, arrived_foldl u es (SignalSpec.start t)⟩

def newThread : SignalThread where
  stackTop := 0x20001000#32
  stackTopPreserved := 0#32
  syscallStackTop := 0#32
  syscallMode := false
  signalQueue :=
    Kfifo.kfifoInit (fun _ => 0#8) (kfifoHdrSize + stagedHandlerInfoSize) signalQueueSize
  signalCnt := 0
  handler := none
  staged := []

/-- `SIGUSR1` for a handler at this address. -/
def usr1 (func : Word) : StagedHandlerInfo := ⟨func, fun i => if i = 0 then 10#32 else 0#32⟩

/-- Six signals for thread 5 before it is picked: the first one is dropped. -/
def overflowRun : List SignalEvent :=
  (List.range 6).map (fun i => .enqueue 5 (usr1 (BitVec.ofNat 32 (4 * i)))) ++
    [.schedule 5, .schedule 5, .trap 0x20000f00#32 (some .signalCleanup), .schedule 5]

theorem signals_refine_at_overflow :
    ∃ s, Runs.exec step ⟨5, fun _ => newThread⟩ overflowRun = some s ∧
      (s.threads 5).staged.map StagedHandlerInfo.func = [4#32, 8#32] ∧
      (s.threads 5).signalCnt = 3 ∧
      ∃ m, Refines (s.threads 5) false m ∧ m.arrived = queued 5 overflowRun := by
  have hrun : (Runs.exec step ⟨5, fun _ => newThread⟩ overflowRun).map (fun s => decide
      ((s.threads 5).staged.map StagedHandlerInfo.func = [4#32, 8#32] ∧
        (s.threads 5).signalCnt = 3)) = some true := by decide +kernel
  obtain ⟨s, hs, hfacts⟩ := Option.map_eq_some_iff.mp hrun
  obtain ⟨hstaged, hcnt⟩ := of_decide_eq_true hfacts
  have hfresh : ∀ _ : Tid, newThread.Fresh := fun _ =>
    ⟨by decide, rfl, rfl, ⟨_, rfl⟩, rfl, rfl, rfl⟩
  obtain ⟨hrefines, -, harrived⟩ := signals_refine hfresh hs 5
  exact ⟨s, hs, hstaged, hcnt, _, hrefines, harrived⟩

end SignalSys

end Tenok
