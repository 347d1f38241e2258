import Tenok.Kernel.Kfifo
import Tenok.Kernel.Steady

/-!
`kernel/pipe.c` and the loops of `sys_read` and `sys_write` around it. `fifo_read` and
`fifo_write` are single steps; a thread that one of them has queued calls it again when it
has the CPU again. The poll events of the file are left out: no list of a pipe depends on
them.
-/
namespace Tenok
open Ring Kernel

/-- `struct pipe`; the wait lists are known by name. -/
structure Pipe where
  fifo : Kfifo
  rWaitList : WaitQueue
  wWaitList : WaitQueue
  /-- `file.f_flags`, which each `sys_read` or `sys_write` through a descriptor sets. -/
  fFlags : Word

/-- What a call leaves behind; an error is for the loop around the call. -/
structure FifoResult where
  kernel : Kernel
  pipe : Pipe
  buf : Nat → Byte
  retval : Except Errno Nat

def FifoResult.bytes (r : FifoResult) : List Byte :=
  match r.retval with
  | .ok n => bytesAt r.buf n
  | .error _ => []

def FifoResult.restart (r : FifoResult) : Bool :=
  match r.retval with
  | .error .erestartsys => true
  | _ => false

namespace Pipe

def nonblock (p : Pipe) : Bool := p.fFlags &&& oNonblock ≠ 0#32

def popBytes (fifo : Kfifo) (buf : Nat → Byte) (size : Nat) : Kfifo × (Nat → Byte) :=
  (List.range size).foldl (fun s i => s.1.kfifoOut s.2 i 1) (fifo, buf)

def pushBytes (fifo : Kfifo) (buf : Nat → Byte) (size : Nat) : Kfifo :=
  (List.range size).foldl (fun fifo i => fifo.kfifoIn (ptrAdd buf i) 1) fifo

/-- Queue the running thread until a request of this size can be served. -/
def waitFor (k : Kernel) (waitList : WaitQueue) (size : Nat) : Kernel :=
  (k.setThread k.runningThread fun i => { i with fileRequestSize := size }).prepareToWait
    (.wait waitList) k.runningThread .wait

def readBytes (k : Kernel) (p : Pipe) (buf : Nat → Byte) (size : Nat) : Option FifoResult := do
  let (fifo, buf) := popBytes p.fifo buf size
  let k ← k.fifoWakeUp (.wait p.wWaitList) fifo.kfifoAvail
  some ⟨k, { p with fifo }, buf, .ok size⟩

/-- A write of `size` bytes that the pipe has room for. -/
def writeBytes (k : Kernel) (p : Pipe) (buf : Nat → Byte) (size : Nat) : Option FifoResult := do
  let fifo := pushBytes p.fifo buf size
  let k ← k.fifoWakeUp (.wait p.rWaitList) fifo.kfifoLen
  some ⟨k, { p with fifo }, buf, .ok size⟩

def fifoRead (k : Kernel) (p : Pipe) (buf : Nat → Byte) (size : Nat) : Option FifoResult :=
  let fifoLen := p.fifo.kfifoLen
  if fifoLen < size then
    if p.nonblock then
      if 0 < fifoLen then readBytes k p buf fifoLen else some ⟨k, p, buf, .error .eagain⟩
    else some ⟨waitFor k p.rWaitList size, p, buf, .error .erestartsys⟩
  else readBytes k p buf size

def fifoWrite (k : Kernel) (p : Pipe) (buf : Nat → Byte) (size : Nat) : Option FifoResult :=
  let fifoAvail := p.fifo.kfifoAvail
  if fifoAvail < size then
    if p.nonblock then
      if 0 < fifoAvail then writeBytes k p buf fifoAvail else some ⟨k, p, buf, .error .eagain⟩
    else some ⟨waitFor k p.wWaitList size, p, buf, .error .erestartsys⟩
  else writeBytes k p buf size

/-- What a call may do to the bytes in a pipe: a read takes them from the front, a write
appends, and in blocking mode it is all of the request or nothing. -/
def ReadsWell (p : Pipe) (size : Nat) (r : FifoResult) : Prop :=
  p.fifo.bytes = r.bytes ++ r.pipe.fifo.bytes ∧
    ∀ n, r.retval = .ok n → r.bytes.length = n ∧ n ≤ size ∧ (p.nonblock = false → n = size)

def WritesWell (p : Pipe) (buf : Nat → Byte) (size : Nat) (r : FifoResult) : Prop :=
  r.pipe.fifo.bytes = p.fifo.bytes ++ r.bytes ∧
    ∀ n, r.retval = .ok n →
      r.bytes = bytesAt buf n ∧ n ≤ size ∧ (p.nonblock = false → n = size)

section Waits
variable {k : Kernel} {L : SchedList → List Tid} {q : WaitQueue}

theorem waitFor_kept (hS : k.Steady L) (hst : k.Unqueued)
    (hin : SchedList.wait q ∈ inUse {t | k.Alive t}) (size : Nat) :
    Kept {q} k L (waitFor k q size) (Queues.enqueue L k.runningThread (.wait q)) :=
  hS.queueSelf (f := fun i => { i with fileRequestSize := size }) hst (fun _ => rfl)
    (Or.inr fun _ => rfl) hin (by simp) fun _ hne h => hne (SchedList.wait.inj h).symm

@[simp]
theorem waitFor_request (k : Kernel) (q : WaitQueue) (size : Nat) :
    ((waitFor k q size).threads k.runningThread).fileRequestSize = size := by
  simp [waitFor, Kernel.prepareToWait, setStatus, Kernel.setThread]

end Waits

section Transfers
variable {fifo : Kfifo} {k : Kernel} {p : Pipe} {buf : Nat → Byte} {n size : Nat} {r : FifoResult}

theorem popBytes_succ (fifo : Kfifo) (buf : Nat → Byte) (n : Nat) :
    popBytes fifo buf (n + 1) =
      (popBytes fifo buf n).1.kfifoOut (popBytes fifo buf n).2 n 1 := by
  simp [popBytes, List.range_succ]

theorem pushBytes_succ (fifo : Kfifo) (buf : Nat → Byte) (n : Nat) :
    pushBytes fifo buf (n + 1) = (pushBytes fifo buf n).kfifoIn (ptrAdd buf n) 1 := by
  simp [pushBytes, List.range_succ]

theorem popBytes_spec (h : fifo.Stream) (buf : Nat → Byte) (hn : n ≤ fifo.kfifoLen) :
    (popBytes fifo buf n).1.Stream ∧ (popBytes fifo buf n).1.size = fifo.size ∧
      fifo.bytes = bytesAt (popBytes fifo buf n).2 n ++ (popBytes fifo buf n).1.bytes := by
  induction n with
  | zero => exact ⟨h, rfl, rfl⟩
  | succ n ih =>
      obtain ⟨hs, hsize, hbytes⟩ := ih (by omega)
      have hlen := congrArg List.length hbytes
      have hcount : 0 < (popBytes fifo buf n).1.count := by
        simp only [Kfifo.bytes, List.length_append, RingBuffer.length_contents,
          length_bytesAt] at hlen
        simp only [Kfifo.kfifoLen] at hn
        omega
      obtain ⟨hs', hsize', b, hb, hbuf⟩ := hs.kfifoOut hcount (popBytes fifo buf n).2 n
      rw [popBytes_succ, hbuf, bytesAt_update]
      refine ⟨hs', hsize'.trans hsize, ?_⟩
      rw [hbytes, hb, List.append_assoc, List.singleton_append]

theorem pushBytes_spec (h : fifo.Stream) (buf : Nat → Byte) (hn : n ≤ fifo.kfifoAvail) :
    (pushBytes fifo buf n).Stream ∧ (pushBytes fifo buf n).size = fifo.size ∧
      (pushBytes fifo buf n).bytes = fifo.bytes ++ bytesAt buf n := by
  induction n with
  | zero => exact ⟨h, rfl, (List.append_nil _).symm⟩
  | succ n ih =>
      obtain ⟨hs, hsize, hbytes⟩ := ih (by omega)
      have hlen := congrArg List.length hbytes
      have hroom : (pushBytes fifo buf n).count < (pushBytes fifo buf n).size := by
        simp only [Kfifo.bytes, List.length_append, RingBuffer.length_contents,
          length_bytesAt] at hlen
        simp only [Kfifo.kfifoAvail] at hn
        omega
      obtain ⟨hs', hsize', hbytes'⟩ := hs.kfifoIn hroom (ptrAdd buf n)
      rw [pushBytes_succ]
      refine ⟨hs', hsize'.trans hsize, ?_⟩
      rw [hbytes', hbytes, bytesAt_succ, List.append_assoc]
      rfl

theorem readBytes_spec (h : p.fifo.Stream) (hsize : size ≤ p.fifo.kfifoLen)
    (hr : readBytes k p buf size = some r) : r.pipe.fifo.Stream ∧ r.retval = .ok size ∧
      p.fifo.bytes = r.bytes ++ r.pipe.fifo.bytes := by
  obtain ⟨hs, -, hbytes⟩ := popBytes_spec h buf hsize
  obtain ⟨k', -, hr⟩ := Option.bind_eq_some_iff.mp hr
  obtain rfl := Option.some.inj hr
  exact ⟨hs, rfl, hbytes⟩

theorem writeBytes_spec (h : p.fifo.Stream) (hsize : size ≤ p.fifo.kfifoAvail)
    (hr : writeBytes k p buf size = some r) : r.pipe.fifo.Stream ∧ r.retval = .ok size ∧
      r.bytes = bytesAt buf size ∧ r.pipe.fifo.bytes = p.fifo.bytes ++ r.bytes := by
  obtain ⟨hs, -, hbytes⟩ := pushBytes_spec h buf hsize
  obtain ⟨k', -, hr⟩ := Option.bind_eq_some_iff.mp hr
  obtain rfl := Option.some.inj hr
  exact ⟨hs, rfl, rfl, hbytes⟩

theorem fifoRead_spec (h : p.fifo.Stream) (hr : fifoRead k p buf size = some r) :
    r.pipe.fifo.Stream ∧ ReadsWell p size r := by
  simp only [fifoRead] at hr
  split at hr
  · next hlt =>
      split at hr
      · next hmode =>
          split at hr
          · next hpos =>
              obtain ⟨hs, hret, hbytes⟩ := readBytes_spec h (Nat.le_refl _) hr
              refine ⟨hs, hbytes, fun n hn => ?_⟩
              obtain rfl := Except.ok.inj (hret.symm.trans hn)
              refine ⟨by rw [FifoResult.bytes, hret, length_bytesAt], hlt.le, ?_⟩
              exact fun hblock => absurd (hmode.symm.trans hblock) (by decide)
          · obtain rfl := Option.some.inj hr
            exact ⟨h, rfl, fun n hn => by cases hn⟩
      · obtain rfl := Option.some.inj hr
        exact ⟨h, rfl, fun n hn => by cases hn⟩
  · next hge =>
      obtain ⟨hs, hret, hbytes⟩ := readBytes_spec h (Nat.le_of_not_lt hge) hr
      refine ⟨hs, hbytes, fun n hn => ?_⟩
      obtain rfl := Except.ok.inj (hret.symm.trans hn)
      exact ⟨by rw [FifoResult.bytes, hret, length_bytesAt], Nat.le_refl _, fun _ => rfl⟩

theorem fifoWrite_spec (h : p.fifo.Stream) (hr : fifoWrite k p buf size = some r) :
    r.pipe.fifo.Stream ∧ WritesWell p buf size r := by
  simp only [fifoWrite] at hr
  split at hr
  · next hlt =>
      split at hr
      · next hmode =>
          split at hr
          · next hpos =>
              obtain ⟨hs, hret, hsent, hbytes⟩ := writeBytes_spec h (Nat.le_refl _) hr
              refine ⟨hs, hbytes, fun n hn => ?_⟩
              obtain rfl := Except.ok.inj (hret.symm.trans hn)
              refine ⟨hsent, hlt.le, ?_⟩
              exact fun hblock => absurd (hmode.symm.trans hblock) (by decide)
          · obtain rfl := Option.some.inj hr
            exact ⟨h, (List.append_nil _).symm, fun n hn => by cases hn⟩
      · obtain rfl := Option.some.inj hr
        exact ⟨h, (List.append_nil _).symm, fun n hn => by cases hn⟩
  · next hge =>
      obtain ⟨hs, hret, hsent, hbytes⟩ := writeBytes_spec h (Nat.le_of_not_lt hge) hr
      refine ⟨hs, hbytes, fun n hn => ?_⟩
      obtain rfl := Except.ok.inj (hret.symm.trans hn)
      exact ⟨hsent, Nat.le_refl _, fun _ => rfl⟩

end Transfers

end Pipe

inductive PipeCall
  | read (buf : Nat → Byte) (size : Nat)
  | write (buf : Nat → Byte) (size : Nat)

structure PipeSys where
  kernel : Kernel
  pipe : Pipe
  /-- The call that a thread has to make again after `schedule`. -/
  calls : Tid → Option PipeCall
  /-- The bytes of the successful reads and writes so far. -/
  readLog : List Byte
  writeLog : List Byte

inductive PipeEvent
  /-- `sys_read` or `sys_write`, through a descriptor with these flags if there is one. -/
  | call (flags : Option Word) (c : PipeCall)
  | retry
  | background (b : Background)

namespace PipeSys

def running (s : PipeSys) : Tid := s.kernel.runningThread

/-- The running thread has the CPU and has not queued itself. -/
def Executing (s : PipeSys) : Prop := s.kernel.Unqueued

instance decidableExecuting (s : PipeSys) : Decidable s.Executing :=
  inferInstanceAs (Decidable s.kernel.Unqueued)

def setFlags (s : PipeSys) (flags : Option Word) : PipeSys :=
  { s with pipe := { s.pipe with fFlags := flags.getD s.pipe.fFlags } }

def serve (s : PipeSys) : PipeCall → Option FifoResult
  | .read buf size => Pipe.fifoRead s.kernel s.pipe buf size
  | .write buf size => Pipe.fifoWrite s.kernel s.pipe buf size

def finish (s : PipeSys) (c : PipeCall) (r : FifoResult) : PipeSys where
  kernel := r.kernel
  pipe := r.pipe
  calls := Function.update s.calls s.running (if r.restart then some c else none)
  readLog := match c with
    | .read _ _ => s.readLog ++ r.bytes
    | .write _ _ => s.readLog
  writeLog := match c with
    | .read _ _ => s.writeLog
    | .write _ _ => s.writeLog ++ r.bytes

/-- A pass of the loop of `sys_read` or `sys_write`. -/
def attempt (s : PipeSys) (c : PipeCall) : Option PipeSys := (s.serve c).map (s.finish c)

def step (s : PipeSys) : PipeEvent → Option PipeSys
  | .call flags c =>
      if s.Executing ∧ (s.calls s.running).isNone then (s.setFlags flags).attempt c else none
  | .retry => if s.Executing then (s.calls s.running).bind s.attempt else none
  | .background b =>
      (s.kernel.background (s.calls s.running).isNone b).map fun kernel => { s with kernel }

def Fresh (size : Nat) (s : PipeSys) : Prop :=
  (∃ data, s.pipe.fifo = Kfifo.kfifoInit data 1 size) ∧ s.readLog = [] ∧ s.writeLog = []

/-- A pipe as a byte stream: what was read is the beginning of what was written, the rest
is in the pipe, and the next call, whatever it is, transfers its bytes as it should. -/
structure Lossless (s : PipeSys) : Prop where
  ordered : s.readLog <+: s.writeLog
  inFlight : s.writeLog = s.readLog ++ s.pipe.fifo.bytes
  reads : ∀ flags buf size r, Pipe.fifoRead s.kernel (s.setFlags flags).pipe buf size = some r →
    Pipe.ReadsWell (s.setFlags flags).pipe size r
  writes : ∀ flags buf size r, Pipe.fifoWrite s.kernel (s.setFlags flags).pipe buf size = some r →
    Pipe.WritesWell (s.setFlags flags).pipe buf size r

/-- The books of the pipe. -/
structure Balanced (s : PipeSys) : Prop where
  stream : s.pipe.fifo.Stream
  inFlight : s.writeLog = s.readLog ++ s.pipe.fifo.bytes

namespace Balanced
variable {s s' : PipeSys} {c : PipeCall} {e : PipeEvent}

theorem setFlags (hs : Balanced s) (flags : Option Word) : Balanced (s.setFlags flags) :=
  ⟨hs.stream, hs.inFlight⟩

theorem attempt (hs : Balanced s) (hstep : s.attempt c = some s') : Balanced s' := by
  obtain ⟨r, hr, rfl⟩ := Option.map_eq_some_iff.mp hstep
  cases c with
  | read buf size =>
      obtain ⟨hstream, hbytes, -⟩ := Pipe.fifoRead_spec hs.stream hr
      refine ⟨hstream, ?_⟩
      change s.writeLog = (s.readLog ++ r.bytes) ++ r.pipe.fifo.bytes
      rw [hs.inFlight, hbytes, List.append_assoc]
  | write buf size =>
      obtain ⟨hstream, hbytes, -⟩ := Pipe.fifoWrite_spec hs.stream hr
      refine ⟨hstream, ?_⟩
      change s.writeLog ++ r.bytes = s.readLog ++ r.pipe.fifo.bytes
      rw [hs.inFlight, hbytes, List.append_assoc]

theorem step (hs : Balanced s) (hstep : s.step e = some s') : Balanced s' := by
  cases e with
  | call flags c =>
      simp only [PipeSys.step, Option.ite_none_right_eq_some] at hstep
      exact (hs.setFlags flags).attempt hstep.2
  | retry =>
      simp only [PipeSys.step, Option.ite_none_right_eq_some, Option.bind_eq_some_iff] at hstep
      obtain ⟨-, c, -, hc⟩ := hstep
      exact hs.attempt hc
  | background b =>
      obtain ⟨k₁, -, rfl⟩ := Option.map_eq_some_iff.mp hstep
      exact ⟨hs.stream, hs.inFlight⟩

theorem lossless (hs : Balanced s) : Lossless s where
  ordered := ⟨s.pipe.fifo.bytes, hs.inFlight.symm⟩
  inFlight := hs.inFlight
  reads flags _ _ _ hr := (Pipe.fifoRead_spec (hs.setFlags flags).stream hr).2
  writes flags _ _ _ hr := (Pipe.fifoWrite_spec (hs.setFlags flags).stream hr).2

end Balanced

/-- In every run on a new pipe the pipe is a byte stream. -/
theorem lossless_of_fresh {size : Nat} {s s' : PipeSys} {es : List PipeEvent}
    (hfresh : Fresh size s) (hrun : Runs.exec step s es = some s') : Lossless s' := by
  obtain ⟨⟨data, hfifo⟩, hread, hwrite⟩ := hfresh
  have hinit : Balanced s := by
    refine ⟨hfifo ▸ Kfifo.stream_init data size, ?_⟩
    rw [hread, hwrite, hfifo]
    rfl
  have hstep : ∀ (s : PipeSys) e s', Balanced s → s.step e = some s' → Balanced s' :=
    fun _ _ _ hs h => hs.step h
  have hfinal := Runs.exec_keeps hstep hinit hrun
  exact hfinal.lossless

def pipeBuf : Nat := 100

def pipeOn (k : Kernel) : PipeSys where
  kernel := k
  pipe := ⟨Kfifo.kfifoInit (fun _ => 0#8) 1 pipeBuf, .fifoRead 1, .fifoWrite 1, 0#32⟩
  calls _ := none
  readLog := []
  writeLog := []

/-- Thread 5 waits for two bytes, thread 4 writes three, and thread 5 gets the first two. -/
def deliveryRun : List PipeEvent :=
  [.call (some 0#32) (.read (fun _ => 0#8) 2), .background .schedule,
    .call (some 0#32) (.write (fun i => BitVec.ofNat 8 (i + 1)) 3), .background .schedule, .retry]

theorem lossless_of_fresh_at_delivery : Fresh pipeBuf (pipeOn userKernel) ∧
    ∃ s, Runs.exec step (pipeOn userKernel) deliveryRun = some s ∧ s.readLog = [1#8, 2#8] ∧
      Lossless s := by
  have hfresh : Fresh pipeBuf (pipeOn userKernel) := ⟨⟨_, rfl⟩, rfl, rfl⟩
  have hrun : (Runs.exec step (pipeOn userKernel) deliveryRun).map (fun s => s.readLog) =
      some [1#8, 2#8] := by decide +kernel
  obtain ⟨s, hs, hread⟩ := Option.map_eq_some_iff.mp hrun
  exact ⟨hfresh, s, hs, hread, lossless_of_fresh hfresh hs⟩

end PipeSys

end Tenok
