import Mathlib.Algebra.BigOperators.Group.Finset.Basic
import Tenok.Kernel.Pipe

/-!
The file system daemon and the calls that go through it. A call sends its request to the
pipe of the daemon in one write, whose result it does not look at, and waits on the pipe of
its own thread for the reply; the daemon reads a request piece by piece. What the functions
of the file system do is not part of the model: each call of one gives some result.
-/
namespace Tenok
open Ring Kernel

def threadPipeFd (threadId : Tid) : Word := BitVec.ofNat 32 (threadId + 3)

def wordBytes (w : Word) : List Byte :=
  [w.extractLsb' 0 8, w.extractLsb' 8 8, w.extractLsb' 16 8, w.extractLsb' 24 8]

def wordOf : List Byte → Word
  | [a, b, c, d] => d ++ c ++ b ++ a
  | _ => 0#32

def fsCreateFile : Word := 1#32
def fsOpenFile : Word := 2#32
def fsOpenDir : Word := 3#32
def fsMount : Word := 4#32
def fsGetCwd : Word := 5#32
def fsChangeDir : Word := 6#32

/-- The request of a system call, with its arguments; paths are addresses. -/
inductive FsRequest
  | createFile (path : Word) (fileType : Byte)
  | openFile (path : Word)
  | openDirectory (path : Word)
  | mount (source target : Word)
  | getcwd (path len : Word)
  | chdir (path : Word)
  deriving DecidableEq, Repr

/-- The buffer that all the requests fill in the same way. -/
def requestBytes (fsCmd replyFd : Word) (args : List Byte) : List Byte :=
  wordBytes fsCmd ++ (wordBytes replyFd ++ args)

def requestCreateFile (replyFd path : Word) (fileType : Byte) : List Byte :=
  requestBytes fsCreateFile replyFd (wordBytes path ++ [fileType])

def requestOpenFile (replyFd path : Word) : List Byte :=
  requestBytes fsOpenFile replyFd (wordBytes path)

def requestOpenDirectory (replyFd path : Word) : List Byte :=
  requestBytes fsOpenDir replyFd (wordBytes path)

def requestMount (replyFd source target : Word) : List Byte :=
  requestBytes fsMount replyFd (wordBytes source ++ wordBytes target)

def requestGetcwd (replyFd path len : Word) : List Byte :=
  requestBytes fsGetCwd replyFd (wordBytes path ++ wordBytes len)

def requestChdir (replyFd path : Word) : List Byte :=
  requestBytes fsChangeDir replyFd (wordBytes path)

def FsRequest.bytes (replyFd : Word) : FsRequest → List Byte
  | .createFile path fileType => requestCreateFile replyFd path fileType
  | .openFile path => requestOpenFile replyFd path
  | .openDirectory path => requestOpenDirectory replyFd path
  | .mount source target => requestMount replyFd source target
  | .getcwd path len => requestGetcwd replyFd path len
  | .chdir path => requestChdir replyFd path

/-- The places in the loop of `filesysd`, with the local variables that are set. -/
inductive Filesysd
  | readFileCmd
  | readReplyFd (fileCmd : Word)
  | readPath (fileCmd replyFd : Word)
  | readLast (fileCmd replyFd path : Word)
  | call (replyFd : Word) (request : FsRequest)
  | write (replyFd result : Word)
  deriving DecidableEq, Repr

namespace Filesysd

/-- What the daemon has read of a request that it has not carried out yet. -/
def consumed : Filesysd → List Byte
  | .readFileCmd | .write _ _ => []
  | .readReplyFd fileCmd => wordBytes fileCmd
  | .readPath fileCmd replyFd => wordBytes fileCmd ++ wordBytes replyFd
  | .readLast fileCmd replyFd path => wordBytes fileCmd ++ (wordBytes replyFd ++ wordBytes path)
  | .call replyFd request => request.bytes replyFd

/-- The transfers that the daemon still makes for its request, in a measure of bytes. -/
def rank : Filesysd → Nat
  | .readFileCmd => 0
  | .readReplyFd _ => 3
  | .readPath _ _ | .readLast _ _ _ | .call _ _ => 6
  | .write _ _ => 5

/-- The size of the next `read`, if that is what comes next. -/
def readSize : Filesysd → Option Nat
  | .readFileCmd | .readReplyFd _ | .readPath _ _ => some 4
  | .readLast fileCmd _ _ => some (if fileCmd = fsCreateFile then 1 else 4)
  | .call _ _ | .write _ _ => none

def known (fileCmd : Word) : Bool :=
  fileCmd ∈ [fsCreateFile, fsOpenFile, fsOpenDir, fsMount, fsGetCwd, fsChangeDir]

/-- Where the daemon is after a `read` has given these bytes. -/
def afterRead : Filesysd → List Byte → Filesysd
  | .readFileCmd, buf => .readReplyFd (wordOf buf)
  | .readReplyFd fileCmd, buf =>
      if known fileCmd then .readPath fileCmd (wordOf buf) else .readFileCmd
  | .readPath fileCmd replyFd, buf =>
      if fileCmd = fsOpenFile then .call replyFd (.openFile (wordOf buf))
      else if fileCmd = fsOpenDir then .call replyFd (.openDirectory (wordOf buf))
      else if fileCmd = fsChangeDir then .call replyFd (.chdir (wordOf buf))
      else .readLast fileCmd replyFd (wordOf buf)
  | .readLast fileCmd replyFd path, buf =>
      if fileCmd = fsCreateFile then .call replyFd (.createFile path (buf.headD 0#8))
      else if fileCmd = fsMount then .call replyFd (.mount path (wordOf buf))
      else .call replyFd (.getcwd path (wordOf buf))
  | .call replyFd request, _ => .call replyFd request
  | .write replyFd result, _ => .write replyFd result

end Filesysd

/-- The places of a thread in a system call that sends a request. -/
inductive Caller
  | outside
  /-- The request was sent, and the pipe not yet looked at. -/
  | requested (request : FsRequest)
  /-- The loop around `fifo_read` goes on when the thread has the CPU again. -/
  | waiting (request : FsRequest)
  deriving DecidableEq, Repr

/-- The request whose reply the thread has not read yet. -/
def Caller.request : Caller → Option FsRequest
  | .outside => none
  | .requested request | .waiting request => some request

namespace Caller
variable {c : Caller} {r : FsRequest}

@[simp] theorem request_outside : outside.request = none := rfl

@[simp] theorem request_requested : (requested r).request = some r := rfl

@[simp] theorem request_waiting : (waiting r).request = some r := rfl

theorem request_eq_none : c.request = none ↔ c = .outside := by
  cases c <;> simp

end Caller

/-- A request that was processed, or whose reply was read. -/
structure FsReply where
  thread : Tid
  request : FsRequest
  result : Word
  deriving DecidableEq, Repr

structure FsSys where
  kernel : Kernel
  filesysd : Tid
  daemon : Filesysd
  /-- The anonymous pipes of the threads. -/
  pipes : Tid → Pipe
  callers : Tid → Caller
  /-- The requests that calls have sent, those that were processed, and the replies that
  were read, in order. -/
  issued : List (Tid × FsRequest)
  processed : List FsReply
  answered : List FsReply

inductive FsEvent
  | request (r : FsRequest)
  | readReply
  /-- A pass of the daemon; `result` is what a function of the file system gives. -/
  | daemon (result : Word)
  | background (b : Background)

namespace FsSys

def running (s : FsSys) : Tid := s.kernel.runningThread

def Executing (s : FsSys) : Prop := s.kernel.Unqueued

instance decidableExecuting (s : FsSys) : Decidable s.Executing :=
  inferInstanceAs (Decidable s.kernel.Unqueued)

def setPipe (s : FsSys) (t : Tid) (r : FifoResult) : FsSys :=
  { s with kernel := r.kernel, pipes := Function.update s.pipes t r.pipe }

def setCaller (s : FsSys) (t : Tid) (c : Caller) : FsSys :=
  { s with callers := Function.update s.callers t c }

def pipeRead (s : FsSys) (t : Tid) (size : Nat) : Option FifoResult :=
  Pipe.fifoRead s.kernel (s.pipes t) (fun _ => 0#8) size

def pipeWrite (s : FsSys) (t : Tid) (buf : List Byte) : Option FifoResult :=
  Pipe.fifoWrite s.kernel (s.pipes t) (fun i => buf.getD i 0#8) buf.length

/-- `request_create_file` and the other requests: the result of `fifo_write` is dropped. -/
def sendRequest (s : FsSys) (r : FsRequest) : Option FsSys := do
  let w ← s.pipeWrite s.filesysd (r.bytes (threadPipeFd s.running))
  let s' := (s.setPipe s.filesysd w).setCaller s.running (.requested r)
  some { s' with issued := s.issued ++ [(s.running, r)] }

/-- A pass of the loop in which the call waits for its reply. -/
def readReply (s : FsSys) (r : FsRequest) : Option FsSys := do
  let res ← s.pipeRead s.running 4
  let s' := s.setPipe s.running res
  match res.retval with
  | .error _ => some (s'.setCaller s.running (.waiting r))
  | .ok _ =>
      let reply := ⟨s.running, r, wordOf res.bytes⟩
      some { s'.setCaller s.running .outside with answered := s.answered ++ [reply] }

def pipeOwner (fd : Word) : Option Tid :=
  if 3 ≤ fd.toNat ∧ fd.toNat < threadMax + 3 then some (fd.toNat - 3) else none

/-- What the daemon does next. A `read` or `write` that was queued is made again; files
other than the pipes of threads are not modelled. -/
def daemonStep (s : FsSys) (result : Word) : Option FsSys :=
  match s.daemon with
  | .call replyFd request => do
      let t ← pipeOwner replyFd
      some { s with
        daemon := .write replyFd result, processed := s.processed ++ [⟨t, request, result⟩] }
  | .write replyFd result => do
      let t ← pipeOwner replyFd
      let w ← s.pipeWrite t (wordBytes result)
      let daemon := if w.restart then .write replyFd result else .readFileCmd
      some { s.setPipe t w with daemon }
  | d => do
      let size ← d.readSize
      let res ← s.pipeRead s.filesysd size
      let daemon := if res.restart then d else d.afterRead res.bytes
      some { s.setPipe s.filesysd res with daemon }

/-- A call goes on from its write to its first read without looking whether it was queued. -/
def step (s : FsSys) : FsEvent → Option FsSys
  | .request r =>
      if s.Executing ∧ s.running ≠ s.filesysd ∧ s.callers s.running = .outside then
        s.sendRequest r
      else none
  | .readReply =>
      match s.callers s.running with
      | .outside => none
      | .requested r => s.readReply r
      | .waiting r => if s.Executing then s.readReply r else none
  | .daemon result =>
      if s.Executing ∧ s.running = s.filesysd then s.daemonStep result else none
  | .background b =>
      (s.kernel.background
        (decide (s.running ≠ s.filesysd ∧ s.callers s.running = .outside)) b).map fun kernel =>
          { s with kernel }

/-- There is room for the whole request in the pipe of the daemon. -/
def RequestOk (s : FsSys) : FsEvent → Prop
  | .request r =>
      (r.bytes (threadPipeFd s.running)).length ≤ (s.pipes s.filesysd).fifo.kfifoAvail
  | _ => True

instance decidableRequestOk (s : FsSys) : (e : FsEvent) → Decidable (s.RequestOk e)
  | .request _ => inferInstanceAs (Decidable (_ ≤ _))
  | .readReply | .daemon _ | .background _ => inferInstanceAs (Decidable True)

def CanRun (s : FsSys) (t : Tid) : Prop :=
  (∃ p, t ∈ s.kernel.members (.ready p)) ∨ (s.running = t ∧ s.Executing)

/-- `PIPE_BUF` bytes and two wait lists, in blocking mode. -/
def threadPipe (t : Tid) (data : Nat → Byte) : Pipe :=
  ⟨Kfifo.kfifoInit data 1 PipeSys.pipeBuf, .pipeRead t, .pipeWrite t, 0#32⟩

/-- New pipes and no calls. The daemon may wait for its first command already. -/
structure Started (s : FsSys) : Prop where
  settled : s.kernel.Settled
  pipes : ∀ t, ∃ data, s.pipes t = threadPipe t data
  filesysd : s.kernel.Alive s.filesysd
  daemon : s.daemon = .readFileCmd
  outside : ∀ t, s.callers t = .outside
  logs : s.issued = [] ∧ s.processed = [] ∧ s.answered = []
  writers : ∀ t < threadMax, s.kernel.Alive t → s.kernel.members (.wait (.pipeWrite t)) = []
  readers : ∀ t < threadMax, s.kernel.Alive t → ∀ u ∈ s.kernel.members (.wait (.pipeRead t)),
    t = s.filesysd ∧ u = t ∧ (s.kernel.threads t).fileRequestSize = 4
  attends : s.filesysd ∈ s.kernel.members (.wait (.pipeRead s.filesysd)) ∨
    s.CanRun s.filesysd

def requestsOf (s : FsSys) (t : Tid) : List FsRequest :=
  (s.issued.filter (·.1 = t)).map Prod.snd

/-- The replies to a thread, in the order in which its requests were processed. -/
def processedFor (s : FsSys) (t : Tid) : List FsReply := s.processed.filter (·.thread = t)

def answeredTo (s : FsSys) (t : Tid) : List FsReply := s.answered.filter (·.thread = t)

/-- The daemon has its next piece of work: a `read` that is served, or no `read`. -/
def DaemonServed (s : FsSys) : Prop :=
  ∀ size ∈ s.daemon.readSize, size ≤ (s.pipes s.filesysd).fifo.kfifoLen

/-- The bytes in the pipes, and what the daemon makes of those it has read. -/
def work (s : FsSys) : Nat :=
  s.daemon.rank + ∑ t ∈ Finset.range threadMax, (s.pipes t).fifo.kfifoLen

/-- The step moves bytes or calls a function of the file system. -/
def Served (s : FsSys) : FsEvent → Prop
  | .readReply => 4 ≤ (s.pipes s.running).fifo.kfifoLen
  | .daemon _ => s.DaemonServed
  | .request _ | .background _ => False

/-- Every request is processed once, in the order of sending, its reply is read once, by the
thread that sent it. While a reply is outstanding somebody can run whose next step is served,
and each such step leaves less to do. -/
structure DeliversOnce (s : FsSys) : Prop where
  processed : s.processed.map (fun p => (p.thread, p.request)) <+: s.issued
  whole : s.daemon.consumed ++ (s.pipes s.filesysd).fifo.bytes =
    (s.issued.drop s.processed.length).flatMap fun i => i.2.bytes (threadPipeFd i.1)
  answered : ∀ t, s.answeredTo t <+: s.processedFor t
  outstanding : ∀ t, s.requestsOf t =
    (s.answeredTo t).map FsReply.request ++ (s.callers t).request.toList
  returned : ∀ t, s.callers t = .outside → s.processedFor t = s.answeredTo t
  progress : ∀ t r, (s.callers t).request = some r →
    (s.CanRun t ∧ 4 ≤ (s.pipes t).fifo.kfifoLen) ∨ (s.CanRun s.filesysd ∧ s.DaemonServed)
  served : ∀ e s', s.Served e → s.step e = some s' → s'.work < s.work
  waits : ∀ e s', (∀ r, e ≠ .request r) → s.step e = some s' → s'.work ≤ s.work

end FsSys

end Tenok
