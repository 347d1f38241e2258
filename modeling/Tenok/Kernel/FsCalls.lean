import Tenok.Fs.Rootfs
import Tenok.Kernel.Descriptors
import Tenok.Kernel.Replies
import Tenok.Kernel.TaskRuns

/-!
The system calls around the requests of the file system: what they make of the reply. Each
has its own copy of the loop that waits for it. Other threads change the tables of the
descriptors and the directories at any time.
-/
namespace Tenok
open Kernel

/-- The descriptors, and what is behind the entries of `files`. -/
structure FdTables where
  fds : DescTable
  fdtable : Nat → Fdtable
  files : Int → Option File
  ops : File → FileOps

/-- `DIR`; both fields are pointers. -/
structure Dir where
  inodeDir : Word
  dentryList : Word
  deriving DecidableEq, Repr

/-- A call that has sent its request, with what it still needs. -/
inductive FsCall
  | mknod (pathname : Word) (dev : Byte)
  | mkfifo (pathname : Word)
  | opendir (pathname dirp : Word)
  | openFile (pathname : Word) (task : Pid) (flags : Word)
  | mount (source target : Word)
  | getcwd (buf size : Word)
  | chdir (path : Word)
  deriving DecidableEq, Repr

def FsCall.request : FsCall → FsRequest
  | .mknod pathname dev => .createFile pathname dev
  | .mkfifo pathname => .createFile pathname (.ofNat 8 sIfifo)
  | .opendir pathname _ => .openDirectory pathname
  | .openFile pathname _ _ => .openFile pathname
  | .mount source target => .mount source target
  | .getcwd buf size => .getcwd buf size
  | .chdir path => .chdir path

/-- The calls that look at the length of their path first. -/
def FsCall.checksPath : FsCall → Bool
  | .mknod _ _ | .mkfifo _ | .opendir _ _ | .openFile _ _ _ => true
  | .mount _ _ | .getcwd _ _ | .chdir _ => false

/-- The task that `sys_open` has read before it waits. -/
def FsCall.task : FsCall → Option Pid
  | .openFile _ task _ => some task
  | .mknod _ _ | .mkfifo _ | .opendir _ _ | .mount _ _ | .getcwd _ _ | .chdir _ => none

def FdTables.sysOpenReply (t : FdTables) (task : Pid) (flags fileIdx : Word) :
    Option (FdTables × Except Errno Nat) :=
  if fileIdx = -1#32 then some (t, .error .enoent)
  else match t.fds.firstZero openMax with
    | none => some (t, .error .enomem)
    | some d => do
        let filp ← t.files fileIdx.toInt
        let t := { t with
          fds := t.fds.setBit task d true
          fdtable := Function.update t.fdtable d { file := filp, flags := flags } }
        if !(t.ops filp).open' then
          some ({ t with fds := t.fds.setBit task d false }, .error .enxio)
        else some (t, .ok (d + fileReservedNum))

/-- What a call returned, the reply that it read, and the tables before and after. -/
structure FsReturn where
  thread : Tid
  call : FsCall
  reply : Word
  result : Except Errno Nat
  before : FdTables
  after : FdTables
  dentryNext : Word → Word
  dirs : Word → Dir

structure FsCallSys where
  fs : FsSys
  tables : FdTables
  /-- `i_dentry.next` of the inode at an address. -/
  dentryNext : Word → Word
  /-- What the pointers of type `DIR *` point to. -/
  dirs : Word → Dir
  calls : Tid → Option FsCall
  returned : List FsReturn

inductive FsCallEvent
  | call (c : FsCall) (pathname : List Byte)
  | readReply
  | daemon (result : Word)
  | background (b : Background)
  | others (tables : FdTables) (dentryNext : Word → Word) (dirs : Word → Dir)

/-- What a task holds is in use. The bits of a task that is gone count as clear. -/
def FdTables.Held (t : FdTables) : Prop :=
  ∀ task d, t.fds.held task d = true → t.fds.bitmap d = true

namespace FsCallSys

/-- A call from the reply on. -1 is `-EPERM`. -/
def rest (s : FsCallSys) (reply : Word) :
    FsCall → Option (FdTables × (Word → Dir) × Except Errno Nat)
  | .mknod _ _ => some (s.tables, s.dirs, if reply = -1#32 then .error .eperm else .ok 0)
  | .mkfifo _ =>
      -- the reply was read into `tid`
      let fileIdx := 0#32
      some (s.tables, s.dirs, if fileIdx = -1#32 then .error .eperm else .ok 0)
  | .opendir _ dirp =>
      -- a null pointer is followed before it is looked at
      if reply = 0#32 then none
      else
        let dirs := Function.update s.dirs dirp ⟨reply, s.dentryNext reply⟩
        some (s.tables, dirs, if (dirs dirp).inodeDir = 0#32 then .error .enoent else .ok 0)
  | .openFile _ task flags =>
      (s.tables.sysOpenReply task flags reply).map fun r => (r.1, s.dirs, r.2)
  | .mount _ _ | .getcwd _ _ | .chdir _ => some (s.tables, s.dirs, .ok reply.toNat)

def finish (s : FsCallSys) (thread : Tid) (c : FsCall) (reply : Word) : Option FsCallSys := do
  let (tables, dirs, result) ← s.rest reply c
  let r := ⟨thread, c, reply, result, s.tables, tables, s.dentryNext, dirs⟩
  some { s with
    tables, dirs
    calls := Function.update s.calls thread none
    returned := s.returned ++ [r] }

def step (s : FsCallSys) : FsCallEvent → Option FsCallSys
  | .call c pathname =>
      if c.checksPath ∧ pathMax ≤ pathname.length then some s
      else if c.task.any (s.fs.kernel.currentTaskInfo ≠ some ·) then none
      else
        (s.fs.step (.request c.request)).map fun fs =>
          { s with fs, calls := Function.update s.calls s.fs.running (some c) }
  | .readReply => do
      let c ← s.calls s.fs.running
      let fs ← s.fs.step .readReply
      match fs.callers s.fs.running with
      | .outside =>
          let reply ← fs.answered.getLast?
          { s with fs }.finish s.fs.running c reply.result
      | _ => some { s with fs }
  | .daemon result => (s.fs.step (.daemon result)).map fun fs => { s with fs }
  | .background b => (s.fs.step (.background b)).map fun fs => { s with fs }
  | .others tables dentryNext dirs => some { s with tables, dentryNext, dirs }

/-- New pipes and no calls. -/
structure Started (s : FsCallSys) : Prop where
  fs : s.fs.Started
  calls : ∀ t, s.calls t = none
  returned : s.returned = []
  held : s.tables.Held

/-- What other calls keep of the descriptors. -/
def OthersOk : FsCallEvent → Prop
  | .others tables _ _ => tables.Held
  | _ => True

/-- There is room for the whole request in the pipe of the daemon. -/
def RequestOk (s : FsCallSys) : FsCallEvent → Prop
  | .call c _ => s.fs.RequestOk (.request c.request)
  | _ => True

instance decidableRequestOk (s : FsCallSys) : (e : FsCallEvent) → Decidable (s.RequestOk e)
  | .call c _ => inferInstanceAs (Decidable (s.fs.RequestOk (.request c.request)))
  | .readReply | .daemon _ | .background _ | .others _ _ _ => inferInstanceAs (Decidable True)

end FsCallSys

def FsReturn.toReply (r : FsReturn) : FsReply := ⟨r.thread, r.call.request, r.reply⟩

/-- `sys_open` binds the first free descriptor to the file with the index that was replied. With
no free descriptor, or for a file that cannot be opened, the bitmaps stay as they are. -/
def FsReturn.OpenReported (r : FsReturn) (task : Pid) (flags : Word) : Prop :=
  (r.reply = -1#32 → r.result = .error .enoent ∧ r.after.fds = r.before.fds) ∧
    (0 ≤ r.reply.toInt →
      match r.before.fds.firstZero openMax with
      | none => r.result = .error .enomem ∧ r.after.fds = r.before.fds
      | some d => ∃ filp, r.before.files r.reply.toInt = some filp ∧
          if (r.before.ops filp).open' then
            r.result = .ok (d + fileReservedNum) ∧
              r.after.fds = r.before.fds.setBit task d true ∧ r.after.fdtable d = ⟨filp, flags⟩
          else r.result = .error .enxio ∧ r.after.fds = r.before.fds)

/-- The result of a call goes with the reply. Of `mkfifo` and `opendir` only for a reply that
is no failure. -/
def FsReturn.Reported (r : FsReturn) : Prop :=
  match r.call with
  | .mknod _ _ =>
      (0 ≤ r.reply.toInt → r.result = .ok 0) ∧ (r.reply = -1#32 → r.result = .error .eperm)
  | .mkfifo _ => 0 ≤ r.reply.toInt → r.result = .ok 0
  | .opendir _ dirp =>
      r.reply ≠ 0#32 → r.result = .ok 0 ∧ r.dirs dirp = ⟨r.reply, r.dentryNext r.reply⟩
  | .openFile _ task flags => r.OpenReported task flags
  | .mount _ _ | .getcwd _ _ | .chdir _ => True

namespace FsCallSys

/-- A pass of the loop of a call, whose thread has the CPU: it waits for its own pipe and nothing
else changes, or the reply is there and the call returns. -/
structure Pass (s : FsCallSys) (c : FsCall) (s' : FsCallSys) : Prop where
  waits : (s.fs.pipes s.fs.running).fifo.kfifoLen < 4 →
    s' = { s with fs := { s.fs with
      kernel := Pipe.waitFor s.fs.kernel (.pipeRead s.fs.running) 4
      callers := Function.update s.fs.callers s.fs.running (.waiting c.request) } }
  returns : 4 ≤ (s.fs.pipes s.fs.running).fifo.kfifoLen → ∃ r, s'.returned = s.returned ++ [r] ∧
    r.thread = s.fs.running ∧ r.call = c ∧ (s.fs.pipes s.fs.running).fifo.bytes =
      wordBytes r.reply ++ (s'.fs.pipes s.fs.running).fifo.bytes

/-- The results so far go with the replies, which are those that the daemon's answers were, and
each call goes on reading its own pipe. -/
structure Reports (s : FsCallSys) : Prop where
  reported : ∀ r ∈ s.returned, r.Reported
  answered : s.returned.map FsReturn.toReply = s.fs.answered
  passes : ∀ c s', s.calls s.fs.running = some c → s.step .readReply = some s' → s.Pass c s'

/-- No null pointer is followed: what was replied is a directory, or a file that there is. -/
def Answerable (s : FsCallSys) (reply : Word) : FsCall → Prop
  | .opendir _ _ => reply ≠ 0#32
  | .openFile _ _ _ => reply ≠ -1#32 → (s.tables.files reply.toInt).isSome
  | _ => True

def Returns (s : FsCallSys) : Prop :=
  ∀ c reply unread, s.calls s.fs.running = some c → s.fs.Executing →
    (s.fs.pipes s.fs.running).fifo.bytes = wordBytes reply ++ unread → s.Answerable reply c →
    ∃ s', s.step .readReply = some s'

end FsCallSys

namespace FdTables
variable {t t' : FdTables} {task : Pid} {flags reply : Word} {d : Nat} {r : Except Errno Nat}

theorem Held.not_held (h : t.Held) (task : Pid) (hfree : t.fds.bitmap d = false) : t.fds.held task d = false :=
  Bool.eq_false_iff.mpr fun hheld => Bool.false_ne_true (hfree.symm.trans (h task d hheld))

theorem setBit_release (h : t.Held) (hfree : t.fds.bitmap d = false) :
    (t.fds.setBit task d true).setBit task d false = t.fds := by
  have hheld := h.not_held task hfree
  have hbits : Function.update t.fds.bitmap d false = t.fds.bitmap := by
    rw [← hfree, Function.update_eq_self]
  have hmine : Function.update (t.fds.held task) d false = t.fds.held task := by
    rw [← hheld, Function.update_eq_self]
  simp only [DescTable.setBit, Function.update_self, Function.update_idem, hbits, hmine,
    Function.update_eq_self]

theorem Held.setBit (h : t.Held) {tables : FdTables} (heq : tables.fds = t.fds.setBit task d true) :
    tables.Held := by
  intro p e hheld
  rw [heq, DescTable.setBit_held] at hheld
  rw [heq, DescTable.setBit_bitmap]
  split at hheld
  · next hde => rw [hde.2, Function.update_self]
  · by_cases he : e = d
    · rw [he, Function.update_self]
    · rw [Function.update_of_ne he]
      exact h p e hheld

theorem sysOpenReply_cases (h : t.sysOpenReply task flags reply = some (t', r)) :
    (reply = -1#32 ∧ r = .error .enoent ∧ t' = t) ∨
    (reply ≠ -1#32 ∧ t.fds.firstZero openMax = none ∧ r = .error .enomem ∧ t' = t) ∨
    ∃ d filp, reply ≠ -1#32 ∧ t.fds.firstZero openMax = some d ∧
      t.files reply.toInt = some filp ∧
      (((t.ops filp).open' = true ∧ r = .ok (d + fileReservedNum) ∧
          t'.fds = t.fds.setBit task d true ∧ t'.fdtable d = ⟨filp, flags⟩) ∨
        ((t.ops filp).open' = false ∧ r = .error .enxio ∧
          t'.fds = (t.fds.setBit task d true).setBit task d false)) := by
  rw [sysOpenReply] at h
  split at h
  · next hreply =>
      obtain ⟨rfl, rfl⟩ := Prod.mk.inj (Option.some.inj h)
      exact Or.inl ⟨hreply, rfl, rfl⟩
  · next hreply =>
      split at h
      · next hfull =>
          obtain ⟨rfl, rfl⟩ := Prod.mk.inj (Option.some.inj h)
          exact Or.inr (Or.inl ⟨hreply, hfull, rfl, rfl⟩)
      · next d hd =>
          obtain ⟨filp, hfilp, h⟩ := Option.bind_eq_some_iff.mp h
          refine Or.inr (Or.inr ⟨d, filp, hreply, hd, hfilp, ?_⟩)
          cases hopen : (t.ops filp).open' with
          | true =>
              simp only [hopen, Bool.not_true, Bool.false_eq_true, if_false, Option.some.injEq,
                Prod.mk.injEq] at h
              obtain ⟨rfl, rfl⟩ := h
              exact Or.inl ⟨rfl, rfl, rfl, Function.update_self ..⟩
          | false =>
              simp only [hopen, Bool.not_false, if_true, Option.some.injEq, Prod.mk.injEq] at h
              obtain ⟨rfl, rfl⟩ := h
              exact Or.inr ⟨rfl, rfl, rfl⟩

end FdTables

namespace FsSys
variable {s s' : FsSys} {r : FsRequest} {result : Word} {b : Background}

theorem step_request (hw : ∀ t, Wired t (s.pipes t)) (hstep : s.step (.request r) = some s') :
    (∀ t, Wired t (s'.pipes t)) ∧ s'.answered = s.answered ∧
      s'.callers = Function.update s.callers s.running (.requested r) := by
  obtain ⟨-, hsend⟩ := Option.ite_none_right_eq_some.mp hstep
  obtain ⟨w, hw', hs'⟩ := Option.bind_eq_some_iff.mp hsend
  obtain rfl := Option.some.inj hs'
  exact ⟨(pipeWrite_transfer (hw _) hw').1.setPipe_wired hw, rfl, rfl⟩

theorem step_daemon (hw : ∀ t, Wired t (s.pipes t)) (hstep : s.step (.daemon result) = some s') :
    (∀ t, Wired t (s'.pipes t)) ∧ s'.answered = s.answered ∧ s'.callers = s.callers := by
  obtain ⟨-, hpass⟩ := Option.ite_none_right_eq_some.mp hstep
  cases hd : s.daemon with
  | call fd r =>
      simp only [daemonStep, hd, Option.bind_eq_bind, Option.bind_eq_some_iff] at hpass
      obtain ⟨t, -, hs'⟩ := hpass
      obtain rfl := Option.some.inj hs'
      exact ⟨hw, rfl, rfl⟩
  | write fd reply =>
      simp only [daemonStep, hd, Option.bind_eq_bind, Option.bind_eq_some_iff] at hpass
      obtain ⟨t, -, w, hw', hs'⟩ := hpass
      obtain rfl := Option.some.inj hs'
      exact ⟨(pipeWrite_transfer (hw _) hw').1.setPipe_wired hw, rfl, rfl⟩
  | readFileCmd | readReplyFd fileCmd | readPath fileCmd replyFd | readLast fileCmd replyFd path =>
      obtain ⟨n, hsize⟩ : ∃ n, s.daemon.readSize = some n := by simp [hd, Filesysd.readSize]
      rw [daemonStep_read hsize] at hpass
      obtain ⟨res, hres, rfl⟩ := Option.map_eq_some_iff.mp hpass
      exact ⟨(pipeRead_transfer (hw _) hres).setPipe_wired hw, rfl, rfl⟩

theorem step_background (hw : ∀ t, Wired t (s.pipes t))
    (hstep : s.step (.background b) = some s') :
    (∀ t, Wired t (s'.pipes t)) ∧ s'.answered = s.answered ∧ s'.callers = s.callers := by
  obtain ⟨k, -, rfl⟩ := Option.map_eq_some_iff.mp hstep
  exact ⟨hw, rfl, rfl⟩

theorem step_readReply (hw : ∀ t, Wired t (s.pipes t))
    (hrequest : (s.callers s.running).request = some r) (hstep : s.step .readReply = some s') :
    (∀ t, Wired t (s'.pipes t)) ∧
      (((s.pipes s.running).fifo.kfifoLen < 4 ∧
        s' = { s with
          kernel := Pipe.waitFor s.kernel (.pipeRead s.running) 4
          callers := Function.update s.callers s.running (.waiting r) }) ∨
      ∃ reply, 4 ≤ (s.pipes s.running).fifo.kfifoLen ∧
        (s.pipes s.running).fifo.bytes =
          wordBytes reply ++ (s'.pipes s.running).fifo.bytes ∧
        s'.callers = Function.update s.callers s.running .outside ∧
        s'.answered = s.answered ++ [⟨s.running, r, reply⟩]) := by
  have hread : s.readReply r = some s' := by
    simp only [step] at hstep
    split at hstep
    · cases hstep
    · next r' hcaller =>
        rw [hcaller] at hrequest
        exact Option.some.inj hrequest ▸ hstep
    · next r' hcaller =>
        rw [hcaller] at hrequest
        exact Option.some.inj hrequest ▸ (Option.ite_none_right_eq_some.mp hstep).2
  obtain ⟨hlt, rfl⟩ | ⟨res, hle, hwired, hlen, hbytes, -, rfl⟩ := readReply_cases (hw _) hread
  · exact ⟨hw, Or.inl ⟨hlt, rfl⟩⟩
  · refine ⟨fun t => ?_, Or.inr ⟨wordOf res.bytes, hle, ?_, rfl, rfl⟩⟩
    · change Wired t (Function.update s.pipes s.running res.pipe t)
      by_cases ht : t = s.running
      · rw [ht, Function.update_self]
        exact hwired
      · rw [Function.update_of_ne ht]
        exact hw t
    · rw [wordBytes_wordOf hlen, hbytes]
      change res.bytes ++ res.pipe.fifo.bytes =
        res.bytes ++ (Function.update s.pipes s.running res.pipe s.running).fifo.bytes
      rw [Function.update_self]

theorem readReply_isSome {L : SchedList → List Tid} (r : FsRequest)
    (hw : Wired s.running (s.pipes s.running)) (hT : s.kernel.Threaded {t | s.kernel.Alive t} L)
    (halive : s.kernel.Alive s.running) (hlen : 4 ≤ (s.pipes s.running).fifo.kfifoLen) :
    ∃ s', s.readReply r = some s' := by
  have hqueue : SchedList.wait (.pipeWrite s.running) ∈ inUse {t | s.kernel.Alive t} :=
    fun t ht => Option.some.inj ht ▸ halive
  obtain ⟨k', L', hk', -⟩ := hT.fifoWakeUp hqueue
  have hread : ∃ res, s.pipeRead s.running 4 = some res := by
    simp only [pipeRead, Pipe.fifoRead, if_neg (Nat.not_lt_of_le hlen), Pipe.readBytes,
      hw.wWaitList]
    exact ⟨_, by rw [hk']; rfl⟩
  obtain ⟨res, hres⟩ := hread
  simp only [readReply, hres, Option.bind_eq_bind, Option.bind_some]
  split <;> exact ⟨_, rfl⟩

end FsSys

theorem ne_of_index {reply : Word} (h : 0 ≤ reply.toInt) : reply ≠ -1#32 := by
  rintro rfl
  exact absurd h (by decide)

namespace FsCallSys
variable {s s' : FsCallSys} {c : FsCall} {reply : Word} {t : Tid} {e : FsCallEvent}
  {tables : FdTables} {dirs : Word → Dir} {result : Except Errno Nat}

theorem rest_reported (hheld : s.tables.Held) (h : s.rest reply c = some (tables, dirs, result)) :
    FsReturn.Reported ⟨t, c, reply, result, s.tables, tables, s.dentryNext, dirs⟩ ∧
      tables.Held := by
  cases c with
  | mknod pathname dev =>
      obtain ⟨rfl, rfl, rfl⟩ := by simpa [rest] using h
      exact ⟨⟨fun hindex => if_neg (ne_of_index hindex), fun hfail => if_pos hfail⟩, hheld⟩
  | mkfifo pathname =>
      obtain ⟨rfl, rfl, rfl⟩ := by simpa [rest] using h
      exact ⟨fun _ => rfl, hheld⟩
  | opendir pathname dirp =>
      rw [rest] at h
      split at h
      · cases h
      · next hreply =>
          simp only [Function.update_self, if_neg hreply, Option.some.injEq,
            Prod.mk.injEq] at h
          obtain ⟨rfl, rfl, rfl⟩ := h
          exact ⟨fun _ => ⟨rfl, Function.update_self ..⟩, hheld⟩
  | openFile pathname task flags =>
      obtain ⟨⟨tables', r⟩, hopen, heq⟩ := Option.map_eq_some_iff.mp h
      obtain ⟨rfl, -, rfl⟩ := by simpa using heq
      obtain ⟨hreply, rfl, rfl⟩ | ⟨hreply, hfull, rfl, rfl⟩ | ⟨d, filp, hreply, hd, hfilp, hcases⟩ :=
        FdTables.sysOpenReply_cases hopen
      · exact ⟨⟨fun _ => ⟨rfl, rfl⟩, fun hindex => absurd hreply (ne_of_index hindex)⟩, hheld⟩
      · refine ⟨⟨fun hfail => absurd hfail hreply, fun _ => ?_⟩, hheld⟩
        simp only [hfull, and_self]
      · have hfree := DescTable.firstZero_free hd
        obtain ⟨hop, rfl, hfds, hentry⟩ | ⟨hop, rfl, hfds⟩ := hcases
        · refine ⟨⟨fun hfail => absurd hfail hreply, fun _ => ?_⟩, hheld.setBit hfds⟩
          simp only [hd]
          exact ⟨filp, hfilp, by rw [if_pos hop]; exact ⟨trivial, hfds, hentry⟩⟩
        · rw [FdTables.setBit_release hheld hfree] at hfds
          refine ⟨⟨fun hfail => absurd hfail hreply, fun _ => ?_⟩, ?_⟩
          · simp only [hd]
            exact ⟨filp, hfilp, by rw [if_neg (by simp [hop])]; exact ⟨trivial, hfds⟩⟩
          · intro p e
            rw [hfds]
            exact hheld p e
  | mount source target | getcwd buf size | chdir path =>
      obtain ⟨rfl, rfl, rfl⟩ := by simpa [rest] using h
      exact ⟨trivial, hheld⟩

theorem rest_isSome (h : s.Answerable reply c) : (s.rest reply c).isSome := by
  cases c with
  | mknod _ _ | mkfifo _ | mount _ _ | getcwd _ _ | chdir _ => rfl
  | opendir pathname dirp =>
      have hne : reply ≠ 0#32 := h
      simp [rest, hne]
  | openFile pathname task flags =>
      rw [rest, Option.isSome_map, FdTables.sysOpenReply]
      split
      · rfl
      · next hfound =>
          obtain ⟨filp, hfilp⟩ := Option.isSome_iff_exists.mp (h hfound)
          split
          · rfl
          · simp only [hfilp, Option.bind_eq_bind, Option.bind_some]
            split <;> rfl

/-- What every step keeps. -/
structure Inv (s : FsCallSys) : Prop where
  wired : ∀ t, Wired t (s.fs.pipes t)
  calls : ∀ t, (s.fs.callers t).request = (s.calls t).map FsCall.request
  answered : s.returned.map FsReturn.toReply = s.fs.answered
  held : s.tables.Held
  reported : ∀ r ∈ s.returned, r.Reported

theorem Inv.of_started (h : s.Started) : s.Inv where
  wired t := by
    obtain ⟨data, hdata⟩ := h.fs.pipes t
    exact hdata ▸ threadPipe_wired t data
  calls t := by rw [h.fs.outside, h.calls]; rfl
  answered := by rw [h.returned, h.fs.logs.2.2]; rfl
  held := h.held
  reported := by simp [h.returned]

theorem request_update {callers : Tid → Caller} {calls : Tid → Option FsCall} {caller : Caller}
    {call : Option FsCall} (u : Tid) (h : ∀ t, (callers t).request = (calls t).map FsCall.request)
    (hu : caller.request = call.map FsCall.request) (t : Tid) :
    (Function.update callers u caller t).request =
      (Function.update calls u call t).map FsCall.request := by
  by_cases ht : t = u
  · rw [ht, Function.update_self, Function.update_self, hu]
  · rw [Function.update_of_ne ht, Function.update_of_ne ht, h]

/-- A pass of the loop of a call keeps the invariant, and is one of the two that it may be. -/
theorem Inv.readReply (h : s.Inv) (hcall : s.calls s.fs.running = some c)
    (hstep : s.step .readReply = some s') : s'.Inv ∧ s.Pass c s' := by
  have hrequest : (s.fs.callers s.fs.running).request = some c.request := by
    rw [h.calls, hcall]
    rfl
  simp only [step, hcall, Option.bind_eq_bind, Option.bind_some, Option.bind_eq_some_iff] at hstep
  obtain ⟨fs, hfs, hstep⟩ := hstep
  obtain ⟨hwired, ⟨hlt, rfl⟩ | ⟨reply, hle, hbytes, hcallers, hanswered⟩⟩ :=
    FsSys.step_readReply h.wired hrequest hfs
  · simp only [Function.update_self, Option.some.injEq] at hstep
    subst hstep
    refine ⟨⟨h.wired, fun t => ?_, h.answered, h.held, h.reported⟩, fun _ => rfl, fun hle => ?_⟩
    · have hsame := request_update s.fs.running h.calls
        (show (Caller.waiting c.request).request = (s.calls s.fs.running).map FsCall.request by
          rw [hcall]; rfl) t
      rwa [Function.update_eq_self] at hsame
    · exact absurd hlt (Nat.not_lt_of_le hle)
  · simp only [hcallers, Function.update_self, hanswered, List.getLast?_concat, Option.bind_some,
      finish, Option.bind_eq_bind, Option.bind_eq_some_iff] at hstep
    obtain ⟨⟨tables, dirs, result⟩, hrest, hs'⟩ := hstep
    obtain rfl := Option.some.inj hs'
    obtain ⟨hreported, hheld⟩ := rest_reported (t := s.fs.running) h.held hrest
    refine ⟨⟨hwired, fun t => ?_, ?_, hheld, ?_⟩, fun hlt => ?_, fun _ => ?_⟩
    · rw [hcallers]
      exact request_update s.fs.running h.calls rfl t
    · rw [List.map_append, h.answered, hanswered]
      rfl
    · intro r hr
      obtain hr | hr := List.mem_append.mp hr
      · exact h.reported r hr
      · rw [List.mem_singleton.mp hr]
        exact hreported
    · exact absurd hlt (Nat.not_lt_of_le hle)
    · exact ⟨_, rfl, rfl, rfl, hbytes⟩

theorem Inv.step (h : s.Inv) (hothers : OthersOk e) (hstep : s.step e = some s') : s'.Inv := by
  cases e with
  | call c pathname =>
      simp only [FsCallSys.step] at hstep
      split at hstep
      · exact Option.some.inj hstep ▸ h
      · obtain ⟨fs, hfs, rfl⟩ :=
          Option.map_eq_some_iff.mp (Option.ite_none_left_eq_some.mp hstep).2
        obtain ⟨hwired, hanswered, hcallers⟩ := FsSys.step_request h.wired hfs
        refine ⟨hwired, fun t => ?_, h.answered.trans hanswered.symm, h.held, h.reported⟩
        rw [hcallers]
        exact request_update s.fs.running h.calls rfl t
  | readReply =>
      cases hcall : s.calls s.fs.running with
      | none =>
          rw [FsCallSys.step, hcall] at hstep
          cases hstep
      | some c => exact (h.readReply hcall hstep).1
  | daemon result =>
      obtain ⟨fs, hfs, rfl⟩ := Option.map_eq_some_iff.mp hstep
      obtain ⟨hwired, hanswered, hcallers⟩ := FsSys.step_daemon h.wired hfs
      exact ⟨hwired, fun t => by rw [hcallers]; exact h.calls t,
        h.answered.trans hanswered.symm, h.held, h.reported⟩
  | background b =>
      obtain ⟨fs, hfs, rfl⟩ := Option.map_eq_some_iff.mp hstep
      obtain ⟨hwired, hanswered, hcallers⟩ := FsSys.step_background h.wired hfs
      exact ⟨hwired, fun t => by rw [hcallers]; exact h.calls t,
        h.answered.trans hanswered.symm, h.held, h.reported⟩
  | others tables dentryNext dirs =>
      obtain rfl := Option.some.inj hstep
      exact ⟨h.wired, h.calls, h.answered, hothers, h.reported⟩

theorem Inv.reports (h : s.Inv) : s.Reports where
  reported := h.reported
  answered := h.answered
  passes _ _ hcall hstep := (h.readReply hcall hstep).2

theorem step_sound (h : s.fs.Sound) (hok : s.RequestOk e) (hstep : s.step e = some s') :
    s'.fs.Sound := by
  cases e with
  | call c pathname =>
      simp only [step] at hstep
      split at hstep
      · exact Option.some.inj hstep ▸ h
      · obtain ⟨fs, hfs, rfl⟩ :=
          Option.map_eq_some_iff.mp (Option.ite_none_left_eq_some.mp hstep).2
        exact (h.step (e := .request c.request) hok hfs).1
  | readReply =>
      simp only [step, Option.bind_eq_bind, Option.bind_eq_some_iff] at hstep
      obtain ⟨c, -, fs, hfs, hstep⟩ := hstep
      have hsound := (h.step (e := .readReply) trivial hfs).1
      split at hstep
      · obtain ⟨reply, -, hfinish⟩ := Option.bind_eq_some_iff.mp hstep
        obtain ⟨r, -, hs'⟩ := Option.bind_eq_some_iff.mp hfinish
        exact Option.some.inj hs' ▸ hsound
      · exact Option.some.inj hstep ▸ hsound
  | daemon result =>
      obtain ⟨fs, hfs, rfl⟩ := Option.map_eq_some_iff.mp hstep
      exact (h.step (e := .daemon result) trivial hfs).1
  | background b =>
      obtain ⟨fs, hfs, rfl⟩ := Option.map_eq_some_iff.mp hstep
      exact (h.step (e := .background b) trivial hfs).1
  | others tables dentryNext dirs => exact Option.some.inj hstep ▸ h

theorem Inv.returns (h : s.Inv) (hsound : s.fs.Sound) : s.Returns := by
  intro c reply unread hcall hst hbytes hanswerable
  obtain ⟨L, pending, hnet, -⟩ := hsound
  have hrequest : (s.fs.callers s.fs.running).request = some c.request := by
    rw [h.calls, hcall]
    rfl
  have hlen : 4 ≤ (s.fs.pipes s.fs.running).fifo.kfifoLen := by
    rw [← Pipe.length_bytes, hbytes, List.length_append, length_wordBytes]
    exact Nat.le_add_right 4 _
  have hread : ∃ fs, s.fs.step .readReply = some fs := by
    have halive := (hnet.steady.threaded.running _ hst).2
    obtain ⟨fs, hfs⟩ := FsSys.readReply_isSome c.request (h.wired _) hnet.steady.threaded halive hlen
    refine ⟨fs, ?_⟩
    cases hcaller : s.fs.callers s.fs.running with
    | outside =>
        rw [hcaller] at hrequest
        cases hrequest
    | requested r =>
        rw [hcaller] at hrequest
        obtain rfl := Option.some.inj hrequest
        simpa [FsSys.step, hcaller] using hfs
    | waiting r =>
        rw [hcaller] at hrequest
        obtain rfl := Option.some.inj hrequest
        simpa [FsSys.step, hcaller, hst] using hfs
  obtain ⟨fs, hfs⟩ := hread
  obtain ⟨-, ⟨hlt, -⟩ | ⟨reply', -, hbytes', hcallers, hanswered⟩⟩ :=
    FsSys.step_readReply h.wired hrequest hfs
  · exact absurd hlt (Nat.not_lt_of_le hlen)
  · obtain ⟨rfl, -⟩ := wordBytes_append (hbytes.symm.trans hbytes')
    obtain ⟨x, hx⟩ := Option.isSome_iff_exists.mp
      (show (rest { s with fs } reply c).isSome from rest_isSome hanswerable)
    simp only [FsCallSys.step, hcall, hfs, hcallers, hanswered, Option.bind_eq_bind, Option.bind_some,
      Function.update_self, List.getLast?_concat, finish, hx]
    exact ⟨_, rfl⟩

/-- In every run, whatever other threads do, the calls report the daemon's answers; and where
every request finds room, each of them is answered once and its call returns. -/
theorem reports_of_run {s₀ : FsCallSys} {es : List FsCallEvent} (hstart : s₀.Started)
    (hothers : ∀ e ∈ es, OthersOk e) (hrun : Runs.exec step s₀ es = some s) :
    s.Reports ∧ (Runs.AllOk RequestOk step s₀ es → s.fs.DeliversOnce ∧ s.Returns) := by
  have hinv : s.Inv := Runs.exec_invariant (fun _ _ _ h hok hstep => Inv.step h hok hstep)
    (Inv.of_started hstart) (Runs.allOk_of_forall fun e he _ => hothers e he) hrun
  refine ⟨hinv.reports, fun hok => ?_⟩
  have hsound : s.fs.Sound := Runs.exec_invariant (I := fun s => s.fs.Sound)
    (fun _ _ _ h hok hstep => step_sound h hok hstep) (FsSys.Sound.of_started hstart.fs) hok hrun
  exact ⟨hsound.deliversOnce, hinv.returns hsound⟩

/-- Every entry of `files` has a file, and these descriptors are in use. -/
def callsOn (bitmap : Nat → Bool) : FsCallSys where
  fs := FsSys.fsOn (FsSys.kernelAfter FsSys.daemonRun)
  tables := ⟨⟨bitmap, fun _ _ => false⟩, fun _ => ⟨0, 0#32⟩, fun _ => some 0, fun _ => {}⟩
  dentryNext _ := 0#32
  dirs _ := ⟨0#32, 0#32⟩
  calls _ := none
  returned := []

theorem callsOn_started (bitmap : Nat → Bool) : (callsOn bitmap).Started where
  fs := FsSys.fsOn_started (FsSys.kernelAfter_settled (by decide +kernel) (by decide +kernel)
    (by decide +kernel) (by decide +kernel)) (by decide +kernel) (by decide +kernel)
    (by decide +kernel) (by decide +kernel)
  calls _ := rfl
  returned := rfl
  held _ _ hheld := nomatch hheld

/-- Init opens `/`, and the daemon answers with entry 3 of `files`. -/
def openThird : List FsCallEvent :=
  [.call (.openFile 7#32 0 0#32) [47#8], .readReply, .background .schedule, .daemon 0#32,
    .daemon 0#32, .daemon 0#32, .daemon 3#32, .daemon 0#32, .daemon 0#32, .background .schedule,
    .readReply]

theorem openThird_othersOk : ∀ e ∈ openThird, OthersOk e := by
  simp [openThird, OthersOk]

theorem reports_of_run_at_third : ∃ s,
    Runs.exec step (callsOn fun _ => false) openThird = some s ∧
      s.returned.map (·.result) = [.ok fileReservedNum] ∧ s.Reports ∧ s.fs.DeliversOnce := by
  have hok : Runs.AllOk RequestOk step (callsOn fun _ => false) openThird := by decide +kernel
  have hrun : (Runs.exec step (callsOn fun _ => false) openThird).map (fun s =>
      s.returned.map (·.result)) = some [.ok fileReservedNum] := by decide +kernel
  obtain ⟨s, hs, hresult⟩ := Option.map_eq_some_iff.mp hrun
  obtain ⟨hreports, hdelivers⟩ := reports_of_run (callsOn_started _) openThird_othersOk hs
  exact ⟨s, hs, hresult, hreports, (hdelivers hok).1⟩

/-- With no free descriptor the file that was found is not opened. -/
theorem open_not_with_full_table : ∃ s,
    Runs.exec step (callsOn fun _ => true) openThird = some s ∧
      s.returned.map (fun r => (r.call, r.reply, r.result)) =
        [(.openFile 7#32 0 0#32, 3#32, .error .enomem)] := by
  have hrun : (Runs.exec step (callsOn fun _ => true) openThird).map (fun s =>
      s.returned.map fun r => (r.call, r.reply, r.result)) =
        some [(.openFile 7#32 0 0#32, 3#32, .error .enomem)] := by decide +kernel
  exact Option.map_eq_some_iff.mp hrun

end FsCallSys

end Tenok
