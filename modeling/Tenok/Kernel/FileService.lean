import Tenok.Fs.CreatedFiles
import Tenok.Kernel.FilesysdRuns
import Tenok.Lib.SharedObject

/-!
The file system as its callers see it. The threads send pointers through pipes, the daemon calls the
functions of the file system on what they point to; to the threads this is one object that serves
each of their calls at once.
-/
namespace Tenok
open Kernel SharedObject

namespace FsSys
variable {s s' : FsSys} {r : FsRequest} {t : Tid} {fd result : Word}

theorem sendRequest_spec (h : s.sendRequest r = some s') :
    s'.callers = Function.update s.callers s.running (.requested r) ∧
      s'.processed = s.processed ∧ s'.answered = s.answered := by
  obtain ⟨w, -, h⟩ := Option.bind_eq_some_iff.mp h
  obtain rfl := Option.some.inj h
  exact ⟨rfl, rfl, rfl⟩

theorem readReply_spec (h : s.readReply r = some s') :
    s'.processed = s.processed ∧
      ((s'.callers = Function.update s.callers s.running (.waiting r) ∧
          s'.answered = s.answered) ∨
        ∃ result, s'.callers = Function.update s.callers s.running .outside ∧
          s'.answered = s.answered ++ [⟨s.running, r, result⟩]) := by
  obtain ⟨res, -, h⟩ := Option.bind_eq_some_iff.mp h
  cases hret : res.retval with
  | error e =>
      simp only [hret, Option.some.injEq] at h
      subst h
      exact ⟨rfl, Or.inl ⟨rfl, rfl⟩⟩
  | ok n =>
      simp only [hret, Option.some.injEq] at h
      subst h
      exact ⟨rfl, Or.inr ⟨_, rfl, rfl⟩⟩

theorem daemonStep_spec (h : s.daemonStep result = some s') :
    s'.callers = s.callers ∧ s'.answered = s.answered ∧
      ((∃ fd r t, s.daemon = .call fd r ∧ pipeOwner fd = some t ∧
          s'.processed = s.processed ++ [⟨t, r, result⟩]) ∨
        (∀ fd r, s.daemon ≠ .call fd r) ∧ s'.processed = s.processed) := by
  cases hd : s.daemon with
  | readFileCmd | readReplyFd fileCmd | readPath fileCmd replyFd | readLast fileCmd replyFd path =>
      rw [daemonStep_read (by rw [hd, Filesysd.readSize])] at h
      obtain ⟨res, -, rfl⟩ := Option.map_eq_some_iff.mp h
      exact ⟨rfl, rfl, Or.inr ⟨by simp, rfl⟩⟩
  | call fd r =>
      simp only [daemonStep, hd] at h
      obtain ⟨t, ht, h⟩ := Option.bind_eq_some_iff.mp h
      obtain rfl := Option.some.inj h
      exact ⟨rfl, rfl, Or.inl ⟨fd, r, t, rfl, ht, rfl⟩⟩
  | write fd result =>
      simp only [daemonStep, hd] at h
      obtain ⟨t, -, h⟩ := Option.bind_eq_some_iff.mp h
      obtain ⟨w, -, h⟩ := Option.bind_eq_some_iff.mp h
      obtain rfl := Option.some.inj h
      exact ⟨rfl, rfl, Or.inr ⟨by simp, rfl⟩⟩

/-- The thread whose request the daemon processes is waiting, and has no reply under way. -/
theorem Sound.processes (hs : s.Sound) (hd : s.daemon = .call fd r)
    (ht : pipeOwner fd = some t) :
    (s.callers t).request = some r ∧ s.processedFor t = s.answeredTo t := by
  obtain ⟨L, pending, -, h⟩ := hs
  obtain ⟨u, rest, rfl, rfl, -, hlt, -⟩ := h.call hd
  obtain rfl : u = t := Option.some.inj ((pipeOwner_threadPipeFd hlt).symm.trans ht)
  obtain ⟨l, hl, -⟩ := h.unread u
  have hrequest := h.unanswered hl
  rw [List.filter_cons_of_pos (by simp), List.map_cons] at hrequest
  cases hc : (s.callers u).request with
  | none => simp [hc] at hrequest
  | some r' =>
      rw [hc, Option.toList_some] at hrequest
      obtain hnil | ⟨p, rfl, -⟩ := h.reply_cases hl
      · subst hnil
        obtain ⟨rfl, -⟩ := List.cons.inj hrequest
        exact ⟨rfl, by rw [hl, List.append_nil]⟩
      · simp at hrequest

theorem Sound.reads {p : FsReply} (hs : s'.Sound) (hprocessed : s'.processed = s.processed)
    (hanswered : s'.answered = s.answered ++ [p]) :
    ∃ l, s.processedFor p.thread = s.answeredTo p.thread ++ p :: l := by
  obtain ⟨l, hl⟩ := hs.deliversOnce.answered p.thread
  rw [answeredTo_append hanswered, List.filter_cons_of_pos (by simp), List.filter_nil,
    processedFor, hprocessed, List.append_assoc] at hl
  exact ⟨l, hl.symm⟩

end FsSys

/-- A request with the strings that its pointers point to. -/
inductive FileCall
  | createFile (path : List Byte) (fileType : Nat)
  | openFile (path : List Byte)
  | openDirectory (path : List Byte)
  | mount (source target : List Byte)
  | getcwd (buf len : Word)
  | chdir (path : List Byte)
  deriving DecidableEq, Repr

def FsRequest.fileCall (strings : Word → List Byte) : FsRequest → FileCall
  | .createFile path fileType => .createFile (strings path) fileType.toNat
  | .openFile path => .openFile (strings path)
  | .openDirectory path => .openDirectory (strings path)
  | .mount source target => .mount (strings source) (strings target)
  | .getcwd path len => .getcwd path len
  | .chdir path => .chdir (strings path)

/-- What the functions of the file system work on. -/
structure Files where
  rootfs : Rootfs
  shellDirCurr : Nat
  /-- The strings that `fs_getcwd` has written, by the buffers. -/
  buffers : Word → List Byte

/-- What a call depends on besides: bounds for the loops, whether there is memory for a new file, and
what the device to be mounted has on it. -/
structure FileEnv where
  passes : Nat
  depth : Nat
  memory : Bool
  storage : Storage

namespace Files

/-- A file descriptor, or -1. -/
def fdWord : Option Nat → Word
  | none => -1#32
  | some fd => BitVec.ofNat 32 fd

def inodeWord (s : Rootfs) : Option Nat → Word
  | none => 0#32
  | some ino => BitVec.ofNat 32 (s.sInoAddr + sizeofInode * ino)

def mountAnswer (s : Rootfs) (passes : Nat) (source target : List Byte) (memory : Bool) :
    Option Word := do
  let device ← s.fsOpenFile passes source memory
  match device.result with
  | none => some (-1#32)
  | some _ => do
      let directory ← device.rootfs.fsOpenDirectory passes target
      some (if directory.result.isNone then -1#32 else 0#32)

/-- `snprintf` to a buffer of `len` bytes writes nothing if there are none. -/
def putCwd (f : Files) (buf len : Word) (depth : Nat) : Option (Word → List Byte) :=
  if len = 0#32 then some f.buffers
  else (f.rootfs.fsGetcwd depth f.shellDirCurr len.toNat).map (Function.update f.buffers buf)

/-- The answer of a function of the file system and what it leaves; `none` if it does not end or
accesses what is not there. -/
def serve (env : FileEnv) (f : Files) : FileCall → Option (Word × Files)
  | .createFile path fileType =>
      (f.rootfs.fsCreateFile env.passes path fileType env.memory).map fun w =>
        (fdWord w.result, { f with rootfs := w.rootfs })
  | .openFile path =>
      (f.rootfs.fsOpenFile env.passes path env.memory).map fun w =>
        (fdWord w.result, { f with rootfs := w.rootfs })
  | .openDirectory path =>
      (f.rootfs.fsOpenDirectory env.passes path).map fun w =>
        (inodeWord w.rootfs w.result, { f with rootfs := w.rootfs })
  | .mount source target => do
      let result ← mountAnswer f.rootfs env.passes source target env.memory
      let rootfs ← f.rootfs.fsMount env.passes env.storage source target env.memory
      some (result, { f with rootfs })
  | .getcwd buf len =>
      (f.putCwd buf len env.depth).map fun buffers => (buf, { f with buffers })
  | .chdir path => do
      match ← f.rootfs.fsChdir env.depth env.passes f.shellDirCurr path with
      | .overflow => none
      | .returned rootfs shellDirCurr retval =>
          some (BitVec.ofInt 32 retval, { f with rootfs, shellDirCurr })

/-- The file system as a sequential object, for calls that meet a condition. -/
def spec (ok : Files → FileCall → Prop) (f : Files) (c : FileCall) (result : Word) (f' : Files) :
    Prop :=
  ok f c ∧ ∃ env, f.serve env c = some (result, f')

end Files

/-- The daemon with its callers, the file system, and the calls and returns so far. -/
structure FileService where
  sys : FsSys
  files : Files
  /-- The strings in memory, by their addresses. -/
  strings : Word → List Byte
  history : List (Action Tid FileCall Word)

inductive FileServiceEvent
  | request (r : FsRequest)
  | readReply
  | daemon (env : FileEnv)
  | background (b : Background)
  /-- Something writes to memory. -/
  | store (strings : Word → List Byte)

namespace FileService

def step (s : FileService) : FileServiceEvent → Option FileService
  | .request r => (s.sys.step (.request r)).map fun sys =>
      { s with sys, history := s.history ++ [.call s.sys.running (r.fileCall s.strings)] }
  | .readReply => (s.sys.step .readReply).map fun sys =>
      let replies := sys.answered.drop s.sys.answered.length
      { s with sys, history := s.history ++ replies.map fun p => .ret p.thread p.result }
  | .daemon env =>
      match s.sys.daemon with
      | .call _ r => do
          let (result, files) ← s.files.serve env (r.fileCall s.strings)
          let sys ← s.sys.step (.daemon result)
          some { s with sys, files }
      | _ => (s.sys.step (.daemon 0#32)).map fun sys => { s with sys }
  | .background b => (s.sys.step (.background b)).map fun sys => { s with sys }
  | .store strings => some { s with strings }

/-- A request finds room in the pipe of the daemon, the calls that it makes meet a condition, and the
strings of a call are not written to before it ends. -/
def StepOk (ok : Files → FileCall → Prop) (s : FileService) : FileServiceEvent → Prop
  | .request r => s.sys.RequestOk (.request r)
  | .daemon _ => ∀ fd r, s.sys.daemon = .call fd r → ok s.files (r.fileCall s.strings)
  | .store strings => ∀ t r, (s.sys.callers t).request = some r →
      r.fileCall strings = r.fileCall s.strings
  | .readReply | .background _ => True

def client (s : FileService) (t : Tid) : Client FileCall Word :=
  match (s.sys.callers t).request with
  | none => .idle
  | some r =>
      match (s.sys.processedFor t)[(s.sys.answeredTo t).length]? with
      | none => .called (r.fileCall s.strings)
      | some p => .served (r.fileCall s.strings) p.result

def object (s : FileService) : State Files Tid FileCall Word := ⟨s.files, s.client⟩

variable {s s' : FileService} {ok : Files → FileCall → Prop} {t : Tid} {r : FsRequest}
  {c : Client FileCall Word}

theorem client_idle (h : (s.sys.callers t).request = none) : s.client t = .idle := by
  rw [client, h]

theorem client_called (h : (s.sys.callers t).request = some r)
    (hreplies : s.sys.processedFor t = s.sys.answeredTo t) :
    s.client t = .called (r.fileCall s.strings) := by
  simp only [client, h, hreplies, List.getElem?_length]

theorem client_served {p : FsReply} {l : List FsReply} (h : (s.sys.callers t).request = some r)
    (hreplies : s.sys.processedFor t = s.sys.answeredTo t ++ p :: l) :
    s.client t = .served (r.fileCall s.strings) p.result := by
  simp only [client, h, hreplies, List.getElem?_append_right, Nat.le_refl, Nat.sub_self,
    List.getElem?_cons_zero]

theorem client_congr (hrequest : (s'.sys.callers t).request = (s.sys.callers t).request)
    (hprocessed : s'.sys.processedFor t = s.sys.processedFor t)
    (hanswered : s'.sys.answeredTo t = s.sys.answeredTo t)
    (hstrings : ∀ r, (s.sys.callers t).request = some r →
      r.fileCall s'.strings = r.fileCall s.strings) : s'.client t = s.client t := by
  rw [client, client, hrequest, hprocessed, hanswered]
  cases hr : (s.sys.callers t).request with
  | none => rfl
  | some r => simp only [hstrings r hr]

theorem object_congr (hfiles : s'.files = s.files)
    (hcallers : ∀ t, (s'.sys.callers t).request = (s.sys.callers t).request)
    (hprocessed : s'.sys.processed = s.sys.processed) (hanswered : s'.sys.answered = s.sys.answered)
    (hstrings : ∀ t r, (s.sys.callers t).request = some r →
      r.fileCall s'.strings = r.fileCall s.strings) : s'.object = s.object := by
  have hclients : s'.client = s.client := funext fun t => client_congr (hcallers t)
    (congrArg (List.filter _) hprocessed) (congrArg (List.filter _) hanswered) (hstrings t)
  rw [object, object, hfiles, hclients]

theorem client_update (hclient : s'.client t = c) (hothers : ∀ u ≠ t, s'.client u = s.client u) :
    s'.client = Function.update s.client t c := by
  refine funext fun u => ?_
  by_cases hu : u = t
  · rw [hu, hclient, Function.update_self]
  · rw [Function.update_of_ne hu, hothers u hu]

/-- The callers see nothing of a step, or one of the object. -/
def Simulates (ok : Files → FileCall → Prop) (s s' : FileService) : Prop :=
  (s'.object = s.object ∧ s'.history = s.history) ∨
    ∃ a, SharedObject.Step (Files.spec ok) s.object a s'.object ∧
      s'.history = s.history ++ a.toList

theorem request_simulates (hs : s.sys.Sound) (hstep : s.step (.request r) = some s') :
    Simulates ok s s' := by
  obtain ⟨sys, hsys, hs'⟩ := Option.map_eq_some_iff.mp hstep
  obtain ⟨rfl, hfiles, hstrings, hhistory⟩ : sys = s'.sys ∧ s'.files = s.files ∧
      s'.strings = s.strings ∧
      s'.history = s.history ++ [.call s.sys.running (r.fileCall s.strings)] := by
    subst hs'
    exact ⟨rfl, rfl, rfl, rfl⟩
  simp only [FsSys.step, Option.ite_none_right_eq_some] at hsys
  obtain ⟨⟨-, -, hout⟩, hsend⟩ := hsys
  obtain ⟨hcallers, hprocessed, hanswered⟩ := FsSys.sendRequest_spec hsend
  have hprocessedFor : ∀ u, s'.sys.processedFor u = s.sys.processedFor u := fun u =>
    congrArg (List.filter _) hprocessed
  have hansweredTo : ∀ u, s'.sys.answeredTo u = s.sys.answeredTo u := fun u =>
    congrArg (List.filter _) hanswered
  have hreplies := hs.deliversOnce.returned s.sys.running hout
  have hclient : s'.client s.sys.running = .called (r.fileCall s.strings) := by
    rw [← hstrings]
    refine client_called ?_ (by rw [hprocessedFor, hansweredTo, hreplies])
    rw [hcallers, Function.update_self, Caller.request_requested]
  have hothers : ∀ u ≠ s.sys.running, s'.client u = s.client u := fun u hu =>
    client_congr (by rw [hcallers, Function.update_of_ne hu]) (hprocessedFor u) (hansweredTo u)
      fun _ _ => by rw [hstrings]
  refine Or.inr ⟨some (.call s.sys.running (r.fileCall s.strings)), ?_, hhistory⟩
  rw [object, object, hfiles, client_update hclient hothers]
  exact .call (s := s.object) (client_idle (by rw [hout, Caller.request_outside]))

theorem readReply_simulates (hs' : s'.sys.Sound) (hstep : s.step .readReply = some s') :
    Simulates ok s s' := by
  obtain ⟨sys, hsys, heq⟩ := Option.map_eq_some_iff.mp hstep
  obtain ⟨rfl, hfiles, hstrings, hhistory⟩ : sys = s'.sys ∧ s'.files = s.files ∧
      s'.strings = s.strings ∧ s'.history = s.history ++
        (s'.sys.answered.drop s.sys.answered.length).map fun p => .ret p.thread p.result := by
    subst heq
    exact ⟨rfl, rfl, rfl, rfl⟩
  obtain ⟨r, hrequest, hread⟩ : ∃ r, (s.sys.callers s.sys.running).request = some r ∧
      s.sys.readReply r = some s'.sys := by
    simp only [FsSys.step] at hsys
    split at hsys
    · cases hsys
    · next r hcaller => exact ⟨r, by rw [hcaller, Caller.request_requested], hsys⟩
    · next r hcaller =>
        simp only [Option.ite_none_right_eq_some] at hsys
        exact ⟨r, by rw [hcaller, Caller.request_waiting], hsys.2⟩
  obtain ⟨hprocessed, ⟨hcallers, hanswered⟩ | ⟨result, hcallers, hanswered⟩⟩ :=
    FsSys.readReply_spec hread
  · refine Or.inl ⟨object_congr hfiles (fun u => ?_) hprocessed hanswered
      fun _ _ _ => by rw [hstrings], by simp [hhistory, hanswered]⟩
    by_cases hu : u = s.sys.running
    · rw [hu, hcallers, Function.update_self, hrequest, Caller.request_waiting]
    · rw [hcallers, Function.update_of_ne hu]
  · obtain ⟨l, hreplies⟩ := hs'.reads hprocessed hanswered
    have hserved : s.client s.sys.running = .served (r.fileCall s.strings) result :=
      client_served hrequest hreplies
    have hclient : s'.client s.sys.running = .idle := client_idle (by
      rw [hcallers, Function.update_self, Caller.request_outside])
    have hothers : ∀ u ≠ s.sys.running, s'.client u = s.client u := fun u hu =>
      client_congr (by rw [hcallers, Function.update_of_ne hu])
        (congrArg (List.filter _) hprocessed)
        (by rw [FsSys.answeredTo_append hanswered,
          List.filter_cons_of_neg (by simpa using Ne.symm hu), List.filter_nil, List.append_nil])
        fun _ _ => by rw [hstrings]
    refine Or.inr ⟨some (.ret s.sys.running result), ?_, by simp [hhistory, hanswered]⟩
    rw [object, object, hfiles, client_update hclient hothers]
    exact .ret (s := s.object) hserved

theorem daemon_simulates {env : FileEnv} (hs : s.sys.Sound) (hok : s.StepOk ok (.daemon env))
    (hstep : s.step (.daemon env) = some s') :
    ∃ result, s.sys.step (.daemon result) = some s'.sys ∧ Simulates ok s s' := by
  simp only [step] at hstep
  split at hstep
  · next fd r hd =>
      obtain ⟨⟨result, files⟩, hserve, hstep⟩ := Option.bind_eq_some_iff.mp hstep
      obtain ⟨sys, hsys, hs'⟩ := Option.bind_eq_some_iff.mp hstep
      obtain rfl := Option.some.inj hs'
      refine ⟨result, hsys, Or.inr ⟨none, ?_, (List.append_nil _).symm⟩⟩
      simp only [FsSys.step, Option.ite_none_right_eq_some] at hsys
      obtain ⟨hcallers, hanswered, ⟨fd', r', t, hd', ht, hprocessed⟩ | ⟨hnot, -⟩⟩ :=
        FsSys.daemonStep_spec hsys.2
      · obtain ⟨rfl, rfl⟩ := Filesysd.call.inj (hd.symm.trans hd')
        obtain ⟨hrequest, hreplies⟩ := hs.processes hd ht
        have hclient : FileService.client { s with sys, files } t =
            .served (r.fileCall s.strings) result := by
          refine client_served (p := ⟨t, r, result⟩) (l := []) ?_ ?_
          · rwa [hcallers]
          · rw [FsSys.processedFor_append hprocessed, hreplies, FsSys.answeredTo,
              FsSys.answeredTo, hanswered, List.filter_cons_of_pos (by simp), List.filter_nil]
        have hothers : ∀ u ≠ t, FileService.client { s with sys, files } u = s.client u :=
          fun u hu => client_congr (by rw [hcallers])
            (by rw [FsSys.processedFor_append hprocessed,
              List.filter_cons_of_neg (by simpa using Ne.symm hu), List.filter_nil,
              List.append_nil])
            (congrArg (List.filter _) hanswered) fun _ _ => rfl
        change SharedObject.Step _ _ _ ⟨files, FileService.client { s with sys, files }⟩
        rw [client_update hclient hothers]
        exact .serve (s := s.object) (client_called hrequest hreplies)
          ⟨hok fd r hd, env, hserve⟩
      · exact absurd hd (hnot fd r)
  · next hnot =>
      obtain ⟨sys, hsys, rfl⟩ := Option.map_eq_some_iff.mp hstep
      refine ⟨0#32, hsys, Or.inl ⟨?_, rfl⟩⟩
      simp only [FsSys.step, Option.ite_none_right_eq_some] at hsys
      obtain ⟨hcallers, hanswered, ⟨fd, r, t, hd, -⟩ | ⟨-, hprocessed⟩⟩ :=
        FsSys.daemonStep_spec hsys.2
      · exact absurd hd (hnot fd r)
      · exact object_congr rfl (fun u => by rw [hcallers]) hprocessed hanswered fun _ _ _ => rfl

theorem step_simulates {e : FileServiceEvent} (hs : s.sys.Sound) (hok : s.StepOk ok e)
    (hstep : s.step e = some s') : s'.sys.Sound ∧ Simulates ok s s' := by
  cases e with
  | request r =>
      have hsimulates : Simulates ok s s' := request_simulates hs hstep
      obtain ⟨sys, hsys, rfl⟩ := Option.map_eq_some_iff.mp hstep
      exact ⟨(hs.step (e := .request r) hok hsys).1, hsimulates⟩
  | readReply =>
      have hsys : s.sys.step .readReply = some s'.sys := by
        obtain ⟨sys, hsys, rfl⟩ := Option.map_eq_some_iff.mp hstep
        exact hsys
      have hs' := (hs.step (FsSys.requestOk_of_ne (by simp)) hsys).1
      exact ⟨hs', readReply_simulates hs' hstep⟩
  | daemon env =>
      obtain ⟨result, hsys, hsimulates⟩ := daemon_simulates hs hok hstep
      exact ⟨(hs.step (FsSys.requestOk_of_ne (by simp)) hsys).1, hsimulates⟩
  | background b =>
      obtain ⟨sys, hsys, rfl⟩ := Option.map_eq_some_iff.mp hstep
      refine ⟨(hs.step (FsSys.requestOk_of_ne (by simp)) hsys).1, Or.inl ⟨?_, rfl⟩⟩
      obtain ⟨kernel, -, rfl⟩ := Option.map_eq_some_iff.mp hsys
      exact object_congr rfl (fun _ => rfl) rfl rfl fun _ _ _ => rfl
  | store strings =>
      obtain rfl := Option.some.inj hstep
      exact ⟨hs, Or.inl ⟨object_congr rfl (fun _ => rfl) rfl rfl hok, rfl⟩⟩

def Started (s : FileService) : Prop := s.sys.Started ∧ s.history = []

/-- In every interleaving of the threads, the daemon, the scheduler and the timer, the calls of the
threads are those of one atomic object. -/
theorem run_object {es : List FileServiceEvent} (hstart : s.Started)
    (hok : Runs.AllOk (StepOk ok) step s es) (hrun : Runs.exec step s es = some s') :
    SharedObject.Run (Files.spec ok) ⟨s.files, fun _ => .idle⟩ s'.history s'.object := by
  have hidle : s.object = ⟨s.files, fun _ => .idle⟩ := by
    rw [object, show s.client = fun _ => .idle from funext fun t =>
      client_idle (by rw [hstart.1.outside t, Caller.request_outside])]
  refine (Runs.exec_invariant (I := fun u => u.sys.Sound ∧
    SharedObject.Run (Files.spec ok) ⟨s.files, fun _ => .idle⟩ u.history u.object)
    (fun u e v hu hok hstep => ?_) ⟨FsSys.Sound.of_started hstart.1, ?_⟩ hok hrun).2
  · obtain ⟨hsound, ⟨hobject, hhistory⟩ | ⟨a, ha, hhistory⟩⟩ := step_simulates hu.1 hok hstep
    · exact ⟨hsound, hobject ▸ hhistory ▸ hu.2⟩
    · exact ⟨hsound, hhistory ▸ hu.2.step ha⟩
  · rw [hstart.2, hidle]
    exact .nil

end FileService

namespace Files
variable {f f' : Files} {env : FileEnv} {c : FileCall} {result : Word} {path : List Byte}
  {fileType : Nat}

/-- Files are only created through directories. The path has names that are stored as they are, and
it can be followed again after it was used to create a file. -/
def CreatesOk (path : List Byte) (f : Files) : FileCall → Prop
  | .createFile pathname _ => ¬ f.rootfs.MeetsFile pathname ∧
      (pathname = path → (∀ name ∈ entries path.tail, name ≠ [] → Rootfs.Plain name) ∧
        f.rootfs.MakesFindable path)
  | _ => True

/-- The file system after it was used through directories only. -/
def Reached (f : Files) : Prop := ∃ sInoAddr sBlkAddr calls,
  Runs.AllOk Rootfs.ThroughDirs Rootfs.call (Rootfs.rootfsInit sInoAddr sBlkAddr) calls ∧
    Runs.exec Rootfs.call (Rootfs.rootfsInit sInoAddr sBlkAddr) calls = some f.rootfs

theorem Reached.kept (h : f.Reached) : f.rootfs.Kept := by
  obtain ⟨sInoAddr, sBlkAddr, calls, hok, hrun⟩ := h
  exact (Rootfs.rootfsInit_kept sInoAddr sBlkAddr).calls hok hrun

theorem serve_acts (h : f.rootfs.InUse) (hok : f.CreatesOk path c)
    (hserve : f.serve env c = some (result, f')) :
    Relation.ReflTransGen (Rootfs.Act True) f.rootfs f'.rootfs := by
  cases c with
  | createFile pathname fileType =>
      obtain ⟨w, hw, heq⟩ := Option.map_eq_some_iff.mp hserve
      cases heq
      exact h.call_acts (e := .createFile env.passes pathname fileType env.memory)
        (fun _ => hok.1) (by rw [Rootfs.call, hw, Option.map_some])
  | openFile pathname =>
      obtain ⟨w, hw, heq⟩ := Option.map_eq_some_iff.mp hserve
      cases heq
      exact h.fsOpenFile_acts True hw
  | openDirectory pathname =>
      obtain ⟨w, hw, heq⟩ := Option.map_eq_some_iff.mp hserve
      cases heq
      exact (h.fsOpenDirectory_acts True hw).1
  | mount source target =>
      obtain ⟨answer, -, hrest⟩ := Option.bind_eq_some_iff.mp hserve
      obtain ⟨rootfs, hmount, heq⟩ := Option.bind_eq_some_iff.mp hrest
      cases heq
      exact h.call_acts (e := .mount env.passes env.storage source target env.memory)
        (fun _ => trivial) hmount
  | getcwd buf len =>
      obtain ⟨buffers, -, heq⟩ := Option.map_eq_some_iff.mp hserve
      cases heq
      exact .refl
  | chdir pathname =>
      obtain ⟨answer, hchdir, hrest⟩ := Option.bind_eq_some_iff.mp hserve
      cases answer with
      | overflow => cases hrest
      | returned rootfs shellDirCurr retval =>
          cases hrest
          obtain ⟨-, hover⟩ | ⟨pathTmp, w, -, hw, ⟨-, heq⟩ | ⟨i, -, heq⟩⟩ :=
            Rootfs.fsChdir_cases h hchdir
          · cases hover
          · cases heq
            exact (h.fsOpenDirectory_acts True hw).1
          · cases heq
            exact (h.fsOpenDirectory_acts True hw).1

theorem spec_kept (h : f.rootfs.Kept) (hspec : spec (CreatesOk path) f c result f') :
    f'.rootfs.Kept := by
  obtain ⟨hok, env, hserve⟩ := hspec
  exact h.acts (serve_acts h.use hok hserve)

def LeadsTo (path : List Byte) (result : Word) (f : Files) : Prop :=
  ((∀ name ∈ entries path.tail, name ≠ [] → Rootfs.Plain name) ∧ path.head? = some slash ∧
    path.getLast? ≠ some slash) ∧
      ∃ fd, result = BitVec.ofNat 32 fd ∧ f.rootfs.Reaches (entries path.tail) 0 fd

theorem LeadsTo.serves (h : LeadsTo path result f) {result' : Word} (hkept : f.rootfs.Kept)
    (hspec : spec (CreatesOk path) f c result' f') : LeadsTo path result f' := by
  obtain ⟨hok, env, hserve⟩ := hspec
  obtain ⟨⟨hplain, hslash, hend⟩, fd, hfd, hreaches⟩ := h
  have hacts := serve_acts hkept.use hok hserve
  exact ⟨⟨hplain, hslash, hend⟩, fd, hfd, hreaches.stays hplain hkept.use hkept.use.root.1
    (hkept.tabled.acts_lengthens hacts).1 (hkept.tabled.acts_keepsFound hacts)⟩

theorem leadsTo_of_created (hkept : f.rootfs.Kept) (htype : fileType ≠ sIfdir)
    (hcreated : result ≠ -1#32)
    (hspec : spec (CreatesOk path) f (.createFile path fileType) result f') :
    LeadsTo path result f' := by
  obtain ⟨hok, env, hserve⟩ := hspec
  obtain ⟨w, hw, heq⟩ := Option.map_eq_some_iff.mp hserve
  cases heq
  obtain ⟨hplain, hfindable⟩ := hok.2 rfl
  cases hresult : w.result with
  | none =>
      rw [hresult] at hcreated
      exact absurd rfl hcreated
  | some fd =>
      obtain ⟨hslash, hreaches⟩ := hkept.created htype hfindable hw hresult
      exact ⟨⟨hplain, hslash, hfindable.1⟩, fd, rfl, hreaches⟩

theorem LeadsTo.found (h : LeadsTo path result f) :
    ∃ fd, result = fdWord (some fd) ∧ f.rootfs.Found path fd := by
  obtain ⟨⟨-, hslash, hend⟩, fd, hfd, hreaches⟩ := h
  exact ⟨fd, hfd, hreaches.found hslash hend⟩

theorem LeadsTo.openFile (h : LeadsTo path result f) {result' : Word}
    (hspec : spec (CreatesOk path) f (.openFile path) result' f') : result' = result := by
  obtain ⟨-, env, hserve⟩ := hspec
  obtain ⟨fd, rfl, hfound⟩ := h.found
  obtain ⟨w, hw, heq⟩ := Option.map_eq_some_iff.mp hserve
  obtain ⟨⟨searched, hopen⟩, -⟩ := hfound env.passes env.memory
  obtain rfl := Option.some.inj (hopen.symm.trans hw)
  cases heq
  rfl

theorem LeadsTo.createFile (h : LeadsTo path result f) {result' : Word}
    (hspec : spec (CreatesOk path) f (.createFile path fileType) result' f') : result' = -1#32 := by
  obtain ⟨-, env, hserve⟩ := hspec
  obtain ⟨fd, rfl, hfound⟩ := h.found
  obtain ⟨w, hw, heq⟩ := Option.map_eq_some_iff.mp hserve
  obtain ⟨-, hcreates⟩ := hfound env.passes env.memory
  obtain ⟨searched, hcreate⟩ := hcreates fileType
  obtain rfl := Option.some.inj (hcreate.symm.trans hw)
  cases heq
  rfl

end Files

/-- Of the calls that create a file under this path, one at most succeeds. Calls that open it and
begin when this one is over, in whatever threads, get the descriptor that it was answered. -/
structure CreatesOnce (path : List Byte) (history : List (Action Tid FileCall Word)) : Prop where
  opens : ∀ i j t fileType fd i' j' t' fd', fileType ≠ sIfdir → fd ≠ -1#32 →
    Completed history i j t (.createFile path fileType) fd →
    Completed history i' j' t' (.openFile path) fd' → j < i' → fd' = fd
  once : ∀ i j t fileType fd i' j' t' fileType' fd', fileType ≠ sIfdir → fileType' ≠ sIfdir →
    Completed history i j t (.createFile path fileType) fd →
    Completed history i' j' t' (.createFile path fileType') fd' → i ≠ i' →
    fd = -1#32 ∨ fd' = -1#32

namespace FileService
variable {s s' : FileService} {path : List Byte}

/-- A new file system, used through the daemon of `fsOn`. There is one path in memory. -/
def serviceOn (k : Kernel) : FileService where
  sys := FsSys.fsOn k
  files := { rootfs := Rootfs.rootfsInit 0x20010000 0x20020000, shellDirCurr := 0, buffers _ := [] }
  strings w := if w = 7#32 then [slash, 97#8] else []
  history := []

/-- Init, thread 4, creates thread 5. -/
def clientsKernel : Kernel :=
  FsSys.kernelAfter (FsSys.daemonRun ++ [.call (.pthreadCreate none true)])

/-- The running thread makes a call and waits for the reply. -/
def request (r : FsRequest) : List FileServiceEvent :=
  [.request r, .readReply, .background .schedule]

def serving (passes : Nat) : List FileServiceEvent :=
  List.replicate passes (.daemon ⟨0, 0, true, ⟨fun _ _ => none⟩⟩) ++ [.background .schedule]

/-- Thread 5 creates a file and thread 4 opens it, before the daemon gets the CPU. Thread 5 opens it
again, before thread 4 has its reply. -/
def clientsRun : List FileServiceEvent :=
  .background .schedule :: request (.createFile 7#32 (.ofNat 8 sIfreg)) ++ request (.openFile 7#32) ++
    serving 12 ++ .readReply :: request (.openFile 7#32) ++ [.readReply, .background .schedule] ++
    serving 6 ++ [.background .schedule, .readReply]

def clientsHistory : List (Action Tid FileCall Word) :=
  [.call 5 (.createFile [slash, 97#8] sIfreg), .call 4 (.openFile [slash, 97#8]), .ret 5 68#32,
    .call 5 (.openFile [slash, 97#8]), .ret 4 68#32, .ret 5 68#32]

theorem clients_started : (serviceOn clientsKernel).Started :=
  ⟨FsSys.fsOn_started (FsSys.kernelAfter_settled (by decide +kernel) (by decide +kernel)
    (by decide +kernel) (by decide +kernel)) (by decide +kernel) (by decide +kernel)
    (by decide +kernel) (by decide +kernel), rfl⟩

/-- Only this path is used to create files, while the root directory is empty. -/
def firstFile (path : List Byte) (s : FileService) : FileServiceEvent → Bool
  | .request r => decide (s.sys.RequestOk (.request r))
  | .daemon _ =>
      match s.sys.daemon with
      | .call _ (.createFile addr _) => decide (s.strings addr = path ∧
          (s.files.rootfs.inodes 0).iSize = 0 ∧ (s.files.rootfs.inodes 0).iSync = true)
      | _ => true
  | .store _ => false
  | .readReply | .background _ => true

theorem stepOk_of_firstFile {e : FileServiceEvent} (hplain : ∀ name ∈ entries path.tail,
    name ≠ [] → Rootfs.Plain name) (hend : path.getLast? ≠ some slash)
    (h : firstFile path s e = true) : s.StepOk (Files.CreatesOk path) e := by
  cases e with
  | request r =>
      have hroom : s.sys.RequestOk (.request r) := of_decide_eq_true h
      exact hroom
  | readReply | background b => trivial
  | store strings => cases h
  | daemon env =>
      intro fd r hd
      simp only [firstFile, hd] at h
      cases r with
      | createFile addr fileType =>
          obtain ⟨hpath, hsize, hsync⟩ := of_decide_eq_true h
          exact ⟨fun hmeets => Rootfs.not_meets_of_empty hsize hmeets.2, fun _ =>
            ⟨hplain, hend, Rootfs.makes_of_empty hsize hsync hplain⟩⟩
      | openFile addr | openDirectory addr | mount source target | getcwd buf len | chdir addr =>
          trivial

theorem clientsRun_ok : ∃ s,
    Runs.AllOk (StepOk (Files.CreatesOk [slash, 97#8])) step (serviceOn clientsKernel) clientsRun ∧
      Runs.exec step (serviceOn clientsKernel) clientsRun = some s ∧ s.history = clientsHistory := by
  have hplain : ∀ name ∈ entries [97#8], name ≠ [] → Rootfs.Plain name := by
    intro name hname _
    obtain rfl := List.mem_singleton.mp hname
    exact ⟨by decide, by decide, by decide⟩
  have hcheck : (Runs.exec (fun s e => if firstFile [slash, 97#8] s e = true then step s e else none)
      (serviceOn clientsKernel) clientsRun).map (·.history) = some clientsHistory := by
    decide +kernel
  obtain ⟨s, hs, hhistory⟩ := Option.map_eq_some_iff.mp hcheck
  obtain ⟨hfirst, hrun⟩ := Runs.allOk_of_exec hs
  exact ⟨s, Runs.allOk_mono (fun _ _ => stepOk_of_firstFile hplain (by decide)) hfirst, hrun,
    hhistory⟩

/-- So they have an order in which one thread alone could have made them, which agrees with the order
of those that did not overlap. -/
theorem calls_linearizable {ok : Files → FileCall → Prop} {es : List FileServiceEvent}
    (hstart : s.Started)
    (hok : Runs.AllOk (StepOk ok) step s es) (hrun : Runs.exec step s es = some s') :
    Linearizable (Files.spec ok) s.files s'.history s'.files :=
  (run_object hstart hok hrun).linearizable

theorem calls_linearizable_at_clients : ∃ s,
    Runs.exec step (serviceOn clientsKernel) clientsRun = some s ∧ s.history = clientsHistory ∧
      Linearizable (Files.spec (Files.CreatesOk [slash, 97#8])) (serviceOn clientsKernel).files
        s.history s.files := by
  obtain ⟨s, hok, hrun, hhistory⟩ := clientsRun_ok
  exact ⟨s, hrun, hhistory, calls_linearizable clients_started hok hrun⟩

theorem createsOnce {es : List FileServiceEvent} (hstart : s.Started) (hfiles : s.files.Reached)
    (hok : Runs.AllOk (StepOk (Files.CreatesOk path)) step s es)
    (hrun : Runs.exec step s es = some s') : CreatesOnce path s'.history := by
  obtain ⟨order, horder⟩ := (run_object hstart hok hrun).linearizable
  have hlater : ∀ {l₁ l₂ l₃ i fileType fd e'}, fileType ≠ sIfdir → fd ≠ -1#32 →
      order = l₁ ++ ⟨i, .createFile path fileType, fd⟩ :: (l₂ ++ e' :: l₃) →
      ∃ f f', Files.LeadsTo path fd f ∧ Files.spec (Files.CreatesOk path) f e'.op e'.res f' := by
    intro l₁ l₂ l₃ i fileType fd e' htype hfd heq
    obtain ⟨f, f', -, hleads, hspec⟩ := horder.established (I := fun f => f.rootfs.Kept)
      (P := Files.LeadsTo path fd) hfiles.kept
      (fun f c result f' hkept hspec => Files.spec_kept hkept hspec)
      (fun f f' hkept hspec => Files.leadsTo_of_created hkept htype hfd hspec)
      (fun f c result f' hkept hleads hspec => hleads.serves hkept hspec) heq
    exact ⟨f, f', hleads, hspec⟩
  refine ⟨fun i j t fileType fd i' j' t' fd' htype hfd hc hc' hlt => ?_,
    fun i j t fileType fd i' j' t' fileType' fd' htype htype' hc hc' hne => ?_⟩
  · obtain ⟨l₁, l₂, l₃, heq⟩ := horder.before hc hc' hlt
    obtain ⟨f, f', hleads, hspec⟩ := hlater htype hfd heq
    exact hleads.openFile hspec
  · by_contra hboth
    obtain ⟨hfd, hfd'⟩ := not_or.mp hboth
    obtain ⟨l₁, l₂, l₃, heq⟩ | ⟨l₁, l₂, l₃, heq⟩ := horder.ordered hc hc' hne
    · obtain ⟨f, f', hleads, hspec⟩ := hlater htype hfd heq
      exact hfd' (hleads.createFile hspec)
    · obtain ⟨f, f', hleads, hspec⟩ := hlater htype' hfd' heq
      exact hfd (hleads.createFile hspec)

theorem createsOnce_at_clients : ∃ s,
    Runs.exec step (serviceOn clientsKernel) clientsRun = some s ∧ s.history = clientsHistory ∧
      CreatesOnce [slash, 97#8] s.history := by
  obtain ⟨s, hok, hrun, hhistory⟩ := clientsRun_ok
  exact ⟨s, hrun, hhistory, createsOnce clients_started
    ⟨0x20010000, 0x20020000, [], trivial, rfl⟩ hok hrun⟩

end FileService

end Tenok
