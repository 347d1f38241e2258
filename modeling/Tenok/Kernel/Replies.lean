import Tenok.Kernel.FilesysdRuns
import Tenok.Kernel.JoinRuns

/-!
The file system daemon while threads come and go. A request names the entry of `files` that
its reply is written to, and the entry is found from the thread ID. It is set when a thread is
created and stays as it is when the thread ends, so the reply reaches whoever has the ID then.
-/
namespace Tenok
open Kernel

/-- A request that the daemon has got; `created` tells which of the threads with its ID the
thread is. -/
structure FsReceived where
  thread : Tid
  created : Nat
  request : FsRequest
  deriving DecidableEq, Repr

structure ReplySys where
  /-- `pipes` has what the entries of `files` point to: the pipe of the last thread with the ID. -/
  fs : FsSys
  /-- How many threads have got this ID so far, the present one included. -/
  created : Tid → Nat
  /-- Which of the threads with its ID the daemon is. -/
  filesysdCreated : Nat
  /-- The requests in the pipe of the daemon, with the one that it is reading. -/
  queued : List FsReceived
  /-- The request for which a function of the file system was called, until its reply is
  written. -/
  answering : Option FsReceived

inductive ReplyEvent
  | request (r : FsRequest)
  | readReply
  | daemon (result : Word)
  /-- A step of the kernel; a new thread makes its pipe of the memory of its stack. -/
  | kernel (e : KernelEvent) (stack : Nat → Byte)

namespace ReplySys
variable {s s' : ReplySys} {e : ReplyEvent} {t : Tid}

def Exists (s : ReplySys) (t : Tid) (n : Nat) : Prop := s.fs.kernel.Alive t ∧ s.created t = n

instance decidableExists (s : ReplySys) (t : Tid) (n : Nat) : Decidable (s.Exists t n) :=
  inferInstanceAs (Decidable (_ ∧ _))

def FilesysdExists (s : ReplySys) : Prop := s.Exists s.fs.filesysd s.filesysdCreated

instance decidableFilesysdExists (s : ReplySys) : Decidable s.FilesysdExists :=
  inferInstanceAs (Decidable (s.Exists _ _))

def received (s : ReplySys) (r : FsRequest) : FsReceived :=
  ⟨s.fs.running, s.created s.fs.running, r⟩

/-- A request that finds no room in the pipe of the daemon is lost. -/
def sendRequest (s : ReplySys) (r : FsRequest) : Option ReplySys :=
  (s.fs.step (.request r)).map fun fs =>
    if s.fs.RequestOk (.request r) then { s with fs, queued := s.queued ++ [s.received r] }
    else { s with fs }

def daemonStep (s : ReplySys) (result : Word) : Option ReplySys :=
  (s.fs.step (.daemon result)).map fun fs =>
    match s.fs.daemon with
    | .call _ _ => { s with fs, queued := s.queued.tail, answering := s.queued.head? }
    | .write _ _ =>
        { s with fs, answering := if fs.daemon = .readFileCmd then none else s.answering }
    | _ => { s with fs }

/-- The ID is that of a thread after the step and of none before. -/
def newThread (k k' : Kernel) (t : Tid) : Bool := !k.bitmapThreads t && k'.bitmapThreads t

/-- `thread_pipe_alloc` for a thread that the step has created. -/
def runKernel (s : ReplySys) (stack : Nat → Byte) (k : Kernel) : ReplySys where
  fs :=
    { s.fs with
      kernel := k
      pipes := fun t => if newThread s.fs.kernel k t then FsSys.threadPipe t stack else s.fs.pipes t
      callers := fun t => if newThread s.fs.kernel k t then .outside else s.fs.callers t }
  created t := if newThread s.fs.kernel k t then s.created t + 1 else s.created t
  filesysdCreated := s.filesysdCreated
  queued := s.queued
  answering := s.answering

/-- Threads can end and be created at any time. Nobody serves requests when the daemon is gone. -/
def step (s : ReplySys) : ReplyEvent → Option ReplySys
  | .request r => if s.FilesysdExists then s.sendRequest r else none
  | .readReply => (s.fs.step .readReply).map fun fs => { s with fs }
  | .daemon result => if s.FilesysdExists then s.daemonStep result else none
  | .kernel e stack => (s.fs.kernel.step e).map (s.runKernel stack)

/-- The requests that the daemon has got and not answered, the oldest first. -/
def unanswered (s : ReplySys) : List FsReceived := s.answering.toList ++ s.queued

/-- The step ends no thread whose request is not answered, and a thread that has been ended
sends none. -/
def ReplyOk (s : ReplySys) : ReplyEvent → Prop
  | .request _ => s.fs.kernel.Alive s.fs.running
  | .kernel e _ => s.FilesysdExists → ∀ i ∈ s.unanswered, i.thread ∉ s.fs.kernel.removes e
  | .readReply | .daemon _ => True

instance decidableReplyOk (s : ReplySys) : (e : ReplyEvent) → Decidable (s.ReplyOk e)
  | .request _ => inferInstanceAs (Decidable (Alive _ _))
  | .kernel _ _ => inferInstanceAs (Decidable (_ → ∀ i ∈ _, _))
  | .readReply | .daemon _ => inferInstanceAs (Decidable True)

/-- What the daemon writes to this entry of `files` goes to the pipe of a thread that exists,
and this thread sent the request that the result is for. -/
def Reaches (s : ReplySys) (fd result : Word) : Prop :=
  ∃ i, s.answering = some i ∧ FsSys.pipeOwner fd = some i.thread ∧
    s.Exists i.thread i.created ∧ s.fs.processed.getLast? = some ⟨i.thread, i.request, result⟩

/-- Whenever the daemon writes a reply, it reaches the thread that it is for. -/
def RepliesReach (s : ReplySys) : Prop :=
  ∀ fd result x s', s.fs.daemon = .write fd result → s.step (.daemon x) = some s' →
    s.Reaches fd result

/-- New pipes and no calls, and the daemon exists. -/
structure Started (s : ReplySys) : Prop where
  below : ∀ t, s.fs.kernel.Alive t → t < threadMax
  pipes : ∀ t, ∃ data, s.fs.pipes t = FsSys.threadPipe t data
  filesysd : s.FilesysdExists
  daemon : s.fs.daemon = .readFileCmd
  outside : ∀ t, s.fs.callers t = .outside
  unanswered : s.queued = [] ∧ s.answering = none


end ReplySys

namespace FsSys
variable {s s' : FsSys} {t u : Tid} {r : FsRequest}

/-- What a transfer over the pipe of a thread can change. -/
structure Transfer (s : FsSys) (t : Tid) (res : FifoResult) : Prop where
  alive : ∀ u, res.kernel.Alive u ↔ s.kernel.Alive u
  wired : Wired t res.pipe

theorem pipeRead_transfer {n : Nat} {res : FifoResult} (hp : Wired t (s.pipes t))
    (hr : s.pipeRead t n = some res) : s.Transfer t res := by
  obtain ⟨-, -, -, hpipe, hkernel⟩ | ⟨-, -, -, hwired, -, -, hwake⟩ := pipeRead_cases hp hr
  · exact ⟨fun u => by rw [hkernel]; rfl, hpipe ▸ hp⟩
  · exact ⟨fun u => (SameBooks.fifoWakeUp hwake).alive_iff, hwired⟩

theorem pipeWrite_transfer {buf : List Byte} {res : FifoResult} (hp : Wired t (s.pipes t))
    (hr : s.pipeWrite t buf = some res) : s.Transfer t res ∧
      res.pipe.fifo.bytes = (s.pipes t).fifo.bytes ++
        if buf.length ≤ (s.pipes t).fifo.kfifoAvail then buf else [] := by
  by_cases hroom : buf.length ≤ (s.pipes t).fifo.kfifoAvail
  · obtain ⟨-, hwired, hbytes, hwake⟩ := pipeWrite_spec hp hroom hr
    rw [if_pos hroom]
    exact ⟨⟨fun u => (SameBooks.fifoWakeUp hwake).alive_iff, hwired⟩, hbytes⟩
  · obtain ⟨-, rfl⟩ | ⟨hle, -⟩ := Pipe.fifoWrite_blocking hp.stream hp.nonblock hr
    · rw [if_neg hroom, List.append_nil]
      exact ⟨⟨fun u => Iff.rfl, hp⟩, rfl⟩
    · exact absurd hle hroom

theorem Transfer.setPipe_wired {res : FifoResult} (h : s.Transfer t res)
    (hp : ∀ u, Wired u (s.pipes u)) (u : Tid) : Wired u ((s.setPipe t res).pipes u) := by
  by_cases hu : u = t
  · subst hu
    simpa [setPipe] using h.wired
  · simpa [setPipe, hu] using hp u

end FsSys

namespace ReplySys
variable {s s' : ReplySys} {e : ReplyEvent} {t : Tid} {fs : FsSys}

/-- What the daemon has of its requests while it exists. -/
structure Serving (s : ReplySys) : Prop where
  proper : s.fs.daemon.Proper
  whole : s.fs.daemon.consumed ++ (s.fs.pipes s.fs.filesysd).fifo.bytes =
    s.queued.flatMap fun i => i.request.bytes (threadPipeFd i.thread)
  outside : s.fs.callers s.fs.filesysd = .outside
  senders : ∀ i ∈ s.unanswered, s.Exists i.thread i.created ∧ i.thread ≠ s.fs.filesysd
  writing : ∀ fd result, s.fs.daemon = .write fd result → ∃ i, s.answering = some i ∧
    fd = threadPipeFd i.thread ∧ s.fs.processed.getLast? = some ⟨i.thread, i.request, result⟩

/-- What the steps keep. -/
structure Inv (s : ReplySys) : Prop where
  below : ∀ t, s.fs.kernel.Alive t → t < threadMax
  wired : ∀ t, Wired t (s.fs.pipes t)
  numbered : s.filesysdCreated ≤ s.created s.fs.filesysd
  serving : s.FilesysdExists → s.Serving

theorem Inv.of_started (h : s.Started) : s.Inv where
  below := h.below
  wired t := by
    obtain ⟨data, hdata⟩ := h.pipes t
    exact hdata ▸ threadPipe_wired t data
  numbered := h.filesysd.2.ge
  serving _ := by
    obtain ⟨data, hdata⟩ := h.pipes s.fs.filesysd
    obtain ⟨hqueued, hanswering⟩ := h.unanswered
    exact {
      proper := by rw [h.daemon]; trivial
      whole := by rw [h.daemon, hdata, hqueued]; rfl
      outside := h.outside _
      senders := by simp [unanswered, hqueued, hanswering]
      writing := by simp [h.daemon] }

theorem Serving.frame (h : s.Serving) (halive : ∀ u, fs.kernel.Alive u ↔ s.fs.kernel.Alive u)
    (hfilesysd : fs.filesysd = s.fs.filesysd) (hdaemon : fs.daemon = s.fs.daemon)
    (hprocessed : fs.processed = s.fs.processed)
    (hbytes : (fs.pipes s.fs.filesysd).fifo.bytes = (s.fs.pipes s.fs.filesysd).fifo.bytes)
    (hcaller : fs.callers s.fs.filesysd = .outside) : Serving { s with fs } where
  proper := hdaemon ▸ h.proper
  whole := by
    change fs.daemon.consumed ++ (fs.pipes fs.filesysd).fifo.bytes = _
    rw [hdaemon, hfilesysd, hbytes]
    exact h.whole
  outside := (congrArg fs.callers hfilesysd).trans hcaller
  senders i hi := by
    obtain ⟨hexists, hne⟩ := h.senders i hi
    exact ⟨⟨(halive _).mpr hexists.1, hexists.2⟩, hfilesysd ▸ hne⟩
  writing fd result hd := by
    change ∃ i, s.answering = some i ∧ _ ∧ fs.processed.getLast? = _
    rw [hprocessed]
    exact h.writing fd result (hdaemon ▸ hd)

theorem Inv.transfer (h : s.Inv)
    (halive : ∀ u, s'.fs.kernel.Alive u ↔ s.fs.kernel.Alive u)
    (hfilesysd : s'.fs.filesysd = s.fs.filesysd)
    (hcreated : s'.created = s.created ∧ s'.filesysdCreated = s.filesysdCreated)
    (hwired : ∀ t, Wired t (s'.fs.pipes t)) (hserving : s.FilesysdExists → s'.Serving) :
    s'.Inv where
  below t ht := h.below t ((halive t).mp ht)
  wired := hwired
  numbered := by
    rw [hcreated.1, hcreated.2, hfilesysd]
    exact h.numbered
  serving hexists := by
    refine hserving ⟨(halive _).mp (hfilesysd ▸ hexists.1), ?_⟩
    have hsame := hexists.2
    rwa [hcreated.1, hcreated.2, hfilesysd] at hsame

theorem Inv.sendRequest {r : FsRequest} (h : s.Inv) (halive : s.fs.kernel.Alive s.fs.running)
    (hexists : s.FilesysdExists) (hsend : s.sendRequest r = some s') : s'.Inv := by
  obtain ⟨fs, hfs, rfl⟩ := Option.map_eq_some_iff.mp hsend
  obtain ⟨⟨-, hne, hout⟩, hfs⟩ := Option.ite_none_right_eq_some.mp hfs
  obtain ⟨w, hw, hfs⟩ := Option.bind_eq_some_iff.mp hfs
  obtain ⟨htransfer, hbytes⟩ := FsSys.pipeWrite_transfer (h.wired _) hw
  obtain rfl := Option.some.inj hfs
  have hS := h.serving hexists
  have hself : (Function.update s.fs.pipes s.fs.filesysd w.pipe s.fs.filesysd).fifo.bytes =
      w.pipe.fifo.bytes := by rw [Function.update_self]
  have hcaller : Function.update s.fs.callers s.fs.running (.requested r) s.fs.filesysd =
      .outside := by rw [Function.update_of_ne hne.symm, hS.outside]
  by_cases hroom :
      (r.bytes (threadPipeFd s.fs.running)).length ≤ (s.fs.pipes s.fs.filesysd).fifo.kfifoAvail
  · rw [if_pos hroom] at hbytes
    rw [if_pos (show s.fs.RequestOk (.request r) from hroom)]
    refine h.transfer htransfer.alive rfl ⟨rfl, rfl⟩ (htransfer.setPipe_wired h.wired) fun _ => ?_
    refine {
      proper := hS.proper
      whole := ?_
      outside := hcaller
      senders := fun i hi => ?_
      writing := hS.writing }
    · change s.fs.daemon.consumed ++
        (Function.update s.fs.pipes s.fs.filesysd w.pipe s.fs.filesysd).fifo.bytes = _
      rw [hself, hbytes, ← List.append_assoc, hS.whole, List.flatMap_append,
        List.flatMap_singleton]
      rfl
    · change i ∈ s.answering.toList ++ (s.queued ++ [s.received r]) at hi
      rw [← List.append_assoc, List.mem_append, List.mem_singleton] at hi
      obtain hi | rfl := hi
      · obtain ⟨hthere, hother⟩ := hS.senders i hi
        exact ⟨⟨(htransfer.alive _).mpr hthere.1, hthere.2⟩, hother⟩
      · exact ⟨⟨(htransfer.alive _).mpr halive, rfl⟩, hne⟩
  · rw [if_neg hroom, List.append_nil] at hbytes
    rw [if_neg (show ¬ s.fs.RequestOk (.request r) from hroom)]
    refine h.transfer htransfer.alive rfl ⟨rfl, rfl⟩ (htransfer.setPipe_wired h.wired) fun _ => ?_
    exact hS.frame htransfer.alive rfl rfl rfl (hself.trans hbytes) hcaller

theorem Inv.readReply (h : s.Inv) (hfs : s.fs.step .readReply = some fs) :
    Inv { s with fs } := by
  obtain ⟨r, hcaller, hread⟩ : ∃ r, s.fs.callers s.fs.running ≠ .outside ∧
      s.fs.readReply r = some fs := by
    simp only [FsSys.step] at hfs
    split at hfs
    · cases hfs
    · next r hc => exact ⟨r, by simp [hc], hfs⟩
    · next r hc => exact ⟨r, by simp [hc], (Option.ite_none_right_eq_some.mp hfs).2⟩
  obtain ⟨res, hres, hfs⟩ := Option.bind_eq_some_iff.mp hread
  have htransfer := FsSys.pipeRead_transfer (h.wired _) hres
  obtain ⟨c, answered, rfl⟩ : ∃ c answered, fs = { (s.fs.setPipe s.fs.running res).setCaller
      s.fs.running c with answered } := by
    split at hfs
    · exact ⟨_, _, (Option.some.inj hfs).symm⟩
    · exact ⟨_, _, (Option.some.inj hfs).symm⟩
  refine h.transfer htransfer.alive rfl ⟨rfl, rfl⟩ (htransfer.setPipe_wired h.wired)
    fun hexists => ?_
  have hS := h.serving hexists
  have hne : s.fs.filesysd ≠ s.fs.running := fun heq => hcaller (heq ▸ hS.outside)
  refine hS.frame htransfer.alive rfl rfl rfl ?_ ?_
  · exact congrArg (fun p : Pipe => p.fifo.bytes) (Function.update_of_ne hne ..)
  · exact (Function.update_of_ne hne ..).trans hS.outside

theorem Inv.daemonRead {n : Nat} {result : Word} (h : s.Inv) (hexists : s.FilesysdExists)
    (hsize : s.fs.daemon.readSize = some n) (hstep : s.fs.daemonStep result = some fs) :
    Inv { s with fs } := by
  have hS := h.serving hexists
  rw [FsSys.daemonStep_read hsize] at hstep
  obtain ⟨res, hres, rfl⟩ := Option.map_eq_some_iff.mp hstep
  have htransfer := FsSys.pipeRead_transfer (h.wired _) hres
  refine h.transfer htransfer.alive rfl ⟨rfl, rfl⟩ (htransfer.setPipe_wired h.wired) fun _ => ?_
  have hself : (Function.update s.fs.pipes s.fs.filesysd res.pipe s.fs.filesysd).fifo.bytes =
      res.pipe.fifo.bytes := by rw [Function.update_self]
  obtain ⟨-, hrestart, -, hpipe, -⟩ | ⟨-, hrestart, -, -, rfl, hbytes, -⟩ :=
    FsSys.pipeRead_cases (h.wired _) hres
  · refine hS.frame htransfer.alive rfl (if_pos hrestart) rfl ?_ hS.outside
    exact hself.trans (by rw [hpipe])
  · have hdaemon : (if res.restart then s.fs.daemon else s.fs.daemon.afterRead res.bytes) =
        s.fs.daemon.afterRead res.bytes := by simp [hrestart]
    have hwhole := hS.whole
    rw [hbytes] at hwhole
    obtain ⟨i, rest, hqueued⟩ : ∃ i rest, s.queued = i :: rest := by
      refine List.exists_cons_of_ne_nil fun hnil => ?_
      have hlen := congrArg List.length hwhole
      have hpos := Filesysd.readSize_pos hsize
      simp only [hnil, List.length_append, List.flatMap_nil, List.length_nil] at hlen
      omega
    rw [hqueued, List.flatMap_cons] at hwhole
    obtain ⟨hconsumed, hproper⟩ := Filesysd.afterRead_consumed hS.proper hsize hwhole
    refine {
      proper := ?_
      whole := ?_
      outside := hS.outside
      senders := fun i hi => ?_
      writing := fun fd result hd => ?_ }
    · change (if res.restart then s.fs.daemon else s.fs.daemon.afterRead res.bytes).Proper
      rwa [hdaemon]
    · change (if res.restart then s.fs.daemon else s.fs.daemon.afterRead res.bytes).consumed ++
        (Function.update s.fs.pipes s.fs.filesysd res.pipe s.fs.filesysd).fifo.bytes = _
      rw [hdaemon, hself, hconsumed, List.append_assoc, ← hbytes]
      exact hS.whole
    · obtain ⟨hthere, hother⟩ := hS.senders i hi
      exact ⟨⟨(htransfer.alive _).mpr hthere.1, hthere.2⟩, hother⟩
    · change (if res.restart then s.fs.daemon else s.fs.daemon.afterRead res.bytes) = _ at hd
      rw [hdaemon] at hd
      exact absurd hd (Filesysd.afterRead_ne_write hsize)

theorem Serving.call {fd : Word} {r : FsRequest} (h : s.Serving) (hd : s.fs.daemon = .call fd r) :
    ∃ i rest, s.queued = i :: rest ∧ r = i.request ∧ fd = threadPipeFd i.thread ∧
      (s.fs.pipes s.fs.filesysd).fifo.bytes =
        rest.flatMap fun i => i.request.bytes (threadPipeFd i.thread) := by
  have hwhole := h.whole
  rw [hd, Filesysd.consumed] at hwhole
  cases hqueued : s.queued with
  | nil =>
      have hlen := congrArg List.length hwhole
      have hbound := FsRequest.length_bytes fd r
      simp only [hqueued, List.length_append, List.flatMap_nil, List.length_nil] at hlen
      omega
  | cons i rest =>
      rw [hqueued, List.flatMap_cons] at hwhole
      obtain ⟨hr, hfd, hrest⟩ := FsRequest.bytes_append hwhole
      exact ⟨i, rest, rfl, hr, hfd, hrest⟩

theorem Inv.daemonCall {fd result : Word} {r : FsRequest} (h : s.Inv) (hexists : s.FilesysdExists)
    (hd : s.fs.daemon = .call fd r) (hstep : s.fs.daemonStep result = some fs) :
    Inv { s with fs, queued := s.queued.tail, answering := s.queued.head? } := by
  have hS := h.serving hexists
  obtain ⟨i, rest, hqueued, rfl, rfl, hrest⟩ := hS.call hd
  obtain ⟨hthere, hother⟩ := hS.senders i (by simp [unanswered, hqueued])
  have hlt := h.below _ hthere.1
  obtain rfl : fs = { s.fs with
      daemon := .write (threadPipeFd i.thread) result
      processed := s.fs.processed ++ [⟨i.thread, i.request, result⟩] } := by
    simpa [FsSys.daemonStep, hd, FsSys.pipeOwner_threadPipeFd hlt, eq_comm] using hstep
  refine h.transfer (fun _ => Iff.rfl) rfl ⟨rfl, rfl⟩ h.wired fun _ => ?_
  rw [hqueued]
  exact {
    proper := trivial
    whole := hrest
    outside := hS.outside
    senders := fun j hj => hS.senders j
      (List.mem_append_right _ (hqueued ▸ (show j ∈ i :: rest from hj)))
    writing := fun fd' result' hd' => by
      obtain ⟨rfl, rfl⟩ := Filesysd.write.inj hd'
      exact ⟨i, rfl, rfl, List.getLast?_concat ..⟩ }

theorem Inv.daemonWrite {fd result x : Word} (h : s.Inv) (hexists : s.FilesysdExists)
    (hd : s.fs.daemon = .write fd result) (hstep : s.fs.daemonStep x = some fs) :
    Inv { s with fs, answering := if fs.daemon = .readFileCmd then none else s.answering } := by
  have hS := h.serving hexists
  obtain ⟨i, hanswering, rfl, hlast⟩ := hS.writing _ _ hd
  obtain ⟨hthere, hother⟩ := hS.senders i (by simp [unanswered, hanswering])
  have hstep' : (s.fs.pipeWrite i.thread (wordBytes result)).map (fun w =>
      { s.fs.setPipe i.thread w with
        daemon := if w.restart then .write (threadPipeFd i.thread) result else .readFileCmd }) =
      some fs := by
    rw [← hstep]
    simp [FsSys.daemonStep, hd, FsSys.pipeOwner_threadPipeFd (h.below _ hthere.1),
      Option.map_eq_bind]
  obtain ⟨w, hw, rfl⟩ := Option.map_eq_some_iff.mp hstep'
  obtain ⟨htransfer, -⟩ := FsSys.pipeWrite_transfer (h.wired _) hw
  have hpipe : (Function.update s.fs.pipes i.thread w.pipe s.fs.filesysd) =
      s.fs.pipes s.fs.filesysd := Function.update_of_ne hother.symm ..
  refine h.transfer htransfer.alive rfl ⟨rfl, rfl⟩ (htransfer.setPipe_wired h.wired) fun _ => ?_
  by_cases hrestart : w.restart
  · rw [if_pos hrestart, if_neg Filesysd.noConfusion]
    exact hS.frame htransfer.alive rfl hd.symm rfl (by rw [← hpipe]; rfl) hS.outside
  · rw [if_neg hrestart, if_pos rfl]
    have hwhole := hS.whole
    rw [hd, ← hpipe] at hwhole
    exact {
      proper := trivial
      whole := hwhole
      outside := hS.outside
      senders := fun j hj => by
        obtain ⟨hjthere, hjother⟩ := hS.senders j (List.mem_append_right _ hj)
        exact ⟨⟨(htransfer.alive _).mpr hjthere.1, hjthere.2⟩, hjother⟩
      writing := fun fd' result' hd' => by cases hd' }

theorem Inv.daemonStep {result : Word} (h : s.Inv) (hexists : s.FilesysdExists)
    (hstep : s.daemonStep result = some s') : s'.Inv := by
  obtain ⟨fs, hfs, rfl⟩ := Option.map_eq_some_iff.mp hstep
  have hfs := (Option.ite_none_right_eq_some.mp hfs).2
  cases hd : s.fs.daemon with
  | readFileCmd | readReplyFd fileCmd | readPath fileCmd replyFd | readLast fileCmd replyFd path =>
      exact h.daemonRead hexists (by rw [hd, Filesysd.readSize]) hfs
  | call replyFd request => exact h.daemonCall hexists hd hfs
  | write replyFd result => exact h.daemonWrite hexists hd hfs

theorem newThread_of_alive {k k' : Kernel} (ht : k.Alive t) : newThread k k' t = false := by
  have hbit : k.bitmapThreads t = true := ht
  rw [newThread, hbit, Bool.not_true, Bool.false_and]

/-- A step that ends no thread with a request that is not answered keeps them all, and no other
thread gets one of their IDs. -/
theorem Inv.runKernel {ke : KernelEvent} {k : Kernel} (h : s.Inv) (stack : Nat → Byte)
    (hok : s.FilesysdExists → ∀ i ∈ s.unanswered, i.thread ∉ s.fs.kernel.removes ke)
    (hstep : s.fs.kernel.step ke = some k) : (s.runKernel stack k).Inv where
  below t ht := (born_of_step hstep ht).elim (h.below t) And.left
  wired t := by
    simp only [ReplySys.runKernel]
    split
    · exact threadPipe_wired t stack
    · exact h.wired t
  numbered := by
    simp only [ReplySys.runKernel]
    split
    · exact h.numbered.trans (Nat.le_succ _)
    · exact h.numbered
  serving hexists := by
    obtain ⟨halive', hcount⟩ := hexists
    simp only [ReplySys.runKernel] at halive' hcount
    have halive : s.fs.kernel.Alive s.fs.filesysd := by
      by_contra hdead
      have hnew : newThread s.fs.kernel k s.fs.filesysd = true := by
        have hbit : k.bitmapThreads s.fs.filesysd = true := halive'
        have hno : s.fs.kernel.bitmapThreads s.fs.filesysd = false := by simpa [Alive] using hdead
        rw [newThread, hbit, hno]
        rfl
      -- the ID of the daemon belongs to a later thread
      rw [if_pos hnew] at hcount
      have hle := h.numbered
      omega
    have hold : newThread s.fs.kernel k s.fs.filesysd = false := newThread_of_alive halive
    have hexists : s.FilesysdExists := ⟨halive, by rw [← hcount, hold, if_neg (by simp)]⟩
    have hS := h.serving hexists
    exact {
      proper := hS.proper
      whole := by
        simp only [ReplySys.runKernel, hold, Bool.false_eq_true, if_false]
        exact hS.whole
      outside := by
        simp only [ReplySys.runKernel, hold, Bool.false_eq_true, if_false]
        exact hS.outside
      senders := fun i hi => by
        obtain ⟨hthere, hother⟩ := hS.senders i hi
        have hkept := alive_step hstep hthere.1 (hok hexists i hi)
        refine ⟨⟨hkept, ?_⟩, hother⟩
        simp only [ReplySys.runKernel, newThread_of_alive hthere.1, Bool.false_eq_true, if_false]
        exact hthere.2
      writing := hS.writing }

theorem Inv.step (h : s.Inv) (hok : s.ReplyOk e) (hstep : s.step e = some s') : s'.Inv := by
  cases e with
  | request r =>
      obtain ⟨hexists, hsend⟩ := Option.ite_none_right_eq_some.mp hstep
      exact h.sendRequest hok hexists hsend
  | readReply =>
      obtain ⟨fs, hfs, rfl⟩ := Option.map_eq_some_iff.mp hstep
      exact h.readReply hfs
  | daemon result =>
      obtain ⟨hexists, hdaemon⟩ := Option.ite_none_right_eq_some.mp hstep
      exact h.daemonStep hexists hdaemon
  | kernel ke stack =>
      obtain ⟨k, hk, rfl⟩ := Option.map_eq_some_iff.mp hstep
      exact h.runKernel stack hok hk

theorem Inv.repliesReach (h : s.Inv) : s.RepliesReach := by
  intro fd result x s' hd hstep
  obtain ⟨hexists, -⟩ := Option.ite_none_right_eq_some.mp hstep
  have hS := h.serving hexists
  obtain ⟨i, hanswering, rfl, hlast⟩ := hS.writing fd result hd
  obtain ⟨hthere, -⟩ := hS.senders i (by simp [unanswered, hanswering])
  exact ⟨i, hanswering, FsSys.pipeOwner_threadPipeFd (h.below _ hthere.1), hthere, hlast⟩

/-- If no step ends a thread whose request is not answered, and none that was ended sends one,
every reply of the run reaches the thread that it is for. -/
theorem repliesReach_of_replyOk {s₀ : ReplySys} {es : List ReplyEvent} (hstart : s₀.Started)
    (hok : Runs.AllOk ReplyOk step s₀ es) (hrun : Runs.exec step s₀ es = some s) :
    s.RepliesReach :=
  (Runs.exec_invariant (fun _ _ _ h hok hstep => h.step hok hstep) (Inv.of_started hstart) hok
    hrun).repliesReach

/-- New pipes on a kernel where the daemon is thread 2, with the threads that it has. -/
def repliesOn (k : Kernel) : ReplySys where
  fs := FsSys.fsOn k
  created t := if k.bitmapThreads t then 1 else 0
  filesysdCreated := 1
  queued := []
  answering := none

theorem repliesOn_started {k : Kernel} (hk : k.Settled) (halive : k.Alive 2) :
    (repliesOn k).Started where
  below t ht := by
    obtain ⟨L, hK⟩ := hk.steady
    exact hK.threaded.lt_max t ht
  pipes _ := ⟨_, rfl⟩
  filesysd := ⟨halive, if_pos halive⟩
  daemon := rfl
  outside _ := rfl
  unanswered := ⟨rfl, rfl⟩

/-- The system after its start, when the daemon waits for its first command. -/
def booted : ReplySys := repliesOn (FsSys.kernelAfter FsSys.daemonRun)

theorem booted_started : booted.Started :=
  repliesOn_started (FsSys.kernelAfter_settled (by decide +kernel) (by decide +kernel)
    (by decide +kernel) (by decide +kernel)) (by decide +kernel)

def kernelStep (e : KernelEvent) : ReplyEvent := .kernel e fun _ => 0#8

def call (c : KernelCall) : List ReplyEvent := [kernelStep .syscallHandler, kernelStep (.call c)]

/-- Init creates a task of its own priority whose thread, 5, opens a file and waits. -/
def openRun : List ReplyEvent :=
  call (.taskCreate (kthreadPriMax - 1) true true) ++ [kernelStep .schedule,
    kernelStep .syscallHandler, .request (.openFile 7#32), .readReply, kernelStep .schedule]

/-- The daemon gets the CPU, reads the request and has its result. -/
def serveRun : List ReplyEvent := kernelStep .schedule :: List.replicate 4 (.daemon 3#32)

/-- Init creates another task and kills it again while the request is in the pipe. -/
def killOtherRun : List ReplyEvent :=
  openRun ++ call (.taskCreate (kthreadPriMax - 1) true true) ++ call (.kill 5 (some .kill)) ++
    serveRun

theorem repliesReach_of_replyOk_at_killOther :
    booted.Started ∧ Runs.AllOk ReplyOk step booted killOtherRun ∧
    ∃ s, Runs.exec step booted killOtherRun = some s ∧
      s.fs.daemon = .write (threadPipeFd 5) 3#32 ∧ s.RepliesReach := by
  have hok : Runs.AllOk ReplyOk step booted killOtherRun := by decide +kernel
  have hrun : (Runs.exec step booted killOtherRun).map (·.fs.daemon) =
      some (.write (threadPipeFd 5) 3#32) := by decide +kernel
  obtain ⟨s, hs, hdaemon⟩ := Option.map_eq_some_iff.mp hrun
  exact ⟨booted_started, hok, s, hs, hdaemon, repliesReach_of_replyOk booted_started hok hs⟩

/-- Init kills the task that waits for its reply, and the thread of the next task gets its ID. -/
def killRun : List ReplyEvent :=
  openRun ++ call (.kill 4 (some .kill)) ++ call (.taskCreate (kthreadPriMax - 1) true true) ++
    serveRun

/-- The second thread 5 gets the reply to the first one. -/
theorem repliesReach_not_after_kill : booted.Started ∧
    ∃ s s', Runs.exec step booted killRun = some s ∧
      ¬ s.RepliesReach ∧ s.step (.daemon 0#32) = some s' ∧ s'.Exists 5 2 ∧
      (s'.fs.pipes 5).fifo.bytes = wordBytes 3#32 := by
  have hrun : (Runs.exec step booted killRun).bind
      (fun s => (s.step (.daemon 0#32)).map fun s' => (s.fs.daemon, s.answering, s.created 5,
        decide (s'.Exists 5 2), (s'.fs.pipes 5).fifo.bytes)) =
      some (.write (threadPipeFd 5) 3#32, some ⟨5, 1, .openFile 7#32⟩, 2, true,
        wordBytes 3#32) := by decide +kernel
  obtain ⟨s, hs, hstep⟩ := Option.bind_eq_some_iff.mp hrun
  obtain ⟨s', hs', hfacts⟩ := Option.map_eq_some_iff.mp hstep
  simp only [Prod.mk.injEq] at hfacts
  obtain ⟨hdaemon, hanswering, hcreated, hexists, hbytes⟩ := hfacts
  refine ⟨booted_started, s, s', hs, fun hreach => ?_, hs', of_decide_eq_true hexists, hbytes⟩
  obtain ⟨i, hi, -, hthere, -⟩ := hreach _ _ _ _ hdaemon hs'
  obtain rfl := Option.some.inj (hanswering.symm.trans hi)
  have hnumber : 2 = 1 := hcreated.symm.trans hthere.2
  cases hnumber

end ReplySys

end Tenok
