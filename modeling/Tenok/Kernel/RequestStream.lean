import Tenok.Kernel.FsRequests
import Tenok.Kernel.PipeNet

/-!
The bytes between the callers of the file system and its daemon. Nothing in the pipe tells
where a request ends: the daemon knows it from the command it has read first.
-/
namespace Tenok
open Kernel

/-- The pipe of the daemon, the requests that were written to it with their reply
descriptors, and those that the daemon has read. -/
structure RequestStream where
  pipe : Pipe
  daemon : Filesysd
  written : List (Word × FsRequest)
  decoded : List (Word × FsRequest)

/-- Each step finds any kernel. -/
inductive StreamEvent
  | request (kernel : Kernel) (replyFd : Word) (r : FsRequest)
  | daemon (kernel : Kernel) (result : Word)

/-- A pass of the daemon. The lists of the kernel are well formed, and the wait lists of
the daemon's pipe are among them. -/
def StreamEvent.ByDaemon (filesysd : Tid) : StreamEvent → Prop
  | .request _ _ _ => False
  | .daemon k _ => (∃ L, k.Threaded {t | k.Alive t} L) ∧ k.Alive filesysd

namespace RequestStream

/-- A write of a whole request, or a pass of the daemon. The reply goes to the pipe of
another thread. -/
def step (s : RequestStream) : StreamEvent → Option RequestStream
  | .request k replyFd r =>
      let buf := r.bytes replyFd
      if buf.length ≤ s.pipe.fifo.kfifoAvail then
        (Pipe.fifoWrite k s.pipe (fun i => buf.getD i 0#8) buf.length).map fun w =>
          { s with pipe := w.pipe, written := s.written ++ [(replyFd, r)] }
      else none
  | .daemon k result =>
      match s.daemon with
      | .call replyFd r =>
          some { s with daemon := .write replyFd result, decoded := s.decoded ++ [(replyFd, r)] }
      | .write _ _ => some { s with daemon := .readFileCmd }
      | d => do
          let size ← d.readSize
          let res ← Pipe.fifoRead k s.pipe (fun _ => 0#8) size
          some { s with
            pipe := res.pipe, daemon := if res.restart then d else d.afterRead res.bytes }

def start (filesysd : Tid) (data : Nat → Byte) : RequestStream where
  pipe := FsSys.threadPipe filesysd data
  daemon := .readFileCmd
  written := []
  decoded := []

/-- The bytes in the pipe, and what the daemon makes of those it has read. -/
def work (s : RequestStream) : Nat := s.daemon.rank + s.pipe.fifo.kfifoLen

/-- The daemon has read what was written, and waits for the next command. -/
structure Drained (s : RequestStream) : Prop where
  decoded : s.decoded = s.written
  bytes : s.pipe.fifo.bytes = []
  daemon : s.daemon = .readFileCmd

/-- What is in the pipe begins where the daemon is in the first request that is not done. -/
structure Framed (filesysd : Tid) (s : RequestStream) (pending : List (Word × FsRequest)) :
    Prop where
  wired : Wired filesysd s.pipe
  proper : s.daemon.Proper
  written : s.written = s.decoded ++ pending
  whole : s.daemon.consumed ++ s.pipe.fifo.bytes = pending.flatMap fun i => i.2.bytes i.1

section Steps
variable {s s' : RequestStream} {filesysd : Tid} {pending : List (Word × FsRequest)} {k : Kernel}
  {fd result : Word} {r : FsRequest} {n : Nat}

theorem Framed.request (h : Framed filesysd s pending)
    (hstep : s.step (.request k fd r) = some s') :
    Framed filesysd s' (pending ++ [(fd, r)]) ∧ s'.decoded = s.decoded := by
  simp only [step, Option.ite_none_right_eq_some] at hstep
  obtain ⟨hroom, hwrite⟩ := hstep
  obtain ⟨w, hw, rfl⟩ := Option.map_eq_some_iff.mp hwrite
  obtain ⟨hlt, -⟩ | ⟨-, -, hpipe, hstream, hsize, hbytes, -⟩ :=
    Pipe.fifoWrite_blocking h.wired.stream h.wired.nonblock hw
  · exact absurd hroom (Nat.not_le_of_lt hlt)
  · rw [bytesAt_getD] at hbytes
    refine ⟨⟨h.wired.of_fifo hpipe hstream hsize, h.proper, ?_, ?_⟩, rfl⟩
    · rw [h.written, List.append_assoc]
    · rw [hbytes, ← List.append_assoc, h.whole, List.flatMap_append, List.flatMap_singleton]

theorem step_read (hsize : s.daemon.readSize = some n) :
    s.step (.daemon k result) = (Pipe.fifoRead k s.pipe (fun _ => 0#8) n).map fun res =>
      { s with
        pipe := res.pipe
        daemon := if res.restart then s.daemon else s.daemon.afterRead res.bytes } := by
  cases hd : s.daemon with
  | readFileCmd | readReplyFd fileCmd | readPath fileCmd replyFd | readLast fileCmd replyFd path =>
      rw [hd] at hsize
      simp [step, hd, hsize, Option.map_eq_bind]
  | call replyFd request | write replyFd result =>
      rw [hd] at hsize
      cases hsize

theorem eq_readFileCmd {d : Filesysd} (hsize : d.readSize = some n) (h : d.consumed = []) :
    d = .readFileCmd := by
  cases d with
  | readFileCmd => rfl
  | readReplyFd fileCmd | readPath fileCmd replyFd | readLast fileCmd replyFd path => cases h
  | call replyFd request | write replyFd result => cases hsize

/-- A `read` of the daemon that is served leaves less to do; one that is not finds nothing
behind the requests that were read. -/
theorem Framed.read (h : Framed filesysd s pending) (hsize : s.daemon.readSize = some n)
    (hstep : s.step (.daemon k result) = some s') :
    Framed filesysd s' pending ∧ s'.work ≤ s.work - 1 := by
  rw [step_read hsize] at hstep
  obtain ⟨res, hres, rfl⟩ := Option.map_eq_some_iff.mp hstep
  have hwhole := h.whole
  obtain ⟨hlt, rfl⟩ | ⟨-, hret, hpipe, hstream, hsize', hbytes, -⟩ :=
    Pipe.fifoRead_blocking h.wired.stream h.wired.nonblock hres
  · refine ⟨⟨h.wired, h.proper, h.written, h.whole⟩, ?_⟩
    have hpending : pending = [] := by
      cases pending with
      | nil => rfl
      | cons i rest =>
          rw [List.flatMap_cons] at hwhole
          have hserved := Filesysd.readSize_le h.proper hsize hwhole
          rw [Pipe.length_bytes] at hserved
          exact absurd hlt (Nat.not_lt_of_le hserved)
    rw [hpending, List.flatMap_nil, List.append_eq_nil_iff] at hwhole
    obtain ⟨hconsumed, hempty⟩ := hwhole
    have hidle : s.work = 0 := by
      rw [work, ← Pipe.length_bytes, hempty, eq_readFileCmd hsize hconsumed]
      rfl
    exact hidle.le.trans (Nat.zero_le _)
  · have hlen : res.bytes.length = n := by rw [FifoResult.bytes, hret, length_bytesAt]
    have hrestart : res.restart = false := by rw [FifoResult.restart, hret]
    rw [← hlen] at hsize
    rw [hbytes] at hwhole
    obtain ⟨hproper, hwhole'⟩ := requests_afterRead Prod.fst Prod.snd h.proper hsize hwhole
    have hrank := Filesysd.rank_afterRead hsize
    have hbytes' := congrArg List.length hbytes
    rw [List.length_append, Pipe.length_bytes, Pipe.length_bytes] at hbytes'
    simp only [hrestart, Bool.false_eq_true, if_false, work]
    exact ⟨⟨h.wired.of_fifo hpipe hstream hsize', hproper, h.written, hwhole'⟩, by omega⟩

/-- A pass of the daemon keeps it in step with what was written, and brings it closer to the
end of that. -/
theorem Framed.daemon (h : Framed filesysd s pending)
    (hstep : s.step (.daemon k result) = some s') :
    (∃ pending', Framed filesysd s' pending') ∧ s'.written = s.written ∧
      s'.work ≤ s.work - 1 := by
  have hwhole := h.whole
  cases hd : s.daemon with
  | readFileCmd | readReplyFd fileCmd | readPath fileCmd replyFd | readLast fileCmd replyFd path =>
      obtain ⟨n, hsize⟩ : ∃ n, s.daemon.readSize = some n := by simp [hd, Filesysd.readSize]
      obtain ⟨hframed, hwork⟩ := h.read hsize hstep
      rw [step_read hsize] at hstep
      obtain ⟨res, -, rfl⟩ := Option.map_eq_some_iff.mp hstep
      exact ⟨⟨pending, hframed⟩, rfl, hwork⟩
  | call replyFd r =>
      rw [hd, Filesysd.consumed] at hwhole
      obtain ⟨i, rest, rfl, rfl, rfl, hrest⟩ := requests_head Prod.fst Prod.snd hwhole
      simp only [step, hd, Option.some.injEq] at hstep
      subst hstep
      refine ⟨⟨rest, h.wired, trivial, ?_, hrest⟩, rfl, ?_⟩
      · rw [h.written, List.append_assoc]
        rfl
      · simp only [work, hd, Filesysd.rank]
        omega
  | write replyFd reply =>
      rw [hd] at hwhole
      simp only [step, hd, Option.some.injEq] at hstep
      subst hstep
      refine ⟨⟨pending, h.wired, trivial, h.written, hwhole⟩, rfl, ?_⟩
      simp only [work, hd, Filesysd.rank]
      omega

theorem Framed.step {e : StreamEvent} (h : Framed filesysd s pending)
    (hstep : s.step e = some s') : ∃ pending', Framed filesysd s' pending' := by
  cases e with
  | request k fd r => exact ⟨_, (h.request hstep).1⟩
  | daemon k result => exact (h.daemon hstep).1

theorem Framed.drained (h : Framed filesysd s pending) (hwork : s.work = 0) : s.Drained := by
  obtain ⟨hrank, hlen⟩ := Nat.eq_zero_of_add_eq_zero hwork
  have hbytes : s.pipe.fifo.bytes = [] := by rwa [← List.length_eq_zero_iff, Pipe.length_bytes]
  have hdaemon : s.daemon = .readFileCmd := by
    cases hd : s.daemon with
    | readFileCmd => rfl
    | readReplyFd fileCmd | readPath fileCmd replyFd | readLast fileCmd replyFd path
    | call replyFd request | write replyFd result =>
        rw [hd] at hrank
        cases hrank
  have hwhole := h.whole
  rw [hdaemon, hbytes] at hwhole
  have hpending := requests_eq_nil Prod.fst Prod.snd hwhole.symm
  exact ⟨by rw [h.written, hpending, List.append_nil], hbytes, hdaemon⟩

theorem Framed.daemon_isSome {e : StreamEvent} (h : Framed filesysd s pending)
    (he : e.ByDaemon filesysd) : ∃ s', s.step e = some s' := by
  obtain ⟨k, result, rfl, L, hT, halive⟩ : ∃ k result, e = .daemon k result ∧
      ∃ L, k.Threaded {t | k.Alive t} L ∧ k.Alive filesysd := by
    cases e with
    | request k fd r => exact he.elim
    | daemon k result =>
        obtain ⟨⟨L, hT⟩, halive⟩ := he
        exact ⟨k, result, rfl, L, hT, halive⟩
  have hqueue : SchedList.wait (.pipeWrite filesysd) ∈ inUse {t | k.Alive t} :=
    fun t ht => Option.some.inj ht ▸ halive
  cases hsize : s.daemon.readSize with
  | none =>
      cases hd : s.daemon with
      | call replyFd r | write replyFd r => simp [RequestStream.step, hd]
      | readFileCmd | readReplyFd fileCmd | readPath fileCmd replyFd
      | readLast fileCmd replyFd path =>
          rw [hd] at hsize
          cases hsize
  | some n =>
      have hread : ∃ res, Pipe.fifoRead k s.pipe (fun _ => 0#8) n = some res := by
        simp only [Pipe.fifoRead, h.wired.nonblock, Bool.false_eq_true, if_false]
        split
        · exact ⟨_, rfl⟩
        · obtain ⟨k', L', hk', -⟩ := hT.fifoWakeUp hqueue
          simp only [Pipe.readBytes, h.wired.wWaitList]
          exact ⟨_, by rw [hk']; rfl⟩
      obtain ⟨res, hres⟩ := hread
      rw [step_read hsize, hres]
      exact ⟨_, rfl⟩

theorem Framed.request_isSome {L : SchedList → List Tid} (h : Framed filesysd s pending)
    (hT : k.Threaded {t | k.Alive t} L) (halive : k.Alive filesysd)
    (hroom : (r.bytes fd).length ≤ s.pipe.fifo.kfifoAvail) :
    ∃ s', s.step (.request k fd r) = some s' ∧ s'.written = s.written ++ [(fd, r)] := by
  have hqueue : SchedList.wait (.pipeRead filesysd) ∈ inUse {t | k.Alive t} :=
    fun t ht => Option.some.inj ht ▸ halive
  obtain ⟨k', L', hk', -⟩ := hT.fifoWakeUp hqueue
  have hwrite : ∃ w, Pipe.fifoWrite k s.pipe (fun i => (r.bytes fd).getD i 0#8)
      (r.bytes fd).length = some w := by
    simp only [Pipe.fifoWrite, if_neg (Nat.not_lt_of_le hroom), Pipe.writeBytes,
      h.wired.rWaitList]
    exact ⟨_, by rw [hk']; rfl⟩
  obtain ⟨w, hw⟩ := hwrite
  simp only [RequestStream.step, if_pos hroom, hw, Option.map_some]
  exact ⟨_, rfl, rfl⟩

end Steps

theorem framed_of_exec {filesysd : Tid} {data : Nat → Byte} {es : List StreamEvent}
    {s : RequestStream} (hrun : Runs.exec step (start filesysd data) es = some s) :
    ∃ pending, Framed filesysd s pending := by
  have hstart : ∃ pending, Framed filesysd (start filesysd data) pending :=
    ⟨[], threadPipe_wired filesysd data, trivial, rfl, rfl⟩
  have hkeeps : ∀ u e v, (∃ pending, Framed filesysd u pending) → step u e = some v →
      ∃ pending, Framed filesysd v pending := fun _ _ _ ⟨_, h⟩ hstep => h.step hstep
  exact Runs.exec_keeps hkeeps hstart hrun

theorem drained_of_passes {filesysd : Tid} {data : Nat → Byte} {es ds : List StreamEvent}
    {s : RequestStream} (hrun : Runs.exec step (start filesysd data) es = some s)
    (hds : ∀ d ∈ ds, d.ByDaemon filesysd) (hwork : s.work ≤ ds.length) :
    ∃ s', Runs.exec step s ds = some s' ∧ s'.written = s.written ∧ s'.Drained := by
  have hpass : ∀ u d, ((∃ pending, Framed filesysd u pending) ∧ u.written = s.written) →
      StreamEvent.ByDaemon filesysd d → ∃ v, step u d = some v ∧
        ((∃ pending, Framed filesysd v pending) ∧ v.written = s.written) ∧
        v.work ≤ u.work - 1 := by
    rintro u d ⟨⟨pending, hu⟩, hwritten⟩ hd
    obtain ⟨v, hv⟩ := hu.daemon_isSome hd
    cases d with
    | request k fd r => exact hd.elim
    | daemon k result =>
        obtain ⟨hframed, hsame, hdown⟩ := hu.daemon hv
        exact ⟨v, hv, ⟨hframed, hsame.trans hwritten⟩, hdown⟩
  obtain ⟨s', hs', ⟨⟨pending, h⟩, hwritten⟩, hzero⟩ :=
    Runs.exec_measure hpass ⟨framed_of_exec hrun, rfl⟩ hds hwork
  exact ⟨s', hs', hwritten, h.drained hzero⟩

theorem exists_written {filesysd : Tid} {k : Kernel} {L : SchedList → List Tid}
    (data : Nat → Byte) (hT : k.Threaded {t | k.Alive t} L) (halive : k.Alive filesysd)
    (requests : List (Word × FsRequest)) : ∃ es s,
      Runs.exec step (start filesysd data) es = some s ∧ s.written = requests ∧ s.Drained := by
  induction requests using List.reverseRecOn with
  | nil => exact ⟨[], start filesysd data, rfl, rfl, rfl, rfl, rfl⟩
  | append_singleton requests m ih =>
      obtain ⟨es, s, hrun, hwritten, hdrained⟩ := ih
      obtain ⟨pending, h⟩ := framed_of_exec hrun
      have hroom : (m.2.bytes m.1).length ≤ s.pipe.fifo.kfifoAvail := by
        have havail := h.wired.avail
        rw [← Pipe.length_bytes, hdrained.bytes, List.length_nil, Nat.zero_add] at havail
        rw [havail]
        exact (m.2.length_bytes m.1).2.trans (by decide)
      obtain ⟨s₁, hs₁, hwritten₁⟩ := h.request_isSome hT halive hroom
      have hrun₁ : Runs.exec step (start filesysd data) (es ++ [.request k m.1 m.2]) = some s₁ := by
        rw [Runs.exec_append, hrun, Option.bind_some, Runs.exec, hs₁]
        rfl
      have hpasses : ∀ d ∈ List.replicate s₁.work (.daemon k 0#32),
          StreamEvent.ByDaemon filesysd d := by
        intro d hd
        rw [List.eq_of_mem_replicate hd]
        exact ⟨⟨L, hT⟩, halive⟩
      obtain ⟨s', hs', hwritten', hdrained'⟩ :=
        drained_of_passes hrun₁ hpasses List.length_replicate.ge
      refine ⟨es ++ [.request k m.1 m.2] ++ List.replicate s₁.work (.daemon k 0#32), s', ?_, ?_,
        hdrained'⟩
      · rw [Runs.exec_append, hrun₁, Option.bind_some, hs']
      · rw [hwritten', hwritten₁, hwritten]

/-- However writes of requests and reads of the daemon follow each other, what was decoded is
the beginning of what was written, and passes of the daemon get to the end of it. -/
theorem decodes_written {filesysd : Tid} {data : Nat → Byte} {es : List StreamEvent}
    {s : RequestStream} (hrun : Runs.exec step (start filesysd data) es = some s) :
    s.decoded <+: s.written ∧
      ∀ ds : List StreamEvent, (∀ d ∈ ds, d.ByDaemon filesysd) → s.work ≤ ds.length →
        ∃ s', Runs.exec step s ds = some s' ∧ s'.written = s.written ∧ s'.Drained := by
  obtain ⟨pending, h⟩ := framed_of_exec hrun
  exact ⟨⟨pending, h.written.symm⟩, fun ds hds hwork => drained_of_passes hrun hds hwork⟩

def mixedEvents : List StreamEvent :=
  [.request userKernel 8#32 (.createFile 7#32 1#8), .daemon userKernel 0#32,
    .request userKernel 9#32 (.getcwd 6#32 50#32), .request userKernel 7#32 (.chdir 5#32)]

theorem decodes_written_at_mixed :
    ∃ s s', Runs.exec step (start 2 fun _ => 0#8) mixedEvents = some s ∧
      Runs.exec step s (List.replicate s.work (.daemon userKernel 0#32)) = some s' ∧
      s'.decoded = [(8#32, .createFile 7#32 1#8), (9#32, .getcwd 6#32 50#32), (7#32, .chdir 5#32)] ∧
      s'.pipe.fifo.bytes = [] := by
  have hrun : (Runs.exec step (start 2 fun _ => 0#8) mixedEvents).map (·.written) =
      some [(8#32, .createFile 7#32 1#8), (9#32, .getcwd 6#32 50#32), (7#32, .chdir 5#32)] := by
    decide +kernel
  obtain ⟨s, hs, hwritten⟩ := Option.map_eq_some_iff.mp hrun
  obtain ⟨L, hS⟩ := userKernel_settled.steady
  have halive : userKernel.Alive 2 := by decide +kernel
  have hpasses : ∀ d ∈ List.replicate s.work (.daemon userKernel 0#32),
      StreamEvent.ByDaemon 2 d := by
    intro d hd
    rw [List.eq_of_mem_replicate hd]
    exact ⟨⟨L, hS.threaded⟩, halive⟩
  obtain ⟨s', hs', hsame, hdrained⟩ := (decodes_written hs).2 _ hpasses List.length_replicate.ge
  exact ⟨s, s', hs, hs', hdrained.decoded.trans (hsame.trans hwritten), hdrained.bytes⟩

end RequestStream

end Tenok
