import Mathlib.Algebra.Order.BigOperators.Group.Finset
import Tenok.Kernel.FsRequests
import Tenok.Kernel.PipeNet

/-!
The file system daemon over whole runs: what was sent and not carried out is in its pipe, and
each thread has at most one reply under way. This holds as long as every request finds room.
-/
namespace Tenok
open Ring Queues Kernel PipeSys

namespace FsSys
variable {s s' : FsSys} {L : SchedList → List Tid} {pending : List (Tid × FsRequest)} {t : Tid}
  {r : FsRequest}

/-- The size of the read that a thread may be queued with. -/
def want (s : FsSys) (t : Tid) : Option Nat :=
  if t = s.filesysd then s.daemon.readSize
  else match s.callers t with
    | .waiting _ => some 4
    | .outside | .requested _ => none

def active (s : FsSys) : Set Tid := {t | t = s.filesysd ∨ s.callers t ≠ .outside}

/-- The reply that the daemon is about to write to the pipe of a thread. -/
def replyTo (s : FsSys) (t : Tid) : List Byte :=
  match s.daemon with
  | .write fd result => if fd.toNat = t + 3 then wordBytes result else []
  | _ => []

/-- Where the requests are that have been sent and not answered: `pending` are those that the
daemon has not carried out. -/
structure Carried (s : FsSys) (pending : List (Tid × FsRequest)) : Prop where
  issued : s.issued = s.processed.map (fun p => (p.thread, p.request)) ++ pending
  whole : s.daemon.consumed ++ (s.pipes s.filesysd).fifo.bytes =
    pending.flatMap fun i => i.2.bytes (threadPipeFd i.1)
  proper : s.daemon.Proper
  issuers : ∀ i ∈ s.issued, i.1 ≠ s.filesysd ∧ i.1 < threadMax
  outstanding : ∀ t, s.requestsOf t =
    (s.answeredTo t).map FsReply.request ++ (s.callers t).request.toList
  undelivered : ∀ t, t ≠ s.filesysd → ∃ u, s.processedFor t = s.answeredTo t ++ u ∧
    (s.pipes t).fifo.bytes ++ s.replyTo t = u.flatMap fun p => wordBytes p.result
  writing : ∀ fd result, s.daemon = .write fd result →
    ∃ t, t ≠ s.filesysd ∧ t < threadMax ∧ fd = threadPipeFd t
  filesysd : s.callers s.filesysd = .outside
  sent : ∀ r, s.callers s.running = .requested r → s.Executing

namespace Carried

theorem requests_processed (l : List FsReply) (t : Tid) :
    ((l.map fun p => (p.thread, p.request)).filter (·.1 = t)).map Prod.snd =
      (l.filter (·.thread = t)).map FsReply.request := by
  rw [List.filter_map, List.map_map]
  rfl

theorem unanswered {u : List FsReply} (h : Carried s pending)
    (hu : s.processedFor t = s.answeredTo t ++ u) :
    u.map FsReply.request ++ (pending.filter (·.1 = t)).map Prod.snd =
      (s.callers t).request.toList := by
  have hrequests := h.outstanding t
  rw [requestsOf, h.issued, List.filter_append, List.map_append, requests_processed] at hrequests
  change (s.processedFor t).map FsReply.request ++ _ = _ at hrequests
  rw [hu, List.map_append, List.append_assoc] at hrequests
  exact List.append_cancel_left hrequests

theorem length_replies (u : List FsReply) :
    (u.flatMap fun p => wordBytes p.result).length = 4 * u.length := by
  induction u with
  | nil => rfl
  | cons p u ih =>
      rw [List.flatMap_cons, List.length_append, ih, length_wordBytes, List.length_cons]
      omega

/-- At most one reply to a thread is under way, and only while the thread is in a call. -/
theorem reply_cases {u : List FsReply} (h : Carried s pending)
    (hu : s.processedFor t = s.answeredTo t ++ u) :
    u = [] ∨ ∃ p, u = [p] ∧ p.thread = t ∧ (s.callers t).request = some p.request := by
  have hrequest := h.unanswered hu
  have hlen := congrArg List.length hrequest
  match u with
  | [] => exact Or.inl rfl
  | [p] =>
      refine Or.inr ⟨p, rfl, ?_, ?_⟩
      · have hp : p ∈ s.processedFor t := by simp [hu]
        simpa using (List.mem_filter.mp hp).2
      · cases hc : (s.callers t).request with
        | none => simp [hc] at hrequest
        | some r => simp_all
  | p :: p' :: u =>
      cases hc : (s.callers t).request with
      | none => simp [hc] at hrequest
      | some r =>
          simp only [hc, List.length_append, List.length_map, List.length_cons,
            Option.toList_some, List.length_nil] at hlen
          omega

theorem reply (h : Carried s pending) (ht : t ≠ s.filesysd)
    (hlen : 4 ≤ (s.pipes t).fifo.kfifoLen) :
    ∃ p, p.thread = t ∧ (s.callers t).request = some p.request ∧
      s.processedFor t = s.answeredTo t ++ [p] ∧
      (s.pipes t).fifo.bytes = wordBytes p.result ∧ s.replyTo t = [] := by
  obtain ⟨u, hu, hbytes⟩ := h.undelivered t ht
  have hsize := congrArg List.length hbytes
  rw [List.length_append, Pipe.length_bytes, length_replies] at hsize
  obtain rfl | ⟨p, rfl, hthread, hrequest⟩ := h.reply_cases hu
  · simp only [List.length_nil] at hsize
    omega
  · simp only [List.length_singleton] at hsize
    have hnil : s.replyTo t = [] := List.eq_nil_of_length_eq_zero (by omega)
    exact ⟨p, hthread, hrequest, hu, by simpa [hnil] using hbytes, hnil⟩

end Carried

theorem pipeRead_cases {n : Nat} {res : FifoResult} (hp : Wired t (s.pipes t))
    (hr : s.pipeRead t n = some res) :
    ((s.pipes t).fifo.kfifoLen < n ∧ res.restart = true ∧ res.retval = .error .erestartsys ∧
      res.pipe = s.pipes t ∧ res.kernel = Pipe.waitFor s.kernel (.pipeRead t) n) ∨
    (n ≤ (s.pipes t).fifo.kfifoLen ∧ res.restart = false ∧ res.retval = .ok n ∧
      Wired t res.pipe ∧ res.bytes.length = n ∧
      (s.pipes t).fifo.bytes = res.bytes ++ res.pipe.fifo.bytes ∧
      s.kernel.fifoWakeUp (.wait (.pipeWrite t)) res.pipe.fifo.kfifoAvail = some res.kernel) := by
  obtain ⟨hlt, rfl⟩ | ⟨hle, hret, hpipe, hstream, hsize, hbytes, hwake⟩ :=
    Pipe.fifoRead_blocking hp.stream hp.nonblock hr
  · rw [hp.rWaitList]
    exact Or.inl ⟨hlt, rfl, rfl, rfl, rfl⟩
  · rw [hp.wWaitList] at hwake
    refine Or.inr ⟨hle, by rw [FifoResult.restart, hret], hret, hp.of_fifo hpipe hstream hsize,
      ?_, hbytes, hwake⟩
    rw [FifoResult.bytes, hret, length_bytesAt]

theorem pipeWrite_spec {buf : List Byte} {res : FifoResult} (hp : Wired t (s.pipes t))
    (hroom : buf.length ≤ (s.pipes t).fifo.kfifoAvail) (hr : s.pipeWrite t buf = some res) :
    res.restart = false ∧ Wired t res.pipe ∧
      res.pipe.fifo.bytes = (s.pipes t).fifo.bytes ++ buf ∧
      s.kernel.fifoWakeUp (.wait (.pipeRead t)) res.pipe.fifo.kfifoLen = some res.kernel := by
  obtain ⟨hlt, -⟩ | ⟨-, hret, hpipe, hstream, hsize, hbytes, hwake⟩ :=
    Pipe.fifoWrite_blocking hp.stream hp.nonblock hr
  · exact absurd hroom (Nat.not_le_of_lt hlt)
  · rw [hp.rWaitList] at hwake
    rw [bytesAt_getD] at hbytes
    exact ⟨by rw [FifoResult.restart, hret], hp.of_fifo hpipe hstream hsize, hbytes, hwake⟩

theorem work_update {p : Pipe} (ht : t < threadMax)
    (hpipes : s'.pipes = Function.update s.pipes t p) :
    s'.work + (s.daemon.rank + (s.pipes t).fifo.bytes.length) =
      s.work + (s'.daemon.rank + p.fifo.bytes.length) := by
  have hmem := Finset.mem_range.mpr ht
  have hrest : ∑ u ∈ (Finset.range threadMax).erase t,
      (Function.update s.pipes t p u).fifo.kfifoLen =
      ∑ u ∈ (Finset.range threadMax).erase t, (s.pipes u).fifo.kfifoLen :=
    Finset.sum_congr rfl fun u hu => by rw [Function.update_of_ne (Finset.ne_of_mem_erase hu)]
  simp only [work, hpipes, Pipe.length_bytes, ← Finset.add_sum_erase _ _ hmem, hrest,
    Function.update_self]
  omega

def Sound (s : FsSys) : Prop :=
  ∃ L pending, PipeNet s.kernel s.pipes s.want s.active L ∧ Carried s pending

theorem running_lt (hnet : PipeNet s.kernel s.pipes s.want s.active L) (hst : s.Executing) :
    s.running < threadMax :=
  hnet.steady.threaded.lt_max _ (hnet.steady.threaded.running _ hst).2

theorem net_of_running {k : Kernel} {pipes : Tid → Pipe}
    (hnet : PipeNet k pipes s.want s.active L) (hst : k.Unqueued)
    (hrun : k.runningThread = s.running) (hfilesysd : s'.filesysd = s.filesysd)
    (hdaemon : s.running ≠ s.filesysd → s'.daemon = s.daemon)
    (hcallers : ∀ u, u ≠ s.running → s'.callers u = s.callers u) :
    PipeNet k pipes s'.want s'.active L := by
  refine hnet.retarget hst (fun u hu => ?_) fun u hu => ?_
  · rw [hrun] at hu
    simp only [want, hfilesysd, hcallers u hu]
    split
    · next hud => rw [hdaemon (hud ▸ hu.symm)]
    · rfl
  · rw [hrun]
    by_cases hur : u = s.running
    · exact Or.inl hur
    · rw [active, Set.mem_ofPred_eq, hfilesysd, hcallers u hur] at hu
      exact Or.inr hu

theorem net_of_waiting {n : Nat} (hnet : PipeNet s.kernel s.pipes s.want s.active L)
    (hst : s.Executing) (hlt : (s.pipes s.running).fifo.kfifoLen < n)
    (hfilesysd : s'.filesysd = s.filesysd) (hdaemon : s'.daemon = s.daemon)
    (hcallers : ∀ u, u ≠ s.running → s'.callers u = s.callers u)
    (hinside : s'.callers s.running = .outside ↔ s.callers s.running = .outside)
    (hwant : s'.want s.running = some n) :
    ∃ L', PipeNet (Pipe.waitFor s.kernel (.pipeRead s.running) n) s.pipes s'.want s'.active L' := by
  obtain ⟨L', hnet'⟩ := hnet.wait hst hlt
  have hwants : s'.want = Function.update s.want s.running (some n) := by
    funext u
    by_cases hu : u = s.running
    · rw [hu, hwant, Function.update_self]
    · rw [Function.update_of_ne hu]
      simp only [want, hfilesysd, hdaemon, hcallers u hu]
  have hactive : s'.active = s.active := by
    ext u
    by_cases hu : u = s.running
    · simp only [active, Set.mem_ofPred_eq, hu, hfilesysd, ne_eq, hinside]
    · simp only [active, Set.mem_ofPred_eq, hfilesysd, hcallers u hu]
  rw [hwants, hactive]
  exact ⟨L', hnet'⟩

theorem requestsOf_issued {l : List (Tid × FsRequest)} (hissued : s'.issued = s.issued ++ l) :
    s'.requestsOf t = s.requestsOf t ++ (l.filter (·.1 = t)).map Prod.snd := by
  rw [requestsOf, hissued, List.filter_append, List.map_append]
  rfl

theorem Sound.sendRequest (hs : s.Sound) (hst : s.Executing) (hne : s.running ≠ s.filesysd)
    (hout : s.callers s.running = .outside)
    (hroom : (r.bytes (threadPipeFd s.running)).length ≤ (s.pipes s.filesysd).fifo.kfifoAvail)
    (hsend : s.sendRequest r = some s') : s'.Sound := by
  obtain ⟨L, pending, hnet, h⟩ := hs
  obtain ⟨w, hw, hs'⟩ := Option.bind_eq_some_iff.mp hsend
  obtain ⟨-, hwired, hbytes, hwake⟩ := pipeWrite_spec (hnet.wired _) hroom hw
  obtain ⟨hrun, hst'⟩ := fifoWakeUp_running hwake
  obtain ⟨L', hnet'⟩ := hnet.write hst (hnet.alive (Or.inl rfl)) hwired hwake
  obtain rfl := Option.some.inj hs'
  have hothers : ∀ {t : Tid} {c : Caller}, t ≠ s.running →
      Function.update s.callers s.running c t = s.callers t := fun ht => Function.update_of_ne ht ..
  refine ⟨L', pending ++ [(s.running, r)], net_of_running hnet' (hst' hst) hrun rfl
    (fun _ => rfl) fun u hu => hothers hu, ?_⟩
  refine {
    issued := ?_
    whole := ?_
    proper := h.proper
    issuers := fun i hi => ?_
    outstanding := fun t => ?_
    undelivered := fun t (ht : t ≠ s.filesysd) => ?_
    writing := h.writing
    filesysd := (hothers hne.symm).trans h.filesysd
    sent := fun _ _ => hst' hst }
  · change s.issued ++ _ = _
    rw [h.issued, List.append_assoc]
    rfl
  · change s.daemon.consumed ++ (Function.update s.pipes s.filesysd w.pipe s.filesysd).fifo.bytes =
      _
    rw [Function.update_self, hbytes, ← List.append_assoc, h.whole, List.flatMap_append,
      List.flatMap_singleton]
  · obtain hi | hi := List.mem_append.mp hi
    · exact h.issuers i hi
    · obtain rfl := List.mem_singleton.mp hi
      exact ⟨hne, running_lt hnet hst⟩
  · rw [requestsOf_issued rfl, h.outstanding]
    change _ = (s.answeredTo t).map FsReply.request ++
      (Function.update s.callers s.running (.requested r) t).request.toList
    by_cases ht : t = s.running
    · subst ht
      simp [hout]
    · simp [hothers ht, Ne.symm ht]
  · obtain ⟨u, hu, hrest⟩ := h.undelivered t ht
    refine ⟨u, hu, ?_⟩
    change (Function.update s.pipes s.filesysd w.pipe t).fifo.bytes ++ _ = _
    rw [Function.update_of_ne ht]
    exact hrest

theorem work_eq (hdaemon : s'.daemon = s.daemon) (hpipes : s'.pipes = s.pipes) :
    s'.work = s.work := by
  rw [work, work, hdaemon, hpipes]

theorem Carried.of_eq (h : Carried s pending) (hfilesysd : s'.filesysd = s.filesysd)
    (hdaemon : s'.daemon = s.daemon) (hpipes : s'.pipes = s.pipes)
    (hissued : s'.issued = s.issued) (hprocessed : s'.processed = s.processed)
    (hanswered : s'.answered = s.answered)
    (hrequest : ∀ t, (s'.callers t).request = (s.callers t).request)
    (hsent : ∀ r, s'.callers s'.running = .requested r → s'.Executing) : Carried s' pending where
  issued := by rw [hissued, hprocessed, h.issued]
  whole := by rw [hdaemon, hpipes, hfilesysd, h.whole]
  proper := hdaemon ▸ h.proper
  issuers := by
    rw [hissued, hfilesysd]
    exact h.issuers
  outstanding t := by
    rw [requestsOf, answeredTo, hissued, hanswered, hrequest]
    exact h.outstanding t
  undelivered t ht := by
    rw [processedFor, answeredTo, replyTo, hprocessed, hanswered, hpipes, hdaemon]
    exact h.undelivered t (hfilesysd ▸ ht)
  writing := by
    rw [hdaemon, hfilesysd]
    exact h.writing
  filesysd := by
    rw [← Caller.request_eq_none, hrequest, hfilesysd, h.filesysd]
    rfl
  sent := hsent

theorem readReply_cases (hp : Wired s.running (s.pipes s.running))
    (hread : s.readReply r = some s') :
    ((s.pipes s.running).fifo.kfifoLen < 4 ∧
      s' = { s with
        kernel := Pipe.waitFor s.kernel (.pipeRead s.running) 4
        callers := Function.update s.callers s.running (.waiting r) }) ∨
    ∃ res, 4 ≤ (s.pipes s.running).fifo.kfifoLen ∧ Wired s.running res.pipe ∧
      res.bytes.length = 4 ∧
      (s.pipes s.running).fifo.bytes = res.bytes ++ res.pipe.fifo.bytes ∧
      s.kernel.fifoWakeUp (.wait (.pipeWrite s.running)) res.pipe.fifo.kfifoAvail =
        some res.kernel ∧
      s' = { s.setPipe s.running res with
        callers := Function.update s.callers s.running .outside
        answered := s.answered ++ [⟨s.running, r, wordOf res.bytes⟩] } := by
  obtain ⟨res, hres, hs'⟩ := Option.bind_eq_some_iff.mp hread
  obtain ⟨hlt, -, hret, hpipe, hkernel⟩ | ⟨hle, -, hret, hwired, hlen, hbytes, hwake⟩ :=
    pipeRead_cases hp hres
  · simp only [hret, Option.some.injEq] at hs'
    refine Or.inl ⟨hlt, ?_⟩
    rw [← hs', setPipe, setCaller, hkernel, hpipe, Function.update_eq_self]
  · simp only [hret, Option.some.injEq] at hs'
    exact Or.inr ⟨res, hle, hwired, hlen, hbytes, hwake, hs'.symm⟩

theorem Sound.wait {n : Nat} (hs : s.Sound) (hst : s.Executing)
    (hlt : (s.pipes s.running).fifo.kfifoLen < n)
    (hkernel : s'.kernel = Pipe.waitFor s.kernel (.pipeRead s.running) n)
    (hfilesysd : s'.filesysd = s.filesysd) (hdaemon : s'.daemon = s.daemon)
    (hpipes : s'.pipes = s.pipes) (hissued : s'.issued = s.issued)
    (hprocessed : s'.processed = s.processed) (hanswered : s'.answered = s.answered)
    (hothers : ∀ u, u ≠ s.running → s'.callers u = s.callers u)
    (hrequest : (s'.callers s.running).request = (s.callers s.running).request)
    (hsent : ∀ r, s'.callers s.running ≠ .requested r)
    (hwant : s'.want s.running = some n) : s'.Sound ∧ s'.work = s.work := by
  obtain ⟨L, pending, hnet, h⟩ := hs
  have hinside : s'.callers s.running = .outside ↔ s.callers s.running = .outside := by
    rw [← Caller.request_eq_none, hrequest, Caller.request_eq_none]
  obtain ⟨L', hnet'⟩ := net_of_waiting hnet hst hlt hfilesysd hdaemon hothers hinside hwant
  have hrequests : ∀ t, (s'.callers t).request = (s.callers t).request := by
    intro t
    by_cases ht : t = s.running
    · rw [ht, hrequest]
    · rw [hothers t ht]
  have hrun : s'.running = s.running := by
    rw [running, hkernel]
    rfl
  have h' := h.of_eq hfilesysd hdaemon hpipes hissued hprocessed hanswered hrequests
    fun r' hr' => absurd (hrun ▸ hr') (hsent r')
  exact ⟨⟨L', pending, by rwa [hkernel, hpipes], h'⟩, work_eq hdaemon hpipes⟩

theorem answeredTo_append {l : List FsReply} (h : s'.answered = s.answered ++ l) :
    s'.answeredTo t = s.answeredTo t ++ l.filter (·.thread = t) := by
  rw [answeredTo, h, List.filter_append]
  rfl

theorem Carried.deliver {p : FsReply} (h : Carried s pending) (hne : p.thread ≠ s.filesysd)
    (hrequest : (s.callers p.thread).request = some p.request)
    (hprocessed : s.processedFor p.thread = s.answeredTo p.thread ++ [p])
    (hnone : s.replyTo p.thread = []) (hempty : (s'.pipes p.thread).fifo.bytes = [])
    (hanswered : s'.answered = s.answered ++ [p])
    (hsame : s'.issued = s.issued ∧ s'.processed = s.processed ∧ s'.daemon = s.daemon ∧
      s'.filesysd = s.filesysd)
    (hcaller : s'.callers p.thread = .outside)
    (hothers : ∀ u, u ≠ p.thread → s'.callers u = s.callers u ∧ s'.pipes u = s.pipes u)
    (hsent : ∀ r, s'.callers s'.running ≠ .requested r) : Carried s' pending := by
  obtain ⟨hissued, hprocessed', hdaemon, hfilesysd⟩ := hsame
  refine {
    issued := by rw [hissued, hprocessed', h.issued]
    whole := by rw [hdaemon, hfilesysd, (hothers _ hne.symm).2, h.whole]
    proper := hdaemon ▸ h.proper
    issuers := by
      rw [hissued, hfilesysd]
      exact h.issuers
    outstanding := fun t => ?_
    undelivered := fun t ht => ?_
    writing := by
      rw [hdaemon, hfilesysd]
      exact h.writing
    filesysd := by rw [hfilesysd, (hothers _ hne.symm).1, h.filesysd]
    sent := fun r hr => absurd hr (hsent r) }
  · rw [answeredTo_append hanswered, requestsOf, hissued]
    change s.requestsOf t = _
    rw [h.outstanding]
    by_cases ht : t = p.thread
    · subst ht
      simp [hrequest, hcaller]
    · simp [(hothers t ht).1, Ne.symm ht]
  · rw [processedFor, hprocessed', answeredTo_append hanswered, replyTo, hdaemon]
    change ∃ u, s.processedFor t = _ ∧ _ ++ s.replyTo t = _
    by_cases htp : t = p.thread
    · subst htp
      exact ⟨[], by simp [hprocessed], by simp [hempty, hnone]⟩
    · obtain ⟨u, hu, hbytes⟩ := h.undelivered t (hfilesysd ▸ ht)
      exact ⟨u, by simp [hu, Ne.symm htp], by rw [(hothers t htp).2, hbytes]⟩

theorem Sound.readReply (hs : s.Sound) (hst : s.Executing)
    (hrequest : (s.callers s.running).request = some r) (hread : s.readReply r = some s') :
    s'.Sound ∧ s'.work ≤ s.work ∧
      (4 ≤ (s.pipes s.running).fifo.kfifoLen → s'.work < s.work) := by
  have ⟨L, pending, hnet, h⟩ := hs
  have hne : s.running ≠ s.filesysd := fun heq => by
    rw [heq, h.filesysd] at hrequest
    cases hrequest
  obtain ⟨hlt, hs'⟩ | ⟨res, hle, hwired, hlen, hbytes, hwake, hs'⟩ :=
    readReply_cases (hnet.wired _) hread
  · have hwait : s'.Sound ∧ s'.work = s.work := by
      subst hs'
      exact hs.wait hst hlt rfl rfl rfl rfl rfl rfl rfl (fun u hu => Function.update_of_ne hu ..)
        (by simp [hrequest]) (by simp) (by simp [want, hne])
    exact ⟨hwait.1, hwait.2.le, fun hle => absurd hlt (Nat.not_lt_of_le hle)⟩
  · obtain ⟨hrun, hst'⟩ := fifoWakeUp_running hwake
    obtain ⟨L', hnet'⟩ := hnet.read hst hwired hwake
    obtain ⟨p, hthread, hp, hprocessed, hreply, hnone⟩ := h.reply hne hle
    -- the four bytes are the whole reply
    obtain ⟨hword, hempty⟩ := List.append_inj (hbytes.symm.trans (hreply.trans
      (List.append_nil _).symm)) hlen
    obtain rfl : r = p.request := Option.some.inj (hrequest.symm.trans hp)
    have hanswer : (⟨s.running, p.request, wordOf res.bytes⟩ : FsReply) = p := by
      rw [hword, wordOf_wordBytes, ← hthread]
    rw [hanswer] at hs'
    have hfields : s'.kernel = res.kernel ∧ s'.pipes = Function.update s.pipes s.running res.pipe ∧
        s'.callers = Function.update s.callers s.running .outside ∧
        s'.answered = s.answered ++ [p] := by
      subst hs'
      exact ⟨rfl, rfl, rfl, rfl⟩
    have hsame : s'.issued = s.issued ∧ s'.processed = s.processed ∧ s'.daemon = s.daemon ∧
        s'.filesysd = s.filesysd := by
      subst hs'
      exact ⟨rfl, rfl, rfl, rfl⟩
    obtain ⟨hkernel, hpipes, hcallers, hanswered⟩ := hfields
    have hrunning : s'.running = s.running := (congrArg Kernel.runningThread hkernel).trans hrun
    have hcaller : s'.callers s.running = .outside := by rw [hcallers, Function.update_self]
    have hothers : ∀ u, u ≠ s.running → s'.callers u = s.callers u ∧ s'.pipes u = s.pipes u := by
      intro u hu
      rw [hcallers, hpipes, Function.update_of_ne hu, Function.update_of_ne hu]
      exact ⟨rfl, rfl⟩
    have hwork := work_update (running_lt hnet hst) hpipes
    rw [hreply, hempty, hsame.2.2.1, length_wordBytes, List.length_nil] at hwork
    have hnet'' := net_of_running hnet' (hst' hst) hrun hsame.2.2.2 (fun _ => hsame.2.2.1)
      fun u hu => (hothers u hu).1
    refine ⟨⟨L', pending, by rwa [hkernel, hpipes], ?_⟩, by omega, fun _ => by omega⟩
    rw [← hthread] at hcaller hothers hrunning hne
    refine h.deliver hne (by rw [hthread, hp]) (by rw [hthread, hprocessed])
      (by rw [hthread, hnone]) ?_ hanswered hsame hcaller hothers fun r hr => ?_
    · rw [hthread, hpipes]
      exact (congrArg (fun p : Pipe => p.fifo.bytes) (Function.update_self ..)).trans hempty
    · rw [hrunning, hcaller] at hr
      cases hr

theorem daemonStep_read {n : Nat} {result : Word} (hsize : s.daemon.readSize = some n) :
    s.daemonStep result = (s.pipeRead s.filesysd n).map fun res =>
      { s.setPipe s.filesysd res with
        daemon := if res.restart then s.daemon else s.daemon.afterRead res.bytes } := by
  cases hd : s.daemon with
  | readFileCmd | readReplyFd fileCmd | readPath fileCmd replyFd | readLast fileCmd replyFd path =>
      rw [hd] at hsize
      simp [daemonStep, hd, hsize, Option.map_eq_bind]
  | call replyFd request | write replyFd result =>
      rw [hd] at hsize
      cases hsize

theorem replyTo_eq_nil (h : ∀ fd result, s.daemon ≠ .write fd result) (t : Tid) :
    s.replyTo t = [] := by
  rw [replyTo]
  split
  · next hd => exact absurd hd (h _ _)
  · rfl

theorem not_write_of_readSize {n : Nat} {fd result : Word} (hsize : s.daemon.readSize = some n) :
    s.daemon ≠ .write fd result := fun hd => by
  rw [hd] at hsize
  cases hsize

theorem Carried.consume {buf : List Byte} (h : Carried s pending)
    (hsize : s.daemon.readSize = some buf.length)
    (hbytes : (s.pipes s.filesysd).fifo.bytes = buf ++ (s'.pipes s.filesysd).fifo.bytes)
    (hdaemon : s'.daemon = s.daemon.afterRead buf)
    (hlogs : s'.issued = s.issued ∧ s'.processed = s.processed ∧ s'.answered = s.answered)
    (hfilesysd : s'.filesysd = s.filesysd) (hcallers : s'.callers = s.callers)
    (hothers : ∀ u, u ≠ s.filesysd → s'.pipes u = s.pipes u)
    (hsent : ∀ r, s'.callers s'.running ≠ .requested r) : Carried s' pending := by
  obtain ⟨hissued, hprocessed, hanswered⟩ := hlogs
  have hwhole := h.whole
  rw [hbytes] at hwhole
  obtain ⟨hproper, hwhole'⟩ := requests_afterRead (fun i : Tid × FsRequest => threadPipeFd i.1) Prod.snd
    h.proper hsize hwhole
  have hread : ∀ fd result, s.daemon ≠ .write fd result := fun _ _ => not_write_of_readSize hsize
  have hread' : ∀ fd result, s'.daemon ≠ .write fd result := fun _ _ =>
    hdaemon ▸ Filesysd.afterRead_ne_write hsize
  exact {
    issued := by rw [hissued, hprocessed, h.issued]
    whole := by
      rw [hdaemon, hfilesysd]
      exact hwhole'
    proper := hdaemon ▸ hproper
    issuers := by
      rw [hissued, hfilesysd]
      exact h.issuers
    outstanding := fun t => by
      rw [requestsOf, answeredTo, hissued, hanswered, hcallers]
      exact h.outstanding t
    undelivered := fun t ht => by
      rw [hfilesysd] at ht
      obtain ⟨u, hu, hrest⟩ := h.undelivered t ht
      rw [replyTo_eq_nil hread] at hrest
      rw [processedFor, answeredTo, hprocessed, hanswered, hothers t ht, replyTo_eq_nil hread']
      exact ⟨u, hu, hrest⟩
    writing := fun fd result hd => absurd hd (hread' fd result)
    filesysd := by rw [hfilesysd, hcallers, h.filesysd]
    sent := fun r hr => absurd hr (hsent r) }

theorem Sound.daemonRead {n : Nat} {result : Word} (hs : s.Sound) (hst : s.Executing)
    (hrun : s.running = s.filesysd) (hsize : s.daemon.readSize = some n)
    (hstep : s.daemonStep result = some s') :
    s'.Sound ∧ s'.work ≤ s.work ∧ (s.DaemonServed → s'.work < s.work) := by
  have ⟨L, pending, hnet, h⟩ := hs
  rw [daemonStep_read hsize] at hstep
  obtain ⟨res, hres, hs'⟩ := Option.map_eq_some_iff.mp hstep
  have houtside : ∀ r, s.callers s.running ≠ .requested r := fun r hr => by
    rw [hrun, h.filesysd] at hr
    cases hr
  obtain ⟨hlt, hrestart, -, hpipe, hkernel⟩ | ⟨hle, hrestart, -, hwired, rfl, hbytes, hwake⟩ :=
    pipeRead_cases (hnet.wired _) hres
  · rw [hrestart, if_pos rfl, setPipe, hpipe, Function.update_eq_self, hkernel] at hs'
    have hwait : s'.Sound ∧ s'.work = s.work := by
      subst hs'
      exact hs.wait hst (hrun ▸ hlt) (by rw [hrun]) rfl rfl rfl rfl rfl rfl (fun _ _ => rfl) rfl
        houtside (by simp [want, hrun, hsize])
    refine ⟨hwait.1, hwait.2.le, fun hserved => ?_⟩
    exact absurd hlt (Nat.not_lt_of_le (hserved n hsize))
  · rw [hrestart, if_neg (by simp)] at hs'
    obtain ⟨hrunning, hst'⟩ := fifoWakeUp_running hwake
    have hfields : s'.kernel = res.kernel ∧ s'.filesysd = s.filesysd ∧ s'.callers = s.callers ∧
        s'.daemon = s.daemon.afterRead res.bytes ∧
        s'.pipes = Function.update s.pipes s.filesysd res.pipe := by
      subst hs'
      exact ⟨rfl, rfl, rfl, rfl, rfl⟩
    have hlogs : s'.issued = s.issued ∧ s'.processed = s.processed ∧
        s'.answered = s.answered := by
      subst hs'
      exact ⟨rfl, rfl, rfl⟩
    obtain ⟨hkernel, hfilesysd, hcallers, hdaemon, hpipes⟩ := hfields
    have hself : s'.pipes s.filesysd = res.pipe := by rw [hpipes, Function.update_self]
    have hrun' : s.kernel.runningThread = s.filesysd := hrun
    obtain ⟨L', hnet'⟩ := hnet.read hst (by rwa [hrun']) (by rwa [hrun'])
    rw [hrun'] at hnet'
    have hnet'' := net_of_running hnet' (hst' hst) hrunning hfilesysd
      (fun hne => absurd hrun hne) fun u _ => congrFun hcallers u
    have hrunning' : s'.running = s.running :=
      (congrArg Kernel.runningThread hkernel).trans hrunning
    have hcarried := h.consume hsize (by rw [hself, hbytes]) hdaemon hlogs hfilesysd hcallers
      (fun u hu => by rw [hpipes, Function.update_of_ne hu])
      (by rw [hrunning', hcallers]; exact houtside)
    have hwork := work_update (hrun ▸ running_lt hnet hst) hpipes
    have hrank := Filesysd.rank_afterRead hsize
    rw [hbytes, List.length_append, hdaemon] at hwork
    exact ⟨⟨L', pending, by rwa [hkernel, hpipes], hcarried⟩, by omega, fun _ => by omega⟩

theorem processedFor_append {l : List FsReply} (h : s'.processed = s.processed ++ l) :
    s'.processedFor t = s.processedFor t ++ l.filter (·.thread = t) := by
  rw [processedFor, h, List.filter_append]
  rfl

theorem replyTo_write {u : Tid} {result : Word} (hu : u < threadMax)
    (hd : s.daemon = .write (threadPipeFd u) result) :
    s.replyTo t = if t = u then wordBytes result else [] := by
  simp only [replyTo, hd, toNat_threadPipeFd hu, Nat.add_right_cancel_iff, eq_comm]

theorem Carried.call {fd : Word} (h : Carried s pending) (hd : s.daemon = .call fd r) :
    ∃ u rest, pending = (u, r) :: rest ∧ fd = threadPipeFd u ∧ u ≠ s.filesysd ∧ u < threadMax ∧
      (s.pipes s.filesysd).fifo.bytes = rest.flatMap fun i => i.2.bytes (threadPipeFd i.1) := by
  have hwhole := h.whole
  rw [hd, Filesysd.consumed] at hwhole
  obtain ⟨i, rest, rfl, rfl, rfl, hrest⟩ := requests_head
    (fun i : Tid × FsRequest => threadPipeFd i.1) Prod.snd hwhole
  obtain ⟨hne, hlt⟩ := h.issuers i (by rw [h.issued]; simp)
  exact ⟨i.1, rest, rfl, rfl, hne, hlt, hrest⟩

theorem Sound.daemonCall {fd result : Word} (hs : s.Sound) (hst : s.Executing)
    (hrun : s.running = s.filesysd) (hd : s.daemon = .call fd r)
    (hstep : s.daemonStep result = some s') : s'.Sound ∧ s'.work < s.work := by
  obtain ⟨L, pending, hnet, h⟩ := hs
  obtain ⟨u, rest, rfl, rfl, hne, hlt, hrest⟩ := h.call hd
  have hs' : s' = { s with
      daemon := .write (threadPipeFd u) result
      processed := s.processed ++ [⟨u, r, result⟩] } := by
    simpa [daemonStep, hd, pipeOwner_threadPipeFd hlt, eq_comm] using hstep
  have hdaemon : s'.daemon = .write (threadPipeFd u) result := by rw [hs']
  have hread : ∀ fd result, s.daemon ≠ .write fd result := by simp [hd]
  have hprocessed : ∀ t, s'.processedFor t =
      s.processedFor t ++ [(⟨u, r, result⟩ : FsReply)].filter (·.thread = t) := fun t =>
    processedFor_append (by rw [hs'])
  have hreply : ∀ t, s'.replyTo t = if t = u then wordBytes result else [] := fun t =>
    replyTo_write hlt hdaemon
  subst hs'
  refine ⟨⟨L, rest, net_of_running hnet hst rfl rfl (fun h => absurd hrun h) fun _ _ => rfl, ?_⟩,
    ?_⟩
  · refine {
      issued := by simp [h.issued]
      whole := hrest
      proper := trivial
      issuers := h.issuers
      outstanding := h.outstanding
      undelivered := fun t ht => ?_
      writing := fun fd result' hd' => ?_
      filesysd := h.filesysd
      sent := h.sent }
    · obtain ⟨u', hu', hbytes⟩ := h.undelivered t ht
      rw [replyTo_eq_nil hread, List.append_nil] at hbytes
      refine ⟨u' ++ [(⟨u, r, result⟩ : FsReply)].filter (·.thread = t), ?_, ?_⟩
      · rw [hprocessed, hu', List.append_assoc]
        rfl
      · change (s.pipes t).fifo.bytes ++ _ = _
        rw [hreply, hbytes, List.flatMap_append]
        by_cases htu : t = u
        · simp [htu]
        · simp [htu, Ne.symm htu]
    · obtain ⟨rfl, -⟩ := Filesysd.write.inj hd'
      exact ⟨u, hne, hlt, rfl⟩
  · simp only [work, hd, Filesysd.rank]
    omega

theorem Carried.write {fd result : Word} (h : Carried s pending)
    (hd : s.daemon = .write fd result) :
    ∃ t p, t ≠ s.filesysd ∧ t < threadMax ∧ fd = threadPipeFd t ∧ s.callers t ≠ .outside ∧
      s.processedFor t = s.answeredTo t ++ [p] ∧ p.result = result ∧
      (s.pipes t).fifo.bytes = [] := by
  obtain ⟨t, hne, hlt, rfl⟩ := h.writing _ _ hd
  obtain ⟨u, hu, hbytes⟩ := h.undelivered t hne
  rw [replyTo_write hlt hd, if_pos rfl] at hbytes
  have hsize := congrArg List.length hbytes
  rw [List.length_append, Carried.length_replies, length_wordBytes] at hsize
  obtain rfl | ⟨p, rfl, -, hrequest⟩ := h.reply_cases hu
  · simp only [List.length_nil] at hsize
    omega
  · simp only [List.length_singleton] at hsize
    have hempty : (s.pipes t).fifo.bytes = [] := List.eq_nil_of_length_eq_zero (by omega)
    rw [hempty, List.nil_append, List.flatMap_singleton, ← List.append_nil (wordBytes result),
      ← List.append_nil (wordBytes p.result)] at hbytes
    refine ⟨t, p, hne, hlt, rfl, fun hout => ?_, hu, (wordBytes_append hbytes).1.symm, hempty⟩
    rw [hout] at hrequest
    cases hrequest

theorem Sound.daemonWrite {fd result result' : Word} (hs : s.Sound) (hst : s.Executing)
    (hrun : s.running = s.filesysd) (hd : s.daemon = .write fd result)
    (hstep : s.daemonStep result' = some s') : s'.Sound ∧ s'.work < s.work := by
  obtain ⟨L, pending, hnet, h⟩ := hs
  obtain ⟨t, p, hne, hlt, rfl, hinside, hprocessed, rfl, hempty⟩ := h.write hd
  have hstep' : (s.pipeWrite t (wordBytes p.result)).map (fun w => { s.setPipe t w with
      daemon := if w.restart then .write (threadPipeFd t) p.result else .readFileCmd }) =
        some s' := by
    rw [← hstep]
    simp [daemonStep, hd, pipeOwner_threadPipeFd hlt, Option.map_eq_bind]
  obtain ⟨w, hw, hs'⟩ := Option.map_eq_some_iff.mp hstep'
  have havail := (hnet.wired t).avail
  rw [← Pipe.length_bytes, hempty, List.length_nil, Nat.zero_add] at havail
  have hroom : (wordBytes p.result).length ≤ (s.pipes t).fifo.kfifoAvail := by
    rw [havail, length_wordBytes]
    decide
  obtain ⟨hrestart, hwired, hbytes, hwake⟩ := pipeWrite_spec (hnet.wired t) hroom hw
  rw [hempty, List.nil_append] at hbytes
  obtain ⟨hrunning, hst'⟩ := fifoWakeUp_running hwake
  obtain ⟨L', hnet'⟩ := hnet.write hst (hnet.alive (Or.inr hinside)) hwired hwake
  rw [hrestart, if_neg (by simp)] at hs'
  have hread : ∀ fd result, s'.daemon ≠ .write fd result := by simp [← hs']
  have hself : s'.pipes t = w.pipe := by simp [← hs', setPipe]
  have hothers : ∀ u, u ≠ t → s'.pipes u = s.pipes u := fun u hu => by simp [← hs', setPipe, hu]
  have hdaemon : s'.daemon = .readFileCmd := by rw [← hs']
  have hpipes : s'.pipes = Function.update s.pipes t w.pipe := by
    rw [← hs']
    rfl
  have hwork := work_update hlt hpipes
  rw [hempty, hbytes, hd, hdaemon, length_wordBytes] at hwork
  simp only [Filesysd.rank, List.length_nil] at hwork
  subst hs'
  refine ⟨⟨L', pending, net_of_running hnet' (hst' hst) hrunning rfl
    (fun hne => absurd hrun hne) fun _ _ => rfl, ?_⟩, by omega⟩
  refine {
    issued := h.issued
    whole := ?_
    proper := trivial
    issuers := h.issuers
    outstanding := h.outstanding
    undelivered := fun u hu => ?_
    writing := fun fd result hd' => absurd hd' (hread fd result)
    filesysd := h.filesysd
    sent := fun _ _ => hst' hst }
  · have hwhole := h.whole
    rw [hd, ← hothers _ (Ne.symm hne)] at hwhole
    exact hwhole
  · rw [replyTo_eq_nil hread, List.append_nil]
    by_cases hut : u = t
    · subst hut
      exact ⟨[p], hprocessed, by rw [hself, hbytes, List.flatMap_singleton]⟩
    · obtain ⟨l, hl, hrest⟩ := h.undelivered u hu
      rw [replyTo_write hlt hd, if_neg hut, List.append_nil] at hrest
      exact ⟨l, hl, by rw [hothers u hut, hrest]⟩

theorem Sound.daemonStep {result : Word} (hs : s.Sound) (hst : s.Executing)
    (hrun : s.running = s.filesysd) (hstep : s.daemonStep result = some s') :
    s'.Sound ∧ s'.work ≤ s.work ∧ (s.DaemonServed → s'.work < s.work) := by
  cases hd : s.daemon with
  | readFileCmd | readReplyFd fileCmd | readPath fileCmd replyFd | readLast fileCmd replyFd path =>
      exact hs.daemonRead hst hrun (by rw [hd, Filesysd.readSize]) hstep
  | call replyFd request =>
      obtain ⟨hsound, hlt⟩ := hs.daemonCall hst hrun hd hstep
      exact ⟨hsound, hlt.le, fun _ => hlt⟩
  | write replyFd result' =>
      obtain ⟨hsound, hlt⟩ := hs.daemonWrite hst hrun hd hstep
      exact ⟨hsound, hlt.le, fun _ => hlt⟩

theorem background_running {k k' : Kernel} {free : Bool} {b : Background} (hK : k.Steady L)
    (hb : k.background free b = some k') :
    k'.Unqueued ∨
      (k'.runningThread = k.runningThread ∧ (free = false → k.Unqueued → k'.Unqueued)) := by
  cases b with
  | delayTicks ticks =>
      obtain ⟨⟨-, rfl⟩, rfl⟩ : (k.Unqueued ∧ free = true) ∧ _ = k' := by
        simpa [Kernel.background] using hb
      exact Or.inr ⟨rfl, fun h => by cases h⟩
  | schedYield =>
      obtain ⟨⟨-, rfl⟩, rfl⟩ : (k.Unqueued ∧ free = true) ∧ _ = k' := by
        simpa [Kernel.background] using hb
      exact Or.inr ⟨rfl, fun h => by cases h⟩
  | systemTicks expired =>
      obtain ⟨threads, hk, hinfo⟩ := hK.threaded.threadsTicksUpdate
      have hticks : k.systemTicksUpdate expired = some k' := hb
      obtain rfl : { k with threads } = k' := by
        simpa [systemTicksUpdate, hk, syscallTimeoutUpdate, hK.timeoutList] using hticks
      refine Or.inr ⟨rfl, fun _ hst => ?_⟩
      change (threads k.runningThread).status = .running
      rw [(hinfo _).1]
      exact hst
  | schedule =>
      obtain ⟨L', hT, hD⟩ := hK.threaded.schedule hb
      exact Or.inl hD.status

theorem Sound.background {b : Background} (hs : s.Sound)
    (hstep : s.step (.background b) = some s') : s'.Sound ∧ s'.work ≤ s.work := by
  obtain ⟨L, pending, hnet, h⟩ := hs
  obtain ⟨k', hb, hs'⟩ := Option.map_eq_some_iff.mp hstep
  have hfree : decide (s.running ≠ s.filesysd ∧ s.callers s.running = .outside) = true →
      s.kernel.runningThread ∉ s.active := by
    intro hdec hactive
    obtain ⟨hne, hout⟩ := of_decide_eq_true hdec
    exact hactive.elim hne fun hin => hin hout
  obtain ⟨L', hnet'⟩ := hnet.background hfree hb
  have hrun := background_running hnet.steady hb
  subst hs'
  refine ⟨⟨L', pending, hnet', h.of_eq rfl rfl rfl rfl rfl rfl (fun _ => rfl) fun r hr => ?_⟩,
    Nat.le_refl _⟩
  obtain hst | ⟨hsame, hkeep⟩ := hrun
  · exact hst
  · have hcaller : s.callers s.running = .requested r := by
      rw [← hr]
      exact congrArg s.callers hsame.symm
    exact hkeep (by simp [hcaller]) (h.sent r hcaller)

/-- Every step keeps the invariant if requests find room, and no other one adds work. -/
theorem Sound.step {e : FsEvent} (hs : s.Sound) (hok : s.RequestOk e)
    (hstep : s.step e = some s') :
    s'.Sound ∧ ((∀ r, e ≠ .request r) → s'.work ≤ s.work) ∧ (s.Served e → s'.work < s.work) := by
  cases e with
  | request r =>
      simp only [FsSys.step, Option.ite_none_right_eq_some] at hstep
      obtain ⟨⟨hst, hne, hout⟩, hsend⟩ := hstep
      exact ⟨hs.sendRequest hst hne hout hok hsend, fun h => absurd rfl (h r), False.elim⟩
  | readReply =>
      simp only [FsSys.step] at hstep
      split at hstep
      · cases hstep
      · next r hcaller =>
          have ⟨_, _, _, h⟩ := hs
          obtain ⟨hsound, hle, hlt⟩ :=
            hs.readReply (h.sent r hcaller) (by rw [hcaller, Caller.request_requested]) hstep
          exact ⟨hsound, fun _ => hle, hlt⟩
      · next r hcaller =>
          simp only [Option.ite_none_right_eq_some] at hstep
          obtain ⟨hsound, hle, hlt⟩ :=
            hs.readReply hstep.1 (by rw [hcaller, Caller.request_waiting]) hstep.2
          exact ⟨hsound, fun _ => hle, hlt⟩
  | daemon result =>
      simp only [FsSys.step, Option.ite_none_right_eq_some] at hstep
      obtain ⟨⟨hst, hrun⟩, hstep⟩ := hstep
      obtain ⟨hsound, hle, hlt⟩ := hs.daemonStep hst hrun hstep
      exact ⟨hsound, fun _ => hle, hlt⟩
  | background b =>
      obtain ⟨hsound, hle⟩ := hs.background hstep
      exact ⟨hsound, fun _ => hle, False.elim⟩

theorem canRun_iff (hK : s.kernel.Steady L) : s.CanRun t ↔ RunnableIn s.kernel L t := by
  have hmem : ∀ p, s.kernel.members (.ready p) = L (.ready p) := fun p =>
    hK.threaded.members_eq (Threaded.ready_inUse p)
  simp only [CanRun, RunnableIn, hmem, eq_comm (a := s.running)]
  rfl

theorem canRun_of_present (hnet : PipeNet s.kernel s.pipes s.want s.active L) (ht : t ∈ s.active)
    (hserved : ∀ n ∈ s.want t, n ≤ (s.pipes t).fifo.kfifoLen) : s.CanRun t := by
  rw [canRun_iff hnet.steady]
  refine (hnet.present t ht).resolve_right fun hwait => ?_
  obtain ⟨-, hwant, hlt⟩ := hnet.readers t t hwait
  exact absurd hlt (Nat.not_lt_of_le (hserved _ hwant))

theorem Carried.progress (hnet : PipeNet s.kernel s.pipes s.want s.active L)
    (h : Carried s pending) (hrequest : (s.callers t).request = some r) :
    (s.CanRun t ∧ 4 ≤ (s.pipes t).fifo.kfifoLen) ∨ (s.CanRun s.filesysd ∧ s.DaemonServed) := by
  have hinside : s.callers t ≠ .outside := fun hout => by
    rw [hout] at hrequest
    cases hrequest
  have hne : t ≠ s.filesysd := fun heq => hinside (heq ▸ h.filesysd)
  have hdaemon : s.DaemonServed → s.CanRun s.filesysd ∧ s.DaemonServed := fun hserved => by
    refine ⟨canRun_of_present hnet (Or.inl rfl) fun n hn => ?_, hserved⟩
    rw [want, if_pos rfl] at hn
    exact hserved n hn
  obtain ⟨u, hu, hbytes⟩ := h.undelivered t hne
  obtain rfl | ⟨p, rfl, -, -⟩ := h.reply_cases hu
  · -- the request is still in the pipe of the daemon
    have hpending := h.unanswered hu
    rw [hrequest] at hpending
    obtain ⟨i, rest, rfl⟩ : ∃ i rest, pending = i :: rest := by
      cases pending with
      | nil => cases hpending
      | cons i rest => exact ⟨i, rest, rfl⟩
    have hwhole := h.whole
    rw [List.flatMap_cons] at hwhole
    refine Or.inr (hdaemon fun n hn => ?_)
    rw [← Pipe.length_bytes]
    exact Filesysd.readSize_le h.proper hn hwhole
  · by_cases hreply : s.replyTo t = []
    · -- the reply is in the pipe of the thread
      rw [hreply, List.append_nil, List.flatMap_singleton] at hbytes
      have hlen : (s.pipes t).fifo.kfifoLen = 4 := by
        rw [← Pipe.length_bytes, hbytes, length_wordBytes]
      refine Or.inl ⟨canRun_of_present hnet (Or.inr hinside) fun n hn => ?_, hlen.ge⟩
      rw [want, if_neg hne] at hn
      split at hn
      · obtain rfl := Option.some.inj hn
        exact hlen.ge
      · cases hn
      · cases hn
    · -- the daemon is about to write it
      refine Or.inr (hdaemon fun n hn => ?_)
      exact absurd (replyTo_eq_nil (fun _ _ => not_write_of_readSize hn) t) hreply

theorem Carried.replies_filesysd (h : Carried s pending) :
    s.processedFor s.filesysd = [] ∧ s.answeredTo s.filesysd = [] := by
  have hrequests : s.requestsOf s.filesysd = [] := by
    rw [requestsOf, List.map_eq_nil_iff, List.filter_eq_nil_iff]
    exact fun i hi => by simpa using (h.issuers i hi).1
  refine ⟨List.filter_eq_nil_iff.mpr fun p hp => ?_, ?_⟩
  · have hi : (p.thread, p.request) ∈ s.issued := by
      rw [h.issued]
      exact List.mem_append_left _ (List.mem_map_of_mem hp)
    simpa using (h.issuers _ hi).1
  · have hnone := h.outstanding s.filesysd
    rw [hrequests, eq_comm, List.append_eq_nil_iff, List.map_eq_nil_iff] at hnone
    exact hnone.1

theorem Carried.unread (h : Carried s pending) (t : Tid) :
    ∃ u, s.processedFor t = s.answeredTo t ++ u ∧ (s.callers t = .outside → u = []) := by
  by_cases ht : t = s.filesysd
  · obtain ⟨hprocessed, hanswered⟩ := h.replies_filesysd
    exact ⟨[], by rw [ht, hprocessed, hanswered, List.append_nil], fun _ => rfl⟩
  · obtain ⟨u, hu, -⟩ := h.undelivered t ht
    refine ⟨u, hu, fun hout => ?_⟩
    refine (h.reply_cases hu).resolve_right fun ⟨p, _, _, hrequest⟩ => ?_
    rw [hout] at hrequest
    cases hrequest

theorem requestOk_of_ne {e : FsEvent} (h : ∀ r, e ≠ .request r) : s.RequestOk e := by
  cases e with
  | request r => exact absurd rfl (h r)
  | readReply | daemon result | background b => trivial

theorem Sound.deliversOnce (hs : s.Sound) : s.DeliversOnce := by
  have ⟨L, pending, hnet, h⟩ := hs
  have hdrop : s.issued.drop s.processed.length = pending := by
    rw [h.issued, List.drop_left' (List.length_map ..)]
  refine {
    processed := ⟨pending, h.issued.symm⟩
    whole := hdrop ▸ h.whole
    answered := fun t => ?_
    outstanding := h.outstanding
    returned := fun t hout => ?_
    progress := fun t r hrequest => h.progress hnet hrequest
    served := fun e s' hserved hstep => ?_
    waits := fun e s' hne hstep => (hs.step (requestOk_of_ne hne) hstep).2.1 hne }
  · obtain ⟨u, hu, -⟩ := h.unread t
    exact ⟨u, hu.symm⟩
  · obtain ⟨u, hu, hnil⟩ := h.unread t
    rw [hu, hnil hout, List.append_nil]
  · have hne : ∀ r, e ≠ .request r := by
      rintro r rfl
      exact hserved
    exact (hs.step (requestOk_of_ne hne) hstep).2.2 hserved

theorem mem_members {q : WaitQueue} {u : Tid} (hK : s.kernel.Steady L)
    (howner : (SchedList.wait q).owner = some t) (hu : u ∈ L (.wait q)) :
    s.kernel.Alive t ∧ u ∈ s.kernel.members (.wait q) := by
  have hin := hK.threaded.rings.inUse hu
  exact ⟨hin t howner, by rwa [hK.threaded.members_eq hin]⟩

theorem Sound.of_started (hs : s.Started) : s.Sound := by
  obtain ⟨L, hK⟩ := hs.settled.steady
  have hpipes : ∀ t, Wired t (s.pipes t) ∧ (s.pipes t).fifo.bytes = [] := fun t => by
    obtain ⟨data, hdata⟩ := hs.pipes t
    rw [hdata]
    exact ⟨threadPipe_wired t data, rfl⟩
  obtain ⟨hissued, hprocessed, hanswered⟩ := hs.logs
  have hreply : ∀ t, s.replyTo t = [] := replyTo_eq_nil (by simp [hs.daemon])
  refine ⟨L, [], ⟨hK, fun t => (hpipes t).1, fun t => ?_, fun t u hu => ?_, fun t ht => ?_⟩, ?_⟩
  · refine List.eq_nil_iff_forall_not_mem.mpr fun u hu => ?_
    obtain ⟨halive, hmem⟩ := mem_members hK rfl hu
    rw [hs.writers t (hK.threaded.lt_max t halive) halive] at hmem
    cases hmem
  · obtain ⟨halive, hmem⟩ := mem_members hK rfl hu
    obtain ⟨rfl, rfl, hsize⟩ := hs.readers t (hK.threaded.lt_max t halive) halive u hmem
    refine ⟨rfl, by rw [want, if_pos rfl, hs.daemon, hsize, Filesysd.readSize], ?_⟩
    rw [hsize, ← Pipe.length_bytes, (hpipes _).2]
    decide
  · obtain rfl := ht.resolve_right fun hin => hin (hs.outside t)
    obtain hwait | hcan := hs.attends
    · rw [hK.threaded.members_eq] at hwait
      · exact Or.inr hwait
      · intro u hu
        obtain rfl := Option.some.inj hu
        exact hs.filesysd
    · exact Or.inl ((canRun_iff hK).mp hcan)
  · exact {
      issued := by rw [hissued, hprocessed]; rfl
      whole := by rw [hs.daemon, (hpipes _).2]; rfl
      proper := by rw [hs.daemon]; trivial
      issuers := by simp [hissued]
      outstanding := fun t => by simp [requestsOf, answeredTo, hissued, hanswered, hs.outside]
      undelivered := fun t _ => ⟨[], by simp [processedFor, answeredTo, hprocessed, hanswered],
        by simp [(hpipes t).2, hreply]⟩
      writing := fun fd result hd => by simp [hs.daemon] at hd
      filesysd := hs.outside _
      sent := fun r hr => by simp [hs.outside] at hr }

/-- If every request finds room in the pipe of the daemon, every request is processed once
and its reply read once, in every interleaving. -/
theorem deliversOnce_of_requestOk {es : List FsEvent} (hstart : s.Started)
    (hok : Runs.AllOk RequestOk step s es) (hrun : Runs.exec step s es = some s') :
    s'.DeliversOnce :=
  (Runs.exec_invariant (fun _ _ _ hs hok hstep => (hs.step hok hstep).1) (Sound.of_started hstart)
    hok hrun).deliversOnce

/-- The start of the system, after which the daemon, thread 2, waits for its first command and
the init thread has the CPU. -/
def daemonRun : List KernelEvent :=
  [.call (.pthreadCreate (some { schedPriority := kthreadPriMax - 1 }) true),
    .call (.pthreadJoin 4), .schedule,
    .call (.wait (.driver 0)), .schedule,
    .call (.fifoWait (.pipeRead 2) 4), .schedule,
    .call (.wait (.driver 1)), .schedule]

/-- Init creates nine threads of its own priority, which is that of the daemon. -/
def crowdedRun : List KernelEvent :=
  daemonRun ++ List.replicate 9 (.call (.pthreadCreate none true))

def kernelAfter (es : List KernelEvent) : Kernel :=
  (Runs.exec Kernel.step schedStart es).getD schedStart

theorem kernelAfter_settled {es : List KernelEvent}
    (hsome : (Runs.exec Kernel.step schedStart es).isSome = true)
    (hok : Runs.AllOk EventOk Kernel.step schedStart es)
    (htimeout : (kernelAfter es).timeoutList = [])
    (hawake : ∀ t < threadMax, t ∈ (kernelAfter es).members .sleep ∨
      ((kernelAfter es).threads t).sleepTicks = 0#32) : Settled (kernelAfter es) := by
  refine ⟨⟨es, hok, (Option.some_get hsome).symm.trans ?_⟩, htimeout, hawake⟩
  rw [kernelAfter, Option.get_eq_getD]

def fsOn (k : Kernel) : FsSys where
  kernel := k
  filesysd := 2
  daemon := .readFileCmd
  pipes t := threadPipe t fun _ => 0#8
  callers _ := .outside
  issued := []
  processed := []
  answered := []

theorem fsOn_started {k : Kernel} (hk : k.Settled) (halive : k.Alive 2)
    (hattends : 2 ∈ k.members (.wait (.pipeRead 2)))
    (hwriters : ∀ t < threadMax, k.Alive t → k.members (.wait (.pipeWrite t)) = [])
    (hreaders : ∀ t < threadMax, k.Alive t → ∀ u ∈ k.members (.wait (.pipeRead t)),
      t = 2 ∧ u = t ∧ (k.threads t).fileRequestSize = 4) : (fsOn k).Started where
  settled := hk
  pipes _ := ⟨_, rfl⟩
  filesysd := halive
  daemon := rfl
  outside _ := rfl
  logs := ⟨rfl, rfl, rfl⟩
  writers := hwriters
  readers := hreaders
  attends := Or.inl hattends

/-- Init opens a file: its request wakes the daemon, whose reply wakes init. -/
def openFileRun : List FsEvent :=
  [.request (.openFile 7#32), .readReply, .background .schedule, .daemon 0#32, .daemon 0#32,
    .daemon 0#32, .daemon 3#32, .daemon 0#32, .daemon 0#32, .background .schedule, .readReply]

theorem deliversOnce_of_requestOk_at_openFile : (fsOn (kernelAfter daemonRun)).Started ∧
    Runs.AllOk RequestOk step (fsOn (kernelAfter daemonRun)) openFileRun ∧
    ∃ s, Runs.exec step (fsOn (kernelAfter daemonRun)) openFileRun = some s ∧
      s.answered = [⟨4, .openFile 7#32, 3#32⟩] ∧ s.DeliversOnce := by
  have hstart : (fsOn (kernelAfter daemonRun)).Started :=
    fsOn_started (kernelAfter_settled (by decide +kernel) (by decide +kernel) (by decide +kernel)
      (by decide +kernel)) (by decide +kernel) (by decide +kernel) (by decide +kernel)
      (by decide +kernel)
  have hok : Runs.AllOk RequestOk step (fsOn (kernelAfter daemonRun)) openFileRun := by
    decide +kernel
  have hrun : (Runs.exec step (fsOn (kernelAfter daemonRun)) openFileRun).map (·.answered) =
      some [⟨4, .openFile 7#32, 3#32⟩] := by decide +kernel
  obtain ⟨s, hs, hanswered⟩ := Option.map_eq_some_iff.mp hrun
  exact ⟨hstart, hok, s, hs, hanswered, deliversOnce_of_requestOk hstart hok hs⟩

/-- Each of the nine threads opens a file before the daemon gets the CPU. -/
def crowdOpensRun : List FsEvent :=
  .background .schedule ::
    (List.replicate 9 [.request (.openFile 7#32), .readReply, .background .schedule]).flatten

/-- The ninth request does not fit and is dropped, while its thread waits for a reply. -/
theorem deliversOnce_not_in_crowd : (fsOn (kernelAfter crowdedRun)).Started ∧
    ∃ s, Runs.exec step (fsOn (kernelAfter crowdedRun)) crowdOpensRun = some s ∧
      s.callers 13 = .waiting (.openFile 7#32) ∧ ¬ s.DeliversOnce := by
  have hstart : (fsOn (kernelAfter crowdedRun)).Started :=
    fsOn_started (kernelAfter_settled (by decide +kernel) (by decide +kernel) (by decide +kernel)
      (by decide +kernel)) (by decide +kernel) (by decide +kernel) (by decide +kernel)
      (by decide +kernel)
  have hrun : (Runs.exec step (fsOn (kernelAfter crowdedRun)) crowdOpensRun).map (fun s =>
      (s.callers 13, (s.daemon.consumed ++ (s.pipes s.filesysd).fifo.bytes).length,
        ((s.issued.drop s.processed.length).flatMap fun i =>
          i.2.bytes (threadPipeFd i.1)).length)) =
      some (.waiting (.openFile 7#32), 96, 108) := by decide +kernel
  obtain ⟨s, hs, hfacts⟩ := Option.map_eq_some_iff.mp hrun
  simp only [Prod.mk.injEq] at hfacts
  obtain ⟨hcaller, hpipe, hissued⟩ := hfacts
  refine ⟨hstart, s, hs, hcaller, fun h => ?_⟩
  have hlen := congrArg List.length h.whole
  rw [hpipe, hissued] at hlen
  cases hlen

end FsSys

end Tenok
