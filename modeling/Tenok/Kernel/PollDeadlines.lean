import Tenok.Kernel.PollClock

/-!
Every tick is the same number of nanoseconds and a timeout is a whole number of ticks, so the
system time meets each deadline exactly: while a thread is blocked its deadline is some ticks
ahead, and both are in range. At the deadline the two fields are equal.
-/
namespace Tenok
open Ring Kernel

section Times
variable {time timeout : Timespec} {n : Int}

/-- The nanoseconds are less than a second. -/
structure Timespec.Normal (time : Timespec) : Prop where
  nonneg : 0 ≤ time.tvNsec
  lt : time.tvNsec < 1000000000

theorem toLong_eq (hlow : -2147483648 ≤ n) (hhigh : n < 2147483648) : toLong n = n := by
  rw [toLong, Int.bmod]
  split <;> omega

theorem timerUpCount_spec (h : time.Normal) :
    (timerUpCount time).Normal ∧ (timerUpCount time).nanos = time.nanos + nanosecondTicks := by
  obtain ⟨hnonneg, hlt⟩ := h
  have hticks : nanosecondTicks = 250000 := rfl
  have hsum : toLong (time.tvNsec + nanosecondTicks) = time.tvNsec + nanosecondTicks :=
    toLong_eq (by omega) (by omega)
  simp only [timerUpCount, hsum]
  split
  · exact ⟨⟨by dsimp only; omega, by dsimp only; omega⟩, by simp only [Timespec.nanos]; omega⟩
  · exact ⟨⟨by dsimp only; omega, by dsimp only; omega⟩, by simp only [Timespec.nanos]; omega⟩

theorem timeAdd_spec (h : time.Normal) (hn : 0 ≤ n) (hlt : time.tvNsec + n < 2000000000) :
    (timeAdd time 0 n).Normal ∧ (timeAdd time 0 n).nanos = time.nanos + n := by
  obtain ⟨hnonneg, -⟩ := h
  have hsum : toLong (time.tvNsec + n) = time.tvNsec + n := toLong_eq (by omega) (by omega)
  simp only [timeAdd, hsum]
  split
  · exact ⟨⟨by dsimp only; omega, by dsimp only; omega⟩, by simp only [Timespec.nanos]; omega⟩
  · exact ⟨⟨by dsimp only; omega, by dsimp only; omega⟩, by simp only [Timespec.nanos]; omega⟩

theorem timeUp_not_of_second_carry (hlow : 2000000000 ≤ timeout.tvNsec + n)
    (hhigh : timeout.tvNsec + n < 2147483648) (h : time.Normal) :
    timeUp time (timeAdd timeout 0 n) = false := by
  have hlt := h.lt
  have hsum : toLong (timeout.tvNsec + n) = timeout.tvNsec + n := toLong_eq (by omega) (by omega)
  simp only [timeUp, timeAdd, hsum, Bool.and_eq_false_iff, decide_eq_false_iff_not]
  split
  · right; dsimp only; omega
  · right; dsimp only; omega

theorem nanos_le_of_timeUp (h : timeUp time timeout = true) : timeout.nanos ≤ time.nanos := by
  simp only [timeUp, Bool.and_eq_true, decide_eq_true_eq] at h
  simp only [Timespec.nanos]
  omega

theorem timeUp_of_nanos_eq (h : time.Normal) (h' : timeout.Normal)
    (heq : time.nanos = timeout.nanos) : timeUp time timeout = true := by
  obtain ⟨hnonneg, hlt⟩ := h
  obtain ⟨hnonneg', hlt'⟩ := h'
  simp only [Timespec.nanos] at heq
  simp only [timeUp, Bool.and_eq_true, decide_eq_true_eq]
  omega

end Times

namespace PollSys
variable {p p' : PollSys} {L : SchedList → List Tid} {e : KernelEvent} {k : Kernel} {t : Tid}

theorem step_kernel : p.step (.kernel e) = some p' ↔
    ¬ (e.hasFiles = true ∨ (e.byThread = true ∧ p.InPoll)) ∧
      ∃ k, p.kernel.step e = some k ∧ p.runKernel k = p' := by
  simp only [PollSys.step, Option.ite_none_left_eq_some, Option.map_eq_some_iff]

theorem Inv.poll_of_kernel (hL : Inv p L) (hok : p.kernel.EventOk e ∧ p.kernel.TaskletOk e)
    (hfiles : e.hasFiles = false) (hstep : p.kernel.step e = some k)
    (ht : t ∈ k.members .poll) : t ∈ p.kernel.members .poll := by
  obtain ⟨L', hT', -, -, hpolls⟩ := hL.kernel hok hstep
  rw [hT'.members_eq poll_inUse] at ht
  rw [hL.members_poll]
  refine (hpolls t ht).resolve_right ?_
  rintro ⟨⟨timeout, rfl⟩, -⟩
  cases hfiles

theorem sysPoll_kernel {fds : List PollFd} {timeout : Int} {r : PollSys × Option Int × List PollFd}
    (h : p.sysPoll fds timeout = some r) :
    r.1.kernel = if (p.blocksOn fds timeout).isSome then p.kernel.sysPoll timeout else p.kernel := by
  obtain ⟨filps, hfilps, h⟩ := Option.bind_eq_some_iff.mp h
  have hfilps' : p.filps fds = some filps := hfilps
  dsimp only at h
  split at h
  · next hevent =>
      obtain rfl := Option.some.inj h
      change (!p.noEvent fds filps) = true at hevent
      have hnone : p.noEvent fds filps = false := by simpa using hevent
      simp [blocksOn, hfilps', hnone]
  · next hevent =>
      change ¬ (!p.noEvent fds filps) = true at hevent
      have hnone : p.noEvent fds filps = true := by simpa using hevent
      split at h
      · next htimeout =>
          obtain rfl := Option.some.inj h
          simp [blocksOn, hfilps', htimeout]
      · next htimeout =>
          obtain rfl := Option.some.inj h
          simp [blocksOn, hfilps', hnone, htimeout]

theorem Inv.notMem_poll_of_queued (hL : Inv p L) (ht : p.kernel.Queued t) :
    t ∉ p.kernel.members .poll := by
  obtain ⟨-, q, hq⟩ := ht
  rw [hL.threaded.members_eq (Threaded.ready_inUse q)] at hq
  rw [hL.members_poll]
  intro hpoll
  cases hL.threaded.rings.unique hq hpoll

end PollSys

namespace PollHistory
variable {h h' : PollHistory} {c : PollClock} {e : ClockEvent} {t : Tid}

/-- The deadline of a blocked thread is some ticks ahead. -/
structure Pending (h : PollHistory) (t : Tid) : Prop where
  normal : (h.clock.syscallTimeout t).Normal
  deadline : (h.clock.syscallTimeout t).nanos = h.due t
  ahead : ∃ n : Nat, h.due t = h.now + (n + 1) * nanosecondTicks
  arrived : h.arrived t = false

/-- A thread on the list of timeouts is blocked, or it is awake and its mark tells why. -/
def Watched (h : PollHistory) (t : Tid) : Prop :=
  (h.clock.Blocked t ∧ h.Pending t) ∨
    (t ∉ h.clock.sys.kernel.members .poll ∧ h.clock.syscallIsTimeout t = !h.arrived t)

structure Inv (h : PollHistory) : Prop where
  sys : ∃ L, PollSys.Inv h.clock.sys L
  normal : h.clock.sysTime.Normal
  watched : ∀ t ∈ h.clock.timeoutList, h.Watched t

theorem Pending.now_lt (h' : h.Pending t) : h.now < h.due t := by
  obtain ⟨n, hn⟩ := h'.ahead
  rw [show nanosecondTicks = 250000 from rfl] at hn
  omega

theorem Watched.pending (hw : h.Watched t) (hblocked : h.clock.Blocked t) : h.Pending t := by
  obtain ⟨-, hpending⟩ | ⟨hawake, -⟩ := hw
  · exact hpending
  · exact absurd hblocked.polls hawake

theorem Watched.awake (hw : h.Watched t) (hblocked : ¬ h.clock.Blocked t) :
    t ∉ h.clock.sys.kernel.members .poll ∧ h.clock.syscallIsTimeout t = !h.arrived t :=
  hw.resolve_left fun h => hblocked h.1

theorem Watched.frame (hw : h.Watched t) (hblocked : h.clock.Blocked t → h'.clock.Blocked t)
    (hpolls : t ∈ h'.clock.sys.kernel.members .poll → t ∈ h.clock.sys.kernel.members .poll)
    (htimeout : h'.clock.syscallTimeout t = h.clock.syscallTimeout t)
    (hmark : h'.clock.syscallIsTimeout t = h.clock.syscallIsTimeout t)
    (hdue : h'.due t = h.due t) (harrived : h'.arrived t = h.arrived t) (hnow : h'.now = h.now) :
    h'.Watched t := by
  obtain ⟨hb, hpending⟩ | ⟨hawake, heq⟩ := hw
  · refine Or.inl ⟨hblocked hb, ?_, ?_, ?_, ?_⟩
    · exact htimeout ▸ hpending.normal
    · rw [htimeout, hdue, hpending.deadline]
    · rw [hdue, hnow]
      exact hpending.ahead
    · exact harrived.trans hpending.arrived
  · exact Or.inr ⟨fun hmem => hawake (hpolls hmem), by rw [hmark, harrived, heq]⟩

namespace Inv

theorem ahead (hinv : Inv h) (hblocked : h.clock.Blocked t) : h.now < h.due t :=
  ((hinv.watched t hblocked.timed).pending hblocked).now_lt

end Inv

/-- A step that neither begins nor ends a poll with a timeout, wakes no thread from one and
leaves the clock alone. -/
structure Quiet (h h' : PollHistory) : Prop where
  keeps : KeepsPolls h.clock.sys.kernel h'.clock.sys.kernel
  polls : ∀ t ∈ h.clock.timeoutList, t ∈ h'.clock.sys.kernel.members .poll →
    t ∈ h.clock.sys.kernel.members .poll
  fields : ∀ t ∈ h.clock.timeoutList,
    h'.clock.syscallTimeout t = h.clock.syscallTimeout t ∧
      h'.clock.syscallIsTimeout t = h.clock.syscallIsTimeout t ∧
      h'.due t = h.due t ∧ h'.arrived t = h.arrived t
  sysTime : h'.clock.sysTime = h.clock.sysTime

theorem Inv.quiet (hinv : Inv h) (hquiet : Quiet h h') (hsys : ∃ L, PollSys.Inv h'.clock.sys L) :
    Inv h' := by
  refine ⟨hsys, hquiet.sysTime ▸ hinv.normal, fun t ht => ?_⟩
  have ht' : t ∈ h.clock.timeoutList := by
    rw [PollClock.timeoutList, hquiet.keeps.timeoutList] at ht
    exact ht
  obtain ⟨htimeout, hmark, hdue, harrived⟩ := hquiet.fields t ht'
  exact (hinv.watched t ht').frame (hquiet.keeps.blocked t) (hquiet.polls t ht') htimeout hmark
    hdue harrived (congrArg Timespec.nanos hquiet.sysTime)

theorem Quiet.stays (hquiet : Quiet h h') (ht : h.clock.Blocked t) :
    h'.clock.Blocked t ∧ h'.due t = h.due t :=
  ⟨hquiet.keeps.blocked t ht, (hquiet.fields t ht.timed).2.2.1⟩

/-! ### The tick -/

structure Ticked (h h' : PollHistory) : Prop where
  rest : h' = { h with clock := h'.clock }
  sysTime : h'.clock.sysTime = timerUpCount h.clock.sysTime
  syscallTimeout : h'.clock.syscallTimeout = h.clock.syscallTimeout
  mark : ∀ t, h'.clock.syscallIsTimeout t = (h.clock.syscallIsTimeout t ||
    (decide (t ∈ h.clock.timeoutList) && h.clock.expires t))
  kernel : h.clock.sys.kernel.systemTicksUpdate h.clock.expires = some h'.clock.sys.kernel
  sys : h.clock.sys.step (.kernel (.systemTicks h.clock.expires)) = some h'.clock.sys

namespace Ticked

theorem of_step (hstep : h.step .tick = some h') : Ticked h h' := by
  obtain ⟨c, hc, rfl⟩ := Option.map_eq_some_iff.mp hstep
  obtain ⟨sys, hsys, rfl⟩ := Option.map_eq_some_iff.mp hc
  obtain ⟨-, k, hk, hk'⟩ := PollSys.step_kernel.mp hsys
  exact ⟨rfl, rfl, rfl, fun _ => rfl, hk' ▸ hk, hsys⟩

theorem due (hT : Ticked h h') : h'.due = h.due := by rw [hT.rest]

theorem arrived (hT : Ticked h h') : h'.arrived = h.arrived := by rw [hT.rest]

theorem now (hT : Ticked h h') (hinv : Inv h) : h'.now = h.now + nanosecondTicks := by
  rw [PollHistory.now, hT.sysTime, (timerUpCount_spec hinv.normal).2, PollHistory.now]

theorem threads (hT : Ticked h h') (hinv : Inv h) :
    h'.clock.timeoutList = h.clock.timeoutList ∧
      (∀ t ∈ h.clock.timeoutList, h.clock.expires t = true → t ≠ h.clock.running →
        h'.clock.sys.kernel.Queued t) ∧
      ∀ t, h.clock.Blocked t → h.clock.expires t = false → h'.clock.Blocked t := by
  obtain ⟨L, hL⟩ := hinv.sys
  exact hL.threaded.ticks hL.registered hT.kernel

theorem expires_iff (hT : Ticked h h') (hinv : Inv h) (hblocked : h.clock.Blocked t) :
    h.clock.expires t = true ↔ h.due t ≤ h'.now := by
  have hpending := (hinv.watched t hblocked.timed).pending hblocked
  have hnow : h'.now = (timerUpCount h.clock.sysTime).nanos := congrArg _ hT.sysTime
  rw [← hpending.deadline, hnow]
  refine ⟨nanos_le_of_timeUp, fun hreached => ?_⟩
  obtain ⟨n, hn⟩ := hpending.ahead
  refine timeUp_of_nanos_eq (timerUpCount_spec hinv.normal).1 hpending.normal ?_
  rw [← hnow, hpending.deadline, hT.now hinv, show nanosecondTicks = 250000 from rfl] at *
  omega

theorem blocked (hT : Ticked h h') (hinv : Inv h) (hblocked : h.clock.Blocked t)
    (hbefore : h'.now < h.due t) : h'.clock.Blocked t := by
  refine (hT.threads hinv).2.2 t hblocked (Bool.not_eq_true _ ▸ fun hup => ?_)
  exact absurd ((hT.expires_iff hinv hblocked).mp hup) (not_le.mpr hbefore)

theorem pending (hT : Ticked h h') (hinv : Inv h) (hblocked : h.clock.Blocked t)
    (hbefore : h'.now < h.due t) : h'.Pending t := by
  have hpending := (hinv.watched t hblocked.timed).pending hblocked
  refine ⟨hT.syscallTimeout ▸ hpending.normal, ?_, ?_, ?_⟩
  · rw [hT.syscallTimeout, hT.due, hpending.deadline]
  · obtain ⟨n, hn⟩ := hpending.ahead
    rw [hT.now hinv, hn, show nanosecondTicks = 250000 from rfl] at hbefore
    refine ⟨n - 1, ?_⟩
    rw [hT.due, hT.now hinv, hn, show nanosecondTicks = 250000 from rfl]
    omega
  · rw [hT.arrived, hpending.arrived]

theorem queued (hT : Ticked h h') (hinv : Inv h) (hok : h.EventOk .tick)
    (hblocked : h.clock.Blocked t) (hreached : h.due t ≤ h'.now) :
    h.clock.expires t = true ∧ h'.clock.sys.kernel.Queued t := by
  have hup := (hT.expires_iff hinv hblocked).mpr hreached
  have hrunning := hok t hblocked.timed hup
  rw [if_pos hblocked] at hrunning
  exact ⟨hup, (hT.threads hinv).2.1 t hblocked.timed hup hrunning⟩

end Ticked

theorem Inv.tick (hinv : Inv h) (hok : h.EventOk .tick) (hT : Ticked h h') : Inv h' := by
  obtain ⟨L, hL⟩ := hinv.sys
  obtain ⟨L', hL'⟩ := hL.step (e := .kernel (.systemTicks _)) ⟨trivial, trivial⟩ hT.sys
  refine ⟨⟨L', hL'⟩, hT.sysTime ▸ (timerUpCount_spec hinv.normal).1, fun t ht => ?_⟩
  rw [(hT.threads hinv).1] at ht
  by_cases hb : h.clock.Blocked t
  · by_cases hreached : h.due t ≤ h'.now
    · obtain ⟨hup, hqueued⟩ := hT.queued hinv hok hb hreached
      refine Or.inr ⟨hL'.notMem_poll_of_queued hqueued, ?_⟩
      rw [hT.mark, hT.arrived, ((hinv.watched t ht).pending hb).arrived, hup]
      simp [ht]
    · have hbefore := not_le.mp hreached
      exact Or.inl ⟨hT.blocked hinv hb hbefore, hT.pending hinv hb hbefore⟩
  · obtain ⟨hawake, heq⟩ := (hinv.watched t ht).awake hb
    have hback := hL.poll_of_kernel (e := .systemTicks _) (t := t) ⟨trivial, trivial⟩ rfl hT.kernel
    refine Or.inr ⟨fun hpoll => hawake (hback hpoll), ?_⟩
    rw [hT.mark, hT.arrived, ← heq]
    -- a thread that is awake with its time up is marked already
    cases hup : h.clock.expires t with
    | false => simp
    | true =>
        have hmarked := hok t ht hup
        rw [if_neg hb] at hmarked
        simp [hmarked]

theorem deadlinesKept_tick (hinv : Inv h) (hok : h.EventOk .tick) (hT : Ticked h h') :
    DeadlinesKept h .tick h' :=
  ⟨by simp, fun _ => (hinv.tick hok hT).ahead,
    fun _ _ ht hreached => (hT.queued hinv hok ht hreached).2, by simp,
    fun t ht hbefore _ => ⟨hT.blocked hinv ht (hbefore rfl), congrFun hT.due t⟩, by simp⟩

/-! ### The other events -/

theorem Inv.clockSettime {tp : Timespec} (hinv : Inv h) (hok : h.EventOk (.clockSettime tp))
    (hstep : h.step (.clockSettime tp) = some h') :
    Inv h' ∧ DeadlinesKept h (.clockSettime tp) h' := by
  obtain ⟨c, hc, rfl⟩ := Option.map_eq_some_iff.mp hstep
  obtain ⟨-, hc⟩ := Option.ite_none_right_eq_some.mp hc
  obtain rfl := Option.some.inj hc
  obtain ⟨hnonneg, hlt, hnone⟩ := hok
  have hinv' : Inv (h.record { h.clock with sysTime := tp } (.clockSettime tp)) :=
    ⟨hinv.sys, ⟨hnonneg, hlt⟩, fun t ht => Or.inr ((hinv.watched t ht).awake (hnone t ht))⟩
  exact ⟨hinv', by simp, fun _ => hinv'.ahead, by simp, by simp,
    fun t ht _ _ => absurd ht (hnone t ht.timed), by simp⟩

theorem Quiet.deadlinesKept {pe : PollEvent} (hquiet : Quiet h h') (hinv' : Inv h')
    (hpoll : ∀ fds timeout, pe ≠ .poll fds timeout) (hret : pe ≠ .pollRet)
    (hnot : ∀ t, ¬ h.clock.Notified t pe) : DeadlinesKept h (.sys pe) h' := by
  refine ⟨fun fds timeout he => ?_, fun _ => hinv'.ahead, by simp, fun pe' he t ht => ?_,
    fun _ ht _ _ => hquiet.stays ht, fun he => ?_⟩
  · exact absurd (ClockEvent.sys.inj he) (hpoll fds timeout)
  · obtain rfl := ClockEvent.sys.inj he
    exact absurd ht (hnot t)
  · exact absurd (ClockEvent.sys.inj he) hret

theorem Inv.runSys {pe : PollEvent} {sys : PollSys} (hinv : Inv h)
    (hsys : ∃ L, PollSys.Inv sys L) (hkeeps : KeepsPolls h.clock.sys.kernel sys.kernel)
    (hpolls : ∀ t ∈ sys.kernel.members .poll, t ∈ h.clock.sys.kernel.members .poll)
    (hnot : ∀ t, ¬ h.clock.Notified t pe)
    (heq : h' = { h with
      clock := h.clock.runSys sys
      arrived := fun t => h.arrived t || decide (h.clock.Notified t pe) }) :
    Inv h' ∧ Quiet h h' := by
  obtain ⟨L, hL⟩ := hinv.sys
  have hquiet : Quiet h h' := by
    rw [heq]
    refine ⟨hkeeps, fun t _ => hpolls t, fun t ht => ?_, rfl⟩
    have halive : h.clock.sys.kernel.bitmapThreads t = true := (hL.registered.timeoutList.2 t ht).1
    simp [PollClock.runSys, halive, hnot]
  exact ⟨hinv.quiet hquiet (by rw [heq]; exact hsys), hquiet⟩

theorem Inv.kernel {ke : KernelEvent} {sys : PollSys} (hinv : Inv h)
    (hok : h.EventOk (.sys (.kernel ke))) (hticks : ∀ expired, ke ≠ .systemTicks expired)
    (hsys : h.clock.sys.step (.kernel ke) = some sys) :
    (∃ L, PollSys.Inv sys L) ∧ KeepsPolls h.clock.sys.kernel sys.kernel ∧
      ∀ t ∈ sys.kernel.members .poll, t ∈ h.clock.sys.kernel.members .poll := by
  obtain ⟨L, hL⟩ := hinv.sys
  obtain ⟨⟨hevent, htasklet⟩, htiming⟩ := hok
  obtain ⟨hguard, k, hk, rfl⟩ := PollSys.step_kernel.mp hsys
  rw [not_or, Bool.not_eq_true] at hguard
  have hdaemon : ∀ tid, ke = .taskletSchedule tid → tid ∉ h.clock.sys.kernel.timeoutList := by
    rintro tid rfl
    exact htiming
  have honPolls : ke.onPolls = false := by
    cases ke with
    | call c =>
        cases c with
        | poll timeout => exact absurd hguard.1 (by simp [KernelEvent.hasFiles])
        | _ => rfl
    | pollRet | pollNotify _ => exact absurd hguard.1 (by simp [KernelEvent.hasFiles])
    | systemTicks expired => exact absurd rfl (hticks expired)
    | _ => rfl
  exact ⟨hL.step (e := .kernel ke) ⟨hevent, htasklet⟩ hsys,
    KeepsPolls.step hL.parked hL.threaded hL.registered hevent hdaemon honPolls hk,
    fun _ => hL.poll_of_kernel ⟨hevent, htasklet⟩ hguard.1 hk⟩

theorem Inv.notifies {filp : File} {flag : Word} {fuel : Nat} {sys : PollSys} (hinv : Inv h)
    (hcaller : ¬ h.clock.sys.InPoll)
    (hfifo : h.clock.sys.fifoEvents filp flag true fuel = some sys) :
    sys.kernel.timeoutList = h.clock.timeoutList ∧
      (∀ t, h.clock.Blocked t → h.clock.sys.Polls filp t → sys.kernel.Queued t) ∧
      (∀ t, h.clock.Blocked t → ¬ h.clock.sys.Polls filp t → sys.kernel.PollBlocked t) ∧
      ∀ t ∈ sys.kernel.members .poll, t ∈ h.clock.sys.kernel.members .poll ∧
        ¬ h.clock.sys.Polls filp t := by
  obtain ⟨L, hL⟩ := hinv.sys
  have hset : PollSys.Inv { h.clock.sys with
      fEvents := Function.update h.clock.sys.fEvents filp (h.clock.sys.fEvents filp ||| flag) } L :=
    hL.setEvents
  obtain ⟨n, k', -, hnotify, -, hworks, htimeouts⟩ := hset.pollNotify hcaller filp
  have hsys := (PollSys.pollNotify_mono (le_max_right n fuel) hfifo).symm.trans
    (hnotify _ (le_max_left n fuel))
  obtain rfl := Option.some.inj hsys
  have hmem : ∀ t, t ∈ k'.members .poll ↔
      t ∈ h.clock.sys.kernel.members .poll ∧ ¬ h.clock.sys.Polls filp t := fun t => by
    have hpollList : k'.members .poll = _ := hworks.pollList
    rw [hpollList, List.mem_filter, decide_eq_true_eq]
    rfl
  refine ⟨htimeouts, fun t ht hpolls => hworks.ready t ht.polls hpolls, fun t ht hpolls => ?_,
    fun t => (hmem t).mp⟩
  refine ⟨htimeouts.symm ▸ ht.timed, (hmem t).mpr ⟨ht.polls, hpolls⟩, ?_⟩
  rw [hworks.others t fun h => hpolls h.2]
  exact ht.status

/-- An event of a file comes for the threads that are blocked on it; these are not marked. -/
theorem Inv.fifoEvents {filp : File} {flag : Word} {ready : Bool} {fuel : Nat} (hinv : Inv h)
    (hok : h.EventOk (.sys (.fifoEvents filp flag ready fuel)))
    (hstep : h.step (.sys (.fifoEvents filp flag ready fuel)) = some h') :
    Inv h' ∧ DeadlinesKept h (.sys (.fifoEvents filp flag ready fuel)) h' := by
  obtain ⟨L, hL⟩ := hinv.sys
  obtain ⟨c, hc, heq⟩ := Option.map_eq_some_iff.mp hstep
  obtain ⟨sys, hsys, rfl⟩ := Option.map_eq_some_iff.mp hc
  have hL' : ∃ L', PollSys.Inv sys L' := hL.step hok.1 hsys
  obtain ⟨hcaller, hfifo⟩ := Option.ite_none_left_eq_some.mp hsys
  cases ready with
  | false =>
      obtain rfl := Option.some.inj hfifo
      have hnot : ∀ t, ¬ h.clock.Notified t (.fifoEvents filp flag false fuel) := by
        simp [PollClock.Notified]
      obtain ⟨hinv', hquiet⟩ := hinv.runSys hL' (.refl _) (fun _ => id) hnot heq.symm
      exact ⟨hinv', hquiet.deadlinesKept hinv' (by simp) (by simp) hnot⟩
  | true =>
      obtain ⟨htimeouts, hready, hblocked, hback⟩ := hinv.notifies hcaller hfifo
      obtain rfl := heq
      have hinv' : Inv (h.record (h.clock.runSys sys) (.sys (.fifoEvents filp flag true fuel))) := by
        refine ⟨hL', hinv.normal, fun t ht => ?_⟩
        have ht' : t ∈ h.clock.timeoutList := htimeouts ▸ ht
        have halive : h.clock.sys.kernel.bitmapThreads t = true :=
          (hL.registered.timeoutList.2 t ht').1
        by_cases hnotified : h.clock.Notified t (.fifoEvents filp flag true fuel)
        · refine Or.inr ⟨fun hmem => (hback t hmem).2 hnotified.2.2, ?_⟩
          have hmark := hok.2 t ht' hnotified
          simp [PollHistory.record, PollClock.runSys, halive, hmark, hnotified]
        · refine (hinv.watched t ht').frame (fun hb => hblocked t hb fun hpolls => ?_)
            (fun hmem => (hback t hmem).1) ?_ ?_ rfl ?_ rfl
          · exact hnotified ⟨rfl, hb, hpolls⟩
          · simp [PollHistory.record, PollClock.runSys, halive]
          · simp [PollHistory.record, PollClock.runSys, halive]
          · simp [PollHistory.record, hnotified]
      refine ⟨hinv', by simp, fun _ => hinv'.ahead, by simp, fun pe he t ht => ?_,
        fun t ht _ hnot => ⟨hblocked t ht fun hpolls => ?_, rfl⟩, by simp⟩
      · obtain rfl := ClockEvent.sys.inj he
        exact hready t ht.2.1 ht.2.2
      · exact hnot _ rfl ⟨rfl, ht, hpolls⟩

theorem Inv.pollRet (hinv : Inv h) (hok : h.EventOk (.sys .pollRet))
    (hstep : h.step (.sys .pollRet) = some h') :
    Inv h' ∧ DeadlinesKept h (.sys .pollRet) h' := by
  obtain ⟨L, hL⟩ := hinv.sys
  obtain ⟨c, hc, rfl⟩ := Option.map_eq_some_iff.mp hstep
  obtain ⟨sys, hsys, rfl⟩ := Option.map_eq_some_iff.mp hc
  have hL' : ∃ L', PollSys.Inv sys L' := hL.step hok.1 hsys
  obtain ⟨⟨hst, -⟩, hsys'⟩ := Option.ite_none_right_eq_some.mp hsys
  obtain rfl := Option.some.inj hsys'
  have hrunning : ¬ h.clock.Blocked h.clock.running := fun hb => by
    have hwait := hb.status
    rw [PollClock.running, hst] at hwait
    cases hwait
  obtain ⟨hpolls, hthreads⟩ := hL.threaded.sysPollRet
  have hkernel : ∀ t, t ≠ h.clock.running →
      (t ∈ h.clock.sys.sysPollRet.kernel.timeoutList ↔ t ∈ h.clock.timeoutList) ∧
        h.clock.sys.sysPollRet.kernel.threads t = h.clock.sys.kernel.threads t := fun t ht => by
    rw [PollSys.sysPollRet]
    dsimp only
    split
    · exact ⟨List.mem_erase_of_ne ht, hthreads t ht⟩
    · exact ⟨Iff.rfl, rfl⟩
  have hmembers : h.clock.sys.sysPollRet.kernel.members .poll =
      h.clock.sys.kernel.members .poll := by
    rw [PollSys.sysPollRet]
    dsimp only
    split
    · exact hpolls
    · rfl
  have hgone : h.clock.running ∉ h.clock.sys.sysPollRet.kernel.timeoutList := by
    rw [PollSys.sysPollRet]
    dsimp only
    split
    · exact hL.registered.timeoutList.1.not_mem_erase
    · next htimed => exact fun hmem => htimed (hL.registered.timeoutList.2 _ hmem).2
  have hblocked : ∀ t, h.clock.Blocked t → h.clock.sys.sysPollRet.kernel.PollBlocked t := by
    intro t ht
    have hne : t ≠ h.clock.running := fun hne => hrunning (hne ▸ ht)
    obtain ⟨hmem, hinfo⟩ := hkernel t hne
    exact ⟨hmem.mpr ht.timed, hmembers ▸ ht.polls, hinfo ▸ ht.status⟩
  have hinv' : Inv (h.record { h.clock with
      sys := h.clock.sys.sysPollRet
      retval := Function.update h.clock.retval h.clock.running
        (if h.clock.syscallIsTimeout h.clock.running then -1 else 0) } (.sys .pollRet)) := by
    refine ⟨hL', hinv.normal, fun t ht => ?_⟩
    have hne : t ≠ h.clock.running := fun hne => hgone (hne ▸ ht)
    have ht' : t ∈ h.clock.timeoutList := (hkernel t hne).1.mp ht
    have hnot : ¬ h.clock.Notified t .pollRet := id
    refine (hinv.watched t ht').frame (hblocked t) (fun hmem => hmembers ▸ hmem) rfl rfl rfl ?_ rfl
    simp [PollHistory.record, hnot]
  refine ⟨hinv', by simp, fun _ => hinv'.ahead, by simp, fun pe he t ht => ?_,
    fun t ht _ _ => ⟨hblocked t ht, rfl⟩, fun _ ht => ?_⟩
  · obtain rfl := ClockEvent.sys.inj he
    exact ht.elim
  · have hmark := ((hinv.watched _ ht).awake hrunning).2
    change Function.update h.clock.retval h.clock.running _ h.clock.running = _
    rw [Function.update_self, hmark]
    cases h.arrived h.clock.running <;> rfl

/-- The kernel after a call of `sys_poll`, for the caller and for the other threads. -/
theorem Inv.calls {fds : List PollFd} {timeout : Int} {r : PollSys × Option Int × List PollFd}
    (hinv : Inv h) (hexec : h.clock.sys.kernel.Executing)
    (hok : h.clock.sys.EventOk (.poll fds timeout)) (hr : h.clock.sys.sysPoll fds timeout = some r) :
    (h.clock.running ∈ r.1.kernel.timeoutList → r.1.kernel.PollBlocked h.clock.running ∧
      (h.clock.sys.blocksOn fds timeout).isSome = true ∧ 0 < timeout) ∧
    ((h.clock.sys.blocksOn fds timeout).isSome = true → 0 < timeout →
      h.clock.running ∈ r.1.kernel.timeoutList) ∧
    ∀ t, t ≠ h.clock.running →
      (t ∈ r.1.kernel.timeoutList ↔ t ∈ h.clock.timeoutList) ∧
        (t ∈ r.1.kernel.members .poll ↔ t ∈ h.clock.sys.kernel.members .poll) ∧
        r.1.kernel.threads t = h.clock.sys.kernel.threads t := by
  obtain ⟨L, hL⟩ := hinv.sys
  have hfree : h.clock.running ∉ h.clock.timeoutList := fun hmem => by
    simpa [PollClock.running, hexec.2] using (hL.registered.timeoutList.2 _ hmem).2
  rw [PollSys.sysPoll_kernel hr]
  cases hblocks : h.clock.sys.blocksOn fds timeout with
  | none => exact ⟨fun hmem => absurd hmem hfree, by simp, fun _ _ => ⟨.rfl, .rfl, rfl⟩⟩
  | some filps =>
      have hst : h.clock.sys.kernel.Unqueued := (hok filps hblocks).1
      obtain ⟨hmembers, htimeouts, hwait, hthreads⟩ :=
        hL.threaded.polls hst timeout
      rw [Option.isSome_some, if_pos rfl]
      refine ⟨fun hmem => ?_, fun _ hpos => ?_, fun t ht => ⟨?_, ?_, hthreads t ht⟩⟩
      · refine ⟨⟨hmem, ?_, hwait⟩, rfl, ?_⟩
        · rw [hmembers]
          exact List.mem_append_right _ (List.mem_singleton_self _)
        · by_contra hpos
          rw [htimeouts, if_neg hpos] at hmem
          exact hfree hmem
      · rw [htimeouts, if_pos hpos]
        exact List.mem_append_right _ (List.mem_singleton_self _)
      · rw [htimeouts]
        split
        · rw [List.mem_append, List.mem_singleton]
          exact or_iff_left ht
        · exact .rfl
      · rw [hmembers, List.mem_append, List.mem_singleton]
        exact or_iff_left ht

theorem Inv.poll {fds : List PollFd} {timeout : Int} (hinv : Inv h)
    (hok : h.EventOk (.sys (.poll fds timeout)))
    (hstep : h.step (.sys (.poll fds timeout)) = some h') :
    Inv h' ∧ DeadlinesKept h (.sys (.poll fds timeout)) h' := by
  obtain ⟨L, hL⟩ := hinv.sys
  obtain ⟨c, hc, rfl⟩ := Option.map_eq_some_iff.mp hstep
  obtain ⟨⟨hcall, hcaller⟩, hc⟩ := Option.ite_none_right_eq_some.mp hc
  obtain ⟨r, hr, rfl⟩ := Option.map_eq_some_iff.mp hc
  obtain ⟨hself, htimed, hothers⟩ := hinv.calls hcall.1 hok.1 hr
  have hblocked : ∀ t, h.clock.Blocked t → t ≠ h.clock.running ∧ r.1.kernel.PollBlocked t := by
    intro t ht
    have hne : t ≠ h.clock.running := by
      rintro rfl
      simpa [PollClock.running, hcall.1.2] using (hL.registered.timeoutList.2 _ ht.timed).2
    obtain ⟨hmem, hpoll, hinfo⟩ := hothers t hne
    exact ⟨hne, hmem.mpr ht.timed, hpoll.mpr ht.polls, hinfo ▸ ht.status⟩
  generalize hh' : h.record _ (.sys (.poll fds timeout)) = h'
  have hinv' : Inv h' := by
    subst hh'
    refine ⟨hL.sysPoll hcall hcaller hok.1 hr, hinv.normal, fun t ht => ?_⟩
    by_cases hne : t = h.clock.running
    · subst hne
      obtain ⟨hb, hsome, hpos⟩ := hself ht
      obtain ⟨hnormal, hnanos⟩ := timeAdd_spec (n := timeout * 1000000) hinv.normal (by omega)
        (hok.2 hsome hpos)
      have hproduct : toLong (timeout * 1000000) = timeout * 1000000 := by
        have hnsec := hinv.normal.nonneg
        have hsum := hok.2 hsome hpos
        exact toLong_eq (by omega) (by omega)
      have hdeadline : h.clock.pollDeadline timeout =
          timeAdd h.clock.sysTime 0 (timeout * 1000000) := by
        rw [PollClock.pollDeadline, hproduct]
      refine Or.inl ⟨hb, ?_, ?_, ⟨(4 * timeout - 1).toNat, ?_⟩, ?_⟩
      · simpa [PollHistory.record, hpos, hdeadline] using hnormal
      · simpa [PollHistory.record, hpos, hdeadline, PollHistory.now] using hnanos
      · simp only [PollHistory.record, Function.update_self, PollHistory.now,
          show nanosecondTicks = 250000 from rfl]
        omega
      · exact Function.update_self ..
    · obtain ⟨hmem, hpoll, -⟩ := hothers t hne
      refine (hinv.watched t (hmem.mp ht)).frame (fun hb => (hblocked t hb).2) hpoll.mp ?_ rfl
        (Function.update_of_ne hne ..) (Function.update_of_ne hne ..) rfl
      simp only [PollHistory.record]
      split
      · exact Function.update_of_ne hne ..
      · rfl
  refine ⟨hinv', fun fds' timeout' he hsome hpos => ?_, fun _ => hinv'.ahead, by simp,
    fun pe he t ht => ?_, fun t ht _ _ => ?_, by simp⟩
  · obtain ⟨rfl, rfl⟩ := PollEvent.poll.inj (ClockEvent.sys.inj he)
    subst hh'
    exact ⟨(hself (htimed hsome hpos)).1, Function.update_self ..⟩
  · obtain rfl := ClockEvent.sys.inj he
    exact ht.elim
  · subst hh'
    obtain ⟨hne, hb⟩ := hblocked t ht
    exact ⟨hb, Function.update_of_ne hne ..⟩

theorem Inv.step (hinv : Inv h) (hok : h.EventOk e) (hstep : h.step e = some h') :
    Inv h' ∧ DeadlinesKept h e h' := by
  cases e with
  | tick =>
      have hT := Ticked.of_step hstep
      exact ⟨hinv.tick hok hT, deadlinesKept_tick hinv hok hT⟩
  | clockSettime tp => exact hinv.clockSettime hok hstep
  | sys pe =>
      obtain ⟨L, hL⟩ := hinv.sys
      cases pe with
      | poll fds timeout => exact hinv.poll hok hstep
      | pollRet => exact hinv.pollRet hok hstep
      | fifoEvents filp flag ready fuel => exact hinv.fifoEvents hok hstep
      | initFile filp =>
          obtain ⟨c, hc, heq⟩ := Option.map_eq_some_iff.mp hstep
          obtain rfl := Option.some.inj hc
          obtain ⟨hinv', hquiet⟩ := hinv.runSys (hL.step (e := .initFile filp) hok.1 rfl) (.refl _)
            (fun _ => id) (fun _ => id) heq.symm
          exact ⟨hinv', hquiet.deadlinesKept hinv' (by simp) (by simp) fun _ => id⟩
      | setFd fd filp =>
          obtain ⟨c, hc, heq⟩ := Option.map_eq_some_iff.mp hstep
          obtain rfl := Option.some.inj hc
          obtain ⟨hinv', hquiet⟩ := hinv.runSys (hL.step (e := .setFd fd filp) hok.1 rfl) (.refl _)
            (fun _ => id) (fun _ => id) heq.symm
          exact ⟨hinv', hquiet.deadlinesKept hinv' (by simp) (by simp) fun _ => id⟩
      | kernel ke =>
          have hticks : ∀ expired, ke ≠ .systemTicks expired := by
            rintro expired rfl
            cases hstep
          have hcases : (h.clock.sys.step (.kernel ke)).map h.clock.runSys =
              h.clock.step (.sys (.kernel ke)) := by
            cases ke with
            | systemTicks expired => exact absurd rfl (hticks expired)
            | _ => rfl
          obtain ⟨c, hc, heq⟩ := Option.map_eq_some_iff.mp hstep
          obtain ⟨sys, hsys, rfl⟩ := Option.map_eq_some_iff.mp (hcases.trans hc)
          obtain ⟨hL', hkeeps, hpolls⟩ := hinv.kernel hok hticks hsys
          obtain ⟨hinv', hquiet⟩ := hinv.runSys hL' hkeeps hpolls (fun _ => id) heq.symm
          exact ⟨hinv', hquiet.deadlinesKept hinv' (by simp) (by simp) fun _ => id⟩

theorem inv_start (files : Cells PollNode) (fEvents : File → Word)
    (fdtable : Int → Option File) : Inv (start (PollSys.start files fEvents fdtable)) := by
  have hnormal : Timespec.Normal ⟨0, 0⟩ := ⟨le_rfl, by decide⟩
  refine ⟨PollSys.inv_start files fEvents fdtable, hnormal, fun t ht => ?_⟩
  have hempty : (start (PollSys.start files fEvents fdtable)).clock.timeoutList = [] := by
    change schedStart.timeoutList = []
    decide +kernel
  rw [hempty] at ht
  cases ht

/-- In every run whose steps meet the condition, each step keeps the deadlines. -/
theorem deadlinesKept_of_allOk {files : Cells PollNode} {fEvents : File → Word}
    {fdtable : Int → Option File} {es : List ClockEvent}
    (hok : Runs.AllOk EventOk step (start (PollSys.start files fEvents fdtable)) es)
    (hrun : Runs.exec step (start (PollSys.start files fEvents fdtable)) es = some h)
    (hlast : h.EventOk e) (hstep : h.step e = some h') : DeadlinesKept h e h' := by
  have hinv := Runs.exec_invariant (I := Inv) (fun _ _ _ hinv hok hstep => (hinv.step hok hstep).1)
    (inv_start files fEvents fdtable) hok hrun
  exact (hinv.step hlast hstep).2

/-- A user thread calls `poll` on a file without events and the next thread gets the CPU. -/
def pollCall (timeout : Int) : List ClockEvent :=
  [.sys (.kernel .syscallHandler), .sys (.poll [{ fd := fileReservedNum, events := 1#16 }] timeout),
    .sys (.kernel .schedule)]

def pollRun : List ClockEvent := (bootRun.map fun e => .sys (.kernel e)) ++ pollCall 1

theorem deadlinesKept_of_allOk_millisecond :
    ∃ h h', Runs.exec step (start (PollSys.oneFile 7)) (pollRun ++ [.tick, .tick, .tick]) = some h ∧
      h.clock.Blocked 5 ∧ h.step .tick = some h' ∧ h.due 5 = h'.now ∧ DeadlinesKept h .tick h' := by
  have hrun : ((Runs.exec step (start (PollSys.oneFile 7))
      (pollRun ++ [.tick, .tick, .tick])).bind fun h => (h.step .tick).map fun h' =>
        decide (h.clock.Blocked 5 ∧ h.due 5 = h'.now ∧ h.EventOk .tick)) = some true := by
    decide +kernel
  obtain ⟨h, hh, hafter⟩ := Option.bind_eq_some_iff.mp hrun
  obtain ⟨h', hh', hfacts⟩ := Option.map_eq_some_iff.mp hafter
  obtain ⟨hblocked, hdue, hok⟩ := of_decide_eq_true hfacts
  exact ⟨h, h', hh, hblocked, hh', hdue, deadlinesKept_of_allOk (by decide +kernel) hh hok hh'⟩

def pollAgainRun : List ClockEvent :=
  pollRun ++ [.tick, .tick, .tick, .tick, .sys (.kernel .schedule), .sys .pollRet,
    .sys (.kernel .syscallReturn)] ++ pollCall 1

/-- The event comes in time, but the thread is still marked. -/
theorem deadlinesKept_not_after_timeout :
    Runs.AllOk EventOk step (start (PollSys.oneFile 7)) pollAgainRun ∧
      ∃ h h', Runs.exec step (start (PollSys.oneFile 7)) (pollAgainRun ++
          [.sys (.fifoEvents 7 1#32 true 2), .sys (.kernel .schedule)]) = some h ∧
        h.step (.sys .pollRet) = some h' ∧ ¬ DeadlinesKept h (.sys .pollRet) h' := by
  have hrun : ((Runs.exec step (start (PollSys.oneFile 7)) (pollAgainRun ++
      [.sys (.fifoEvents 7 1#32 true 2), .sys (.kernel .schedule)])).bind fun h =>
        (h.step (.sys .pollRet)).map fun h' => decide (h.clock.running = 5 ∧ 5 ∈ h.clock.timeoutList ∧
          h.arrived 5 = true ∧ h'.clock.retval 5 = -1)) = some true := by
    decide +kernel
  obtain ⟨h, hh, hafter⟩ := Option.bind_eq_some_iff.mp hrun
  obtain ⟨h', hh', hfacts⟩ := Option.map_eq_some_iff.mp hafter
  obtain ⟨hrunning, htimed, harrived, hret⟩ := of_decide_eq_true hfacts
  refine ⟨by decide +kernel, h, h', hh, hh', fun hkept => ?_⟩
  have hzero := hkept.returns rfl (hrunning ▸ htimed)
  rw [hrunning, hret, harrived] at hzero
  cases hzero

end PollHistory

end Tenok
