import Tenok.Kernel.JoinRuns
import Tenok.Kernel.Stops

/-!
Runs in which threads stop, continue and wait for signals. `thread_suspend` leaves the thread on
its list and `thread_resume` makes any stopped thread ready, so a thread that waits when `SIGSTOP`
comes is no longer in its wait after `SIGCONT`; one that stops itself is ready as before.
-/
namespace Tenok
open Ring Queues

/-- What `handle_signal` has been called with for a thread. -/
structure SignalRecord where
  /-- What the thread did when it stopped, as long as it has not continued. -/
  situation : Option ThreadStatus := none
  /-- The set of the last `sigwait`, and the signals handled since, in their order. -/
  awaited : Option (List Signal × List Signal) := none
  /-- What `sigwait` has put into `*sig`. -/
  retSig : Option Signal := none

namespace SignalRecord

/-- `handle_signal` for the thread; the end of a `sigwait` comes before the stop. -/
def handle (r : SignalRecord) (thread : ThreadInfo) (signum : Signal) : SignalRecord where
  situation :=
    match signum with
    | .stop => some (r.situation.getD
        (if thread.waitForSignal ∧ signum ∈ thread.sigWaitSet then .ready else thread.status))
    | .cont => none
    | .usr1 | .usr2 | .poll | .kill => r.situation
  awaited := r.awaited.map fun (set, handled) => (set, handled ++ [signum])
  retSig :=
    if thread.waitForSignal ∧ signum ∈ thread.sigWaitSet then some signum else r.retSig

def await (r : SignalRecord) (set : List Signal) : SignalRecord :=
  { r with awaited := some (set, []), retSig := none }

theorem retSig_handle (r : SignalRecord) (thread : ThreadInfo) (signum : Signal) :
    (r.handle thread signum).retSig =
      if thread.waitForSignal ∧ signum ∈ thread.sigWaitSet then some signum else r.retSig := rfl

end SignalRecord

/-- The kernel and what is known of the signals of each thread. -/
structure StopSys where
  kernel : Kernel
  records : Tid → SignalRecord

namespace StopSys

def record (s : StopSys) (e : KernelEvent) (t : Tid) : SignalRecord :=
  if s.kernel.Alive t then
    match s.kernel.sent e t, s.kernel.awaits e t with
    | some sig, _ => (s.records t).handle (s.kernel.threads t) sig
    | none, some set => (s.records t).await set
    | none, none => s.records t
  else {}

def step (s : StopSys) (e : KernelEvent) : Option StopSys :=
  (s.kernel.step e).map fun kernel => { kernel, records := s.record e }

def start : StopSys where
  kernel := Kernel.schedStart
  records _ := {}

/-- The lists stay well formed; `SIGSTOP` only comes to the thread that executes and to stopped
threads. -/
def StopOk (s : StopSys) (e : KernelEvent) : Prop :=
  s.kernel.EventOk e ∧ s.kernel.TaskletOk e ∧ s.kernel.DaemonOk e

instance decidableStopOk (s : StopSys) (e : KernelEvent) : Decidable (s.StopOk e) :=
  inferInstanceAs (Decidable (_ ∧ _ ∧ _))

/-- A stopped thread stays stopped until `SIGCONT`, which takes it back to what it did and
changes nothing for others, and `sigwait` goes on until the first signal of its set is handled,
which it gives back. -/
structure Kept (s : StopSys) (t : Tid) : Prop where
  stopped : (s.records t).situation ≠ none → (s.kernel.threads t).status = .suspended
  continues : ∀ st k, (s.records t).situation = some st →
    s.kernel.handleSignal t .cont = some k →
      if st = .wait then (k.threads t).status = .wait
      else (k.threads t).status = .ready ∧ t ∈ k.members (.ready (k.threads t).priority)
  others : (s.records t).situation = none →
    ¬ ((s.kernel.threads t).waitForSignal ∧ .cont ∈ (s.kernel.threads t).sigWaitSet) →
      s.kernel.handleSignal t .cont = some s.kernel
  waits : ∀ set handled, (s.records t).awaited = some (set, handled) →
    (s.records t).retSig = handled.find? (· ∈ set) ∧
      ((s.records t).retSig = none →
        (s.kernel.threads t).status = .wait ∧ t ∈ s.kernel.members .suspend)

def SignalsKept (s : StopSys) : Prop := ∀ t, s.kernel.Alive t → s.Kept t

end StopSys

namespace Kernel
variable {k k' : Kernel} {A : Set Tid} {L : SchedList → List Tid} {t : Tid} {sig : Signal}
  {e : KernelEvent} {r : SignalRecord}

theorem stoppable_of_sent (hok : k.EventOk e) (hsent : k.sent e t = some .stop) :
    k.Stoppable t := by
  cases e with
  | call c =>
      cases c with
      | pthreadKill tid sig =>
          obtain ⟨⟨rfl, hreceives⟩, rfl⟩ := Option.ite_none_right_eq_some.mp hsent
          exact hok hreceives t (List.mem_singleton.mpr rfl)
      | kill pid sig =>
          obtain ⟨⟨hpid, hmem⟩, rfl⟩ := Option.ite_none_right_eq_some.mp hsent
          exact hok hpid t hmem
      | raise sig =>
          obtain ⟨hmem, rfl⟩ := Option.ite_none_right_eq_some.mp hsent
          cases htask : k.currentTaskInfo with
          | none => simp [currentThreads, htask] at hmem
          | some task =>
              rw [currentThreads_eq htask] at hmem
              exact hok task htask t hmem
      | _ => cases hsent
  | _ => cases hsent

structure Recorded (k : Kernel) (t : Tid) (r : SignalRecord) : Prop where
  stopped : (k.threads t).status = .suspended ↔ r.situation ≠ none
  situation : ∀ st ∈ r.situation, st = .running
  waits : ∀ set handled, r.awaited = some (set, handled) → (k.threads t).sigWaitSet = set ∧
    r.retSig = handled.find? (· ∈ set) ∧
      ((k.threads t).waitForSignal = true ↔ r.retSig = none)

namespace Recorded

theorem of_new (hst : (k.threads t).status ≠ .suspended) : Recorded k t {} where
  stopped := iff_of_false hst (by simp)
  situation := by simp
  waits := by simp

theorem undisturbed (hr : Recorded k t r) (hH : (k.threads t).status = .suspended → k.Stopped t)
    (h : Undisturbed t k k') : Recorded k' t r where
  stopped := ⟨fun hst => hr.stopped.mp (h.only hst), fun hne =>
    (h.stopped (hH (hr.stopped.mpr hne))).status⟩
  situation := hr.situation
  waits set handled hawaited := by
    rw [h.waitForSignal, h.sigWaitSet]
    exact hr.waits set handled hawaited

theorem await {set : List Signal} (hr : Recorded k t r)
    (hrun : (k.threads t).status = .running) (hst : (k'.threads t).status = .wait)
    (hwait : (k'.threads t).waitForSignal = true) (hset : (k'.threads t).sigWaitSet = set) :
    Recorded k' t (r.await set) := by
  have hnone : r.situation = none := by
    by_contra hne
    have hsus := hr.stopped.mpr hne
    rw [hrun] at hsus
    cases hsus
  refine ⟨iff_of_false (by simp [hst]) (by simp [SignalRecord.await, hnone]), ?_, ?_⟩
  · simp [SignalRecord.await, hnone]
  · intro set' handled hawaited
    obtain ⟨rfl, rfl⟩ : set = set' ∧ [] = handled := by
      simpa [SignalRecord.await] using hawaited
    exact ⟨hset, rfl, iff_of_true hwait rfl⟩

theorem situation_handle (hP : Parked k L) (hT : Threaded k A L) (hr : Recorded k t r)
    (hstop : sig = .stop → k.Stoppable t) :
    ∀ st ∈ (r.handle (k.threads t) sig).situation, st = .running := by
  intro st hst
  cases sig with
  | stop =>
      obtain rfl : _ = st := Option.some.inj hst
      cases hsit : r.situation with
      | some st => exact hr.situation st hsit
      | none =>
          obtain ⟨-, hrun⟩ | ⟨hsus, -⟩ := hstop rfl
          · simp [hP.not_waiting hT hrun, hrun]
          · exact absurd hsit (hr.stopped.mp hsus)
  | cont => cases hst
  | usr1 | usr2 | poll | kill => exact hr.situation st hst

theorem handled (hP : Parked k L) (hT : Threaded k A L) (hr : Recorded k t r)
    (hH : (k.threads t).status = .suspended → k.Stopped t)
    (hstop : sig = .stop → k.Stoppable t) (h : Handled t sig k k') :
    Recorded k' t (r.handle (k.threads t) sig) := by
  refine ⟨?_, situation_handle hP hT hr hstop, fun set handled hawaited => ?_⟩
  · have hother : sig ≠ .stop → sig ≠ .cont →
        ((k'.threads t).status = .suspended ↔ r.situation ≠ none) := by
      intro hnstop hncont
      obtain ⟨hstays, honly⟩ := h.other hnstop hncont
      exact ⟨fun hst => hr.stopped.mp (honly hst), fun hne =>
        (hstays (hH (hr.stopped.mpr hne))).status⟩
    cases sig with
    | stop => exact iff_of_true (h.stop rfl).status (by simp [SignalRecord.handle])
    | cont => exact iff_of_false (h.cont rfl) (by simp [SignalRecord.handle])
    | usr1 | usr2 | poll | kill => exact hother (by simp) (by simp)
  · obtain ⟨⟨set₀, handled₀⟩, hold, heq⟩ := Option.map_eq_some_iff.mp hawaited
    obtain ⟨rfl, rfl⟩ := Prod.mk.inj heq
    obtain ⟨hset, hret, hwait⟩ := hr.waits set₀ handled₀ hold
    rw [h.sigWaitSet, h.waitForSignal]
    have hends : (k.threads t).waitForSignal = true ∧ sig ∈ (k.threads t).sigWaitSet ↔
        r.retSig = none ∧ sig ∈ set₀ := by rw [hwait, hset]
    refine ⟨hset, ?_, ?_⟩
    · rw [List.find?_append, ← hret, SignalRecord.retSig_handle]
      by_cases hcase : r.retSig = none ∧ sig ∈ set₀
      · rw [if_pos (hends.mpr hcase)]
        simp [hcase]
      · rw [if_neg fun h => hcase (hends.mp h)]
        cases hold : r.retSig with
        | none => simpa [hold] using hcase
        | some sig' => rfl
    · rw [SignalRecord.retSig_handle]
      by_cases hcase : r.retSig = none ∧ sig ∈ set₀
      · rw [if_pos (hends.mpr hcase)]
        simp [hset, hcase.2]
      · rw [if_neg fun h => hcase (hends.mp h), Bool.and_eq_true, hwait, hset]
        refine ⟨fun h => h.1, fun hnone => ⟨hnone, ?_⟩⟩
        simpa [hnone] using hcase

end Recorded

end Kernel

namespace StopSys
variable {s s' : StopSys} {e : KernelEvent} {t : Tid}
open Kernel

def Inv (s : StopSys) : Prop :=
  (∃ L, Threaded s.kernel {t | s.kernel.Alive t} L ∧ Registered s.kernel ∧ Parked s.kernel L) ∧
    s.kernel.Halted ∧ ∀ t, s.kernel.Alive t → Recorded s.kernel t (s.records t)

theorem inv_start : Inv start := by
  have hst : ∀ t, start.kernel.Alive t → (start.kernel.threads t).status ≠ .suspended := by
    obtain ⟨L, hT, -⟩ := parked_schedStart
    have hall : ∀ t < threadMax, schedStart.Alive t → (schedStart.threads t).status ≠ .suspended := by
      decide +kernel
    exact fun t ht => hall t (hT.lt_max t ht) ht
  exact ⟨parked_schedStart, fun t ht hsus => absurd hsus (hst t ht), fun t ht =>
    Recorded.of_new (hst t ht)⟩

theorem Inv.step (hinv : Inv s) (hok : s.StopOk e) (hstep : s.step e = some s') : Inv s' := by
  obtain ⟨⟨L, hT, hR, hP⟩, hH, hrecords⟩ := hinv
  obtain ⟨heok, htasklet, hdaemon⟩ := hok
  obtain ⟨k', hk', rfl⟩ := Option.map_eq_some_iff.mp hstep
  obtain ⟨L', hT', hR', hparked⟩ := hP.step hT hR heok htasklet hk'
  have hthread : ∀ t, k'.Alive t → ((k'.threads t).status = .suspended → k'.Stopped t) ∧
      Recorded k' t (s.record e t) := by
    intro t ht'
    by_cases ht : s.kernel.Alive t
    · have hHt := hH t ht
      have hr := hrecords t ht
      simp only [record, if_pos ht]
      cases SignalStep.step hP hT hR hH heok hdaemon hk' ht ht' with
      | undisturbed hsent hawaits h =>
          rw [hsent, hawaits]
          exact ⟨h.halted hHt, hr.undisturbed hHt h⟩
      | handled sig hsent hawaits h =>
          rw [hsent, hawaits]
          refine ⟨h.halted hHt, hr.handled hP hT hHt (fun hsig => ?_) h⟩
          rw [hsig] at hsent
          exact stoppable_of_sent heok hsent
      | awaits set hsent hawaits hst hrun hwait hset =>
          rw [hsent, hawaits]
          refine ⟨fun hsus => ?_, hr.await hrun hst hwait hset⟩
          rw [hst] at hsus
          cases hsus
    · obtain ⟨-, hst⟩ := (born_of_step hk' ht').resolve_left ht
      simp only [record, if_neg ht]
      exact ⟨fun hsus => by simp [hst] at hsus, Recorded.of_new (by simp [hst])⟩
  exact ⟨⟨L', hT', hR', hparked.parked⟩, fun t ht => (hthread t ht).1, fun t ht => (hthread t ht).2⟩

theorem Inv.kept (hinv : Inv s) (ht : s.kernel.Alive t) : s.Kept t := by
  obtain ⟨⟨L, hT, hR, hP⟩, hH, hrecords⟩ := hinv
  have hr := hrecords t ht
  refine ⟨hr.stopped.mpr, fun st k hst hk => ?_, fun hnone hnot => ?_, fun set handled hawaited => ?_⟩
  · have hsus := hr.stopped.mpr (by simp [hst])
    obtain rfl := hr.situation st hst
    rw [Kernel.handleSignal, hP.endSigwait_suspended ht hsus] at hk
    obtain rfl := Option.some.inj hk
    obtain ⟨g, hg⟩ := (hT.linked_iff t).mpr ⟨ht, by simp [hsus]⟩
    have hT' := hT.makeReady hg
    rw [Kernel.threadResume, if_neg (not_not.mpr hsus), if_neg (by simp)]
    refine ⟨makeReady_status .., ?_⟩
    rw [hT'.members_eq (Threaded.ready_inUse _), hT.rings.mem_transfer]
    exact Or.inr ⟨rfl, by simp [Kernel.makeReady, setStatus, Kernel.setThread]⟩
  · have hst : (s.kernel.threads t).status ≠ .suspended := fun hsus => hr.stopped.mp hsus hnone
    have hsame : s.kernel.endSigwait t .cont = s.kernel := by rw [Kernel.endSigwait, if_neg hnot]
    simp only [Kernel.handleSignal, hsame, Kernel.threadResume, if_pos hst]
  · obtain ⟨-, hret, hwait⟩ := hr.waits set handled hawaited
    refine ⟨hret, fun hnone => ?_⟩
    obtain ⟨hmem, hst, -⟩ := hP.waiting t ht (hwait.mpr hnone)
    rw [hT.members_eq Threaded.suspend_inUse]
    exact ⟨hst, hmem⟩

/-- In every run in which only the thread that executes and stopped threads are stopped, and the
lists stay well formed, no signal is lost on a thread. -/
theorem signalsKept_of_stopOk {es : List KernelEvent} (hok : Runs.AllOk StopOk step start es)
    (hrun : Runs.exec step start es = some s) : s.SignalsKept := by
  have hinv : Inv s := Runs.exec_invariant (fun _ _ _ h hok hstep => Inv.step h hok hstep)
    inv_start hok hrun
  exact fun t ht => hinv.kept ht

/-- Init creates two tasks. The thread of the first, 5, stops itself; the one of the second, 6,
creates thread 4 and waits for `SIGUSR1`, which 4 sends to it. -/
def stoppedRun : List KernelEvent :=
  Kernel.bootRun.take 9 ++ [.call (.taskCreate 1 false true), .call (.taskCreate 1 false true),
    .threadReturn, .schedule,
    .syscallHandler, .call (.raise (some .stop)), .syscallReturn, .schedule,
    .syscallHandler, .call (.pthreadCreate none true), .syscallReturn,
    .syscallHandler, .call (.sigwait (some [.usr1])), .syscallReturn, .schedule,
    .syscallHandler, .call (.pthreadKill 6 (some .usr1))]

theorem signalsKept_of_stopOk_at_stop :
    ∃ s, Runs.exec step start stoppedRun = some s ∧ (s.records 5).situation = some .running ∧
      (s.records 6).retSig = some .usr1 ∧ s.SignalsKept := by
  have hrun : (Runs.exec step start stoppedRun).map (fun s =>
      ((s.records 5).situation, (s.records 6).retSig)) = some (some .running, some .usr1) := by
    decide +kernel
  obtain ⟨s, hs, hfacts⟩ := Option.map_eq_some_iff.mp hrun
  obtain ⟨hstopped, hret⟩ := Prod.mk.inj hfacts
  exact ⟨s, hs, hstopped, hret, signalsKept_of_stopOk (by decide +kernel) hs⟩

/-- A thread in `sigwait` is stopped and continued by another thread of its task. -/
def waitRun : List KernelEvent :=
  Kernel.bootRun ++ [.syscallHandler, .call (.pthreadCreate none true), .syscallReturn,
    .syscallHandler, .call (.sigwait (some [.usr1])), .syscallReturn, .schedule,
    .syscallHandler, .call (.pthreadKill 5 (some .stop)), .call (.pthreadKill 5 (some .cont))]

/-- The thread is ready, and nothing has been put into `*sig`. -/
theorem signalsKept_not_for_waiting :
    ∃ s, Runs.exec step start waitRun = some s ∧ s.kernel.Alive 5 ∧
      (s.kernel.threads 5).status = .ready ∧ (s.records 5).retSig = none ∧ ¬ s.SignalsKept := by
  have hrun : (Runs.exec step start waitRun).map (fun s => s.kernel.bitmapThreads 5 &&
      decide ((s.kernel.threads 5).status = .ready) && decide ((s.records 5).retSig = none) &&
      decide ((s.records 5).awaited = some ([.usr1], [.stop, .cont]))) = some true := by
    decide +kernel
  obtain ⟨s, hs, hfacts⟩ := Option.map_eq_some_iff.mp hrun
  simp only [Bool.and_eq_true, decide_eq_true_eq] at hfacts
  obtain ⟨⟨⟨halive, hst⟩, hret⟩, hawaited⟩ := hfacts
  refine ⟨s, hs, halive, hst, hret, fun hkept => ?_⟩
  obtain ⟨-, hwaits⟩ := (hkept 5 halive).waits _ _ hawaited
  have hwait := (hwaits hret).1
  rw [hst] at hwait
  cases hwait

end StopSys

end Tenok
