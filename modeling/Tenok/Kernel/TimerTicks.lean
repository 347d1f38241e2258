import Tenok.Kernel.TimerRuns

/-!
When timers expire. The length of a tick is a parameter: `OS_TICK_FREQ` is 4000 on the boards and
100 under QEMU.
-/
namespace Tenok

namespace TimerSys

def stepBy (tick : Int) (s : TimerSys) : TimerEvent → Option TimerSys
  | .kernel (.systemTicks expired) => (s.kernel.step (.systemTicks expired)).map fun k =>
      s.timersList.foldl (timerUpdateBy tick) { s with kernel := k }
  | e => s.step e

def sysTimerGettime (s : TimerSys) (timerid : Int) : Option (Except Errno Itimerspec) := do
  match ← s.acquireTimer timerid with
  | none => some (.error .einval)
  | some addr => some (.ok (s.timer addr).retTime)

theorem stepBy_nanosecondTicks : stepBy nanosecondTicks = step := by
  funext s e
  cases e with
  | kernel e =>
      cases e with
      | systemTicks expired => rfl
      | _ => rfl
  | _ => rfl

end TimerSys

/-- A time of `n` nanoseconds, normalised. -/
def Timespec.ofNanos (n : Nat) : Timespec := ⟨(n / 1000000000 : Nat), (n % 1000000000 : Nat)⟩

theorem ofNanos_eq_zero {n : Nat} : Timespec.ofNanos n = ⟨0, 0⟩ ↔ n = 0 := by
  rw [Timespec.ofNanos, Timespec.mk.injEq]
  omega

theorem timerDownCountBy_normal {tick nsec : Nat} (sec : Nat) (htick : tick ≤ 1000000000)
    (hnsec : nsec < 1000000000) : timerDownCountBy tick ⟨sec, nsec⟩ =
      .ofNanos (1000000000 * sec + nsec - tick) := by
  rw [timerDownCountBy, Timespec.ofNanos]
  dsimp only
  split
  · rw [Timespec.mk.injEq]
    omega
  · split
    · rw [Timespec.mk.injEq]
      omega
    · rw [Timespec.mk.injEq]
      omega

theorem timerDownCountBy_ofNanos {tick : Nat} (htick : tick ≤ 1000000000) (n : Nat) :
    timerDownCountBy tick (.ofNanos n) = .ofNanos (n - tick) := by
  have hcount := timerDownCountBy_normal (n / 1000000000) htick
    (Nat.mod_lt n (show 0 < 1000000000 by decide))
  rwa [Nat.div_add_mod] at hcount

namespace Timer

def next (tick : Nat) (timer : Timer) : Timer :=
  if timer.enabled = false then timer
  else
    let counter := timerDownCountBy tick timer.counter
    let timer := { timer with counter, retTime := { timer.retTime with itValue := counter } }
    if counter ≠ ⟨0, 0⟩ then timer
    else
      { timer with
        counter := timer.setting.itInterval
        enabled := decide (timer.setting.itInterval ≠ ⟨0, 0⟩) }

def notification (timer : Timer) : StagedHandler := ⟨timer.sev.sigevNotifyFunction, 0⟩

/-- The pass comes to the call of `enqueue_pending_signal`. -/
def queues (tick : Nat) (timer : Timer) : Bool :=
  timer.enabled && decide (timerDownCountBy tick timer.counter = ⟨0, 0⟩) &&
    decide (timer.sev.sigevNotify = sigevSignal)

theorem next_fixed (tick : Nat) (timer : Timer) : ∃ counter enabled retTime,
    timer.next tick = { timer with counter, enabled, retTime } := by
  simp only [next]
  split
  · exact ⟨_, _, _, rfl⟩
  · split
    · exact ⟨_, _, _, rfl⟩
    · exact ⟨_, _, _, rfl⟩

theorem next_thread (tick : Nat) (timer : Timer) : (timer.next tick).thread = timer.thread := by
  obtain ⟨counter, enabled, retTime, h⟩ := next_fixed tick timer
  rw [h]

theorem next_id (tick : Nat) (timer : Timer) : (timer.next tick).id = timer.id := by
  obtain ⟨counter, enabled, retTime, h⟩ := next_fixed tick timer
  rw [h]

theorem next_sev (tick : Nat) (timer : Timer) : (timer.next tick).sev = timer.sev := by
  obtain ⟨counter, enabled, retTime, h⟩ := next_fixed tick timer
  rw [h]

theorem next_setting (tick : Nat) (timer : Timer) : (timer.next tick).setting = timer.setting := by
  obtain ⟨counter, enabled, retTime, h⟩ := next_fixed tick timer
  rw [h]

end Timer

namespace TimerSys

theorem timerUpdateBy_eq (tick : Nat) (s : TimerSys) (addr : Nat) :
    s.timerUpdateBy tick addr =
      if (s.timer addr).queues tick then
        (s.setTimer addr fun timer => timer.next tick).enqueuePendingSignal (s.timer addr).thread
          (s.timer addr).notification
      else s.setTimer addr fun timer => timer.next tick := by
  have hzero : ∀ time : Timespec, (time.tvSec ≠ 0 ∨ time.tvNsec ≠ 0) ↔ time ≠ ⟨0, 0⟩ := by
    intro time
    rw [← not_and_or, not_iff_not]
    exact (Timespec.mk.injEq time.tvSec time.tvNsec 0 0).symm ▸ Iff.rfl
  by_cases henabled : (s.timer addr).enabled = false
  · have hsame : (s.setTimer addr fun timer => timer.next tick) = s := by
      simp [setTimer, Timer.next, henabled]
    rw [hsame]
    simp [timerUpdateBy, Timer.queues, henabled]
  · rw [Bool.not_eq_false] at henabled
    by_cases hcount : timerDownCountBy tick (s.timer addr).counter = ⟨0, 0⟩
    · by_cases hnotify : (s.timer addr).sev.sigevNotify = sigevSignal
      · simp [timerUpdateBy, Timer.notification, Timer.queues, hcount, hnotify, setTimer, Timer.next, henabled]
      · simp [timerUpdateBy, Timer.queues, hcount, hnotify, setTimer, Timer.next, henabled]
    · have hcount' := (hzero _).mpr hcount
      simp only [timerUpdateBy, Timer.queues, hcount, hcount', setTimer, Timer.next, henabled]
      simp [hcount]

end TimerSys

/-- The number of ticks of `tick` nanoseconds that it takes for `n` nanoseconds to pass. -/
def ticksFor (tick n : Nat) : Nat := (n + tick - 1) / tick

/-- How often a timer of `value` and `interval` nanoseconds has expired after `n` ticks. -/
def expiries (tick value interval n : Nat) : Nat :=
  if n < ticksFor tick value then 0
  else if interval = 0 then 1
  else 1 + (n - ticksFor tick value) / ticksFor tick interval

theorem lt_ticksFor {tick m n : Nat} (htick : 0 < tick) : n < ticksFor tick m ↔ n * tick < m := by
  rw [ticksFor, ← Nat.succ_le_iff, Nat.le_div_iff_mul_le htick, Nat.succ_mul]
  omega

theorem div_mod_succ {b : Nat} (hb : 0 < b) (x : Nat) :
    (x % b + 1 < b → (x + 1) / b = x / b ∧ (x + 1) % b = x % b + 1) ∧
      (b ≤ x % b + 1 → (x + 1) / b = x / b + 1 ∧ (x + 1) % b = 0) := by
  have hx := Nat.mod_add_div x b
  have hlt := Nat.mod_lt x hb
  constructor
  · intro hr
    rw [Nat.div_mod_unique hb]
    omega
  · intro hr
    rw [Nat.div_mod_unique hb, Nat.mul_succ]
    omega

theorem ticksFor_pos {tick m : Nat} (htick : 0 < tick) (hm : 0 < m) : 0 < ticksFor tick m := by
  rw [lt_ticksFor htick, Nat.zero_mul]
  exact hm

/-- A timer that has been set `n` ticks ago. -/
structure Timer.Scheduled (tick value interval n : Nat) (timer : Timer) : Prop where
  notify : timer.sev.sigevNotify = sigevSignal
  setting : timer.setting.itInterval = .ofNanos interval
  enabled : timer.enabled = decide (n < ticksFor tick value ∨ interval ≠ 0)
  waiting : n < ticksFor tick value → timer.counter = .ofNanos (value - n * tick)
  repeating : ticksFor tick value ≤ n → interval ≠ 0 → timer.counter =
    .ofNanos (interval - (n - ticksFor tick value) % ticksFor tick interval * tick)
  retTime : n ≤ ticksFor tick value → timer.retTime.itValue = .ofNanos (value - n * tick)

namespace Timer.Scheduled
variable {tick value interval n : Nat} {timer : Timer}

theorem next_counter (htick : tick ≤ 1000000000) {m : Nat} (henabled : timer.enabled = true)
    (hcounter : timer.counter = .ofNanos m) :
    timer.queues tick = (decide (m ≤ tick) && decide (timer.sev.sigevNotify = sigevSignal)) ∧
      (timer.next tick).retTime.itValue = .ofNanos (m - tick) ∧
      (tick < m → (timer.next tick).enabled = true ∧
        (timer.next tick).counter = .ofNanos (m - tick)) ∧
      (m ≤ tick → (timer.next tick).enabled = decide (timer.setting.itInterval ≠ ⟨0, 0⟩) ∧
        (timer.next tick).counter = timer.setting.itInterval) := by
  have hdown : timerDownCountBy tick timer.counter = .ofNanos (m - tick) := by
    rw [hcounter, timerDownCountBy_ofNanos htick]
  have hzero : Timespec.ofNanos (m - tick) = ⟨0, 0⟩ ↔ m ≤ tick := by
    rw [ofNanos_eq_zero]
    omega
  refine ⟨?_, ?_⟩
  · simp [Timer.queues, henabled, hdown, hzero]
  · by_cases hm : m ≤ tick
    · simp [Timer.next, henabled, hdown, ofNanos_eq_zero, hm]
    · simp [Timer.next, henabled, hdown, hzero, hm]

theorem next_notify (h : Scheduled tick value interval n timer) :
    (timer.next tick).sev.sigevNotify = sigevSignal := by
  rw [Timer.next_sev]
  exact h.notify

theorem next_interval (h : Scheduled tick value interval n timer) :
    (timer.next tick).setting.itInterval = .ofNanos interval := by
  rw [Timer.next_setting]
  exact h.setting

theorem next_waiting (h : Scheduled tick value interval n timer) (hpos : 0 < tick)
    (htick : tick ≤ 1000000000) (hn : n < ticksFor tick value) :
    Scheduled tick value interval (n + 1) (timer.next tick) ∧
      expiries tick value interval (n + 1) =
        expiries tick value interval n + (timer.queues tick).toNat := by
  have henabled : timer.enabled = true := by simp [h.enabled, hn]
  obtain ⟨hqueues, hret, hgoes, hends⟩ := next_counter htick henabled (h.waiting hn)
  have hvalue : n * tick < value := (lt_ticksFor hpos).mp hn
  have hmul : (n + 1) * tick = n * tick + tick := Nat.succ_mul ..
  have hsub : value - n * tick - tick = value - (n + 1) * tick := by omega
  have hlast : n + 1 < ticksFor tick value ↔ tick < value - n * tick := by
    rw [lt_ticksFor hpos]
    omega
  by_cases hnext : n + 1 < ticksFor tick value
  · obtain ⟨henabled', hcounter'⟩ := hgoes (hlast.mp hnext)
    have hsilent : timer.queues tick = false := by
      rw [hqueues, decide_eq_false (Nat.not_le.mpr (hlast.mp hnext)), Bool.false_and]
    refine ⟨⟨h.next_notify, h.next_interval, ?_, ?_, fun hle => absurd hnext (by omega), ?_⟩, ?_⟩
    · rw [henabled']
      simp [hnext]
    · intro _
      rw [hcounter', hsub]
    · intro _
      rw [hret, hsub]
    · rw [expiries, expiries, if_pos hnext, if_pos hn, hsilent]
      rfl
  · have hdone : value - n * tick ≤ tick := by omega
    obtain ⟨henabled', hcounter'⟩ := hends hdone
    have hqueued : timer.queues tick = true := by simp [hqueues, hdone, h.notify]
    have hlen : n + 1 = ticksFor tick value := by omega
    refine ⟨⟨h.next_notify, h.next_interval, ?_, fun hlt => absurd hlt hnext, ?_, ?_⟩, ?_⟩
    · rw [henabled', h.setting]
      simp [hnext, ofNanos_eq_zero]
    · intro _ _
      rw [hcounter', h.setting, hlen, Nat.sub_self, Nat.zero_mod, Nat.zero_mul, Nat.sub_zero]
    · intro _
      rw [hret, hsub]
    · rw [expiries, expiries, if_neg hnext, if_pos hn, hqueued, hlen, Nat.sub_self, Nat.zero_div]
      split
      · rfl
      · rfl

theorem next_expired (h : Scheduled tick value 0 n timer) (hn : ticksFor tick value ≤ n) :
    Scheduled tick value 0 (n + 1) (timer.next tick) ∧
      expiries tick value 0 (n + 1) = expiries tick value 0 n + (timer.queues tick).toNat := by
  have hn' : ¬ n < ticksFor tick value := by omega
  have hnext : ¬ n + 1 < ticksFor tick value := by omega
  have hdisabled : timer.enabled = false := by simp [h.enabled, hn']
  have hsame : timer.next tick = timer := by simp [Timer.next, hdisabled]
  have hsilent : timer.queues tick = false := by simp [Timer.queues, hdisabled]
  rw [hsame, hsilent]
  refine ⟨⟨h.notify, h.setting, ?_, fun hlt => absurd hlt hnext, fun _ hne => absurd rfl hne,
    fun hle => absurd hn (by omega)⟩, ?_⟩
  · simp [hdisabled, hnext]
  · rw [expiries, expiries, if_neg hn', if_neg hnext, if_pos rfl]
    rfl

theorem next_repeating (h : Scheduled tick value interval n timer) (hpos : 0 < tick)
    (htick : tick ≤ 1000000000) (hn : ticksFor tick value ≤ n) (hinterval : interval ≠ 0) :
    Scheduled tick value interval (n + 1) (timer.next tick) ∧
      expiries tick value interval (n + 1) =
        expiries tick value interval n + (timer.queues tick).toNat := by
  have hn' : ¬ n < ticksFor tick value := by omega
  have hnext : ¬ n + 1 < ticksFor tick value := by omega
  have henabled : timer.enabled = true := by simp [h.enabled, hinterval]
  have hperiod := ticksFor_pos hpos (Nat.pos_of_ne_zero hinterval)
  obtain ⟨hqueues, _, hgoes, hends⟩ := next_counter htick henabled (h.repeating hn hinterval)
  have hsub : n + 1 - ticksFor tick value = n - ticksFor tick value + 1 := by omega
  obtain ⟨hgo, hend⟩ := div_mod_succ hperiod (n - ticksFor tick value)
  have hexpiries : ∀ m, ¬ m < ticksFor tick value → expiries tick value interval m =
      1 + (m - ticksFor tick value) / ticksFor tick interval := by
    intro m hm
    rw [expiries, if_neg hm, if_neg hinterval]
  rw [hexpiries n hn', hexpiries (n + 1) hnext, hsub]
  generalize hr : (n - ticksFor tick value) % ticksFor tick interval = r at *
  have hmul : (r + 1) * tick = r * tick + tick := Nat.succ_mul ..
  have hlast : r + 1 < ticksFor tick interval ↔ tick < interval - r * tick := by
    rw [lt_ticksFor hpos]
    omega
  by_cases hstep : r + 1 < ticksFor tick interval
  · obtain ⟨henabled', hcounter'⟩ := hgoes (hlast.mp hstep)
    obtain ⟨hdiv, hmod⟩ := hgo hstep
    have hsilent : timer.queues tick = false := by
      rw [hqueues, decide_eq_false (Nat.not_le.mpr (hlast.mp hstep)), Bool.false_and]
    refine ⟨⟨h.next_notify, h.next_interval, ?_, fun hlt => absurd hlt hnext, ?_,
      fun hle => absurd hn (by omega)⟩, ?_⟩
    · simp [henabled', hinterval]
    · intro _ _
      rw [hcounter', hsub, hmod, hmul]
      exact congrArg _ (by omega)
    · rw [hdiv, hsilent]
      rfl
  · have hdone : interval - r * tick ≤ tick := by omega
    obtain ⟨henabled', hcounter'⟩ := hends hdone
    obtain ⟨hdiv, hmod⟩ := hend (by omega)
    have hqueued : timer.queues tick = true := by simp [hqueues, hdone, h.notify]
    refine ⟨⟨h.next_notify, h.next_interval, ?_, fun hlt => absurd hlt hnext, ?_,
      fun hle => absurd hn (by omega)⟩, ?_⟩
    · rw [henabled', h.setting]
      simp [hinterval, ofNanos_eq_zero]
    · intro _ _
      rw [hcounter', h.setting, hsub, hmod, Nat.zero_mul, Nat.sub_zero]
    · rw [hdiv, hqueued]
      rfl

theorem next (h : Scheduled tick value interval n timer) (hpos : 0 < tick)
    (htick : tick ≤ 1000000000) :
    Scheduled tick value interval (n + 1) (timer.next tick) ∧
      expiries tick value interval (n + 1) =
        expiries tick value interval n + (timer.queues tick).toNat := by
  obtain hn | hn := Nat.lt_or_ge n (ticksFor tick value)
  · exact h.next_waiting hpos htick hn
  · by_cases hinterval : interval = 0
    · subst hinterval
      exact h.next_expired hn
    · exact h.next_repeating hpos htick hn hinterval

end Timer.Scheduled

namespace TimerSys
variable {s s' : TimerSys} {tick addr timerid : Nat}

def SameOwn (i i' : SignalInfo) : Prop := i'.timerCnt = i.timerCnt ∧ i'.timersList = i.timersList

/-- The memory of the timers and their list do not change, nor what the threads have of their own,
but a new thread in the slot `slot` has no timers. -/
structure KeepsTimers (slot : Option Tid) (s s' : TimerSys) : Prop where
  timer : s'.timer = s.timer
  timersList : s'.timersList = s.timersList
  own : ∀ t, slot ≠ some t → SameOwn (s.info t) (s'.info t)
  zeroed : ∀ t, slot = some t → s'.info t = {}

namespace KeepsTimers

theorem refl (s : TimerSys) : KeepsTimers none s s :=
  ⟨rfl, rfl, fun _ _ => ⟨rfl, rfl⟩, fun _ h => by cases h⟩

theorem trans {s'' : TimerSys} (h : KeepsTimers none s s') (h' : KeepsTimers none s' s'') :
    KeepsTimers none s s'' := by
  refine ⟨h'.timer.trans h.timer, h'.timersList.trans h.timersList, fun t ht => ?_,
    fun _ ht => by cases ht⟩
  exact ⟨(h'.own t ht).1.trans (h.own t ht).1, (h'.own t ht).2.trans (h.own t ht).2⟩

theorem setInfo (s : TimerSys) (t : Tid) {f : SignalInfo → SignalInfo}
    (hf : ∀ i, SameOwn i (f i)) : KeepsTimers none s (s.setInfo t f) := by
  refine ⟨rfl, rfl, fun u _ => ?_, fun _ h => by cases h⟩
  by_cases hu : u = t
  · subst hu
    simpa only [TimerSys.setInfo, Function.update_self] using hf _
  · simp only [TimerSys.setInfo, Function.update_of_ne hu]
    exact ⟨rfl, rfl⟩

theorem checkPendingSignals (s : TimerSys) : KeepsTimers none s s.checkPendingSignals := by
  rw [TimerSys.checkPendingSignals]
  split
  · exact refl s
  · exact setInfo s _ fun _ => ⟨rfl, rfl⟩

theorem stageHandler (s : TimerSys) (t : Tid) (sig : Signal) :
    KeepsTimers none s (s.stageHandler t sig) := by
  rw [TimerSys.stageHandler]
  split
  · exact refl s
  · split
    · exact refl s
    · exact refl s
    · exact setInfo s _ fun _ => ⟨rfl, rfl⟩

theorem foldl {α : Type} {f : TimerSys → α → TimerSys} (hf : ∀ s a, KeepsTimers none s (f s a))
    (l : List α) : KeepsTimers none s (l.foldl f s) := by
  induction l generalizing s with
  | nil => exact refl s
  | cons a l ih => exact (hf s a).trans ih

theorem restarted (h : KeepsTimers none s s') (slot : Option Tid) :
    KeepsTimers slot s (slot.elim s' fun t => s'.setInfo t fun _ => {}) := by
  cases slot with
  | none => exact h
  | some t =>
      refine ⟨h.timer, h.timersList, fun u hu => ?_, fun u hu => ?_⟩
      · have hne : u ≠ t := fun heq => hu (congrArg some heq.symm)
        simp only [Option.elim_some, TimerSys.setInfo, Function.update_of_ne hne]
        exact h.own u (by simp)
      · obtain rfl := Option.some.inj hu
        simp only [Option.elim_some, TimerSys.setInfo, Function.update_self]

theorem afterKernel (s : TimerSys) (k : Kernel) {e : KernelEvent}
    (he : ∀ expired, e ≠ .systemTicks expired) :
    KeepsTimers (zeroedSlot s.kernel e) { s with kernel := k } (s.afterKernel k e) := by
  cases e with
  | systemTicks expired => exact absurd rfl (he expired)
  | schedule => exact checkPendingSignals _
  | _ =>
      simp only [TimerSys.afterKernel]
      exact restarted (foldl (fun s (p : Tid × Signal) => stageHandler s p.1 p.2) _) _

end KeepsTimers

theorem timer_timerUpdateBy (tick : Nat) (s : TimerSys) (a : Nat) :
    (s.timerUpdateBy tick a).timer = Function.update s.timer a ((s.timer a).next tick) ∧
      (s.timerUpdateBy tick a).timersList = s.timersList := by
  rw [timerUpdateBy_eq]
  split
  · exact ⟨rfl, rfl⟩
  · exact ⟨rfl, rfl⟩

theorem own_timerUpdateBy (tick : Nat) (s : TimerSys) (a : Nat) (t : Tid) :
    SameOwn (s.info t) ((s.timerUpdateBy tick a).info t) := by
  rw [timerUpdateBy_eq]
  split
  · simp only [enqueuePendingSignal, setInfo, setTimer]
    by_cases ht : t = (s.timer a).thread
    · subst ht
      rw [Function.update_self]
      exact ⟨rfl, rfl⟩
    · rw [Function.update_of_ne ht]
      exact ⟨rfl, rfl⟩
  · exact ⟨rfl, rfl⟩

theorem own_timersUpdateBy (tick : Nat) (s : TimerSys) (l : List Nat) (t : Tid) :
    SameOwn (s.info t) ((l.foldl (timerUpdateBy (tick : Int)) s).info t) := by
  induction l generalizing s with
  | nil => exact ⟨rfl, rfl⟩
  | cons a l ih =>
      have hpass := own_timerUpdateBy tick s a t
      have hrest := ih (s.timerUpdateBy tick a)
      exact ⟨hrest.1.trans hpass.1, hrest.2.trans hpass.2⟩

/-- Between two states a handler was put into the signal queue of a thread: the queue ends at another
place, and the handler is the last in it. -/
def Appends (s s' : TimerSys) (thread : Tid) (h : StagedHandler) : Prop :=
  (s'.info thread).signalQueueEnd ≠ (s.info thread).signalQueueEnd ∧
    (s'.info thread).signalQueue.getLast? = some h

instance decidableAppends (s s' : TimerSys) (thread : Tid) (h : StagedHandler) :
    Decidable (s.Appends s' thread h) := inferInstanceAs (Decidable (_ ∧ _))

theorem appends_enqueue (s : TimerSys) (thread : Tid) (h : StagedHandler) :
    s.Appends (s.enqueuePendingSignal thread h) thread h := by
  simp only [Appends, enqueuePendingSignal, setInfo, Function.update_self, List.getLast?_append,
    List.getLast?_singleton, Option.some_or, and_true]
  rw [RingBuffer.bump, signalQueueSize]
  split
  · omega
  · omega

/-- How often the passes of a tick put the notification of a timer into the signal queue of its
thread. -/
def queuedIn (tick : Nat) (addr : Nat) : TimerSys → List Nat → Nat
  | _, [] => 0
  | s, a :: l =>
      let s' := s.timerUpdateBy tick a
      (if a = addr ∧ s.Appends s' (s.timer a).thread (s.timer a).notification then 1 else 0) +
        queuedIn tick addr s' l

theorem appends_timerUpdateBy (tick : Nat) (s : TimerSys) (a : Nat) :
    s.Appends (s.timerUpdateBy tick a) (s.timer a).thread (s.timer a).notification ↔
      (s.timer a).queues tick = true := by
  rw [timerUpdateBy_eq]
  split
  · next hqueues => exact iff_of_true (appends_enqueue _ _ _) hqueues
  · next hqueues => exact iff_of_false (fun h => h.1 rfl) hqueues

theorem timersUpdateBy (tick addr : Nat) {l : List Nat} (hnodup : l.Nodup) (s : TimerSys) :
    (l.foldl (timerUpdateBy tick) s).timersList = s.timersList ∧
      (l.foldl (timerUpdateBy tick) s).timer addr =
        (if addr ∈ l then (s.timer addr).next tick else s.timer addr) ∧
      queuedIn tick addr s l = if addr ∈ l then ((s.timer addr).queues tick).toNat else 0 := by
  induction l generalizing s with
  | nil => exact ⟨rfl, rfl, rfl⟩
  | cons a l ih =>
      obtain ⟨ha, hl⟩ := List.nodup_cons.mp hnodup
      obtain ⟨hlist, htimer, hqueued⟩ := ih hl (s.timerUpdateBy tick a)
      obtain ⟨hpass, hpassList⟩ := timer_timerUpdateBy tick s a
      rw [List.foldl_cons, hlist, hpassList, htimer, queuedIn, hqueued, hpass]
      simp only [appends_timerUpdateBy]
      refine ⟨trivial, ?_, ?_⟩
      · by_cases haddr : addr = a
        · subst haddr
          rw [if_neg ha, if_pos List.mem_cons_self, Function.update_self]
        · rw [Function.update_of_ne haddr]
          simp [haddr]
      · by_cases haddr : addr = a
        · subst haddr
          rw [if_neg ha, if_pos List.mem_cons_self, Nat.add_zero]
          cases (s.timer addr).queues tick with
          | true => simp
          | false => simp
        · rw [Function.update_of_ne haddr]
          simp [haddr, Ne.symm haddr]

/-- The list of the timers of the running thread, as `timer_create` extends it. -/
def ownTimers (s : TimerSys) : List Nat :=
  if (s.info s.running).timerCnt = 0#16 then [] else (s.info s.running).timersList.getD []

/-- The timer that `timer_create` makes of a block. -/
def created (s : TimerSys) (sevp : Sigevent) (old : Timer) : Timer :=
  { old with id := (s.info s.running).timerCnt.toNat, sev := sevp, thread := s.running }

theorem sysTimerCreate_cases (s : TimerSys) (clockid : Int) (sevp : Sigevent)
    (memory : Option (Nat × Timer)) :
    (∃ errno, s.sysTimerCreate clockid sevp memory = (s, .error errno)) ∨
      ∃ a old, memory = some (a, old) ∧ s.sysTimerCreate clockid sevp memory =
        ({ s with
            timer := Function.update s.timer a (s.created sevp old)
            info := Function.update s.info s.running
              { s.info s.running with
                timerCnt := (s.info s.running).timerCnt + 1#16
                timersList := some (s.ownTimers ++ [a]) }
            timersList := s.timersList ++ [a] }, .ok (s.info s.running).timerCnt.toNat) := by
  simp only [sysTimerCreate]
  split
  · exact Or.inl ⟨_, rfl⟩
  · split
    · exact Or.inl ⟨_, rfl⟩
    · split
      · exact Or.inl ⟨_, rfl⟩
      · next a old => exact Or.inr ⟨a, old, rfl, rfl⟩

theorem sysTimerDelete_cases {id : Int} {r : TimerSys × Except Errno Unit}
    (h : s.sysTimerDelete id = some r) : r = (s, .error .einval) ∧ s.acquireTimer id = some none ∨
      ∃ a, s.acquireTimer id = some (some a) ∧ r = ({ s with
        info := Function.update s.info s.running
          { s.info s.running with
            timersList := (s.info s.running).timersList.map fun l => l.erase a }
        timersList := s.timersList.erase a }, .ok ()) := by
  simp only [sysTimerDelete, Option.bind_eq_bind, Option.bind_eq_some_iff] at h
  obtain ⟨found, hfound, h⟩ := h
  split at h
  · exact Or.inl ⟨(Option.some.inj h).symm, hfound⟩
  · next a => exact Or.inr ⟨a, hfound, (Option.some.inj h).symm⟩

theorem sysTimerSettime_cases {id : Int} {value : Itimerspec}
    {r : TimerSys × Except Errno Itimerspec} (h : s.sysTimerSettime id value = some r) :
    r = (s, .error .einval) ∨ ∃ a, s.acquireTimer id = some (some a) ∧
      r = (s.setTimer a fun timer => { timer with
        setting := value, retTime := value, counter := value.itValue, enabled := true },
        .ok (s.timer a).setting) := by
  simp only [sysTimerSettime] at h
  split at h
  · exact Or.inl (Option.some.inj h).symm
  · split at h
    · exact Or.inl (Option.some.inj h).symm
    · simp only [Option.bind_eq_bind, Option.bind_eq_some_iff] at h
      obtain ⟨found, hfound, h⟩ := h
      split at h
      · exact Or.inl (Option.some.inj h).symm
      · next a => exact Or.inr ⟨a, hfound, (Option.some.inj h).symm⟩

def isTick : TimerEvent → Bool
  | .kernel (.systemTicks _) => true
  | _ => false

/-- The event does not set or delete the timer. -/
def Leaves (addr : Nat) (s : TimerSys) : TimerEvent → Prop
  | .timerDelete id => s.acquireTimer id ≠ some (some addr)
  | .timerSettime id value => ∀ s' old, s.sysTimerSettime id value = some (s', .ok old) →
      s.acquireTimer id ≠ some (some addr)
  | _ => True

theorem stepBy_of_not_tick {e : TimerEvent} (he : isTick e = false) : stepBy tick s e = s.step e := by
  cases e with
  | kernel e =>
      cases e with
      | systemTicks expired => cases he
      | _ => rfl
  | _ => rfl

def newSlot (s : TimerSys) : TimerEvent → Option Tid
  | .kernel e => zeroedSlot s.kernel e
  | _ => none

theorem step_cases {e : TimerEvent} (he : isTick e = false) (hstep : s.step e = some s') :
    KeepsTimers (s.newSlot e) s s' ∨
      (∃ clockid sevp memory, e = .timerCreate clockid sevp memory ∧
        (∀ m ∈ memory, m.1 ∉ s.timersList) ∧ s' = (s.sysTimerCreate clockid sevp memory).1) ∨
      (∃ id r, e = .timerDelete id ∧ s.sysTimerDelete id = some r ∧ s' = r.1) ∨
      ∃ id value r, e = .timerSettime id value ∧ s.sysTimerSettime id value = some r ∧ s' = r.1 := by
  cases e with
  | kernel e =>
      obtain ⟨k, _, rfl⟩ := Option.map_eq_some_iff.mp hstep
      refine Or.inl ?_
      have hkept := KeepsTimers.afterKernel s k (e := e) fun expired heq => by
        subst heq
        cases he
      exact ⟨hkept.timer, hkept.timersList, hkept.own, hkept.zeroed⟩
  | handlerReturn =>
      simp only [TimerSys.step, Option.ite_none_right_eq_some, Option.some.injEq] at hstep
      exact Or.inl (hstep.2 ▸ KeepsTimers.setInfo s _ fun _ => ⟨rfl, rfl⟩)
  | timerCreate clockid sevp memory =>
      simp only [TimerSys.step, call, Option.ite_none_right_eq_some, Option.some.injEq] at hstep
      obtain ⟨_, hfresh, rfl⟩ := hstep
      exact Or.inr (Or.inl ⟨_, _, _, rfl, hfresh, rfl⟩)
  | timerDelete id =>
      simp only [TimerSys.step, call, Option.ite_none_right_eq_some, Option.map_eq_some_iff] at hstep
      obtain ⟨_, r, hr, rfl⟩ := hstep
      exact Or.inr (Or.inr (Or.inl ⟨_, r, rfl, hr, rfl⟩))
  | timerSettime id value =>
      simp only [TimerSys.step, call, Option.ite_none_right_eq_some, Option.map_eq_some_iff] at hstep
      obtain ⟨_, r, hr, rfl⟩ := hstep
      exact Or.inr (Or.inr (Or.inr ⟨_, _, r, rfl, hr, rfl⟩))
  | sigaction signum handler memory =>
      simp only [TimerSys.step, call, Option.ite_none_right_eq_some, Option.some.injEq] at hstep
      obtain ⟨_, rfl⟩ := hstep
      refine Or.inl ?_
      simp only [sysSigaction]
      split
      · exact .refl s
      · split
        · exact .refl s
        · dsimp only
          exact .setInfo s _ fun _ => ⟨rfl, rfl⟩
  | once =>
      simp only [TimerSys.step, call, Option.ite_none_right_eq_some, Option.some.injEq] at hstep
      exact Or.inl (hstep.2 ▸ KeepsTimers.setInfo s _ fun _ => ⟨rfl, rfl⟩)

theorem isTick_eq_true {e : TimerEvent} (he : isTick e = true) :
    ∃ expired, e = .kernel (.systemTicks expired) := by
  cases e with
  | kernel e =>
      cases e with
      | systemTicks expired => exact ⟨expired, rfl⟩
      | _ => cases he
  | _ => cases he

/-- A timer is once on the list of timers, and those on the list of a thread are timers of the
thread. -/
structure Owned (s : TimerSys) : Prop where
  nodup : s.timersList.Nodup
  lists : ∀ t l, (s.info t).timersList = some l →
    l.Nodup ∧ ∀ a ∈ l, a ∈ s.timersList ∧ (s.timer a).thread = t

namespace Owned

theorem keeps {slot : Option Tid} (h : s.Owned) (hkept : KeepsTimers slot s s') : s'.Owned := by
  refine ⟨?_, fun t l hl => ?_⟩
  · rw [hkept.timersList]
    exact h.nodup
  · by_cases ht : slot = some t
    · rw [hkept.zeroed t ht] at hl
      cases hl
    · rw [(hkept.own t ht).2] at hl
      rw [hkept.timer, hkept.timersList]
      exact h.lists t l hl

theorem ticked (h : s.Owned) (k : Kernel) :
    Owned (s.timersList.foldl (timerUpdateBy tick) { s with kernel := k }) := by
  refine ⟨?_, fun t l hl => ?_⟩
  · rw [(timersUpdateBy tick 0 h.nodup { s with kernel := k }).1]
    exact h.nodup
  · rw [(own_timersUpdateBy tick _ _ t).2] at hl
    obtain ⟨hnodup, hown⟩ := h.lists t l hl
    refine ⟨hnodup, fun a ha => ?_⟩
    obtain ⟨hlist, htimer, _⟩ := timersUpdateBy tick a h.nodup
      { s with kernel := k }
    obtain ⟨hmem, hthread⟩ := hown a ha
    rw [hlist, htimer, if_pos hmem, Timer.next_thread]
    exact ⟨hmem, hthread⟩

theorem timerCreate (h : s.Owned) (clockid : Int) (sevp : Sigevent) {memory : Option (Nat × Timer)}
    (hfresh : ∀ m ∈ memory, m.1 ∉ s.timersList) :
    (s.sysTimerCreate clockid sevp memory).1.Owned := by
  obtain ⟨errno, heq⟩ | ⟨a, old, hmem, heq⟩ := sysTimerCreate_cases s clockid sevp memory
  · rw [heq]
    exact h
  · rw [heq]
    have ha : a ∉ s.timersList := hfresh (a, old) (by simp [hmem])
    have hown : s.ownTimers.Nodup ∧ ∀ b ∈ s.ownTimers, b ∈ s.timersList ∧
        (s.timer b).thread = s.running := by
      rw [ownTimers]
      split
      · simp
      · cases hl : (s.info s.running).timersList with
        | none => simp
        | some l => exact h.lists s.running l hl
    have hnotin : ∀ {l : List Nat}, a ∉ l → l.Nodup → (l ++ [a]).Nodup := fun ha hl =>
      List.Nodup.append hl (List.nodup_singleton a) (by simpa using ha)
    refine ⟨hnotin ha h.nodup, fun t l hl => ?_⟩
    by_cases ht : t = s.running
    · subst ht
      simp only [Function.update_self, Option.some.injEq] at hl
      subst hl
      refine ⟨hnotin (fun hmem => ha (hown.2 a hmem).1) hown.1, fun b hb => ?_⟩
      by_cases hba : b = a
      · subst hba
        simp [created]
      · have hb' : b ∈ s.ownTimers := by simpa [hba] using hb
        dsimp only
        rw [Function.update_of_ne hba]
        exact ⟨List.mem_append_left _ (hown.2 b hb').1, (hown.2 b hb').2⟩
    · simp only [Function.update_of_ne ht] at hl
      obtain ⟨hnodup, hlist⟩ := h.lists t l hl
      refine ⟨hnodup, fun b hb => ?_⟩
      have hba : b ≠ a := fun hba => ha (hba ▸ (hlist b hb).1)
      dsimp only
      rw [Function.update_of_ne hba]
      exact ⟨List.mem_append_left _ (hlist b hb).1, (hlist b hb).2⟩

theorem timerDelete (h : s.Owned) {id : Int} {r : TimerSys × Except Errno Unit}
    (hr : s.sysTimerDelete id = some r) : r.1.Owned := by
  obtain ⟨rfl, _⟩ | ⟨a, hacquire, rfl⟩ := sysTimerDelete_cases hr
  · exact h
  · obtain ⟨own, hlist, hfind⟩ := Option.map_eq_some_iff.mp hacquire
    have ha : a ∈ own := List.mem_of_find?_eq_some hfind
    obtain ⟨hown, hmine⟩ := h.lists _ own hlist
    refine ⟨h.nodup.erase a, fun t l hl => ?_⟩
    by_cases ht : t = s.running
    · subst ht
      simp only [Function.update_self, hlist, Option.map_some, Option.some.injEq] at hl
      subst hl
      refine ⟨hown.erase a, fun b hb => ?_⟩
      obtain ⟨hba, hb⟩ := hown.mem_erase_iff.mp hb
      exact ⟨(List.mem_erase_of_ne hba).mpr (hmine b hb).1, (hmine b hb).2⟩
    · simp only [Function.update_of_ne ht] at hl
      obtain ⟨hnodup, hother⟩ := h.lists t l hl
      refine ⟨hnodup, fun b hb => ?_⟩
      obtain ⟨hmem, hthread⟩ := hother b hb
      have hba : b ≠ a := fun hba => ht (hthread.symm.trans (hba ▸ (hmine a ha).2))
      exact ⟨(List.mem_erase_of_ne hba).mpr hmem, hthread⟩

theorem timerSettime (h : s.Owned) {id : Int} {value : Itimerspec}
    {r : TimerSys × Except Errno Itimerspec} (hr : s.sysTimerSettime id value = some r) :
    r.1.Owned := by
  obtain rfl | ⟨a, _, rfl⟩ := sysTimerSettime_cases hr
  · exact h
  · refine ⟨h.nodup, fun t l hl => ?_⟩
    obtain ⟨hnodup, hlist⟩ := h.lists t l hl
    refine ⟨hnodup, fun b hb => ⟨(hlist b hb).1, ?_⟩⟩
    by_cases hba : b = a
    · subst hba
      simpa [setTimer] using (hlist b hb).2
    · simpa [setTimer, hba] using (hlist b hb).2

theorem step {e : TimerEvent} (h : s.Owned) (hstep : stepBy tick s e = some s') : s'.Owned := by
  cases he : isTick e with
  | true =>
      obtain ⟨expired, rfl⟩ := isTick_eq_true he
      obtain ⟨k, _, rfl⟩ := Option.map_eq_some_iff.mp hstep
      exact h.ticked k
  | false =>
      rw [stepBy_of_not_tick he] at hstep
      obtain hkept | ⟨clockid, sevp, memory, _, hfresh, rfl⟩ | ⟨id, r, _, hr, rfl⟩ |
        ⟨id, value, r, _, hr, rfl⟩ := step_cases he hstep
      · exact h.keeps hkept
      · exact h.timerCreate _ _ hfresh
      · exact h.timerDelete hr
      · exact h.timerSettime hr

theorem start : TimerSys.start.Owned := ⟨List.nodup_nil, fun t l hl => by cases hl⟩

theorem mem_of_acquireTimer (h : s.Owned) {id : Int} (ha : s.acquireTimer id = some (some addr)) :
    addr ∈ s.timersList := by
  obtain ⟨own, hlist, hfind⟩ := Option.map_eq_some_iff.mp ha
  exact ((h.lists _ own hlist).2 addr (List.mem_of_find?_eq_some hfind)).1

end Owned

theorem leaves_step {e : TimerEvent} (hmem : addr ∈ s.timersList) (hleaves : s.Leaves addr e)
    (he : isTick e = false) (hstep : s.step e = some s') :
    addr ∈ s'.timersList ∧ s'.timer addr = s.timer addr := by
  obtain hkept | ⟨clockid, sevp, memory, _, hfresh, rfl⟩ | ⟨id, r, rfl, hr, rfl⟩ |
    ⟨id, value, r, rfl, hr, rfl⟩ := step_cases he hstep
  · rw [hkept.timersList, hkept.timer]
    exact ⟨hmem, rfl⟩
  · obtain ⟨errno, heq⟩ | ⟨a, old, hmemory, heq⟩ := sysTimerCreate_cases s clockid sevp memory
    · rw [heq]
      exact ⟨hmem, rfl⟩
    · rw [heq]
      have hne : addr ≠ a := fun h => hfresh (a, old) (by simp [hmemory]) (h ▸ hmem)
      exact ⟨List.mem_append_left _ hmem, Function.update_of_ne hne ..⟩
  · obtain ⟨rfl, _⟩ | ⟨a, ha, rfl⟩ := sysTimerDelete_cases hr
    · exact ⟨hmem, rfl⟩
    · have hne : addr ≠ a := fun h => hleaves (h ▸ ha)
      exact ⟨(List.mem_erase_of_ne hne).mpr hmem, rfl⟩
  · obtain rfl | ⟨a, ha, rfl⟩ := sysTimerSettime_cases hr
    · exact ⟨hmem, rfl⟩
    · have hne : addr ≠ a := fun h => hleaves _ _ hr (h ▸ ha)
      exact ⟨hmem, Function.update_of_ne hne ..⟩

def queuedAt (tick : Nat) (addr : Nat) (s : TimerSys) : TimerEvent → Nat
  | .kernel (.systemTicks expired) => (s.kernel.step (.systemTicks expired)).elim 0 fun k =>
      queuedIn tick addr { s with kernel := k } s.timersList
  | _ => 0

theorem queuedAt_of_not_tick {e : TimerEvent} (he : isTick e = false) :
    queuedAt tick addr s e = 0 := by
  cases e with
  | kernel e =>
      cases e with
      | systemTicks expired => cases he
      | _ => rfl
  | _ => rfl

/-- How often the notification of a timer is queued in a run. -/
def queued (tick : Nat) (addr : Nat) : TimerSys → List TimerEvent → Nat
  | _, [] => 0
  | s, e :: es => queuedAt tick addr s e +
      (stepBy tick s e).elim 0 fun s' => queued tick addr s' es

/-- The timer is on the list and has been set `n` ticks ago. -/
structure Armed (tick value interval addr n : Nat) (s : TimerSys) : Prop where
  owned : s.Owned
  mem : addr ∈ s.timersList
  scheduled : Timer.Scheduled tick value interval n (s.timer addr)

namespace Armed
variable {value interval n : Nat}

theorem step {e : TimerEvent} (h : Armed tick value interval addr n s) (hpos : 0 < tick)
    (htick : tick ≤ 1000000000) (hleaves : s.Leaves addr e) (hstep : stepBy tick s e = some s') :
    Armed tick value interval addr (n + (isTick e).toNat) s' ∧
      expiries tick value interval (n + (isTick e).toNat) =
        expiries tick value interval n + queuedAt tick addr s e := by
  have howned := h.owned.step hstep
  cases he : isTick e with
  | true =>
      obtain ⟨expired, rfl⟩ := isTick_eq_true he
      obtain ⟨k, hk, rfl⟩ := Option.map_eq_some_iff.mp hstep
      obtain ⟨hlist, htimer, hqueued⟩ := timersUpdateBy tick addr h.owned.nodup
        { s with kernel := k }
      obtain ⟨hnext, hexpiries⟩ := h.scheduled.next hpos htick
      rw [if_pos h.mem] at htimer hqueued
      refine ⟨⟨howned, ?_, ?_⟩, ?_⟩
      · rw [hlist]
        exact h.mem
      · rw [htimer]
        exact hnext
      · rw [queuedAt, hk, Option.elim_some, hqueued]
        exact hexpiries
  | false =>
      rw [stepBy_of_not_tick he] at hstep
      obtain ⟨hmem, htimer⟩ := leaves_step h.mem hleaves he hstep
      refine ⟨⟨howned, hmem, ?_⟩, ?_⟩
      · rw [htimer]
        exact h.scheduled
      · rw [queuedAt_of_not_tick he]
        rfl

theorem run {es : List TimerEvent} (h : Armed tick value interval addr n s) (hpos : 0 < tick)
    (htick : tick ≤ 1000000000) (hleaves : Runs.AllOk (Leaves addr) (stepBy tick) s es)
    (hrun : Runs.exec (stepBy tick) s es = some s') :
    Armed tick value interval addr (n + es.countP isTick) s' ∧
      expiries tick value interval (n + es.countP isTick) =
        expiries tick value interval n + queued tick addr s es := by
  induction es generalizing s n with
  | nil =>
      obtain rfl := Option.some.inj hrun
      exact ⟨h, rfl⟩
  | cons e es ih =>
      obtain ⟨t, hstep, hrest⟩ := Option.bind_eq_some_iff.mp hrun
      obtain ⟨harmed, hexpiries⟩ := h.step hpos htick hleaves.1 hstep
      obtain ⟨hdone, hall⟩ := ih harmed (hleaves.2 t hstep) hrest
      have hcount : n + (e :: es).countP isTick = n + (isTick e).toNat + es.countP isTick := by
        rw [List.countP_cons]
        cases isTick e with
        | true => simp; omega
        | false => simp
      rw [hcount]
      refine ⟨hdone, ?_⟩
      rw [hall, hexpiries, queued, hstep, Option.elim_some, Nat.add_assoc]

end Armed

theorem armed_of_settime {value interval : Nat} {id : Int} (hpos : 0 < tick) (hvalue : 0 < value)
    (howned : s.Owned) (hnotify : (s.timer addr).sev.sigevNotify = sigevSignal)
    (hacquire : s.acquireTimer id = some (some addr)) {old : Itimerspec}
    (hset : s.sysTimerSettime id ⟨.ofNanos value, .ofNanos interval⟩ = some (s', .ok old)) :
    Armed tick value interval addr 0 s' := by
  obtain heq | ⟨a, ha, heq⟩ := sysTimerSettime_cases hset
  · cases (Prod.mk.inj heq).2
  · obtain rfl : addr = a := Option.some.inj (Option.some.inj (hacquire.symm.trans ha))
    obtain ⟨rfl, _⟩ := Prod.mk.inj heq
    have hfirst := ticksFor_pos hpos hvalue
    refine ⟨howned.timerSettime hset, howned.mem_of_acquireTimer hacquire, ?_⟩
    simp only [setTimer, Function.update_self]
    refine ⟨hnotify, rfl, ?_, ?_, fun hle => absurd hfirst (by omega), ?_⟩
    · simp [hfirst]
    · intro _
      rw [Nat.zero_mul, Nat.sub_zero]
    · intro _
      rw [Nat.zero_mul, Nat.sub_zero]

/-- A timer that was created with `SIGEV_SIGNAL` and has been set queues its notification in the ticks
in which its times have passed, whatever the other timers and the threads do, and up to the first
expiry `timer_gettime` gives the time that is left. -/
theorem timer_schedule (tick value interval : Nat) (hpos : 0 < tick) (htick : tick ≤ 1000000000)
    (hvalue : 0 < value) (es₀ : List TimerEvent) (s₀ s₁ s : TimerSys)
    (hstart : Runs.exec (stepBy tick) start es₀ = some s₀) (id : Int) (addr : Nat)
    (hacquire : s₀.acquireTimer id = some (some addr))
    (hnotify : (s₀.timer addr).sev.sigevNotify = sigevSignal) (old : Itimerspec)
    (hset : s₀.sysTimerSettime id ⟨.ofNanos value, .ofNanos interval⟩ = some (s₁, .ok old))
    (es : List TimerEvent) (hleaves : Runs.AllOk (Leaves addr) (stepBy tick) s₁ es)
    (hrun : Runs.exec (stepBy tick) s₁ es = some s) :
    queued tick addr s₁ es = expiries tick value interval (es.countP isTick) ∧
      (es.countP isTick ≤ ticksFor tick value → ∀ id', s.acquireTimer id' = some (some addr) →
        ∃ r, s.sysTimerGettime id' = some (.ok r) ∧
          r.itValue = .ofNanos (value - es.countP isTick * tick)) := by
  have howned : s₀.Owned := Runs.exec_keeps (fun _ _ _ h hstep => Owned.step h hstep)
    Owned.start hstart
  have harmed : Armed tick value interval addr 0 s₁ :=
    armed_of_settime hpos hvalue howned hnotify hacquire hset
  obtain ⟨hdone, hqueued⟩ := harmed.run hpos htick hleaves hrun
  have hnone : expiries tick value interval 0 = 0 := by
    rw [expiries, if_pos (ticksFor_pos hpos hvalue)]
  rw [Nat.zero_add] at hdone hqueued
  rw [hnone, Nat.zero_add] at hqueued
  refine ⟨hqueued.symm, fun hle id' hfound => ⟨(s.timer addr).retTime, ?_, ?_⟩⟩
  · simp [sysTimerGettime, hfound]
  · exact hdone.scheduled.retTime hle

/-- On a board, a timer of 600 and then 500 microseconds: it expires in the third and in the fifth
tick. -/
theorem timer_schedule_at_run : ∃ s₀ s₁ s old,
    Runs.exec (stepBy 250000) start (Kernel.userRun.map .kernel ++ [.kernel .syscallHandler,
      .timerCreate clockMonotonic ⟨sigevSignal, 100⟩ (some (0, start.timer 0))]) = some s₀ ∧
    s₀.sysTimerSettime 0 ⟨.ofNanos 600000, .ofNanos 500000⟩ = some (s₁, .ok old) ∧
    Runs.exec (stepBy 250000) s₁
      (List.replicate 5 (.kernel (.systemTicks fun _ => false))) = some s ∧
    queued 250000 0 s₁ (List.replicate 5 (.kernel (.systemTicks fun _ => false))) = 2 := by
  have hrun : ((Runs.exec (stepBy 250000) start (Kernel.userRun.map .kernel ++
      [.kernel .syscallHandler, .timerCreate clockMonotonic ⟨sigevSignal, 100⟩
        (some (0, start.timer 0))])).bind fun s₀ =>
      (s₀.sysTimerSettime 0 ⟨.ofNanos 600000, .ofNanos 500000⟩).bind fun r =>
        (Runs.exec (stepBy 250000) r.1
          (List.replicate 5 (.kernel (.systemTicks fun _ => false)))).map fun _ =>
            ((s₀.acquireTimer 0, (s₀.timer 0).sev.sigevNotify), r.2.toBool)) =
      some ((some (some 0), sigevSignal), true) := by decide +kernel
  obtain ⟨s₀, hs₀, hrun⟩ := Option.bind_eq_some_iff.mp hrun
  obtain ⟨⟨s₁, retval⟩, hset, hrun⟩ := Option.bind_eq_some_iff.mp hrun
  obtain ⟨s, hs, hfacts⟩ := Option.map_eq_some_iff.mp hrun
  obtain ⟨hfound, hok⟩ := Prod.mk.inj hfacts
  obtain ⟨hacquire, hnotify⟩ := Prod.mk.inj hfound
  cases retval with
  | error e => cases hok
  | ok old =>
      have hleaves : ∀ e ∈ List.replicate 5 (TimerEvent.kernel (.systemTicks fun _ => false)),
          ∀ s, Leaves 0 s e := by
        intro e he s
        rw [List.eq_of_mem_replicate he]
        trivial
      refine ⟨s₀, s₁, s, old, hs₀, hset, hs, ?_⟩
      exact (timer_schedule 250000 600000 500000 (by decide) (by decide) (by decide) _ s₀ s₁ s hs₀ 0 0
        hacquire hnotify old hset _ (Runs.allOk_of_forall hleaves) hs).1

end TimerSys

end Tenok
