import Tenok.Common.Util
import Tenok.Kernel.Steady

/-!
The daemons that sleep while there is nothing to do: `softirqd` and `printkd`. Their loops
look whether a list is empty and queue themselves in two steps, and who adds to the list
wakes whom it finds in the queue. Steps of interrupts and of other threads come between.
-/
namespace Tenok
open Ring Queues Kernel

inductive DaemonPhase
  /-- Before it looks at the list. -/
  | test
  /-- The list was not empty. -/
  | take
  /-- At what it took, step by step. -/
  | work (n : Nat)
  /-- The list was empty: before `prepare_to_wait`. -/
  | sleep
  /-- Before `schedule`. -/
  | sched
  deriving DecidableEq

def DaemonPhase.working : DaemonPhase → Bool
  | .work _ => true
  | _ => false

/-- What else happens in the kernel: the running thread waits for something else, or the
threads that do so are woken. -/
inductive Surroundings
  | background (b : Background)
  | wait (queue : WaitQueue)
  | wakeUpAll (queue : WaitQueue)

/-- The code of a daemon, whose data are of type `σ` and get new entries from a `π`. -/
structure DaemonCode (σ π : Type) where
  tid : Tid
  queue : WaitQueue
  isEmpty : σ → Bool
  /-- The first entry is taken off the list. -/
  take : σ → Option σ
  /-- What the daemon does with the entry. -/
  work : List (σ → σ)
  produce : σ → π → Option σ
  /-- Whether the daemon is woken after that, and how. -/
  wakes : σ → Bool
  wake : Kernel → Option Kernel

structure DaemonSys (σ : Type) where
  kernel : Kernel
  phase : DaemonPhase
  data : σ

inductive DaemonEvent (π : Type)
  | produce (p : π)
  | run
  | around (e : Surroundings)

namespace DaemonCode
variable {σ π : Type} (c : DaemonCode σ π)

/-- The next step of the loop on its data, but for the two steps of `prepare_to_wait` and
`schedule`. -/
def next (data : σ) : DaemonPhase → Option (DaemonPhase × σ)
  | .test => some (if c.isEmpty data then .sleep else .take, data)
  | .take => (c.take data).map fun data => (.work 0, data)
  | .work n => c.work[n]?.map fun f =>
      (if n + 1 < c.work.length then .work (n + 1) else .test, f data)
  | .sleep | .sched => none

/-- The daemon goes on. After `prepare_to_wait` it is not `running` any more, and
`schedule` comes back when it is woken. -/
def run (s : DaemonSys σ) : Option (DaemonSys σ) :=
  match s.phase with
  | .sched => s.kernel.schedule.map fun kernel => { s with kernel, phase := .test }
  | .sleep =>
      if s.kernel.Unqueued then
        let kernel := s.kernel.prepareToWait (.wait c.queue) s.kernel.runningThread .wait
        some { s with kernel, phase := .sched }
      else none
  | phase =>
      if s.kernel.Unqueued then
        (c.next s.data phase).map fun (phase, data) => { s with phase, data }
      else none

def free (k : Kernel) : Bool := decide (k.runningThread ≠ c.tid)

/-- Another queue than that of the daemon, and not one in the memory of a thread. -/
def Other (queue : WaitQueue) : Prop :=
  queue ≠ c.queue ∧ (SchedList.wait queue).owner = none

instance decidableOther (queue : WaitQueue) : Decidable (c.Other queue) :=
  inferInstanceAs (Decidable (_ ∧ _))

/-- While it is at work the daemon can be blocked elsewhere. -/
def around (s : DaemonSys σ) : Surroundings → Option Kernel
  | .background b => s.kernel.background (c.free s.kernel) b
  | .wait queue =>
      if s.kernel.Unqueued ∧ (c.free s.kernel || s.phase.working) = true ∧ c.Other queue then
        some (s.kernel.prepareToWait (.wait queue) s.kernel.runningThread .wait)
      else none
  | .wakeUpAll queue => if c.Other queue then s.kernel.wakeUpAll (.wait queue) else none

def step (s : DaemonSys σ) : DaemonEvent π → Option (DaemonSys σ)
  | .produce p => (c.produce s.data p).bind fun data =>
      (if c.wakes data then c.wake s.kernel else some s.kernel).map fun kernel =>
        { s with kernel, data }
  | .run => if s.kernel.runningThread = c.tid then c.run s else none
  | .around e => (c.around s e).map fun kernel => { s with kernel }

/-- The daemon is in its queue and has not got the CPU. -/
def Blocked (s : DaemonSys σ) : Prop :=
  c.tid ∈ s.kernel.members (.wait c.queue) ∧ s.kernel.runningThread ≠ c.tid

instance decidableBlocked (s : DaemonSys σ) : Decidable (c.Blocked s) :=
  inferInstanceAs (Decidable (_ ∧ _))

/-- The daemon is at the head of its loop, perhaps in its queue because there was nothing
to do. -/
structure Started (s : DaemonSys σ) : Prop where
  settled : Settled s.kernel
  alive : s.kernel.Alive c.tid
  awake : (s.kernel.threads c.tid).sleepTicks = 0#32
  phase : s.phase = .test
  empty : c.tid ∈ s.kernel.members (.wait c.queue) → c.isEmpty s.data = true

/-- What is added comes neither between the test and `prepare_to_wait` nor where the
wake-up is lost. -/
def ProduceOk (wakeOk : Kernel → Prop) (s : DaemonSys σ) : DaemonEvent π → Prop
  | .produce _ => s.phase ≠ .sleep ∧ wakeOk s.kernel
  | .run | .around _ => True

instance decidableProduceOk {wakeOk : Kernel → Prop} [∀ k, Decidable (wakeOk k)]
    (s : DaemonSys σ) : (e : DaemonEvent π) → Decidable (ProduceOk wakeOk s e)
  | .produce _ => inferInstanceAs (Decidable (_ ∧ _))
  | .run | .around _ => inferInstanceAs (Decidable True)

/-- What the proof needs of the code of a daemon: `Holds` says what is true of the data at
each place of the loop, and a wake-up takes the daemon off its queue. -/
structure Lawful (wakeOk : Kernel → Prop) (Holds : DaemonPhase → σ → Prop) : Prop where
  owner : (SchedList.wait c.queue).owner = none
  next : ∀ {ph ph' d d'}, Holds ph d → c.next d ph = some (ph', d') → Holds ph' d'
  sched : ∀ {d}, Holds .sleep d → Holds .sched d
  test : ∀ {d}, Holds .sched d → Holds .test d
  produce : ∀ {ph d d' p}, Holds ph d → c.produce d p = some d' → Holds ph d'
  wakes : ∀ {ph d}, Holds ph d → ph = .sched ∨ ph = .test → c.wakes d = true
  wake : ∀ {k k' L}, Steady k L → k.Alive c.tid → (k.threads c.tid).sleepTicks = 0#32 →
    wakeOk k → c.wake k = some k' → ∃ L', Steady k' L' ∧ k'.bitmapThreads = k.bitmapThreads ∧
      (k'.threads c.tid).sleepTicks = 0#32 ∧ c.tid ∉ L' (.wait c.queue)

/-- A daemon in its queue is before or after `schedule` and its list is empty. -/
structure Sound (Holds : DaemonPhase → σ → Prop) (s : DaemonSys σ) (L : SchedList → List Tid) :
    Prop where
  steady : Steady s.kernel L
  alive : s.kernel.Alive c.tid
  awake : (s.kernel.threads c.tid).sleepTicks = 0#32
  place : c.tid ∈ L (.wait c.queue) → s.phase = .sched ∨ s.phase = .test
  empty : c.tid ∈ L (.wait c.queue) ∨ s.phase = .sleep → c.isEmpty s.data = true
  holds : Holds s.phase s.data

variable {c : DaemonCode σ π} {wakeOk : Kernel → Prop} {Holds : DaemonPhase → σ → Prop}
  {s s' : DaemonSys σ} {L : SchedList → List Tid}

theorem next_sleep {d d' : σ} {ph ph' : DaemonPhase} (h : c.next d ph = some (ph', d'))
    (hsleep : ph' = .sleep) : c.isEmpty d' = true := by
  subst hsleep
  cases ph with
  | test =>
      obtain ⟨hphase, rfl⟩ : (if c.isEmpty d then DaemonPhase.sleep else .take) = .sleep ∧ d = d' := by
        simpa [next] using h
      by_contra hne
      simp [hne] at hphase
  | take => simp [next] at h
  | work n =>
      simp only [next, Option.map_eq_some_iff, Prod.mk.injEq] at h
      obtain ⟨f, -, hphase, -⟩ := h
      split at hphase <;> cases hphase
  | sleep | sched => cases h

theorem run_next {ph : DaemonPhase} (hph : s.phase = ph) (hsleep : ph ≠ .sleep) (hsched : ph ≠ .sched)
    (hrun : c.run s = some s') : s.kernel.Unqueued ∧ s'.kernel = s.kernel ∧
      c.next s.data ph = some (s'.phase, s'.data) := by
  subst hph
  have hgo : (if s.kernel.Unqueued then
      (c.next s.data s.phase).map fun (phase, data) => { s with phase, data } else none) = some s' := by
    rw [← hrun, run]
    cases hph : s.phase <;> simp_all
  split at hgo
  · next hst =>
      obtain ⟨⟨phase, data⟩, hnext, rfl⟩ := Option.map_eq_some_iff.mp hgo
      exact ⟨hst, rfl, hnext⟩
  · cases hgo

namespace Sound

theorem run (hc : c.Lawful wakeOk Holds) (hs : c.Sound Holds s L)
    (htid : s.kernel.runningThread = c.tid) (hrun : c.run s = some s') :
    ∃ L', c.Sound Holds s' L' := by
  cases hph : s.phase with
  | sched =>
      obtain ⟨k', hsched, rfl⟩ : ∃ k', s.kernel.schedule = some k' ∧
          { s with kernel := k', phase := .test } = s' := by
        simpa [DaemonCode.run, hph] using hrun
      obtain ⟨L', hK, -⟩ := hs.steady.schedule hsched
      have hqueue := hK.queues c.queue (by simp)
      have hsound : c.tid ∈ L' (.wait c.queue) → c.isEmpty s.data = true := fun hmem =>
        hs.empty (Or.inl (hqueue ▸ hmem))
      refine ⟨L', hK.steady, ?_, ?_, fun _ => Or.inr rfl, fun h => hsound (h.resolve_right (by simp)),
        hc.test (hph ▸ hs.holds)⟩
      · exact (congrFun hK.bitmap c.tid).trans hs.alive
      · exact hs.steady.background_awake
          (show s.kernel.background false .schedule = some k' from hsched) (by simp) hs.awake
  | sleep =>
      obtain ⟨hst, rfl⟩ : s.kernel.Unqueued ∧ _ = s' := by
        simpa [DaemonCode.run, hph] using hrun
      have hK := hs.steady.prepareToWait (h := .wait c.queue) (Q := {c.queue}) hst hc.owner
        (by simp; tauto)
      refine ⟨_, hK.steady, (congrFun hK.bitmap c.tid).trans hs.alive,
        (prepareToWait_awake ..).trans hs.awake, fun _ => Or.inl rfl, fun _ => hs.empty (Or.inr hph),
        hc.sched (hph ▸ hs.holds)⟩
  | test | take | work n =>
      obtain ⟨hst, hkernel, hnext⟩ := run_next hph (by simp) (by simp) hrun
      have hfree : c.tid ∉ L (.wait c.queue) := htid ▸ hs.steady.threaded.notMem_of_running hst _
      exact ⟨L, hkernel ▸ hs.steady, hkernel ▸ hs.alive, hkernel ▸ hs.awake,
        fun h => absurd h hfree, fun h => next_sleep hnext (h.resolve_left hfree),
        hc.next (hph ▸ hs.holds) hnext⟩

theorem frame {k' : Kernel} {L' : SchedList → List Tid} (hs : c.Sound Holds s L)
    (hS : Steady k' L') (hqueue : L' (.wait c.queue) = L (.wait c.queue))
    (hbitmap : k'.bitmapThreads = s.kernel.bitmapThreads)
    (hz : (k'.threads c.tid).sleepTicks = 0#32) : c.Sound Holds { s with kernel := k' } L' where
  steady := hS
  alive := (congrFun hbitmap c.tid).trans hs.alive
  awake := hz
  place h := hs.place (hqueue ▸ h)
  empty h := hs.empty (hqueue ▸ h)
  holds := hs.holds

theorem around {e : Surroundings} {k' : Kernel} (hs : c.Sound Holds s L)
    (hstep : c.around s e = some k') : ∃ L', c.Sound Holds { s with kernel := k' } L' := by
  cases e with
  | background b =>
      obtain ⟨L', hK⟩ := hs.steady.background hstep
      refine ⟨L', hs.frame hK.steady (hK.queues _ (by simp)) hK.bitmap ?_⟩
      exact hs.steady.background_awake hstep (fun h => (of_decide_eq_true h).symm) hs.awake
  | wait queue =>
      obtain ⟨⟨hst, -, hother⟩, rfl⟩ : (s.kernel.Unqueued ∧
          (c.free s.kernel || s.phase.working) = true ∧ c.Other queue) ∧ _ = k' := by
        simpa [DaemonCode.around] using hstep
      have hK := hs.steady.prepareToWait (h := .wait queue) (Q := {queue}) hst hother.2
        (by simp; tauto)
      exact ⟨_, hs.frame hK.steady (hK.queues _ hother.1.symm) hK.bitmap
        ((prepareToWait_awake ..).trans hs.awake)⟩
  | wakeUpAll queue =>
      obtain ⟨hother, hwake⟩ : c.Other queue ∧ s.kernel.wakeUpAll (.wait queue) = some k' := by
        simpa [DaemonCode.around] using hstep
      obtain ⟨L', hK, hz, -⟩ := hs.steady.wakeUpAll hother.2 hwake
      exact ⟨L', hs.frame hK.steady (hK.queues _ hother.1.symm) hK.bitmap ((hz c.tid).trans hs.awake)⟩

theorem produce {p : π} (hc : c.Lawful wakeOk Holds) (hs : c.Sound Holds s L)
    (hok : ProduceOk wakeOk s (.produce p)) (hstep : c.step s (.produce p) = some s') :
    ∃ L', c.Sound Holds s' L' := by
  simp only [DaemonCode.step, Option.bind_eq_some_iff, Option.map_eq_some_iff] at hstep
  obtain ⟨data, hproduce, k', hwake, rfl⟩ := hstep
  have hholds := hc.produce hs.holds hproduce
  obtain ⟨hphase, hwakeOk⟩ := hok
  have hdone : ∀ {k' L'}, Steady k' L' → k'.bitmapThreads = s.kernel.bitmapThreads →
      (k'.threads c.tid).sleepTicks = 0#32 → c.tid ∉ L' (.wait c.queue) →
      c.Sound Holds { s with kernel := k', data } L' := fun hS hbitmap hz hfree =>
    ⟨hS, (congrFun hbitmap c.tid).trans hs.alive, hz, fun h => absurd h hfree,
      fun h => absurd h (not_or.mpr ⟨hfree, hphase⟩), hholds⟩
  split at hwake
  · obtain ⟨L', hS, hbitmap, hz, hfree⟩ := hc.wake hs.steady hs.alive hs.awake hwakeOk hwake
    exact ⟨L', hdone hS hbitmap hz hfree⟩
  · next hsilent =>
      obtain rfl := Option.some.inj hwake
      exact ⟨L, hdone hs.steady rfl hs.awake fun hmem =>
        hsilent (hc.wakes hholds (hs.place hmem))⟩

theorem step {e : DaemonEvent π} (hc : c.Lawful wakeOk Holds) (hs : ∃ L, c.Sound Holds s L)
    (hok : ProduceOk wakeOk s e) (hstep : c.step s e = some s') : ∃ L, c.Sound Holds s' L := by
  obtain ⟨L, hs⟩ := hs
  cases e with
  | produce p => exact hs.produce hc hok hstep
  | run =>
      obtain ⟨htid, hrun⟩ : s.kernel.runningThread = c.tid ∧ c.run s = some s' := by
        simpa [DaemonCode.step] using hstep
      exact hs.run hc htid hrun
  | around e =>
      obtain ⟨k', hk, rfl⟩ := Option.map_eq_some_iff.mp hstep
      exact hs.around hk

end Sound

theorem isEmpty_of_blocked {es : List (DaemonEvent π)} (hc : c.Lawful wakeOk Holds)
    (hstart : c.Started s) (hholds : Holds .test s.data)
    (hok : Runs.AllOk (ProduceOk wakeOk) c.step s es) (hrun : Runs.exec c.step s es = some s')
    (hblocked : c.Blocked s') : c.isEmpty s'.data = true := by
  obtain ⟨L₀, hS₀⟩ := hstart.settled.steady
  have hin : ∀ {k : Kernel}, SchedList.wait c.queue ∈ inUse {t | k.Alive t} := by
    simp [inUse, hc.owner]
  have hs₀ : c.Sound Holds s L₀ :=
    { steady := hS₀
      alive := hstart.alive
      awake := hstart.awake
      place := fun _ => Or.inr hstart.phase
      empty := fun h => hstart.empty <| by
        rw [hS₀.threaded.members_eq hin]
        exact h.resolve_right (by simp [hstart.phase])
      holds := hstart.phase ▸ hholds }
  obtain ⟨L, hs⟩ := Runs.exec_invariant (I := fun s => ∃ L, c.Sound Holds s L)
    (fun _ _ _ hs hok hstep => Sound.step hc hs hok hstep) ⟨L₀, hs₀⟩ hok hrun
  rw [Blocked, hs.steady.threaded.members_eq hin] at hblocked
  exact hs.empty (Or.inl hblocked.1)

end DaemonCode

/-- The data of `softirqd`: `tasklet_list` and the nodes of the tasklets. -/
abbrev Tasklets := Cells (Unit ⊕ Nat)

/-- `list_entry(ptr, struct tasklet_struct, list)`. -/
def taskletEntry : Unit ⊕ Nat → Option Nat
  | .inr t => some t
  | .inl _ => none

/-- `tasklet_schedule` and the loop of `softirqd`. What a tasklet does is not the daemon's:
it is a step of its own, in which others happen. -/
def softirqd (tid : Tid) : DaemonCode Tasklets Nat where
  tid
  queue := .driver 0
  isEmpty links := listEmpty links (.inl ())
  take links := (taskletEntry (Ring.next links (.inl ()))).map fun t => listDel links (Sum.inr t)
  work := [id]
  produce links t := some (listMove links (Sum.inr t) (Sum.inl ()))
  wakes _ := true
  wake k := k.taskletSchedule tid

/-- If `softirqd` is in its queue, it has given up the CPU. -/
def TaskletWakes (tid : Tid) (k : Kernel) : Prop :=
  tid ∈ k.members (.wait (.driver 0)) → k.runningThread ≠ tid

instance decidableTaskletWakes (tid : Tid) (k : Kernel) : Decidable (TaskletWakes tid k) :=
  inferInstanceAs (Decidable (_ → _))

inductive PrintkList
  | free
  | wait
  deriving DecidableEq

structure PrintkData where
  size : Nat
  data : Nat → Byte

def printkQueueSize : Nat := 20

structure Printk where
  links : Cells (PrintkList ⊕ Nat)
  printkBuf : Nat → PrintkData
  isWriting : Bool
  /-- The buffer `printkd` has taken. -/
  entry : Option Nat

namespace Printk

/-- The lists at the end of `printkd_init`: all buffers are free. -/
def printkdInit (links : Cells (PrintkList ⊕ Nat)) : Cells (PrintkList ⊕ Nat) :=
  (List.range printkQueueSize).foldl
    (fun links i => listAdd links (Sum.inr i) (Sum.inl PrintkList.free))
    (initListHead (initListHead links (Sum.inl PrintkList.wait)) (Sum.inl PrintkList.free))

def listEntry : PrintkList ⊕ Nat → Option Nat
  | .inr i => some i
  | .inl _ => none

def firstEntry (p : Printk) (list : PrintkList) : Option Nat :=
  listEntry (Ring.next p.links (.inl list))

/-- The buffer for the next message and the lists with it. With no free one it is that of
the oldest message, which is lost. -/
def nextEntry (p : Printk) : Option (Nat × Cells (PrintkList ⊕ Nat)) :=
  if listEmpty p.links (.inl .free) then
    (p.firstEntry .wait).map fun entry =>
      (entry, listAdd (listDel p.links (Sum.inr entry)) (Sum.inr entry) (Sum.inl .wait))
  else
    (p.firstEntry .free).map fun entry =>
      (entry, listMove p.links (Sum.inr entry) (Sum.inl .wait))

def consoleWrite (p : Printk) (msg : List Byte) : Option Printk :=
  p.nextEntry.map fun (entry, links) =>
    let data := memcpy (p.printkBuf entry).data 0 (fun i => msg.getD i 0#8) msg.length
    { p with links, printkBuf := Function.update p.printkBuf entry ⟨msg.length, data⟩ }

def pop (p : Printk) : Option Printk := do
  let entry ← p.firstEntry .wait
  some { p with links := listDel p.links (Sum.inr entry), entry }

def release (p : Printk) : Printk :=
  match p.entry with
  | some entry => { p with links := listAdd p.links (Sum.inr entry) (Sum.inl .free) }
  | none => p

end Printk

/-- `console_write` and the loop of `printkd`, with `stdout` ready. -/
def printkd (tid : Tid) : DaemonCode Printk (List Byte) where
  tid
  queue := .driver 1
  isEmpty p := listEmpty p.links (.inl .wait)
  take := Printk.pop
  work := [fun p => { p with isWriting := true }, fun p => { p with isWriting := false },
    Printk.release]
  produce := Printk.consoleWrite
  wakes p := !p.isWriting
  wake k := k.wakeUpAll (.wait (.driver 1))

theorem softirqd_lawful (tid : Tid) :
    (softirqd tid).Lawful (TaskletWakes tid) (fun _ _ => True) where
  owner := rfl
  next _ _ := trivial
  sched _ := trivial
  test _ := trivial
  produce _ _ := trivial
  wakes _ _ := rfl
  wake {k k' L} hS halive hz hok hwake := by
    change k.Alive tid at halive
    change (k.threads tid).sleepTicks = 0#32 at hz
    obtain ⟨thread, hfound, rfl⟩ := Option.map_eq_some_iff.mp hwake
    obtain ⟨-, rfl⟩ := acquireThread_eq_some.mp hfound
    by_cases hrun : tid = k.runningThread
    · rw [Kernel.finishWait, if_neg (not_not.mpr hrun)]
      refine ⟨L, hS, rfl, hz, fun hmem => hok ?_ hrun.symm⟩
      rw [hS.threaded.members_eq (by simp [inUse, SchedList.owner])]
      exact hmem
    · obtain ⟨h, hmem⟩ := hS.threaded.exists_mem halive hrun
      rw [Kernel.finishWait, if_pos hrun]
      refine ⟨_, hS.makeReady hmem hz, rfl, ?_, fun hmem' => ?_⟩
      · exact (congrArg _ ((Wakes.makeReady hS.threaded hmem (Set.mem_univ h)).info tid)).trans hz
      · obtain ⟨hne, -⟩ | ⟨-, hq⟩ := hS.threaded.rings.mem_transfer.mp hmem'
        · exact hne rfl
        · cases hq

/-- The flag is set only while `printkd` writes. -/
def WritingAt (phase : DaemonPhase) (p : Printk) : Prop := p.isWriting = true → phase = .work 1

theorem consoleWrite_isWriting {p p' : Printk} {msg : List Byte}
    (h : p.consoleWrite msg = some p') : p'.isWriting = p.isWriting := by
  obtain ⟨⟨entry, links⟩, -, rfl⟩ := Option.map_eq_some_iff.mp h
  rfl

theorem release_isWriting (p : Printk) : p.release.isWriting = p.isWriting := by
  rw [Printk.release]
  split <;> rfl

theorem printkd_lawful (tid : Tid) : (printkd tid).Lawful (fun _ => True) WritingAt where
  owner := rfl
  next {ph ph' p p'} hholds hnext := by
    cases ph with
    | test =>
        obtain ⟨-, rfl⟩ : _ = ph' ∧ p = p' := by simpa [DaemonCode.next] using hnext
        exact fun hw => by cases hholds hw
    | take =>
        obtain ⟨p₁, hpop, heq⟩ := Option.map_eq_some_iff.mp hnext
        obtain ⟨-, rfl⟩ := Prod.mk.inj heq
        obtain ⟨entry, -, hp₁⟩ := Option.bind_eq_some_iff.mp hpop
        obtain rfl := Option.some.inj hp₁
        exact fun hw => by cases hholds hw
    | work n =>
        match n with
        | 0 =>
            obtain ⟨rfl, -⟩ := Prod.mk.inj (Option.some.inj hnext)
            exact fun _ => rfl
        | 1 =>
            obtain ⟨-, rfl⟩ := Prod.mk.inj (Option.some.inj hnext)
            exact fun hw => by cases hw
        | 2 =>
            obtain ⟨-, rfl⟩ := Prod.mk.inj (Option.some.inj hnext)
            exact fun hw => by cases hholds (release_isWriting p ▸ hw)
        | n + 3 => cases hnext
    | sleep | sched => cases hnext
  sched h hw := by cases h hw
  test h hw := by cases h hw
  produce hholds hproduce hw := hholds (consoleWrite_isWriting hproduce ▸ hw)
  wakes {ph p} hholds hph := by
    by_contra hw
    have := hholds (by simpa [printkd] using hw)
    rcases hph with rfl | rfl <;> cases this
  wake {k k' L} hS halive hz hok hwake := by
    obtain ⟨L', hK, hticks, hempty⟩ := hS.wakeUpAll rfl hwake
    exact ⟨L', hK.steady, hK.bitmap, (hticks tid).trans hz, by simp [printkd, hempty]⟩

/-- In every run from the head of the loop in which nothing is added between the test and
`prepare_to_wait`, nor to `tasklet_list` while `softirqd` is in its queue and has the CPU, a
daemon that is blocked has an empty list. -/
theorem isEmpty_of_produceOk (tid : Tid) :
    (∀ s es s', (softirqd tid).Started s →
      Runs.AllOk (DaemonCode.ProduceOk (TaskletWakes tid)) (softirqd tid).step s es →
      Runs.exec (softirqd tid).step s es = some s' →
      (softirqd tid).Blocked s' → (softirqd tid).isEmpty s'.data = true) ∧
    (∀ s es s', (printkd tid).Started s → s.data.isWriting = false →
      Runs.AllOk (DaemonCode.ProduceOk fun _ => True) (printkd tid).step s es →
      Runs.exec (printkd tid).step s es = some s' →
      (printkd tid).Blocked s' → (printkd tid).isEmpty s'.data = true) := by
  refine ⟨fun s es s' hstart hok hrun => ?_, fun s es s' hstart hidle hok hrun => ?_⟩
  · exact DaemonCode.isEmpty_of_blocked (softirqd_lawful tid) hstart trivial hok hrun
  · refine DaemonCode.isEmpty_of_blocked (printkd_lawful tid) hstart (fun hw => ?_) hok hrun
    cases hidle.symm.trans hw

def softirqdOn (kernel : Kernel) : DaemonSys Tasklets where
  kernel
  phase := .test
  data := initListHead ⟨fun _ => .inl (), fun _ => .inl ()⟩ (Sum.inl ())

theorem softirqdOn_started {k : Kernel} {tid : Tid} (hk : Settled k) (halive : k.Alive tid)
    (hz : (k.threads tid).sleepTicks = 0#32) : (softirqd tid).Started (softirqdOn k) := by
  have hring := initListHead_isRing (⟨fun _ => .inl (), fun _ => .inl ()⟩ : Tasklets) (Sum.inl ())
  exact ⟨hk, halive, hz, rfl, fun _ => (listEmpty_iff hring).mpr rfl⟩

def printkdOn (kernel : Kernel) : DaemonSys Printk where
  kernel
  phase := .test
  data :=
    { links := Printk.printkdInit ⟨fun _ => .inl .free, fun _ => .inl .free⟩
      printkBuf := fun _ => ⟨0, fun _ => 0#8⟩
      isWriting := false
      entry := none }

theorem printkdOn_started {k : Kernel} {tid : Tid} (hk : Settled k) (halive : k.Alive tid)
    (hz : (k.threads tid).sleepTicks = 0#32) : (printkd tid).Started (printkdOn k) := by
  have hempty : listEmpty (Printk.printkdInit ⟨fun _ => .inl .free, fun _ => .inl .free⟩)
      (.inl .wait) = true := by decide +kernel
  exact ⟨hk, halive, hz, rfl, fun _ => hempty⟩

theorem softirqd_started : (softirqd 1).Started (softirqdOn userKernel) :=
  softirqdOn_started userKernel_settled (by decide +kernel) (by decide +kernel)

theorem printkd_started : (printkd 3).Started (printkdOn userKernel) :=
  printkdOn_started userKernel_settled (by decide +kernel) (by decide +kernel)

/-- An interrupt schedules a tasklet, which `softirqd` executes. -/
def taskletRun : List (DaemonEvent Nat) :=
  [.produce 0, .around (.background .schedule), .run, .run, .run, .run, .run, .run]

def messageRun : List (DaemonEvent (List Byte)) :=
  [.produce [1#8], .around (.background .schedule), .run, .run, .run, .run, .run, .run, .run, .run]

/-- Both daemons are blocked after these runs. -/
theorem isEmpty_of_produceOk_at_runs :
    (∃ s, Runs.exec (softirqd 1).step (softirqdOn userKernel) taskletRun = some s ∧
      (softirqd 1).Blocked s ∧ (softirqd 1).isEmpty s.data = true) ∧
    ∃ s, Runs.exec (printkd 3).step (printkdOn userKernel) messageRun = some s ∧
      (printkd 3).Blocked s ∧ (printkd 3).isEmpty s.data = true := by
  have htasklet : (Runs.exec (softirqd 1).step (softirqdOn userKernel) taskletRun).map
      (fun s => decide ((softirqd 1).Blocked s)) = some true := by decide +kernel
  have hmessage : (Runs.exec (printkd 3).step (printkdOn userKernel) messageRun).map
      (fun s => decide ((printkd 3).Blocked s)) = some true := by decide +kernel
  obtain ⟨s, hs, hblocked⟩ := Option.map_eq_some_iff.mp htasklet
  obtain ⟨p, hp, hblocked'⟩ := Option.map_eq_some_iff.mp hmessage
  have hblocked := of_decide_eq_true hblocked
  have hblocked' := of_decide_eq_true hblocked'
  refine ⟨⟨s, hs, hblocked, ?_⟩, p, hp, hblocked', ?_⟩
  · exact (isEmpty_of_produceOk 1).1 _ _ s softirqd_started (by decide +kernel) hs hblocked
  · exact (isEmpty_of_produceOk 3).2 _ _ p printkd_started rfl (by decide +kernel) hp hblocked'

/-- Another tasklet comes when `softirqd` has found the list empty. -/
def lateTaskletRun : List (DaemonEvent Nat) :=
  [.produce 0, .around (.background .schedule), .run, .run, .run, .run, .produce 0, .run, .run]

/-- Another message comes when `printkd` has found the list empty and lost the CPU. -/
def lateMessageRun : List (DaemonEvent (List Byte)) :=
  [.produce [1#8], .around (.background .schedule), .run, .run, .run, .run, .run, .run,
    .around (.background .schedule), .produce [2#8], .around (.background .schedule), .run, .run]

/-- Both daemons sleep on what comes too late. -/
theorem isEmpty_not_for_late :
    (∃ start es s, (softirqd 1).Started start ∧ Runs.exec (softirqd 1).step start es = some s ∧
      (softirqd 1).Blocked s ∧ (softirqd 1).isEmpty s.data = false) ∧
    ∃ start es s, (printkd 3).Started start ∧ start.data.isWriting = false ∧
      Runs.exec (printkd 3).step start es = some s ∧
      (printkd 3).Blocked s ∧ (printkd 3).isEmpty s.data = false := by
  have htasklet : (Runs.exec (softirqd 1).step (softirqdOn userKernel) lateTaskletRun).map
      (fun s => decide ((softirqd 1).Blocked s ∧ (softirqd 1).isEmpty s.data = false)) =
      some true := by decide +kernel
  have hmessage : (Runs.exec (printkd 3).step (printkdOn userKernel) lateMessageRun).map
      (fun s => decide ((printkd 3).Blocked s ∧ (printkd 3).isEmpty s.data = false)) =
      some true := by decide +kernel
  obtain ⟨s, hs, hlate⟩ := Option.map_eq_some_iff.mp htasklet
  obtain ⟨p, hp, hlate'⟩ := Option.map_eq_some_iff.mp hmessage
  exact ⟨⟨_, _, s, softirqd_started, hs, of_decide_eq_true hlate⟩,
    _, _, p, printkd_started, rfl, hp, of_decide_eq_true hlate'⟩

end Tenok
