import Tenok.Kernel.PipeRuns

/-!
A pipe with descriptors in different modes. `sys_read` and `sys_write` copy the flags of the
descriptor to the file in one critical section; `fifo_read` and `fifo_write` look at the
file in another one, at each pass of the loop.
-/
namespace Tenok
open Ring Queues Kernel PipeSys

/-- What a call through a descriptor with these flags has returned. -/
structure ModeReturn where
  flags : Word
  call : PipeCall
  retval : Except Errno Nat

structure PipeModes where
  sys : PipeSys
  /-- The flags of the descriptor that the call of a thread goes through. -/
  flags : Tid → Word
  returned : List ModeReturn

inductive ModeEvent
  /-- `sys_read` or `sys_write` up to its loop, for a descriptor with these flags. -/
  | enter (flags : Word) (c : PipeCall)
  | pass
  | background (b : Background)

namespace PipeModes

def enter (s : PipeModes) (flags : Word) (c : PipeCall) : PipeModes where
  sys := { s.sys.setFlags (some flags) with
    calls := Function.update s.sys.calls s.sys.running (some c) }
  flags := Function.update s.flags s.sys.running flags
  returned := s.returned

def finish (s : PipeModes) (c : PipeCall) (r : FifoResult) : PipeModes where
  sys := s.sys.finish c r
  flags := s.flags
  returned :=
    if r.restart then s.returned else s.returned ++ [⟨s.flags s.sys.running, c, r.retval⟩]

def step (s : PipeModes) : ModeEvent → Option PipeModes
  | .enter flags c =>
      if s.sys.Executing ∧ (s.sys.calls s.sys.running).isNone then some (s.enter flags c) else none
  | .pass =>
      if s.sys.Executing then
        (s.sys.calls s.sys.running).bind fun c => (s.sys.serve c).map (s.finish c)
      else none
  | .background b =>
      (s.sys.kernel.background (s.sys.calls s.sys.running).isNone b).map fun kernel =>
        { s with sys := { s.sys with kernel } }

/-- The descriptor was opened with `O_NONBLOCK`. -/
def NonBlocking (flags : Word) : Prop := flags &&& oNonblock ≠ 0#32

instance decidableNonBlocking (flags : Word) : Decidable (NonBlocking flags) :=
  inferInstanceAs (Decidable (_ ≠ _))

/-- No thread waits for the sake of a non-blocking descriptor, and a call through another
one has never returned before it was served whole. -/
structure ModesKept (s : PipeModes) : Prop where
  waits : ∀ d, ∀ t ∈ s.sys.waiters d, ¬ NonBlocking (s.flags t)
  returns : ∀ r ∈ s.returned, ¬ NonBlocking r.flags → r.retval = .ok r.call.size

/-- When a pass cannot be served whole, the mode of the file is that of the descriptor. -/
def ModeOk (s : PipeModes) : ModeEvent → Prop
  | .pass => ∀ c ∈ s.sys.calls s.sys.running, s.sys.pipe.room c.side < c.size →
      (s.sys.pipe.nonblock = true ↔ NonBlocking (s.flags s.sys.running))
  | .enter _ _ | .background _ => True

instance decidableModeOk (s : PipeModes) : (e : ModeEvent) → Decidable (s.ModeOk e)
  | .pass => inferInstanceAs (Decidable (∀ c ∈ _, _ → _))
  | .enter _ _ | .background _ => inferInstanceAs (Decidable True)

/-- What the steps rely on. -/
structure Sound (s : PipeModes) (L : SchedList → List Tid) : Prop where
  steady : s.sys.kernel.Steady L
  stream : s.sys.pipe.fifo.Stream
  inUse : ∀ d, SchedList.wait (s.sys.pipe.waitList d) ∈ Tenok.inUse {t | s.sys.kernel.Alive t}

/-- The step leaves the invariant, and keeps the modes apart if and only if it is right. -/
structure Spec (s : PipeModes) (e : ModeEvent) (s' : PipeModes) : Prop where
  sound : ∃ L', Sound s' L'
  modes : s.ModesKept → (s.ModeOk e ↔ s'.ModesKept)

theorem ModesKept.of_waiters {s s' : PipeModes} (h : s.ModesKept)
    (hwait : ∀ d, ∀ t ∈ s'.sys.waiters d, t ∈ s.sys.waiters d ∧ s'.flags t = s.flags t)
    (hreturned : s'.returned = s.returned) : s'.ModesKept where
  waits d t ht := by
    obtain ⟨hmem, hflags⟩ := hwait d t ht
    rw [hflags]
    exact h.waits d t hmem
  returns := hreturned ▸ h.returns

namespace Sound
variable {s s' : PipeModes} {L L' : SchedList → List Tid} {c : PipeCall} {r : FifoResult}
  {e : ModeEvent} {n : Nat}

theorem mem_waiters (hs : Sound s L) {d : PipeSide} {t : Tid} :
    t ∈ s.sys.waiters d ↔ t ∈ L (.wait (s.sys.pipe.waitList d)) := by
  rw [PipeSys.waiters, hs.steady.threaded.members_eq (hs.inUse d)]

theorem not_waiting (hs : Sound s L) (hst : s.sys.Executing) (d : PipeSide) :
    s.sys.running ∉ s.sys.waiters d := fun h =>
  hs.steady.threaded.notMem_of_running hst _ (hs.mem_waiters.mp h)

theorem of_kept {Q : Set WaitQueue} (hs : Sound s L)
    (hK : Kept Q s.sys.kernel L s'.sys.kernel L') (hstream : s'.sys.pipe.fifo.Stream)
    (hwait : s'.sys.pipe.waitList = s.sys.pipe.waitList) : Sound s' L' where
  steady := hK.steady
  stream := hstream
  inUse d := by
    have h := hs.inUse d
    rw [hwait]
    simp only [Alive] at h ⊢
    rwa [hK.bitmap]

theorem waitList_enter (s : PipeModes) (flags : Word) (c : PipeCall) (d : PipeSide) :
    (s.enter flags c).sys.pipe.waitList d = s.sys.pipe.waitList d := by cases d <;> rfl

/-- The caller is not on a list, so the flags that it brings matter to nobody there. -/
theorem enter (hs : Sound s L) (hst : s.sys.Executing) (flags : Word) :
    Spec s (.enter flags c) (s.enter flags c) where
  sound := ⟨L, hs.steady, hs.stream, fun d => by rw [waitList_enter]; exact hs.inUse d⟩
  modes hkept := by
    refine iff_of_true trivial (hkept.of_waiters (fun d t ht => ?_) rfl)
    have hmem : t ∈ s.sys.waiters d := by cases d <;> exact ht
    have htr : t ≠ s.sys.running := fun h => hs.not_waiting hst d (h ▸ hmem)
    exact ⟨hmem, Function.update_of_ne htr _ _⟩

theorem background {b : Background} {k : Kernel} (hs : Sound s L)
    (hb : s.sys.kernel.background (s.sys.calls s.sys.running).isNone b = some k) :
    Spec s (.background b) { s with sys := { s.sys with kernel := k } } := by
  obtain ⟨L', hK⟩ := hs.steady.background hb
  have hs' : Sound { s with sys := { s.sys with kernel := k } } L' := hs.of_kept hK hs.stream rfl
  refine ⟨⟨L', hs'⟩, fun hkept => iff_of_true trivial (hkept.of_waiters (fun d t ht => ?_) rfl)⟩
  rw [hs'.mem_waiters, hK.queues _ (Set.notMem_empty _)] at ht
  exact ⟨hs.mem_waiters.mpr ht, rfl⟩

theorem moved (hs : Sound s L) (hst : s.sys.Executing)
    (hmoved : s.sys.pipe.Moved s.sys.kernel c.side n r) :
    (∃ L', Sound (s.finish c r) L') ∧
      ∀ d, ∀ t ∈ (s.finish c r).sys.waiters d, t ∈ s.sys.waiters d := by
  obtain ⟨L', hK, hwoken⟩ := hs.steady.fifoWakeUp hst (hs.inUse c.side.other) hmoved.wakes
  have hwait : (s.finish c r).sys.pipe.waitList = s.sys.pipe.waitList := by
    obtain ⟨fifo, hpipe⟩ := hmoved.pipe
    funext d
    change r.pipe.waitList d = _
    rw [hpipe]
    cases d <;> rfl
  have hs' : Sound (s.finish c r) L' := hs.of_kept hK hmoved.stream hwait
  refine ⟨⟨L', hs'⟩, fun d t ht => ?_⟩
  rw [hs'.mem_waiters, hwait] at ht
  rw [hs.mem_waiters]
  obtain ⟨rfl, -⟩ | ⟨u, -, rfl⟩ := hwoken
  · exact ht
  · obtain ⟨-, hmem⟩ | ⟨-, hready⟩ := hs.steady.threaded.rings.mem_transfer.mp ht
    · exact hmem
    · cases hready

theorem refused (hs : Sound s L) (hpipe : r.pipe = s.sys.pipe)
    (hkernel : r.kernel = s.sys.kernel) :
    (∃ L', Sound (s.finish c r) L') ∧
      ∀ d, ∀ t ∈ (s.finish c r).sys.waiters d, t ∈ s.sys.waiters d := by
  have hsame : ∀ d, (s.finish c r).sys.waiters d = s.sys.waiters d := fun d => by
    change r.kernel.members (.wait (r.pipe.waitList d)) = _
    rw [hpipe, hkernel]
    rfl
  refine ⟨⟨L, ?_, ?_, fun d => ?_⟩, fun d t ht => hsame d ▸ ht⟩
  · change r.kernel.Steady L
    rw [hkernel]
    exact hs.steady
  · change r.pipe.fifo.Stream
    rw [hpipe]
    exact hs.stream
  · change SchedList.wait (r.pipe.waitList d) ∈ Tenok.inUse {t | r.kernel.Alive t}
    rw [hpipe, hkernel]
    exact hs.inUse d

theorem queued (hs : Sound s L) (hst : s.sys.Executing) (hpipe : r.pipe = s.sys.pipe)
    (hkernel : r.kernel = Pipe.waitFor s.sys.kernel (s.sys.pipe.waitList c.side) c.size) :
    (∃ L', Sound (s.finish c r) L') ∧ s.sys.running ∈ (s.finish c r).sys.waiters c.side ∧
      ∀ d, ∀ t ∈ (s.finish c r).sys.waiters d, t ∈ s.sys.waiters d ∨ t = s.sys.running := by
  have hK : Kept {s.sys.pipe.waitList c.side} s.sys.kernel L (s.finish c r).sys.kernel
      (enqueue L s.sys.running (.wait (s.sys.pipe.waitList c.side))) := by
    change Kept _ _ _ r.kernel _
    rw [hkernel]
    exact Pipe.waitFor_kept hs.steady hst (hs.inUse c.side) c.size
  have hwait : (s.finish c r).sys.pipe.waitList = s.sys.pipe.waitList := by
    change r.pipe.waitList = _
    rw [hpipe]
  have hstream : (s.finish c r).sys.pipe.fifo.Stream := by
    change r.pipe.fifo.Stream
    rw [hpipe]
    exact hs.stream
  have hs' := hs.of_kept hK hstream hwait
  refine ⟨⟨_, hs'⟩, ?_, fun d t ht => ?_⟩
  · rw [hs'.mem_waiters, hwait]
    exact mem_enqueue.mpr (Or.inr ⟨rfl, rfl⟩)
  · rw [hs'.mem_waiters, hwait] at ht
    rw [hs.mem_waiters]
    exact (mem_enqueue.mp ht).imp_right And.left

/-- A pass that moves bytes or refuses the call changes who waits for nobody's worse. -/
theorem returned (hkept : s.ModesKept)
    (hwait : ∀ d, ∀ t ∈ (s.finish c r).sys.waiters d, t ∈ s.sys.waiters d)
    (hrestart : r.restart = false) :
    (s.finish c r).ModesKept ↔
      (¬ NonBlocking (s.flags s.sys.running) → r.retval = .ok c.size) := by
  have hreturned : (s.finish c r).returned =
      s.returned ++ [⟨s.flags s.sys.running, c, r.retval⟩] := by
    simp [finish, hrestart]
  refine ⟨fun h => ?_, fun h => ⟨fun d t ht => hkept.waits d t (hwait d t ht), fun o ho => ?_⟩⟩
  · exact h.returns ⟨s.flags s.sys.running, c, r.retval⟩ (by simp [hreturned])
  · rw [hreturned, List.mem_append, List.mem_singleton] at ho
    obtain ho | rfl := ho
    · exact hkept.returns o ho
    · exact h

theorem pass (hs : Sound s L) (hst : s.sys.Executing) (hcall : s.sys.calls s.sys.running = some c)
    (hr : s.sys.serve c = some r) : Spec s .pass (s.finish c r) := by
  have hok : s.ModeOk .pass ↔ (s.sys.pipe.room c.side < c.size →
      (s.sys.pipe.nonblock = true ↔ NonBlocking (s.flags s.sys.running))) := by
    rw [ModeOk, hcall]
    simp
  cases serve_outcome hs.stream hr with
  | served hle h =>
      obtain ⟨hsound, hwait⟩ := hs.moved hst h
      refine ⟨hsound, fun hkept => ?_⟩
      rw [returned hkept hwait (by rw [FifoResult.restart, h.retval]), hok]
      exact iff_of_true (fun hlt => absurd hle (Nat.not_le_of_lt hlt)) fun _ => h.retval
  | short hlt hmode h =>
      obtain ⟨hsound, hwait⟩ := hs.moved hst h
      refine ⟨hsound, fun hkept => ?_⟩
      rw [returned hkept hwait (by rw [FifoResult.restart, h.retval]), hok]
      have hne : r.retval ≠ .ok c.size := fun heq =>
        hlt.ne (Except.ok.inj (h.retval.symm.trans heq))
      simp [hlt, hmode, hne]
  | refused hlt hmode hpipe hkernel hret =>
      obtain ⟨hsound, hwait⟩ := hs.refused (c := c) hpipe hkernel
      refine ⟨hsound, fun hkept => ?_⟩
      rw [returned hkept hwait (by rw [FifoResult.restart, hret]), hok]
      simp [hlt, hmode, hret]
  | queued hlt hmode hpipe hret hkernel =>
      obtain ⟨hsound, hself, hwait⟩ := hs.queued hst hpipe hkernel
      have hreturned : (s.finish c r).returned = s.returned := by
        simp [finish, FifoResult.restart, hret]
      refine ⟨hsound, fun hkept => ?_⟩
      rw [hok]
      refine ⟨fun h => ⟨fun d t ht => ?_, hreturned ▸ hkept.returns⟩, fun h _ => ?_⟩
      · obtain ht | rfl := hwait d t ht
        · exact hkept.waits d t ht
        · exact fun hnon => absurd (hmode.symm.trans ((h hlt).mpr hnon)) (by decide)
      · rw [hmode]
        exact iff_of_false (by decide) (h.waits c.side _ hself)

theorem step (hs : Sound s L) (hstep : s.step e = some s') : Spec s e s' := by
  cases e with
  | enter flags c =>
      obtain ⟨⟨hst, -⟩, heq⟩ := Option.ite_none_right_eq_some.mp hstep
      obtain rfl := Option.some.inj heq
      exact hs.enter hst flags
  | pass =>
      obtain ⟨hst, hbody⟩ := Option.ite_none_right_eq_some.mp hstep
      obtain ⟨c, hcall, hbody⟩ := Option.bind_eq_some_iff.mp hbody
      obtain ⟨r, hr, rfl⟩ := Option.map_eq_some_iff.mp hbody
      exact hs.pass hst hcall hr
  | background b =>
      obtain ⟨k, hb, rfl⟩ := Option.map_eq_some_iff.mp hstep
      exact hs.background hb

end Sound

/-- A new pipe that nobody has read or written through a descriptor. -/
structure Started (s : PipeModes) : Prop where
  sys : s.sys.Started
  returned : s.returned = []

theorem Started.sound {s : PipeModes} (h : Started s) : (∃ L, Sound s L) ∧ s.ModesKept := by
  obtain ⟨L, hL⟩ := h.sys.sound
  refine ⟨⟨L, hL.steady, hL.stream, hL.inUse⟩, fun d t ht => ?_, fun r hr => ?_⟩
  · have hin := (hL.awaited d).inside t (by rwa [← hL.waiters_eq])
    simp [PipeSys.InCall, h.sys.outside t] at hin
  · rw [h.returned] at hr
    cases hr

/-- In every run the mode belongs to the descriptor as long as each pass that cannot be
served whole finds the flags of its own descriptor in the file, and no longer. -/
theorem modesKept_iff_modeOk {s₀ s : PipeModes} {es : List ModeEvent} (hstart : Started s₀)
    (hrun : Runs.exec step s₀ es = some s) :
    Runs.AllOk ModeOk step s₀ es ↔
      ∀ n u, Runs.exec step s₀ (es.take n) = some u → u.ModesKept :=
  Runs.allOk_iff_forall_take (I := fun s => ∃ L, Sound s L)
    (fun _ _ _ ⟨_, hs⟩ hstep => (hs.step hstep).sound)
    (fun _ _ _ ⟨_, hs⟩ hkept hstep => (hs.step hstep).modes hkept)
    hstart.sound.1 hstart.sound.2 hrun

def modesOn (k : Kernel) : PipeModes := ⟨pipeOn k, fun _ => 0#32, []⟩

theorem modesOn_started : Started (modesOn userKernel) where
  sys := pipeOn_started userKernel_settled (userKernel_queue rfl (by decide))
    (userKernel_queue rfl (by decide))
  returned := rfl

def readOne : PipeCall := .read (fun _ => 0#8) 1

/-- Thread 5 loses the CPU between the two parts of a read, and thread 4 reads through
another descriptor. -/
def crossRun (flags other : Word) : List ModeEvent :=
  [.enter flags readOne, .background .schedule, .enter other readOne, .pass,
    .background .schedule, .pass]

/-- One that does not wait, through descriptors of one mode. -/
theorem modesKept_iff_modeOk_at_nonblocking :
    ∃ s, Runs.exec step (modesOn userKernel) (crossRun oNonblock oNonblock) = some s ∧
      s.returned.length = 2 ∧ s.ModesKept := by
  have hrun : (Runs.exec step (modesOn userKernel) (crossRun oNonblock oNonblock)).map
      (fun s => s.returned.length) = some 2 := by decide +kernel
  obtain ⟨s, hs, hlength⟩ := Option.map_eq_some_iff.mp hrun
  have hend : Runs.exec step (modesOn userKernel)
      ((crossRun oNonblock oNonblock).take (crossRun oNonblock oNonblock).length) = some s := by
    rw [List.take_length]
    exact hs
  have hok : Runs.AllOk ModeOk step (modesOn userKernel) (crossRun oNonblock oNonblock) := by
    decide +kernel
  exact ⟨s, hs, hlength, (modesKept_iff_modeOk modesOn_started hs).mp hok _ s hend⟩

/-- A read without `O_NONBLOCK` returns `-EAGAIN`, and one with it waits. -/
theorem modesKept_not_for_mixed :
    (∃ s, Runs.exec step (modesOn userKernel) (crossRun 0#32 oNonblock) = some s ∧
      ∃ r ∈ s.returned, ¬ NonBlocking r.flags ∧ r.retval = .error .eagain) ∧
    ∃ s, Runs.exec step (modesOn userKernel) (crossRun oNonblock 0#32) = some s ∧
      ∃ t ∈ s.sys.waiters .read, NonBlocking (s.flags t) := by
  have hfirst : (Runs.exec step (modesOn userKernel) (crossRun 0#32 oNonblock)).map
      (fun s => decide (∃ r ∈ s.returned, ¬ NonBlocking r.flags ∧ r.retval = .error .eagain)) =
      some true := by decide +kernel
  have hsecond : (Runs.exec step (modesOn userKernel) (crossRun oNonblock 0#32)).map
      (fun s => decide (∃ t ∈ s.sys.waiters .read, NonBlocking (s.flags t))) =
      some true := by decide +kernel
  obtain ⟨s, hs, hfacts⟩ := Option.map_eq_some_iff.mp hfirst
  obtain ⟨s', hs', hfacts'⟩ := Option.map_eq_some_iff.mp hsecond
  exact ⟨⟨s, hs, of_decide_eq_true hfacts⟩, s', hs', of_decide_eq_true hfacts'⟩

end PipeModes

end Tenok
