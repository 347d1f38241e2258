import Tenok.Kernel.Pipe

/-!
Wake-ups on a pipe in blocking mode. Readers and writers are two sides of the same code:
a side waits on its own list until the pipe has what it asks for, and a successful call
wakes one thread of the other side. What a thread that was woken leaves for its own side
is nobody's concern.
-/
namespace Tenok
open Ring Queues Kernel

inductive PipeSide
  | read
  | write
  deriving DecidableEq, Repr

namespace PipeSide

def other : PipeSide → PipeSide
  | .read => .write
  | .write => .read

theorem other_ne (d : PipeSide) : d.other ≠ d := by cases d <;> decide

theorem eq_or_other (d d' : PipeSide) : d = d' ∨ d = d'.other := by
  cases d <;> cases d' <;> decide

end PipeSide

def PipeCall.side : PipeCall → PipeSide
  | .read _ _ => .read
  | .write _ _ => .write

def PipeCall.size : PipeCall → Nat
  | .read _ size | .write _ size => size

namespace Pipe

def waitList (p : Pipe) : PipeSide → WaitQueue
  | .read => p.rWaitList
  | .write => p.wWaitList

/-- The bytes that a side can get: those in the pipe, or the free space. -/
def room (p : Pipe) : PipeSide → Nat
  | .read => p.fifo.kfifoLen
  | .write => p.fifo.kfifoAvail

/-- A call has moved `n` bytes and gone to wake the other side. -/
structure Moved (k : Kernel) (p : Pipe) (d : PipeSide) (n : Nat) (r : FifoResult) : Prop where
  retval : r.retval = .ok n
  pipe : ∃ fifo, r.pipe = { p with fifo }
  stream : r.pipe.fifo.Stream
  room : r.pipe.room d = p.room d - n
  wakes : k.fifoWakeUp (.wait (p.waitList d.other)) (r.pipe.room d.other) = some r.kernel

section Transfers
variable {k : Kernel} {p : Pipe} {buf : Nat → Byte} {n : Nat} {r : FifoResult}

theorem readBytes_moved (hstream : p.fifo.Stream) (hn : n ≤ p.fifo.kfifoLen)
    (hr : readBytes k p buf n = some r) : Moved k p .read n r := by
  obtain ⟨hs, -, hbytes⟩ := popBytes_spec hstream buf hn
  obtain ⟨k', hk', hr⟩ := Option.bind_eq_some_iff.mp hr
  obtain rfl := Option.some.inj hr
  have hlen := congrArg List.length hbytes
  simp only [Kfifo.bytes, List.length_append, RingBuffer.length_contents,
    length_bytesAt] at hlen
  refine ⟨rfl, ⟨_, rfl⟩, hs, ?_, hk'⟩
  change (popBytes p.fifo buf n).1.count = p.fifo.count - n
  omega

theorem writeBytes_moved (hstream : p.fifo.Stream) (hn : n ≤ p.fifo.kfifoAvail)
    (hr : writeBytes k p buf n = some r) : Moved k p .write n r := by
  obtain ⟨hs, hsize, hbytes⟩ := pushBytes_spec hstream buf hn
  obtain ⟨k', hk', hr⟩ := Option.bind_eq_some_iff.mp hr
  obtain rfl := Option.some.inj hr
  have hlen := congrArg List.length hbytes
  simp only [Kfifo.bytes, List.length_append, RingBuffer.length_contents,
    length_bytesAt] at hlen
  refine ⟨rfl, ⟨_, rfl⟩, hs, ?_, hk'⟩
  simp only [room, Kfifo.kfifoAvail, hsize]
  omega

end Transfers

end Pipe

namespace PipeSys

def InCall (s : PipeSys) (d : PipeSide) (t : Tid) : Prop := (s.calls t).map PipeCall.side = some d

instance decidableInCall (s : PipeSys) (d : PipeSide) (t : Tid) : Decidable (s.InCall d t) :=
  inferInstanceAs (Decidable (_ = _))

def waiters (s : PipeSys) (d : PipeSide) : List Tid := s.kernel.members (.wait (s.pipe.waitList d))

def WokenOn (s : PipeSys) (d : PipeSide) (t : Tid) : Prop := s.InCall d t ∧ t ∉ s.waiters d

instance decidableWokenOn (s : PipeSys) (d : PipeSide) (t : Tid) : Decidable (s.WokenOn d t) :=
  inferInstanceAs (Decidable (_ ∧ _))

/-- A thread that could be served does not wait without another one on its way. -/
def NoLostWakeup (s : PipeSys) : Prop :=
  ∀ d, ∀ t ∈ s.waiters d, (s.kernel.threads t).fileRequestSize ≤ s.pipe.room d →
    ∃ u < threadMax, s.WokenOn d u

instance decidableNoLostWakeup (s : PipeSys) : Decidable s.NoLostWakeup :=
  decidable_of_iff (∀ d ∈ [PipeSide.read, .write], ∀ t ∈ s.waiters d,
      (s.kernel.threads t).fileRequestSize ≤ s.pipe.room d → ∃ u < threadMax, s.WokenOn d u)
    ⟨fun h d => h d (by cases d <;> simp), fun h d _ => h d⟩

/-- What a call leaves for its own side. -/
def left (s : PipeSys) (c : PipeCall) : Nat :=
  if s.pipe.room c.side < c.size then s.pipe.room c.side else s.pipe.room c.side - c.size

/-- A thread that makes its call again leaves nobody of its side behind who could be served,
or another thread of the side was woken too. -/
def LeavesNobody (s : PipeSys) (c : PipeCall) : Prop :=
  (∀ t ∈ s.waiters c.side, s.left c < (s.kernel.threads t).fileRequestSize) ∨
    ∃ u < threadMax, u ≠ s.running ∧ s.WokenOn c.side u

instance decidableLeavesNobody (s : PipeSys) (c : PipeCall) : Decidable (s.LeavesNobody c) :=
  inferInstanceAs (Decidable ((∀ t ∈ _, _) ∨ ∃ u < threadMax, _))

def RetryOk (s : PipeSys) : PipeEvent → Prop
  | .retry => ∀ c ∈ s.calls s.running, s.LeavesNobody c
  | .call _ _ | .background _ => True

instance decidableRetryOk (s : PipeSys) : (e : PipeEvent) → Decidable (s.RetryOk e)
  | .retry => inferInstanceAs (Decidable (∀ c ∈ _, _))
  | .call _ _ | .background _ => inferInstanceAs (Decidable True)

def Blocking : PipeEvent → Prop
  | .call flags _ => ∀ w ∈ flags, w &&& oNonblock = 0#32
  | .retry | .background _ => True

/-- A new pipe in blocking mode, of the kernel or of a live thread. -/
structure Started (s : PipeSys) : Prop where
  settled : s.kernel.Settled
  fifo : ∃ data size, s.pipe.fifo = Kfifo.kfifoInit data 1 size
  blocking : s.pipe.nonblock = false
  queues : s.pipe.rWaitList ≠ s.pipe.wWaitList
  alive : ∀ d, s.kernel.QueueAlive (s.pipe.waitList d)
  empty : ∀ d, listEmpty s.kernel.links (.inl (.wait (s.pipe.waitList d))) = true
  outside : ∀ t, s.calls t = none

/-- The threads on a list are inside a call on its side, and one that could be served relies
on one that is inside such a call and not on the list. -/
structure Awaited (s : PipeSys) (L : SchedList → List Tid) (d : PipeSide) : Prop where
  inside : ∀ t ∈ L (.wait (s.pipe.waitList d)), s.InCall d t
  woken : ∀ t ∈ L (.wait (s.pipe.waitList d)),
    (s.kernel.threads t).fileRequestSize ≤ s.pipe.room d →
    ∃ u, s.InCall d u ∧ u ∉ L (.wait (s.pipe.waitList d))

/-- What the steps rely on. -/
structure Sound (s : PipeSys) (L : SchedList → List Tid) : Prop where
  steady : s.kernel.Steady L
  stream : s.pipe.fifo.Stream
  blocking : s.pipe.nonblock = false
  queues : s.pipe.rWaitList ≠ s.pipe.wWaitList
  inUse : ∀ d, SchedList.wait (s.pipe.waitList d) ∈ Tenok.inUse {t | s.kernel.Alive t}
  inBounds : ∀ t, s.calls t ≠ none → t < threadMax
  awaited : ∀ d, s.Awaited L d

/-- What a call can come to. -/
inductive Outcome (s : PipeSys) (c : PipeCall) (r : FifoResult) : Prop
  | served (hle : c.size ≤ s.pipe.room c.side) (h : s.pipe.Moved s.kernel c.side c.size r)
  | short (hlt : s.pipe.room c.side < c.size) (hmode : s.pipe.nonblock = true)
      (h : s.pipe.Moved s.kernel c.side (s.pipe.room c.side) r)
  | refused (hlt : s.pipe.room c.side < c.size) (hmode : s.pipe.nonblock = true)
      (hpipe : r.pipe = s.pipe) (hkernel : r.kernel = s.kernel) (hret : r.retval = .error .eagain)
  | queued (hlt : s.pipe.room c.side < c.size) (hmode : s.pipe.nonblock = false)
      (hpipe : r.pipe = s.pipe) (hret : r.retval = .error .erestartsys)
      (hkernel : r.kernel = Pipe.waitFor s.kernel (s.pipe.waitList c.side) c.size)

theorem serve_outcome {s : PipeSys} {c : PipeCall} {r : FifoResult}
    (hstream : s.pipe.fifo.Stream) (hr : s.serve c = some r) : Outcome s c r := by
  cases c with
  | read buf size =>
      simp only [serve, Pipe.fifoRead] at hr
      split at hr
      · next hlt =>
          split at hr
          · next hmode =>
              split at hr
              · exact .short hlt hmode (Pipe.readBytes_moved hstream (Nat.le_refl _) hr)
              · obtain rfl := Option.some.inj hr
                exact .refused hlt hmode rfl rfl rfl
          · next hmode =>
              obtain rfl := Option.some.inj hr
              exact .queued hlt (by simpa using hmode) rfl rfl rfl
      · next hge =>
          have hle : size ≤ s.pipe.fifo.kfifoLen := Nat.le_of_not_lt hge
          exact .served hle (Pipe.readBytes_moved hstream hle hr)
  | write buf size =>
      simp only [serve, Pipe.fifoWrite] at hr
      split at hr
      · next hlt =>
          split at hr
          · next hmode =>
              split at hr
              · exact .short hlt hmode (Pipe.writeBytes_moved hstream (Nat.le_refl _) hr)
              · obtain rfl := Option.some.inj hr
                exact .refused hlt hmode rfl rfl rfl
          · next hmode =>
              obtain rfl := Option.some.inj hr
              exact .queued hlt (by simpa using hmode) rfl rfl rfl
      · next hge =>
          have hle : size ≤ s.pipe.fifo.kfifoAvail := Nat.le_of_not_lt hge
          exact .served hle (Pipe.writeBytes_moved hstream hle hr)

/-- In blocking mode a call either queues its thread or serves it and wakes the other side. -/
theorem serve_cases {s : PipeSys} {c : PipeCall} {r : FifoResult} (hstream : s.pipe.fifo.Stream)
    (hblock : s.pipe.nonblock = false) (hr : s.serve c = some r) :
    (s.pipe.room c.side < c.size ∧ r.pipe = s.pipe ∧ r.restart = true ∧
      r.kernel = Pipe.waitFor s.kernel (s.pipe.waitList c.side) c.size) ∨
    (c.size ≤ s.pipe.room c.side ∧ r.restart = false ∧
      s.pipe.Moved s.kernel c.side c.size r) := by
  cases serve_outcome hstream hr with
  | served hle h => exact Or.inr ⟨hle, by rw [FifoResult.restart, h.retval], h⟩
  | short hlt hmode h => exact absurd (hmode.symm.trans hblock) (by decide)
  | refused hlt hmode => exact absurd (hmode.symm.trans hblock) (by decide)
  | queued hlt hmode hpipe hret hkernel =>
      exact Or.inl ⟨hlt, hpipe, by rw [FifoResult.restart, hret], hkernel⟩

namespace Sound
variable {s s' : PipeSys} {L L' : SchedList → List Tid} {c : PipeCall} {d : PipeSide}
  {k' : Kernel} {e : PipeEvent}

theorem waitList_ne (hs : Sound s L) (d : PipeSide) :
    s.pipe.waitList d.other ≠ s.pipe.waitList d := by
  cases d with
  | read => exact hs.queues.symm
  | write => exact hs.queues

theorem waitList_inj (hs : Sound s L) {d d' : PipeSide}
    (h : s.pipe.waitList d = s.pipe.waitList d') : d = d' := by
  obtain rfl | rfl := d.eq_or_other d'
  · rfl
  · exact absurd h (hs.waitList_ne d')

theorem waiters_eq (hs : Sound s L) (d : PipeSide) :
    s.waiters d = L (.wait (s.pipe.waitList d)) :=
  hs.steady.threaded.members_eq (hs.inUse d)

theorem inUse_kept {Q : Set WaitQueue} (hs : Sound s L) (hK : Kept Q s.kernel L k' L')
    (d : PipeSide) : SchedList.wait (s.pipe.waitList d) ∈ Tenok.inUse {t | k'.Alive t} := by
  have h := hs.inUse d
  simp only [Alive] at h ⊢
  rwa [hK.bitmap]

theorem inBounds_update {x : Option PipeCall} (hs : Sound s L) (hst : s.Executing)
    (hcalls : s'.calls = Function.update s.calls s.running x) (t : Tid) (ht : s'.calls t ≠ none) :
    t < threadMax := by
  by_cases htr : t = s.running
  · exact htr ▸ hs.steady.threaded.lt_max _ (hs.steady.threaded.running _ hst).2
  · rw [hcalls, Function.update_of_ne htr] at ht
    exact hs.inBounds t ht

/-- Another thread than the running one that a side relies on, after the step. -/
def Relies (s : PipeSys) (L : SchedList → List Tid) (d : PipeSide) : Prop :=
  ∃ u, u ≠ s.running ∧ s.InCall d u ∧ u ∉ L (.wait (s.pipe.waitList d))

/-- The thread that makes a call is not the one its side relies on, unless it has waited. -/
theorem relies_of_fresh (hs : Sound s L) (hnone : s.calls s.running = none) {t : Tid}
    (ht : t ∈ L (.wait (s.pipe.waitList d)))
    (hfits : (s.kernel.threads t).fileRequestSize ≤ s.pipe.room d) : Relies s L d := by
  obtain ⟨u, hu, hnot⟩ := (hs.awaited d).woken t ht hfits
  refine ⟨u, ?_, hu, hnot⟩
  rintro rfl
  simp [InCall, hnone] at hu

theorem relies_other (hs : Sound s L) (hcall : ∀ c' ∈ s.calls s.running, c'.side = c.side)
    {t : Tid} (ht : t ∈ L (.wait (s.pipe.waitList c.side.other)))
    (hfits : (s.kernel.threads t).fileRequestSize ≤ s.pipe.room c.side.other) :
    Relies s L c.side.other := by
  obtain ⟨u, hu, hnot⟩ := (hs.awaited c.side.other).woken t ht hfits
  refine ⟨u, ?_, hu, hnot⟩
  rintro rfl
  obtain ⟨c', hc', hside⟩ := Option.map_eq_some_iff.mp hu
  exact c.side.other_ne (hside.symm.trans (hcall c' hc'))

/-- A thread that a side relies on is there after the step if the step left it alone. -/
theorem awaited_of_relies {x : Option PipeCall} (hs : Sound s L)
    (hcalls : s'.calls = Function.update s.calls s.running x)
    (hwait : s'.pipe.waitList d = s.pipe.waitList d)
    (hinside : s.running ∈ L' (.wait (s.pipe.waitList d)) → x.map PipeCall.side = some d)
    (hlist : ∀ t, t ≠ s.running → (t ∈ L' (.wait (s.pipe.waitList d)) ↔
      t ∈ L (.wait (s.pipe.waitList d))))
    (hrelies : ∀ t ∈ L' (.wait (s.pipe.waitList d)),
      (s'.kernel.threads t).fileRequestSize ≤ s'.pipe.room d → Relies s L d) :
    Awaited s' L' d := by
  have hkeep : ∀ t, t ≠ s.running → s.InCall d t → s'.InCall d t := by
    intro t ht hin
    rw [InCall, hcalls, Function.update_of_ne ht]
    exact hin
  refine ⟨fun t ht => ?_, fun t ht hfits => ?_⟩
  · rw [hwait] at ht
    by_cases htr : t = s.running
    · subst htr
      rw [InCall, hcalls, Function.update_self]
      exact hinside ht
    · exact hkeep t htr ((hs.awaited d).inside t ((hlist t htr).mp ht))
  · rw [hwait] at ht
    obtain ⟨u, hu, hin, hnot⟩ := hrelies t ht hfits
    refine ⟨u, hkeep u hu hin, ?_⟩
    rw [hwait, hlist u hu]
    exact hnot

theorem side_of_enqueued (hs : Sound s L) (hst : s.Executing)
    (hin : s.running ∈ enqueue L s.running (.wait (s.pipe.waitList c.side))
      (.wait (s.pipe.waitList d))) : d = c.side := by
  obtain h | ⟨-, h⟩ := mem_enqueue.mp hin
  · exact absurd h (hs.steady.threaded.notMem_of_running hst _)
  · exact hs.waitList_inj (SchedList.wait.inj h)

theorem queued (hs : Sound s L) (hst : s.Executing)
    (hcall : ∀ c' ∈ s.calls s.running, c'.side = c.side)
    (hok : ∀ t ∈ L (.wait (s.pipe.waitList c.side)),
      (s.kernel.threads t).fileRequestSize ≤ s.left c → Relies s L c.side)
    (hlt : s.pipe.room c.side < c.size) (hpipe : s'.pipe = s.pipe)
    (hkernel : s'.kernel = Pipe.waitFor s.kernel (s.pipe.waitList c.side) c.size)
    (hcalls : s'.calls = Function.update s.calls s.running (some c)) : ∃ L', Sound s' L' := by
  have hK : Kept {s.pipe.waitList c.side} s.kernel L s'.kernel
      (enqueue L s.running (.wait (s.pipe.waitList c.side))) := by
    rw [hkernel]
    exact Pipe.waitFor_kept hs.steady hst (hs.inUse c.side) c.size
  have hself : (s'.kernel.threads s.running).fileRequestSize = c.size := by
    rw [hkernel]
    exact Pipe.waitFor_request s.kernel _ c.size
  refine ⟨_, hK.steady, hpipe ▸ hs.stream, hpipe ▸ hs.blocking, hpipe ▸ hs.queues,
    hpipe ▸ hs.inUse_kept hK, hs.inBounds_update hst hcalls, fun d => ?_⟩
  have hmem : ∀ t, t ∈ enqueue L s.running (.wait (s.pipe.waitList c.side))
      (.wait (s.pipe.waitList d)) → t ≠ s.running → t ∈ L (.wait (s.pipe.waitList d)) := by
    intro t ht htr
    obtain h | ⟨h, -⟩ := mem_enqueue.mp ht
    · exact h
    · exact absurd h htr
  refine hs.awaited_of_relies hcalls (by rw [hpipe]) (fun hin => ?_)
    (fun t htr => ⟨fun ht => hmem t ht htr, fun ht => mem_enqueue.mpr (Or.inl ht)⟩)
    fun t ht hfits => ?_
  · rw [hs.side_of_enqueued hst hin]
    rfl
  · by_cases htr : t = s.running
    · subst htr
      rw [hself, hpipe, hs.side_of_enqueued hst ht] at hfits
      exact absurd hfits (Nat.not_le_of_lt hlt)
    · have hold := hmem t ht htr
      rw [hK.requests _ t hold, hpipe] at hfits
      obtain rfl | rfl := d.eq_or_other c.side
      · exact hok t hold (hfits.trans_eq (if_pos hlt).symm)
      · exact hs.relies_other hcall hold hfits

theorem awaited_of_woken (hs : Sound s L) (hst : s.Executing)
    (hcalls : s'.calls = Function.update s.calls s.running none)
    (hwait : s'.pipe.waitList d = s.pipe.waitList d)
    (hrequests : ∀ t ∈ L (.wait (s.pipe.waitList d)),
      (s'.kernel.threads t).fileRequestSize = (s.kernel.threads t).fileRequestSize)
    (hwoken : (L' = L ∧ ∀ t ∈ L (.wait (s.pipe.waitList d)),
        s'.pipe.room d < (s.kernel.threads t).fileRequestSize) ∨
      ∃ t ∈ L (.wait (s.pipe.waitList d)), L' = transfer L t
        (.ready (s.kernel.threads t).priority)) : Awaited s' L' d := by
  have hkeep : ∀ t ∈ L (.wait (s.pipe.waitList d)), s'.InCall d t := by
    intro t ht
    have htr : t ≠ s.running := fun h => hs.steady.threaded.notMem_of_running hst _ (h ▸ ht)
    rw [InCall, hcalls, Function.update_of_ne htr]
    exact (hs.awaited d).inside t ht
  obtain ⟨rfl, hnobody⟩ | ⟨t, ht, rfl⟩ := hwoken
  · refine ⟨fun t ht => hkeep t (hwait ▸ ht), fun t ht hfits => ?_⟩
    rw [hwait] at ht
    rw [hrequests t ht] at hfits
    exact absurd hfits (Nat.not_le_of_lt (hnobody t ht))
  · have hmem : ∀ u, u ∈ transfer L t (.ready (s.kernel.threads t).priority)
        (.wait (s'.pipe.waitList d)) ↔
        u ≠ t ∧ u ∈ L (.wait (s.pipe.waitList d)) := fun u => by
      simp [hs.steady.threaded.rings.mem_transfer, hwait]
    refine ⟨fun u hu => hkeep u ((hmem u).mp hu).2, fun _ _ _ => ⟨t, hkeep t ht, ?_⟩⟩
    rw [hmem]
    exact fun h => h.1 rfl

theorem served (hs : Sound s L) (hst : s.Executing)
    (hok : ∀ t ∈ L (.wait (s.pipe.waitList c.side)),
      (s.kernel.threads t).fileRequestSize ≤ s.left c → Relies s L c.side)
    (hle : c.size ≤ s.pipe.room c.side) (hpipe : ∃ fifo, s'.pipe = { s.pipe with fifo })
    (hstream : s'.pipe.fifo.Stream) (hroom : s'.pipe.room c.side = s.pipe.room c.side - c.size)
    (hwake : s.kernel.fifoWakeUp (.wait (s.pipe.waitList c.side.other))
      (s'.pipe.room c.side.other) = some s'.kernel)
    (hcalls : s'.calls = Function.update s.calls s.running none) : ∃ L', Sound s' L' := by
  obtain ⟨fifo, hpipe⟩ := hpipe
  have hwait : s'.pipe.waitList = s.pipe.waitList := by
    funext d
    rw [hpipe]
    cases d <;> rfl
  have hleft : s.left c = s.pipe.room c.side - c.size := if_neg (Nat.not_lt.mpr hle)
  obtain ⟨L', hK, hwoken⟩ := hs.steady.fifoWakeUp hst (hs.inUse c.side.other) hwake
  have hsame : L' (.wait (s.pipe.waitList c.side)) = L (.wait (s.pipe.waitList c.side)) :=
    hK.queues _ fun h => hs.waitList_ne c.side (Set.mem_singleton_iff.mp h).symm
  have hnot : ∀ d, s.running ∉ L (.wait (s.pipe.waitList d)) := fun d =>
    hs.steady.threaded.notMem_of_running hst _
  refine ⟨L', hK.steady, hstream, ?_, ?_, fun d => ?_, hs.inBounds_update hst hcalls,
    fun d => ?_⟩
  · rw [hpipe]
    exact hs.blocking
  · rw [hpipe]
    exact hs.queues
  · rw [hwait]
    exact hs.inUse_kept hK d
  · obtain rfl | rfl := d.eq_or_other c.side
    · refine hs.awaited_of_relies hcalls (by rw [hwait]) (fun hin => ?_)
        (fun t _ => by rw [hsame]) fun t ht hfits => ?_
      · rw [hsame] at hin
        exact absurd hin (hnot c.side)
      · rw [hsame] at ht
        rw [hK.requests _ t ht, hroom, ← hleft] at hfits
        exact hok t ht hfits
    · exact hs.awaited_of_woken hst hcalls (by rw [hwait]) (fun t ht => hK.requests _ t ht) hwoken

theorem attempt (hs : Sound s L) (hst : s.Executing)
    (hcall : ∀ c' ∈ s.calls s.running, c'.side = c.side)
    (hok : ∀ t ∈ L (.wait (s.pipe.waitList c.side)),
      (s.kernel.threads t).fileRequestSize ≤ s.left c → Relies s L c.side)
    (hstep : s.attempt c = some s') : ∃ L', Sound s' L' := by
  obtain ⟨r, hr, rfl⟩ := Option.map_eq_some_iff.mp hstep
  obtain ⟨hlt, hpipe, hrestart, hkernel⟩ | ⟨hle, hrestart, hmoved⟩ :=
    serve_cases hs.stream hs.blocking hr
  · refine hs.queued hst hcall hok hlt hpipe hkernel ?_
    simp [finish, hrestart]
  · refine hs.served hst hok hle hmoved.pipe hmoved.stream hmoved.room hmoved.wakes ?_
    simp [finish, hrestart]

theorem setFlags {flags : Option Word} (hs : Sound s L)
    (hblock : ∀ w ∈ flags, w &&& oNonblock = 0#32) : Sound (s.setFlags flags) L := by
  have hwait : (s.setFlags flags).pipe.waitList = s.pipe.waitList := by
    funext d
    cases d <;> rfl
  have hroom : (s.setFlags flags).pipe.room = s.pipe.room := by
    funext d
    cases d <;> rfl
  refine ⟨hs.steady, hs.stream, ?_, hs.queues, fun d => ?_, hs.inBounds, fun d => ⟨?_, ?_⟩⟩
  · cases flags with
    | none => exact hs.blocking
    | some w => exact decide_eq_false (not_not.mpr (hblock w rfl))
  · rw [hwait]
    exact hs.inUse d
  · rw [hwait]
    exact (hs.awaited d).inside
  · rw [hwait, hroom]
    exact (hs.awaited d).woken

theorem step (hs : Sound s L) (hblock : Blocking e) (hok : s.RetryOk e)
    (hstep : s.step e = some s') : ∃ L', Sound s' L' := by
  cases e with
  | call flags c =>
      simp only [PipeSys.step, Option.ite_none_right_eq_some, Option.isNone_iff_eq_none] at hstep
      obtain ⟨⟨hst, hnone⟩, hstep⟩ := hstep
      have hs' := hs.setFlags hblock
      have hleft : (s.setFlags flags).left c ≤ (s.setFlags flags).pipe.room c.side := by
        rw [left]
        split
        · exact Nat.le_refl _
        · exact Nat.sub_le ..
      refine hs'.attempt hst (fun c' hc' => ?_) (fun t ht hfits => ?_) hstep
      · change s.calls s.running = some c' at hc'
        rw [hnone] at hc'
        cases hc'
      · exact hs'.relies_of_fresh hnone ht (hfits.trans hleft)
  | retry =>
      simp only [PipeSys.step, Option.ite_none_right_eq_some, Option.bind_eq_some_iff] at hstep
      obtain ⟨hst, c, hc, hstep⟩ := hstep
      refine hs.attempt hst (fun c' hc' => ?_) (fun t ht hfits => ?_) hstep
      · rw [Option.some.inj (hc.symm.trans hc')]
      · rw [← hs.waiters_eq] at ht
        obtain hnobody | ⟨u, -, hu, hin, hnot⟩ := hok c hc
        · exact absurd hfits (Nat.not_le_of_lt (hnobody t ht))
        · rw [hs.waiters_eq] at hnot
          exact ⟨u, hu, hin, hnot⟩
  | background b =>
      obtain ⟨k₁, hk₁, rfl⟩ := Option.map_eq_some_iff.mp hstep
      obtain ⟨L', hK⟩ := hs.steady.background hk₁
      have hsame : ∀ d, L' (.wait (s.pipe.waitList d)) = L (.wait (s.pipe.waitList d)) :=
        fun d => hK.queues _ (Set.notMem_empty _)
      refine ⟨L', hK.steady, hs.stream, hs.blocking, hs.queues, hs.inUse_kept hK, hs.inBounds,
        fun d => ?_⟩
      refine ⟨fun t ht => (hs.awaited d).inside t (hsame d ▸ ht), fun t ht hfits => ?_⟩
      rw [hsame d] at ht ⊢
      exact (hs.awaited d).woken t ht ((hK.requests _ t ht).symm.trans_le hfits)

theorem noLostWakeup (hs : Sound s L) : s.NoLostWakeup := by
  intro d t ht hfits
  rw [hs.waiters_eq] at ht
  obtain ⟨u, hin, hnot⟩ := (hs.awaited d).woken t ht hfits
  rw [← hs.waiters_eq] at hnot
  refine ⟨u, hs.inBounds u fun hnone => ?_, hin, hnot⟩
  simp [InCall, hnone] at hin

end Sound

theorem Started.sound {s : PipeSys} (h : Started s) : ∃ L, Sound s L := by
  obtain ⟨L, hS⟩ := h.settled.steady
  obtain ⟨data, size, hfifo⟩ := h.fifo
  have hin : ∀ d, SchedList.wait (s.pipe.waitList d) ∈ inUse {t | s.kernel.Alive t} :=
    fun d => QueueAlive.inUse (h.alive d)
  have hnil : ∀ d, L (.wait (s.pipe.waitList d)) = [] := fun d => by
    simpa using (listEmpty_iff (hS.threaded.rings.ring _ (hin d))).mp (h.empty d)
  exact ⟨L, hS, hfifo ▸ Kfifo.stream_init data size, h.blocking, h.queues, hin,
    fun t ht => absurd (h.outside t) ht, fun d => ⟨by simp [hnil d], by simp [hnil d]⟩⟩

/-- In every run of blocking calls whose steps meet the condition, no thread that could be
served waits without another one on its way. -/
theorem noLostWakeup_of_retryOk {s₀ s : PipeSys} {es : List PipeEvent} (hstart : Started s₀)
    (hblock : ∀ e ∈ es, Blocking e) (hok : Runs.AllOk RetryOk step s₀ es)
    (hrun : Runs.exec step s₀ es = some s) : s.NoLostWakeup := by
  have hstep : ∀ (s : PipeSys) e s', (∃ L, Sound s L) → Blocking e ∧ s.RetryOk e →
      s.step e = some s' → ∃ L, Sound s' L := fun _ _ _ ⟨_, hs⟩ hok h => hs.step hok.1 hok.2 h
  have hall := Runs.allOk_and (Runs.allOk_of_forall (f := step) (s := s₀) fun e he _ => hblock e he)
    hok
  obtain ⟨L, hs⟩ := Runs.exec_invariant hstep hstart.sound hall hrun
  exact hs.noLostWakeup

theorem pipeOn_started {k : Kernel} (hk : k.Settled)
    (hread : listEmpty k.links (.inl (.wait (.fifoRead 1))) = true)
    (hwrite : listEmpty k.links (.inl (.wait (.fifoWrite 1))) = true) : (pipeOn k).Started where
  settled := hk
  fifo := ⟨_, _, rfl⟩
  blocking := by simp [pipeOn, Pipe.nonblock]
  queues := by simp [pipeOn]
  alive d := by cases d <;> simp [pipeOn, Pipe.waitList, QueueAlive, SchedList.owner]
  empty d := by
    cases d with
    | read => exact hread
    | write => exact hwrite
  outside _ := rfl

theorem noLostWakeup_of_retryOk_at_delivery : (pipeOn userKernel).Started ∧
    ∃ s, Runs.exec step (pipeOn userKernel) deliveryRun = some s ∧ s.NoLostWakeup := by
  have hstart : (pipeOn userKernel).Started := pipeOn_started userKernel_settled
    (userKernel_queue rfl (by decide)) (userKernel_queue rfl (by decide))
  have hrun : (Runs.exec step (pipeOn userKernel) deliveryRun).isSome = true := by decide +kernel
  obtain ⟨s, hs⟩ := Option.isSome_iff_exists.mp hrun
  have hblock : ∀ e ∈ deliveryRun, Blocking e := by
    simp [deliveryRun, Blocking]
  exact ⟨hstart, s, hs, noLostWakeup_of_retryOk hstart hblock (by decide +kernel) hs⟩

/-- Threads 5 and 4 wait for a byte each, thread 6 writes two, and thread 5 reads its own. -/
def lostRun : List PipeEvent :=
  [.call none (.read (fun _ => 0#8) 1), .background .schedule,
    .call none (.read (fun _ => 0#8) 1), .background .schedule,
    .call none (.write (fun _ => 7#8) 2), .background .schedule, .retry]

/-- One write makes two readers servable and wakes one: the other waits beside its byte. -/
theorem noLostWakeup_not_for_two_readers : (pipeOn crowdKernel).Started ∧
    (∀ e ∈ lostRun, Blocking e) ∧
    ∃ s, Runs.exec step (pipeOn crowdKernel) lostRun = some s ∧ ¬ s.NoLostWakeup := by
  have hstart : (pipeOn crowdKernel).Started := pipeOn_started crowdKernel_settled
    (crowdKernel_queue rfl (by decide)) (crowdKernel_queue rfl (by decide))
  have hrun : (Runs.exec step (pipeOn crowdKernel) lostRun).map (fun s =>
      decide s.NoLostWakeup) = some false := by decide +kernel
  obtain ⟨s, hs, hlost⟩ := Option.map_eq_some_iff.mp hrun
  exact ⟨hstart, by simp [lostRun, Blocking], s, hs, of_decide_eq_false hlost⟩

end PipeSys

end Tenok
