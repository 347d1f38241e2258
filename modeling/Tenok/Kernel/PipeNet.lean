import Tenok.Kernel.Filesysd

/-!
The anonymous pipes of the threads, each read by its own thread only and written only while
it has room. Nobody ever waits to write, and who waits to read is missed by no write.
-/
namespace Tenok
open Ring Queues Kernel PipeSys

namespace Kernel
variable {k k' : Kernel} {h : SchedList} {n : Nat}

theorem fifoWakeUp_running (hwake : k.fifoWakeUp h n = some k') :
    k'.runningThread = k.runningThread ∧ (k.Unqueued → k'.Unqueued) := by
  simp only [fifoWakeUp, Option.bind_eq_bind, Option.bind_eq_some_iff, Option.some.injEq] at hwake
  obtain ⟨highest, -, rfl⟩ := hwake
  cases highest with
  | none => exact ⟨rfl, id⟩
  | some t =>
      rw [Option.elim_some, finishWait]
      split
      · next ht =>
          refine ⟨rfl, fun hst => ?_⟩
          simpa [Unqueued, makeReady, setStatus, setThread, Ne.symm ht] using hst
      · exact ⟨rfl, id⟩

end Kernel

namespace Pipe
variable {k : Kernel} {p : Pipe} {buf : Nat → Byte} {size : Nat} {r : FifoResult}

theorem length_bytes (fifo : Kfifo) : fifo.bytes.length = fifo.kfifoLen :=
  RingBuffer.length_contents ..

theorem fifoRead_blocking (h : p.fifo.Stream) (hblock : p.nonblock = false)
    (hr : fifoRead k p buf size = some r) :
    (p.fifo.kfifoLen < size ∧ r = ⟨waitFor k p.rWaitList size, p, buf, .error .erestartsys⟩) ∨
    (size ≤ p.fifo.kfifoLen ∧ r.retval = .ok size ∧ (∃ fifo, r.pipe = { p with fifo }) ∧
      r.pipe.fifo.Stream ∧ r.pipe.fifo.size = p.fifo.size ∧
      p.fifo.bytes = r.bytes ++ r.pipe.fifo.bytes ∧
      k.fifoWakeUp (.wait p.wWaitList) r.pipe.fifo.kfifoAvail = some r.kernel) := by
  simp only [fifoRead, hblock, Bool.false_eq_true, if_false] at hr
  split at hr
  · next hlt => exact Or.inl ⟨hlt, (Option.some.inj hr).symm⟩
  · next hge =>
      have hle : size ≤ p.fifo.kfifoLen := Nat.le_of_not_lt hge
      obtain ⟨hs, hsize, hbytes⟩ := popBytes_spec h buf hle
      obtain ⟨k', hk', hr⟩ := Option.bind_eq_some_iff.mp hr
      obtain rfl := Option.some.inj hr
      exact Or.inr ⟨hle, rfl, ⟨_, rfl⟩, hs, hsize, hbytes, hk'⟩

theorem fifoWrite_blocking (h : p.fifo.Stream) (hblock : p.nonblock = false)
    (hr : fifoWrite k p buf size = some r) :
    (p.fifo.kfifoAvail < size ∧ r = ⟨waitFor k p.wWaitList size, p, buf, .error .erestartsys⟩) ∨
    (size ≤ p.fifo.kfifoAvail ∧ r.retval = .ok size ∧ (∃ fifo, r.pipe = { p with fifo }) ∧
      r.pipe.fifo.Stream ∧ r.pipe.fifo.size = p.fifo.size ∧
      r.pipe.fifo.bytes = p.fifo.bytes ++ bytesAt buf size ∧
      k.fifoWakeUp (.wait p.rWaitList) r.pipe.fifo.kfifoLen = some r.kernel) := by
  simp only [fifoWrite, hblock, Bool.false_eq_true, if_false] at hr
  split at hr
  · next hlt => exact Or.inl ⟨hlt, (Option.some.inj hr).symm⟩
  · next hge =>
      have hle : size ≤ p.fifo.kfifoAvail := Nat.le_of_not_lt hge
      obtain ⟨hs, hsize, hbytes⟩ := pushBytes_spec h buf hle
      obtain ⟨k', hk', hr⟩ := Option.bind_eq_some_iff.mp hr
      obtain rfl := Option.some.inj hr
      exact Or.inr ⟨hle, rfl, ⟨_, rfl⟩, hs, hsize, hbytes, hk'⟩

end Pipe

/-- The pipe of a thread. -/
structure Wired (t : Tid) (p : Pipe) : Prop where
  stream : p.fifo.Stream
  size : p.fifo.size = pipeBuf
  rWaitList : p.rWaitList = .pipeRead t
  wWaitList : p.wWaitList = .pipeWrite t
  nonblock : p.nonblock = false

theorem Wired.of_fifo {t : Tid} {p p' : Pipe} (h : Wired t p) (hp : ∃ fifo, p' = { p with fifo })
    (hstream : p'.fifo.Stream) (hsize : p'.fifo.size = p.fifo.size) : Wired t p' := by
  obtain ⟨fifo, rfl⟩ := hp
  exact ⟨hstream, hsize.trans h.size, h.rWaitList, h.wWaitList, h.nonblock⟩

theorem Wired.avail {t : Tid} {p : Pipe} (h : Wired t p) :
    p.fifo.kfifoLen + p.fifo.kfifoAvail = pipeBuf := by
  have hle := h.stream.count_le
  rw [← h.size, Kfifo.kfifoLen, Kfifo.kfifoAvail]
  omega

theorem threadPipe_wired (t : Tid) (data : Nat → Byte) : Wired t (FsSys.threadPipe t data) :=
  ⟨Kfifo.stream_init data pipeBuf, rfl, rfl, rfl, by simp [FsSys.threadPipe, Pipe.nonblock]⟩

/-- `want t` is the size of the read that a thread is in, and the threads of `Active` take
part: each of them can run or waits to read. -/
structure PipeNet (k : Kernel) (pipes : Tid → Pipe) (want : Tid → Option Nat) (Active : Set Tid)
    (L : SchedList → List Tid) : Prop where
  steady : k.Steady L
  wired : ∀ t, Wired t (pipes t)
  writers : ∀ t, L (.wait (.pipeWrite t)) = []
  readers : ∀ t, ∀ u ∈ L (.wait (.pipeRead t)), u = t ∧
    want t = some (k.threads t).fileRequestSize ∧
      (pipes t).fifo.kfifoLen < (k.threads t).fileRequestSize
  present : ∀ t ∈ Active, RunnableIn k L t ∨ t ∈ L (.wait (.pipeRead t))

namespace PipeNet
variable {k k' : Kernel} {pipes : Tid → Pipe} {want want' : Tid → Option Nat}
  {Active Active' : Set Tid} {L L' : SchedList → List Tid} {t o : Tid} {n : Nat} {p : Pipe}

theorem alive (h : PipeNet k pipes want Active L) (ht : t ∈ Active) : k.Alive t := by
  obtain (⟨p, hp⟩ | ⟨rfl, hst⟩) | hwait := h.present t ht
  · exact h.steady.threaded.alive hp
  · exact (h.steady.threaded.running _ hst).2
  · exact h.steady.threaded.alive hwait

theorem retarget (h : PipeNet k pipes want Active L) (hst : k.Unqueued)
    (hwant : ∀ u, u ≠ k.runningThread → want' u = want u)
    (hactive : ∀ u ∈ Active', u = k.runningThread ∨ u ∈ Active) :
    PipeNet k pipes want' Active' L where
  steady := h.steady
  wired := h.wired
  writers := h.writers
  readers t u hu := by
    obtain ⟨rfl, hsize, hlt⟩ := h.readers t u hu
    have hne : u ≠ k.runningThread := fun h' =>
      h.steady.threaded.notMem_of_running hst _ (h' ▸ hu)
    exact ⟨rfl, (hwant u hne).trans hsize, hlt⟩
  present t ht := by
    obtain rfl | ht := hactive t ht
    · exact Or.inl (Or.inr ⟨rfl, hst⟩)
    · exact h.present t ht

/-- The running thread writes to the pipe of another one, which is woken if it waits for no
more than there is then. -/
theorem write (h : PipeNet k pipes want Active L) (hst : k.Unqueued) (ho : k.Alive o)
    (hp : Wired o p) (hwake : k.fifoWakeUp (.wait (.pipeRead o)) p.fifo.kfifoLen = some k') :
    ∃ L', PipeNet k' (Function.update pipes o p) want Active L' := by
  have hin : SchedList.wait (.pipeRead o) ∈ inUse {t | k.Alive t} := by
    intro u hu
    obtain rfl := Option.some.inj hu
    exact ho
  obtain ⟨L', hK, hcases⟩ := h.steady.fifoWakeUp hst hin hwake
  obtain ⟨hrun, hst'⟩ := fifoWakeUp_running hwake
  have hothers : ∀ q, q ≠ .pipeRead o → L' (.wait q) = L (.wait q) := fun q hq =>
    hK.queues q (by simpa using hq)
  refine ⟨L', hK.steady, fun t => ?_, fun t => ?_, fun t u hu => ?_, fun t ht => ?_⟩
  · by_cases hto : t = o
    · subst hto
      rwa [Function.update_self]
    · rw [Function.update_of_ne hto]
      exact h.wired t
  · rw [hothers _ (by simp)]
    exact h.writers t
  · by_cases hto : t = o
    · subst hto
      obtain ⟨rfl, hnobody⟩ | ⟨v, hv, rfl⟩ := hcases
      · obtain ⟨rfl, hsize, -⟩ := h.readers t u hu
        rw [hK.requests _ u hu, Function.update_self]
        exact ⟨rfl, hsize, hnobody u hu⟩
      · -- the only thread that can wait there was woken
        obtain ⟨huv, hu⟩ | ⟨-, hready⟩ := h.steady.threaded.rings.mem_transfer.mp hu
        · exact absurd ((h.readers t u hu).1.trans (h.readers t v hv).1.symm) huv
        · cases hready
    · rw [hothers _ (by simpa using hto)] at hu
      obtain ⟨rfl, hsize, hlt⟩ := h.readers t u hu
      rw [hK.requests _ u hu, Function.update_of_ne hto]
      exact ⟨rfl, hsize, hlt⟩
  · by_cases htr : t = k.runningThread
    · exact Or.inl (Or.inr ⟨htr.trans hrun.symm, hst' hst⟩)
    · obtain hcan | hwait := h.present t ht
      · exact Or.inl (hK.runnable t htr hcan)
      · obtain ⟨rfl, -⟩ | ⟨v, hv, rfl⟩ := hcases
        · exact Or.inr hwait
        · by_cases htv : t = v
          · exact Or.inl (Or.inl ⟨_, h.steady.threaded.rings.mem_transfer.mpr
              (Or.inr ⟨htv, rfl⟩)⟩)
          · exact Or.inr (h.steady.threaded.rings.mem_transfer.mpr (Or.inl ⟨htv, hwait⟩))

theorem read (h : PipeNet k pipes want Active L) (hst : k.Unqueued)
    (hp : Wired k.runningThread p)
    (hwake : k.fifoWakeUp (.wait (.pipeWrite k.runningThread)) n = some k') :
    ∃ L', PipeNet k' (Function.update pipes k.runningThread p) want Active L' := by
  have hin : SchedList.wait (.pipeWrite k.runningThread) ∈ inUse {t | k.Alive t} := by
    intro u hu
    obtain rfl := Option.some.inj hu
    exact (h.steady.threaded.running _ hst).2
  obtain ⟨L', hK, hcases⟩ := h.steady.fifoWakeUp hst hin hwake
  obtain ⟨hrun, hst'⟩ := fifoWakeUp_running hwake
  obtain ⟨rfl, -⟩ | ⟨v, hv, -⟩ := hcases
  · refine ⟨L', hK.steady, fun t => ?_, h.writers, fun t u hu => ?_, fun t ht => ?_⟩
    · by_cases htr : t = k.runningThread
      · subst htr
        rwa [Function.update_self]
      · rw [Function.update_of_ne htr]
        exact h.wired t
    · obtain ⟨rfl, hsize, hlt⟩ := h.readers t u hu
      have hne : u ≠ k.runningThread := fun h' =>
        h.steady.threaded.notMem_of_running hst _ (h' ▸ hu)
      rw [hK.requests _ u hu, Function.update_of_ne hne]
      exact ⟨rfl, hsize, hlt⟩
    · by_cases htr : t = k.runningThread
      · exact Or.inl (Or.inr ⟨htr.trans hrun.symm, hst' hst⟩)
      · exact (h.present t ht).imp_left (hK.runnable t htr)
  · rw [h.writers] at hv
    cases hv

theorem wait (h : PipeNet k pipes want Active L) (hst : k.Unqueued)
    (hlt : (pipes k.runningThread).fifo.kfifoLen < n) :
    ∃ L', PipeNet (Pipe.waitFor k (.pipeRead k.runningThread) n) pipes
      (Function.update want k.runningThread (some n)) Active L' := by
  have hin : SchedList.wait (.pipeRead k.runningThread) ∈ inUse {t | k.Alive t} := by
    intro u hu
    obtain rfl := Option.some.inj hu
    exact (h.steady.threaded.running _ hst).2
  have hK := Pipe.waitFor_kept h.steady hst hin n
  refine ⟨_, hK.steady, h.wired, fun t => ?_, fun t u hu => ?_, fun t ht => ?_⟩
  · rw [hK.queues _ (by simp)]
    exact h.writers t
  · obtain hu | ⟨rfl, hq⟩ := mem_enqueue.mp hu
    · obtain ⟨rfl, hsize, hlt⟩ := h.readers t u hu
      have hne : u ≠ k.runningThread := fun h' =>
        h.steady.threaded.notMem_of_running hst _ (h' ▸ hu)
      rw [hK.requests _ u hu, Function.update_of_ne hne]
      exact ⟨rfl, hsize, hlt⟩
    · obtain rfl : t = k.runningThread := by simpa using hq
      rw [Pipe.waitFor_request, Function.update_self]
      exact ⟨rfl, rfl, hlt⟩
  · by_cases htr : t = k.runningThread
    · exact Or.inr (mem_enqueue.mpr (Or.inr ⟨htr, by rw [htr]⟩))
    · obtain hcan | hwait := h.present t ht
      · exact Or.inl (hK.runnable t htr hcan)
      · exact Or.inr (mem_enqueue.mpr (Or.inl hwait))

/-- Steps that touch no queue, of which those that queue the running thread are taken
outside of calls only. -/
theorem kept (h : PipeNet k pipes want Active L) (hK : Kept ∅ k L k' L')
    (hrun : k.runningThread ∈ Active → RunnableIn k L k.runningThread →
      RunnableIn k' L' k.runningThread) : PipeNet k' pipes want Active L' where
  steady := hK.steady
  wired := h.wired
  writers t := by
    rw [hK.queues _ (by simp)]
    exact h.writers t
  readers t u hu := by
    rw [hK.queues _ (by simp)] at hu
    obtain ⟨rfl, hsize, hlt⟩ := h.readers t u hu
    rw [hK.requests _ u hu]
    exact ⟨rfl, hsize, hlt⟩
  present t ht := by
    rw [hK.queues _ (by simp)]
    refine (h.present t ht).imp_left fun hcan => ?_
    by_cases htr : t = k.runningThread
    · exact htr ▸ hrun (htr ▸ ht) (htr ▸ hcan)
    · exact hK.runnable t htr hcan

theorem background {free : Bool} {b : Background} (h : PipeNet k pipes want Active L)
    (hfree : free = true → k.runningThread ∉ Active) (hb : k.background free b = some k') :
    ∃ L', PipeNet k' pipes want Active L' := by
  have hself : ∀ {P : Prop}, k.Unqueued ∧ free = true → (k.runningThread ∈ Active → P) :=
    fun hcan hactive => absurd hactive (hfree hcan.2)
  cases b with
  | delayTicks ticks =>
      obtain ⟨L', hK⟩ := h.steady.background hb
      obtain ⟨hcan, -⟩ : (k.Unqueued ∧ free = true) ∧ _ = k' := by
        simpa [Kernel.background] using hb
      exact ⟨L', h.kept hK (hself hcan)⟩
  | schedYield =>
      obtain ⟨L', hK⟩ := h.steady.background hb
      obtain ⟨hcan, -⟩ : (k.Unqueued ∧ free = true) ∧ _ = k' := by
        simpa [Kernel.background] using hb
      exact ⟨L', h.kept hK (hself hcan)⟩
  | systemTicks expired =>
      obtain ⟨hK, hrun⟩ := h.steady.systemTicks hb
      exact ⟨L, h.kept hK fun _ => hrun _⟩
  | schedule =>
      obtain ⟨L', hK, hrun⟩ := h.steady.schedule hb
      exact ⟨L', h.kept hK fun _ => hrun _⟩

end PipeNet

end Tenok
