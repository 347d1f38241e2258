import Tenok.Kernel.Pipe
import Tenok.Kernel.Poll

/-!
The events of files. `fifo_read` and `fifo_write` each refresh one bit of `f_events` when
they are done, `POLLOUT` from the number of bytes in the pipe and `POLLIN` from the room;
`sys_poll` compares `f_events` with what was asked for.
-/
namespace Tenok
open Kernel

def pollIn : Word := 1#32
def pollOut : Word := 4#32

def updateEvents (fEvents flag : Word) (ready : Bool) : Word :=
  if ready then fEvents ||| flag else fEvents &&& ~~~flag

theorem updateEvents_self (fEvents : Word) {flag : Word} (hflag : flag ≠ 0#32) (ready : Bool) :
    updateEvents fEvents flag ready &&& flag ≠ 0#32 ↔ ready = true := by
  cases ready with
  | true =>
      have habsorb : (fEvents ||| flag) &&& flag = flag := by
        apply BitVec.eq_of_getLsbD_eq
        intro i _
        rw [BitVec.getLsbD_and, BitVec.getLsbD_or]
        cases flag.getLsbD i <;> simp
      rw [updateEvents, if_pos rfl, habsorb]
      exact iff_of_true hflag rfl
  | false =>
      have hclear : (fEvents &&& ~~~flag) &&& flag = 0#32 := by
        rw [BitVec.and_assoc]
        simp
      rw [updateEvents, if_neg Bool.false_ne_true, hclear]
      simp

theorem updateEvents_other (fEvents : Word) {flag other : Word} (hflag : flag &&& other = 0#32)
    (ready : Bool) : updateEvents fEvents flag ready &&& other = fEvents &&& other := by
  have hapart : ∀ i, flag.getLsbD i = true → other.getLsbD i = false := by
    intro i hi
    have hbit := congrArg (fun w => w.getLsbD i) hflag
    simpa [hi] using hbit
  apply BitVec.eq_of_getLsbD_eq
  intro i hlt
  cases ready with
  | true =>
      simp only [updateEvents, if_true, BitVec.getLsbD_and, BitVec.getLsbD_or]
      cases hi : flag.getLsbD i with
      | true => simp [hapart i hi]
      | false => simp
  | false =>
      simp only [updateEvents, Bool.false_eq_true, if_false, BitVec.getLsbD_and, BitVec.getLsbD_not,
        hlt, decide_true, Bool.true_and]
      cases hi : flag.getLsbD i with
      | true => simp [hapart i hi]
      | false => simp

structure PipeFile where
  pipe : Pipe
  fEvents : Word

/-- A call, with the flags of the descriptor if there is one. The threads of the kernel and
what they did since the last call are any. -/
structure FifoCall where
  kernel : Kernel
  flags : Option Word
  call : PipeCall

namespace PipeFile

/-- `fifo_read`; `poll_notify` wakes threads and leaves the file as it is. -/
def fifoRead (k : Kernel) (f : PipeFile) (buf : Nat → Byte) (size : Nat) :
    Option (FifoResult × PipeFile) := do
  let r ← Pipe.fifoRead k f.pipe buf size
  some (r, ⟨r.pipe, updateEvents f.fEvents pollOut (decide (0 < r.pipe.fifo.kfifoLen))⟩)

def fifoWrite (k : Kernel) (f : PipeFile) (buf : Nat → Byte) (size : Nat) :
    Option (FifoResult × PipeFile) := do
  let r ← Pipe.fifoWrite k f.pipe buf size
  some (r, ⟨r.pipe, updateEvents f.fEvents pollIn (decide (0 < r.pipe.fifo.kfifoAvail))⟩)

def setFlags (f : PipeFile) (flags : Option Word) : PipeFile :=
  { f with pipe := { f.pipe with fFlags := flags.getD f.pipe.fFlags } }

def step (f : PipeFile) (c : FifoCall) : Option PipeFile :=
  match c.call with
  | .read buf size => ((f.setFlags c.flags).fifoRead c.kernel buf size).map Prod.snd
  | .write buf size => ((f.setFlags c.flags).fifoWrite c.kernel buf size).map Prod.snd

/-- `POLLIN` tells whether there is a byte, `POLLOUT` whether there is room for one. -/
structure Accurate (f : PipeFile) : Prop where
  readable : f.fEvents &&& pollIn ≠ 0#32 ↔ 0 < f.pipe.fifo.kfifoLen
  writable : f.fEvents &&& pollOut ≠ 0#32 ↔ 0 < f.pipe.fifo.kfifoAvail

def lenAfter (p : Pipe) : PipeCall → Nat
  | .read _ size =>
      p.fifo.kfifoLen - if size ≤ p.fifo.kfifoLen then size
        else if p.nonblock then p.fifo.kfifoLen else 0
  | .write _ size =>
      p.fifo.kfifoLen + if size ≤ p.fifo.kfifoAvail then size
        else if p.nonblock then p.fifo.kfifoAvail else 0

/-- The pipe gets neither empty nor full, and the bit that is not refreshed is right. -/
def EventsOk (f : PipeFile) (c : FifoCall) : Prop :=
  let n := lenAfter (f.setFlags c.flags).pipe c.call
  (0 < n ↔ n < f.pipe.fifo.size) ∧
    match c.call with
    | .read _ _ => f.fEvents &&& pollIn ≠ 0#32 ↔ 0 < n
    | .write _ _ => f.fEvents &&& pollOut ≠ 0#32 ↔ n < f.pipe.fifo.size

section Calls
variable {f f' : PipeFile} {c : FifoCall} {k : Kernel} {p : Pipe} {buf : Nat → Byte}
  {n size : Nat} {r : FifoResult}

theorem readBytes_len (h : p.fifo.Stream) (hn : n ≤ p.fifo.kfifoLen)
    (hr : Pipe.readBytes k p buf n = some r) : r.pipe.fifo.Stream ∧
      r.pipe.fifo.size = p.fifo.size ∧ r.pipe.fifo.kfifoLen = p.fifo.kfifoLen - n := by
  obtain ⟨hs, hsize, hbytes⟩ := Pipe.popBytes_spec h buf hn
  obtain ⟨k', -, hr⟩ := Option.bind_eq_some_iff.mp hr
  obtain rfl := Option.some.inj hr
  refine ⟨hs, hsize, ?_⟩
  have hlen := congrArg List.length hbytes
  simp only [Kfifo.bytes, List.length_append, RingBuffer.length_contents, length_bytesAt] at hlen
  exact (Nat.sub_eq_of_eq_add' hlen).symm

theorem writeBytes_len (h : p.fifo.Stream) (hn : n ≤ p.fifo.kfifoAvail)
    (hr : Pipe.writeBytes k p buf n = some r) : r.pipe.fifo.Stream ∧
      r.pipe.fifo.size = p.fifo.size ∧ r.pipe.fifo.kfifoLen = p.fifo.kfifoLen + n := by
  obtain ⟨hs, hsize, hbytes⟩ := Pipe.pushBytes_spec h buf hn
  obtain ⟨k', -, hr⟩ := Option.bind_eq_some_iff.mp hr
  obtain rfl := Option.some.inj hr
  refine ⟨hs, hsize, ?_⟩
  have hlen := congrArg List.length hbytes
  simp only [Kfifo.bytes, List.length_append, RingBuffer.length_contents, length_bytesAt] at hlen
  exact hlen

theorem fifoRead_len (h : p.fifo.Stream) (hr : Pipe.fifoRead k p buf size = some r) :
    r.pipe.fifo.Stream ∧ r.pipe.fifo.size = p.fifo.size ∧
      r.pipe.fifo.kfifoLen = lenAfter p (.read buf size) := by
  simp only [Pipe.fifoRead] at hr
  simp only [lenAfter]
  split at hr
  · next hlt =>
      rw [if_neg (Nat.not_le.mpr hlt)]
      split at hr
      · next hmode =>
          rw [if_pos hmode]
          split at hr
          · exact readBytes_len h (Nat.le_refl _) hr
          · next hempty =>
              obtain rfl := Option.some.inj hr
              exact ⟨h, rfl, (Nat.eq_zero_of_not_pos hempty).trans (Nat.sub_self _).symm⟩
      · next hmode =>
          rw [if_neg hmode]
          obtain rfl := Option.some.inj hr
          exact ⟨h, rfl, rfl⟩
  · next hge =>
      rw [if_pos (Nat.le_of_not_lt hge)]
      exact readBytes_len h (Nat.le_of_not_lt hge) hr

theorem fifoWrite_len (h : p.fifo.Stream) (hr : Pipe.fifoWrite k p buf size = some r) :
    r.pipe.fifo.Stream ∧ r.pipe.fifo.size = p.fifo.size ∧
      r.pipe.fifo.kfifoLen = lenAfter p (.write buf size) := by
  simp only [Pipe.fifoWrite] at hr
  simp only [lenAfter]
  split at hr
  · next hlt =>
      rw [if_neg (Nat.not_le.mpr hlt)]
      split at hr
      · next hmode =>
          rw [if_pos hmode]
          split at hr
          · exact writeBytes_len h (Nat.le_refl _) hr
          · next hfull =>
              obtain rfl := Option.some.inj hr
              rw [Nat.eq_zero_of_not_pos hfull]
              exact ⟨h, rfl, rfl⟩
      · next hmode =>
          rw [if_neg hmode]
          obtain rfl := Option.some.inj hr
          exact ⟨h, rfl, rfl⟩
  · next hge =>
      rw [if_pos (Nat.le_of_not_lt hge)]
      exact writeBytes_len h (Nat.le_of_not_lt hge) hr

theorem step_spec (h : f.pipe.fifo.Stream) (hstep : f.step c = some f') :
    f'.pipe.fifo.Stream ∧ f'.pipe.fifo.size = f.pipe.fifo.size ∧
      f'.pipe.fifo.kfifoLen = lenAfter (f.setFlags c.flags).pipe c.call ∧
      f'.fEvents = match c.call with
        | .read _ _ => updateEvents f.fEvents pollOut (decide (0 < f'.pipe.fifo.kfifoLen))
        | .write _ _ => updateEvents f.fEvents pollIn (decide (0 < f'.pipe.fifo.kfifoAvail)) := by
  obtain ⟨k, flags, call⟩ := c
  cases call with
  | read buf size =>
      obtain ⟨⟨r, g⟩, hcall, rfl⟩ := Option.map_eq_some_iff.mp hstep
      obtain ⟨r', hr, hg⟩ := Option.bind_eq_some_iff.mp hcall
      obtain ⟨rfl, rfl⟩ := Prod.mk.inj (Option.some.inj hg)
      obtain ⟨hs, hsize, hlen⟩ := fifoRead_len (p := (f.setFlags flags).pipe) h hr
      exact ⟨hs, hsize, hlen, rfl⟩
  | write buf size =>
      obtain ⟨⟨r, g⟩, hcall, rfl⟩ := Option.map_eq_some_iff.mp hstep
      obtain ⟨r', hr, hg⟩ := Option.bind_eq_some_iff.mp hcall
      obtain ⟨rfl, rfl⟩ := Prod.mk.inj (Option.some.inj hg)
      obtain ⟨hs, hsize, hlen⟩ := fifoWrite_len (p := (f.setFlags flags).pipe) h hr
      exact ⟨hs, hsize, hlen, rfl⟩

theorem eventsOk_iff_accurate (h : f.pipe.fifo.Stream) (hstep : f.step c = some f') :
    f.EventsOk c ↔ f'.Accurate := by
  obtain ⟨hs, hsize, hlen, hevents⟩ := step_spec h hstep
  have havail : 0 < f'.pipe.fifo.kfifoAvail ↔
      lenAfter (f.setFlags c.flags).pipe c.call < f.pipe.fifo.size := by
    rw [← hlen, ← hsize, Kfifo.kfifoAvail, Kfifo.kfifoLen]
    omega
  have haccurate : f'.Accurate ↔
      (f'.fEvents &&& pollIn ≠ 0#32 ↔ 0 < lenAfter (f.setFlags c.flags).pipe c.call) ∧
        (f'.fEvents &&& pollOut ≠ 0#32 ↔
          lenAfter (f.setFlags c.flags).pipe c.call < f.pipe.fifo.size) := by
    rw [← havail, ← hlen]
    exact ⟨fun h => ⟨h.readable, h.writable⟩, fun h => ⟨h.1, h.2⟩⟩
  have hrefreshed : ∀ flag ready, flag ≠ 0#32 →
      (updateEvents f.fEvents flag ready &&& flag ≠ 0#32 ↔ ready = true) := fun flag ready hflag =>
    updateEvents_self f.fEvents hflag ready
  rw [haccurate, hevents]
  obtain ⟨k, flags, call⟩ := c
  cases call with
  | read buf size =>
      rw [hrefreshed pollOut _ (by decide), updateEvents_other _ (by decide : pollOut &&& pollIn = 0#32),
        hlen, decide_eq_true_iff]
      exact and_comm
  | write buf size =>
      rw [hrefreshed pollIn _ (by decide), updateEvents_other _ (by decide : pollIn &&& pollOut = 0#32),
        decide_eq_true_iff, havail]
      exact and_congr_left' iff_comm

/-- In every sequence of calls, the events of the file are right after each call exactly if
each of them meets the condition. -/
theorem accurate_iff_eventsOk {cs : List FifoCall} (h : f.pipe.fifo.Stream)
    (hrun : Runs.exec step f cs = some f') : Runs.AllOk EventsOk step f cs ↔
      ∀ n < cs.length, ∀ g, Runs.exec step f (cs.take (n + 1)) = some g → g.Accurate :=
  Runs.allOk_iff_forall_take_succ (I := fun f : PipeFile => f.pipe.fifo.Stream)
    (fun _ _ _ hs hstep => (step_spec hs hstep).1)
    (fun _ _ _ hs hstep => eventsOk_iff_accurate hs hstep) h hrun

end Calls

def fresh (data : Nat → Byte) (size : Nat) : PipeFile :=
  ⟨⟨Kfifo.kfifoInit data 1 size, .fifoRead 1, .fifoWrite 1, 0#32⟩, 0#32⟩

theorem not_eventsOk_fresh (data : Nat → Byte) {size : Nat} (hsize : 0 < size) (c : FifoCall) :
    ¬ (fresh data size).EventsOk c := by
  rintro ⟨hlevel, hbit⟩
  obtain ⟨k, flags, call⟩ := c
  cases call with
  | read buf n =>
      have hempty : lenAfter ((fresh data size).setFlags flags).pipe (.read buf n) = 0 :=
        Nat.zero_sub _
      rw [hempty] at hlevel
      exact absurd (hlevel.mpr hsize) (Nat.lt_irrefl 0)
  | write buf n =>
      have hclear : ¬ (fresh data size).fEvents &&& pollOut ≠ 0#32 := not_not.mpr BitVec.zero_and
      have hfull := fun h => hclear (hbit.mpr h)
      exact hfull (hlevel.mp (Nat.pos_of_ne_zero fun hzero => hfull (hzero ▸ hsize)))

instance decidableEventsOk (f : PipeFile) : (c : FifoCall) → Decidable (f.EventsOk c)
  | ⟨_, _, .read _ _⟩ | ⟨_, _, .write _ _⟩ => inferInstanceAs (Decidable ((_ ↔ _) ∧ (_ ↔ _)))

def partCalls : List FifoCall :=
  [⟨userKernel, some 0#32, .write (fun _ => 7#8) 3⟩,
    ⟨userKernel, some 0#32, .read (fun _ => 0#8) 1⟩]

/-- An empty pipe whose file has the event of one. -/
theorem accurate_iff_eventsOk_at_part : ∃ f',
    Runs.exec step { fresh (fun _ => 0#8) PipeSys.pipeBuf with fEvents := pollOut } partCalls = some f' ∧
      f'.Accurate := by
  have hrun : (Runs.exec step { fresh (fun _ => 0#8) PipeSys.pipeBuf with fEvents := pollOut }
      partCalls).isSome = true := by decide +kernel
  obtain ⟨f', hf'⟩ := Option.isSome_iff_exists.mp hrun
  have hall := (accurate_iff_eventsOk (Kfifo.stream_init (fun _ => 0#8) PipeSys.pipeBuf) hf').mp
    (by decide +kernel)
  exact ⟨f', hf', hall 1 (by decide) f' hf'⟩

/-- A new pipe is filled: it has bytes to read, and `POLLIN` is clear. -/
theorem accurate_not_for_full : ∃ f',
    Runs.exec step (fresh (fun _ => 0#8) PipeSys.pipeBuf)
      [⟨userKernel, some 0#32, .write (fun _ => 7#8) PipeSys.pipeBuf⟩] = some f' ∧
      f'.pipe.fifo.kfifoLen = PipeSys.pipeBuf ∧ ¬ f'.Accurate := by
  have hrun : (Runs.exec step (fresh (fun _ => 0#8) PipeSys.pipeBuf)
      [⟨userKernel, some 0#32, .write (fun _ => 7#8) PipeSys.pipeBuf⟩]).map (fun f =>
        (f.pipe.fifo.kfifoLen, f.fEvents &&& pollIn)) = some (PipeSys.pipeBuf, 0#32) := by decide +kernel
  obtain ⟨f', hf', hfacts⟩ := Option.map_eq_some_iff.mp hrun
  obtain ⟨hlen, hclear⟩ := Prod.mk.inj hfacts
  refine ⟨f', hf', hlen, fun haccurate => ?_⟩
  exact haccurate.readable.mpr (hlen.symm ▸ by decide) hclear

end PipeFile

def PollFd.Requests (f : PollFd) (events : Word) : Prop := f.events &&& events.truncate 16 ≠ 0#16

def PollFd.Returns (f : PollFd) (events : Word) : Prop :=
  f.revents &&& ~~~(events.truncate 16) = 0#16

instance (f : PollFd) (events : Word) : Decidable (f.Requests events) :=
  inferInstanceAs (Decidable (_ ≠ _))

instance (f : PollFd) (events : Word) : Decidable (f.Returns events) :=
  inferInstanceAs (Decidable (_ = _))

namespace PollSys

/-- `sys_poll` returns 0 without blocking if and only if an event that was asked for is set,
and then returns only events that are set. -/
def Reports (p : PollSys) (fds : List PollFd) (filps : List File) (timeout : Int) : Prop :=
  ∃ p' retval fds', p.sysPoll fds timeout = some (p', retval, fds') ∧
    (retval = some 0 ↔ ∃ x ∈ fds.zip filps, x.1.Requests (p.fEvents x.2)) ∧
    (retval = some 0 → ∀ x ∈ fds'.zip filps, x.1.Returns (p.fEvents x.2))

/-- A file has an event set outside of its mask if and only if one has an event set inside,
and then no entry comes with a returned event that is not set. -/
def MaskOk (p : PollSys) (fds : List PollFd) (filps : List File) : Prop :=
  ((∃ x ∈ fds.zip filps, x.1.hasEvent (p.fEvents x.2)) ↔
      ∃ x ∈ fds.zip filps, x.1.Requests (p.fEvents x.2)) ∧
    ((∃ x ∈ fds.zip filps, x.1.hasEvent (p.fEvents x.2)) →
      ∀ x ∈ fds.zip filps, x.1.Returns (p.fEvents x.2))

instance (p : PollSys) (fds : List PollFd) (filps : List File) : Decidable (p.MaskOk fds filps) :=
  inferInstanceAs (Decidable (((∃ x ∈ fds.zip filps, _) ↔ ∃ x ∈ fds.zip filps, _) ∧
    ((∃ x ∈ fds.zip filps, _) → ∀ x ∈ fds.zip filps, _)))

section Masks
variable {p : PollSys} {fds : List PollFd} {filps : List File}

theorem noEvent_eq_false_iff :
    p.noEvent fds filps = false ↔ ∃ x ∈ fds.zip filps, x.1.hasEvent (p.fEvents x.2) := by
  rw [noEvent, List.all_eq_false]
  simp

theorem returns_returnEvents (f : PollFd) (filp : File) :
    (p.returnEvents f filp).Returns (p.fEvents filp) ↔ f.Returns (p.fEvents filp) := by
  rw [PollFd.Returns, PollFd.Returns, returnEvents, BitVec.and_or_distrib_right]
  simp

theorem returned_iff : (∀ x ∈ (List.zipWith p.returnEvents fds filps).zip filps,
      x.1.Returns (p.fEvents x.2)) ↔ ∀ x ∈ fds.zip filps, x.1.Returns (p.fEvents x.2) := by
  induction fds generalizing filps with
  | nil => simp
  | cons f fds ih =>
      cases filps with
      | nil => simp
      | cons filp filps =>
          simp only [List.zipWith_cons_cons, List.zip_cons_cons, List.forall_mem_cons,
            returns_returnEvents, ih]

/-- The call writes the events of its file to every entry, and returns 0 exactly if there is one that
it looks for. -/
theorem sysPoll_eq (hfds : p.filps fds = some filps) (timeout : Int) : ∃ p' retval,
    p.sysPoll fds timeout = some (p', retval, List.zipWith p.returnEvents fds filps) ∧
      (retval = some 0 ↔ p.noEvent fds filps = false) := by
  generalize hq : ({ p with files := initListHead p.files (.inl p.kernel.runningThread) } :
    PollSys) = q
  have hfilps : q.filps fds = some filps := by
    rw [← hq]
    exact hfds
  have hnone : q.noEvent fds filps = p.noEvent fds filps := by rw [← hq]; rfl
  have hreturn : q.returnEvents = p.returnEvents := by rw [← hq]; rfl
  rw [sysPoll, hq]
  simp only [hfilps, Option.bind_eq_bind, Option.bind_some, hnone, hreturn]
  cases hset : p.noEvent fds filps with
  | false =>
      rw [Bool.not_false, if_pos rfl]
      exact ⟨q, some 0, rfl, iff_of_true rfl rfl⟩
  | true =>
      rw [Bool.not_true, if_neg Bool.false_ne_true]
      by_cases htimeout : timeout = 0
      · rw [if_pos htimeout]
        exact ⟨q, some (-1), rfl, iff_of_false (by decide) (by decide)⟩
      · rw [if_neg htimeout]
        exact ⟨_, none, rfl, iff_of_false nofun nofun⟩

/-- `sys_poll` reports what was asked for exactly if the masks meet the condition. -/
theorem reports_iff (hfds : p.filps fds = some filps) (timeout : Int) :
    p.Reports fds filps timeout ↔ p.MaskOk fds filps := by
  obtain ⟨p', retval, heq, hret⟩ := sysPoll_eq hfds timeout
  rw [noEvent_eq_false_iff] at hret
  constructor
  · rintro ⟨p₁, retval₁, fds₁, heq₁, hzero, hreturns⟩
    obtain ⟨rfl, rfl, rfl⟩ : p' = p₁ ∧ retval = retval₁ ∧
        List.zipWith p.returnEvents fds filps = fds₁ := by
      simpa using heq.symm.trans heq₁
    exact ⟨hret.symm.trans hzero, fun hset => returned_iff.mp (hreturns (hret.mpr hset))⟩
  · rintro ⟨hmask, hclean⟩
    exact ⟨p', retval, _, heq, hret.trans hmask,
      fun hzero => returned_iff.mpr (hclean (hret.mp hzero))⟩

end Masks

/-- File 1 is readable, at the descriptor behind the reserved ones. -/
def readableFile : PollSys :=
  start ⟨fun _ => .inl 0, fun _ => .inl 0⟩ (fun _ => pollIn) fun _ => some 1

/-- Two entries for the file, of which only the second asks for its event. -/
theorem reports_iff_at_room :
    readableFile.Reports [⟨fileReservedNum, 0#16, 0#16⟩, ⟨fileReservedNum, 1#16, 0#16⟩] [1, 1] (-1) :=
  (reports_iff rfl (-1)).mpr (by decide)

/-- A call that asks for the event that is set blocks. -/
theorem reports_not_for_readable :
    readableFile.filps [⟨fileReservedNum, 1#16, 0#16⟩] = some [1] ∧
      ¬ readableFile.Reports [⟨fileReservedNum, 1#16, 0#16⟩] [1] (-1) := by
  refine ⟨rfl, ?_⟩
  rintro ⟨p', retval, fds', heq, hzero, -⟩
  have hblocks : (readableFile.sysPoll [⟨fileReservedNum, 1#16, 0#16⟩] (-1)).map
      (fun r => r.2.1) = some none := rfl
  rw [heq] at hblocks
  have hnone : retval = none := Option.some.inj hblocks
  have hret : retval = some 0 := hzero.mpr (by decide)
  rw [hnone] at hret
  exact absurd hret nofun

end PollSys

end Tenok
