import Tenok.Kernel.Pipe
import Tenok.Kernel.Signals
import Tenok.Mm.Page

/-!
What `thread_create` puts on the stack of a thread: from its end downwards a pipe with its FIFO and
its buffer, the signal queue and the first frame. Addresses wrap around.
-/
namespace Tenok

def sizeofPipe : Nat := 44
def sizeofKfifo : Nat := 32

def sizeofLong : Word := 4#32

/-- Some bytes from an address on. -/
structure Region where
  start : Word
  size : Nat
  deriving DecidableEq, Repr

namespace Region

def Contains (r : Region) (a : Word) : Prop := (a - r.start).toNat < r.size

def Disjoint (r r' : Region) : Prop := ∀ a, r.Contains a → ¬ r'.Contains a

def Inside (r r' : Region) : Prop := ∀ a, r.Contains a → r'.Contains a

end Region

/-- The stack of a new thread in the pages that it was taken from. -/
structure ThreadStack where
  pages : Region
  stack : Region
  pipe : Word
  pipeFifo : Word
  pipeBuf : Word
  signalBuf : Word
  signalQueue : Kfifo
  stackTop : Word

namespace ThreadStack

/-- `thread_pipe_alloc` with the structures and the buffer that is the new top of the stack. -/
def threadPipeAlloc (stackTop : Word) : Word × Word × Word :=
  let pipeSize := align (BitVec.ofNat 32 sizeofPipe) sizeofLong
  let kfifoSize := align (BitVec.ofNat 32 sizeofKfifo) sizeofLong
  let bufSize := align (BitVec.ofNat 32 PipeSys.pipeBuf) sizeofLong
  let pipe := stackTop - pipeSize
  let pipeFifo := pipe - kfifoSize
  (pipe, pipeFifo, pipeFifo - bufSize)

/-- `thread_signal_queue_alloc` with the queue and its buffer. The header is counted here, and
once more by `kfifo_init`. -/
def threadSignalQueueAlloc (stackTop : Word) : Kfifo × Word :=
  let payloadSize := kfifoHdrSize + stagedHandlerInfoSize
  let queueSize := align (BitVec.ofNat 32 (payloadSize * signalQueueSize)) sizeofLong
  (Kfifo.kfifoInit (fun _ => 0#8) payloadSize signalQueueSize, stackTop - queueSize)

/-- The stack with the size `ALIGN(attr->stacksize, sizeof(long))` in pages of this order. -/
def layOut (cfg : PageSizeSelect) (order : Nat) (stack stackSize : Word) : ThreadStack :=
  let (pipe, pipeFifo, pipeBuf) := threadPipeAlloc (stack + stackSize)
  let (signalQueue, signalBuf) := threadSignalQueueAlloc pipeBuf
  { pages := ⟨stack, (pageOrderToSize cfg order).getD 0⟩
    stack := ⟨stack, stackSize.toNat⟩
    pipe, pipeFifo, pipeBuf, signalBuf, signalQueue
    stackTop := signalBuf - SignalThread.stackFrameSize }

def signalSlots (s : ThreadStack) : Region :=
  ⟨s.signalBuf, s.signalQueue.payloadSize * s.signalQueue.size⟩

def regions (s : ThreadStack) : List Region :=
  [⟨s.pipe, sizeofPipe⟩, ⟨s.pipeFifo, sizeofKfifo⟩, ⟨s.pipeBuf, PipeSys.pipeBuf⟩, s.signalSlots,
    ⟨s.stackTop, SignalThread.stackFrameSize.toNat⟩]

/-- All of it has its own place on the stack, and the stack is in its pages. -/
structure LaidOut (s : ThreadStack) : Prop where
  disjoint : s.regions.Pairwise Region.Disjoint
  inside : ∀ r ∈ s.regions, r.Inside s.stack
  inPages : s.stack.Inside s.pages

end ThreadStack

/-- `thread_create` with the stack that it makes. The order of a size that is too large is -1. -/
def threadCreate (cfg : PageSizeSelect) (start : Word) (maps : PageBitmap) (k : Kernel)
    (attr : ThreadAttr) (stacksize : Word) (kernelThread : Bool) :
    Option ((PageBitmap × Kernel) × Except Errno (Tid × ThreadStack)) :=
  if attr.Bad kernelThread then some ((maps, k), .error .einval)
  else match (List.range threadMax).find? fun t => !k.bitmapThreads t with
    | none => some ((maps, k), .error .eagain)
    | some tid => do
        let stackSize := align stacksize sizeofLong
        let order := (BitVec.ofInt 32 (sizeToPageOrder cfg stackSize)).toNat
        let k := k.setThread tid fun _ => {}
        let (maps, stack) ← allocPages cfg start maps order
        match stack with
        | none => some ((maps, k), .error .enomem)
        | some stack =>
            some ((maps, k.setupThread attr kernelThread tid),
              .ok (tid, ThreadStack.layOut cfg order stack stackSize))

variable {cfg : PageSizeSelect} {start stacksize stack stackSize : Word} {maps maps' : PageBitmap}
  {k k' : Kernel} {attr : ThreadAttr} {kernelThread : Bool} {tid : Tid} {s : ThreadStack}
  {order : Nat}

/-- The slots are 24 bytes each, and there is room for as many of 22 bytes, rounded down. So the
last slot has the first byte of the pipe buffer. -/
theorem ThreadStack.signalSlots_contains (cfg : PageSizeSelect) (order : Nat)
    (stack stackSize : Word) : (layOut cfg order stack stackSize).signalSlots.Contains
      (layOut cfg order stack stackSize).pipeBuf := by
  have hqueue : align (BitVec.ofNat 32 ((kfifoHdrSize + stagedHandlerInfoSize) * signalQueueSize))
      sizeofLong = 108#32 := by decide
  have hbuf : (layOut cfg order stack stackSize).pipeBuf =
      (layOut cfg order stack stackSize).signalBuf + 108#32 := by
    simp only [layOut, threadPipeAlloc, threadSignalQueueAlloc, hqueue]
    rw [BitVec.sub_add_cancel]
  have hslots : (layOut cfg order stack stackSize).signalSlots.size = 120 := rfl
  rw [Region.Contains, hslots, hbuf, signalSlots, BitVec.add_comm, BitVec.add_sub_cancel]
  decide

theorem ThreadStack.not_laidOut_layOut : ¬ (layOut cfg order stack stackSize).LaidOut := by
  intro h
  have hslots := signalSlots_contains cfg order stack stackSize
  generalize layOut cfg order stack stackSize = s at h hslots
  have hpipe : (⟨s.pipeBuf, PipeSys.pipeBuf⟩ : Region).Contains s.pipeBuf := by
    rw [Region.Contains, BitVec.sub_self]
    exact (by decide : 0 < PipeSys.pipeBuf)
  have hdisjoint := h.disjoint
  simp only [regions, List.pairwise_cons] at hdisjoint
  exact hdisjoint.2.2.1 _ List.mem_cons_self s.pipeBuf hpipe hslots

theorem threadCreate_stack (hcreate : threadCreate cfg start maps k attr stacksize kernelThread =
    some ((maps', k'), .ok (tid, s))) :
    ∃ order stack, s = ThreadStack.layOut cfg order stack (align stacksize sizeofLong) := by
  rw [threadCreate] at hcreate
  split at hcreate
  · simp at hcreate
  split at hcreate
  · simp at hcreate
  obtain ⟨⟨maps₁, stack⟩, -, hstack⟩ := Option.bind_eq_some_iff.mp hcreate
  cases stack with
  | none => simp at hstack
  | some stack =>
      simp only [Option.some.injEq, Prod.mk.injEq, Except.ok.injEq] at hstack
      exact ⟨_, stack, hstack.2.2.symm⟩

/-- Whatever the attributes are, what is on the stack of a new thread overlaps. -/
theorem not_laidOut (hcreate : threadCreate cfg start maps k attr stacksize kernelThread =
    some ((maps', k'), .ok (tid, s))) : ¬ s.LaidOut := by
  obtain ⟨order, stack, rfl⟩ := threadCreate_stack hcreate
  exact ThreadStack.not_laidOut_layOut

theorem threadCreate_first : ∃ maps' k' tid s,
    threadCreate .size64K 0x20000000 (pageBitmapInit .size64K) Kernel.schedStart
      { schedPriority := 0 } 1024 false = some ((maps', k'), .ok (tid, s)) := by
  have hread : (threadCreate .size64K 0x20000000 (pageBitmapInit .size64K) Kernel.schedStart
      { schedPriority := 0 } 1024 false).any (fun r => r.2.isOk) = true := by decide +kernel
  obtain ⟨⟨⟨maps', k'⟩, r⟩, hcreate, hok⟩ := (Option.any_eq_true ..).mp hread
  cases r with
  | error e => cases hok
  | ok r => exact ⟨maps', k', r.1, r.2, hcreate⟩

theorem not_laidOut_first : ∃ maps' k' tid s,
    threadCreate .size64K 0x20000000 (pageBitmapInit .size64K) Kernel.schedStart
      { schedPriority := 0 } 1024 false = some ((maps', k'), .ok (tid, s)) ∧ ¬ s.LaidOut := by
  obtain ⟨maps', k', tid, s, hcreate⟩ := threadCreate_first
  exact ⟨maps', k', tid, s, hcreate, not_laidOut hcreate⟩

/-- The last slot of its signal queue and its pipe buffer share a byte. -/
theorem slots_meet_pipeBuf : ∃ maps' k' tid s,
    threadCreate .size64K 0x20000000 (pageBitmapInit .size64K) Kernel.schedStart
      { schedPriority := 0 } 1024 false = some ((maps', k'), .ok (tid, s)) ∧
      s.signalSlots.Contains s.pipeBuf ∧ ¬ s.LaidOut := by
  obtain ⟨maps', k', tid, s, hcreate⟩ := threadCreate_first
  obtain ⟨order, stack, rfl⟩ := threadCreate_stack hcreate
  exact ⟨maps', k', tid, _, hcreate, ThreadStack.signalSlots_contains ..,
    ThreadStack.not_laidOut_layOut⟩

end Tenok
