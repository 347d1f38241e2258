import Mathlib.Data.Fin.Basic
import Tenok.Common.Util
import Tenok.Kernel.Syscalls

/-!
`kernel/mqueue.c`. The elements of a queue are known by their index `i`, which stands
for the `struct mqueue_data` at `buf + i * element_size`; their links and the heads of
the free list and of the used lists are one store. The threads that wait for a queue are
on lists of the kernel. `none` is a fault: a pointer that is not one is followed.
-/
namespace Tenok
open Ring

def mqPrioMax : Nat := 5

/-- `sys_mq_send` rejects other priorities. -/
abbrev MqPrio := Fin (mqPrioMax + 1)

instance (priority := 2000) : @NeZero Nat Zero.ofOfNat0 (mqPrioMax + 1) := ⟨Nat.succ_ne_zero _⟩

/-- `struct mq_attr`. The fields are of type `int`; they only meet values of type `size_t`,
which are unsigned. -/
structure MqAttr where
  flags : Word
  maxmsg : Word
  msgsize : Word
  deriving DecidableEq, Repr

/-- The heads of `struct mqueue` that elements are linked to. -/
inductive MqList
  | free
  | used (prio : MqPrio)
  deriving DecidableEq, Repr

/-- `struct mqueue_data`, without its links. -/
structure MqData where
  size : Word
  data : Nat → Byte

structure Mqueue where
  buf : Word
  size : Word
  cnt : Word
  links : Cells (MqList ⊕ Nat)
  elements : Nat → MqData
  /-- How far the elements are apart. Not stored by the code. -/
  elementSize : Word

def mqueueDataSize : Word := 12#32

def mqElementSize (attr : MqAttr) : Word := align (mqueueDataSize + attr.msgsize) 4#32

def mqBufSize (attr : MqAttr) : Word := mqElementSize attr * attr.maxmsg

namespace Mqueue

def initLists (links : Cells (MqList ⊕ Nat)) : Cells (MqList ⊕ Nat) :=
  (List.finRange (mqPrioMax + 1)).foldl (fun s i => initListHead s (Sum.inl (MqList.used i)))
    (initListHead links (Sum.inl MqList.free))

def linkElements (links : Cells (MqList ⊕ Nat)) (size : Nat) : Cells (MqList ⊕ Nat) :=
  (List.range size).foldl (fun s i => listAdd s (Sum.inr i) (Sum.inl MqList.free)) links

/-- `__mq_allocate` where `kmalloc` gives `newMq` for the queue and `buf` for the elements,
on memory with any contents. It clears the queue before it looks whether there is one. -/
def mqAllocate (newMq buf : Option Word) (links : Cells (MqList ⊕ Nat)) (elements : Nat → MqData)
    (attr : MqAttr) : Option (Option Mqueue) :=
  match newMq with
  | none => none
  | some _ => some (buf.map fun buf =>
      { buf, size := attr.maxmsg, cnt := 0#32, elements, elementSize := mqElementSize attr
        links := linkElements (initLists links) attr.maxmsg.toNat })

def mqLen (mq : Mqueue) : Word := mq.cnt

def mqAvail (mq : Mqueue) : Word := mq.size - mq.cnt

def listEntry : MqList ⊕ Nat → Option Nat
  | .inr i => some i
  | .inl _ => none

/-- The loop of `__mq_out`. With no message it ends at -1 and the index is out of range. -/
def highestUsed (mq : Mqueue) : Option MqPrio :=
  (List.finRange (mqPrioMax + 1)).reverse.find? fun p => !listEmpty mq.links (.inl (.used p))

/-- What a receiver gets: the bytes in its buffer, the result and `*msg_prio`. -/
structure MqMessage where
  data : List Byte
  size : Word
  prio : Option MqPrio
  deriving DecidableEq, Repr

/-- `__mq_out`; the caller may pass no pointer for the priority. -/
def mqOut (mq : Mqueue) (msgPrio : Bool) : Option (Mqueue × MqMessage) := do
  let prio ← mq.highestUsed
  let element ← listEntry (next mq.links (.inl (.used prio)))
  let d := mq.elements element
  let links := listMove mq.links (Sum.inr element) (Sum.inl MqList.free)
  some ({ mq with cnt := mq.cnt - 1#32, links },
    ⟨bytesAt d.data d.size.toNat, d.size, if msgPrio then some prio else none⟩)

/-- The elements have room for the message, and the buffer has room for them. What `__mq_in` does
with another message is left out here: it is written over the next element or behind the buffer. -/
def Fits (mq : Mqueue) (msgLen : Word) : Prop :=
  mqueueDataSize.toNat + msgLen.toNat ≤ mq.elementSize.toNat ∧
    mq.elementSize.toNat * mq.size.toNat < 2 ^ 32

instance decidableFits (mq : Mqueue) (msgLen : Word) : Decidable (mq.Fits msgLen) :=
  inferInstanceAs (Decidable (_ ∧ _))

def mqIn (mq : Mqueue) (msgPtr : Nat → Byte) (msgLen : Word) (msgPrio : MqPrio) :
    Option Mqueue := do
  let element ← listEntry (next mq.links (.inl .free))
  let data := memcpy (mq.elements element).data 0 msgPtr msgLen.toNat
  let links := listMove mq.links (Sum.inr element) (Sum.inl (MqList.used msgPrio))
  some { mq with
    elements := Function.update mq.elements element ⟨msgLen, data⟩, cnt := mq.cnt + 1#32, links }

def unreadable (attr : MqAttr) : Bool :=
  attr.flags &&& 1#32 ≠ oRdonly && attr.flags &&& oRdwr = 0#32

def unwritable (attr : MqAttr) : Bool :=
  attr.flags &&& 1#32 ≠ oWronly && attr.flags &&& oRdwr = 0#32

/-- A call that cannot go on: give up, or queue the running thread. -/
def mqBlock (k : Kernel) (attr : MqAttr) (waitList : WaitQueue) : Kernel × Errno :=
  if attr.flags &&& oNonblock ≠ 0#32 then (k, .eagain)
  else (k.prepareToWait (.wait waitList) k.runningThread .wait, .erestartsys)

/-- `__mq_receive` on the queue with number `q`. -/
def mqReceive (k : Kernel) (q : Nat) (mq : Mqueue) (attr : MqAttr) (msgLen : Word)
    (msgPrio : Bool) : Option (Kernel × Mqueue × Except Errno MqMessage) :=
  if unreadable attr then some (k, mq, .error .ebadf)
  else if msgLen < attr.msgsize then some (k, mq, .error .emsgsize)
  else if mq.mqLen ≤ 0#32 then
    let (k, e) := mqBlock k attr (.mqueueRead q)
    some (k, mq, .error e)
  else do
    let (mq, msg) ← mq.mqOut msgPrio
    let k ← k.wakeUp (.wait (.mqueueWrite q))
    some (k, mq, .ok msg)

/-- `__mq_send` on the queue with number `q`. -/
def mqSend (k : Kernel) (q : Nat) (mq : Mqueue) (attr : MqAttr) (msgPtr : Nat → Byte)
    (msgLen : Word) (msgPrio : MqPrio) : Option (Kernel × Mqueue × Except Errno Unit) :=
  if unwritable attr then some (k, mq, .error .ebadf)
  else if attr.msgsize < msgLen then some (k, mq, .error .emsgsize)
  else if mq.mqAvail ≤ 0#32 then
    let (k, e) := mqBlock k attr (.mqueueWrite q)
    some (k, mq, .error e)
  else do
    let mq ← mq.mqIn msgPtr msgLen msgPrio
    let k ← k.wakeUp (.wait (.mqueueRead q))
    some (k, mq, .ok ())

/-- The call was queued and is to be made again. -/
def restart {α : Type} : Except Errno α → Bool
  | .error .erestartsys => true
  | _ => false

end Mqueue

end Tenok
