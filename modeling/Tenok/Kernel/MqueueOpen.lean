import Tenok.Kernel.Mqueue

/-!
`sys_mq_open` and the memory of a message queue. The elements are laid out once, with the
attributes of the call that creates the queue, while a message is measured with the
attributes of the descriptor it is sent through, and every call of `mq_open` brings its
own.
-/
namespace Tenok
open Ring

def mqueueMax : Nat := 50

def nameMax : Nat := 30

/-- `struct mq_desc`; a queue is known by its address. -/
structure MqDesc where
  mq : Word
  attr : MqAttr

/-- The names and descriptors of message queues. A name is the characters before the
terminating zero. -/
structure MqTable where
  mqueueList : List (List Byte × Word)
  mqs : Word → Mqueue
  bitmapMqds : Nat → Bool
  taskMqds : Pid → Nat → Bool
  mqdTable : Nat → MqDesc

namespace MqTable

def acquireMqueue (s : MqTable) (name : List Byte) : Option Word :=
  (s.mqueueList.find? fun mq => name.take nameMax = mq.1.take nameMax).map Prod.snd

def defaultAttr : MqAttr := ⟨0#32, 16#32, 50#32⟩

def openAttr (oflag : Word) (attr : Option MqAttr) : MqAttr :=
  { attr.getD defaultAttr with flags := oflag }

def register (s : MqTable) (task : Pid) (mqdes : Nat) (desc : MqDesc) : MqTable :=
  { s with
    bitmapMqds := Function.update s.bitmapMqds mqdes true
    taskMqds := Function.update s.taskMqds task (Function.update (s.taskMqds task) mqdes true)
    mqdTable := Function.update s.mqdTable mqdes desc }

/-- `sys_mq_open` by a thread of `task`, where `kmalloc` answers as for `__mq_allocate`. -/
def sysMqOpen (s : MqTable) (task : Pid) (name : List Byte) (oflag : Word) (attr : Option MqAttr)
    (newMq buf : Option Word) (links : Cells (MqList ⊕ Nat)) (elements : Nat → MqData) :
    Option (MqTable × Except Errno Nat) :=
  match (List.range mqueueMax).find? fun d => !s.bitmapMqds d with
  | none => some (s, .error .enomem)
  | some mqdes =>
      match s.acquireMqueue name with
      | some mq =>
          if oflag &&& oCreat ≠ 0#32 ∧ oflag &&& oExcl ≠ 0#32 then some (s, .error .eexist)
          else some (s.register task mqdes ⟨mq, openAttr oflag attr⟩, .ok mqdes)
      | none =>
          if oflag &&& oCreat = 0#32 then some (s, .error .enoent)
          else do
            let allocated ← Mqueue.mqAllocate newMq buf links elements (attr.getD defaultAttr)
            match allocated with
            | none => some (s, .error .enomem)
            | some mq =>
                let addr := newMq.getD 0#32
                let s := { s with
                  mqs := Function.update s.mqs addr mq
                  mqueueList := s.mqueueList ++ [(name.take (nameMax - 1), addr)] }
                some (s.register task mqdes ⟨addr, openAttr oflag attr⟩, .ok mqdes)

def sysMqSendEnter (s : MqTable) (task : Pid) (mqdes : Nat) (msgLen msgPrio : Word) :
    Except Errno MqDesc :=
  if BitVec.ofNat 32 mqPrioMax < msgPrio then .error .einval
  else if !s.bitmapMqds mqdes || !s.taskMqds task mqdes then .error .ebadf
  else if (s.mqdTable mqdes).attr.msgsize < msgLen then .error .emsgsize
  else .ok (s.mqdTable mqdes)

end MqTable

/-- The address is one of the `size` bytes from `base` on. -/
def InRange (base : Word) (size : Nat) (a : Word) : Prop := (a - base).toNat < size

instance decidableInRange (base : Word) (size : Nat) (a : Word) : Decidable (InRange base size a) :=
  inferInstanceAs (Decidable (_ < _))

/-- Where `__mq_allocate` puts element `i`. -/
def mqElementAddr (attr : MqAttr) (buf : Word) (i : Nat) : Word :=
  buf + BitVec.ofNat 32 i * mqElementSize attr

/-- The stores of `__mq_in` to the element at `e`: its `data` and its `size`. -/
def mqStore (mem : Word → Byte) (e : Word) (msgPtr : Nat → Byte) (msgLen : Word) : Word → Byte :=
  fun a =>
    if InRange (e + 8#32) 4 a then msgLen.extractLsb' (8 * (a - (e + 8#32)).toNat) 8
    else if InRange (e + mqueueDataSize) msgLen.toNat a then
      msgPtr (a - (e + mqueueDataSize)).toNat
    else mem a

/-- The size of an element, from the message size in `attr`. -/
def roundedElement (attr : MqAttr) : Nat := (12 + attr.msgsize.toNat) % 2 ^ 32 / 4 * 4

/-- The elements have room for their headers, and the size of the buffer does not overflow. -/
def LaidOut (attr : MqAttr) : Prop :=
  0 < attr.maxmsg.toNat →
    12 ≤ roundedElement attr ∧ roundedElement attr * attr.maxmsg.toNat < 2 ^ 32

instance decidableLaidOut (attr : MqAttr) : Decidable (LaidOut attr) :=
  inferInstanceAs (Decidable (_ → _))

/-- A descriptor that can be written to asks for no more than the creator's message size rounded
down to whole words. -/
def RoundedFits (attr desc : MqAttr) : Prop :=
  LaidOut attr ∧ (0 < attr.maxmsg.toNat → Mqueue.unwritable desc = false →
    12 + desc.msgsize.toNat ≤ roundedElement attr)

instance decidableRoundedFits (attr desc : MqAttr) : Decidable (RoundedFits attr desc) :=
  inferInstanceAs (Decidable (_ ∧ (_ → _)))

section Layout
variable {attr : MqAttr} {buf a x w : Word} {i j n : Nat}

theorem toNat_mqElementSize (attr : MqAttr) : (mqElementSize attr).toNat = roundedElement attr := by
  have halign := align_two_pow_toNat (mqueueDataSize + attr.msgsize) 2 (by decide)
  rw [mqElementSize, roundedElement]
  exact halign.trans (by rw [BitVec.toNat_add]; rfl)

theorem toNat_mqBufSize (attr : MqAttr) :
    (mqBufSize attr).toNat = roundedElement attr * attr.maxmsg.toNat % 2 ^ 32 := by
  rw [mqBufSize, BitVec.toNat_mul, toNat_mqElementSize]

theorem inRange_add (buf w : Word) (n : Nat) (a : Word) :
    InRange (buf + w) n a ↔ InRange w n (a - buf) := by
  have hsub : a - (buf + w) = a - buf - w := by bv_omega
  rw [InRange, InRange, hsub]

theorem inRange_iff (hw : w.toNat + n ≤ 2 ^ 32) :
    InRange w n x ↔ w.toNat ≤ x.toNat ∧ x.toNat < w.toNat + n := by
  have hx := x.isLt
  have hw' := w.isLt
  rw [InRange, BitVec.toNat_sub]
  omega

theorem toNat_elementOffset (h : i * roundedElement attr < 2 ^ 32) (hi : i < 2 ^ 32) :
    (BitVec.ofNat 32 i * mqElementSize attr).toNat = i * roundedElement attr := by
  rw [BitVec.toNat_mul, BitVec.toNat_ofNat, toNat_mqElementSize, Nat.mod_eq_of_lt hi,
    Nat.mod_eq_of_lt h]

end Layout

namespace MqTable
variable {s s' s₁ s₂ : MqTable} {task task' : Pid} {name name' : List Byte} {oflag oflag' : Word}
  {attr attr' : Option MqAttr} {newMq buf newMq' buf' : Option Word}
  {links links' : Cells (MqList ⊕ Nat)} {elements elements' : Nat → MqData} {mqdes mqdes' : Nat}

theorem sysMqOpen_ok (h : s.sysMqOpen task name oflag attr newMq buf links elements =
      some (s', .ok mqdes)) :
    s'.bitmapMqds mqdes = true ∧ s'.taskMqds task mqdes = true ∧
      (s'.mqdTable mqdes).attr = openAttr oflag attr := by
  rw [sysMqOpen] at h
  split at h
  · cases h
  · split at h
    · split at h
      · cases h
      · cases h
        simp [register]
    · split at h
      · cases h
      · obtain ⟨allocated, -, h⟩ := Option.bind_eq_some_iff.mp h
        cases allocated with
        | none => cases h
        | some mq =>
            cases h
            simp [register]

/-- The lengths that `sys_mq_send` and then `__mq_send` let through to the queue at `mq`. -/
def Accepts (s : MqTable) (task : Pid) (mqdes : Nat) (mq len : Word) : Prop :=
  ∃ prio desc, s.sysMqSendEnter task mqdes len prio = .ok desc ∧ desc.mq = mq ∧
    Mqueue.unwritable desc.attr = false ∧ ¬ desc.attr.msgsize < len

def emptyTable : MqTable :=
  ⟨[], fun _ => ⟨0#32, 0#32, 0#32, ⟨id, id⟩, fun _ => ⟨0#32, fun _ => 0#8⟩, 0#32⟩, fun _ => false,
    fun _ _ => false, fun _ => ⟨0#32, ⟨0#32, 0#32, 0#32⟩⟩⟩

end MqTable

end Tenok
