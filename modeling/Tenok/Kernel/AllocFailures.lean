import Tenok.Kernel.MqueueOpen
import Tenok.Kernel.ThreadStack

/-!
`kfifo_alloc`, `__mq_allocate` and `sys_mq_open` when `kmalloc` fails. Each of the first two asks for
two blocks. `kmalloc` may answer a request in any way, whatever its size, which is a product that
wraps around. A write through NULL is recorded, and the code goes on.
-/
namespace Tenok

def sizeofMqueue : Word := 124#32

/-- The blocks that an operation has got and not given back, with the sizes that it asked for. -/
structure HeapUse where
  held : List (Word × Word) := []
  nullWritten : Bool := false
  deriving DecidableEq, Repr

namespace HeapUse

def kmalloc (u : HeapUse) (size : Word) (answer : Option Word) : HeapUse :=
  match answer with
  | none => u
  | some ptr => { u with held := (ptr, size) :: u.held }

def kfree (u : HeapUse) (ptr : Word) : HeapUse :=
  { u with held := u.held.filter fun block => block.1 ≠ ptr }

/-- A write to the structure at the address that `kmalloc` gave. -/
def write (u : HeapUse) (ptr : Option Word) : HeapUse :=
  { u with nullWritten := u.nullWritten || ptr.isNone }

/-- Nothing is held, and nothing was written through NULL. -/
def Clean (u : HeapUse) : Prop := u.held = [] ∧ u.nullWritten = false

instance (u : HeapUse) : Decidable u.Clean := inferInstanceAs (Decidable (_ ∧ _))

end HeapUse

def kfifoPayloadSize (esize : Word) : Word :=
  if 1#32 < esize then BitVec.ofNat 32 kfifoHdrSize + esize else 1#32

/-- `kfifo_alloc` where `kmalloc` gives `fifo` for the object and `data` for the buffer, with the
contents `memory`. -/
def kfifoAlloc (fifo data : Option Word) (memory : Nat → Byte) (esize size : Word) :
    HeapUse × Option (Word × Kfifo) :=
  let u : HeapUse := HeapUse.kmalloc {} (BitVec.ofNat 32 sizeofKfifo) fifo
  match fifo with
  | none => (u, none)
  | some addr =>
      let u := (u.write fifo).kmalloc (kfifoPayloadSize esize * size) data
      match data with
      | none => (u, none)
      | some _ => (u.write fifo, some (addr, .kfifoInit memory esize.toNat size.toNat))

/-- `__mq_allocate`. Its `memset` comes before the test, and so does the second request. -/
def mqAllocate (newMq buf : Option Word) (links : Ring.Cells (MqList ⊕ Nat))
    (elements : Nat → MqData) (attr : MqAttr) : HeapUse × Option Mqueue :=
  let u := (HeapUse.kmalloc {} sizeofMqueue newMq).write newMq
  let u := u.kmalloc (mqBufSize attr) buf
  match newMq, buf with
  | none, _ => (u, none)
  | some mq, none => (u.kfree mq, none)
  | some _, some buf => (u.write newMq, some
      { buf, size := attr.maxmsg, cnt := 0#32, elements, elementSize := mqElementSize attr
        links := Mqueue.linkElements (Mqueue.initLists links) attr.maxmsg.toNat })

namespace MqTable

def mqOpen (s : MqTable) (task : Pid) (name : List Byte) (oflag : Word) (attr : Option MqAttr)
    (newMq buf : Option Word) (links : Ring.Cells (MqList ⊕ Nat)) (elements : Nat → MqData) :
    HeapUse × MqTable × Except Errno Nat :=
  match (List.range mqueueMax).find? fun d => !s.bitmapMqds d with
  | none => ({}, s, .error .enomem)
  | some mqdes =>
      match s.acquireMqueue name with
      | some mq =>
          if oflag &&& oCreat ≠ 0#32 ∧ oflag &&& oExcl ≠ 0#32 then ({}, s, .error .eexist)
          else ({}, s.register task mqdes ⟨mq, openAttr oflag attr⟩, .ok mqdes)
      | none =>
          if oflag &&& oCreat = 0#32 then ({}, s, .error .enoent)
          else
            let (u, allocated) := mqAllocate newMq buf links elements (attr.getD defaultAttr)
            match allocated with
            | none => (u, s, .error .enomem)
            | some mq =>
                let addr := newMq.getD 0#32
                let s := { s with
                  mqs := Function.update s.mqs addr mq
                  mqueueList := s.mqueueList ++ [(name.take (nameMax - 1), addr)] }
                (u, s.register task mqdes ⟨addr, openAttr oflag attr⟩, .ok mqdes)

end MqTable

variable {s : MqTable} {task : Pid} {name : List Byte} {oflag : Word} {attr : MqAttr}
  {newMq buf fifo data : Option Word} {links : Ring.Cells (MqList ⊕ Nat)} {elements : Nat → MqData}

theorem mqAllocate_eq (newMq buf : Option Word) (links : Ring.Cells (MqList ⊕ Nat))
    (elements : Nat → MqData) (attr : MqAttr) :
    Mqueue.mqAllocate newMq buf links elements attr =
      if (mqAllocate newMq buf links elements attr).1.nullWritten then none
      else some (mqAllocate newMq buf links elements attr).2 := by
  cases newMq with
  | none =>
      cases buf with
      | none => rfl
      | some b => rfl
  | some mq =>
      cases buf with
      | none => rfl
      | some b => rfl

namespace MqTable

/-- The call fails or finds a queue, and asks for no memory. -/
def NoRequest (s : MqTable) (name : List Byte) (oflag : Word) : Prop :=
  (∀ d < mqueueMax, s.bitmapMqds d = true) ∨ s.acquireMqueue name ≠ none ∨ oflag &&& oCreat = 0#32

/-- Without a request nothing is allocated, and only a call that succeeds changes the table. -/
theorem mqOpen_noRequest (h : s.NoRequest name oflag) (task : Pid) (attr : Option MqAttr)
    (newMq buf : Option Word) (links : Ring.Cells (MqList ⊕ Nat)) (elements : Nat → MqData) :
    (s.mqOpen task name oflag attr newMq buf links elements).1 = {} ∧
      s.sysMqOpen task name oflag attr newMq buf links elements =
        some (s.mqOpen task name oflag attr newMq buf links elements).2 ∧
      ∀ e, (s.mqOpen task name oflag attr newMq buf links elements).2.2 = .error e →
        (s.mqOpen task name oflag attr newMq buf links elements).2.1 = s := by
  cases hd : (List.range mqueueMax).find? fun d => !s.bitmapMqds d with
  | none =>
      simp only [mqOpen, sysMqOpen, hd]
      exact ⟨trivial, trivial, fun _ _ => trivial⟩
  | some d =>
      cases hname : s.acquireMqueue name with
      | some mq =>
          simp only [mqOpen, sysMqOpen, hd, hname]
          split
          · exact ⟨rfl, rfl, fun _ _ => rfl⟩
          · exact ⟨rfl, rfl, fun _ he => (by cases he)⟩
      | none =>
          obtain hfull | hfound | hcreat := h
          · have hset := hfull d (List.mem_range.mp (List.mem_of_find?_eq_some hd))
            simpa [hset] using List.find?_some hd
          · exact absurd hname hfound
          · simp only [mqOpen, sysMqOpen, hd, hname, if_pos hcreat]
            exact ⟨trivial, trivial, fun _ _ => trivial⟩

/-- With a request a descriptor is free, the name is unknown and a queue is to be created. -/
theorem request_of_not (h : ¬ s.NoRequest name oflag) :
    ∃ d, (List.range mqueueMax).find? (fun d => !s.bitmapMqds d) = some d ∧
      s.acquireMqueue name = none ∧ oflag &&& oCreat ≠ 0#32 := by
  obtain ⟨hfull, hrest⟩ := not_or.mp h
  obtain ⟨hname, hcreat⟩ := not_or.mp hrest
  rw [not_not] at hname
  cases hd : (List.range mqueueMax).find? fun d => !s.bitmapMqds d with
  | none =>
      refine absurd (fun d hlt => ?_) hfull
      simpa using List.find?_eq_none.mp hd d (List.mem_range.mpr hlt)
  | some d => exact ⟨d, rfl, hname, hcreat⟩

theorem mqOpen_request (h : ¬ s.NoRequest name oflag) (task : Pid) (attr : Option MqAttr)
    (newMq buf : Option Word) (links : Ring.Cells (MqList ⊕ Nat)) (elements : Nat → MqData) :
    (s.mqOpen task name oflag attr newMq buf links elements).1 =
        (mqAllocate newMq buf links elements (attr.getD defaultAttr)).1 ∧
      ((mqAllocate newMq buf links elements (attr.getD defaultAttr)).2 = none →
        (s.mqOpen task name oflag attr newMq buf links elements).2 = (s, .error .enomem)) ∧
      ((mqAllocate newMq buf links elements (attr.getD defaultAttr)).2 ≠ none →
        ∃ d, (s.mqOpen task name oflag attr newMq buf links elements).2.2 = .ok d) := by
  obtain ⟨d, hd, hname, hcreat⟩ := request_of_not h
  simp only [mqOpen, hd, hname, if_neg hcreat]
  cases (mqAllocate newMq buf links elements (attr.getD defaultAttr)).2 with
  | none => exact ⟨rfl, fun _ => rfl, fun hne => absurd rfl hne⟩
  | some mq => exact ⟨rfl, fun hnone => (by cases hnone), fun _ => ⟨d, rfl⟩⟩

theorem sysMqOpen_eq (s : MqTable) (task : Pid) (name : List Byte) (oflag : Word)
    (attr : Option MqAttr) (newMq buf : Option Word) (links : Ring.Cells (MqList ⊕ Nat))
    (elements : Nat → MqData) : s.sysMqOpen task name oflag attr newMq buf links elements =
      if (s.mqOpen task name oflag attr newMq buf links elements).1.nullWritten then none
      else some (s.mqOpen task name oflag attr newMq buf links elements).2 := by
  by_cases h : s.NoRequest name oflag
  · obtain ⟨huse, heq, -⟩ := mqOpen_noRequest h task attr newMq buf links elements
    rw [heq, huse]
    rfl
  · obtain ⟨huse, -⟩ := mqOpen_request h task attr newMq buf links elements
    obtain ⟨d, hd, hname, hcreat⟩ := request_of_not h
    rw [huse]
    simp only [sysMqOpen, mqOpen, hd, hname, if_neg hcreat, mqAllocate_eq]
    cases newMq with
    | none =>
        cases buf with
        | none => rfl
        | some b => rfl
    | some mq =>
        cases buf with
        | none => rfl
        | some b => rfl

end MqTable

theorem kfifoAlloc_clean_iff (fifo data : Option Word) (memory : Nat → Byte) (esize size : Word) :
    ((kfifoAlloc fifo data memory esize size).2 = none →
      (kfifoAlloc fifo data memory esize size).1.Clean) ↔ (fifo = none ∨ data ≠ none) := by
  cases fifo with
  | none => exact iff_of_true (fun _ => ⟨rfl, rfl⟩) (Or.inl rfl)
  | some addr =>
      cases data with
      | none =>
          refine iff_of_false (fun h => ?_) (by simp)
          cases (h rfl).1
      | some buf => exact iff_of_true (fun h => (by cases h)) (Or.inr (by simp))

/-- `__mq_allocate` clears a queue that it does not have, and keeps the buffer that it then gets. It
gives a queue back when there is no buffer for it. -/
theorem mqAllocate_clean_iff (newMq buf : Option Word) (links : Ring.Cells (MqList ⊕ Nat))
    (elements : Nat → MqData) (attr : MqAttr) :
    ((mqAllocate newMq buf links elements attr).2 = none →
      (mqAllocate newMq buf links elements attr).1.Clean) ↔ newMq ≠ none := by
  cases newMq with
  | none =>
      refine iff_of_false (fun h => ?_) (by simp)
      cases buf with
      | none => cases (h rfl).2
      | some b => cases (h rfl).2
  | some mq =>
      cases buf with
      | none =>
          refine iff_of_true (fun _ => ⟨?_, rfl⟩) (by simp)
          simp [mqAllocate, HeapUse.kmalloc, HeapUse.write, HeapUse.kfree]
      | some b => exact iff_of_true (fun h => (by cases h)) (by simp)

/-- What a failed `sys_mq_open` should leave as it was. -/
def MqTable.SameQueues (s s' : MqTable) : Prop :=
  s'.mqueueList = s.mqueueList ∧ s'.bitmapMqds = s.bitmapMqds ∧ s'.taskMqds = s.taskMqds

theorem mqOpen_clean_iff (s : MqTable) (task : Pid) (name : List Byte) (oflag : Word)
    (attr : Option MqAttr) (newMq buf : Option Word) (links : Ring.Cells (MqList ⊕ Nat))
    (elements : Nat → MqData) :
    (∀ e, (s.mqOpen task name oflag attr newMq buf links elements).2.2 = .error e →
      (s.mqOpen task name oflag attr newMq buf links elements).1.Clean ∧
        s.SameQueues (s.mqOpen task name oflag attr newMq buf links elements).2.1) ↔
      (s.NoRequest name oflag ∨ newMq ≠ none) := by
  by_cases h : s.NoRequest name oflag
  · obtain ⟨huse, -, hsame⟩ := MqTable.mqOpen_noRequest h task attr newMq buf links elements
    refine iff_of_true (fun e he => ?_) (Or.inl h)
    rw [huse, hsame e he]
    exact ⟨⟨rfl, rfl⟩, rfl, rfl, rfl⟩
  · obtain ⟨huse, hfails, hserves⟩ := MqTable.mqOpen_request h task attr newMq buf links elements
    have hmq := mqAllocate_clean_iff newMq buf links elements (attr.getD MqTable.defaultAttr)
    rw [or_iff_right h, ← hmq, huse]
    constructor
    · intro hclean hnone
      exact (hclean .enomem (by rw [hfails hnone])).1
    · intro hclean e he
      by_cases hnone : (mqAllocate newMq buf links elements (attr.getD MqTable.defaultAttr)).2 = none
      · rw [hfails hnone]
        exact ⟨hclean hnone, rfl, rfl, rfl⟩
      · obtain ⟨d, hd⟩ := hserves hnone
        cases hd.symm.trans he

/-- When one of the three fails it has given back what it got, and no write went through NULL: of
`kfifo_alloc` exactly when it does not get the first of its blocks alone, of the others exactly when
the queue itself is not what they do not get. -/
theorem allocFailures_clean_iff (fifo data : Option Word) (memory : Nat → Byte)
    (esize size : Word) (s : MqTable) (task : Pid) (name : List Byte) (oflag : Word)
    (attr : MqAttr) (openAttr : Option MqAttr) (newMq buf : Option Word)
    (links : Ring.Cells (MqList ⊕ Nat)) (elements : Nat → MqData) :
    (((kfifoAlloc fifo data memory esize size).2 = none →
      (kfifoAlloc fifo data memory esize size).1.Clean) ↔ (fifo = none ∨ data ≠ none)) ∧
    (((mqAllocate newMq buf links elements attr).2 = none →
      (mqAllocate newMq buf links elements attr).1.Clean) ↔ newMq ≠ none) ∧
    ((∀ e, (s.mqOpen task name oflag openAttr newMq buf links elements).2.2 = .error e →
      (s.mqOpen task name oflag openAttr newMq buf links elements).1.Clean ∧
        s.SameQueues (s.mqOpen task name oflag openAttr newMq buf links elements).2.1) ↔
      (s.NoRequest name oflag ∨ newMq ≠ none)) :=
  ⟨kfifoAlloc_clean_iff fifo data memory esize size,
    mqAllocate_clean_iff newMq buf links elements attr,
    mqOpen_clean_iff s task name oflag openAttr newMq buf links elements⟩

/-- The elements of a queue in memory that was never used. -/
def zeroElements : Nat → MqData := fun _ => ⟨0#32, fun _ => 0#8⟩

/-- A FIFO of 100 bytes without its buffer stays allocated. For a queue without memory zeros are
written to address 0, and the buffer of its elements stays. -/
theorem allocFailures_not_clean :
    (kfifoAlloc (some 8#32) none (fun _ => 0#8) 1#32 100#32).2 = none ∧
    (kfifoAlloc (some 8#32) none (fun _ => 0#8) 1#32 100#32).1 = ⟨[(8#32, 32#32)], false⟩ ∧
    (mqAllocate none (some 8#32) ⟨id, id⟩ zeroElements MqTable.defaultAttr).2 = none ∧
    (mqAllocate none (some 8#32) ⟨id, id⟩ zeroElements MqTable.defaultAttr).1 =
      ⟨[(8#32, 960#32)], true⟩ ∧
    (MqTable.emptyTable.mqOpen 0 [97#8] oCreat none none (some 8#32) ⟨id, id⟩ zeroElements).2.2 =
      .error .enomem ∧
    ¬ (MqTable.emptyTable.mqOpen 0 [97#8] oCreat none none (some 8#32) ⟨id, id⟩
      zeroElements).1.Clean := by
  refine ⟨rfl, rfl, rfl, rfl, ?_, ?_⟩
  · decide +kernel
  · decide +kernel

end Tenok
