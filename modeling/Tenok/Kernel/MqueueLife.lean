import Tenok.Kernel.MqueueOpen
import Tenok.Kernel.MqueueRuns
import Tenok.Kernel.Steady

/-!
How long a message queue lives: the memory of the queues on `mqueue_list` and of those
that descriptors refer to. `sys_mq_unlink` frees a queue and leaves it on the list. A call
that follows a pointer to freed memory is a fault, and so is one that writes behind an element
or behind the buffer of a queue.
-/
namespace Tenok
open Ring

/-- The bits of a bitmap for `MQUEUE_MAX` descriptors. -/
def mqdsBits : Nat := 64

namespace MqTable

def sysMqClose (s : MqTable) (task : Pid) (mqdes : Nat) : MqTable × Except Errno Unit :=
  if !s.bitmapMqds mqdes || !s.taskMqds task mqdes then (s, .error .ebadf)
  else ({ s with
      bitmapMqds := Function.update s.bitmapMqds mqdes false
      taskMqds := Function.update s.taskMqds task
        (Function.update (s.taskMqds task) mqdes false) }, .ok ())

def sysMqUnlinkEnter (s : MqTable) (name : List Byte) : Except Errno Word :=
  if nameMax ≤ name.length then .error .enametoolong
  else match s.acquireMqueue name with
    | none => .error .enoent
    | some mq => .ok mq

def sysMqReceiveEnter (s : MqTable) (task : Pid) (mqdes : Nat) (msgLen : Word) :
    Except Errno MqDesc :=
  if !s.bitmapMqds mqdes || !s.taskMqds task mqdes then .error .ebadf
  else if (s.mqdTable mqdes).attr.msgsize < msgLen then .error .emsgsize
  else .ok (s.mqdTable mqdes)

/-- The queues that `acquire_mqueue` looks at: it stops at the one it finds. -/
def visited (s : MqTable) (name : List Byte) : List Word :=
  let differs := fun mq : List Byte × Word => decide (name.take nameMax ≠ mq.1.take nameMax)
  (s.mqueueList.takeWhile differs ++ (s.mqueueList.dropWhile differs).take 1).map Prod.snd

end MqTable

/-- The arguments of a call of `mq_send` or `mq_receive` inside its loop. Each pass reads
the attributes of the descriptor again. -/
inductive MqRequest
  | send (msgPtr : Nat → Byte) (msgLen : Word) (msgPrio : MqPrio)
  | receive (msgLen : Word) (msgPrio : Bool)

namespace MqRequest

/-- A pass of the loop on the queue with number `q`. It is a fault to store a message that does
not fit its element. -/
def serve (k : Kernel) (q : Nat) (mq : Mqueue) (attr : MqAttr) :
    MqRequest → Option (Kernel × Mqueue × Bool)
  | .send msgPtr msgLen msgPrio => do
      let (k, mq', r) ← Mqueue.mqSend k q mq attr msgPtr msgLen msgPrio
      if r.isOk ∧ ¬ mq.Fits msgLen then none else some (k, mq', Mqueue.restart r)
  | .receive msgLen msgPrio => do
      let (k, mq, r) ← Mqueue.mqReceive k q mq attr msgLen msgPrio
      some (k, mq, Mqueue.restart r)

end MqRequest

/-- A thread inside the loop of a call: the queue and the descriptor it went in with. -/
structure MqCaller where
  mq : Word
  mqdes : Nat
  request : MqRequest

/-- The message queues with the memory they are in. -/
structure MqHeap where
  kernel : Kernel
  table : MqTable
  /-- The blocks that `kmalloc` gave out and that were not passed to `kfree`. -/
  allocated : Word → Bool
  calls : Tid → Option MqCaller
  /-- Names that were unlinked and not given to a new queue since. -/
  unlinked : List (List Byte)

inductive MqHeapEvent
  /-- `sys_mq_open` with the answers of `kmalloc`. -/
  | mqOpen (name : List Byte) (oflag : Word) (attr : Option MqAttr) (newMq buf : Option Word)
      (links : Cells (MqList ⊕ Nat)) (elements : Nat → MqData)
  | mqClose (mqdes : Nat)
  | mqUnlink (name : List Byte)
  | mqSend (mqdes : Nat) (msgPtr : Nat → Byte) (msgLen msgPrio : Word)
  | mqReceive (mqdes : Nat) (msgLen : Word) (msgPrio : Bool)
  /-- A call that was queued goes on after its `schedule`. -/
  | retry
  | background (b : Kernel.Background)

namespace MqHeap

def running (s : MqHeap) : Tid := s.kernel.runningThread

/-- The memory of the queue at this address is allocated. -/
def Live (s : MqHeap) (mq : Word) : Prop :=
  s.allocated mq = true ∧ s.allocated (s.table.mqs mq).buf = true

instance decidableLive (s : MqHeap) (mq : Word) : Decidable (s.Live mq) :=
  inferInstanceAs (Decidable (_ ∧ _))

/-- `kmalloc` gives out two blocks that are not in use. -/
def Fresh (s : MqHeap) (newMq buf : Option Word) : Prop :=
  newMq.all (fun mq => !s.allocated mq) ∧ buf.all fun b => !s.allocated b && some b ≠ newMq

instance decidableFresh (s : MqHeap) (newMq buf : Option Word) : Decidable (s.Fresh newMq buf) :=
  inferInstanceAs (Decidable (_ ∧ _))

/-- The elements of a queue that is created lie in the block for them. -/
def Laid (s : MqHeap) (name : List Byte) (attr : Option MqAttr) (buf : Option Word) : Prop :=
  s.table.acquireMqueue name = none → buf.isSome → LaidOut (attr.getD MqTable.defaultAttr)

instance decidableLaid (s : MqHeap) (name : List Byte) (attr : Option MqAttr) (buf : Option Word) :
    Decidable (s.Laid name attr buf) :=
  inferInstanceAs (Decidable (_ → _ → _))

/-- What `sys_mq_open` leaves behind. If it linked a new queue, both blocks are in use, the
wait lists of the queue are empty and its name is taken again. -/
def opened (s : MqHeap) (table : MqTable) (name : List Byte) (newMq buf : Option Word) : MqHeap :=
  if table.mqueueList.length = s.table.mqueueList.length then { s with table }
  else
    let q := (newMq.getD 0#32).toNat
    let links := initListHead s.kernel.links (Sum.inl (SchedList.wait (.mqueueRead q)))
    let links := initListHead links (Sum.inl (SchedList.wait (.mqueueWrite q)))
    { s with
      kernel := { s.kernel with links }
      table := table
      allocated := fun a => s.allocated a || some a = newMq || some a = buf
      unlinked := s.unlinked.filter fun n => n.take nameMax ≠ name.take (nameMax - 1) }

/-- `__mq_free`. The queue stays on `mqueue_list`. -/
def mqFree (s : MqHeap) (mq : Word) : MqHeap :=
  { s with allocated := fun a => s.allocated a && a ≠ (s.table.mqs mq).buf && a ≠ mq }

def attempt (s : MqHeap) (c : MqCaller) : Option MqHeap :=
  if s.Live c.mq then do
    let (kernel, mq, again) ← c.request.serve s.kernel c.mq.toNat (s.table.mqs c.mq)
      (s.table.mqdTable c.mqdes).attr
    some { s with
      kernel := kernel
      table := { s.table with mqs := Function.update s.table.mqs c.mq mq }
      calls := Function.update s.calls s.running (if again then some c else none) }
  else none

def enter (s : MqHeap) (mqdes : Nat) (r : MqRequest) : Except Errno MqDesc → Option MqHeap
  | .error _ => some s
  | .ok desc => s.attempt ⟨desc.mq, mqdes, r⟩

def call (s : MqHeap) (task : Pid) : MqHeapEvent → Option MqHeap
  | .mqOpen name oflag attr newMq buf links elements =>
      if (s.table.visited name).all s.allocated ∧ s.Fresh newMq buf ∧ s.Laid name attr buf then do
        let (table, _) ← s.table.sysMqOpen task name oflag attr newMq buf links elements
        some (s.opened table name newMq buf)
      else none
  | .mqClose mqdes =>
      if mqdes < mqdsBits then some { s with table := (s.table.sysMqClose task mqdes).1 } else none
  | .mqUnlink name =>
      if nameMax ≤ name.length ∨ (s.table.visited name).all s.allocated then
        match s.table.sysMqUnlinkEnter name with
        | .error _ => some s
        | .ok mq => some { s.mqFree mq with unlinked := name :: s.unlinked }
      else none
  | .mqSend mqdes msgPtr msgLen msgPrio =>
      if mqdes < mqdsBits then
        s.enter mqdes (.send msgPtr msgLen (Fin.ofNat _ msgPrio.toNat))
          (s.table.sysMqSendEnter task mqdes msgLen msgPrio)
      else none
  | .mqReceive mqdes msgLen msgPrio =>
      if mqdes < mqdsBits then
        s.enter mqdes (.receive msgLen msgPrio) (s.table.sysMqReceiveEnter task mqdes msgLen)
      else none
  | .retry => none
  | .background _ => none

def step (s : MqHeap) : MqHeapEvent → Option MqHeap
  | .retry => if s.kernel.Unqueued then (s.calls s.running).bind s.attempt else none
  | .background b =>
      (s.kernel.background (s.calls s.running).isNone b).map fun kernel => { s with kernel }
  | e =>
      if s.kernel.Unqueued ∧ (s.calls s.running).isNone then
        s.kernel.currentTaskInfo.bind fun task => s.call task e
      else none

/-- There is no queue yet and no descriptor. -/
structure Started (s : MqHeap) : Prop where
  mqueueList : s.table.mqueueList = []
  bitmapMqds : ∀ d, s.table.bitmapMqds d = false
  calls : ∀ t, s.calls t = none
  unlinked : s.unlinked = []

/-- The queues on the list and those that descriptors refer to are in allocated memory, and
names that were unlinked are not found. -/
structure QueuesLive (s : MqHeap) : Prop where
  listed : ∀ mq ∈ s.table.mqueueList, s.Live mq.2
  opened : ∀ d, s.table.bitmapMqds d = true → s.Live (s.table.mqdTable d).mq
  unlinked : ∀ name ∈ s.unlinked, s.table.acquireMqueue name = none

/-- `sys_mq_unlink` has nothing to remove: the name is too long or there is no such queue. -/
def UnlinkOk (s : MqHeap) : MqHeapEvent → Prop
  | .mqUnlink name => nameMax ≤ name.length ∨ s.table.acquireMqueue name = none
  | _ => True

instance decidableUnlinkOk (s : MqHeap) : (e : MqHeapEvent) → Decidable (s.UnlinkOk e)
  | .mqUnlink _ => inferInstanceAs (Decidable (_ ∨ _))
  | .mqOpen _ _ _ _ _ _ _ | .mqClose _ | .mqSend _ _ _ _ | .mqReceive _ _ _ | .retry
  | .background _ => inferInstanceAs (Decidable True)

end MqHeap

namespace MqTable
variable {s s' : MqTable} {task : Pid} {name : List Byte} {oflag : Word} {attr : Option MqAttr}
  {newMq buf : Option Word} {links : Cells (MqList ⊕ Nat)} {elements : Nat → MqData}
  {r : Except Errno Nat} {d : Nat} {desc : MqDesc}

/-- What `sys_mq_open` does to the table: nothing, a descriptor of a queue that it found, or a
new queue with a descriptor. -/
theorem sysMqOpen_cases
    (h : s.sysMqOpen task name oflag attr newMq buf links elements = some (s', r)) :
    s' = s ∨
    (∃ d desc, s.acquireMqueue name = some desc.mq ∧ s' = s.register task d desc) ∨
    ∃ d mq b q flags, s.acquireMqueue name = none ∧ newMq = some mq ∧ buf = some b ∧
      q.buf = b ∧
      s' = { s with
        mqs := Function.update s.mqs mq q
        mqueueList := s.mqueueList ++ [(name.take (nameMax - 1), mq)] }.register task d
          ⟨mq, flags⟩ := by
  rw [sysMqOpen] at h
  split at h
  · cases h
    exact Or.inl rfl
  · next d _ =>
      split at h
      · next mq hmq =>
          split at h
          · cases h
            exact Or.inl rfl
          · cases h
            exact Or.inr (Or.inl ⟨d, ⟨mq, _⟩, hmq, rfl⟩)
      · next hnone =>
          split at h
          · cases h
            exact Or.inl rfl
          · obtain ⟨allocated, halloc, h⟩ := Option.bind_eq_some_iff.mp h
            cases newMq with
            | none => cases halloc
            | some mq =>
                obtain rfl := Option.some.inj halloc
                cases buf with
                | none =>
                    cases h
                    exact Or.inl rfl
                | some b =>
                    cases h
                    exact Or.inr (Or.inr ⟨d, mq, b, _, _, hnone, rfl, rfl, rfl, rfl⟩)

theorem mem_of_acquireMqueue {mq : Word} (h : s.acquireMqueue name = some mq) :
    ∃ n, (n, mq) ∈ s.mqueueList := by
  obtain ⟨⟨n, mq⟩, hfind, rfl⟩ := Option.map_eq_some_iff.mp h
  exact ⟨n, List.mem_of_find?_eq_some hfind⟩

theorem acquireMqueue_append {n m : List Byte} {mq : Word} (h : s.acquireMqueue n = none)
    (hne : n.take nameMax ≠ m.take nameMax) :
    { s with mqueueList := s.mqueueList ++ [(m, mq)] }.acquireMqueue n = none := by
  rw [acquireMqueue, Option.map_eq_none_iff, List.find?_eq_none] at h ⊢
  intro q hq
  obtain hq | rfl := by simpa using hq
  · exact h q hq
  · simpa using hne

theorem sysMqClose_bitmap {task : Pid} {mqdes : Nat}
    (h : (s.sysMqClose task mqdes).1.bitmapMqds d = true) : s.bitmapMqds d = true := by
  rw [sysMqClose] at h
  split at h
  · exact h
  · by_cases hd : d = mqdes
    · simp [hd] at h
    · simpa [hd] using h

theorem sysMqClose_rest (s : MqTable) (task : Pid) (mqdes : Nat) :
    (s.sysMqClose task mqdes).1 = { s with
      bitmapMqds := (s.sysMqClose task mqdes).1.bitmapMqds
      taskMqds := (s.sysMqClose task mqdes).1.taskMqds } := by
  rw [sysMqClose]
  split <;> rfl

end MqTable

namespace MqRequest
variable {k k' : Kernel} {q : Nat} {mq mq' : Mqueue} {attr : MqAttr} {msgLen : Word}

theorem mqSend_buf {msgPtr : Nat → Byte} {msgPrio : MqPrio} {r : Except Errno Unit}
    (h : Mqueue.mqSend k q mq attr msgPtr msgLen msgPrio = some (k', mq', r)) :
    mq'.buf = mq.buf := by
  simp only [Mqueue.mqSend] at h
  split at h
  · obtain ⟨-, rfl, -⟩ := h
    rfl
  · split at h
    · obtain ⟨-, rfl, -⟩ := h
      rfl
    · split at h
      · obtain ⟨-, rfl, -⟩ := h
        rfl
      · obtain ⟨mq₁, hin, h⟩ := Option.bind_eq_some_iff.mp h
        obtain ⟨k₁, -, h⟩ := Option.bind_eq_some_iff.mp h
        obtain ⟨element, -, hin⟩ := Option.bind_eq_some_iff.mp hin
        cases hin
        obtain ⟨-, rfl, -⟩ := h
        rfl

theorem mqReceive_buf {msgPrio : Bool} {r : Except Errno Mqueue.MqMessage}
    (h : Mqueue.mqReceive k q mq attr msgLen msgPrio = some (k', mq', r)) :
    mq'.buf = mq.buf := by
  simp only [Mqueue.mqReceive] at h
  split at h
  · obtain ⟨-, rfl, -⟩ := h
    rfl
  · split at h
    · obtain ⟨-, rfl, -⟩ := h
      rfl
    · split at h
      · obtain ⟨-, rfl, -⟩ := h
        rfl
      · obtain ⟨⟨mq₁, msg⟩, hout, h⟩ := Option.bind_eq_some_iff.mp h
        obtain ⟨k₁, -, h⟩ := Option.bind_eq_some_iff.mp h
        obtain ⟨prio, -, hout⟩ := Option.bind_eq_some_iff.mp hout
        obtain ⟨element, -, hout⟩ := Option.bind_eq_some_iff.mp hout
        cases hout
        obtain ⟨-, rfl, -⟩ := h
        rfl

theorem serve_buf {r : MqRequest} {again : Bool}
    (h : r.serve k q mq attr = some (k', mq', again)) : mq'.buf = mq.buf := by
  cases r with
  | send msgPtr msgLen msgPrio =>
      obtain ⟨⟨k₁, mq₁, r⟩, hsend, h⟩ := Option.bind_eq_some_iff.mp h
      obtain ⟨-, heq⟩ := Option.ite_none_left_eq_some.mp h
      cases heq
      exact mqSend_buf hsend
  | receive msgLen msgPrio =>
      obtain ⟨⟨k₁, mq₁, r⟩, hreceive, h⟩ := Option.bind_eq_some_iff.mp h
      cases h
      exact mqReceive_buf hreceive

end MqRequest

namespace MqHeap
variable {s s' : MqHeap} {e : MqHeapEvent} {mq : Word} {name : List Byte}
  {newMq buf : Option Word}

/-- A step that keeps the queues, their names and the allocated memory, and opens no
descriptor. -/
theorem QueuesLive.of_same (h : QueuesLive s)
    (hlist : s'.table.mqueueList = s.table.mqueueList) (hunlinked : s'.unlinked = s.unlinked)
    (hlive : ∀ mq, s.Live mq → s'.Live mq)
    (hopen : ∀ d, s'.table.bitmapMqds d = true →
      s.table.bitmapMqds d = true ∧ s'.table.mqdTable d = s.table.mqdTable d) :
    QueuesLive s' := by
  refine ⟨fun mq hmq => hlive _ (h.listed mq (hlist ▸ hmq)), fun d hd => ?_,
    fun name hname => ?_⟩
  · obtain ⟨hd, hdesc⟩ := hopen d hd
    rw [hdesc]
    exact hlive _ (h.opened d hd)
  · rw [MqTable.acquireMqueue, hlist]
    exact h.unlinked name (hunlinked ▸ hname)

theorem QueuesLive.register {task : Pid} {d : Nat} {desc : MqDesc} (h : QueuesLive s)
    (hlive : s.Live desc.mq) : QueuesLive { s with table := s.table.register task d desc } := by
  refine ⟨h.listed, fun d' hd' => ?_, h.unlinked⟩
  by_cases hd : d' = d
  · subst hd
    have hdesc : (s.table.register task d' desc).mqdTable d' = desc := Function.update_self ..
    rw [hdesc]
    exact hlive
  · have hopen : s.table.bitmapMqds d' = true := by simpa [MqTable.register, hd] using hd'
    have hdesc : (s.table.register task d desc).mqdTable d' = s.table.mqdTable d' :=
      Function.update_of_ne hd ..
    rw [hdesc]
    exact h.opened d' hopen

theorem attempt_queuesLive {c : MqCaller} (h : QueuesLive s) (hstep : s.attempt c = some s') :
    QueuesLive s' := by
  simp only [attempt, Option.ite_none_right_eq_some, Option.bind_eq_bind,
    Option.bind_eq_some_iff, Option.some.injEq] at hstep
  obtain ⟨-, ⟨k, mq, again⟩, hserve, rfl⟩ := hstep
  refine h.of_same rfl rfl (fun a ha => ⟨ha.1, ?_⟩) fun d hd => ⟨hd, rfl⟩
  by_cases hmq : a = c.mq
  · subst hmq
    have hbuf := MqRequest.serve_buf hserve
    simpa [hbuf] using ha.2
  · simpa [hmq] using ha.2

theorem QueuesLive.linked {q : Mqueue} {b : Word} (h : QueuesLive s) (kernel : Kernel)
    (name : List Byte) (hfresh : s.Fresh (some mq) (some b)) (hbuf : q.buf = b) :
    QueuesLive { s with
      kernel := kernel
      table := { s.table with
        mqs := Function.update s.table.mqs mq q
        mqueueList := s.table.mqueueList ++ [(name.take (nameMax - 1), mq)] }
      allocated := fun a => s.allocated a || some a = some mq || some a = some b
      unlinked := s.unlinked.filter fun n => n.take nameMax ≠ name.take (nameMax - 1) } := by
  have hnew : s.allocated mq = false := by simpa using hfresh.1
  have hlive : ∀ a, s.Live a → a ≠ mq ∧ s.allocated a = true ∧
      s.allocated (s.table.mqs a).buf = true := by
    rintro a ⟨ha, hb⟩
    refine ⟨?_, ha, hb⟩
    rintro rfl
    exact absurd (hnew.symm.trans ha) (by decide)
  refine ⟨fun q' hq' => ?_, fun d hd => ?_, fun n hn => ?_⟩
  · obtain hq' | rfl := List.mem_append.mp hq' |>.imp_right List.mem_singleton.mp
    · obtain ⟨hne, ha, hb⟩ := hlive _ (h.listed q' hq')
      simp [Live, hne, ha, hb]
    · simp [Live, hbuf]
  · obtain ⟨hne, ha, hb⟩ := hlive _ (h.opened d hd)
    simp [Live, hne, ha, hb]
  · obtain ⟨hn, hne⟩ := List.mem_filter.mp hn
    refine MqTable.acquireMqueue_append (h.unlinked n hn) ?_
    have hcut : (name.take (nameMax - 1)).take nameMax = name.take (nameMax - 1) := by
      rw [List.take_take, Nat.min_eq_right (by decide)]
    rw [hcut]
    simpa using hne

theorem open_queuesLive {task : Pid} {oflag : Word} {attr : Option MqAttr}
    {links : Cells (MqList ⊕ Nat)} {elements : Nat → MqData} {table : MqTable}
    {r : Except Errno Nat} (h : QueuesLive s) (hfresh : s.Fresh newMq buf)
    (hopen : s.table.sysMqOpen task name oflag attr newMq buf links elements = some (table, r)) :
    QueuesLive (s.opened table name newMq buf) := by
  obtain rfl | ⟨d, desc, hmq, rfl⟩ | ⟨d, mq, b, q, flags, -, rfl, rfl, hbuf, rfl⟩ :=
    MqTable.sysMqOpen_cases hopen
  · rw [opened, if_pos rfl]
    exact h
  · obtain ⟨n, hmem⟩ := MqTable.mem_of_acquireMqueue hmq
    have hsame : (s.table.register task d desc).mqueueList.length = s.table.mqueueList.length := rfl
    rw [opened, if_pos hsame]
    exact h.register (h.listed _ hmem)
  · rw [opened, if_neg (by simp [MqTable.register])]
    have hlinked := fun kernel => h.linked kernel name hfresh hbuf
    exact (hlinked _).register ((hlinked s.kernel).listed (name.take (nameMax - 1), mq) (by simp))

theorem mqFree_not_live {unlinked : List (List Byte)} (hmq : s.table.acquireMqueue name = some mq) :
    ¬ QueuesLive { s.mqFree mq with unlinked } := by
  intro h
  obtain ⟨n, hmem⟩ := MqTable.mem_of_acquireMqueue hmq
  have hlive := (h.listed (n, mq) hmem).1
  simp [mqFree] at hlive

theorem enter_queuesLive {mqdes : Nat} {r : MqRequest} {found : Except Errno MqDesc}
    (h : QueuesLive s) (hstep : s.enter mqdes r found = some s') : QueuesLive s' := by
  cases found with
  | error e =>
      obtain rfl := Option.some.inj hstep
      exact h
  | ok desc => exact attempt_queuesLive h hstep

theorem call_queuesLive_iff {task : Pid} (h : QueuesLive s) (hstep : s.call task e = some s') :
    s.UnlinkOk e ↔ QueuesLive s' := by
  cases e with
  | mqOpen name oflag attr newMq buf links elements =>
      simp only [call, Option.ite_none_right_eq_some, Option.bind_eq_bind,
        Option.bind_eq_some_iff, Option.some.injEq] at hstep
      obtain ⟨⟨-, hfresh, -⟩, ⟨table, r⟩, hopen, rfl⟩ := hstep
      exact iff_of_true trivial (open_queuesLive h hfresh hopen)
  | mqClose mqdes =>
      simp only [call, Option.ite_none_right_eq_some, Option.some.injEq] at hstep
      obtain ⟨-, rfl⟩ := hstep
      have hrest := MqTable.sysMqClose_rest s.table task mqdes
      refine iff_of_true trivial (h.of_same (by rw [hrest]) rfl (fun mq hmq => ?_) fun d hd => ?_)
      · rw [Live, hrest]
        exact hmq
      · refine ⟨MqTable.sysMqClose_bitmap hd, ?_⟩
        rw [hrest]
  | mqUnlink name =>
      simp only [call, Option.ite_none_right_eq_some, MqTable.sysMqUnlinkEnter] at hstep
      obtain ⟨-, hstep⟩ := hstep
      split at hstep
      · next hname =>
          split at hname
          · next hlong =>
              obtain rfl := Option.some.inj hstep
              exact iff_of_true (Or.inl hlong) h
          · split at hname
            · next hnone =>
                obtain rfl := Option.some.inj hstep
                exact iff_of_true (Or.inr hnone) h
            · cases hname
      · next mq hname =>
          split at hname
          · cases hname
          · next hshort =>
              split at hname
              · cases hname
              · next hmq =>
                  obtain rfl := Except.ok.inj hname
                  obtain rfl := Option.some.inj hstep
                  refine iff_of_false ?_ (mqFree_not_live hmq)
                  rintro (hlong | hnone)
                  · exact hshort hlong
                  · exact absurd (hnone.symm.trans hmq) (by simp)
  | mqSend mqdes msgPtr msgLen msgPrio =>
      simp only [call, Option.ite_none_right_eq_some] at hstep
      exact iff_of_true trivial (enter_queuesLive h hstep.2)
  | mqReceive mqdes msgLen msgPrio =>
      simp only [call, Option.ite_none_right_eq_some] at hstep
      exact iff_of_true trivial (enter_queuesLive h hstep.2)
  | retry => cases hstep
  | background b => cases hstep

theorem step_queuesLive_iff (h : QueuesLive s) (hstep : s.step e = some s') :
    s.UnlinkOk e ↔ QueuesLive s' := by
  cases e with
  | retry =>
      simp only [step, Option.ite_none_right_eq_some, Option.bind_eq_some_iff] at hstep
      obtain ⟨-, c, -, hstep⟩ := hstep
      exact iff_of_true trivial (attempt_queuesLive h hstep)
  | background b =>
      obtain ⟨k, -, rfl⟩ := Option.map_eq_some_iff.mp hstep
      exact iff_of_true trivial ⟨h.listed, h.opened, h.unlinked⟩
  | mqOpen _ _ _ _ _ _ _ | mqClose _ | mqUnlink _ | mqSend _ _ _ _ | mqReceive _ _ _ =>
      simp only [step, Option.ite_none_right_eq_some, Option.bind_eq_some_iff] at hstep
      obtain ⟨-, task, -, hstep⟩ := hstep
      exact call_queuesLive_iff h hstep

theorem Started.queuesLive (h : Started s) : QueuesLive s := by
  refine ⟨fun mq hmq => ?_, fun d hd => ?_, fun name hname => ?_⟩
  · rw [h.mqueueList] at hmq
    cases hmq
  · rw [h.bitmapMqds] at hd
    cases hd
  · rw [h.unlinked] at hname
    cases hname

/-- The queues outlive their users in exactly the runs where `sys_mq_unlink` never removes
one, among those in which no message is written over the end of its element. -/
theorem queuesLive_iff_unlinkOk {es : List MqHeapEvent} (hstart : Started s)
    (hrun : Runs.exec step s es = some s') :
    Runs.AllOk UnlinkOk step s es ↔
      ∀ n u, Runs.exec step s (es.take n) = some u → QueuesLive u :=
  Runs.allOk_iff_forall_take (I := fun _ => True) (fun _ _ _ _ _ => trivial)
    (fun _ _ _ _ hP hstep => step_queuesLive_iff hP hstep) trivial hstart.queuesLive hrun

def noQueues (k : Kernel) : MqHeap := ⟨k, MqTable.emptyTable, fun _ => false, fun _ => none, []⟩

theorem noQueues_started (k : Kernel) : Started (noQueues k) :=
  ⟨rfl, fun _ => rfl, fun _ => rfl, rfl⟩

/-- `mq_open` of a new queue for two messages of four bytes. -/
def openNew (name : List Byte) (mq buf : Word) : MqHeapEvent :=
  .mqOpen name (oCreat ||| oRdwr) (some ⟨0#32, 2#32, 4#32⟩) (some mq) (some buf) ⟨id, id⟩
    fun _ => ⟨0#32, fun _ => 0#8⟩

/-- Two calls open a queue, one sends through its descriptor, and both are closed. A name
that no queue has is unlinked. -/
def quietRun : List MqHeapEvent :=
  [openNew [97#8] 0x20000000#32 0x20000200#32,
    .mqOpen [97#8] oRdwr (some ⟨0#32, 2#32, 4#32⟩) none none ⟨id, id⟩
      fun _ => ⟨0#32, fun _ => 0#8⟩,
    .mqSend 1 (fun _ => 7#8) 4#32 0#32, .mqClose 0, .mqUnlink [98#8], .mqClose 1]

theorem quietRun_ok : Runs.AllOk UnlinkOk step (noQueues Kernel.crowdKernel) quietRun := by
  decide +kernel

theorem queuesLive_iff_unlinkOk_at_quiet : ∃ s,
    Runs.exec step (noQueues Kernel.crowdKernel) quietRun = some s ∧
      s.table.mqueueList = [([97#8], 0x20000000#32)] ∧ QueuesLive s := by
  have hrun : (Runs.exec step (noQueues Kernel.crowdKernel) quietRun).map (fun s =>
      s.table.mqueueList) = some [([97#8], 0x20000000#32)] := by decide +kernel
  obtain ⟨s, hs, hlist⟩ := Option.map_eq_some_iff.mp hrun
  have hlive := (queuesLive_iff_unlinkOk (noQueues_started _) hs).mp quietRun_ok
  have hall := hlive quietRun.length s
  rw [List.take_length] at hall
  exact ⟨s, hs, hlist, hall hs⟩

/-- A queue is opened and its name is unlinked: it is freed, and found by that name. -/
theorem queuesLive_not_after_unlink : ∃ s,
    Runs.exec step (noQueues Kernel.crowdKernel)
      [openNew [97#8] 0x20000000#32 0x20000200#32, .mqUnlink [97#8]] = some s ∧
    s.allocated 0x20000000#32 = false ∧ s.table.acquireMqueue [97#8] = some 0x20000000#32 ∧
    ¬ QueuesLive s := by
  have hrun : (Runs.exec step (noQueues Kernel.crowdKernel)
      [openNew [97#8] 0x20000000#32 0x20000200#32, .mqUnlink [97#8]]).map (fun s =>
      (s.allocated 0x20000000#32, s.table.acquireMqueue [97#8], s.unlinked)) =
      some (false, some 0x20000000#32, [[97#8]]) := by decide +kernel
  obtain ⟨s, hs, heq⟩ := Option.map_eq_some_iff.mp hrun
  simp only [Prod.mk.injEq] at heq
  obtain ⟨hfreed, hfound, hname⟩ := heq
  refine ⟨s, hs, hfreed, hfound, fun h => ?_⟩
  have hnone := h.unlinked [97#8] (by simp [hname])
  exact absurd (hnone.symm.trans hfound) (by simp)

end MqHeap

end Tenok
