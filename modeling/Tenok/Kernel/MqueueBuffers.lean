import Tenok.Kernel.MqueueLife

/-!
The buffer of `mq_receive`. How long it has to be is checked twice against the attributes
of the descriptor, in opposite directions, and how much is written to it was decided by the
sender. It is a fault to store a message that does not fit its element.
-/
namespace Tenok
open Ring Mqueue

/-- Where a call of `mq_receive` is: at its start, in a thread of a task, or back from the
`schedule` of its loop, with the queue that it had found. -/
inductive MqReceiver
  | entering (task : Pid)
  | waiting (mq : Word)

def Mqueue.stored : MqCall × MqAnswer → Option Word
  | (.send _ _ msgLen _, .send (.ok _)) => some msgLen
  | _ => none

/-- A call that stores a message only where it fits. -/
def Mqueue.MqLog.fitStep (q : Nat) (s : MqLog) (c : Kernel × MqCall) : Option MqLog :=
  (s.step q c).filter fun s' =>
    (s'.log.getLast?.bind stored).all fun msgLen => s.mq.Fits msgLen

namespace MqTable

def receivePass (t : MqTable) (k : Kernel) (mq : Word) (mqdes : Nat) (msgLen : Word)
    (msgPrio : Bool) : Option (Kernel × MqTable × Except Errno MqMessage) := do
  let (k, queue, r) ← mqReceive k mq.toNat (t.mqs mq) (t.mqdTable mqdes).attr msgLen msgPrio
  some (k, { t with mqs := Function.update t.mqs mq queue }, r)

def sysMqReceive (t : MqTable) (k : Kernel) (w : MqReceiver) (mqdes : Nat) (msgLen : Word)
    (msgPrio : Bool) : Option (Kernel × MqTable × Except Errno MqMessage) :=
  match w with
  | .entering task =>
      match t.sysMqReceiveEnter task mqdes msgLen with
      | .error e => some (k, t, .error e)
      | .ok desc => t.receivePass k desc.mq mqdes msgLen msgPrio
  | .waiting mq => t.receivePass k mq mqdes msgLen msgPrio

def receivesFrom (t : MqTable) (mqdes : Nat) : MqReceiver → Word
  | .entering _ => (t.mqdTable mqdes).mq
  | .waiting mq => mq

def Opened (t : MqTable) (mqdes : Nat) : MqReceiver → Prop
  | .entering task => t.bitmapMqds mqdes = true ∧ t.taskMqds task mqdes = true
  | .waiting _ => True

/-- No more than `msgLen` bytes are written to the buffer. With a message in the queue the
call succeeds if these are not less than the message size of the queue, and fails with
`-EMSGSIZE` if they are. -/
def Answered (mq : Mqueue) (msgsize msgLen : Word) (r : Except Errno MqMessage) : Prop :=
  (∀ msg, r = .ok msg → msg.data.length ≤ msgLen.toNat) ∧
    (mq.cnt ≠ 0#32 →
      (msgsize ≤ msgLen → ∃ msg, r = .ok msg) ∧ (msgLen < msgsize → r = .error .emsgsize))

def RespectsBuffer (t : MqTable) (k : Kernel) (w : MqReceiver) (mqdes : Nat) (msgsize msgLen : Word)
    (msgPrio : Bool) : Prop :=
  ∃ k' t' r, t.sysMqReceive k w mqdes msgLen msgPrio = some (k', t', r) ∧
    Answered (t.mqs (t.receivesFrom mqdes w)) msgsize msgLen r

end MqTable

def Mqueue.nextSize (mq : Mqueue) : Option Word := do
  let prio ← mq.highestUsed
  let element ← listEntry (next mq.links (.inl (.used prio)))
  some (mq.elements element).size

/-- A length that passes the checks: exactly the message size of the descriptor at the start,
and no less in the loop. -/
def MqReceiver.passes (attr : MqAttr) (msgLen : Word) : MqReceiver → Bool
  | .entering _ => msgLen = attr.msgsize
  | .waiting _ => attr.msgsize ≤ msgLen

/-- Where the condition fails there is a message, and the call goes wrong: the lengths that
pass are not those from the message size of the queue on, or one that passes is too short for
the message. A descriptor that is not open for reading gives `-EMSGSIZE` to a call that
starts with more than its message size, and `-EBADF` otherwise. -/
def MqReceiver.BufferOk (mq : Mqueue) (attr : MqAttr) (msgsize msgLen : Word) (w : MqReceiver) :
    Prop :=
  mq.cnt ≠ 0#32 →
    if unreadable attr then
      msgLen < msgsize ∧ attr.msgsize < msgLen ∧ ∃ task, w = .entering task
    else
      (msgsize ≤ msgLen ↔ w.passes attr msgLen) ∧
        (w.passes attr msgLen → ∀ n ∈ mq.nextSize, n ≤ msgLen)

namespace Mqueue
variable {mq mq' : Mqueue} {L : MqList → List Nat} {h : PrioFifo.History MqPrio (List Byte)}
  {idx : Nat → Nat} {k : Kernel} {q : Nat} {attr : MqAttr} {msgLen : Word} {msgPrio : Bool}
  {msg : MqMessage}

theorem mqOut_nextSize (hout : mq.mqOut msgPrio = some (mq', msg)) :
    ∃ n, mq.nextSize = some n ∧ msg.data.length = n.toNat := by
  simp only [mqOut, Option.bind_eq_bind, Option.bind_eq_some_iff, Option.some.injEq,
    Prod.mk.injEq] at hout
  obtain ⟨prio, hprio, element, helement, -, rfl⟩ := hout
  refine ⟨(mq.elements element).size, ?_, length_bytesAt ..⟩
  simp only [nextSize, hprio, helement, Option.bind_eq_bind, Option.bind_some]

theorem mqReceive_available (hs : Simulates mq L h idx) (hk : k.Consistent)
    (hcnt : mq.cnt ≠ 0#32) : ∃ k' mq' r,
      mqReceive k q mq attr msgLen msgPrio = some (k', mq', r) ∧
        if unreadable attr then r = .error .ebadf
        else if attr.msgsize ≤ msgLen then
          ∃ msg n, r = .ok msg ∧ mq.nextSize = some n ∧ msg.data.length = n.toNat
        else r = .error .emsgsize := by
  rw [mqReceive]
  split
  · exact ⟨k, mq, _, rfl, rfl⟩
  · split
    · next hlen => exact ⟨k, mq, _, rfl, by rw [if_neg (BitVec.not_le.mpr hlen)]⟩
    · next hlen =>
        obtain ⟨mq', _, _, _, _, msg, hout, -⟩ := hs.mqOut hcnt msgPrio
        obtain ⟨k', hwake⟩ := wakeUp_isSome hk (.mqueueWrite q) rfl
        obtain ⟨n, hn, hdata⟩ := mqOut_nextSize hout
        have hsome : ¬ mq.mqLen ≤ 0#32 := fun hle => hcnt (BitVec.le_zero_iff.mp hle)
        refine ⟨k', mq', .ok msg, ?_, ?_⟩
        · simp [hsome, hout, hwake]
        · rw [if_pos (BitVec.not_lt.mp hlen)]
          exact ⟨msg, n, rfl, hn, hdata⟩

theorem mqReceive_empty (hcnt : mq.cnt = 0#32) :
    ∃ k' e, mqReceive k q mq attr msgLen msgPrio = some (k', mq, .error e) := by
  have hempty : mq.mqLen ≤ 0#32 := BitVec.le_zero_iff.mpr hcnt
  rw [mqReceive]
  split
  · exact ⟨_, _, rfl⟩
  · split
    · exact ⟨_, _, rfl⟩
    · exact ⟨_, _, rfl⟩

end Mqueue

namespace MqTable
variable {t : MqTable} {mq : Mqueue} {L : MqList → List Nat}
  {h : PrioFifo.History MqPrio (List Byte)} {idx : Nat → Nat} {k k' : Kernel} {w : MqReceiver}
  {addr : Word} {mqdes : Nat} {msgsize msgLen : Word} {msgPrio : Bool} {r : Except Errno MqMessage}

theorem receivePass_eq (heq : mqReceive k addr.toNat (t.mqs addr) (t.mqdTable mqdes).attr msgLen
      msgPrio = some (k', mq, r)) :
    ∃ t', t.receivePass k addr mqdes msgLen msgPrio = some (k', t', r) := by
  rw [receivePass, heq]
  exact ⟨_, rfl⟩

theorem answered_of_empty {e : Errno} (hcnt : mq.cnt = 0#32) :
    Answered mq msgsize msgLen (.error e) :=
  ⟨nofun, fun h => absurd hcnt h⟩

theorem answered_error_iff {e : Errno} (hcnt : mq.cnt ≠ 0#32) :
    Answered mq msgsize msgLen (.error e) ↔ msgLen < msgsize ∧ e = .emsgsize := by
  constructor
  · rintro ⟨-, h⟩
    obtain ⟨hlong, hshort⟩ := h hcnt
    have hlt : msgLen < msgsize := BitVec.not_le.mp fun hle => by
      obtain ⟨msg, hmsg⟩ := hlong hle
      cases hmsg
    exact ⟨hlt, Except.error.inj (hshort hlt)⟩
  · rintro ⟨hlt, rfl⟩
    exact ⟨nofun, fun _ => ⟨fun hle => absurd hlt (BitVec.not_lt.mpr hle), fun _ => rfl⟩⟩

theorem answered_ok_iff {msg : MqMessage} {n : Word} (hcnt : mq.cnt ≠ 0#32)
    (hn : msg.data.length = n.toNat) :
    Answered mq msgsize msgLen (.ok msg) ↔ msgsize ≤ msgLen ∧ n ≤ msgLen := by
  constructor
  · rintro ⟨hwritten, h⟩
    refine ⟨BitVec.not_lt.mp fun hlt => ?_, BitVec.le_def.mpr (hn ▸ hwritten msg rfl)⟩
    cases (h hcnt).2 hlt
  · rintro ⟨hle, hfits⟩
    refine ⟨fun msg' hmsg => ?_, fun _ => ⟨fun _ => ⟨msg, rfl⟩, fun hlt => ?_⟩⟩
    · obtain rfl := Except.ok.inj hmsg
      exact hn ▸ BitVec.le_def.mp hfits
    · exact absurd hlt (BitVec.not_lt.mpr hle)

theorem respectsBuffer_of_eq {t' : MqTable}
    (heq : t.sysMqReceive k w mqdes msgLen msgPrio = some (k', t', r)) :
    t.RespectsBuffer k w mqdes msgsize msgLen msgPrio ↔
      Answered (t.mqs (t.receivesFrom mqdes w)) msgsize msgLen r := by
  constructor
  · rintro ⟨k₁, t₁, r₁, heq₁, hr⟩
    cases heq.symm.trans heq₁
    exact hr
  · intro hr
    exact ⟨k', t', r, heq, hr⟩

/-- A call that gets to the queue, at a length that is not above the message size of the
descriptor where that is checked. -/
theorem respectsBuffer_of_pass (hs : Simulates (t.mqs (t.receivesFrom mqdes w)) L h idx)
    (hk : k.Consistent)
    (hpass : t.sysMqReceive k w mqdes msgLen msgPrio =
      t.receivePass k (t.receivesFrom mqdes w) mqdes msgLen msgPrio)
    (hlen : (∃ task, w = .entering task) → msgLen ≤ (t.mqdTable mqdes).attr.msgsize) :
    t.RespectsBuffer k w mqdes msgsize msgLen msgPrio ↔
      w.BufferOk (t.mqs (t.receivesFrom mqdes w)) (t.mqdTable mqdes).attr msgsize msgLen := by
  have hpasses : w.passes (t.mqdTable mqdes).attr msgLen = true ↔
      (t.mqdTable mqdes).attr.msgsize ≤ msgLen := by
    cases w with
    | entering task =>
        have hle := hlen ⟨task, rfl⟩
        rw [MqReceiver.passes, decide_eq_true_iff]
        exact ⟨fun heq => heq ▸ BitVec.le_refl _, fun hge => BitVec.le_antisymm hle hge⟩
    | waiting mq => rw [MqReceiver.passes, decide_eq_true_iff]
  by_cases hcnt : (t.mqs (t.receivesFrom mqdes w)).cnt = 0#32
  · obtain ⟨k', e, heq⟩ := mqReceive_empty hcnt
    obtain ⟨t', heq'⟩ := receivePass_eq heq
    rw [respectsBuffer_of_eq (hpass.trans heq')]
    exact iff_of_true (answered_of_empty hcnt) fun h => absurd hcnt h
  · obtain ⟨k', mq', r, heq, hr⟩ := mqReceive_available hs hk hcnt
    obtain ⟨t', heq'⟩ := receivePass_eq heq
    rw [respectsBuffer_of_eq (hpass.trans heq'), MqReceiver.BufferOk, imp_iff_right hcnt]
    split at hr
    · next hflag =>
        subst hr
        rw [if_pos hflag, answered_error_iff hcnt]
        refine iff_of_false nofun ?_
        rintro ⟨-, hlong, hw⟩
        exact absurd hlong (BitVec.not_lt.mpr (hlen hw))
    · next hflag =>
        rw [if_neg hflag, hpasses]
        split at hr
        · next hge =>
            obtain ⟨msg, n, rfl, hn, hdata⟩ := hr
            rw [answered_ok_iff hcnt hdata, hn, iff_true_right hge, imp_iff_right hge]
            simp
        · next hlt =>
            subst hr
            rw [answered_error_iff hcnt, iff_false_right hlt, BitVec.not_le]
            exact ⟨fun h => ⟨h.1, fun hge => absurd hge hlt⟩, fun h => ⟨h.1, rfl⟩⟩

/-- The call respects the buffer exactly if the lengths and the message meet the condition. -/
theorem respectsBuffer_iff_of_simulates (hopened : t.Opened mqdes w)
    (hs : Simulates (t.mqs (t.receivesFrom mqdes w)) L h idx) (hk : k.Consistent) :
    t.RespectsBuffer k w mqdes msgsize msgLen msgPrio ↔
      w.BufferOk (t.mqs (t.receivesFrom mqdes w)) (t.mqdTable mqdes).attr msgsize msgLen := by
  cases w with
  | waiting mq => exact respectsBuffer_of_pass hs hk rfl fun ⟨_, hw⟩ => by cases hw
  | entering task =>
      obtain ⟨hbit, htask⟩ := hopened
      by_cases hlen : (t.mqdTable mqdes).attr.msgsize < msgLen
      · have heq : t.sysMqReceive k (.entering task) mqdes msgLen msgPrio =
            some (k, t, .error .emsgsize) := by
          simp [sysMqReceive, sysMqReceiveEnter, hbit, htask, hlen]
        rw [respectsBuffer_of_eq heq, MqReceiver.BufferOk]
        by_cases hcnt : (t.mqs (t.receivesFrom mqdes (.entering task))).cnt = 0#32
        · exact iff_of_true (answered_of_empty hcnt) fun h => absurd hcnt h
        · have hne : ¬ msgLen = (t.mqdTable mqdes).attr.msgsize := fun heq => by
            rw [heq] at hlen
            exact BitVec.lt_irrefl _ hlen
          rw [answered_error_iff hcnt, imp_iff_right hcnt]
          split
          · exact ⟨fun h => ⟨h.1, hlen, task, rfl⟩, fun h => ⟨h.1, rfl⟩⟩
          · simp [MqReceiver.passes, hne]
      · refine respectsBuffer_of_pass hs hk ?_ fun _ => BitVec.not_lt.mp hlen
        simp [sysMqReceive, sysMqReceiveEnter, hbit, htask, hlen, receivesFrom]

/-- The same for a queue that was created with `attr`, after any calls through descriptors with
any attributes that store messages where they fit, for a call through one with any attributes. -/
theorem respectsBuffer_iff {newMq buf : Option Word} {links : Cells (MqList ⊕ Nat)}
    {elements : Nat → MqData} {attr : MqAttr} {q : Nat} {calls : List (Kernel × MqCall)}
    {s : MqLog} (halloc : mqAllocate newMq buf links elements attr = some (some mq))
    (hrun : Runs.exec (MqLog.fitStep q) ⟨mq, []⟩ calls = some s) (hopened : t.Opened mqdes w)
    (hmq : t.mqs (t.receivesFrom mqdes w) = s.mq) (hk : k.Consistent) :
    t.RespectsBuffer k w mqdes attr.msgsize msgLen msgPrio ↔
      w.BufferOk s.mq (t.mqdTable mqdes).attr attr.msgsize msgLen := by
  obtain ⟨hsize, L, hsim⟩ := simulates_mqAllocate halloc
  have hinit : Explains attr.maxmsg.toNat ⟨mq, []⟩ :=
    ⟨congrArg BitVec.toNat hsize, L, .empty, id, hsim, .nil⟩
  have hstep : ∀ (s : MqLog) c s', Explains attr.maxmsg.toNat s → s.fitStep q c = some s' →
      Explains attr.maxmsg.toNat s' := fun _ _ _ hs hstep =>
    hs.step (Option.filter_eq_some_iff.mp hstep).1
  obtain ⟨-, L', h', idx', hsim', -⟩ := Runs.exec_keeps hstep hinit hrun
  rw [← hmq] at hsim' ⊢
  exact respectsBuffer_iff_of_simulates hopened hsim' hk

def singleTable (mq : Mqueue) (attr : MqAttr) : MqTable :=
  { emptyTable with mqs := fun _ => mq }.register 0 0 ⟨0x20000000#32, attr⟩

/-- A message of eight bytes is sent to a queue for those. -/
def eightBytes : MqAttr := ⟨oRdwr, 2#32, 8#32⟩

def eightCalls : List (Kernel × MqCall) :=
  [(Kernel.schedStart, .send eightBytes (fun _ => 7#8) 8#32 0)]

theorem respectsBuffer_iff_at_eight : ∃ mq s,
    mqAllocate (some 0x20000000#32) (some 0x20000100#32) ⟨id, id⟩ (fun _ => ⟨0#32, fun _ => 0#8⟩)
      eightBytes = some (some mq) ∧
    Runs.exec (MqLog.fitStep 0) ⟨mq, []⟩ eightCalls = some s ∧
    (singleTable s.mq eightBytes).RespectsBuffer Kernel.schedStart (.entering 0) 0 8#32 8#32
      true := by
  obtain ⟨mq, halloc⟩ : ∃ mq, mqAllocate (some 0x20000000#32) (some 0x20000100#32) ⟨id, id⟩
      (fun _ => ⟨0#32, fun _ => 0#8⟩) eightBytes = some (some mq) := ⟨_, rfl⟩
  have hrun : (Runs.exec (MqLog.fitStep 0) ⟨mq, []⟩ eightCalls).map (·.mq.nextSize) =
      some (some 8#32) := by
    obtain rfl := Option.some.inj (Option.some.inj halloc)
    decide +kernel
  obtain ⟨s, hs, hnext⟩ := Option.map_eq_some_iff.mp hrun
  refine ⟨mq, s, halloc, hs, ?_⟩
  have hopened : (singleTable s.mq eightBytes).Opened 0 (.entering 0) := ⟨rfl, rfl⟩
  have hattr : ((singleTable s.mq eightBytes).mqdTable 0).attr = eightBytes := rfl
  refine (respectsBuffer_iff halloc hs hopened rfl Kernel.schedStart_spec).mpr fun _ => ?_
  rw [hattr, hnext, if_neg (by decide)]
  refine ⟨by decide, fun _ n hn => ?_⟩
  obtain rfl := Option.some.inj hn
  exact BitVec.le_refl _

/-- A descriptor with a smaller message size lets a buffer of that size be overrun. -/
theorem respectsBuffer_not_for_four : ∃ mq s,
    mqAllocate (some 0x20000000#32) (some 0x20000100#32) ⟨id, id⟩ (fun _ => ⟨0#32, fun _ => 0#8⟩)
      eightBytes = some (some mq) ∧
    Runs.exec (MqLog.fitStep 0) ⟨mq, []⟩ eightCalls = some s ∧
    (∃ k t msg, (singleTable s.mq { eightBytes with msgsize := 4#32 }).sysMqReceive
      Kernel.schedStart (.entering 0) 0 4#32 true = some (k, t, .ok msg) ∧ msg.data.length = 8) ∧
    ¬ (singleTable s.mq { eightBytes with msgsize := 4#32 }).RespectsBuffer Kernel.schedStart
      (.entering 0) 0 8#32 4#32 true := by
  obtain ⟨mq, halloc⟩ : ∃ mq, mqAllocate (some 0x20000000#32) (some 0x20000100#32) ⟨id, id⟩
      (fun _ => ⟨0#32, fun _ => 0#8⟩) eightBytes = some (some mq) := ⟨_, rfl⟩
  have hrun : ((Runs.exec (MqLog.fitStep 0) ⟨mq, []⟩ eightCalls).bind fun s =>
      ((singleTable s.mq { eightBytes with msgsize := 4#32 }).sysMqReceive Kernel.schedStart
        (.entering 0) 0 4#32 true).bind fun r =>
          r.2.2.toOption.map fun msg => msg.data.length) = some 8 := by
    obtain rfl := Option.some.inj (Option.some.inj halloc)
    decide +kernel
  obtain ⟨s, hs, hanswer⟩ := Option.bind_eq_some_iff.mp hrun
  obtain ⟨⟨k, t, r⟩, heq, hr⟩ := Option.bind_eq_some_iff.mp hanswer
  cases r with
  | error e => cases hr
  | ok msg =>
      have hlen : msg.data.length = 8 := Option.some.inj hr
      refine ⟨mq, s, halloc, hs, ⟨k, t, msg, heq, hlen⟩, fun hrespects => ?_⟩
      have hwritten := ((respectsBuffer_of_eq heq).mp hrespects).1 msg rfl
      rw [hlen] at hwritten
      exact absurd hwritten (by decide)

end MqTable

end Tenok
