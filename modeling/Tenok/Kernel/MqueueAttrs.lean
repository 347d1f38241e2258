import Tenok.Kernel.MqueueBuffers

/-!
The attributes of a message queue descriptor. The flags that `mq_open` was called with are
both its access mode and its blocking mode; `sys_mq_setattr` writes them as a whole.
-/
namespace Tenok
open Mqueue

namespace MqTable

def sysMqGetattr (t : MqTable) (task : Pid) (mqdes : Nat) : Except Errno (MqAttr × Word) :=
  if !t.bitmapMqds mqdes || !t.taskMqds task mqdes then .error .ebadf
  else .ok ((t.mqdTable mqdes).attr, (t.mqs (t.mqdTable mqdes).mq).mqLen)

def sysMqSetattr (t : MqTable) (task : Pid) (mqdes : Nat) (newattr : MqAttr) :
    MqTable × Except Errno (MqAttr × Word) :=
  if !t.bitmapMqds mqdes || !t.taskMqds task mqdes then (t, .error .ebadf)
  else
    let desc := t.mqdTable mqdes
    if newattr.flags &&& ~~~oNonblock ≠ 0#32 ∨ newattr.maxmsg ≠ desc.attr.maxmsg ∨
        newattr.msgsize ≠ desc.attr.msgsize then (t, .error .einval)
    else
      let attr := { desc.attr with flags := ~~~oNonblock &&& newattr.flags }
      ({ t with mqdTable := Function.update t.mqdTable mqdes { desc with attr } },
        .ok (desc.attr, (t.mqs desc.mq).mqLen))

def sendPass (t : MqTable) (k : Kernel) (mq : Word) (mqdes : Nat) (msgPtr : Nat → Byte)
    (msgLen : Word) (msgPrio : MqPrio) : Option (Kernel × MqTable × Except Errno Unit) := do
  let (k, queue, r) ← mqSend k mq.toNat (t.mqs mq) (t.mqdTable mqdes).attr msgPtr msgLen msgPrio
  some (k, { t with mqs := Function.update t.mqs mq queue }, r)

def sysMqSend (t : MqTable) (k : Kernel) (w : MqReceiver) (mqdes : Nat) (msgPtr : Nat → Byte)
    (msgLen msgPrio : Word) : Option (Kernel × MqTable × Except Errno Unit) :=
  let prio := Fin.ofNat (mqPrioMax + 1) msgPrio.toNat
  match w with
  | .entering task =>
      match t.sysMqSendEnter task mqdes msgLen msgPrio with
      | .error e => some (k, t, .error e)
      | .ok desc => t.sendPass k desc.mq mqdes msgPtr msgLen prio
  | .waiting mq => t.sendPass k mq mqdes msgPtr msgLen prio

end MqTable

/-- A descriptor and the calls that were made with it: the attributes that it got from `mq_open`
and those of the last `sys_mq_setattr` that returned 0. -/
structure MqDescriptor where
  table : MqTable
  task : Pid
  mqdes : Nat
  opened : MqAttr
  set : Option MqAttr

/-- The threads that call run on any kernel. -/
inductive MqDescEvent
  | getattr
  | setattr (newattr : MqAttr)
  | send (k : Kernel) (w : MqReceiver) (msgPtr : Nat → Byte) (msgLen msgPrio : Word)
  | receive (k : Kernel) (w : MqReceiver) (msgLen : Word) (msgPrio : Bool)

namespace MqDescriptor

/-- After a call of `mq_open` that returned `mqdes`. -/
def start (table : MqTable) (task : Pid) (mqdes : Nat) : MqDescriptor :=
  { table, task, mqdes, opened := (table.mqdTable mqdes).attr, set := none }

def attr (s : MqDescriptor) : MqAttr := (s.table.mqdTable s.mqdes).attr

def step (s : MqDescriptor) : MqDescEvent → Option MqDescriptor
  | .getattr => some s
  | .setattr newattr =>
      let (table, r) := s.table.sysMqSetattr s.task s.mqdes newattr
      some { s with table, set := if r.isOk then some newattr else s.set }
  | .send k w msgPtr msgLen msgPrio =>
      (s.table.sysMqSend k w s.mqdes msgPtr msgLen msgPrio).map fun r => { s with table := r.2.1 }
  | .receive k w msgLen msgPrio =>
      (s.table.sysMqReceive k w s.mqdes msgLen msgPrio).map fun r => { s with table := r.2.1 }

/-- The blocking mode is the one that was set, the access mode the one that the descriptor was
opened with, and what `mq_getattr` gives can be set again. -/
structure KeepsMode (s : MqDescriptor) : Prop where
  nonblock : ∀ newattr ∈ s.set,
    (s.attr.flags &&& oNonblock ≠ 0#32 ↔ newattr.flags &&& oNonblock ≠ 0#32)
  readable : unreadable s.attr = unreadable s.opened
  writable : unwritable s.attr = unwritable s.opened
  roundTrip : ∃ attr curmsgs, s.table.sysMqGetattr s.task s.mqdes = .ok (attr, curmsgs) ∧
    s.table.sysMqSetattr s.task s.mqdes attr = (s.table, .ok (attr, curmsgs))

/-- A call of `sys_mq_setattr` that succeeds does not ask for the non-blocking mode. -/
def SetsBlocking (s : MqDescriptor) : MqDescEvent → Prop
  | .setattr newattr => (s.table.sysMqSetattr s.task s.mqdes newattr).2.isOk →
      newattr.flags &&& oNonblock = 0#32
  | _ => True

instance decidableSetsBlocking (s : MqDescriptor) : (e : MqDescEvent) → Decidable (s.SetsBlocking e)
  | .setattr newattr =>
      inferInstanceAs (Decidable ((s.table.sysMqSetattr s.task s.mqdes newattr).2.isOk → _))
  | .getattr | .send .. | .receive .. => inferInstanceAs (Decidable True)

def Valid (s : MqDescriptor) : Prop :=
  s.table.bitmapMqds s.mqdes = true ∧ s.table.taskMqds s.task s.mqdes = true

end MqDescriptor

namespace MqTable
variable {t t' : MqTable} {k k' : Kernel} {w : MqReceiver} {task : Pid} {mqdes : Nat}
  {newattr : MqAttr}

/-- Only the queues of the table may differ. -/
structure SameDescs (t t' : MqTable) : Prop where
  bitmapMqds : t'.bitmapMqds = t.bitmapMqds
  taskMqds : t'.taskMqds = t.taskMqds
  mqdTable : t'.mqdTable = t.mqdTable

theorem sysMqSend_sameDescs {msgPtr : Nat → Byte} {msgLen msgPrio : Word} {r : Except Errno Unit}
    (h : t.sysMqSend k w mqdes msgPtr msgLen msgPrio = some (k', t', r)) : SameDescs t t' := by
  have hpass : ∀ {mq prio}, t.sendPass k mq mqdes msgPtr msgLen prio = some (k', t', r) →
      SameDescs t t' := by
    intro mq prio hpass
    obtain ⟨_, -, hpass⟩ := Option.bind_eq_some_iff.mp hpass
    cases hpass
    exact ⟨rfl, rfl, rfl⟩
  cases w with
  | entering task =>
      simp only [sysMqSend] at h
      split at h
      · cases h
        exact ⟨rfl, rfl, rfl⟩
      · exact hpass h
  | waiting mq => exact hpass h

theorem sysMqReceive_sameDescs {msgLen : Word} {msgPrio : Bool} {r : Except Errno MqMessage}
    (h : t.sysMqReceive k w mqdes msgLen msgPrio = some (k', t', r)) : SameDescs t t' := by
  have hpass : ∀ {mq}, t.receivePass k mq mqdes msgLen msgPrio = some (k', t', r) →
      SameDescs t t' := by
    intro mq hpass
    obtain ⟨_, -, hpass⟩ := Option.bind_eq_some_iff.mp hpass
    cases hpass
    exact ⟨rfl, rfl, rfl⟩
  cases w with
  | entering task =>
      simp only [sysMqReceive] at h
      split at h
      · cases h
        exact ⟨rfl, rfl, rfl⟩
      · exact hpass h
  | waiting mq => exact hpass h

def Settable (attr newattr : MqAttr) : Prop :=
  newattr.flags &&& ~~~oNonblock = 0#32 ∧ newattr.maxmsg = attr.maxmsg ∧
    newattr.msgsize = attr.msgsize

def clearFlags (t : MqTable) (mqdes : Nat) : MqTable :=
  let desc := t.mqdTable mqdes
  { t with
    mqdTable := Function.update t.mqdTable mqdes
      { desc with attr := { desc.attr with flags := 0#32 } } }

theorem sysMqSetattr_settable (hbit : t.bitmapMqds mqdes = true)
    (htask : t.taskMqds task mqdes = true) (h : Settable (t.mqdTable mqdes).attr newattr) :
    t.sysMqSetattr task mqdes newattr = (t.clearFlags mqdes,
      .ok ((t.mqdTable mqdes).attr, (t.mqs (t.mqdTable mqdes).mq).mqLen)) := by
  obtain ⟨hflags, hmaxmsg, hmsgsize⟩ := h
  have hcleared : ~~~oNonblock &&& newattr.flags = 0#32 := by rw [BitVec.and_comm, hflags]
  simp only [sysMqSetattr, hbit, htask, hflags, hmaxmsg, hmsgsize, hcleared, Bool.not_true,
    Bool.or_self, Bool.false_eq_true, if_false, ne_eq, not_true_eq_false, or_self, clearFlags]

theorem sysMqSetattr_not_settable (hbit : t.bitmapMqds mqdes = true)
    (htask : t.taskMqds task mqdes = true) (h : ¬ Settable (t.mqdTable mqdes).attr newattr) :
    t.sysMqSetattr task mqdes newattr = (t, .error .einval) := by
  have hbad : newattr.flags &&& ~~~oNonblock ≠ 0#32 ∨ newattr.maxmsg ≠ (t.mqdTable mqdes).attr.maxmsg ∨
      newattr.msgsize ≠ (t.mqdTable mqdes).attr.msgsize := by
    by_contra hgood
    simp only [not_or, not_not, ne_eq] at hgood
    exact h hgood
  simp only [sysMqSetattr, hbit, htask, hbad, Bool.not_true, Bool.or_self, Bool.false_eq_true,
    if_false, if_true]

end MqTable

namespace MqDescriptor
open MqTable
variable {s t : MqDescriptor} {e : MqDescEvent} {newattr : MqAttr}

theorem roundTrip_iff (hv : s.Valid) :
    (∃ attr curmsgs, s.table.sysMqGetattr s.task s.mqdes = .ok (attr, curmsgs) ∧
      s.table.sysMqSetattr s.task s.mqdes attr = (s.table, .ok (attr, curmsgs))) ↔
      s.attr.flags = 0#32 := by
  have hget : s.table.sysMqGetattr s.task s.mqdes =
      .ok (s.attr, (s.table.mqs (s.table.mqdTable s.mqdes).mq).mqLen) := by
    rw [sysMqGetattr, hv.1, hv.2]
    rfl
  constructor
  · rintro ⟨attr, curmsgs, hattr, hset⟩
    obtain ⟨rfl, rfl⟩ := Prod.mk.inj (Except.ok.inj (hget.symm.trans hattr))
    by_cases hok : Settable s.attr s.attr
    · rw [sysMqSetattr_settable hv.1 hv.2 hok] at hset
      have htable := congrArg MqTable.mqdTable (Prod.mk.inj hset).1
      have hflags := congrArg (fun table => (table s.mqdes).attr.flags) htable
      simp only [clearFlags, Function.update_self] at hflags
      exact hflags.symm
    · rw [sysMqSetattr_not_settable hv.1 hv.2 hok] at hset
      cases (Prod.mk.inj hset).2
  · intro hflags
    have hok : Settable s.attr s.attr := ⟨by rw [hflags, BitVec.zero_and], rfl, rfl⟩
    have hsame : { s.table.mqdTable s.mqdes with
        attr := { (s.table.mqdTable s.mqdes).attr with flags := 0#32 } } =
          s.table.mqdTable s.mqdes := by
      rw [← hflags]
      rfl
    refine ⟨_, _, hget, (sysMqSetattr_settable hv.1 hv.2 hok).trans ?_⟩
    rw [clearFlags, hsame, Function.update_eq_self]
    rfl

theorem keepsMode_iff (hv : s.Valid) : s.KeepsMode ↔
    s.attr.flags = 0#32 ∧ (∀ newattr ∈ s.set, newattr.flags &&& oNonblock = 0#32) ∧
      unreadable s.opened = false ∧ unwritable s.opened = true := by
  constructor
  · intro h
    have hflags := (roundTrip_iff hv).mp h.roundTrip
    have hreadable := h.readable
    have hwritable := h.writable
    simp only [unreadable, unwritable, hflags] at hreadable hwritable
    refine ⟨hflags, fun newattr hset => ?_, hreadable.symm, hwritable.symm⟩
    have hmode := h.nonblock newattr hset
    rw [hflags, BitVec.zero_and] at hmode
    exact not_not.mp (mt hmode.mpr fun hne => hne rfl)
  · rintro ⟨hflags, hset, hreadable, hwritable⟩
    refine ⟨fun newattr hnew => ?_, ?_, ?_, (roundTrip_iff hv).mpr hflags⟩
    · rw [hflags, BitVec.zero_and, hset newattr hnew]
    · rw [hreadable, unreadable, hflags]
      rfl
    · rw [hwritable, unwritable, hflags]
      rfl

theorem step_setattr_settable (hv : s.Valid) (h : Settable s.attr newattr) :
    s.step (.setattr newattr) =
      some { s with table := s.table.clearFlags s.mqdes, set := some newattr } := by
  rw [step, sysMqSetattr_settable hv.1 hv.2 h]
  rfl

theorem step_setattr_not_settable (hv : s.Valid) (h : ¬ Settable s.attr newattr) :
    s.step (.setattr newattr) = some s := by
  rw [step, sysMqSetattr_not_settable hv.1 hv.2 h]
  rfl

theorem step_valid (hv : s.Valid) (hstep : s.step e = some t) : t.Valid ∧ t.opened = s.opened := by
  have hsame : ∀ {table}, SameDescs s.table table → Valid { s with table } := by
    intro table hsame
    exact ⟨hsame.bitmapMqds ▸ hv.1, hsame.taskMqds ▸ hv.2⟩
  cases e with
  | getattr =>
      obtain rfl := Option.some.inj hstep
      exact ⟨hv, rfl⟩
  | setattr newattr =>
      by_cases hok : Settable s.attr newattr
      · obtain rfl := Option.some.inj ((step_setattr_settable hv hok).symm.trans hstep)
        exact ⟨hv, rfl⟩
      · obtain rfl := Option.some.inj ((step_setattr_not_settable hv hok).symm.trans hstep)
        exact ⟨hv, rfl⟩
  | send k w msgPtr msgLen msgPrio =>
      obtain ⟨⟨k', table, r⟩, hsend, rfl⟩ := Option.map_eq_some_iff.mp hstep
      exact ⟨hsame (sysMqSend_sameDescs hsend), rfl⟩
  | receive k w msgLen msgPrio =>
      obtain ⟨⟨k', table, r⟩, hreceive, rfl⟩ := Option.map_eq_some_iff.mp hstep
      exact ⟨hsame (sysMqReceive_sameDescs hreceive), rfl⟩

/-- One call keeps the mode exactly if it does not succeed in asking for the non-blocking one. -/
theorem step_keepsMode (hv : s.Valid) (h : s.KeepsMode) (hstep : s.step e = some t) :
    s.SetsBlocking e ↔ t.KeepsMode := by
  obtain ⟨hflags, hset, hopened⟩ := (keepsMode_iff hv).mp h
  obtain ⟨hv', hopened'⟩ := step_valid hv hstep
  have hsame : t.attr = s.attr → t.set = s.set → t.KeepsMode := by
    intro hattr hset'
    exact (keepsMode_iff hv').mpr (by rw [hattr, hset', hopened']; exact ⟨hflags, hset, hopened⟩)
  cases e with
  | getattr =>
      obtain rfl := Option.some.inj hstep
      exact iff_of_true trivial h
  | setattr newattr =>
      by_cases hok : Settable s.attr newattr
      · obtain rfl := Option.some.inj ((step_setattr_settable hv hok).symm.trans hstep)
        have hisOk : (s.table.sysMqSetattr s.task s.mqdes newattr).2.isOk = true :=
          congrArg (fun r => r.2.isOk) (sysMqSetattr_settable hv.1 hv.2 hok)
        rw [keepsMode_iff hv', SetsBlocking, attr]
        simp only [hisOk, clearFlags, Function.update_self, Option.mem_some_iff, forall_eq', true_and, hopened,
          and_true, forall_true_left]
      · obtain rfl := Option.some.inj ((step_setattr_not_settable hv hok).symm.trans hstep)
        refine iff_of_true (fun hisOk => ?_) h
        rw [sysMqSetattr_not_settable hv.1 hv.2 hok] at hisOk
        cases hisOk
  | send k w msgPtr msgLen msgPrio =>
      obtain ⟨⟨k', table, r⟩, hsend, rfl⟩ := Option.map_eq_some_iff.mp hstep
      refine iff_of_true trivial (hsame ?_ rfl)
      rw [attr, (sysMqSend_sameDescs hsend).mqdTable, attr]
  | receive k w msgLen msgPrio =>
      obtain ⟨⟨k', table, r⟩, hreceive, rfl⟩ := Option.map_eq_some_iff.mp hstep
      refine iff_of_true trivial (hsame ?_ rfl)
      rw [attr, (sysMqReceive_sameDescs hreceive).mqdTable, attr]

/-- A descriptor keeps its modes, over all calls with it, exactly if it was opened with no flags
and no call of `sys_mq_setattr` succeeds in asking for the non-blocking mode. -/
theorem keepsMode_iff_setsBlocking {table table' : MqTable} {task : Pid} {name : List Byte}
    {oflag : Word} {attr : Option MqAttr} {newMq buf : Option Word}
    {links : Ring.Cells (MqList ⊕ Nat)} {elements : Nat → MqData} {mqdes : Nat}
    {events : List MqDescEvent}
    (hopen : table.sysMqOpen task name oflag attr newMq buf links elements =
      some (table', .ok mqdes))
    (hrun : Runs.exec step (start table' task mqdes) events = some s) :
    (oflag = 0#32 ∧ Runs.AllOk SetsBlocking step (start table' task mqdes) events) ↔
      ∀ n u, Runs.exec step (start table' task mqdes) (events.take n) = some u → u.KeepsMode := by
  obtain ⟨hbit, htask, hattr⟩ := sysMqOpen_ok hopen
  have hv : (start table' task mqdes).Valid := ⟨hbit, htask⟩
  have hflags : (start table' task mqdes).attr.flags = oflag := congrArg MqAttr.flags hattr
  have hstart : (start table' task mqdes).KeepsMode ↔ oflag = 0#32 := by
    rw [keepsMode_iff hv, hflags]
    refine and_iff_left_of_imp fun hzero => ?_
    have hzero' : (start table' task mqdes).opened.flags = 0#32 := hflags.trans hzero
    exact ⟨nofun, by rw [unreadable, hzero']; rfl, by rw [unwritable, hzero']; rfl⟩
  have hrest := fun hkeeps => Runs.allOk_iff_forall_take (I := Valid)
    (fun _ _ _ hv hstep => (step_valid hv hstep).1)
    (fun _ _ _ hv hkeeps hstep => step_keepsMode hv hkeeps hstep) hv hkeeps hrun
  constructor
  · rintro ⟨hzero, hok⟩
    exact (hrest (hstart.mpr hzero)).mp hok
  · intro hall
    have hkeeps := hall 0 _ rfl
    exact ⟨hstart.mp hkeeps, (hrest hkeeps).mpr hall⟩

def oneQueue : MqTable := { emptyTable with mqueueList := [([97#8], 0x20000000#32)] }

def readTable : MqTable := oneQueue.register 0 0 ⟨0x20000000#32, ⟨0#32, 16#32, 52#32⟩⟩

def readCalls : List MqDescEvent :=
  [.setattr ⟨0#32, 16#32, 52#32⟩, .receive Kernel.schedStart (.entering 0) 52#32 false, .getattr]

theorem keepsMode_without_flags : ∃ s,
    oneQueue.sysMqOpen 0 [97#8] 0#32 (some ⟨0#32, 16#32, 52#32⟩) none none ⟨id, id⟩
      (fun _ => ⟨0#32, fun _ => 0#8⟩) = some (readTable, .ok 0) ∧
    Runs.exec step (start readTable 0 0) readCalls = some s ∧ s.set.isSome ∧ s.KeepsMode := by
  have hopen : oneQueue.sysMqOpen 0 [97#8] 0#32 (some ⟨0#32, 16#32, 52#32⟩) none none ⟨id, id⟩
      (fun _ => ⟨0#32, fun _ => 0#8⟩) = some (readTable, .ok 0) := rfl
  have hok : Runs.AllOk SetsBlocking step (start readTable 0 0) readCalls := by decide
  refine ⟨_, hopen, rfl, rfl, ?_⟩
  exact (keepsMode_iff_setsBlocking hopen rfl).mp ⟨rfl, hok⟩ 3 _ rfl

/-- A descriptor for reading and writing is asked to be non-blocking: the call succeeds, and
leaves one that blocks and is for reading only. -/
theorem keepsMode_not_nonblocking : ∃ table s,
    oneQueue.sysMqOpen 0 [97#8] oRdwr (some ⟨0#32, 16#32, 52#32⟩) none none ⟨id, id⟩
      (fun _ => ⟨0#32, fun _ => 0#8⟩) = some (table, .ok 0) ∧
    Runs.exec step (start table 0 0) [.setattr ⟨oNonblock, 16#32, 52#32⟩] = some s ∧
      s.set = some ⟨oNonblock, 16#32, 52#32⟩ ∧ s.attr.flags &&& oNonblock = 0#32 ∧
      unwritable s.opened = false ∧ unwritable s.attr = true ∧ ¬ s.KeepsMode := by
  refine ⟨_, _, rfl, rfl, rfl, rfl, rfl, rfl, fun h => ?_⟩
  exact absurd h.writable (by decide)

end MqDescriptor

end Tenok
