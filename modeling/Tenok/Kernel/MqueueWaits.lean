import Mathlib.Data.Finset.Card
import Tenok.Kernel.MqueueRuns
import Tenok.Kernel.PipeRuns

/-!
The threads that wait for a message queue. A successful call wakes one thread of the other
side, and a thread that was woken can find that another one was faster; as long as anybody
waits, there are as many threads on their way as the queue has messages or free elements.
-/
namespace Tenok
open Ring Queues Kernel Mqueue

namespace Mqueue

def MqCall.side : MqCall → PipeSide
  | .send _ _ _ _ => .write
  | .receive _ _ _ => .read

/-- The tests before the call looks at the queue. -/
def MqCall.refused : MqCall → Bool
  | .send attr _ msgLen _ => unwritable attr || attr.msgsize < msgLen
  | .receive attr msgLen _ => unreadable attr || msgLen < attr.msgsize

/-- `r_wait_list` and `w_wait_list` of the queue with number `q`. -/
def waitList (q : Nat) : PipeSide → WaitQueue
  | .read => .mqueueRead q
  | .write => .mqueueWrite q

/-- The messages in the queue, or its free elements. -/
def room (mq : Mqueue) : PipeSide → Nat
  | .read => mq.mqLen.toNat
  | .write => mq.mqAvail.toNat

/-- A pass of the loop of `sys_mq_send` or `sys_mq_receive` on queue `q`, and whether the call is
to be made again. -/
def serve (q : Nat) (k : Kernel) (mq : Mqueue) : MqCall → Option (Kernel × Mqueue × Bool)
  | .send attr msgPtr msgLen msgPrio =>
      (mqSend k q mq attr msgPtr msgLen msgPrio).map fun (k, mq, r) => (k, mq, restart r)
  | .receive attr msgLen msgPrio =>
      (mqReceive k q mq attr msgLen msgPrio).map fun (k, mq, r) => (k, mq, restart r)

end Mqueue

/-- The threads around a queue, which is one of `Q`. -/
structure MqSys (Q : Type) where
  kernel : Kernel
  mq : Q
  /-- The call that a thread has to make again after `schedule`. -/
  calls : Tid → Option MqCall

inductive MqEvent
  | call (c : MqCall)
  | retry
  | background (b : Background)

namespace MqSys

section Step
variable {Q : Type} (serve : Kernel → Q → MqCall → Option (Kernel × Q × Bool)) (s : MqSys Q)

def running : Tid := s.kernel.runningThread

/-- The running thread has the CPU and has not queued itself. -/
def Executing : Prop := s.kernel.Unqueued

instance decidableExecuting : Decidable s.Executing :=
  inferInstanceAs (Decidable s.kernel.Unqueued)

def finish (c : MqCall) (kernel : Kernel) (mq : Q) (restart : Bool) : MqSys Q where
  kernel := kernel
  mq := mq
  calls := Function.update s.calls s.running (if restart then some c else none)

def attempt (c : MqCall) : Option (MqSys Q) :=
  (serve s.kernel s.mq c).map fun (kernel, mq, restart) => s.finish c kernel mq restart

def step : MqEvent → Option (MqSys Q)
  | .call c => if s.Executing ∧ (s.calls s.running).isNone then s.attempt serve c else none
  | .retry => if s.Executing then (s.calls s.running).bind (s.attempt serve) else none
  | .background b =>
      (s.kernel.background (s.calls s.running).isNone b).map fun kernel => { s with kernel }

def attempted : MqEvent → Option MqCall
  | .call c => some c
  | .retry => s.calls s.running
  | .background _ => none

def InCall (d : PipeSide) (t : Tid) : Prop := (s.calls t).map MqCall.side = some d

instance decidableInCall (d : PipeSide) (t : Tid) : Decidable (s.InCall d t) :=
  inferInstanceAs (Decidable (_ = _))

/-- The threads in calls of a side that are not in its wait list `l`: they were woken and have
not made the call again. -/
def wokenFrom (d : PipeSide) (l : List Tid) : Finset Tid :=
  (Finset.range threadMax).filter fun t => s.InCall d t ∧ t ∉ l

/-- If threads wait on a side, then those that were woken from it and have not made their
call again are as many as can be served. -/
def WakeupsKept (room : Q → PipeSide → Nat) (q : Nat) : Prop :=
  ∀ d, s.kernel.members (.wait (waitList q d)) ≠ [] →
    room s.mq d ≤ (s.wokenFrom d (s.kernel.members (.wait (waitList q d)))).card

/-- Nobody waits for queue `q`. -/
structure Idle (q : Nat) : Prop where
  settled : s.kernel.Settled
  empty : ∀ d, listEmpty s.kernel.links (.inl (.wait (waitList q d))) = true
  outside : ∀ t, s.calls t = none

end Step

/-- The same in terms of the lists, with what the steps rely on. A call that has waited is not
refused when it is made again. -/
structure Sound (q : Nat) (s : MqSys Mqueue) (L : SchedList → List Tid) : Prop where
  steady : s.kernel.Steady L
  cnt_le : s.mq.cnt.toNat ≤ s.mq.size.toNat
  admitted : ∀ t, ∀ c ∈ s.calls t, c.refused = false
  waiting : ∀ d, ∀ t ∈ L (.wait (waitList q d)), s.InCall d t
  woken : ∀ d, L (.wait (waitList q d)) ≠ [] →
    s.mq.room d ≤ (s.wokenFrom d (L (.wait (waitList q d)))).card

theorem mem_wokenFrom {s : MqSys Mqueue} {d : PipeSide} {l : List Tid} {t : Tid} :
    t ∈ s.wokenFrom d l ↔ t < threadMax ∧ s.InCall d t ∧ t ∉ l := by
  rw [wokenFrom, Finset.mem_filter, Finset.mem_range]

section Calls
variable {mq mq' : Mqueue} {msg : MqMessage} {msgPtr : Nat → Byte} {msgLen : Word} {p : MqPrio}
  {msgPrio : Bool} {q : Nat} {s s' : MqSys Mqueue} {c : MqCall}

theorem mqOut_cnt (h : mq.mqOut msgPrio = some (mq', msg)) :
    mq'.cnt = mq.cnt - 1#32 ∧ mq'.size = mq.size := by
  simp only [mqOut, Option.bind_eq_bind, Option.bind_eq_some_iff, Option.some.injEq,
    Prod.mk.injEq] at h
  obtain ⟨prio, -, element, -, rfl, -⟩ := h
  exact ⟨rfl, rfl⟩

theorem mqIn_cnt (h : mq.mqIn msgPtr msgLen p = some mq') :
    mq'.cnt = mq.cnt + 1#32 ∧ mq'.size = mq.size := by
  simp only [mqIn, Option.bind_eq_bind, Option.bind_eq_some_iff, Option.some.injEq] at h
  obtain ⟨element, -, rfl⟩ := h
  exact ⟨rfl, rfl⟩

/-- What a call did to the queue: one message more or less, and one wake-up. -/
def Served (q : Nat) (s : MqSys Mqueue) (d : PipeSide) (kernel : Kernel) (mq : Mqueue) : Prop :=
  mq.room d + 1 = s.mq.room d ∧ mq.room d.other = s.mq.room d.other + 1 ∧
    mq.cnt.toNat ≤ mq.size.toNat ∧
    s.kernel.wakeUp (.wait (waitList q d.other)) = some kernel

/-- What a call comes to: it gives up, waits or is served. -/
def Outcome (q : Nat) (s : MqSys Mqueue) (c : MqCall) (s' : MqSys Mqueue) : Prop :=
  (s' = s.finish c s.kernel s.mq false ∧ (c.refused = false → s.mq.room c.side = 0)) ∨
  (s' = s.finish c (s.kernel.prepareToWait (.wait (waitList q c.side)) s.running .wait) s.mq
      true ∧ c.refused = false ∧ s.mq.room c.side = 0) ∨
  ∃ kernel mq, s' = s.finish c kernel mq false ∧ Served q s c.side kernel mq

theorem toNat_mqAvail (hle : mq.cnt.toNat ≤ mq.size.toNat) :
    mq.mqAvail.toNat = mq.size.toNat - mq.cnt.toNat :=
  BitVec.toNat_sub_of_le hle

theorem outcome_of_receive {attr : MqAttr} (hle : s.mq.cnt.toNat ≤ s.mq.size.toNat)
    (hattempt : s.attempt (serve q) (.receive attr msgLen msgPrio) = some s') :
    Outcome q s (.receive attr msgLen msgPrio) s' := by
  obtain ⟨⟨k', mq', again⟩, hserve, rfl⟩ := Option.map_eq_some_iff.mp hattempt
  obtain ⟨⟨k₁, mq₁, r⟩, h, heq⟩ := Option.map_eq_some_iff.mp hserve
  obtain ⟨rfl, rfl, rfl⟩ : k₁ = k' ∧ mq₁ = mq' ∧ restart r = again := by simpa using heq
  simp only [mqReceive] at h
  split at h
  · next hunreadable =>
      obtain ⟨rfl, rfl, rfl⟩ := h
      exact Or.inl ⟨rfl, by simp [MqCall.refused, hunreadable]⟩
  · next hunreadable =>
      split at h
      · next hsize =>
          obtain ⟨rfl, rfl, rfl⟩ := h
          exact Or.inl ⟨rfl, by simp [MqCall.refused, hsize]⟩
      · next hsize =>
          have hadmitted : (MqCall.receive attr msgLen msgPrio).refused = false := by
            simp [MqCall.refused, hunreadable, BitVec.not_lt.mp hsize]
          split at h
          · next hlen =>
              have hroom : s.mq.room .read = 0 := Nat.le_zero.mp hlen
              rw [mqBlock] at h
              split at h
              · obtain ⟨rfl, rfl, rfl⟩ := h
                exact Or.inl ⟨rfl, fun _ => hroom⟩
              · obtain ⟨rfl, rfl, rfl⟩ := h
                exact Or.inr (Or.inl ⟨rfl, hadmitted, hroom⟩)
          · next hlen =>
              simp only [Option.bind_eq_bind, Option.bind_eq_some_iff] at h
              obtain ⟨⟨mq'', msg⟩, hout, k'', hwake, heq⟩ := h
              obtain ⟨rfl, rfl, rfl⟩ : k'' = k₁ ∧ mq'' = mq₁ ∧ .ok msg = r := by simpa using heq
              obtain ⟨hcnt, hsz⟩ := mqOut_cnt hout
              have hpos : 0 < s.mq.cnt.toNat := Nat.pos_of_ne_zero fun h0 => hlen (Nat.le_of_eq h0)
              have hcnt' : mq''.cnt.toNat = s.mq.cnt.toNat - 1 := by
                rw [hcnt, BitVec.toNat_sub_of_le hpos]
                rfl
              have hle' : mq''.cnt.toNat ≤ mq''.size.toNat := by
                rw [hsz]
                omega
              refine Or.inr (Or.inr ⟨k'', mq'', rfl, ?_, ?_, hle', hwake⟩)
              · change mq''.cnt.toNat + 1 = s.mq.cnt.toNat
                omega
              · change mq''.mqAvail.toNat = s.mq.mqAvail.toNat + 1
                rw [toNat_mqAvail hle', toNat_mqAvail hle, hsz]
                omega

theorem outcome_of_send {attr : MqAttr} (hle : s.mq.cnt.toNat ≤ s.mq.size.toNat)
    (hattempt : s.attempt (serve q) (.send attr msgPtr msgLen p) = some s') :
    Outcome q s (.send attr msgPtr msgLen p) s' := by
  obtain ⟨⟨k', mq', again⟩, hserve, rfl⟩ := Option.map_eq_some_iff.mp hattempt
  obtain ⟨⟨k₁, mq₁, r⟩, h, heq⟩ := Option.map_eq_some_iff.mp hserve
  obtain ⟨rfl, rfl, rfl⟩ : k₁ = k' ∧ mq₁ = mq' ∧ restart r = again := by simpa using heq
  simp only [mqSend] at h
  split at h
  · next hunwritable =>
      obtain ⟨rfl, rfl, rfl⟩ := h
      exact Or.inl ⟨rfl, by simp [MqCall.refused, hunwritable]⟩
  · next hunwritable =>
      split at h
      · next hsize =>
          obtain ⟨rfl, rfl, rfl⟩ := h
          exact Or.inl ⟨rfl, by simp [MqCall.refused, hsize]⟩
      · next hsize =>
          have hadmitted : (MqCall.send attr msgPtr msgLen p).refused = false := by
            simp [MqCall.refused, hunwritable, BitVec.not_lt.mp hsize]
          split at h
          · next havail =>
              have hroom : s.mq.room .write = 0 := Nat.le_zero.mp havail
              rw [mqBlock] at h
              split at h
              · obtain ⟨rfl, rfl, rfl⟩ := h
                exact Or.inl ⟨rfl, fun _ => hroom⟩
              · obtain ⟨rfl, rfl, rfl⟩ := h
                exact Or.inr (Or.inl ⟨rfl, hadmitted, hroom⟩)
          · next havail =>
              simp only [Option.bind_eq_bind, Option.bind_eq_some_iff] at h
              obtain ⟨mq'', hin, k'', hwake, heq⟩ := h
              obtain ⟨rfl, rfl, rfl⟩ : k'' = k₁ ∧ mq'' = mq₁ ∧ .ok () = r := by simpa using heq
              obtain ⟨hcnt, hsz⟩ := mqIn_cnt hin
              have hroom : s.mq.mqAvail.toNat = s.mq.size.toNat - s.mq.cnt.toNat :=
                toNat_mqAvail hle
              have hpos : 0 < s.mq.mqAvail.toNat :=
                Nat.pos_of_ne_zero fun h0 => havail (Nat.le_of_eq h0)
              have hlt := s.mq.size.isLt
              have hcnt' : mq''.cnt.toNat = s.mq.cnt.toNat + 1 := by
                rw [hcnt, BitVec.toNat_add]
                exact Nat.mod_eq_of_lt (by simp only [BitVec.toNat_ofNat]; omega)
              have hle' : mq''.cnt.toNat ≤ mq''.size.toNat := by
                rw [hsz]
                omega
              refine Or.inr (Or.inr ⟨k'', mq'', rfl, ?_, hcnt', hle', hwake⟩)
              change mq''.mqAvail.toNat + 1 = s.mq.mqAvail.toNat
              rw [toNat_mqAvail hle', hsz]
              omega

theorem attempt_outcome (hle : s.mq.cnt.toNat ≤ s.mq.size.toNat) (h : s.attempt (serve q) c = some s') :
    Outcome q s c s' := by
  cases c with
  | send attr msgPtr msgLen p => exact outcome_of_send hle h
  | receive attr msgLen msgPrio => exact outcome_of_receive hle h

end Calls

namespace Sound
variable {q : Nat} {s s' : MqSys Mqueue} {L L' : SchedList → List Tid} {c : MqCall} {d : PipeSide}
  {e : MqEvent} {k' : Kernel} {mq : Mqueue} {x : Option MqCall} {l : List Tid}

theorem waitList_inj {d d' : PipeSide} (h : waitList q d = waitList q d') : d = d' := by
  cases d <;> cases d' <;> first | rfl | cases h

theorem inUse (q : Nat) (d : PipeSide) (A : Set Tid) :
    SchedList.wait (waitList q d) ∈ Tenok.inUse A := by
  cases d <;> simp [Tenok.inUse, waitList, SchedList.owner]

theorem wokenFrom_subset (hcalls : s'.calls = Function.update s.calls s.running x)
    (hout : ¬ s.InCall d s.running) : s.wokenFrom d l ⊆ s'.wokenFrom d l := by
  intro t ht
  rw [mem_wokenFrom] at ht ⊢
  have hne : t ≠ s.running := fun h => hout (h ▸ ht.2.1)
  rw [InCall, hcalls, Function.update_of_ne hne]
  exact ht

theorem erase_subset (hcalls : s'.calls = Function.update s.calls s.running x) :
    (s.wokenFrom d l).erase s.running ⊆ s'.wokenFrom d l := by
  intro t ht
  obtain ⟨hne, ht⟩ := Finset.mem_erase.mp ht
  rw [mem_wokenFrom] at ht ⊢
  rw [InCall, hcalls, Function.update_of_ne hne]
  exact ht

theorem not_inCall_other (hcall : ∀ c' ∈ s.calls s.running, c'.side = c.side) :
    ¬ s.InCall c.side.other s.running := by
  intro hin
  obtain ⟨c', hc', hside⟩ := Option.map_eq_some_iff.mp hin
  exact c.side.other_ne (hside.symm.trans (hcall c' hc'))

theorem waiting_of_update (hs : Sound q s L) (hst : s.Executing)
    (hcalls : s'.calls = Function.update s.calls s.running x) {t : Tid}
    (ht : t ∈ L (.wait (waitList q d))) : s'.InCall d t := by
  have hne : t ≠ s.running := fun h => hs.steady.threaded.notMem_of_running hst _ (h ▸ ht)
  rw [InCall, hcalls, Function.update_of_ne hne]
  exact hs.waiting d t ht

theorem admitted_of_update (hs : Sound q s L)
    (hcalls : s'.calls = Function.update s.calls s.running x)
    (hx : ∀ c ∈ x, c.refused = false) : ∀ t, ∀ c ∈ s'.calls t, c.refused = false := by
  intro t c hc
  rw [hcalls] at hc
  by_cases ht : t = s.running
  · rw [ht, Function.update_self] at hc
    exact hx c hc
  · rw [Function.update_of_ne ht] at hc
    exact hs.admitted t c hc

theorem woken_of_not_inCall (hs : Sound q s L)
    (hcalls : s'.calls = Function.update s.calls s.running x) (hout : ¬ s.InCall d s.running)
    (hroom : s'.mq.room d = s.mq.room d)
    (hlist : L' (.wait (waitList q d)) = L (.wait (waitList q d)))
    (hne : L' (.wait (waitList q d)) ≠ []) :
    s'.mq.room d ≤ (s'.wokenFrom d (L' (.wait (waitList q d)))).card := by
  rw [hlist] at hne ⊢
  rw [hroom]
  exact (hs.woken d hne).trans (Finset.card_le_card (wokenFrom_subset hcalls hout))

theorem givesUp (hs : Sound q s L) (hst : s.Executing)
    (hcall : ∀ c' ∈ s.calls s.running, c' = c)
    (hroom : c.refused = false → s.mq.room c.side = 0) :
    Sound q (s.finish c s.kernel s.mq false) L := by
  refine ⟨hs.steady, hs.cnt_le, hs.admitted_of_update rfl (by simp),
    fun d t ht => hs.waiting_of_update hst rfl ht, fun d hne => ?_⟩
  by_cases hin : s.InCall d s.running
  · obtain ⟨c', hc', rfl⟩ := Option.map_eq_some_iff.mp hin
    obtain rfl := hcall c' hc'
    exact (hroom (hs.admitted _ _ hc')).trans_le (Nat.zero_le _)
  · exact hs.woken_of_not_inCall rfl hin rfl rfl hne

/-- There is nothing for a thread that goes to wait, nor for the others on its list. -/
theorem waits (hs : Sound q s L) (hst : s.Executing)
    (hcall : ∀ c' ∈ s.calls s.running, c'.side = c.side) (hadmitted : c.refused = false)
    (hroom : s.mq.room c.side = 0) : ∃ L', Sound q
      (s.finish c (s.kernel.prepareToWait (.wait (waitList q c.side)) s.running .wait) s.mq true)
      L' := by
  have hK := hs.steady.waitOn (q := waitList q c.side) hst (by cases c.side <;> rfl)
  have hsame : ∀ d, d ≠ c.side → enqueue L s.running (.wait (waitList q c.side))
      (.wait (waitList q d)) = L (.wait (waitList q d)) := fun d hd =>
    enqueue_of_ne fun h => hd (waitList_inj (SchedList.wait.inj h))
  refine ⟨_, hK.steady, hs.cnt_le, hs.admitted_of_update rfl (by simpa using hadmitted),
    fun d t ht => ?_, fun d hne => ?_⟩
  · obtain ht | ⟨rfl, hd⟩ := mem_enqueue.mp ht
    · exact hs.waiting_of_update hst rfl ht
    · rw [waitList_inj (SchedList.wait.inj hd)]
      simp [InCall, finish, running]
  · obtain rfl | rfl := d.eq_or_other c.side
    · exact hroom.trans_le (Nat.zero_le _)
    · exact hs.woken_of_not_inCall rfl (not_inCall_other hcall) rfl (hsame _ c.side.other_ne) hne

theorem woken_of_wakeUp {t : Tid} {p : Priority} (hs : Sound q s L)
    (hcalls : s'.calls = Function.update s.calls s.running x) (hout : ¬ s.InCall d s.running)
    (hst : s.Executing) (ht : t ∈ L (.wait (waitList q d))) :
    (s.wokenFrom d (L (.wait (waitList q d)))).card + 1 ≤
      (s'.wokenFrom d (transfer L t (.ready p) (.wait (waitList q d)))).card := by
  have hmem : ∀ u, u ∈ transfer L t (.ready p) (.wait (waitList q d)) ↔
      u ≠ t ∧ u ∈ L (.wait (waitList q d)) := fun u => by
    simp [hs.steady.threaded.rings.mem_transfer]
  have hnew : t ∉ s.wokenFrom d (L (.wait (waitList q d))) := fun h => (mem_wokenFrom.mp h).2.2 ht
  have hsub : insert t (s.wokenFrom d (L (.wait (waitList q d)))) ⊆
      s'.wokenFrom d (transfer L t (.ready p) (.wait (waitList q d))) := by
    intro u hu
    rw [mem_wokenFrom, hmem]
    obtain rfl | hu := Finset.mem_insert.mp hu
    · exact ⟨hs.steady.threaded.lt_max _ (hs.steady.threaded.alive ht),
        hs.waiting_of_update hst hcalls ht, by simp⟩
    · obtain ⟨hlt, hin, hnot⟩ := mem_wokenFrom.mp (wokenFrom_subset hcalls hout hu)
      exact ⟨hlt, hin, fun h => hnot h.2⟩
  have hcard := Finset.card_le_card hsub
  rwa [Finset.card_insert_of_notMem hnew] at hcard

/-- A thread that is served was counted at most once for its side, and the one that it wakes
is counted for the other. -/
theorem served (hs : Sound q s L) (hst : s.Executing)
    (hcall : ∀ c' ∈ s.calls s.running, c'.side = c.side) (hserved : Served q s c.side k' mq) :
    ∃ L', Sound q (s.finish c k' mq false) L' := by
  obtain ⟨hroom, hother, hle, hwake⟩ := hserved
  have hcalls : (s.finish c k' mq false).calls = Function.update s.calls s.running none := rfl
  obtain ⟨L', hK, hcases⟩ := hs.steady.wakeUp (by cases c.side <;> rfl) hwake
  have hsame : L' (.wait (waitList q c.side)) = L (.wait (waitList q c.side)) :=
    hK.queues _ fun h => c.side.other_ne (waitList_inj (Set.mem_singleton_iff.mp h)).symm
  have hself : L (.wait (waitList q c.side)) ≠ [] → mq.room c.side ≤
      ((s.finish c k' mq false).wokenFrom c.side (L (.wait (waitList q c.side)))).card := by
    intro hne
    have hwoken := hs.woken c.side hne
    have herase := Finset.pred_card_le_card_erase (a := s.running)
      (s := s.wokenFrom c.side (L (.wait (waitList q c.side))))
    have hcard := Finset.card_le_card (erase_subset (d := c.side)
      (l := L (.wait (waitList q c.side))) hcalls)
    omega
  have hsub : ∀ d, ∀ t ∈ L' (.wait (waitList q d)), t ∈ L (.wait (waitList q d)) := by
    intro d t ht
    obtain rfl | rfl := d.eq_or_other c.side
    · rwa [hsame] at ht
    · obtain ⟨-, rfl, -⟩ | ⟨first, l, -, -, rfl⟩ := hcases
      · exact ht
      · exact ((hs.steady.threaded.rings.mem_transfer.mp ht).resolve_right (by simp)).2
  refine ⟨L', hK.steady, hle, hs.admitted_of_update hcalls (by simp),
    fun d t ht => hs.waiting_of_update hst hcalls (hsub d t ht), fun d hne => ?_⟩
  obtain rfl | rfl := d.eq_or_other c.side
  · rw [hsame] at hne ⊢
    exact hself hne
  · obtain ⟨hempty, rfl, -⟩ | ⟨first, l, hl, -, rfl⟩ := hcases
    · exact absurd hempty hne
    · have ht : l.foldl s.kernel.higher first ∈ L (.wait (waitList q c.side.other)) := by
        rw [hl]
        exact Threaded.foldl_higher_mem s.kernel first l
      generalize l.foldl s.kernel.higher first = t at *
      have hwoken := hs.woken _ (List.ne_nil_of_mem ht)
      have hcard := hs.woken_of_wakeUp (p := (s.kernel.threads t).priority) hcalls
        (not_inCall_other hcall) hst ht
      change mq.room c.side.other ≤ _
      omega

theorem attempt (hs : Sound q s L) (hst : s.Executing) (hcall : ∀ c' ∈ s.calls s.running, c' = c)
    (hstep : s.attempt (serve q) c = some s') : ∃ L', Sound q s' L' := by
  have hside : ∀ c' ∈ s.calls s.running, c'.side = c.side := fun c' hc' => by rw [hcall c' hc']
  obtain ⟨rfl, hroom⟩ | ⟨rfl, hadmitted, hroom⟩ | ⟨k', mq, rfl, hserved⟩ :=
    attempt_outcome hs.cnt_le hstep
  · exact ⟨L, hs.givesUp hst hcall hroom⟩
  · exact hs.waits hst hside hadmitted hroom
  · exact hs.served hst hside hserved

theorem step (hs : Sound q s L) (hstep : s.step (serve q) e = some s') : ∃ L', Sound q s' L' := by
  cases e with
  | call c =>
      simp only [MqSys.step, Option.ite_none_right_eq_some, Option.isNone_iff_eq_none] at hstep
      obtain ⟨⟨hst, hnone⟩, hstep⟩ := hstep
      exact hs.attempt hst (by simp [hnone]) hstep
  | retry =>
      simp only [MqSys.step, Option.ite_none_right_eq_some, Option.bind_eq_some_iff] at hstep
      obtain ⟨hst, c, hc, hstep⟩ := hstep
      exact hs.attempt hst (fun c' hc' => Option.some.inj (hc'.symm.trans hc)) hstep
  | background b =>
      obtain ⟨k₁, hk₁, rfl⟩ := Option.map_eq_some_iff.mp hstep
      obtain ⟨L', hK⟩ := hs.steady.background hk₁
      have hsame : ∀ d, L' (.wait (waitList q d)) = L (.wait (waitList q d)) := fun d =>
        hK.queues _ (Set.notMem_empty _)
      refine ⟨L', hK.steady, hs.cnt_le, hs.admitted, fun d t ht => hs.waiting d t (hsame d ▸ ht),
        fun d hne => ?_⟩
      rw [hsame d] at hne ⊢
      exact hs.woken d hne

theorem wakeupsKept (hs : Sound q s L) : s.WakeupsKept Mqueue.room q := by
  intro d hne
  rw [hs.steady.threaded.members_eq (inUse q d _)] at hne ⊢
  exact hs.woken d hne

theorem of_idle (hidle : s.Idle q) (hcnt : s.mq.cnt = 0#32) : ∃ L, Sound q s L := by
  obtain ⟨L, hS⟩ := hidle.settled.steady
  have hnil : ∀ d, L (.wait (waitList q d)) = [] := fun d => by
    simpa using (listEmpty_iff (hS.threaded.rings.ring _ (inUse q d _))).mp (hidle.empty d)
  exact ⟨L, hS, by simp [hcnt], fun t c hc => by simp [hidle.outside] at hc,
    fun d t ht => by simp [hnil] at ht, fun d hne => absurd (hnil d) hne⟩

end Sound

end MqSys

end Tenok
