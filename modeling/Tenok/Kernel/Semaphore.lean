import Mathlib.Algebra.Group.Int.Defs
import Mathlib.Data.Finset.Card
import Tenok.Kernel.Steady

/-!
`kernel/semaphore.c` used by any number of threads. What is between `preempt_disable` and
a `schedule` or `preempt_enable` is one step. A thread in the loop of `down` has queued
itself and tests the counter again when it has the CPU again; it can find that another
thread was faster.
-/
namespace Tenok
open Ring Queues Kernel

def int32Max : Int := 2 ^ 31 - 1

inductive SemCall
  | down
  | downTrylock
  | up
  deriving DecidableEq, Repr

structure SemSys where
  kernel : Kernel
  /-- The tests of `down` and `up` keep it in the range of an `int32_t`. -/
  count : Int
  /-- The thread is inside the loop of `down`. -/
  inDown : Tid → Bool
  /-- What the calls have returned so far. Not stored by the code. -/
  returned : List (SemCall × Except Errno Unit)

inductive SemEvent
  | down
  | downTrylock
  | up
  /-- The running thread goes on in `down` after `schedule`. -/
  | retest
  | background (b : Background)

namespace SemSys

def running (s : SemSys) : Tid := s.kernel.runningThread

/-- The running thread has the CPU and has not queued itself. -/
def Executing (s : SemSys) : Prop := s.kernel.Unqueued

instance decidableExecuting (s : SemSys) : Decidable s.Executing :=
  inferInstanceAs (Decidable s.kernel.Unqueued)

def setInDown (s : SemSys) (b : Bool) : SemSys :=
  { s with inDown := Function.update s.inDown s.running b }

def acquire (s : SemSys) : SemSys := { s with count := s.count - 1 }

def queueSelf (s : SemSys) (i : Nat) : SemSys :=
  { s with kernel := s.kernel.prepareToWait (.wait (.semaphore i)) s.running .wait }

/-- A pass of the loop of `down` on semaphore `i`, up to `schedule` or to its end. -/
def downPass (s : SemSys) (i : Nat) : SemSys × Option (Except Errno Unit) :=
  if s.count ≤ 0 then ((s.queueSelf i).setInDown true, none)
  else (s.acquire.setInDown false, some (.ok ()))

def downTrylock (s : SemSys) : SemSys × Except Errno Unit :=
  if s.count ≤ 0 then (s, .error .eagain) else (s.acquire, .ok ())

def up (s : SemSys) (i : Nat) : Option (SemSys × Except Errno Unit) :=
  if int32Max - 1 ≤ s.count then some (s, .error .eoverflow)
  else
    let s := { s with count := s.count + 1 }
    if 0 < s.count ∧ listEmpty s.kernel.links (.inl (.wait (.semaphore i))) = false then do
      let kernel ← s.kernel.wakeUp (.wait (.semaphore i))
      some ({ s with kernel }, .ok ())
    else some (s, .ok ())

def Free (s : SemSys) : Prop := s.Executing ∧ s.inDown s.running = false

instance decidableFree (s : SemSys) : Decidable s.Free := inferInstanceAs (Decidable (_ ∧ _))

def record (s : SemSys) (c : SemCall) (r : Option (Except Errno Unit)) : SemSys :=
  { s with returned := s.returned ++ (r.map fun r => (c, r)).toList }

def step (i : Nat) (s : SemSys) : SemEvent → Option SemSys
  | .down => if s.Free then some ((s.downPass i).1.record .down (s.downPass i).2) else none
  | .downTrylock =>
      if s.Free then some (s.downTrylock.1.record .downTrylock (some s.downTrylock.2)) else none
  | .up => if s.Free then (s.up i).map fun p => p.1.record .up (some p.2) else none
  | .retest =>
      if s.Executing ∧ s.inDown s.running = true then
        some ((s.downPass i).1.record .down (s.downPass i).2)
      else none
  | .background b =>
      (s.kernel.background (!s.inDown s.running) b).map fun kernel => { s with kernel }

/-- A semaphore that `sema_init` has just given the value `v`. -/
structure Started (i : Nat) (v : Int) (s : SemSys) : Prop where
  settled : s.kernel.Settled
  nonneg : 0 ≤ v
  count : s.count = v
  waitList : listEmpty s.kernel.links (.inl (.wait (.semaphore i))) = true
  outside : ∀ t, s.inDown t = false
  fresh : s.returned = []

def ups (s : SemSys) : Nat := s.returned.countP fun r => r.1 = .up ∧ r.2.isOk

/-- How many calls of `down` and `down_trylock` have returned 0. -/
def downs (s : SemSys) : Nat := s.returned.countP fun r => r.1 ≠ .up ∧ r.2.isOk

/-- The threads of `down` that are not in a wait list `l`: they were woken and have not
tested the counter again. -/
def wokenFrom (s : SemSys) (l : List Tid) : Finset Tid :=
  (Finset.range threadMax).filter fun t => s.inDown t = true ∧ t ∉ l

/-- The books of a semaphore that had the value `v`. -/
structure Accounts (i : Nat) (v : Int) (s : SemSys) : Prop where
  nonneg : 0 ≤ s.count
  inRange : s.count ≤ max v (int32Max - 1)
  balance : s.count = v + s.ups - s.downs
  woken : s.kernel.members (.wait (.semaphore i)) ≠ [] →
    s.count ≤ (s.wokenFrom (s.kernel.members (.wait (.semaphore i)))).card

/-- The same in terms of the lists, with what the steps rely on. -/
structure Sound (i : Nat) (v : Int) (s : SemSys) (L : SchedList → List Tid) : Prop where
  steady : s.kernel.Steady L
  nonneg : 0 ≤ s.count
  inRange : s.count ≤ max v (int32Max - 1)
  waiting : ∀ t ∈ L (.wait (.semaphore i)), s.inDown t = true
  woken : L (.wait (.semaphore i)) ≠ [] →
    s.count ≤ (s.wokenFrom (L (.wait (.semaphore i)))).card

/-- A call that returns `r` has changed the counter by what it says. -/
structure Answers (s s' : SemSys) (c : SemCall) (r : Option (Except Errno Unit)) : Prop where
  returned : s'.returned = s.returned
  count : s'.count = s.count + match c, r with
    | .up, some (.ok _) => 1
    | _, some (.ok _) => -1
    | _, _ => 0

theorem mem_wokenFrom {s : SemSys} {l : List Tid} {t : Tid} :
    t ∈ s.wokenFrom l ↔ t < threadMax ∧ s.inDown t = true ∧ t ∉ l := by
  rw [wokenFrom, Finset.mem_filter, Finset.mem_range]

namespace Sound
variable {i : Nat} {v : Int} {s s' : SemSys} {L L' : SchedList → List Tid} {k' : Kernel}
  {e : SemEvent}

theorem quiet {Q : Set WaitQueue} (hs : Sound i v s L) (hK : Kept Q s.kernel L k' L')
    (hQ : .semaphore i ∉ Q) : Sound i v { s with kernel := k' } L' := by
  have hsame := hK.queues _ hQ
  refine ⟨hK.steady, hs.nonneg, hs.inRange, ?_, ?_⟩
  · rw [hsame]
    exact hs.waiting
  · rw [hsame]
    exact hs.woken

theorem enqueueSelf (hs : Sound i v s L) (hst : s.Executing) (hcount : s.count ≤ 0) :
    ∃ L', Sound i v ((s.queueSelf i).setInDown true) L' := by
  have hK := hs.steady.waitOn (q := .semaphore i) hst rfl
  refine ⟨_, hK.steady, hs.nonneg, hs.inRange, fun t ht => ?_, fun _ => ?_⟩
  · by_cases htr : t = s.running
    · subst htr
      exact Function.update_self ..
    · obtain ht | ⟨ht, -⟩ := mem_enqueue.mp ht
      · exact (Function.update_of_ne htr ..).trans (hs.waiting t ht)
      · exact absurd ht htr
  · exact hcount.trans (Int.natCast_nonneg _)

theorem takeWoken (hs : Sound i v s L) (hst : s.Executing) (hdown : s.inDown s.running = true)
    (hcount : ¬ s.count ≤ 0) : Sound i v (s.acquire.setInDown false) L := by
  have hnot : s.running ∉ L (.wait (.semaphore i)) := hs.steady.threaded.notMem_of_running hst _
  have hlt : s.running < threadMax :=
    hs.steady.threaded.lt_max _ (hs.steady.threaded.running _ hst).2
  have hmem : s.running ∈ s.wokenFrom (L (.wait (.semaphore i))) :=
    mem_wokenFrom.mpr ⟨hlt, hdown, hnot⟩
  have hsub : (s.wokenFrom (L (.wait (.semaphore i)))).erase s.running ⊆
      (s.acquire.setInDown false).wokenFrom (L (.wait (.semaphore i))) := by
    intro t ht
    obtain ⟨hne, ht⟩ := Finset.mem_erase.mp ht
    rw [mem_wokenFrom] at ht ⊢
    exact ⟨ht.1, (Function.update_of_ne hne ..).trans ht.2.1, ht.2.2⟩
  refine ⟨hs.steady, ?_, (Int.sub_le_self _ (by decide)).trans hs.inRange, fun t ht => ?_,
    fun hne => ?_⟩
  · simp only [setInDown, acquire]
    omega
  · have hne : t ≠ s.running := fun h => hnot (h ▸ ht)
    exact (Function.update_of_ne hne ..).trans (hs.waiting t ht)
  · have hcard := Finset.card_le_card hsub
    have hwoken := hs.woken hne
    have herase := Finset.card_erase_add_one hmem
    simp only [setInDown, acquire] at *
    omega

theorem takeOther (hs : Sound i v s L) (hcount : ¬ s.count ≤ 0) : Sound i v s.acquire L := by
  refine ⟨hs.steady, ?_, (Int.sub_le_self _ (by decide)).trans hs.inRange, hs.waiting,
    fun hne => ?_⟩
  · simp only [acquire]
    omega
  · exact (Int.sub_le_self _ (by decide)).trans (hs.woken hne)

theorem setInDown_eq (hout : s.inDown s.running = false) : s.setInDown false = s := by
  rw [setInDown, ← hout, Function.update_eq_self]

theorem downPass (hs : Sound i v s L) (hst : s.Executing) : ∃ L', Sound i v (s.downPass i).1 L' := by
  rw [SemSys.downPass]
  split
  · next hcount => exact hs.enqueueSelf hst hcount
  · next hcount =>
      cases hdown : s.inDown s.running with
      | true => exact ⟨L, hs.takeWoken hst hdown hcount⟩
      | false =>
          rw [setInDown_eq (s := s.acquire) hdown]
          exact ⟨L, hs.takeOther hcount⟩

theorem wake (hs : Sound i v s L) (hmax : ¬ int32Max - 1 ≤ s.count)
    (hwake : s.kernel.wakeUp (.wait (.semaphore i)) = some k') :
    ∃ L', Sound i v { s with kernel := k', count := s.count + 1 } L' := by
  have hnonneg := hs.nonneg
  have hmax' : s.count + 1 ≤ max v (int32Max - 1) := le_max_of_le_right (by omega)
  obtain ⟨L', hK, ⟨hempty, rfl, rfl⟩ | ⟨first, l, hl, -, rfl⟩⟩ := hs.steady.wakeUp rfl hwake
  · refine ⟨L', hs.steady, by simp only; omega, hmax', hs.waiting, fun hne => ?_⟩
    exact absurd hempty hne
  · have ht : l.foldl s.kernel.higher first ∈ L (.wait (.semaphore i)) := by
      rw [hl]
      exact Threaded.foldl_higher_mem s.kernel first l
    generalize l.foldl s.kernel.higher first = t at *
    have hlist : ∀ u, u ∈ transfer L t (.ready (s.kernel.threads t).priority)
        (.wait (.semaphore i)) ↔ u ≠ t ∧ u ∈ L (.wait (.semaphore i)) := fun u => by
      simp [hs.steady.threaded.rings.mem_transfer]
    have hsub : insert t (s.wokenFrom (L (.wait (.semaphore i)))) ⊆
        SemSys.wokenFrom { s with kernel := k', count := s.count + 1 }
          (transfer L t (.ready (s.kernel.threads t).priority) (.wait (.semaphore i))) := by
      intro u hu
      rw [mem_wokenFrom, hlist]
      obtain rfl | hu := Finset.mem_insert.mp hu
      · exact ⟨hs.steady.threaded.lt_max _ (hs.steady.threaded.alive ht), hs.waiting _ ht, by simp⟩
      · obtain ⟨hlt, hdown, hnot⟩ := mem_wokenFrom.mp hu
        exact ⟨hlt, hdown, fun h => hnot h.2⟩
    have hnew : t ∉ s.wokenFrom (L (.wait (.semaphore i))) := fun h => (mem_wokenFrom.mp h).2.2 ht
    refine ⟨_, hK.steady, by simp only; omega, hmax',
      fun u hu => hs.waiting u ((hlist u).mp hu).2, fun _ => ?_⟩
    have hcard := Finset.card_le_card hsub
    have hwoken := hs.woken (List.ne_nil_of_mem ht)
    rw [Finset.card_insert_of_notMem hnew] at hcard
    simp only
    omega

theorem up {r : Except Errno Unit} (hs : Sound i v s L) (hup : s.up i = some (s', r)) :
    ∃ L', Sound i v s' L' := by
  have hnonneg := hs.nonneg
  have hin : SchedList.wait (.semaphore i) ∈ inUse {t | s.kernel.Alive t} := by
    simp [inUse, SchedList.owner]
  have hempty := listEmpty_iff (hs.steady.threaded.rings.ring _ hin)
  rw [List.map_eq_nil_iff] at hempty
  rw [SemSys.up] at hup
  split at hup
  · cases hup
    exact ⟨L, hs⟩
  · next hmax =>
    have hmax' : s.count + 1 ≤ max v (int32Max - 1) := le_max_of_le_right (by omega)
    simp only at hup
    split at hup
    · obtain ⟨k₁, hk₁, hup⟩ := Option.bind_eq_some_iff.mp hup
      cases hup
      exact hs.wake hmax hk₁
    · next hno =>
        cases hup
        -- the counter is positive now, so there was nobody to wake
        have hnil : L (.wait (.semaphore i)) = [] := by
          rw [← hempty]
          by_contra hne
          exact hno ⟨by omega, by simpa using hne⟩
        refine ⟨L, hs.steady, by simp only; omega, hmax', hs.waiting, fun hne => ?_⟩
        exact absurd hnil hne

theorem record (hs : Sound i v s L) (c : SemCall) (r : Option (Except Errno Unit)) :
    Sound i v (s.record c r) L :=
  ⟨hs.steady, hs.nonneg, hs.inRange, hs.waiting, hs.woken⟩

theorem step (hs : Sound i v s L) (hstep : s.step i e = some s') : ∃ L', Sound i v s' L' := by
  cases e with
  | down =>
      obtain ⟨hfree, rfl⟩ := by simpa [SemSys.step] using hstep
      obtain ⟨L', hs'⟩ := hs.downPass hfree.1
      exact ⟨L', hs'.record _ _⟩
  | downTrylock =>
      obtain ⟨hfree, rfl⟩ := by simpa [SemSys.step] using hstep
      refine ⟨L, Sound.record ?_ _ _⟩
      rw [SemSys.downTrylock]
      split
      · exact hs
      · next hcount => exact hs.takeOther hcount
  | up =>
      simp only [SemSys.step, Option.ite_none_right_eq_some, Option.map_eq_some_iff] at hstep
      obtain ⟨-, ⟨s₁, r⟩, hup, rfl⟩ := hstep
      obtain ⟨L', hs'⟩ := hs.up hup
      exact ⟨L', hs'.record _ _⟩
  | retest =>
      obtain ⟨⟨hst, -⟩, rfl⟩ := by simpa [SemSys.step] using hstep
      obtain ⟨L', hs'⟩ := hs.downPass hst
      exact ⟨L', hs'.record _ _⟩
  | background b =>
      obtain ⟨k₁, hk₁, rfl⟩ := Option.map_eq_some_iff.mp hstep
      obtain ⟨L', hK⟩ := hs.steady.background hk₁
      exact ⟨L', hs.quiet hK (Set.notMem_empty _)⟩

theorem accounts (hs : Sound i v s L) (hbalance : s.count = v + s.ups - s.downs) :
    Accounts i v s := by
  refine ⟨hs.nonneg, hs.inRange, hbalance, ?_⟩
  rw [hs.steady.threaded.members_eq (by simp [inUse, SchedList.owner])]
  exact hs.woken

end Sound

section Balance
variable {i : Nat} {v : Int} {s s' : SemSys} {e : SemEvent} {c : SemCall}
  {r : Option (Except Errno Unit)}

theorem Answers.balance (h : Answers s s' c r) (hs : s.count = v + s.ups - s.downs) :
    (s'.record c r).count = v + (s'.record c r).ups - (s'.record c r).downs := by
  have hcount := h.count
  rw [ups, downs] at *
  match c, r with
  | c, none => simpa [SemSys.record, h.returned, hcount] using hs
  | c, some (.error e) =>
      simpa [SemSys.record, h.returned, hcount, Except.isOk, Except.toBool] using hs
  | .up, some (.ok _) =>
      simp only [SemSys.record, h.returned, hcount, Option.map_some, Option.toList_some,
        List.countP_append, List.countP_singleton, Except.isOk, Except.toBool] at hs ⊢
      simp only [hs, and_self, decide_true, if_true, ne_eq, not_true, false_and, decide_false,
        Bool.false_eq_true, if_false]
      omega
  | .down, some (.ok _) | .downTrylock, some (.ok _) =>
      simp [SemSys.record, h.returned, hcount, Except.isOk, Except.toBool, hs]
      omega

theorem downPass_answers (s : SemSys) (i : Nat) :
    Answers s (s.downPass i).1 .down (s.downPass i).2 := by
  rw [downPass]
  split
  · exact ⟨rfl, (Int.add_zero _).symm⟩
  · exact ⟨rfl, Int.sub_eq_add_neg⟩

theorem downTrylock_answers (s : SemSys) :
    Answers s s.downTrylock.1 .downTrylock (some s.downTrylock.2) := by
  rw [downTrylock]
  split
  · exact ⟨rfl, (Int.add_zero _).symm⟩
  · exact ⟨rfl, Int.sub_eq_add_neg⟩

theorem up_answers {p : SemSys × Except Errno Unit} (hup : s.up i = some p) :
    Answers s p.1 .up (some p.2) := by
  rw [up] at hup
  split at hup
  · cases hup
    exact ⟨rfl, (Int.add_zero _).symm⟩
  · simp only at hup
    split at hup
    · obtain ⟨k₁, -, hup⟩ := Option.bind_eq_some_iff.mp hup
      cases hup
      exact ⟨rfl, rfl⟩
    · cases hup
      exact ⟨rfl, rfl⟩

theorem step_balance (hs : s.count = v + s.ups - s.downs) (hstep : s.step i e = some s') :
    s'.count = v + s'.ups - s'.downs := by
  cases e with
  | down =>
      obtain ⟨-, rfl⟩ := by simpa [SemSys.step] using hstep
      exact (s.downPass_answers i).balance hs
  | downTrylock =>
      obtain ⟨-, rfl⟩ := by simpa [SemSys.step] using hstep
      exact s.downTrylock_answers.balance hs
  | up =>
      simp only [SemSys.step, Option.ite_none_right_eq_some, Option.map_eq_some_iff] at hstep
      obtain ⟨-, p, hup, rfl⟩ := hstep
      exact (up_answers hup).balance hs
  | retest =>
      obtain ⟨-, rfl⟩ := by simpa [SemSys.step] using hstep
      exact (s.downPass_answers i).balance hs
  | background b =>
      obtain ⟨k₁, -, rfl⟩ := Option.map_eq_some_iff.mp hstep
      exact hs

end Balance

theorem Started.sound {i : Nat} {v : Int} {s : SemSys} (h : Started i v s) :
    ∃ L, Sound i v s L := by
  obtain ⟨L, hS⟩ := h.settled.steady
  have hin : SchedList.wait (.semaphore i) ∈ inUse {t | s.kernel.Alive t} := by
    simp [inUse, SchedList.owner]
  have hnil : L (.wait (.semaphore i)) = [] := by
    simpa using (listEmpty_iff (hS.threaded.rings.ring _ hin)).mp h.waitList
  refine ⟨L, hS, h.count ▸ h.nonneg, by simp [h.count], by simp [hnil], ?_⟩
  exact fun hne => absurd hnil hne

/-- Whatever threads do with a semaphore, its books are right. -/
theorem accounts_of_started {i : Nat} {v : Int} {s s' : SemSys} {es : List SemEvent}
    (hstart : Started i v s) (hrun : Runs.exec (step i) s es = some s') : Accounts i v s' := by
  have hstep : ∀ (s : SemSys) e s', (∃ L, Sound i v s L) ∧ s.count = v + s.ups - s.downs →
      step i s e = some s' → (∃ L, Sound i v s' L) ∧ s'.count = v + s'.ups - s'.downs :=
    fun _ _ _ ⟨⟨_, hs⟩, hbalance⟩ h => ⟨hs.step h, step_balance hbalance h⟩
  have hfresh : s.count = v + s.ups - s.downs := by simp [ups, downs, hstart.fresh, hstart.count]
  obtain ⟨⟨L, hs⟩, hbalance⟩ := Runs.exec_keeps hstep ⟨hstart.sound, hfresh⟩ hrun
  exact hs.accounts hbalance

def semaphoreOn (k : Kernel) : SemSys where
  kernel := k
  count := 0
  inDown _ := false
  returned := []

theorem semaphoreOn_started {k : Kernel} (hk : k.Settled)
    (hempty : listEmpty k.links (.inl (.wait (.semaphore 0))) = true) :
    (semaphoreOn k).Started 0 0 :=
  ⟨hk, Int.le_refl 0, rfl, hempty, fun _ => rfl, rfl⟩

/-- Thread 5 waits, thread 4 adds a count twice, and thread 5 is back to take one. -/
def wakingRun : List SemEvent :=
  [.down, .background .schedule, .up, .up, .background .schedule, .retest]

theorem accounts_of_started_at_wakeup : (semaphoreOn userKernel).Started 0 0 ∧
    ∃ s, Runs.exec (step 0) (semaphoreOn userKernel) wakingRun = some s ∧ s.count = 1 ∧
      s.returned = [(.up, .ok ()), (.up, .ok ()), (.down, .ok ())] ∧ Accounts 0 0 s := by
  have hstart : (semaphoreOn userKernel).Started 0 0 :=
    semaphoreOn_started userKernel_settled (userKernel_queue rfl (by decide))
  have hrun : (Runs.exec (step 0) (semaphoreOn userKernel) wakingRun).map
      (fun s => (s.count, s.returned)) =
        some (1, [(.up, .ok ()), (.up, .ok ()), (.down, .ok ())]) := by decide +kernel
  obtain ⟨s, hs, hfacts⟩ := Option.map_eq_some_iff.mp hrun
  obtain ⟨hcount, hreturned⟩ := Prod.ext_iff.mp hfacts
  exact ⟨hstart, s, hs, hcount, hreturned, accounts_of_started hstart hs⟩

end SemSys

end Tenok
