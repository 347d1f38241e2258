import Mathlib.Data.List.Find
import Tenok.Kernel.TimerTicks

/-!
The ids of a thread's timers over its calls of `timer_create`, `timer_settime`, `timer_gettime` and
`timer_delete`. The counter that they come from has 16 bits and never goes down.
-/
namespace Tenok

/-- `timer_gettime` changes nothing and is no step of the timers. -/
inductive TimerUse
  | event (e : TimerEvent)
  | timerGettime (timerid : Int)

/-- A timer that `timer_create` has returned and `timer_delete` has not taken. -/
structure LiveTimer where
  id : Nat
  block : Nat
  isSet : Bool

/-- What a successful `timer_settime` says. -/
def LiveTimer.mark (id : Int) (x : LiveTimer) : LiveTimer :=
  if id = x.id then { x with isSet := true } else x

/-- The timers with what the results of a thread's calls say about its own. -/
structure TimerLife where
  sys : TimerSys
  live : List LiveTimer := []
  deleted : List Nat := []

theorem LiveTimer.mark_same (id : Int) (x : LiveTimer) :
    (x.mark id).id = x.id ∧ (x.mark id).block = x.block := by
  rw [mark]
  split
  · exact ⟨rfl, rfl⟩
  · exact ⟨rfl, rfl⟩

theorem LiveTimer.map_mark (id : Int) (live : List LiveTimer) :
    (live.map (mark id)).map LiveTimer.id = live.map LiveTimer.id ∧
      (live.map (mark id)).map LiveTimer.block = live.map LiveTimer.block := by
  rw [List.map_map, List.map_map]
  exact ⟨List.map_congr_left fun x _ => (mark_same id x).1,
    List.map_congr_left fun x _ => (mark_same id x).2⟩

/-- The values that `timer_settime` does not refuse. -/
def Itimerspec.Valid (value : Itimerspec) : Prop :=
  0 ≤ value.itValue.tvSec ∧ 0 ≤ value.itValue.tvNsec ∧ value.itValue.tvNsec ≤ 999999999

instance (value : Itimerspec) : Decidable value.Valid :=
  inferInstanceAs (Decidable (_ ∧ _ ∧ _))

/-- The clocks and notifications that `timer_create` does not refuse. -/
def Creatable (clockid : Int) (sevp : Sigevent) : Prop :=
  clockid = clockMonotonic ∧ (sevp.sigevNotify = sigevNone ∨ sevp.sigevNotify = sigevSignal)

instance (clockid : Int) (sevp : Sigevent) : Decidable (Creatable clockid sevp) :=
  inferInstanceAs (Decidable (_ ∧ _))

/-- Ticks queue nothing for the timer. -/
def Timer.Silent (timer : Timer) : Prop :=
  timer.enabled = false ∨ timer.sev.sigevNotify ≠ sigevSignal

namespace Timer
variable {timer : Timer} {tick : Nat}

theorem Silent.next (h : timer.Silent) : (timer.next tick).Silent := by
  obtain henabled | hnotify := h
  · have hsame : timer.next tick = timer := by simp [Timer.next, henabled]
    rw [hsame]
    exact Or.inl henabled
  · refine Or.inr ?_
    rw [next_sev]
    exact hnotify

theorem Silent.queues (h : timer.Silent) : timer.queues tick = false := by
  obtain henabled | hnotify := h
  · simp [Timer.queues, henabled]
  · simp [Timer.queues, hnotify]

end Timer

/-- A call that succeeds exactly when `accepted`, and otherwise gives `EINVAL` and changes nothing. -/
def Answered {α : Type} (s : TimerSys) (call : Option (TimerSys × Except Errno α))
    (accepted : Prop) : Prop :=
  ∃ r, call = some r ∧ (accepted → ∃ a, r.2 = .ok a) ∧ (¬ accepted → r = (s, .error .einval))

namespace TimerLife
open TimerSys

/-- What the result of a call says about the timers of the thread `t`. -/
def note (t : Tid) (L : TimerLife) : TimerEvent → TimerLife
  | .timerCreate clockid sevp memory =>
      match (L.sys.sysTimerCreate clockid sevp memory).2, memory with
      | .ok id, some (block, _) =>
          { L with
            live := if L.sys.running = t then L.live ++ [⟨id, block, false⟩] else L.live
            deleted := L.deleted.filter (· ≠ block) }
      | _, _ => L
  | .timerDelete id =>
      match L.sys.sysTimerDelete id with
      | some (_, .ok ()) =>
          if L.sys.running = t then
            { L with
              live := L.live.filter fun x => id ≠ x.id
              deleted := L.deleted ++ (L.live.filter fun x => id = x.id).map LiveTimer.block }
          else L
      | _ => L
  | .timerSettime id value =>
      match L.sys.sysTimerSettime id value with
      | some (_, .ok _) =>
          if L.sys.running = t then
            { L with live := L.live.map (LiveTimer.mark id) }
          else L
      | _ => L
  | _ => L

def use (tick : Nat) (t : Tid) (L : TimerLife) : TimerUse → Option TimerLife
  | .event e => (stepBy tick L.sys e).map fun s => { L.note t e with sys := s }
  | .timerGettime id =>
      if L.sys.kernel.Executing ∧ (L.sys.kernel.threads L.sys.running).privilege = .kernelThread then
        (L.sys.sysTimerGettime id).map fun _ => L
      else none

def newSlot (L : TimerLife) : TimerUse → Option Tid
  | .event e => L.sys.newSlot e
  | .timerGettime _ => none

def IsLive (L : TimerLife) (id : Int) : Prop := ∃ x ∈ L.live, id = x.id

instance (L : TimerLife) (id : Int) : Decidable (L.IsLive id) :=
  inferInstanceAs (Decidable (∃ x ∈ L.live, _))

/-- The live timers have different ids, and a timer that was deleted is on neither list. -/
structure Identified (L : TimerLife) : Prop where
  distinct : (L.live.map LiveTimer.id).Nodup
  global : ∀ a ∈ L.deleted, a ∉ L.sys.timersList
  own : ∀ a ∈ L.deleted, ∀ u l, (L.sys.info u).timersList = some l → a ∉ l

/-- The calls of the thread know its live timers, and a tick queues no notification of a timer that
has not been set. -/
def Answers (tick : Nat) (t : Tid) (L : TimerLife) : TimerUse → Prop
  | .event (.timerDelete id) => L.sys.running = t →
      Answered L.sys (L.sys.sysTimerDelete id) (L.IsLive id)
  | .event (.timerSettime id value) => L.sys.running = t →
      Answered L.sys (L.sys.sysTimerSettime id value) (value.Valid ∧ L.IsLive id)
  | .timerGettime id => L.sys.running = t →
      Answered L.sys ((L.sys.sysTimerGettime id).map fun r => (L.sys, r)) (L.IsLive id)
  | .event (.kernel (.systemTicks _)) => ∀ x ∈ L.live, x.isSet = false →
      queuedIn tick x.block L.sys L.sys.timersList = 0
  | _ => True

/-- A new timer that would send signals is in memory where it is not enabled, and the counter has not
come back to the id of a live timer or, while there are any, to zero. A thread has created a timer
before it reads or deletes one. -/
def IdOk (t : Tid) (L : TimerLife) : TimerUse → Prop
  | .event (.timerCreate clockid sevp memory) => L.sys.running = t → Creatable clockid sevp →
      ∀ m ∈ memory, (sevp.sigevNotify = sigevSignal → m.2.enabled = false) ∧
        ¬ L.IsLive (L.sys.info t).timerCnt.toNat ∧ ((L.sys.info t).timerCnt = 0#16 → L.live = [])
  | .event (.timerDelete _) | .timerGettime _ => L.sys.running = t →
      (L.sys.info t).timersList ≠ none
  | .event (.timerSettime id _) => L.sys.running = t →
      (L.sys.info t).timerCnt ≠ 0#16 ∨ ¬ L.IsLive id
  | _ => True

/-- A thread whose list is not initialised has not created a timer. -/
def Counted (s : TimerSys) : Prop :=
  ∀ u, (s.info u).timersList = none → (s.info u).timerCnt = 0#16

theorem Counted.step {tick : Nat} {s s' : TimerSys} {e : TimerEvent} (h : Counted s)
    (hstep : stepBy tick s e = some s') : Counted s' := by
  cases he : isTick e with
  | true =>
      obtain ⟨expired, rfl⟩ := isTick_eq_true he
      obtain ⟨k, _, rfl⟩ := Option.map_eq_some_iff.mp hstep
      intro u hu
      obtain ⟨hcnt, hlist⟩ := own_timersUpdateBy tick { s with kernel := k } s.timersList u
      rw [hcnt]
      exact h u (hlist ▸ hu)
  | false =>
      rw [stepBy_of_not_tick he] at hstep
      obtain hkept | ⟨clockid, sevp, memory, _, _, rfl⟩ | ⟨id, r, _, hr, rfl⟩ |
        ⟨id, value, r, _, hr, rfl⟩ := step_cases he hstep
      · intro u hu
        by_cases hslot : s.newSlot e = some u
        · rw [hkept.zeroed u hslot]
        · obtain ⟨hcnt, hlist⟩ := hkept.own u hslot
          rw [hcnt]
          exact h u (hlist ▸ hu)
      · obtain ⟨errno, heq⟩ | ⟨a, old, _, heq⟩ := sysTimerCreate_cases s clockid sevp memory
        · rw [heq]
          exact h
        · rw [heq]
          intro u hu
          by_cases hrunning : u = s.running
          · subst hrunning
            simp at hu
          · simp only [Function.update_of_ne hrunning] at hu ⊢
            exact h u hu
      · obtain ⟨rfl, _⟩ | ⟨a, _, rfl⟩ := sysTimerDelete_cases hr
        · exact h
        · intro u hu
          by_cases hrunning : u = s.running
          · subst hrunning
            simp only [Function.update_self, Option.map_eq_none_iff] at hu ⊢
            exact h _ hu
          · simp only [Function.update_of_ne hrunning] at hu ⊢
            exact h u hu
      · obtain rfl | ⟨a, _, rfl⟩ := sysTimerSettime_cases hr
        · exact h
        · exact h

/-- The list of the thread `t` holds its live timers under their ids. -/
structure Identity (t : Tid) (L : TimerLife) : Prop where
  owned : L.sys.Owned
  counted : Counted L.sys
  blocks : (L.sys.info t).timersList.getD [] = L.live.map LiveTimer.block
  ids : ∀ x ∈ L.live, (L.sys.timer x.block).id = x.id
  distinct : (L.live.map LiveTimer.id).Nodup
  silent : ∀ x ∈ L.live, x.isSet = false → (L.sys.timer x.block).Silent
  deleted : ∀ a ∈ L.deleted, a ∉ L.sys.timersList

namespace Identity
variable {t : Tid} {tick : Nat} {L L' : TimerLife} {x : LiveTimer}

theorem mem_own (h : Identity t L) (hx : x ∈ L.live) :
    ∃ l, (L.sys.info t).timersList = some l ∧ x.block ∈ l := by
  have hmem : x.block ∈ (L.sys.info t).timersList.getD [] := by
    rw [h.blocks]
    exact List.mem_map_of_mem hx
  cases hl : (L.sys.info t).timersList with
  | none =>
      rw [hl] at hmem
      cases hmem
  | some l =>
      rw [hl] at hmem
      exact ⟨l, rfl, hmem⟩

theorem owner (h : Identity t L) (hx : x ∈ L.live) :
    x.block ∈ L.sys.timersList ∧ (L.sys.timer x.block).thread = t := by
  obtain ⟨l, hl, hmem⟩ := h.mem_own hx
  exact (h.owned.lists t l hl).2 _ hmem

theorem identified (h : Identity t L) : L.Identified :=
  ⟨h.distinct, h.deleted, fun a ha u l hl hmem =>
    h.deleted a ha ((h.owned.lists u l hl).2 a hmem).1⟩

theorem frame (h : Identity t L) {s : TimerSys} {deleted : List Nat} (howned : s.Owned)
    (hcounted : Counted s)
    (hlist : (s.info t).timersList.getD [] = (L.sys.info t).timersList.getD [])
    (htimer : ∀ x ∈ L.live, (s.timer x.block).id = (L.sys.timer x.block).id ∧
      ((L.sys.timer x.block).Silent → (s.timer x.block).Silent))
    (hdeleted : ∀ a ∈ deleted, a ∉ s.timersList) :
    Identity t { L with sys := s, deleted := deleted } := by
  refine ⟨howned, hcounted, hlist.trans h.blocks, fun x hx => ?_, h.distinct, fun x hx hset => ?_,
    hdeleted⟩
  · exact (htimer x hx).1.trans (h.ids x hx)
  · exact (htimer x hx).2 (h.silent x hx hset)

theorem acquireTimer_cases (h : Identity t L) (hrunning : L.sys.running = t)
    (hlist : (L.sys.info t).timersList ≠ none) (id : Int) :
    (∃ x ∈ L.live, id = x.id ∧ L.sys.acquireTimer id = some (some x.block)) ∨
      ¬ L.IsLive id ∧ L.sys.acquireTimer id = some none := by
  obtain ⟨l, hl⟩ := Option.ne_none_iff_exists'.mp hlist
  have hblocks : l = L.live.map LiveTimer.block := by
    rw [← h.blocks, hl, Option.getD_some]
  have hfind : L.sys.acquireTimer id =
      some ((L.live.find? fun x => decide (id = x.id)).map LiveTimer.block) := by
    rw [acquireTimer, hrunning, hl, Option.map_some, hblocks, List.find?_map]
    refine congrArg (fun found => some (Option.map LiveTimer.block found)) ?_
    exact List.find?_congr fun x hx => by simp [h.ids x hx]
  rw [hfind]
  cases hfound : L.live.find? fun x => decide (id = x.id) with
  | none =>
      refine Or.inr ⟨fun hlive => ?_, rfl⟩
      obtain ⟨x, hx, hid⟩ := hlive
      exact List.find?_eq_none.mp hfound x hx (decide_eq_true hid)
  | some x =>
      refine Or.inl ⟨x, List.mem_of_find?_eq_some hfound, ?_, rfl⟩
      simpa using List.find?_some hfound

theorem acquired (h : Identity t L) {id : Int} {a : Nat} (hrunning : L.sys.running = t)
    (hacquire : L.sys.acquireTimer id = some (some a)) :
    ∃ x ∈ L.live, id = x.id ∧ x.block = a := by
  obtain ⟨l, hl, _⟩ := Option.map_eq_some_iff.mp hacquire
  rw [hrunning] at hl
  have hlist : (L.sys.info t).timersList ≠ none := by simp [hl]
  obtain ⟨x, hx, hid, hfound⟩ | ⟨_, hfound⟩ := h.acquireTimer_cases hrunning hlist id
  · exact ⟨x, hx, hid, Option.some.inj (Option.some.inj (hfound.symm.trans hacquire))⟩
  · cases hfound.symm.trans hacquire

theorem eq_of_id (h : Identity t L) {y : LiveTimer} (hx : x ∈ L.live) (hy : y ∈ L.live)
    (hid : x.id = y.id) : x = y :=
  List.inj_on_of_nodup_map h.distinct hx hy hid

theorem block_inj (h : Identity t L) {y : LiveTimer} (hx : x ∈ L.live) (hy : y ∈ L.live) :
    x.block = y.block ↔ x.id = y.id := by
  constructor
  · intro hblock
    rw [← h.ids x hx, ← h.ids y hy, hblock]
  · intro hid
    rw [h.eq_of_id hx hy hid]

theorem kept (h : Identity t L) {slot : Option Tid} {s : TimerSys} (hslot : slot ≠ some t)
    (hkept : KeepsTimers slot L.sys s) (howned : s.Owned) (hcounted : Counted s) :
    Identity t { L with sys := s } := by
  refine h.frame howned hcounted ?_ (fun x _ => ?_) fun a ha => ?_
  · rw [(hkept.own t hslot).2]
  · rw [hkept.timer]
    exact ⟨rfl, id⟩
  · rw [hkept.timersList]
    exact h.deleted a ha

theorem ticked (h : Identity t L) (k : Kernel) {s : TimerSys}
    (hs : s = L.sys.timersList.foldl (timerUpdateBy tick) { L.sys with kernel := k })
    (hcounted : Counted s) : Identity t { L with sys := s } := by
  subst hs
  refine h.frame (h.owned.ticked k) hcounted ?_ (fun x hx => ?_) fun a ha => ?_
  · rw [(own_timersUpdateBy tick { L.sys with kernel := k } L.sys.timersList t).2]
  · obtain ⟨_, htimer, _⟩ := timersUpdateBy tick x.block h.owned.nodup
      { L.sys with kernel := k }
    rw [htimer, if_pos (h.owner hx).1]
    exact ⟨Timer.next_id .., Timer.Silent.next⟩
  · rw [(timersUpdateBy tick a h.owned.nodup { L.sys with kernel := k }).1]
    exact h.deleted a ha

theorem creatable_of_create {s : TimerSys} {clockid : Int} {sevp : Sigevent}
    {memory : Option (Nat × Timer)} {id : Nat}
    (h : (s.sysTimerCreate clockid sevp memory).2 = .ok id) : Creatable clockid sevp := by
  simp only [sysTimerCreate] at h
  split at h
  · cases h
  · next hclock =>
      split at h
      · cases h
      · next hnotify =>
          refine ⟨not_not.mp hclock, ?_⟩
          by_cases hnone : sevp.sigevNotify = sigevNone
          · exact Or.inl hnone
          · exact Or.inr (not_not.mp fun hsignal => hnotify ⟨hnone, hsignal⟩)

theorem appended (h : Identity t L) {a : Nat} {timer : Timer} {s : TimerSys} {deleted : List Nat}
    (howned : s.Owned) (hcounted : Counted s) (ha : a ∉ L.sys.timersList)
    (hlist : (s.info t).timersList.getD [] = L.live.map LiveTimer.block ++ [a])
    (htimer : s.timer = Function.update L.sys.timer a timer)
    (hnew : timer.id ∉ L.live.map LiveTimer.id) (hsilent : timer.Silent)
    (hdeleted : ∀ b ∈ deleted, b ∉ s.timersList) :
    Identity t ⟨s, L.live ++ [⟨timer.id, a, false⟩], deleted⟩ := by
  have hself : s.timer a = timer := by rw [htimer, Function.update_self]
  have hothers : ∀ x ∈ L.live, s.timer x.block = L.sys.timer x.block := by
    intro x hx
    have hne : x.block ≠ a := fun hxa => ha (hxa ▸ (h.owner hx).1)
    rw [htimer, Function.update_of_ne hne]
  refine ⟨howned, hcounted, ?_, fun x hx => ?_, ?_, fun x hx hset => ?_, hdeleted⟩
  · rw [List.map_append, List.map_singleton]
    exact hlist
  · obtain hx | hx := List.mem_append.mp hx
    · exact (congrArg Timer.id (hothers x hx)).trans (h.ids x hx)
    · obtain rfl := List.mem_singleton.mp hx
      exact congrArg Timer.id hself
  · rw [List.map_append, List.map_singleton]
    exact h.distinct.append (List.nodup_singleton _) (by simpa using hnew)
  · obtain hx | hx := List.mem_append.mp hx
    · exact (hothers x hx).symm ▸ h.silent x hx hset
    · obtain rfl := List.mem_singleton.mp hx
      exact hself.symm ▸ hsilent

theorem removed (h : Identity t L) (hx : x ∈ L.live) {s : TimerSys} (howned : s.Owned)
    (hcounted : Counted s)
    (hlist : (s.info t).timersList = (L.sys.info t).timersList.map (·.erase x.block))
    (htimer : s.timer = L.sys.timer) (hall : s.timersList = L.sys.timersList.erase x.block) :
    Identity t ⟨s, L.live.filter fun y => (x.id : Int) ≠ y.id,
      L.deleted ++ (L.live.filter fun y => (x.id : Int) = y.id).map LiveTimer.block⟩ := by
  obtain ⟨l, hl, _⟩ := h.mem_own hx
  have hblocks : l = L.live.map LiveTimer.block := by
    rw [← h.blocks, hl, Option.getD_some]
  have hsame : ∀ y ∈ L.live, (y.block != x.block) = decide ((x.id : Int) ≠ y.id) := by
    intro y hy
    rw [Bool.eq_iff_iff, bne_iff_ne, decide_eq_true_iff, not_iff_not, h.block_inj hy hx,
      Int.ofNat_inj]
    exact eq_comm
  refine ⟨howned, hcounted, ?_, fun y hy => ?_, ?_, fun y hy hset => ?_, fun b hb hmem => ?_⟩
  · rw [hlist, hl, Option.map_some, Option.getD_some, (h.owned.lists _ l hl).1.erase_eq_filter,
      hblocks, List.filter_map]
    exact congrArg _ (List.filter_congr hsame)
  · rw [htimer]
    exact h.ids y (List.mem_of_mem_filter hy)
  · exact h.distinct.sublist (List.Sublist.map _ List.filter_sublist)
  · rw [htimer]
    exact h.silent y (List.mem_of_mem_filter hy) hset
  · rw [hall] at hmem
    obtain hb | hb := List.mem_append.mp hb
    · exact h.deleted b hb (List.mem_of_mem_erase hmem)
    · obtain ⟨y, hy, rfl⟩ := List.mem_map.mp hb
      obtain ⟨hy, hid⟩ := List.mem_filter.mp hy
      have hyx : y.block = x.block := by
        rw [h.block_inj hy hx]
        exact (Int.ofNat_inj.mp (of_decide_eq_true hid)).symm
      rw [hyx] at hmem
      exact h.owned.nodup.not_mem_erase hmem

theorem marked (h : Identity t L) (hx : x ∈ L.live) {f : Timer → Timer}
    (hf : ∀ timer, (f timer).id = timer.id) (howned : (L.sys.setTimer x.block f).Owned)
    (hcounted : Counted (L.sys.setTimer x.block f)) :
    Identity t ⟨L.sys.setTimer x.block f, L.live.map (LiveTimer.mark x.id), L.deleted⟩ := by
  obtain ⟨hids, hblocks⟩ := LiveTimer.map_mark x.id L.live
  have hkeeps : ∀ b, ((L.sys.setTimer x.block f).timer b).id = (L.sys.timer b).id := by
    intro b
    dsimp only [setTimer]
    by_cases hb : b = x.block
    · rw [hb, Function.update_self, hf]
    · rw [Function.update_of_ne hb]
  refine ⟨howned, hcounted, ?_, fun y hy => ?_, ?_, fun y hy hset => ?_, h.deleted⟩
  · rw [hblocks]
    exact h.blocks
  · obtain ⟨z, hz, rfl⟩ := List.mem_map.mp hy
    rw [(LiveTimer.mark_same _ z).1, (LiveTimer.mark_same _ z).2]
    exact (hkeeps z.block).trans (h.ids z hz)
  · rw [hids]
    exact h.distinct
  · obtain ⟨z, hz, rfl⟩ := List.mem_map.mp hy
    have hzx : ¬ (x.id : Int) = z.id := by
      intro hid
      rw [LiveTimer.mark, if_pos hid] at hset
      cases hset
    rw [LiveTimer.mark, if_neg hzx] at hset ⊢
    have hne : z.block ≠ x.block := fun hblock =>
      hzx (congrArg Nat.cast ((h.block_inj hz hx).mp hblock).symm)
    dsimp only [setTimer]
    rw [Function.update_of_ne hne]
    exact h.silent z hz hset

theorem created (h : Identity t L) {clockid : Int} {sevp : Sigevent} {memory : Option (Nat × Timer)}
    (hfresh : ∀ m ∈ memory, m.1 ∉ L.sys.timersList)
    (hok : L.IdOk t (.event (.timerCreate clockid sevp memory)))
    (hcounted : Counted (L.sys.sysTimerCreate clockid sevp memory).1) :
    Identity t { L.note t (.timerCreate clockid sevp memory) with
      sys := (L.sys.sysTimerCreate clockid sevp memory).1 } := by
  have howned := h.owned.timerCreate clockid sevp hfresh
  obtain ⟨errno, heq⟩ | ⟨a, old, rfl, heq⟩ := sysTimerCreate_cases L.sys clockid sevp memory
  · have hnote : L.note t (.timerCreate clockid sevp memory) = L := by
      simp only [note, heq]
    rw [hnote, heq]
    exact h
  · simp only [note, heq] at howned hcounted ⊢
    have ha : a ∉ L.sys.timersList := hfresh (a, old) rfl
    have hdeleted : ∀ b ∈ L.deleted.filter (· ≠ a), b ∉ L.sys.timersList ++ [a] := by
      intro b hb
      obtain ⟨hb, hba⟩ := List.mem_filter.mp hb
      simpa [h.deleted b hb] using hba
    by_cases hrunning : L.sys.running = t
    · subst hrunning
      obtain ⟨hsilent, hnew, hzero⟩ := hok rfl
        (creatable_of_create (congrArg Prod.snd heq)) (a, old) rfl
      have hblocks : L.sys.ownTimers = L.live.map LiveTimer.block := by
        rw [ownTimers]
        split
        · next hcnt => rw [hzero hcnt, List.map_nil]
        · exact h.blocks
      rw [if_pos rfl]
      refine h.appended howned hcounted ha ?_ rfl (fun hmem => ?_) ?_ hdeleted
      · dsimp only
        rw [Function.update_self, Option.getD_some, hblocks]
      · obtain ⟨x, hx, hid⟩ := List.mem_map.mp hmem
        exact hnew ⟨x, hx, congrArg Nat.cast hid.symm⟩
      · by_cases hsignal : sevp.sigevNotify = sigevSignal
        · exact Or.inl (hsilent hsignal)
        · exact Or.inr hsignal
    · rw [if_neg hrunning]
      refine h.frame howned hcounted ?_ (fun x hx => ?_) hdeleted
      · dsimp only
        rw [Function.update_of_ne (Ne.symm hrunning)]
      · have hne : x.block ≠ a := fun hxa => ha (hxa ▸ (h.owner hx).1)
        dsimp only
        rw [Function.update_of_ne hne]
        exact ⟨rfl, id⟩

theorem ne_of_foreign (h : Identity t L) {id : Int} {a : Nat} (hrunning : L.sys.running ≠ t)
    (hacquire : L.sys.acquireTimer id = some (some a)) (hx : x ∈ L.live) : x.block ≠ a := by
  obtain ⟨l, hl, hfind⟩ := Option.map_eq_some_iff.mp hacquire
  have howner := ((h.owned.lists _ l hl).2 a (List.mem_of_find?_eq_some hfind)).2
  intro hxa
  exact hrunning (howner.symm.trans (hxa ▸ (h.owner hx).2))

theorem timerDelete (h : Identity t L) {id : Int} {r : TimerSys × Except Errno Unit}
    (hr : L.sys.sysTimerDelete id = some r) (hcounted : Counted r.1) :
    Identity t { L.note t (.timerDelete id) with sys := r.1 } := by
  have howned := h.owned.timerDelete hr
  obtain ⟨rfl, _⟩ | ⟨a, hacquire, rfl⟩ := sysTimerDelete_cases hr
  · have hnote : L.note t (.timerDelete id) = L := by
      simp only [note, hr]
    rw [hnote]
    exact h
  · simp only [note, hr] at howned hcounted ⊢
    by_cases hrunning : L.sys.running = t
    · subst hrunning
      rw [if_pos rfl]
      obtain ⟨x, hx, rfl, rfl⟩ := h.acquired rfl hacquire
      refine h.removed hx howned hcounted ?_ rfl rfl
      dsimp only
      rw [Function.update_self]
    · rw [if_neg hrunning]
      refine h.frame howned hcounted ?_ (fun x _ => ⟨rfl, fun hx => hx⟩) fun b hb hmem => ?_
      · dsimp only
        rw [Function.update_of_ne (Ne.symm hrunning)]
      · exact h.deleted b hb (List.mem_of_mem_erase hmem)

theorem timerSettime (h : Identity t L) {id : Int} {value : Itimerspec}
    {r : TimerSys × Except Errno Itimerspec} (hr : L.sys.sysTimerSettime id value = some r)
    (hcounted : Counted r.1) : Identity t { L.note t (.timerSettime id value) with sys := r.1 } := by
  have howned := h.owned.timerSettime hr
  obtain rfl | ⟨a, hacquire, rfl⟩ := sysTimerSettime_cases hr
  · have hnote : L.note t (.timerSettime id value) = L := by
      simp only [note, hr]
    rw [hnote]
    exact h
  · simp only [note, hr] at howned hcounted ⊢
    by_cases hrunning : L.sys.running = t
    · subst hrunning
      rw [if_pos rfl]
      obtain ⟨x, hx, rfl, rfl⟩ := h.acquired rfl hacquire
      exact h.marked hx (fun _ => rfl) howned hcounted
    · rw [if_neg hrunning]
      refine h.frame howned hcounted rfl (fun x hx => ?_) h.deleted
      dsimp only [setTimer]
      rw [Function.update_of_ne (h.ne_of_foreign hrunning hacquire hx)]
      exact ⟨rfl, fun hx => hx⟩

theorem step (h : Identity t L) {u : TimerUse} (hslot : L.newSlot u ≠ some t) (hok : L.IdOk t u)
    (huse : use tick t L u = some L') : Identity t L' := by
  cases u with
  | timerGettime id =>
      simp only [use, Option.ite_none_right_eq_some, Option.map_eq_some_iff] at huse
      obtain ⟨_, _, _, rfl⟩ := huse
      exact h
  | event e =>
      obtain ⟨s, hstep, rfl⟩ := Option.map_eq_some_iff.mp huse
      have howned := h.owned.step hstep
      have hcounted := h.counted.step hstep
      cases he : isTick e with
      | true =>
          obtain ⟨expired, rfl⟩ := isTick_eq_true he
          obtain ⟨k, _, hs⟩ := Option.map_eq_some_iff.mp hstep
          exact h.ticked k hs.symm hcounted
      | false =>
          rw [stepBy_of_not_tick he] at hstep
          cases e with
          | timerCreate clockid sevp memory =>
              simp only [TimerSys.step, call, Option.ite_none_right_eq_some, Option.some.injEq] at hstep
              obtain ⟨_, hfresh, rfl⟩ := hstep
              exact h.created hfresh hok hcounted
          | timerDelete id =>
              simp only [TimerSys.step, call, Option.ite_none_right_eq_some,
                Option.map_eq_some_iff] at hstep
              obtain ⟨_, r, hr, rfl⟩ := hstep
              exact h.timerDelete hr hcounted
          | timerSettime id value =>
              simp only [TimerSys.step, call, Option.ite_none_right_eq_some,
                Option.map_eq_some_iff] at hstep
              obtain ⟨_, r, hr, rfl⟩ := hstep
              exact h.timerSettime hr hcounted
          | _ =>
              obtain hkept | ⟨_, _, _, heq, _⟩ | ⟨_, _, heq, _⟩ | ⟨_, _, _, heq, _⟩ :=
                step_cases he hstep
              · exact h.kept hslot hkept howned hcounted
              · cases heq
              · cases heq
              · cases heq

theorem answered_delete (h : Identity t L) (hrunning : L.sys.running = t)
    (hlist : (L.sys.info t).timersList ≠ none) (id : Int) :
    Answered L.sys (L.sys.sysTimerDelete id) (L.IsLive id) := by
  obtain ⟨x, hx, hid, hacquire⟩ | ⟨hnot, hacquire⟩ := h.acquireTimer_cases hrunning hlist id
  · have hdelete : ∃ s, L.sys.sysTimerDelete id = some (s, .ok ()) := by
      simp only [sysTimerDelete, hacquire]
      exact ⟨_, rfl⟩
    obtain ⟨s, hs⟩ := hdelete
    exact ⟨_, hs, fun _ => ⟨(), rfl⟩, fun hnot => absurd ⟨x, hx, hid⟩ hnot⟩
  · refine ⟨_, ?_, fun hlive => absurd hlive hnot, fun _ => rfl⟩
    simp only [sysTimerDelete, hacquire]
    rfl

theorem answered_gettime (h : Identity t L) (hrunning : L.sys.running = t)
    (hlist : (L.sys.info t).timersList ≠ none) (id : Int) :
    Answered L.sys ((L.sys.sysTimerGettime id).map fun r => (L.sys, r)) (L.IsLive id) := by
  obtain ⟨x, hx, hid, hacquire⟩ | ⟨hnot, hacquire⟩ := h.acquireTimer_cases hrunning hlist id
  · refine ⟨(L.sys, .ok (L.sys.timer x.block).retTime), ?_, fun _ => ⟨_, rfl⟩,
      fun hnot => absurd ⟨x, hx, hid⟩ hnot⟩
    simp only [sysTimerGettime, hacquire]
    rfl
  · refine ⟨_, ?_, fun hlive => absurd hlive hnot, fun _ => rfl⟩
    simp only [sysTimerGettime, hacquire]
    rfl

theorem answered_settime (h : Identity t L) (hrunning : L.sys.running = t) {id : Int}
    (hok : (L.sys.info t).timerCnt ≠ 0#16 ∨ ¬ L.IsLive id) (value : Itimerspec) :
    Answered L.sys (L.sys.sysTimerSettime id value) (value.Valid ∧ L.IsLive id) := by
  have hvalid : (value.itValue.tvSec < 0 ∨ value.itValue.tvNsec < 0 ∨
      999999999 < value.itValue.tvNsec) ↔ ¬ value.Valid := by
    rw [Itimerspec.Valid]
    omega
  simp only [sysTimerSettime, hvalid, hrunning]
  by_cases hv : value.Valid
  · rw [if_neg (not_not.mpr hv)]
    by_cases hcnt : (L.sys.info t).timerCnt = 0#16
    · rw [if_pos hcnt]
      have hnot := hok.resolve_left (not_not.mpr hcnt)
      exact ⟨_, rfl, fun hlive => absurd hlive.2 hnot, fun _ => rfl⟩
    · rw [if_neg hcnt]
      have hlist : (L.sys.info t).timersList ≠ none := fun hnone => hcnt (h.counted t hnone)
      obtain ⟨x, hx, hid, hacquire⟩ | ⟨hnot, hacquire⟩ := h.acquireTimer_cases hrunning hlist id
      · rw [hacquire]
        exact ⟨_, rfl, fun _ => ⟨_, rfl⟩, fun hnot => absurd ⟨hv, x, hx, hid⟩ hnot⟩
      · rw [hacquire]
        exact ⟨_, rfl, fun hlive => absurd hlive.2 hnot, fun _ => rfl⟩
  · rw [if_pos hv]
    exact ⟨_, rfl, fun hlive => absurd hlive.1 hv, fun _ => rfl⟩

theorem answers (h : Identity t L) {u : TimerUse} (hok : L.IdOk t u) : L.Answers tick t u := by
  cases u with
  | timerGettime id => exact fun hrunning => h.answered_gettime hrunning (hok hrunning) id
  | event e =>
      cases e with
      | timerDelete id => exact fun hrunning => h.answered_delete hrunning (hok hrunning) id
      | timerSettime id value =>
          exact fun hrunning => h.answered_settime hrunning (hok hrunning) value
      | kernel e =>
          cases e with
          | systemTicks expired =>
              intro x hx hset
              obtain ⟨_, _, hqueued⟩ := timersUpdateBy tick x.block
                h.owned.nodup L.sys
              rw [hqueued, if_pos (h.owner hx).1, (h.silent x hx hset).queues]
              rfl
          | _ => trivial
      | _ => trivial

end Identity

theorem counted_start : Counted TimerSys.start := fun _ _ => rfl

/-- From a state in which a thread has no timer, and as long as it has its slot: when its calls meet
the condition, its live timers have different ids, the deleted ones are gone, its calls succeed
exactly for live timers, and nothing is queued for a timer before it is set. -/
theorem timer_identity (tick : Nat) (es₀ : List TimerEvent) (s₀ : TimerSys)
    (hstart : Runs.exec (stepBy tick) TimerSys.start es₀ = some s₀) (t : Tid)
    (hnone : (s₀.info t).timersList.getD [] = []) (us : List TimerUse) (L : TimerLife)
    (hslot : Runs.AllOk (fun L u => L.newSlot u ≠ some t) (use tick t) ⟨s₀, [], []⟩ us)
    (hok : Runs.AllOk (IdOk t) (use tick t) ⟨s₀, [], []⟩ us)
    (hrun : Runs.exec (use tick t) ⟨s₀, [], []⟩ us = some L) :
    L.Identified ∧ ∀ u, L.IdOk t u → L.Answers tick t u := by
  obtain ⟨howned, hcounted⟩ : s₀.Owned ∧ Counted s₀ :=
    Runs.exec_keeps (I := fun s => s.Owned ∧ Counted s)
      (fun _ _ _ h hstep => ⟨h.1.step hstep, h.2.step hstep⟩) ⟨Owned.start, counted_start⟩ hstart
  have hinit : Identity t ⟨s₀, [], []⟩ := by
    refine ⟨howned, hcounted, hnone, fun x hx => ?_, List.nodup_nil, fun x hx => ?_, fun a ha => ?_⟩
    · cases hx
    · cases hx
    · cases ha
  have hdone : Identity t L := Runs.exec_invariant (fun _ _ _ h hok huse => h.step hok.1 hok.2 huse)
    hinit (Runs.allOk_and hslot hok) hrun
  exact ⟨hdone.identified, fun u hu => hdone.answers hu⟩

instance (t : Tid) : (L : TimerLife) → (u : TimerUse) → Decidable (L.IdOk t u)
  | L, .event (.timerCreate clockid sevp memory) =>
      inferInstanceAs (Decidable (L.sys.running = t → Creatable clockid sevp → ∀ m ∈ memory, _))
  | L, .event (.timerDelete _) | L, .timerGettime _ =>
      inferInstanceAs (Decidable (L.sys.running = t → (L.sys.info t).timersList ≠ none))
  | L, .event (.timerSettime _ _) => inferInstanceAs (Decidable (L.sys.running = t → _ ∨ _))
  | _, .event (.kernel _) | _, .event (.sigaction _ _ _) | _, .event .once
  | _, .event .handlerReturn => inferInstanceAs (Decidable True)

def callRun : List TimerEvent := Kernel.userRun.map .kernel ++ [.kernel .syscallHandler]

/-- Two timers, of which the first is set, read and deleted. -/
def twoTimers : List TimerUse :=
  [.event (.timerCreate clockMonotonic ⟨sigevSignal, 100⟩ (some (0, TimerSys.start.timer 0))),
    .event (.timerSettime 0 ⟨.ofNanos 600000, .ofNanos 500000⟩), .timerGettime 0,
    .event (.timerCreate clockMonotonic ⟨sigevSignal, 100⟩ (some (8, TimerSys.start.timer 8))),
    .event (.timerDelete 0)]

theorem timer_identity_at_run : ∃ s₀ L,
    Runs.exec (stepBy 250000) TimerSys.start callRun = some s₀ ∧
    Runs.exec (use 250000 5) ⟨s₀, [], []⟩ twoTimers = some L ∧ L.live.map LiveTimer.id = [1] ∧
    L.deleted = [0] ∧ L.Identified ∧ L.Answers 250000 5 (.timerGettime 0) := by
  have hrun : ((Runs.exec (stepBy 250000) TimerSys.start callRun).bind fun s₀ =>
      (Runs.exec (use 250000 5) ⟨s₀, [], []⟩ twoTimers).map fun L =>
        decide ((s₀.info 5).timersList.getD [] = [] ∧
          Runs.AllOk (fun L u => L.newSlot u ≠ some 5) (use 250000 5) ⟨s₀, [], []⟩ twoTimers ∧
          Runs.AllOk (IdOk 5) (use 250000 5) ⟨s₀, [], []⟩ twoTimers ∧
          L.IdOk 5 (.timerGettime 0) ∧ L.live.map LiveTimer.id = [1] ∧ L.deleted = [0])) =
      some true := by decide +kernel
  obtain ⟨s₀, hs₀, hrun⟩ := Option.bind_eq_some_iff.mp hrun
  obtain ⟨L, hL, hfacts⟩ := Option.map_eq_some_iff.mp hrun
  obtain ⟨hnone, hslot, hok, hnext, hlive, hdeleted⟩ := of_decide_eq_true hfacts
  obtain ⟨hidentified, hanswers⟩ := timer_identity 250000 callRun s₀ hs₀ 5 hnone twoTimers L
    hslot hok hL
  exact ⟨s₀, L, hs₀, hL, hlive, hdeleted, hidentified, hanswers _ hnext⟩

/-- A timer in memory that looks enabled sends its signal in the next tick, without having been set,
and a thread that has no timer yet and reads one walks a list that is not initialised. -/
theorem timer_not_identified :
    (∃ s₀ L, Runs.exec (stepBy 250000) TimerSys.start callRun = some s₀ ∧
      Runs.exec (use 250000 5) ⟨s₀, [], []⟩ [.event (.timerCreate clockMonotonic ⟨sigevSignal, 100⟩
        (some (0, { TimerSys.start.timer 0 with enabled := true })))] = some L ∧
      ¬ L.Answers 250000 5 (.event (.kernel (.systemTicks fun _ => false)))) ∧
    ∃ s₀, Runs.exec (stepBy 250000) TimerSys.start callRun = some s₀ ∧
      ¬ Answers 250000 5 ⟨s₀, [], []⟩ (.timerGettime 0) := by
  have hfirst : ((Runs.exec (stepBy 250000) TimerSys.start callRun).bind fun s₀ =>
      (Runs.exec (use 250000 5) ⟨s₀, [], []⟩ [.event (.timerCreate clockMonotonic ⟨sigevSignal, 100⟩
        (some (0, { TimerSys.start.timer 0 with enabled := true })))]).map fun L =>
        (L.live.map fun x => (x.isSet, queuedIn 250000 x.block L.sys L.sys.timersList))) =
      some [(false, 1)] := by decide +kernel
  have hsecond : (Runs.exec (stepBy 250000) TimerSys.start callRun).map (fun s₀ =>
      (s₀.running, (s₀.info 5).timersList)) = some (5, none) := by decide +kernel
  constructor
  · obtain ⟨s₀, hs₀, hrun⟩ := Option.bind_eq_some_iff.mp hfirst
    obtain ⟨L, hL, hfacts⟩ := Option.map_eq_some_iff.mp hrun
    refine ⟨s₀, L, hs₀, hL, fun hanswers => ?_⟩
    obtain ⟨x, hx, hqueued⟩ : ∃ x ∈ L.live,
        (x.isSet, queuedIn 250000 x.block L.sys L.sys.timersList) = (false, 1) := by
      have hmem : (false, 1) ∈ L.live.map fun x =>
          (x.isSet, queuedIn 250000 x.block L.sys L.sys.timersList) := by
        rw [hfacts]
        exact List.mem_cons_self
      exact List.mem_map.mp hmem
    obtain ⟨hset, hone⟩ := Prod.mk.inj hqueued
    cases hone.symm.trans (hanswers x hx hset)
  · obtain ⟨s₀, hs₀, hfacts⟩ := Option.map_eq_some_iff.mp hsecond
    obtain ⟨hrunning, hlist⟩ := Prod.mk.inj hfacts
    refine ⟨s₀, hs₀, fun hanswers => ?_⟩
    obtain ⟨r, hr, _⟩ := hanswers hrunning
    simp [sysTimerGettime, acquireTimer, hrunning, hlist] at hr

end TimerLife

end Tenok
