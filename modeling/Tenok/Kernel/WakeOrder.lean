import Mathlib.Data.List.MinMax
import Tenok.Kernel.Steady

/-!
Which threads the three wake-ups take, and where they go. A wake-up reads the links of the list and
the priorities only, so this holds of every store of well-formed lists, whatever the threads do.
-/
namespace Tenok
open Ring Queues

namespace Kernel

/-- The threads go to the tails of the ready lists of their priorities, one after another. -/
def moved (k : Kernel) (L : SchedList → List Tid) (ts : List Tid) : SchedList → List Tid
  | .ready p => L (.ready p) ++ ts.filter fun t => (k.threads t).priority = p
  | g => (L g).filter (· ∉ ts)

/-- The kernel after these threads have been woken, and nothing else. -/
structure Woken (V : Set SchedList) (k : Kernel) (L : SchedList → List Tid) (ts : List Tid)
    (k' : Kernel) : Prop where
  rings : Rings k'.links V (k.moved L ts)
  woken : ∀ t ∈ ts, k'.threads t = { k.threads t with status := .ready }
  kept : ∀ t, t ∉ ts → k'.threads t = k.threads t
  rest : k' = { k with links := k'.links, threads := k'.threads }

section Moves
variable {V : Set SchedList} {k k' : Kernel} {L : SchedList → List Tid} {h : SchedList} {t : Tid}
  {ts : List Tid}

theorem moved_nil (k : Kernel) (L : SchedList → List Tid) : k.moved L [] = L := by
  funext g
  cases g <;> simp [moved]

theorem moved_of_ne (hg : ∀ p, h ≠ .ready p) : k.moved L ts h = (L h).filter (· ∉ ts) := by
  cases h with
  | ready p => exact absurd rfl (hg p)
  | sleep | suspend | poll | wait _ | join _ => rfl

theorem moved_append (r : Rings k.links V L) (hready : ∀ p, h ≠ .ready p) (ht : t ∈ L h)
    (hnot : t ∉ ts) :
    transfer (k.moved L ts) t (.ready (k.threads t).priority) = k.moved L (ts ++ [t]) := by
  funext g
  by_cases hg : ∃ p, g = .ready p
  · obtain ⟨p, rfl⟩ := hg
    have hfree : t ∉ k.moved L ts (.ready p) := by
      simp only [moved, List.mem_append, List.mem_filter, not_or, not_and]
      exact ⟨fun hp => hready p (r.unique ht hp), fun hmem => absurd hmem hnot⟩
    by_cases hp : (k.threads t).priority = p
    · rw [transfer, hp, enqueue, Function.update_self, dequeue_of_notMem hfree]
      simp [moved, hp]
    · rw [transfer, enqueue_of_ne (by simpa using Ne.symm hp), dequeue_of_notMem hfree]
      simp [moved, hp]
  · have hne : ∀ p, g ≠ .ready p := fun p hp => hg ⟨p, hp⟩
    rw [transfer, enqueue_of_ne (hne _), dequeue, moved_of_ne hne, moved_of_ne hne,
      ((r.nodup g).filter _).erase_eq_filter, List.filter_filter]
    refine List.filter_congr fun u _ => ?_
    rw [bne, beq_eq_decide]
    simp [not_or, and_comm]

theorem Woken.nil (r : Rings k.links V L) : Woken V k L [] k :=
  ⟨(moved_nil k L).symm ▸ r, by simp, fun _ _ => rfl, rfl⟩

theorem Woken.makeReady (hW : Woken V k L ts k') (r : Rings k.links V L) (hready : ∀ p, h ≠ .ready p)
    (hV : ∀ p, SchedList.ready p ∈ V) (ht : t ∈ L h) (hnot : t ∉ ts) :
    Woken V k L (ts ++ [t]) (k'.makeReady t) where
  rings := by
    have hmem : t ∈ k.moved L ts h := by
      rw [moved_of_ne hready]
      exact List.mem_filter.mpr ⟨ht, decide_eq_true hnot⟩
    have hmove := listMove_rings hW.rings hmem (hV (k.threads t).priority)
    rw [moved_append r hready ht hnot] at hmove
    rw [Kernel.makeReady, hW.kept t hnot]
    exact hmove
  woken u hu := by
    by_cases hut : u = t
    · subst hut
      simp [Kernel.makeReady, setStatus, setThread, hW.kept u hnot]
    · have hmem : u ∈ ts := (List.mem_append.mp hu).resolve_right (by simpa using hut)
      simp [Kernel.makeReady, setStatus, setThread, hut, hW.woken u hmem]
  kept u hu := by
    rw [List.mem_append, List.mem_singleton, not_or] at hu
    simp [Kernel.makeReady, setStatus, setThread, hu.2, hW.kept u hu.1]
  rest := by
    rw [Kernel.makeReady, setStatus, setThread, hW.rest]

end Moves

section WakeUps
variable {V : Set SchedList} {k : Kernel} {L : SchedList → List Tid} {h : SchedList}

theorem foldl_higher_eq (k : Kernel) (first : Tid) (l : List Tid) :
    (first :: l).argmax (fun t => (k.threads t).priority) = some (l.foldl k.higher first) := by
  induction l using List.reverseRecOn with
  | nil => rfl
  | append_singleton l t ih =>
      rw [← List.cons_append, List.argmax_concat, ih, List.foldl_append, List.foldl_cons,
        List.foldl_nil, higher]
      exact (apply_ite some _ _ _).symm

theorem foldl_fifoHigher_eq (k : Kernel) (availSize : Nat) (l : List Tid) :
    l.foldl (k.fifoHigher availSize) none =
      (l.filter fun t => decide ((k.threads t).fileRequestSize ≤ availSize)).argmax
        fun t => (k.threads t).priority := by
  induction l using List.reverseRecOn with
  | nil => rfl
  | append_singleton l t ih =>
      rw [List.foldl_append, List.foldl_cons, List.foldl_nil, ih, List.filter_append, fifoHigher]
      split
      · next hfits =>
          rw [List.filter_cons, if_pos (decide_eq_true hfits), List.filter_nil, List.argmax_concat]
          cases (l.filter fun t => decide ((k.threads t).fileRequestSize ≤ availSize)).argmax
              fun t => (k.threads t).priority with
          | none => rfl
          | some u => exact apply_ite some _ _ _
      · next hfits =>
          rw [List.filter_cons, if_neg (by simpa using hfits), List.filter_nil, List.append_nil]

theorem length_lt_loopBound (r : Rings k.links V L) (hmax : ∀ t ∈ L h, t < threadMax) :
    (L h).length < loopBound := by
  have hsub : L h ⊆ List.range threadMax := fun t ht => List.mem_range.mpr (hmax t ht)
  have hlen := (List.subperm_of_subset (r.nodup h) hsub).length_le
  rw [List.length_range] at hlen
  exact Nat.lt_succ_of_le hlen

theorem wakeUp_woken (r : Rings k.links V L) (hh : h ∈ V) (hready : ∀ p, h ≠ .ready p)
    (hV : ∀ p, SchedList.ready p ∈ V) (hmax : ∀ t ∈ L h, t < threadMax) :
    ∃ k', k.wakeUp h = some k' ∧
      Woken V k L ((L h).argmax fun t => (k.threads t).priority).toList k' := by
  have hempty := listEmpty_iff (r.ring h hh)
  rw [List.map_eq_nil_iff] at hempty
  cases hl : L h with
  | nil => exact ⟨k, by rw [Kernel.wakeUp, if_pos (hempty.mpr hl)], .nil r⟩
  | cons first l =>
      have hne : ¬ listEmpty k.links (.inl h) = true := by simp [hempty, hl]
      have hnext : next k.links (.inl h) = .inr first := by simp [(r.ring h hh).next_head, hl]
      have hscan := forEachEntry_of_ring (r.ring h hh) (length_lt_loopBound r hmax) k.higher first
      have hmem : l.foldl k.higher first ∈ L h := hl ▸ Threaded.foldl_higher_mem k first l
      rw [foldl_higher_eq]
      refine ⟨k.makeReady (l.foldl k.higher first), ?_,
        (Woken.nil r).makeReady r hready hV hmem List.not_mem_nil⟩
      simp [Kernel.wakeUp, hne, hnext, listEntry, hscan, hl, higher]

theorem fifoWakeUp_woken (r : Rings k.links V L) (hh : h ∈ V) (hready : ∀ p, h ≠ .ready p)
    (hV : ∀ p, SchedList.ready p ∈ V) (hmax : ∀ t ∈ L h, t < threadMax) (availSize : Nat) :
    ∃ k', k.fifoWakeUp h availSize = some k' ∧
      Woken V k L ((((L h).filter fun t => decide ((k.threads t).fileRequestSize ≤ availSize)).argmax
        fun t => (k.threads t).priority).toList.filter (· ≠ k.runningThread)) k' := by
  have hscan := forEachEntry_of_ring (r.ring h hh) (length_lt_loopBound r hmax)
    (k.fifoHigher availSize) none
  rw [foldl_fifoHigher_eq] at hscan
  rw [Kernel.fifoWakeUp, hscan]
  cases hres : ((L h).filter fun t => decide ((k.threads t).fileRequestSize ≤ availSize)).argmax
      fun t => (k.threads t).priority with
  | none => exact ⟨k, rfl, .nil r⟩
  | some t =>
      have hmem : t ∈ L h := (List.mem_filter.mp (List.argmax_mem hres)).1
      refine ⟨k.finishWait t, rfl, ?_⟩
      rw [Option.toList_some, List.filter_cons, finishWait]
      by_cases hrun : t = k.runningThread
      · rw [if_neg (by simpa using hrun), if_neg (not_not.mpr hrun)]
        exact .nil r
      · rw [if_pos (decide_eq_true hrun), if_pos hrun]
        exact (Woken.nil r).makeReady r hready hV hmem List.not_mem_nil

theorem filter_notMem_append {pre l : List Tid} (hnd : (pre ++ l).Nodup) :
    (pre ++ l).filter (· ∉ pre) = l := by
  rw [List.filter_append, List.filter_eq_nil_iff.mpr (by simp), List.nil_append,
    List.filter_eq_self.mpr]
  intro t ht
  exact decide_eq_true fun hmem => (List.nodup_append.mp hnd).2.2 t hmem t ht rfl

theorem wakeUpAll_woken (r : Rings k.links V L) (hh : h ∈ V) (hready : ∀ p, h ≠ .ready p)
    (hV : ∀ p, SchedList.ready p ∈ V) (hmax : ∀ t ∈ L h, t < threadMax) :
    ∃ k', k.wakeUpAll h = some k' ∧ Woken V k L (L h) k' := by
  have hloop : ∃ k', k.wakeUpAll h = some k' ∧ ∃ l pre : List Tid,
      [] = l.map (Sum.inr : Tid → ListNode) ∧ L h = pre ++ l ∧ Woken V k L pre k' := by
    have hfirst : next k.links (.inl h) = ((L h).map Sum.inr).headD (.inl h) := (r.ring h hh).next_head
    have hlen : ((L h).map (Sum.inr : Tid → ListNode)).length < loopBound := by
      rw [List.length_map]
      exact length_lt_loopBound r hmax
    rw [Kernel.wakeUpAll, forEachSafe, hfirst]
    refine listForEachSafe_rule (fun k' nodes => ∃ l pre : List Tid, nodes = l.map Sum.inr ∧
      L h = pre ++ l ∧ Woken V k L pre k') ?_ ?_ hlen ⟨L h, [], rfl, rfl, .nil r⟩
    · -- the threads that are still to come are all that is left of the list
      rintro k' x nodes ⟨l, pre, hnodes, hl, hW⟩
      cases l with
      | nil => cases hnodes
      | cons t l =>
          obtain ⟨rfl, rfl⟩ := List.cons.inj hnodes
          have hleft : k.moved L pre h = t :: l := by
            rw [moved_of_ne hready, hl]
            exact filter_notMem_append (hl ▸ r.nodup h)
          have hring := hW.rings.ring h hh
          rw [hleft, List.map_cons] at hring
          refine ⟨Sum.inr_ne_inl, ?_⟩
          cases l with
          | nil => exact hring.segment.2.2.1
          | cons u l => exact hring.segment.2.2.1
    · rintro k' x nodes ⟨l, pre, hnodes, hl, hW⟩
      cases l with
      | nil => cases hnodes
      | cons t l =>
          obtain ⟨rfl, rfl⟩ := List.cons.inj hnodes
          have hnot : t ∉ pre := fun hmem =>
            (List.nodup_append.mp (hl ▸ r.nodup h)).2.2 t hmem t List.mem_cons_self rfl
          have ht : t ∈ L h := hl ▸ List.mem_append_right _ List.mem_cons_self
          exact ⟨_, rfl, l, pre ++ [t], rfl, by rw [hl, List.append_assoc]; rfl,
            hW.makeReady r hready hV ht hnot⟩
  obtain ⟨k', hk', l, pre, hnodes, hl, hW⟩ := hloop
  obtain rfl : l = [] := List.map_eq_nil_iff.mp hnodes.symm
  rw [List.append_nil] at hl
  exact ⟨k', hk', hl ▸ hW⟩

def fitting (k : Kernel) (availSize : Nat) (l : List Tid) : List Tid :=
  l.filter fun t => decide ((k.threads t).fileRequestSize ≤ availSize)

/-- `wake_up` takes the first of the threads with the highest priority, `wake_up_all` all of them in
the order of the list, and `fifo_wake_up` the first of those whose request fits, unless that is the
running thread, which `finish_wait` leaves where it is. -/
theorem wakeUps_order (r : Rings k.links V L) (hh : h ∈ V) (hready : ∀ p, h ≠ .ready p)
    (hV : ∀ p, SchedList.ready p ∈ V) (hmax : ∀ t ∈ L h, t < threadMax) :
    (∃ k', k.wakeUp h = some k' ∧
      Woken V k L ((L h).argmax fun t => (k.threads t).priority).toList k') ∧
    (∃ k', k.wakeUpAll h = some k' ∧ Woken V k L (L h) k' ∧ k.moved L (L h) h = []) ∧
    ∀ availSize, ∃ k', k.fifoWakeUp h availSize = some k' ∧
      Woken V k L (((k.fitting availSize (L h)).argmax fun t =>
        (k.threads t).priority).toList.filter (· ≠ k.runningThread)) k' := by
  refine ⟨wakeUp_woken r hh hready hV hmax, ?_, fifoWakeUp_woken r hh hready hV hmax⟩
  obtain ⟨k', hk', hW⟩ := wakeUpAll_woken r hh hready hV hmax
  refine ⟨k', hk', hW, ?_⟩
  rw [moved_of_ne hready, List.filter_eq_nil_iff]
  simp

end WakeUps

/-- The running thread waits for the pipe of the daemon of the file system, and another one runs. -/
def queueBehind (k : Kernel) : Option Kernel :=
  (k.prepareToWait (.wait (.fifoRead 0)) k.runningThread .wait).schedule

/-- Behind the daemon, thread 2, wait the threads 5 and 4, of one lower priority. The daemon asks for
4 bytes, the others for none. -/
def queuedKernel : Kernel := ((queueBehind crowdKernel).bind queueBehind).getD crowdKernel

theorem queueBehind_steady {L : SchedList → List Tid} {k k' : Kernel} (hS : Steady k L)
    (hst : k.Unqueued) (hk : queueBehind k = some k') : ∃ L', Steady k' L' := by
  obtain ⟨L', hK, -⟩ := (hS.waitOn (q := .fifoRead 0) hst rfl).steady.schedule hk
  exact ⟨L', hK.steady⟩

theorem queuedKernel_steady : ∃ L, Steady queuedKernel L := by
  obtain ⟨L, hS⟩ := crowdKernel_settled.steady
  have hsome : ((queueBehind crowdKernel).bind fun k => (queueBehind k).map fun k' =>
      decide k.Unqueued) = some true := by decide +kernel
  obtain ⟨k₁, hk₁, hrest⟩ := Option.bind_eq_some_iff.mp hsome
  obtain ⟨k₂, hk₂, hst⟩ := Option.map_eq_some_iff.mp hrest
  have heq : queuedKernel = k₂ := by
    rw [queuedKernel, hk₁, Option.bind_some, hk₂, Option.getD_some]
  obtain ⟨L₁, hS₁⟩ := queueBehind_steady hS (by decide +kernel) hk₁
  rw [heq]
  exact queueBehind_steady hS₁ (of_decide_eq_true hst) hk₂

/-- `wake_up` takes the daemon, and `fifo_wake_up` for no room the first of the other two. -/
theorem wakeUps_order_at_queue : ∃ L k₁ k₂ k₃, L (.wait (.fifoRead 0)) = [2, 5, 4] ∧
    queuedKernel.wakeUp (.wait (.fifoRead 0)) = some k₁ ∧
    Woken (inUse {t | queuedKernel.Alive t}) queuedKernel L [2] k₁ ∧
    queuedKernel.wakeUpAll (.wait (.fifoRead 0)) = some k₂ ∧
    Woken (inUse {t | queuedKernel.Alive t}) queuedKernel L [2, 5, 4] k₂ ∧
    queuedKernel.fifoWakeUp (.wait (.fifoRead 0)) 0 = some k₃ ∧
    Woken (inUse {t | queuedKernel.Alive t}) queuedKernel L [5] k₃ := by
  obtain ⟨L, hS⟩ := queuedKernel_steady
  have hin : SchedList.wait (.fifoRead 0) ∈ inUse {t | queuedKernel.Alive t} := by
    simp [inUse, SchedList.owner]
  have hL : L (.wait (.fifoRead 0)) = [2, 5, 4] := by
    rw [← hS.threaded.members_eq hin]
    decide +kernel
  have hfirst : (([2, 5, 4] : List Tid).argmax fun t =>
      (queuedKernel.threads t).priority).toList = [2] := by decide +kernel
  have hfitting : ((queuedKernel.fitting 0 [2, 5, 4]).argmax fun t =>
      (queuedKernel.threads t).priority).toList.filter (· ≠ queuedKernel.runningThread) = [5] := by
    decide +kernel
  obtain ⟨⟨k₁, hk₁, hW₁⟩, ⟨k₂, hk₂, hW₂, -⟩, hfifo⟩ := wakeUps_order hS.threaded.rings hin (by simp)
    (fun p => Threaded.ready_inUse p) fun t ht => hS.threaded.lt_max t (hS.threaded.alive ht)
  obtain ⟨k₃, hk₃, hW₃⟩ := hfifo 0
  rw [hL] at hW₁ hW₂ hW₃
  rw [hfirst] at hW₁
  rw [hfitting] at hW₃
  exact ⟨L, k₁, k₂, k₃, hL, hk₁, hW₁, hk₂, hW₂, hk₃, hW₃⟩

/-- The running thread has put itself on an empty queue. -/
def selfQueued : Kernel := userKernel.prepareToWait (.wait (.fifoRead 1)) 5 .wait

theorem selfQueued_rings : ∃ L, Rings selfQueued.links (inUse {t | userKernel.Alive t}) L ∧
    L (.wait (.fifoRead 1)) = [5] := by
  obtain ⟨L, hS⟩ := userKernel_settled.steady
  have hin : SchedList.wait (.fifoRead 1) ∈ inUse {t | userKernel.Alive t} := by
    simp [inUse, SchedList.owner]
  have hempty := (listEmpty_iff (hS.threaded.rings.ring _ hin)).mp
    (userKernel_queue rfl (by decide))
  have hT := hS.threaded.prepareToWait (t := 5) hin (by decide +kernel)
    (show ThreadStatus.wait ≠ .running by decide) (by decide)
  refine ⟨_, hT.rings, ?_⟩
  rw [enqueue, Function.update_self, List.map_eq_nil_iff.mp hempty]
  rfl

/-- Its own wake-up does nothing. -/
theorem wakeUps_order_not_for_running : ¬ ∀ (V : Set SchedList) (k : Kernel) L h availSize,
    Rings k.links V L → h ∈ V → (∀ p, h ≠ .ready p) → (∀ p, SchedList.ready p ∈ V) →
    (∀ t ∈ L h, t < threadMax) → ∃ k', k.fifoWakeUp h availSize = some k' ∧
      Woken V k L ((k.fitting availSize (L h)).argmax fun t => (k.threads t).priority).toList k' := by
  intro hclaim
  obtain ⟨L, hrings, hL⟩ := selfQueued_rings
  obtain ⟨k', hk', hW⟩ := hclaim _ selfQueued L (.wait (.fifoRead 1)) 0 hrings
    (by simp [inUse, SchedList.owner]) (by simp) (fun p => Threaded.ready_inUse p) (by simp [hL, threadMax])
  have hfits : selfQueued.fitting 0 [5] = [5] := by decide +kernel
  rw [hL, hfits] at hW
  have hready : (k'.threads 5).status = .ready := by
    rw [hW.woken 5 List.mem_cons_self]
  have hrun : (selfQueued.fifoWakeUp (.wait (.fifoRead 1)) 0).map (fun k' =>
      decide ((k'.threads 5).status = .ready)) = some false := by
    decide +kernel
  rw [hk', Option.map_some, Option.some.injEq, decide_eq_false_iff_not] at hrun
  exact hrun hready

end Kernel

end Tenok
