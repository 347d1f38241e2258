import Mathlib.Data.List.Induction
import Mathlib.Data.List.Perm.Subperm
import Mathlib.Data.Set.Insert
import Mathlib.Order.Fin.Basic
import Tenok.Kernel.Events

/-!
Which threads are on which list, and what each function of the kernel does to it.
Inside `sys_exit` and `sys_kill` a thread can be gone while the threads that join it
are still linked to it, so the invariant takes the threads whose lists are in use as
a parameter; between calls these are the live ones.
-/
namespace Tenok
open Ring Queues

/-- The heads that are part of no thread, or of one of these. -/
def inUse (A : Set Tid) : Set SchedList := {h | ∀ t, h.owner = some t → t ∈ A}

namespace Kernel

/-- A live thread is on exactly one list unless it is the one that executes. -/
structure Threaded (k : Kernel) (A : Set Tid) (L : SchedList → List Tid) : Prop where
  rings : Rings k.links (inUse A) L
  linked_iff : ∀ t, (∃ h, t ∈ L h) ↔ k.Alive t ∧ (k.threads t).status ≠ .running
  running : ∀ t, (k.threads t).status = .running → t = k.runningThread ∧ k.Alive t
  lt_max : ∀ t, k.Alive t → t < threadMax
  not_self : ∀ t, t ∉ L (.join t)

/-- The sequences of threads hold live ones. -/
structure Registered (k : Kernel) : Prop where
  threadsList : k.threadsList.Nodup ∧ ∀ t ∈ k.threadsList, k.Alive t
  taskThreads : ∀ p, (k.taskThreads p).Nodup ∧
    ∀ t ∈ k.taskThreads p, k.Alive t ∧ (k.threads t).task = some p
  timeoutList : k.timeoutList.Nodup ∧
    ∀ t ∈ k.timeoutList, k.Alive t ∧ (k.threads t).pollTimed = true

variable {k k' : Kernel} {A : Set Tid} {L L' : SchedList → List Tid} {h g : SchedList} {t u : Tid}

theorem Registered.of_same (hR : Registered k) (hbitmap : k'.bitmapThreads = k.bitmapThreads)
    (hthreads : k'.threadsList = k.threadsList) (htasks : k'.taskThreads = k.taskThreads)
    (htimeouts : k'.timeoutList = k.timeoutList)
    (hinfo : ∀ t, (k'.threads t).task = (k.threads t).task ∧
      (k'.threads t).pollTimed = (k.threads t).pollTimed) : Registered k' where
  threadsList := by simpa only [Alive, hbitmap, hthreads] using hR.threadsList
  taskThreads p := by simpa only [Alive, hbitmap, htasks, hinfo] using hR.taskThreads p
  timeoutList := by simpa only [Alive, hbitmap, htimeouts, hinfo] using hR.timeoutList

theorem forEachSafe_eq (k : Kernel) (h : SchedList) (body : Kernel → Tid → Kernel) :
    k.forEachSafe h body = k.forEachSafeM h fun k t => some (body k t) := by
  have hbody : ∀ (k : Kernel) (pos : ListNode),
      (listEntry pos).map (body k) = (listEntry pos).bind fun t => some (body k t) := by
    intro k pos
    cases pos with
    | inl g => rfl
    | inr t => rfl
  simp only [forEachSafe, forEachSafeM, hbody]

theorem forEachEntry_of_ring {τ : Type} {l : List Tid}
    (hring : IsRing k.links (.inl h) (l.map Sum.inr)) (hlen : l.length < loopBound)
    (body : τ → Tid → τ) (init : τ) : k.forEachEntry h body init = some (l.foldl body init) := by
  have hloop : listForEach (fun _ => k.links) (.inl h) (onEntry body) loopBound init
      (next k.links (.inl h)) = some (forEach (onEntry body) init (l.map Sum.inr)) :=
    listForEach_eq (fun _ _ _ _ => rfl) loopBound init hring.segment.path hring.head_notMem
      (by simpa using hlen)
  rw [forEachEntry, hloop, Option.bind_some]
  clear hloop hring hlen
  induction l generalizing init with
  | nil => rfl
  | cons t l ih => exact ih (body init t)

namespace Threaded

theorem alive (hT : Threaded k A L) (ht : t ∈ L h) : k.Alive t := ((hT.linked_iff t).mp ⟨h, ht⟩).1

theorem exists_mem (hT : Threaded k A L) (ht : k.Alive t) (hrun : t ≠ k.runningThread) :
    ∃ h, t ∈ L h :=
  (hT.linked_iff t).mpr ⟨ht, fun hst => hrun (hT.running t hst).1⟩

theorem notMem_of_running (hT : Threaded k A L) (ht : (k.threads t).status = .running)
    (h : SchedList) : t ∉ L h :=
  fun hmem => ((hT.linked_iff t).mp ⟨h, hmem⟩).2 ht

theorem length_lt (hT : Threaded k A L) (h : SchedList) : (L h).length < loopBound := by
  have hsub : L h ⊆ List.range threadMax := fun t ht =>
    List.mem_range.mpr (hT.lt_max t (hT.alive ht))
  have hlen := (List.subperm_of_subset (hT.rings.nodup h) hsub).length_le
  rw [List.length_range] at hlen
  exact Nat.lt_succ_of_le hlen

/-- The links of one thread and its status change together; `L'` differs from `L` in
that thread only. -/
theorem relink {s : Cells ListNode} {state : ThreadStatus} (hT : Threaded k A L)
    (hrings : Rings s (inUse A) L') (hothers : ∀ u h, u ≠ t → (u ∈ L' h ↔ u ∈ L h))
    (ht : k.Alive t) (hlinked : (∃ h, t ∈ L' h) ↔ state ≠ .running)
    (hrun : state = .running → t = k.runningThread) (hself : t ∉ L' (.join t)) :
    Threaded ({ k with links := s }.setStatus t state) A L' where
  rings := hrings
  linked_iff u := by
    by_cases hut : u = t
    · subst hut
      rw [hlinked]
      simp only [setStatus, setThread, Function.update_self]
      exact ⟨fun h => ⟨ht, h⟩, fun h => h.2⟩
    · have hmem : (∃ h, u ∈ L' h) ↔ ∃ h, u ∈ L h := exists_congr fun h => hothers u h hut
      rw [hmem, hT.linked_iff u]
      simp only [setStatus, setThread, Function.update_of_ne hut]
      rfl
  running u hu := by
    by_cases hut : u = t
    · subst hut
      simp only [setStatus, setThread, Function.update_self] at hu
      exact ⟨hrun hu, ht⟩
    · simp only [setStatus, setThread, Function.update_of_ne hut] at hu
      exact hT.running u hu
  lt_max := hT.lt_max
  not_self u hu := by
    by_cases hut : u = t
    · subst hut
      exact hself hu
    · exact hT.not_self u ((hothers u _ hut).mp hu)

theorem prepareToWait {state : ThreadStatus} (hT : Threaded k A L) (hh : h ∈ inUse A)
    (ht : (k.threads t).status = .running) (hstate : state ≠ .running) (hjoin : h ≠ .join t) :
    Threaded (k.prepareToWait h t state) A (enqueue L t h) := by
  have hfree := hT.notMem_of_running ht
  refine hT.relink (listAdd_rings hT.rings hh hfree) (fun u g hut => ?_)
    (hT.running t ht).2 ?_ (fun h => absurd h hstate) ?_
  · simp [mem_enqueue, hut]
  · exact ⟨fun _ => hstate, fun _ => ⟨h, mem_enqueue.mpr (Or.inr ⟨rfl, rfl⟩)⟩⟩
  · rw [mem_enqueue]
    rintro (hmem | ⟨-, hjt⟩)
    · exact hT.not_self t hmem
    · exact hjoin hjt.symm

theorem ready_inUse (p : Priority) : SchedList.ready p ∈ inUse A := by
  simp [inUse, SchedList.owner]

theorem makeReady (hT : Threaded k A L) (ht : t ∈ L g) :
    Threaded (k.makeReady t) A (transfer L t (.ready (k.threads t).priority)) := by
  refine hT.relink (listMove_rings hT.rings ht (ready_inUse _)) (fun u h hut => ?_)
    (hT.alive ht) ?_ (by simp) ?_
  · simp [hT.rings.mem_transfer, hut]
  · simp [hT.rings.mem_transfer]
  · simp [hT.rings.mem_transfer]

theorem next_head (hT : Threaded k A L) (hh : h ∈ inUse A) :
    next k.links (.inl h) = ((L h).map Sum.inr).headD (.inl h) :=
  (hT.rings.ring h hh).next_head

theorem next_thread (hT : Threaded k A L) {pre l : List Tid} (hl : L h = pre ++ t :: l) :
    next k.links (.inr t) = (l.map Sum.inr).headD (.inl h) := by
  have hring := hT.rings.ring h (hT.rings.inUse (hl ▸ List.mem_append_right _ List.mem_cons_self))
  rw [hl, List.map_append, List.map_cons] at hring
  have hseg := (segment_append.mp hring.segment).2
  cases l with
  | nil => exact hseg.1
  | cons x l => exact hseg.1

theorem forEachEntry_eq {τ : Type} (hT : Threaded k A L) (hh : h ∈ inUse A) (body : τ → Tid → τ)
    (init : τ) : k.forEachEntry h body init = some ((L h).foldl body init) :=
  forEachEntry_of_ring (hT.rings.ring h hh) (hT.length_lt h) body init

/-- The rule for the safe loop over a list: `Inv` speaks of the kernel and of the threads
that are still to come, which are the end of the list. -/
theorem forEachSafeM_rule (body : Kernel → Tid → Option Kernel) (Inv : Kernel → List Tid → Prop)
    (hinv : ∀ k l, Inv k l → ∃ L pre, Threaded k A L ∧ L h = pre ++ l)
    (hbody : ∀ k t l, Inv k (t :: l) → ∃ k', body k t = some k' ∧ Inv k' l)
    (hT : Threaded k A L) (hh : h ∈ inUse A) (hstart : Inv k (L h)) :
    ∃ k', k.forEachSafeM h body = some k' ∧ Inv k' [] := by
  have hloop : ∃ k', k.forEachSafeM h body = some k' ∧
      ∃ l : List Tid, [] = l.map (Sum.inr : Tid → ListNode) ∧ Inv k' l := by
    rw [forEachSafeM, hT.next_head hh]
    refine listForEachSafe_rule (fun k nodes => ∃ l : List Tid, nodes = l.map Sum.inr ∧ Inv k l)
      ?_ ?_ (by simpa using hT.length_lt h) ⟨L h, rfl, hstart⟩
    · rintro k x nodes ⟨l, hl, hk⟩
      cases l with
      | nil => cases hl
      | cons t l =>
          obtain ⟨rfl, rfl⟩ := List.cons.inj hl
          obtain ⟨L, pre, hk, hpre⟩ := hinv k _ hk
          exact ⟨Sum.inr_ne_inl, hk.next_thread hpre⟩
    · rintro k x nodes ⟨l, hl, hk⟩
      cases l with
      | nil => cases hl
      | cons t l =>
          obtain ⟨rfl, rfl⟩ := List.cons.inj hl
          obtain ⟨k', hk', hinv'⟩ := hbody k t l hk
          exact ⟨k', hk', l, rfl, hinv'⟩
  obtain ⟨k', hk', l, hl, hdone⟩ := hloop
  obtain rfl : l = [] := by simpa using hl.symm
  exact ⟨k', hk', hdone⟩

theorem forEachSafe_rule (body : Kernel → Tid → Kernel) (Inv : Kernel → List Tid → Prop)
    (hinv : ∀ k l, Inv k l → ∃ L pre, Threaded k A L ∧ L h = pre ++ l)
    (hbody : ∀ k t l, Inv k (t :: l) → Inv (body k t) l) (hT : Threaded k A L) (hh : h ∈ inUse A)
    (hstart : Inv k (L h)) : ∃ k', k.forEachSafe h body = some k' ∧ Inv k' [] := by
  rw [forEachSafe_eq]
  exact hT.forEachSafeM_rule _ Inv hinv (fun k t l hk => ⟨_, rfl, hbody k t l hk⟩) hh hstart

end Threaded

/-- A thread on a ready list has been put there with its priority, or it was there before
with the status and the priority that it has. -/
def Files (k : Kernel) (L : SchedList → List Tid) (k' : Kernel) (L' : SchedList → List Tid) :
    Prop :=
  ∀ t p, t ∈ L' (.ready p) →
    ((k'.threads t).status = .ready ∧ (k'.threads t).priority = p) ∨
      (t ∈ L (.ready p) ∧ (k'.threads t).status = (k.threads t).status ∧
        (k'.threads t).priority = (k.threads t).priority)

/-- Every thread on a ready list is ready and has the priority of the list. -/
def FiledIn (k : Kernel) (L : SchedList → List Tid) : Prop :=
  ∀ t p, t ∈ L (.ready p) → (k.threads t).status = .ready ∧ (k.threads t).priority = p

namespace Files
variable {k'' : Kernel} {L'' : SchedList → List Tid}

theorem filedIn (h : Files k L k' L') (hF : FiledIn k L) : FiledIn k' L' := by
  intro t p ht
  obtain hnew | ⟨ht', hst, hpri⟩ := h t p ht
  · exact hnew
  · rw [hst, hpri]
    exact hF t p ht'

theorem refl (k : Kernel) (L : SchedList → List Tid) : Files k L k L :=
  fun _ _ ht => Or.inr ⟨ht, rfl, rfl⟩

theorem trans (h : Files k L k' L') (h' : Files k' L' k'' L'') : Files k L k'' L'' := by
  intro t p ht
  obtain hnew | ⟨ht', hst', hpri'⟩ := h' t p ht
  · exact Or.inl hnew
  · rw [hst', hpri']
    exact h t p ht'

theorem of_subset (hsub : ∀ t p, t ∈ L' (.ready p) → t ∈ L (.ready p))
    (hthreads : ∀ t p, t ∈ L' (.ready p) → (k'.threads t).status = (k.threads t).status ∧
      (k'.threads t).priority = (k.threads t).priority) : Files k L k' L' :=
  fun t p ht => Or.inr ⟨hsub t p ht, hthreads t p ht⟩

theorem makeReady (hT : Threaded k A L) (ht : t ∈ L g) :
    Files k L (k.makeReady t) (transfer L t (.ready (k.threads t).priority)) := by
  intro u p hu
  obtain ⟨hut, hu⟩ | ⟨rfl, hp⟩ := hT.rings.mem_transfer.mp hu
  · exact Or.inr ⟨hu, by simp [Kernel.makeReady, setStatus, setThread, hut]⟩
  · obtain rfl : p = (k.threads u).priority := by simpa using hp
    exact Or.inl (by simp [Kernel.makeReady, setStatus, setThread])

end Files

/-- What wake-ups can do: threads leave lists of `S` for ready lists and become ready. -/
structure Wakes (S : Set SchedList) (k : Kernel) (L : SchedList → List Tid) (k' : Kernel)
    (L' : SchedList → List Tid) : Prop where
  rest : k' = { k with links := k'.links, threads := k'.threads }
  info : ∀ t, k'.threads t = { k.threads t with status := (k'.threads t).status }
  status : ∀ t, (k'.threads t).status = (k.threads t).status ∨ (k'.threads t).status = .ready
  others : ∀ g, g ∉ S → (∀ p, g ≠ .ready p) → L' g = L g
  stays : ∀ g, g ∉ S → (∀ p, g ≠ .ready p) → ∀ t ∈ L g, k'.threads t = k.threads t
  leaves : ∀ g, (∀ p, g ≠ .ready p) → ∀ t ∈ L' g, t ∈ L g
  ready : ∀ t p, t ∈ L (.ready p) → ∃ p', t ∈ L' (.ready p')
  files : Files k L k' L'
  free : ∀ t, (∀ h, t ∉ L h) → (∀ h, t ∉ L' h) ∧ k'.threads t = k.threads t

namespace Wakes
variable {S : Set SchedList} {k'' : Kernel} {L'' : SchedList → List Tid}

theorem refl (S : Set SchedList) (k : Kernel) (L : SchedList → List Tid) : Wakes S k L k L :=
  ⟨rfl, fun _ => rfl, fun _ => Or.inl rfl, fun _ _ _ => rfl, fun _ _ _ _ _ => rfl,
    fun _ _ _ => id, fun _ p hp => ⟨p, hp⟩, Files.refl k L, fun _ h => ⟨h, rfl⟩⟩

theorem trans (h : Wakes S k L k' L') (h' : Wakes S k' L' k'' L'') : Wakes S k L k'' L'' where
  rest := by rw [h'.rest, h.rest]
  info t := by rw [h'.info t, h.info t]
  status t := (h'.status t).elim (fun ht => ht ▸ h.status t) Or.inr
  others g hg hready := (h'.others g hg hready).trans (h.others g hg hready)
  stays g hg hready t ht := by
    have ht' : t ∈ L' g := h.others g hg hready ▸ ht
    exact (h'.stays g hg hready t ht').trans (h.stays g hg hready t ht)
  leaves g hready t ht := h.leaves g hready t (h'.leaves g hready t ht)
  ready t p hp := by
    obtain ⟨p', hp'⟩ := h.ready t p hp
    exact h'.ready t p' hp'
  files := h.files.trans h'.files
  free t ht := by
    obtain ⟨ht', heq⟩ := h.free t ht
    exact ⟨(h'.free t ht').1, (h'.free t ht').2.trans heq⟩

theorem makeReady (hT : Threaded k A L) (ht : t ∈ L g) (hg : g ∈ S) :
    Wakes S k L (k.makeReady t) (transfer L t (.ready (k.threads t).priority)) where
  rest := rfl
  info u := by
    by_cases hut : u = t
    · subst hut
      simp [Kernel.makeReady, setStatus, setThread]
    · simp [Kernel.makeReady, setStatus, setThread, hut]
  status u := by
    by_cases hut : u = t
    · subst hut
      simp [Kernel.makeReady, setStatus, setThread]
    · simp [Kernel.makeReady, setStatus, setThread, hut]
  others h hh hready := by
    have hth : t ∉ L h := fun hth => hh (hT.rings.unique hth ht ▸ hg)
    rw [transfer, enqueue_of_ne (hready _), dequeue_of_notMem hth]
  stays h hh _ u hu := by
    have hut : u ≠ t := fun hut => hh (hT.rings.unique (hut ▸ hu) ht ▸ hg)
    simp [Kernel.makeReady, setStatus, setThread, hut]
  leaves h hready u hu :=
    ((hT.rings.mem_transfer.mp hu).resolve_right fun hut => hready _ hut.2).2
  ready u p hu := by
    by_cases hut : u = t
    · exact ⟨_, hT.rings.mem_transfer.mpr (Or.inr ⟨hut, rfl⟩)⟩
    · exact ⟨p, hT.rings.mem_transfer.mpr (Or.inl ⟨hut, hu⟩)⟩
  files := Files.makeReady hT ht
  free u hu := by
    have hut : u ≠ t := fun hut => hu g (hut ▸ ht)
    refine ⟨fun h hh => hu h ?_, by simp [Kernel.makeReady, setStatus, setThread, hut]⟩
    exact ((hT.rings.mem_transfer.mp hh).resolve_right fun h => hut h.1).2

theorem runningThread (h : Wakes S k L k' L') : k'.runningThread = k.runningThread := by
  rw [h.rest]

theorem registered (h : Wakes S k L k' L') (hR : Registered k) : Registered k' := by
  have hinfo : ∀ t, (k'.threads t).task = (k.threads t).task ∧
      (k'.threads t).pollTimed = (k.threads t).pollTimed := fun t => by rw [h.info t]; simp
  rw [h.rest]
  exact hR.of_same rfl rfl rfl rfl hinfo

end Wakes

theorem setThread_id (k : Kernel) (t : Tid) : (k.setThread t fun i => i) = k := by
  simp [setThread]

@[simp]
theorem makeReady_status (k : Kernel) (t : Tid) : ((k.makeReady t).threads t).status = .ready := by
  simp [makeReady, setStatus, setThread]

namespace Threaded

theorem transfer_suffix (hT : Threaded k A L) {pre l : List Tid} (hl : L h = pre ++ t :: l)
    (hne : h ≠ g) : transfer L t g h = pre ++ l := by
  have hpre : t ∉ pre := by
    have hnd := hT.rings.nodup h
    rw [hl, List.nodup_append] at hnd
    exact fun hmem => hnd.2.2 t hmem t List.mem_cons_self rfl
  rw [transfer, enqueue_of_ne hne, dequeue, hl, List.erase_append_right _ hpre,
    List.erase_cons_head]

theorem wakeLoopM (body : Kernel → Tid → Option Kernel) (c : Tid → Bool) (hT : Threaded k A L)
    (hh : h ∈ inUse A) (hready : ∀ p, h ≠ .ready p)
    (hbody : ∀ k' L', Wakes {h} k L k' L' → ∀ t ∈ L h,
      body k' t = some (if c t then k'.makeReady t else k')) :
    ∃ k' L', k.forEachSafeM h body = some k' ∧ Threaded k' A L' ∧ Wakes {h} k L k' L' ∧
      L' h = (L h).filter (fun t => !c t) ∧
      (∀ t ∈ L h, c t = true → (k'.threads t).status = .ready ∧ ∃ p, t ∈ L' (.ready p)) ∧
      (∀ t, ¬ (t ∈ L h ∧ c t = true) → k'.threads t = k.threads t) ∧
      (∀ p, L' (.ready p) = L (.ready p) ++
        (L h).filter fun t => c t && decide ((k.threads t).priority = p)) ∧
      k' = (L h).foldl (fun k t => if c t then k.makeReady t else k) k := by
  have hloop := hT.forEachSafeM_rule body (h := h) (fun k' l => ∃ L' pre,
    (Threaded k' A L' ∧ Wakes {h} k L k' L') ∧ L h = pre ++ l ∧
      L' h = pre.filter (fun t => !c t) ++ l ∧
      (∀ t ∈ pre, c t = true → (k'.threads t).status = .ready ∧ ∃ p, t ∈ L' (.ready p)) ∧
      (∀ t, ¬ (t ∈ pre ∧ c t = true) → k'.threads t = k.threads t) ∧
      (∀ p, L' (.ready p) = L (.ready p) ++
        pre.filter fun t => c t && decide ((k.threads t).priority = p)) ∧
      k' = pre.foldl (fun k t => if c t then k.makeReady t else k) k) ?_ ?_ hh
    ⟨L, [], ⟨hT, Wakes.refl ..⟩, rfl, rfl, by simp, fun _ _ => rfl, by simp, rfl⟩
  · obtain ⟨k', hk', L', pre, ⟨hT', hW⟩, hpre, hfilter, hstatus, hsame, hqueue, hfold⟩ := hloop
    rw [List.append_nil] at hpre hfilter
    subst hpre
    exact ⟨k', L', hk', hT', hW, hfilter, hstatus, hsame, hqueue, hfold⟩
  · rintro k' l ⟨L', pre, ⟨hT', -⟩, -, hl, -⟩
    exact ⟨L', _, hT', hl⟩
  · rintro k' t l ⟨L', pre, ⟨hT', hW⟩, hpre, hl, hstatus, hsame, hqueue, hfold⟩
    have htL : t ∈ L' h := hl ▸ List.mem_append_right _ List.mem_cons_self
    refine ⟨_, hbody k' L' hW t (hpre ▸ List.mem_append_right _ List.mem_cons_self), ?_⟩
    cases hc : c t with
    | false =>
        refine ⟨L', pre ++ [t], ⟨hT', hW⟩, by simp [hpre], by simp [hl, hc], fun u hu hcu => ?_,
          fun u hu => hsame u fun h => hu ⟨List.mem_append_left _ h.1, h.2⟩,
          by simp [hqueue, hc], by simp [hfold, hc]⟩
        simp only [List.mem_append, List.mem_singleton] at hu
        obtain hu | rfl := hu
        · exact hstatus u hu hcu
        · simp [hc] at hcu
    | true =>
        have hW' := Wakes.makeReady hT' htL (Set.mem_singleton h)
        rw [if_pos rfl]
        refine ⟨_, pre ++ [t], ⟨hT'.makeReady htL, hW.trans hW'⟩, by simp [hpre], ?_,
          fun u hu hcu => ?_, fun u hu => ?_, fun p => ?_, by simp [hfold, hc]⟩
        · rw [hT'.transfer_suffix hl (hready _)]
          simp [hc]
        · by_cases hut : u = t
          · subst hut
            exact ⟨makeReady_status .., _, hT'.rings.mem_transfer.mpr (Or.inr ⟨rfl, rfl⟩)⟩
          · have hu' : u ∈ pre := by simpa [hut] using hu
            obtain ⟨hst, p, hp⟩ := hstatus u hu' hcu
            exact ⟨(hW'.status u).elim (fun h => h.trans hst) id, hW'.ready u p hp⟩
        · have hut : u ≠ t := fun hut => hu ⟨by simp [hut], hut ▸ hc⟩
          have hother : (k'.makeReady t).threads u = k'.threads u := by
            simp [Kernel.makeReady, setStatus, setThread, hut]
          rw [hother]
          exact hsame u fun h => hu ⟨List.mem_append_left _ h.1, h.2⟩
        · have hpri : (k'.threads t).priority = (k.threads t).priority := by rw [hW.info t]
          have htp : t ∉ L' (.ready p) := fun htp => hready p (hT'.rings.unique htL htp)
          rw [hpri]
          by_cases hp : (k.threads t).priority = p
          · rw [transfer, hp, enqueue, Function.update_self, dequeue_of_notMem htp, hqueue]
            simp [hc, hp]
          · rw [transfer, enqueue_of_ne (by simpa using Ne.symm hp), dequeue_of_notMem htp, hqueue]
            simp [hc, hp]

theorem wakeLoop (body : Kernel → Tid → Kernel) (c : Tid → Bool) (hT : Threaded k A L)
    (hh : h ∈ inUse A) (hready : ∀ p, h ≠ .ready p)
    (hbody : ∀ k' L' t, Wakes {h} k L k' L' →
      body k' t = if c t then k'.makeReady t else k') :
    ∃ k' L', k.forEachSafe h body = some k' ∧ Threaded k' A L' ∧ Wakes {h} k L k' L' ∧
      L' h = (L h).filter (fun t => !c t) ∧
      (∀ t ∈ L h, c t = true → (k'.threads t).status = .ready ∧ ∃ p, t ∈ L' (.ready p)) ∧
      ∀ p, L' (.ready p) = L (.ready p) ++
        (L h).filter fun t => c t && decide ((k.threads t).priority = p) := by
  obtain ⟨k', L', hk', hT', hW, hfilter, hstatus, -, hqueue, -⟩ :=
    hT.wakeLoopM (fun k t => some (body k t)) c hh hready
      fun k' L' hW t _ => congrArg some (hbody k' L' t hW)
  exact ⟨k', L', (forEachSafe_eq ..).trans hk', hT', hW, hfilter, hstatus, hqueue⟩

theorem finishWait (hT : Threaded k A L) (ht : k.Alive t) :
    ∃ L', Threaded (k.finishWait t) A L' ∧ Wakes Set.univ k L (k.finishWait t) L' := by
  by_cases hrun : t = k.runningThread
  · exact ⟨L, by simpa [Kernel.finishWait, hrun] using hT,
      by simpa [Kernel.finishWait, hrun] using Wakes.refl Set.univ k L⟩
  · obtain ⟨g, hg⟩ := hT.exists_mem ht hrun
    rw [Kernel.finishWait, if_pos hrun]
    exact ⟨_, hT.makeReady hg, Wakes.makeReady hT hg (Set.mem_univ g)⟩

theorem finishWait_of_mem (hT : Threaded k A L) (ht : t ∈ L h) :
    ∃ L', Threaded (k.finishWait t) A L' ∧ Wakes {h} k L (k.finishWait t) L' := by
  rw [Kernel.finishWait]
  split
  · exact ⟨_, hT.makeReady ht, Wakes.makeReady hT ht (Set.mem_singleton h)⟩
  · exact ⟨L, hT, Wakes.refl ..⟩

theorem foldl_higher (k : Kernel) (first : Tid) (l : List Tid) :
    ∃ pre post, first :: l = pre ++ l.foldl k.higher first :: post ∧
      (∀ u ∈ pre, (k.threads u).priority < (k.threads (l.foldl k.higher first)).priority) ∧
      ∀ u ∈ post, (k.threads u).priority ≤ (k.threads (l.foldl k.higher first)).priority := by
  induction l using List.reverseRecOn with
  | nil => exact ⟨[], [], rfl, by simp, by simp⟩
  | append_singleton l t ih =>
      obtain ⟨pre, post, hl, hpre, hpost⟩ := ih
      simp only [List.foldl_append, List.foldl_cons, List.foldl_nil]
      generalize l.foldl k.higher first = m at *
      by_cases hm : (k.threads m).priority < (k.threads t).priority
      · refine ⟨first :: l, [], by simp [higher, hm], fun u hu => ?_, by simp⟩
        rw [higher, if_pos hm]
        rw [hl] at hu
        simp only [List.mem_append, List.mem_cons] at hu
        obtain hu | rfl | hu := hu
        · exact Fin.lt_trans (hpre u hu) hm
        · exact hm
        · exact Fin.lt_of_le_of_lt (hpost u hu) hm
      · refine ⟨pre, post ++ [t], ?_, ?_, fun u hu => ?_⟩
        · rw [higher, if_neg hm, ← List.cons_append, hl]
          simp
        · rwa [higher, if_neg hm]
        · rw [higher, if_neg hm]
          simp only [List.mem_append, List.mem_singleton] at hu
          obtain hu | rfl := hu
          · exact hpost u hu
          · exact Fin.not_lt.mp hm

theorem foldl_higher_mem (k : Kernel) (first : Tid) (l : List Tid) :
    l.foldl k.higher first ∈ first :: l := by
  obtain ⟨pre, post, hl, -⟩ := foldl_higher k first l
  rw [hl]
  exact List.mem_append_right _ List.mem_cons_self

theorem wakeUp (hT : Threaded k A L) (hh : h ∈ inUse A) :
    (L h = [] ∧ k.wakeUp h = some k) ∨
    ∃ pre t post, L h = pre ++ t :: post ∧
      (∀ u ∈ pre, (k.threads u).priority < (k.threads t).priority) ∧
      (∀ u ∈ post, (k.threads u).priority ≤ (k.threads t).priority) ∧
      (∃ first l, L h = first :: l ∧ t = l.foldl k.higher first) ∧
      k.wakeUp h = some (k.makeReady t) := by
  have hempty := listEmpty_iff (hT.rings.ring h hh)
  rw [List.map_eq_nil_iff] at hempty
  cases hl : L h with
  | nil => exact Or.inl ⟨rfl, by rw [Kernel.wakeUp, if_pos (hempty.mpr hl)]⟩
  | cons first l =>
      have hne : ¬ listEmpty k.links (.inl h) = true := by simp [hempty, hl]
      have hfirst : next k.links (.inl h) = .inr first := by simp [hT.next_head hh, hl]
      obtain ⟨pre, post, hsplit, hpre, hpost⟩ := foldl_higher k first l
      refine Or.inr ⟨pre, _, post, hsplit, hpre, hpost, ⟨first, l, rfl, rfl⟩, ?_⟩
      simp [Kernel.wakeUp, hne, hfirst, listEntry, hT.forEachEntry_eq hh, hl, higher]

theorem wakeUpAll (hT : Threaded k A L) (hh : h ∈ inUse A) (hready : ∀ p, h ≠ .ready p) :
    ∃ k' L', k.wakeUpAll h = some k' ∧ Threaded k' A L' ∧ Wakes {h} k L k' L' ∧ L' h = [] ∧
      ∀ t ∈ L h, (k'.threads t).status = .ready ∧ ∃ p, t ∈ L' (.ready p) := by
  obtain ⟨k', L', hk', hT', hW, hL', hstatus, -⟩ :=
    hT.wakeLoop Kernel.makeReady (fun _ => true) hh hready fun _ _ _ _ => rfl
  exact ⟨k', L', hk', hT', hW, by simpa using hL', fun t ht => hstatus t ht rfl⟩

theorem mem_of_foldl_fifoHigher {availSize : Nat} {l : List Tid} {highest : Option Tid}
    (ht : t ∈ l.foldl (k.fifoHigher availSize) highest) : t ∈ highest ∨ t ∈ l := by
  induction l generalizing highest with
  | nil => exact Or.inl ht
  | cons u l ih =>
      cases ih ht with
      | inr hl => exact Or.inr (List.mem_cons_of_mem _ hl)
      | inl hu =>
          cases highest with
          | none => grind [fifoHigher]
          | some v => grind [fifoHigher, higher]

theorem foldl_fifoHigher_eq_none {availSize : Nat} {l : List Tid} {highest : Option Tid}
    (hnone : l.foldl (k.fifoHigher availSize) highest = none) :
    ∀ t ∈ l, availSize < (k.threads t).fileRequestSize := by
  have hsome : ∀ (l : List Tid) u, l.foldl (k.fifoHigher availSize) (some u) ≠ none := by
    intro l
    induction l with
    | nil => simp
    | cons t l ih =>
        intro u
        rw [List.foldl_cons, fifoHigher]
        split
        · exact ih _
        · exact ih u
  induction l generalizing highest with
  | nil => simp
  | cons u l ih =>
      rw [List.foldl_cons] at hnone
      have hu : availSize < (k.threads u).fileRequestSize := by
        by_contra hle
        rw [fifoHigher, if_pos (Nat.le_of_not_lt hle)] at hnone
        exact hsome l _ hnone
      intro t ht
      obtain rfl | ht := List.mem_cons.mp ht
      · exact hu
      · exact ih hnone t ht

theorem fifoWakeUp {availSize : Nat} (hT : Threaded k A L) (hh : h ∈ inUse A) :
    ∃ k' L', k.fifoWakeUp h availSize = some k' ∧ Threaded k' A L' ∧ Wakes {h} k L k' L' := by
  rw [Kernel.fifoWakeUp, hT.forEachEntry_eq hh]
  cases hres : (L h).foldl (k.fifoHigher availSize) none with
  | none => exact ⟨k, L, rfl, hT, Wakes.refl ..⟩
  | some t =>
      have ht : t ∈ L h := (mem_of_foldl_fifoHigher hres).resolve_left (by simp)
      obtain ⟨L', hT', hW⟩ := hT.finishWait_of_mem ht
      exact ⟨_, L', rfl, hT', hW⟩

theorem of_status (hT : Threaded k A L) (hlinks : k'.links = k.links)
    (hbitmap : k'.bitmapThreads = k.bitmapThreads) (hrun : k'.runningThread = k.runningThread)
    (hstatus : ∀ t, (k'.threads t).status = (k.threads t).status) : Threaded k' A L where
  rings := hlinks ▸ hT.rings
  linked_iff t := by simpa only [Alive, hbitmap, hstatus] using hT.linked_iff t
  running t := by simpa only [Alive, hbitmap, hstatus, hrun] using hT.running t
  lt_max t := by simpa only [Alive, hbitmap] using hT.lt_max t
  not_self := hT.not_self

theorem status_setThread {f : ThreadInfo → ThreadInfo} (hf : ∀ i, (f i).status = i.status)
    (u : Tid) : ((k.setThread t f).threads u).status = (k.threads u).status := by
  by_cases hut : u = t
  · subst hut
    simp [Kernel.setThread, hf]
  · simp [Kernel.setThread, hut]

theorem setThread {f : ThreadInfo → ThreadInfo} (hT : Threaded k A L)
    (hf : ∀ i, (f i).status = i.status) : Threaded (k.setThread t f) A L :=
  hT.of_status rfl rfl rfl (status_setThread hf)

end Threaded

theorem Registered.setThread {f : ThreadInfo → ThreadInfo} (hR : Registered k)
    (hf : ∀ i, (f i).task = i.task ∧ (f i).pollTimed = i.pollTimed) :
    Registered (k.setThread t f) := by
  refine hR.of_same rfl rfl rfl rfl fun u => ?_
  by_cases hut : u = t
  · subst hut
    simpa [Kernel.setThread] using hf _
  · simp [Kernel.setThread, hut]

/-- The current thread, unless it has queued itself. -/
def preempted (k : Kernel) : List Tid :=
  if (k.threads k.runningThread).status = .running then [k.runningThread] else []

/-- A pass of `__schedule`: it moves threads between the sleep list, the ready lists
and the CPU. -/
structure Dispatches (k : Kernel) (L : SchedList → List Tid) (k' : Kernel)
    (L' : SchedList → List Tid) : Prop where
  rest : k' = { k with
    links := k'.links, threads := k'.threads, runningThread := k'.runningThread }
  info : ∀ t, k'.threads t = { k.threads t with status := (k'.threads t).status }
  status : (k'.threads k'.runningThread).status = .running
  others : ∀ g, g ≠ .sleep → (∀ p, g ≠ .ready p) → L' g = L g
  stays : ∀ g, g ≠ .sleep → (∀ p, g ≠ .ready p) → ∀ t ∈ L g, k'.threads t = k.threads t
  ready : ∀ t p, t ∈ L (.ready p) → t = k'.runningThread ∨ ∃ p', t ∈ L' (.ready p')
  files : Files k L k' L'
  yields : (k.threads k.runningThread).status = .running →
    (k.threads k.runningThread).sleepTicks = 0#32 →
    k.runningThread = k'.runningThread ∨ ∃ p, k.runningThread ∈ L' (.ready p)
  sleeps : ∀ t ∈ L .sleep, (k.threads t).sleepTicks ≠ 0#32 → t ∈ L' .sleep

namespace Files

theorem setThread {f : ThreadInfo → ThreadInfo}
    (hf : ∀ i, (f i).status = i.status ∧ (f i).priority = i.priority) :
    Files k L (k.setThread t f) L := by
  refine of_subset (fun _ _ => id) fun u _ _ => ?_
  by_cases hut : u = t
  · subst hut
    simpa [Kernel.setThread] using hf _
  · simp [Kernel.setThread, hut]

theorem prepareToWait {state : ThreadStatus} (hT : Threaded k A L)
    (ht : (k.threads t).status = .running) (hh : ∀ p, h ≠ .ready p) :
    Files k L (k.prepareToWait h t state) (enqueue L t h) := by
  refine of_subset (fun u p hu => by rwa [enqueue_of_ne (hh p).symm] at hu) fun u p hu => ?_
  rw [enqueue_of_ne (hh p).symm] at hu
  have hut : u ≠ t := fun hut => hT.notMem_of_running ht _ (hut ▸ hu)
  simp [Kernel.prepareToWait, setStatus, Kernel.setThread, hut]

end Files

namespace Threaded

theorem sleep_inUse : SchedList.sleep ∈ inUse A := by simp [inUse, SchedList.owner]

theorem dispatch (hT : Threaded k A L) (hidle : ∀ u, (k.threads u).status ≠ .running)
    (ht : t ∈ L h) :
    Threaded ({ k with runningThread := t, links := listDel k.links (Sum.inr t) }.setStatus t
      .running) A (dequeue L t) := by
  have hT' : Threaded { k with runningThread := t } A L :=
    ⟨hT.rings, hT.linked_iff, fun u hu => absurd hu (hidle u), hT.lt_max, hT.not_self⟩
  refine hT'.relink (listDel_rings hT.rings ht) (fun u h hut => ?_) (hT.alive ht) ?_
    (fun _ => rfl) ?_
  · simp [hT.rings.mem_dequeue, hut]
  · simp [hT.rings.mem_dequeue]
  · simp [hT.rings.mem_dequeue]

theorem stopRunning_info (k : Kernel) (t : Tid) :
    k.stopRunning.threads t = { k.threads t with status := (k.stopRunning.threads t).status } := by
  rw [Kernel.stopRunning]
  split
  · by_cases ht : t = k.runningThread
    · simp [Kernel.prepareToWait, setStatus, Kernel.setThread, ht]
    · simp [Kernel.prepareToWait, setStatus, Kernel.setThread, ht]
  · rfl

theorem stopRunning_rest (k : Kernel) : k.stopRunning =
    { k with links := k.stopRunning.links, threads := k.stopRunning.threads } := by
  rw [Kernel.stopRunning]
  split <;> rfl

theorem stopRunning (hT : Threaded k A L) :
    ∃ L', Threaded k.stopRunning A L' ∧ (∀ u, (k.stopRunning.threads u).status ≠ .running) ∧
      (∀ g, g ≠ .sleep → L' g = L g) ∧ L' .sleep = L .sleep ++ k.preempted ∧
      ∀ t g, t ∈ L g → k.stopRunning.threads t = k.threads t := by
  by_cases hrun : (k.threads k.runningThread).status = .running
  · rw [Kernel.stopRunning, preempted, if_pos hrun, if_pos hrun]
    refine ⟨_, hT.prepareToWait sleep_inUse hrun (by simp) (by simp), fun u hu => ?_,
      fun g hg => enqueue_of_ne hg, Function.update_self .., fun t g ht => ?_⟩
    · by_cases hut : u = k.runningThread
      · simp [Kernel.prepareToWait, setStatus, Kernel.setThread, hut] at hu
      · simp only [Kernel.prepareToWait, setStatus, Kernel.setThread,
          Function.update_of_ne hut] at hu
        exact hut (hT.running u hu).1
    · have htr : t ≠ k.runningThread := fun h => hT.notMem_of_running hrun g (h ▸ ht)
      simp [Kernel.prepareToWait, setStatus, Kernel.setThread, htr]
  · rw [Kernel.stopRunning, preempted, if_neg hrun, if_neg hrun]
    exact ⟨L, hT, fun u hu => hrun ((hT.running u hu).1 ▸ hu), fun _ _ => rfl,
      (List.append_nil _).symm, fun _ _ _ => rfl⟩

theorem wakeSleepers (hT : Threaded k A L) :
    ∃ k' L', k.wakeSleepers = some k' ∧ Threaded k' A L' ∧ Wakes {.sleep} k L k' L' ∧
      (∀ t ∈ L .sleep, (k.threads t).sleepTicks = 0#32 → ∃ p, t ∈ L' (.ready p)) ∧
      L' .sleep = (L .sleep).filter (fun t => !decide ((k.threads t).sleepTicks = 0#32)) ∧
      ∀ p, L' (.ready p) = L (.ready p) ++ (L .sleep).filter fun t =>
        decide ((k.threads t).sleepTicks = 0#32) && decide ((k.threads t).priority = p) := by
  obtain ⟨k', L', hk', hT', hW, hfilter, hready, hqueue⟩ :=
    hT.wakeLoop (fun k t => if (k.threads t).sleepTicks = 0#32 then k.makeReady t else k)
      (fun t => decide ((k.threads t).sleepTicks = 0#32)) sleep_inUse (by simp)
      fun k' L' t hW => by rw [hW.info t]; simp
  exact ⟨k', L', hk', hT', hW, fun t ht hticks => (hready t ht (by simpa using hticks)).2,
    hfilter, hqueue⟩

theorem highestReady {p : Priority} (hT : Threaded k A L) (hp : k.highestReady = some p) :
    ∃ t l, L (.ready p) = t :: l := by
  have hne := List.find?_some hp
  have hempty := listEmpty_iff (hT.rings.ring _ (ready_inUse p))
  cases hl : L (.ready p) with
  | nil => simp [hl] at hempty hne; simp [hne] at hempty
  | cons t l => exact ⟨t, l, rfl⟩

theorem schedule (hT : Threaded k A L) (hsched : k.schedule = some k') :
    ∃ L', Threaded k' A L' ∧ Dispatches k L k' L' := by
  obtain ⟨L₁, hT₁, hidle, hL₁, hsleepers, hstopped⟩ := hT.stopRunning
  obtain ⟨k₂, L₂, hk₂, hT₂, hW, hsleep, hstay, -⟩ := hT₁.wakeSleepers
  simp only [Kernel.schedule, hk₂, Option.bind_eq_bind, Option.bind_some,
    Option.bind_eq_some_iff] at hsched
  obtain ⟨p, hp, t, ht, hk'⟩ := hsched
  obtain ⟨u, l, hl⟩ := hT₂.highestReady hp
  rw [hT₂.next_head (ready_inUse p), hl] at ht
  obtain rfl : u = t := Option.some.inj ht
  have hu : u ∈ L₂ (.ready p) := hl ▸ List.mem_cons_self
  have hidle₂ : ∀ v, (k₂.threads v).status ≠ .running := fun v hv =>
    (hW.status v).elim (fun h => hidle v (h.symm.trans hv)) fun h => by simp [h] at hv
  have hleft : ∀ v q, v ∈ L₂ (.ready q) → v = u ∨ ∃ q', v ∈ dequeue L₂ u (.ready q') := by
    intro v q hv
    by_cases hvu : v = u
    · exact Or.inl hvu
    · exact Or.inr ⟨q, hT₂.rings.mem_dequeue.mpr ⟨hvu, hv⟩⟩
  obtain rfl := Option.some.inj hk'
  refine ⟨_, hT₂.dispatch hidle₂ hu, ?_, fun v => ?_, ?_, fun g hg hready => ?_,
    fun g hg hready v hv => ?_, fun v q hv => ?_, ?_, fun hst hticks => ?_, fun v hv hticks => ?_⟩
  · rw [hW.rest, stopRunning_rest]
    rfl
  · have hinfo : k₂.threads v = { k.threads v with status := (k₂.threads v).status } := by
      rw [hW.info v, stopRunning_info]
    by_cases hvu : v = u
    · subst hvu
      simp only [setStatus, Kernel.setThread, Function.update_self]
      rw [hinfo]
    · simpa only [setStatus, Kernel.setThread, Function.update_of_ne hvu] using hinfo
  · simp [setStatus, Kernel.setThread]
  · have hug : u ∉ L₂ g := fun hug => hready p (hT₂.rings.unique hug hu)
    rw [dequeue_of_notMem hug, hW.others g (by simpa using hg) hready, hL₁ g hg]
  · have hv₁ : v ∈ L₁ g := hL₁ g hg ▸ hv
    have hv₂ : v ∈ L₂ g := hW.others g (by simpa using hg) hready ▸ hv₁
    have hvu : v ≠ u := fun hvu => hready p (hT₂.rings.unique (hvu ▸ hv₂) hu)
    simp only [setStatus, Kernel.setThread, Function.update_of_ne hvu]
    rw [hW.stays g (by simpa using hg) hready v hv₁, hstopped v g hv]
  · rw [← hL₁ _ (by simp)] at hv
    obtain ⟨q', hq'⟩ := hW.ready v q hv
    exact hleft v q' hq'
  · have hstop : Files k L k.stopRunning L₁ := Files.of_subset
      (fun v q hv => by rwa [hL₁ _ (by simp)] at hv)
      (fun v q hv => by
        rw [hL₁ _ (by simp)] at hv
        rw [hstopped v _ hv]
        exact ⟨rfl, rfl⟩)
    refine (hstop.trans hW.files).trans (Files.of_subset (fun v q hv => ?_) fun v q hv => ?_)
    · exact (hT₂.rings.mem_dequeue.mp hv).2
    · have hvu := (hT₂.rings.mem_dequeue.mp hv).1
      simp [setStatus, Kernel.setThread, hvu]
  · have hz : (k.stopRunning.threads k.runningThread).sleepTicks = 0#32 := by
      rw [stopRunning_info]
      exact hticks
    have hrun : k.runningThread ∈ L₁ .sleep := by
      rw [hsleepers, preempted, if_pos hst]
      exact List.mem_append_right _ List.mem_cons_self
    obtain ⟨q, hq⟩ := hsleep k.runningThread hrun hz
    exact hleft _ q hq
  · have hticks₁ : (k.stopRunning.threads v).sleepTicks ≠ 0#32 := by rwa [stopRunning_info]
    have hv₂ : v ∈ L₂ .sleep := by
      rw [hstay, hsleepers]
      exact List.mem_filter.mpr ⟨List.mem_append_left _ hv, by simpa using hticks₁⟩
    have hvu : v ≠ u := fun hvu => by cases hT₂.rings.unique (hvu ▸ hv₂) hu
    exact hT₂.rings.mem_dequeue.mpr ⟨hvu, hv₂⟩

theorem threadsTicksUpdate (hT : Threaded k A L) :
    ∃ threads, k.threadsTicksUpdate = some { k with threads } ∧
      ∀ t, threads t = { k.threads t with sleepTicks := (threads t).sleepTicks } ∧
        (t ∉ L .sleep ∨ (k.threads t).sleepTicks = 0#32 → threads t = k.threads t) := by
  rw [Kernel.threadsTicksUpdate, hT.forEachEntry_eq sleep_inUse]
  refine ⟨_, rfl, fun t => ?_⟩
  induction L .sleep using List.reverseRecOn with
  | nil => exact ⟨rfl, fun _ => rfl⟩
  | append_singleton l u ih =>
      simp only [List.foldl_append, List.foldl_cons, List.foldl_nil, List.mem_append,
        List.mem_singleton, not_or]
      by_cases htu : t = u
      · subst htu
        rw [Function.update_self]
        refine ⟨?_, fun h => ?_⟩
        · split
          · rw [ih.1]
          · exact ih.1
        · have hz := h.resolve_left fun h => h.2 rfl
          have hsame := ih.2 (Or.inr hz)
          rw [if_neg (by simp [hsame, hz]), hsame]
      · rw [Function.update_of_ne htu]
        exact ⟨ih.1, fun h => ih.2 (h.imp_left And.left)⟩

theorem foldl_finishWait {c : Tid → Bool} {l : List Tid} (hT : Threaded k A L)
    (halive : ∀ t ∈ l, k.Alive t) :
    ∃ L', Threaded (l.foldl (fun k t => if c t then k.finishWait t else k) k) A L' ∧
      Wakes Set.univ k L (l.foldl (fun k t => if c t then k.finishWait t else k) k) L' := by
  induction l generalizing k L with
  | nil => exact ⟨L, hT, Wakes.refl ..⟩
  | cons t l ih =>
      rw [List.foldl_cons]
      cases hc : c t with
      | false => exact ih hT fun u hu => halive u (List.mem_cons_of_mem _ hu)
      | true =>
          obtain ⟨L₁, hT₁, hW₁⟩ := hT.finishWait (halive t List.mem_cons_self)
          have halive₁ : ∀ u ∈ l, (k.finishWait t).Alive u := fun u hu => by
            rw [Alive, hW₁.rest]
            exact halive u (List.mem_cons_of_mem _ hu)
          obtain ⟨L₂, hT₂, hW₂⟩ := ih hT₁ halive₁
          exact ⟨L₂, hT₂, hW₁.trans hW₂⟩

theorem systemTicksUpdate (hT : Threaded k A L) (hR : Registered k) (expired : Tid → Bool) :
    ∃ k' L', k.systemTicksUpdate expired = some k' ∧ Threaded k' A L' ∧ Registered k' ∧
      k'.bitmapThreads = k.bitmapThreads := by
  obtain ⟨threads, hticks, hinfo⟩ := hT.threadsTicksUpdate
  have hsame : ∀ t, (threads t).status = (k.threads t).status ∧
      (threads t).task = (k.threads t).task ∧ (threads t).pollTimed = (k.threads t).pollTimed :=
    fun t => by
      rw [(hinfo t).1]
      exact ⟨rfl, rfl, rfl⟩
  have hT₁ : Threaded { k with threads } A L := hT.of_status rfl rfl rfl fun t => (hsame t).1
  have hR₁ : Registered { k with threads } :=
    hR.of_same rfl rfl rfl rfl fun t => (hsame t).2
  obtain ⟨L', hT', hW⟩ := hT₁.foldl_finishWait (c := expired) fun t ht => (hR₁.timeoutList.2 t ht).1
  refine ⟨_, L', ?_, hT', hW.registered hR₁, by rw [hW.rest]⟩
  rw [Kernel.systemTicksUpdate, hticks]
  rfl

end Threaded

theorem Dispatches.registered (h : Dispatches k L k' L') (hR : Registered k) : Registered k' := by
  have hinfo : ∀ t, (k'.threads t).task = (k.threads t).task ∧
      (k'.threads t).pollTimed = (k.threads t).pollTimed := fun t => by rw [h.info t]; simp
  rw [h.rest]
  exact hR.of_same rfl rfl rfl rfl hinfo

/-- What priority inheritance can do: threads change from one ready list to another and
get other priorities. -/
structure Raised (k : Kernel) (L : SchedList → List Tid) (k' : Kernel)
    (L' : SchedList → List Tid) : Prop where
  rest : k' = { k with links := k'.links, threads := k'.threads }
  info : ∀ t, k'.threads t = { k.threads t with
    priority := (k'.threads t).priority
    originalPriority := (k'.threads t).originalPriority
    priorityInherited := (k'.threads t).priorityInherited }
  others : ∀ g, (∀ p, g ≠ .ready p) → L' g = L g
  ready : ∀ t p, t ∈ L (.ready p) → ∃ p', t ∈ L' (.ready p')

namespace Raised
variable {k'' : Kernel} {L'' : SchedList → List Tid}

theorem refl (k : Kernel) (L : SchedList → List Tid) : Raised k L k L :=
  ⟨rfl, fun _ => rfl, fun _ _ => rfl, fun _ p h => ⟨p, h⟩⟩

theorem trans (h : Raised k L k' L') (h' : Raised k' L' k'' L'') : Raised k L k'' L'' where
  rest := by rw [h'.rest, h.rest]
  info t := by rw [h'.info t, h.info t]
  others g hg := (h'.others g hg).trans (h.others g hg)
  ready t p hp := by
    obtain ⟨p', hp'⟩ := h.ready t p hp
    exact h'.ready t p' hp'

theorem setThread {f : ThreadInfo → ThreadInfo} (hf : ∀ i, f i = { i with
      priority := (f i).priority
      originalPriority := (f i).originalPriority
      priorityInherited := (f i).priorityInherited }) : Raised k L (k.setThread t f) L where
  rest := rfl
  info u := by
    by_cases hut : u = t
    · subst hut
      simpa [Kernel.setThread] using hf _
    · simp [Kernel.setThread, hut]
  others _ _ := rfl
  ready _ p h := ⟨p, h⟩

theorem registered (h : Raised k L k' L') (hR : Registered k) : Registered k' := by
  have hinfo : ∀ t, (k'.threads t).task = (k.threads t).task ∧
      (k'.threads t).pollTimed = (k.threads t).pollTimed := fun t => by rw [h.info t]; simp
  rw [h.rest]
  exact hR.of_same rfl rfl rfl rfl hinfo

end Raised

/-- What `thread_inherit_priority` writes first. It is the caller, not the owner, whose
priority is preserved. -/
structure Marks (k : Kernel) (owner : Tid) (k' : Kernel) : Prop where
  priority : ∀ t, (k'.threads t).priority = (k.threads t).priority
  inherited : ∀ t, (k'.threads t).priorityInherited =
    (decide (t = owner) || (k.threads t).priorityInherited)
  original : ∀ t, (k'.threads t).originalPriority =
    if t = k.runningThread ∧ (k.threads owner).priorityInherited = false then
      (k.threads t).priority
    else (k.threads t).originalPriority

/-- The owner has at least the priority of the caller afterwards. -/
structure Lends (k : Kernel) (owner : Tid) (k' : Kernel) : Prop where
  priority : ∀ t, (k'.threads t).priority =
    if t = owner then max (k.threads owner).priority (k.threads k.runningThread).priority
    else (k.threads t).priority
  inherited : ∀ t, (k'.threads t).priorityInherited =
    (decide (t = owner) || (k.threads t).priorityInherited)
  original : ∀ t, (k'.threads t).originalPriority =
    if t = k.runningThread ∧ (k.threads owner).priorityInherited = false then
      (k.threads t).priority
    else (k.threads t).originalPriority

namespace Marks
variable {k₂ : Kernel} {owner : Tid}

theorem of_preserve (k : Kernel) (owner : Tid) :
    Marks k owner (if (k.threads owner).priorityInherited = true then k else
      (k.setThread k.runningThread fun i => { i with originalPriority := i.priority }).setThread
        owner fun i => { i with priorityInherited := true }) := by
  split
  · next hmarked =>
      refine ⟨fun _ => rfl, fun t => ?_, fun t => by simp [hmarked]⟩
      by_cases ht : t = owner
      · simp [ht, hmarked]
      · simp [ht]
  · next hmarked =>
      refine ⟨fun t => ?_, fun t => ?_, fun t => ?_⟩
      all_goals
        by_cases ht : t = owner
        · subst ht
          by_cases hr : t = k.runningThread
          · simp [Kernel.setThread, ← hr, hmarked]
          · simp [Kernel.setThread, hr]
        · by_cases hr : t = k.runningThread
          · subst hr
            simp [Kernel.setThread, ht, hmarked]
          · simp [Kernel.setThread, ht, hr]

theorem keep (h : Marks k owner k')
    (hle : ¬ (k'.threads owner).priority < (k'.threads k.runningThread).priority) :
    Lends k owner k' := by
  refine ⟨fun t => ?_, h.inherited, h.original⟩
  rw [h.priority, h.priority, not_lt] at hle
  rw [h.priority]
  split
  · next ht => rw [ht, max_eq_left hle]
  · rfl

theorem raise {p : Priority} (h : Marks k owner k') (hthreads : k₂.threads = k'.threads)
    (hp : (k'.threads k.runningThread).priority = p) (hlt : (k'.threads owner).priority < p) :
    Lends k owner (k₂.setThread owner fun i => { i with priority := p }) := by
  rw [h.priority] at hp hlt
  subst hp
  refine ⟨fun t => ?_, fun t => ?_, fun t => ?_⟩
  · by_cases ht : t = owner
    · simp [Kernel.setThread, ht, hlt.le]
    · simp [Kernel.setThread, ht, hthreads, h.priority]
  · rw [← h.inherited]
    by_cases ht : t = owner
    · simp [Kernel.setThread, ht, hthreads]
    · simp [Kernel.setThread, ht, hthreads]
  · rw [← h.original]
    by_cases ht : t = owner
    · simp [Kernel.setThread, ht, hthreads]
    · simp [Kernel.setThread, ht, hthreads]

end Marks

namespace Threaded

theorem raise {p q : Priority} (hT : Threaded k A L) (ht : t ∈ L (.ready p)) :
    Threaded { k with links := listMove k.links (Sum.inr t) (Sum.inl (SchedList.ready q)) } A
      (transfer L t (.ready q)) where
  rings := listMove_rings hT.rings ht (ready_inUse q)
  linked_iff u := by
    refine Iff.trans ?_ (hT.linked_iff u)
    by_cases hut : u = t
    · exact iff_of_true ⟨_, hT.rings.mem_transfer.mpr (Or.inr ⟨hut, rfl⟩)⟩ ⟨_, hut ▸ ht⟩
    · exact exists_congr fun g => by simp [hT.rings.mem_transfer, hut]
  running := hT.running
  lt_max := hT.lt_max
  not_self u := by simpa [hT.rings.mem_transfer] using fun _ => hT.not_self u

theorem raiseOwner {p q : Priority} (hT : Threaded k A L) (owner : Tid) (hpq : p ≠ q) :
    ∃ k' L', k.forEachSafe (.ready p) (fun k t =>
      if t = owner then
        { k with links := listMove k.links (Sum.inr t) (Sum.inl (SchedList.ready q)) }
      else k) = some k' ∧ Threaded k' A L' ∧ Raised k L k' L' ∧ k'.threads = k.threads ∧
      owner ∉ L' (.ready p) ∧
      ∀ u r, u ∈ L' (.ready r) →
        (u = owner ∧ r = q ∧ owner ∈ L (.ready p)) ∨ u ∈ L (.ready r) := by
  have hne : SchedList.ready p ≠ .ready q := by simpa using hpq
  have hloop := hT.forEachSafe_rule (fun k t =>
      if t = owner then
        { k with links := listMove k.links (Sum.inr t) (Sum.inl (SchedList.ready q)) }
      else k) (h := .ready p)
    (fun k' l => ∃ L' pre, (Threaded k' A L' ∧ L' (.ready p) = pre ++ l) ∧ Raised k L k' L' ∧
      k'.threads = k.threads ∧ owner ∉ pre ∧
      ∀ u r, u ∈ L' (.ready r) → (u = owner ∧ r = q ∧ owner ∈ L (.ready p)) ∨ u ∈ L (.ready r))
    ?_ ?_ (ready_inUse p)
    ⟨L, [], ⟨hT, rfl⟩, Raised.refl k L, rfl, List.not_mem_nil, fun _ _ => Or.inr⟩
  · obtain ⟨k', hk', L', pre, ⟨hT', hl⟩, hraised, hthreads, howner, hplaces⟩ := hloop
    rw [List.append_nil] at hl
    exact ⟨k', L', hk', hT', hraised, hthreads, hl ▸ howner, hplaces⟩
  · rintro k' l ⟨L', pre, hl, -⟩
    exact ⟨L', pre, hl⟩
  · rintro k' t l ⟨L', pre, ⟨hT', hl⟩, hraised, hthreads, howner, hplaces⟩
    have htL : t ∈ L' (.ready p) := hl ▸ List.mem_append_right _ List.mem_cons_self
    by_cases ht : t = owner
    · rw [if_pos ht]
      refine ⟨_, pre, ⟨hT'.raise htL, hT'.transfer_suffix hl hne⟩, hraised.trans ⟨rfl, fun _ => rfl,
        fun g hg => ?_, fun u p' hu => ?_⟩, hthreads, howner, fun u r hu => ?_⟩
      · have htg : t ∉ L' g := fun h => hg p (hT'.rings.unique h htL)
        rw [transfer, enqueue_of_ne (hg q), dequeue_of_notMem htg]
      · by_cases hut : u = t
        · exact ⟨q, hT'.rings.mem_transfer.mpr (Or.inr ⟨hut, rfl⟩)⟩
        · exact ⟨p', hT'.rings.mem_transfer.mpr (Or.inl ⟨hut, hu⟩)⟩
      · obtain ⟨-, hu⟩ | ⟨rfl, hr⟩ := hT'.rings.mem_transfer.mp hu
        · exact hplaces u r hu
        · exact Or.inl ⟨ht, by simpa using hr, ht ▸ (hplaces u p htL).elim (fun h => ht ▸ h.2.2) id⟩
    · rw [if_neg ht]
      exact ⟨L', pre ++ [t], ⟨hT', by simp [hl]⟩, hraised, hthreads,
        by simp [howner, Ne.symm ht], hplaces⟩

/-- The owner has left the ready list of its old priority, so the only one it can be on is
that of the new one. -/
theorem filedIn_raise {q : Priority} (hF : FiledIn k L) (hthreads : k'.threads = k.threads)
    (howner : u ∉ L' (.ready (k.threads u).priority))
    (hplaces : ∀ v r, v ∈ L' (.ready r) →
      (v = u ∧ r = q ∧ u ∈ L (.ready (k.threads u).priority)) ∨ v ∈ L (.ready r)) :
    FiledIn (k'.setThread u fun i => { i with priority := q }) L' := by
  intro v r hv
  by_cases hvu : v = u
  · subst hvu
    obtain ⟨-, rfl, hold⟩ | hold := hplaces v r hv
    · simpa [Kernel.setThread, hthreads] using (hF v _ hold).1
    · exact absurd ((hF v r hold).2 ▸ hv) howner
  · have hold := (hplaces v r hv).resolve_left fun h => hvu h.1
    simpa [Kernel.setThread, hvu, hthreads] using hF v r hold

theorem threadInheritPriority {mutex : Mutex} (hT : Threaded k A L)
    (hinherit : k.threadInheritPriority mutex = some k') :
    ∃ L', Threaded k' A L' ∧ Raised k L k' L' ∧ (FiledIn k L → FiledIn k' L') ∧
      ((mutex.protocol ≠ .prioInherit ∧ k' = k) ∨
        ∃ owner, mutex.protocol = .prioInherit ∧ mutex.owner = some owner ∧ Lends k owner k') := by
  simp only [Kernel.threadInheritPriority] at hinherit
  split at hinherit
  · next hprotocol =>
      obtain rfl := Option.some.inj hinherit
      exact ⟨L, hT, Raised.refl k L, id, Or.inl ⟨hprotocol, rfl⟩⟩
  next hprotocol =>
    simp only [Option.bind_eq_bind, Option.bind_eq_some_iff] at hinherit
    obtain ⟨owner, howner, hbody⟩ := hinherit
    have hgives : ∀ {k'}, Lends k owner k' → (mutex.protocol ≠ .prioInherit ∧ k' = k) ∨
        ∃ owner, mutex.protocol = .prioInherit ∧ mutex.owner = some owner ∧ Lends k owner k' :=
      fun h => Or.inr ⟨owner, not_not.mp hprotocol, howner, h⟩
    -- the priorities that are preserved first change no list
    generalize hk₁ : (if (k.threads owner).priorityInherited = true then k else
      (k.setThread k.runningThread fun i => { i with originalPriority := i.priority }).setThread
        owner fun i => { i with priorityInherited := true }) = k₁ at hbody
    have hfirst : Threaded k₁ A L ∧ Raised k L k₁ L ∧ Files k L k₁ L := by
      subst hk₁
      split
      · exact ⟨hT, Raised.refl k L, Files.refl k L⟩
      · refine ⟨setThread (setThread hT ?_) ?_, (Raised.setThread ?_).trans (Raised.setThread ?_),
          (Files.setThread ?_).trans (Files.setThread ?_)⟩
        all_goals first | exact fun _ => rfl | exact fun _ => ⟨rfl, rfl⟩
    obtain ⟨hT₁, hraised₁, hfiles₁⟩ := hfirst
    have hrun₁ : k₁.runningThread = k.runningThread := by rw [hraised₁.rest]
    have hmarked : Marks k owner k₁ := hk₁ ▸ Marks.of_preserve k owner
    split at hbody
    · next hlt =>
        obtain ⟨k₂, L₂, hk₂, hT₂, hraised₂, hthreads, howner, hplaces⟩ :=
          hT₁.raiseOwner owner (Fin.ne_of_lt hlt)
        rw [hk₂, Option.bind_some, Option.some.injEq] at hbody
        subst hbody
        refine ⟨L₂, setThread hT₂ ?_, (hraised₁.trans hraised₂).trans (Raised.setThread ?_),
          fun hF => ?_, hgives (hmarked.raise hthreads (by rw [hrun₁]) hlt)⟩
        · exact fun _ => rfl
        · exact fun _ => rfl
        · exact filedIn_raise (hfiles₁.filedIn hF) hthreads howner hplaces
    · next hle =>
        obtain rfl := Option.some.inj hbody
        exact ⟨L, hT₁, hraised₁, hfiles₁.filedIn, hgives (hmarked.keep (hrun₁ ▸ hle))⟩

end Threaded

end Kernel

end Tenok
