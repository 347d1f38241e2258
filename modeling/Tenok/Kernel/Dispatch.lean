import Tenok.Kernel.ReadyLists
import Tenok.Kernel.Steady

/-!
The choice of `__schedule`. The current thread goes to the end of the sleep list and the
sleepers whose ticks are over go to the ends of the ready lists, in this order; then the
first thread of the highest ready list gets the CPU.
-/
namespace Tenok
open Ring Queues

namespace Kernel

/-- The sleep list once the current thread has been stopped. -/
def resting (k : Kernel) : List Tid := k.members .sleep ++ k.preempted

/-- The ready list of a priority once the sleepers whose ticks are over have joined it. -/
def contenders (k : Kernel) (p : Priority) : List Tid :=
  k.members (.ready p) ++ k.resting.filter fun t =>
    decide ((k.threads t).sleepTicks = 0#32) && decide ((k.threads t).priority = p)

def Runnable (k : Kernel) (t : Tid) : Prop :=
  (∃ p, t ∈ k.members (.ready p)) ∨ (t ∈ k.resting ∧ (k.threads t).sleepTicks = 0#32)

/-- What `__schedule` makes of the threads and their lists. -/
structure Chooses (k k' : Kernel) : Prop where
  runnable : k.Runnable k'.runningThread
  status : (k'.threads k'.runningThread).status = .running
  highest : ∀ t, k.Runnable t → (k.threads t).priority ≤ (k.threads k'.runningThread).priority
  first : (k.contenders (k.threads k'.runningThread).priority).head? = some k'.runningThread
  ready : ∀ p, k'.members (.ready p) = (k.contenders p).erase k'.runningThread
  sleep : k'.members .sleep =
    k.resting.filter fun t => !decide ((k.threads t).sleepTicks = 0#32)
  others : ∀ g ∈ inUse {t | k.Alive t}, g ≠ .sleep → (∀ p, g ≠ .ready p) →
    k'.members g = k.members g
  info : ∀ t, k'.threads t = { k.threads t with status := (k'.threads t).status }
  filed : k'.Filed
  alive : k'.bitmapThreads = k.bitmapThreads
  placed : ∀ t, k.Alive t → t ≠ k'.runningThread →
    ∃! g, g ∈ inUse {t | k.Alive t} ∧ t ∈ k'.members g
  once : ∀ g ∈ inUse {t | k.Alive t}, (k'.members g).Nodup ∧ k'.runningThread ∉ k'.members g

section Choice
variable {k k' : Kernel} {A : Set Tid} {L L' : SchedList → List Tid} {t : Tid} {p : Priority}

theorem mem_contenders (hF : k.Filed) :
    t ∈ k.contenders p ↔ k.Runnable t ∧ (k.threads t).priority = p := by
  simp only [contenders, Runnable, List.mem_append, List.mem_filter, Bool.and_eq_true,
    decide_eq_true_eq]
  constructor
  · rintro (ht | ⟨ht, hticks, hp⟩)
    · exact ⟨Or.inl ⟨p, ht⟩, (hF p t ht).2⟩
    · exact ⟨Or.inr ⟨ht, hticks⟩, hp⟩
  · rintro ⟨⟨q, ht⟩ | ⟨ht, hticks⟩, hp⟩
    · rw [(hF q t ht).2] at hp
      exact Or.inl (hp ▸ ht)
    · exact Or.inr ⟨ht, hticks, hp⟩

theorem highestReady_eq_some (hT : Threaded k A L) (hp : k.highestReady = some p) :
    L (.ready p) ≠ [] ∧ ∀ q, p < q → L (.ready q) = [] := by
  have hempty : ∀ q, listEmpty k.links (.inl (.ready q)) = true ↔ L (.ready q) = [] := by
    intro q
    rw [listEmpty_iff (hT.rings.ring _ (Threaded.ready_inUse q)), List.map_eq_nil_iff]
  obtain ⟨hsome, before, after, hlist, hbefore⟩ := List.find?_eq_some_iff_append.mp hp
  refine ⟨fun hnil => ?_, fun q hq => ?_⟩
  · rw [(hempty p).mpr hnil] at hsome
    exact Bool.noConfusion hsome
  · have hmem : q ∈ before ++ p :: after := by
      rw [← hlist]
      exact List.mem_reverse.mpr (List.mem_finRange q)
    have hsorted : (before ++ p :: after).Pairwise (· > ·) := by
      rw [← hlist, List.pairwise_reverse]
      exact List.pairwise_lt_finRange _
    have hafter : q ∉ p :: after := by
      intro hmem'
      obtain rfl | hmem' := List.mem_cons.mp hmem'
      · exact lt_irrefl _ hq
      · have hlt := (List.pairwise_cons.mp (List.pairwise_append.mp hsorted).2.1).1 q hmem'
        exact lt_asymm hq hlt
    have hq' := hbefore q ((List.mem_append.mp hmem).resolve_right hafter)
    rw [Bool.not_not] at hq'
    exact (hempty q).mp hq'

theorem highestReady_isSome (hT : Threaded k A L) (hp : L (.ready p) ≠ []) :
    ∃ q, k.highestReady = some q := by
  have hempty := listEmpty_iff (hT.rings.ring _ (Threaded.ready_inUse p))
  rw [List.map_eq_nil_iff] at hempty
  apply Option.isSome_iff_exists.mp
  rw [highestReady, List.find?_isSome]
  refine ⟨p, List.mem_reverse.mpr (List.mem_finRange p), ?_⟩
  rw [Bool.not_eq_true', Bool.eq_false_iff]
  exact fun h => hp (hempty.mp h)

theorem wakeSleepers_stopRunning (hT : Threaded k A L) :
    ∃ k₁ L₁, k.stopRunning.wakeSleepers = some k₁ ∧ Threaded k₁ A L₁ ∧
      (∀ u, (k₁.threads u).status ≠ .running) ∧
      k₁.bitmapThreads = k.bitmapThreads ∧ (∀ q, L₁ (.ready q) = k.contenders q) ∧
      L₁ .sleep = k.resting.filter (fun t => !decide ((k.threads t).sleepTicks = 0#32)) ∧
      ∀ g, g ≠ .sleep → (∀ q, g ≠ .ready q) → L₁ g = L g := by
  obtain ⟨L₁, hT₁, hidle, hothers, hsleep, -⟩ := hT.stopRunning
  obtain ⟨k₂, L₂, hk₂, hT₂, hW, -, hstay, hqueue⟩ := hT₁.wakeSleepers
  have hresting : L₁ .sleep = k.resting := by
    rw [hsleep, resting, hT.members_eq Threaded.sleep_inUse]
  have hticks : ∀ t, (k.stopRunning.threads t).sleepTicks = (k.threads t).sleepTicks ∧
      (k.stopRunning.threads t).priority = (k.threads t).priority := by
    intro t
    rw [Threaded.stopRunning_info]
    exact ⟨rfl, rfl⟩
  refine ⟨k₂, L₂, hk₂, hT₂, ?_, ?_, ?_, ?_, ?_⟩
  · intro u hu
    obtain hsame | hready := hW.status u
    · exact hidle u (hsame.symm.trans hu)
    · simp [hready] at hu
  · rw [hW.rest, Threaded.stopRunning_rest]
  · intro q
    rw [hqueue, hothers _ (by simp), hresting, contenders, hT.members_eq (Threaded.ready_inUse q)]
    simp only [hticks]
  · rw [hstay, hresting]
    simp only [hticks]
  · intro g hg hready
    rw [hW.others g (by simpa using hg) hready, hothers g hg]

theorem schedule_takes (hT : Threaded k {t | k.Alive t} L) (hne : ∃ p, k.contenders p ≠ []) :
    ∃ k' L' p l, k.schedule = some k' ∧ Threaded k' {t | k.Alive t} L' ∧
      k'.bitmapThreads = k.bitmapThreads ∧ k.contenders p = k'.runningThread :: l ∧
      (∀ q, p < q → k.contenders q = []) ∧
      (∀ q, L' (.ready q) = (k.contenders q).erase k'.runningThread) ∧
      L' .sleep = k.resting.filter (fun t => !decide ((k.threads t).sleepTicks = 0#32)) ∧
      ∀ g, g ≠ .sleep → (∀ q, g ≠ .ready q) → L' g = L g := by
  obtain ⟨k₁, L₁, hk₁, hT₁, hidle, halive, hready, hsleep, hothers⟩ :=
    wakeSleepers_stopRunning hT
  obtain ⟨q, hq⟩ := hne
  rw [← hready] at hq
  obtain ⟨p, hp⟩ := highestReady_isSome hT₁ hq
  obtain ⟨hne, habove⟩ := highestReady_eq_some hT₁ hp
  obtain ⟨t, l, hl⟩ := List.exists_cons_of_ne_nil hne
  have hmem : t ∈ L₁ (.ready p) := hl ▸ List.mem_cons_self
  have hnot : ∀ g, (∀ q, g ≠ .ready q) → t ∉ L₁ g := fun g hg ht =>
    hg p (hT₁.rings.unique ht hmem)
  have hnext : listEntry (next k₁.links (.inl (.ready p))) = some t := by
    rw [hT₁.next_head (Threaded.ready_inUse p), hl]
    rfl
  refine ⟨_, dequeue L₁ t, p, l, ?_, hT₁.dispatch hidle hmem, halive, ?_, ?_, ?_, ?_, ?_⟩
  · simp only [Kernel.schedule, hk₁, Option.bind_eq_bind, Option.bind_some, hp, hnext]
    rfl
  · exact (hready p).symm.trans hl
  · intro q hq
    rw [← hready, habove q hq]
  · intro q
    exact congrArg (List.erase · t) (hready q)
  · rw [dequeue_of_notMem (hnot _ (by simp)), hsleep]
  · intro g hg hnready
    rw [dequeue_of_notMem (hnot g hnready), hothers g hg hnready]

/-- With a thread that can run, `__schedule` runs the first one of the highest priority; a
preempted thread that has ticks left to sleep goes on sleeping. -/
theorem schedule_chooses (hT : Threaded k {t | k.Alive t} L) (hF : k.Filed)
    (hrun : ∃ t, k.Runnable t) : ∃ k', k.schedule = some k' ∧ Chooses k k' := by
  have hcontends : ∀ {t}, k.Runnable t → t ∈ k.contenders (k.threads t).priority := fun ht =>
    (mem_contenders hF).mpr ⟨ht, rfl⟩
  obtain ⟨u, hu⟩ := hrun
  obtain ⟨k', L', p, l, hsched, hT', halive, hfirst, habove, hready, hsleep, hothers⟩ :=
    schedule_takes hT ⟨_, List.ne_nil_of_mem (hcontends hu)⟩
  obtain ⟨htrun, htp⟩ := (mem_contenders hF).mp (hfirst ▸ List.mem_cons_self)
  obtain ⟨L'', hT'', hD⟩ := hT.schedule hsched
  refine ⟨k', hsched, htrun, hD.status, ?_, ?_, ?_, ?_, ?_, hD.info, ?_, halive, ?_, ?_⟩
  · intro t ht
    rw [htp]
    by_contra hlt
    have hnil := habove _ (not_le.mp hlt)
    exact List.ne_nil_of_mem (hcontends ht) hnil
  · rw [htp, hfirst, List.head?_cons]
  · intro q
    rw [hT'.members_eq (Threaded.ready_inUse q), hready]
  · rw [hT'.members_eq Threaded.sleep_inUse, hsleep]
  · intro g hg hne hnready
    rw [hT'.members_eq hg, hT.members_eq hg, hothers g hne hnready]
  · exact (filed_iff hT'').mpr (hD.files.filedIn ((filed_iff hT).mp hF))
  · intro t ht hne
    have ht' : k'.Alive t := by
      rw [Alive, halive]
      exact ht
    obtain ⟨g, hg⟩ := hT'.exists_mem ht' hne
    have hin := hT'.rings.inUse hg
    refine ⟨g, ⟨hin, ?_⟩, ?_⟩
    · rw [hT'.members_eq hin]
      exact hg
    · rintro g' ⟨hin', hg'⟩
      rw [hT'.members_eq hin'] at hg'
      exact hT'.rings.unique hg' hg
  · intro g hg
    rw [hT'.members_eq hg]
    exact ⟨hT'.rings.nodup g, hT'.notMem_of_running hD.status g⟩

end Choice

/-- The task and its thread have one priority, and the one that runs gives way. -/
theorem schedule_chooses_at_user :
    ∃ k', userKernel.schedule = some k' ∧ Chooses userKernel k' := by
  obtain ⟨L, hS⟩ := userKernel_settled.steady
  apply schedule_chooses hS.threaded
  · decide +kernel
  · exact ⟨userKernel.runningThread, Or.inr ⟨by decide +kernel, by decide +kernel⟩⟩

/-- A thread has a priority of 2 and ticks left, as if it had been woken before its time. -/
def doze (k : Kernel) (t : Tid) : Kernel :=
  k.setThread t fun i => { i with priority := 2, sleepTicks := 5#32 }

theorem doze_threaded {k : Kernel} {t : Tid} {L : SchedList → List Tid}
    (hT : Threaded k {t | k.Alive t} L) : Threaded (k.doze t) {u | (k.doze t).Alive u} L :=
  hT.setThread fun _ => rfl

/-- It is stopped and not woken again, although no thread has a higher priority. -/
theorem schedule_not_for_dozing : ¬ ∀ k L, Threaded k {t | k.Alive t} L → k.Filed →
    (k.threads k.runningThread).status = .running →
    ∃ k', k.schedule = some k' ∧
      (k.threads k.runningThread).priority ≤ (k.threads k'.runningThread).priority := by
  intro hclaim
  obtain ⟨L, hS⟩ := userKernel_settled.steady
  obtain ⟨k', hsched, hle⟩ := hclaim (userKernel.doze 5) L (doze_threaded hS.threaded)
    (by decide +kernel) (by decide +kernel)
  have hrun : (userKernel.doze 5).schedule.map (fun k' => decide
      (((userKernel.doze 5).threads (userKernel.doze 5).runningThread).priority ≤
        ((userKernel.doze 5).threads k'.runningThread).priority)) = some false := by
    decide +kernel
  rw [hsched, Option.map_some, Option.some.injEq, decide_eq_false_iff_not] at hrun
  exact hrun hle

end Kernel

end Tenok
